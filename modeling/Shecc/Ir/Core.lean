import Shecc.Word.Core

/-!
# The intermediate representation

This file fixes the records the middle end and the back end pass around:
opcodes, variables, three-address instructions and phase-two instructions. The
fields are those of `var_t`, `insn_t` and `ph2_ir_t` that some modelled pass
reads. Pointers to variables and to basic blocks become numeric names; what a
pointer points at is kept in a store indexed by these names.
-/

namespace Shecc

/-- The name of a `var_t`. -/
abbrev VarId := Nat

/-- The name of a `basic_block_t`. -/
abbrev BlockId := Nat

/-- The opcodes, in the order of the enumeration `opcode_t`. -/
inductive Opcode where
  | generic
  | phi
  | unwoundPhi
  | define
  | push
  | call
  | indirect
  | return_
  | allocat
  | assign
  | loadConstant
  | loadDataAddress
  | loadRodataAddress
  | branch
  | jump
  | funcRet
  | label
  | addressOfFunc
  | loadFunc
  | globalLoadFunc
  | addressOf
  | globalAddressOf
  | load
  | globalLoad
  | store
  | globalStore
  | read
  | write
  | add
  | sub
  | mul
  | div
  | mod
  | ternary
  | lshift
  | rshift
  | logAnd
  | logOr
  | logNot
  | eq
  | neq
  | lt
  | leq
  | gt
  | geq
  | bitOr
  | bitAnd
  | bitXor
  | bitNot
  | negate
  | trunc
  | signExt
  | cast
  | start
  deriving DecidableEq, Repr

/-- A variable record. A freshly named variable has all counters at the values
`require_var` gives them. -/
structure Var where
  ptrLevel : Nat := 0
  isFunc : Bool := false
  isGlobal : Bool := false
  addressTaken : Bool := false
  arraySize : Nat := 0
  offset : Int := 0
  initVal : Word := 0
  consumed : Int := -1
  isTernaryRet : Bool := false
  isLogicalRet : Bool := false
  isConst : Bool := false
  physReg : Int := -1
  firstUse : Int := -1
  lastUse : Int := -1
  loopDepth : Int := 0
  useCount : Int := 0
  spaceIsAllocated : Bool := false
  ofsBasedOnStackTop : Bool := false
  deriving DecidableEq, Repr

/-- What every variable name points at. -/
abbrev Vars := VarId → Var

namespace Vars

/-- Overwrite one record. -/
def set (vars : Vars) (v : VarId) (record : Var) : Vars :=
  Function.update vars v record

/-- `v->is_const = true; v->init_val = value`. -/
def setConst (vars : Vars) (v : VarId) (value : Word) : Vars :=
  vars.set v { vars v with isConst := true, initVal := value }

/-- `v->init_val = value`. -/
def setInitVal (vars : Vars) (v : VarId) (value : Word) : Vars :=
  vars.set v { vars v with initVal := value }

@[simp] theorem set_same (vars : Vars) (v : VarId) (record : Var) :
    vars.set v record v = record := by
  simp [set]

@[simp] theorem set_ne (vars : Vars) {u v : VarId} (record : Var) (different : u ≠ v) :
    vars.set v record u = vars u := by
  simp [set, different]

@[simp] theorem setConst_same (vars : Vars) (v : VarId) (value : Word) :
    vars.setConst v value v = { vars v with isConst := true, initVal := value } := by
  simp [setConst]

@[simp] theorem setConst_ne (vars : Vars) {u v : VarId} (value : Word) (different : u ≠ v) :
    vars.setConst v value u = vars u := by
  simp [setConst, different]

@[simp] theorem setInitVal_same (vars : Vars) (v : VarId) (value : Word) :
    vars.setInitVal v value v = { vars v with initVal := value } := by
  simp [setInitVal]

@[simp] theorem setInitVal_ne (vars : Vars) {u v : VarId} (value : Word)
    (different : u ≠ v) : vars.setInitVal v value u = vars u := by
  simp [setInitVal, different]

/-- Writing an initial value leaves every constant flag alone. -/
@[simp] theorem setInitVal_isConst (vars : Vars) (u v : VarId) (value : Word) :
    (vars.setInitVal v value u).isConst = (vars u).isConst := by
  by_cases same : u = v
  · subst same
    simp
  · simp [same]

/-- The attribute of a variable that never changes after parsing. -/
@[simp] theorem setConst_isGlobal (vars : Vars) (u v : VarId) (value : Word) :
    (vars.setConst v value u).isGlobal = (vars u).isGlobal := by
  by_cases same : u = v
  · subst same
    simp
  · simp [same]

@[simp] theorem setInitVal_isGlobal (vars : Vars) (u v : VarId) (value : Word) :
    (vars.setInitVal v value u).isGlobal = (vars u).isGlobal := by
  by_cases same : u = v
  · subst same
    simp
  · simp [same]

end Vars

/-- A three-address instruction. A missing operand is the null pointer. -/
structure Insn where
  opcode : Opcode
  rd : Option VarId := none
  rs1 : Option VarId := none
  rs2 : Option VarId := none
  sz : Int := 0
  str : String := ""
  useful : Bool := false
  idx : Int := 0
  deriving DecidableEq, Repr

/-- A phase-two instruction. Its operand fields hold registers, offsets, sizes
or constants, as the opcode says. -/
structure Ph2Ir where
  op : Opcode
  src0 : Int := 0
  src1 : Int := 0
  dest : Int := 0
  funcName : String := ""
  nextBb : Option BlockId := none
  thenBb : Option BlockId := none
  elseBb : Option BlockId := none
  isBranchDetached : Bool := false
  ofsBasedOnStackTop : Bool := false
  deriving DecidableEq, Repr

end Shecc
