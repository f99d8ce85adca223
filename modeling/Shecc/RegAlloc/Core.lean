import Shecc.Ir.Exec
import Shecc.Libc.Integers

/-!
# The register allocator

`reg_alloc` goes through the blocks of a function in layout order and emits phase-two code.
It keeps track of the variable in each register, writes a variable back when its register is
needed, and hands out a slot of the stack frame when a variable is written back for the first
time or its address is taken.
-/

namespace Shecc.RegAlloc

open Libc (wrap)

/-- `REG_CNT`. -/
def regCnt : Int := 8

/-- `MAX_PARAMS`. -/
def maxParams : Int := 8

/-- `PTR_SIZE`. -/
def ptrSize : Int := 4

/-- `MAX_ARGS_IN_REG`. -/
def maxArgsInReg : Arch → Int
  | .arm => 4
  | .riscv => 8

/-- The registers from the first to the last. -/
def registers : List Int := [0, 1, 2, 3, 4, 5, 6, 7]

/-- The room for the arguments of callees that do not go in registers: the `stack_size` a
function starts with. -/
def argumentArea (arch : Arch) : Int := (maxParams - maxArgsInReg arch) * 4

/-- `align_size`. -/
def alignSize (i : Int) : Int := if i ≤ 4 then 4 else wrap (i + 3) / 4 * 4

/-- `type_t`: the built-in types are told apart by their addresses. -/
inductive VarType
  | void | int | short | char | bool
  | other (size : Int)
  deriving DecidableEq

/-- `type->size`. -/
def VarType.size : VarType → Int
  | .void => 0
  | .int => 4
  | .short => 2
  | .char => 1
  | .bool => 1
  | .other size => size

/-- `TY_void`, `TY_int`, `TY_short`, `TY_char` or `TY_bool`. -/
def VarType.isBuiltin : VarType → Bool
  | .other _ => false
  | _ => true

/-- `basic_block_t`, with the lists of variables of the liveness analysis. -/
structure BasicBlock extends Block where
  id : BlockId
  liveOut : List VarId
  liveKill : List VarId

/-- What is fixed when the allocator starts: the target, the option for dynamic linking and
what `find_func` knows, which is the number of parameters. -/
structure Env where
  arch : Arch
  dynlink : Bool
  findFunc : String → Option Int

/-- `func_t` and the tables of its variables. `paramDefs` are the first subscripts of the
parameters; `rest` are the blocks behind the first along `rpo_next`. Only globals have a place,
and no variable has one in the frame of a caller. What `OP_allocat` declares is renamed and is
therefore no parameter. -/
structure Func where
  name : String
  returnsVoid : Bool
  vaArgs : Bool
  paramDefs : List VarId
  bbs : BasicBlock
  rest : List BasicBlock
  exit : BlockId
  exitPrev : List BasicBlock
  rpo : BlockId → Int
  visited : Nat
  vars : Vars
  type : VarId → Option VarType
  varName : VarId → String
  fewParams : (paramDefs.length : Int) ≤ maxParams
  distinct : paramDefs.Nodup
  localParams : ∀ v ∈ paramDefs, (vars v).isGlobal = false
  placed : ∀ v, (vars v).spaceIsAllocated = (vars v).isGlobal
  unflagged : ∀ v, (vars v).ofsBasedOnStackTop = false
  declares : ∀ bb ∈ bbs :: rest, ∀ insn ∈ bb.insns, insn.opcode = .allocat →
    ∀ v ∈ insn.rd, v ∉ paramDefs ∧ (vars v).isGlobal = false
  globalAddresses : ∀ bb ∈ bbs :: rest, ∀ insn ∈ bb.insns, insn.opcode = .globalAddressOf →
    ∀ v ∈ insn.rs1, (vars v).isGlobal = true

/-- `regfile_t`. -/
structure Reg where
  var : Option VarId
  polluted : Bool

/-- A variable asks for room in the frame: a slot, or a slot and an object of `bytes` bytes
behind it. -/
structure Request where
  owner : VarId
  bytes : Option Int
  deriving DecidableEq

/-- What the allocator changes. `used` are the functions whose `is_used` it sets. Nothing reads
`requests`, which records what the stack frame was extended for. -/
structure State where
  vars : Vars
  regs : Int → Reg
  stackSize : Int
  code : BlockId → List Ph2Ir
  visited : BlockId → Nat
  mainBb : Option BlockId
  used : List String
  requests : List Request

/-- How the allocator stops: with `abort`, by following the null pointer, or outside `REGS`. -/
inductive Stop
  | abort
  | nullPointer
  | outOfBounds
  deriving DecidableEq

/-- A computation of the allocator. -/
abbrev Alloc := StateT State (Except Stop)

namespace Alloc

variable {α β : Type}

/-- The computation that stops. -/
def fail (stop : Stop) : Alloc α := fun _ => .error stop

/-- A pointer that must not be null. -/
def deref : Option α → Alloc α
  | some value => pure value
  | none => fail .nullPointer

/-- A computation and what follows it return together. -/
theorem bind_eq_ok_iff {step : Alloc α} {rest : α → Alloc β} {s : State}
    {result : β × State} :
    (step >>= rest) s = .ok result ↔
      ∃ value s', step s = .ok (value, s') ∧ rest value s' = .ok result := by
  change (step s).bind (fun middle => rest middle.1 middle.2) = _ ↔ _
  cases step s with
  | error stop => simp [Except.bind]
  | ok middle =>
      rcases middle with ⟨value, s'⟩
      simp [Except.bind]

end Alloc

open Alloc

/-! ## Variables and registers -/

/-- The record of a variable. -/
def record (var : VarId) : Alloc Var := do return (← get).vars var

/-- Change the record of a variable. -/
def modifyVar (var : VarId) (change : Var → Var) : Alloc Unit :=
  modify fun s => { s with vars := s.vars.set var (change (s.vars var)) }

/-- `REGS[i]`. -/
def reg (i : Int) : Alloc Reg := do
  if 0 ≤ i ∧ i < regCnt then return (← get).regs i else fail .outOfBounds

/-- Overwrite `REGS[i]`. -/
def setReg (i : Int) (content : Reg) : Alloc Unit := do
  if 0 ≤ i ∧ i < regCnt then modify fun s => { s with regs := Function.update s.regs i content }
  else fail .outOfBounds

/-- `vreg_map_to_phys`. -/
def vregMapToPhys (var : Option VarId) (physReg : Int) : Alloc Unit :=
  match var with
  | some var => modifyVar var fun r => { r with physReg := physReg }
  | none => pure ()

/-- `vreg_get_phys`. -/
def vregGetPhys (var : Option VarId) : Alloc Int :=
  match var with
  | some var => do return (← record var).physReg
  | none => return -1

/-- `vreg_clear_phys`. -/
def vregClearPhys (var : Option VarId) : Alloc Unit := vregMapToPhys var (-1)

/-- `check_live_out`. -/
def checkLiveOut (bb : BasicBlock) (var : VarId) : Bool := decide (var ∈ bb.liveOut)

/-- `var_check_killed`. -/
def varCheckKilled (var : VarId) (bb : BasicBlock) : Bool := decide (var ∈ bb.liveKill)

/-- `track_var_use`. -/
def trackVarUse (var : Option VarId) (insnIdx : Int) : Alloc Unit :=
  match var with
  | some var => modifyVar var fun r =>
      { r with
        useCount := r.useCount + 1
        firstUse := if r.firstUse < 0 then insnIdx else r.firstUse
        lastUse := insnIdx }
  | none => pure ()

/-- `REGS[i].var = NULL`. -/
def forget (i : Int) : Alloc Unit := do
  let content ← reg i
  setReg i { content with var := none }

/-- Take a variable out of its register. -/
def release (i : Int) (var : VarId) : Alloc Unit := do
  vregClearPhys var
  setReg i { var := none, polluted := false }

/-- `refresh`. -/
def refresh (bb : BasicBlock) (insn : Insn) : Alloc Unit :=
  registers.forM fun i => do
    match (← reg i).var with
    | none => pure ()
    | some var =>
        if checkLiveOut bb var then pure ()
        else if (← record var).consumed < insn.idx then release i var
        else pure ()

/-- `bb_add_ph2_ir`, with the fields the caller fills in. -/
def bbAddPh2Ir (bb : BasicBlock) (ir : Ph2Ir) : Alloc Unit :=
  modify fun s => { s with code := Function.update s.code bb.id (s.code bb.id ++ [ir]) }

/-! ## Room in the frame -/

/-- Hand out the four bytes behind the frame. -/
def takeSlot (var : VarId) : Alloc Unit :=
  modify fun s =>
    { s with
      vars := s.vars.set var { s.vars var with offset := s.stackSize, spaceIsAllocated := true }
      stackSize := wrap (s.stackSize + 4)
      requests := s.requests ++ [Request.mk var none] }

/-- Hand out four bytes unless the variable has a place. -/
def takeSlotOnce (var : VarId) : Alloc Unit := do
  if (← record var).spaceIsAllocated then pure () else takeSlot var

/-- `sz` of an `OP_allocat`: the size of the variable or of an element. -/
def elementSize (f : Func) (r : Var) (var : VarId) : Alloc Int :=
  if r.ptrLevel ≠ 0 then return ptrSize else do return (← deref (f.type var)).size

/-- The bytes of an object, as they are to be: of all elements, or of the one. -/
def objectBytes (r : Var) (sz : Int) : Int := if r.arraySize ≠ 0 then r.arraySize * sz else sz

/-- Hand out a slot and an object behind it; returned is where the object begins. -/
def takeObject (f : Func) (var : VarId) : Alloc Int := do
  let r ← record var
  let sz ← elementSize f r var
  let s ← get
  let src0 := wrap (s.stackSize + ptrSize)
  set { s with
    vars := s.vars.set var { r with offset := s.stackSize, spaceIsAllocated := true }
    stackSize := wrap (src0 + alignSize (wrap (objectBytes r sz)))
    requests := s.requests ++ [Request.mk var (some (objectBytes r sz))] }
  return src0

/-! ## Spilling and loading -/

/-- `calculate_spill_cost`. -/
def calculateSpillCost (s : State) (var : VarId) (bb : BasicBlock) (currentIdx : Int) : Int :=
  let r := s.vars var
  let distance := r.consumed - currentIdx
  (if checkLiveOut bb var then 1000 else 0) +
    (if r.consumed > currentIdx ∧ distance < 10 then 100 - distance * 10 else 0) +
    (if r.useCount > 0 then r.useCount * 5 else 0) +
    (if r.loopDepth > 0 then r.loopDepth * 200 else 0) -
    (if r.isConst then 50 else 0) +
    (if r.firstUse ≥ 0 ∧ r.lastUse ≥ 0 ∧ r.lastUse - r.firstUse > 100 then 20 else 0)

/-- `find_best_spill`. -/
def findBestSpill (s : State) (bb : BasicBlock) (currentIdx avoidReg1 avoidReg2 : Int) : Int :=
  (registers.foldl (fun (best : Int × Int) i =>
    if i = avoidReg1 ∨ i = avoidReg2 then best
    else
      match (s.regs i).var with
      | none => best
      | some var =>
          let cost := calculateSpillCost s var bb currentIdx
          if cost < best.2 then (i, cost) else best) (-1, 99999)).1

/-- `spill_var`. -/
def spillVar (bb : BasicBlock) (var : VarId) (idx : Int) : Alloc Unit := do
  if (← reg idx).polluted then
    takeSlotOnce var
    let r ← record var
    bbAddPh2Ir bb
      { op := if r.isGlobal then .globalStore else .store
        src0 := idx
        src1 := r.offset
        ofsBasedOnStackTop := r.ofsBasedOnStackTop }
    setReg idx { var := none, polluted := false }
    vregClearPhys var
  else
    forget idx
    vregClearPhys var

/-- `find_in_regs`; the null pointer is found in a free register. -/
def findInRegs (s : State) (var : Option VarId) : Int :=
  (registers.find? fun i => (s.regs i).var = var).getD (-1)

/-- The phase-two instruction of `load_var`. -/
def loadIr (r : Var) (idx : Int) : Ph2Ir :=
  if r.isConst then { op := .loadConstant, src0 := r.initVal.toInt, dest := idx }
  else
    { op := if r.isGlobal then .globalLoad else .load
      src0 := r.offset
      dest := idx
      ofsBasedOnStackTop := r.ofsBasedOnStackTop }

/-- `load_var`. -/
def loadVar (bb : BasicBlock) (var : VarId) (idx : Int) : Alloc Unit := do
  bbAddPh2Ir bb (loadIr (← record var) idx)
  setReg idx { var := var, polluted := false }
  vregMapToPhys var idx

/-- `bb->insn_list.tail->idx`, or zero in an empty block. -/
def lastIdx (bb : BasicBlock) : Int := (bb.insns.getLast?.map (·.idx)).getD 0

/-- The first register that holds a variable, other than the given ones. -/
def firstHeld (s : State) (avoidReg1 avoidReg2 : Int) : Int :=
  (registers.find? fun i =>
    decide (i ≠ avoidReg1 ∧ i ≠ avoidReg2) && (s.regs i).var.isSome).getD (-1)

/-- Choose a register to spill, and spill it. -/
def spillBest (bb : BasicBlock) (avoidReg1 avoidReg2 : Int) : Alloc Int := do
  let s ← get
  let best := findBestSpill s bb (lastIdx bb) avoidReg1 avoidReg2
  let spilled := if best < 0 then firstHeld s avoidReg1 avoidReg2 else best
  let old ← deref (← reg spilled).var
  vregClearPhys old
  spillVar bb old spilled
  return spilled

/-- `prepare_operand`. -/
def prepareOperand (bb : BasicBlock) (var : Option VarId) (operand0 : Int) : Alloc Int := do
  let var ← deref var
  let physReg ← vregGetPhys var
  let s ← get
  if 0 ≤ physReg ∧ physReg < regCnt ∧ (s.regs physReg).var = some var then return physReg
  else
    let i := findInRegs s var
    if i > -1 ∧ (s.vars var).addressTaken = false then
      vregMapToPhys var i
      return i
    else
      let free := findInRegs s none
      if free > -1 then
        loadVar bb var free
        vregMapToPhys var free
        return free
      else
        let spilled ← spillBest bb operand0 (-1)
        loadVar bb var spilled
        vregMapToPhys var spilled
        return spilled

/-- `prepare_dest`. -/
def prepareDest (bb : BasicBlock) (var : Option VarId) (operand0 operand1 : Int) :
    Alloc Int := do
  let physReg ← vregGetPhys var
  let s ← get
  if 0 ≤ physReg ∧ physReg < regCnt ∧ (s.regs physReg).var = var then
    setReg physReg { s.regs physReg with polluted := true }
    return physReg
  else
    let i := findInRegs s var
    if i > -1 then
      setReg i { s.regs i with polluted := true }
      vregMapToPhys var i
      return i
    else
      let free := findInRegs s none
      if free > -1 then
        setReg free { var := var, polluted := true }
        vregMapToPhys var free
        return free
      else
        let spilled ← spillBest bb operand0 operand1
        setReg spilled { var := var, polluted := true }
        vregMapToPhys var spilled
        return spilled

/-- `spill_alive`. -/
def spillAlive (bb : BasicBlock) (insn : Insn) : Alloc Unit :=
  registers.forM fun i => do
    match (← reg i).var with
    | none => pure ()
    | some var =>
        let r ← record var
        if insn.opcode = .write then
          if r.isGlobal then pure () else spillVar bb var i
        else if checkLiveOut bb var then spillVar bb var i
        else if r.consumed > insn.idx then spillVar bb var i
        else pure ()

/-- `spill_live_out`. -/
def spillLiveOut (bb : BasicBlock) : Alloc Unit :=
  registers.forM fun i => do
    match (← reg i).var with
    | none => pure ()
    | some var =>
        if checkLiveOut bb var = false then release i var
        else if varCheckKilled var bb = false then release i var
        else spillVar bb var i

/-- `extend_liveness`. -/
def extendLiveness (bb : BasicBlock) (insn : Insn) (var : Option VarId) (offset : Int) :
    Alloc Unit := do
  let var ← deref var
  if checkLiveOut bb var then pure ()
  else modifyVar var fun r =>
    { r with consumed := if insn.idx + offset > r.consumed then insn.idx + offset else r.consumed }

/-! ## Arguments -/

variable (env : Env) (f : Func)

/-- Store the arguments that do not go in registers, the last one first. -/
def storeStackArgs (bb : BasicBlock) : List Insn → Alloc Unit
  | [] => pure ()
  | insn :: rest => do
      loadVar bb (← deref insn.rs1) (maxArgsInReg env.arch - 1)
      bbAddPh2Ir bb
        { op := .store, src0 := maxArgsInReg env.arch - 1, src1 := rest.length * 4 }
      storeStackArgs bb rest

/-- `abi_lower_call_args`, called on an instruction and those behind it. -/
def abiLowerCallArgs (bb : BasicBlock) (insns : List Insn) : Alloc Bool := do
  let pushes := insns.takeWhile (·.opcode = .push)
  if pushes.length ≤ maxArgsInReg env.arch then return false
  else if insns.length = pushes.length then fail .nullPointer
  else
    storeStackArgs env bb (pushes.drop (maxArgsInReg env.arch).toNat).reverse
    forget (maxArgsInReg env.arch - 1)
    return true

/-- `args_in_reg`. -/
def argsInReg : Int := min f.paramDefs.length (maxArgsInReg env.arch)

/-- The parameter `i` of a function, if it has as many. -/
def Func.param (i : Int) : Option VarId := if 0 ≤ i then f.paramDefs[i.toNat]? else none

/-- Load the argument `i` of a variadic function, if the caller stored it. -/
def fetchArgument (i : Int) : Alloc Unit :=
  if i ≥ maxArgsInReg env.arch then
    bbAddPh2Ir f.bbs
      { op := .load
        src0 := (i - maxArgsInReg env.arch) * 4
        dest := maxArgsInReg env.arch
        ofsBasedOnStackTop := true }
  else pure ()

/-- Place the parameter `i` of a variadic function, if it is in a register. -/
def placeArgument (i : Int) : Alloc Unit := do
  if i < argsInReg env f then
    let var ← deref (f.param i)
    modify fun s => { s with
      vars := s.vars.set var { s.vars var with offset := s.stackSize, spaceIsAllocated := true } }
  else pure ()

/-- Copy the argument `i` of a variadic function to its frame. -/
def copyArgument (i : Int) : Alloc Unit := do
  fetchArgument env f i
  placeArgument env f i
  let src1 := (← get).stackSize
  bbAddPh2Ir f.bbs
    { op := .store
      src0 := if i ≥ maxArgsInReg env.arch then maxArgsInReg env.arch else i
      src1 := src1 }
  modify fun s => { s with stackSize := wrap (s.stackSize + 4) }

/-- Leave the argument `i` where the caller stored it. -/
def leaveArgument (i : Int) : Alloc Unit := do
  if maxArgsInReg env.arch ≤ i ∧ i < f.paramDefs.length then
    let var ← deref (f.param i)
    modifyVar var fun r =>
      { r with
        offset := (i - maxArgsInReg env.arch) * 4
        spaceIsAllocated := true
        ofsBasedOnStackTop := true }
  else pure ()

/-- The parameters of a function, before its first block. -/
def placeParameters : Alloc Unit := do
  registers.forM forget
  registers.forM fun i =>
    if i < argsInReg env f then setReg i { var := f.param i, polluted := true } else pure ()
  if f.vaArgs then [0, 1, 2, 3, 4, 5, 6, 7].forM (copyArgument env f)
  else [0, 1, 2, 3, 4, 5, 6, 7].forM (leaveArgument env f)

/-! ## Instructions -/

/-- The arguments of the next call that have been placed. -/
structure Pushing where
  isPushingArgs : Bool := false
  handleAbi : Bool := false
  argsOnStack : Bool := false
  args : Int := 0

/-- `OP_unwound_phi`. -/
def allocUnwoundPhi (bb : BasicBlock) (insn : Insn) : Alloc Unit := do
  trackVarUse insn.rs1 insn.idx
  let src0 ← prepareOperand bb insn.rs1 (-1)
  let rd ← deref insn.rd
  takeSlotOnce rd
  let r ← record rd
  bbAddPh2Ir bb
    { op := .store, src0 := src0, src1 := r.offset, ofsBasedOnStackTop := r.ofsBasedOnStackTop }

/-- `OP_allocat`. -/
def allocAllocat (bb : BasicBlock) (insn : Insn) : Alloc Unit := do
  let rd ← deref insn.rd
  let r ← record rd
  if ((f.type rd).map VarType.isBuiltin).getD false ∧ r.arraySize = 0 then pure ()
  else
    let src0 ← takeObject f rd
    let dest ← prepareDest bb rd (-1) (-1)
    bbAddPh2Ir bb
      { op := .addressOf
        src0 := src0
        dest := dest
        ofsBasedOnStackTop := (← record rd).ofsBasedOnStackTop }
    if r.arraySize ≠ 0 then spillVar bb rd dest else pure ()

/-- Store a global variable immediately. -/
def storeGlobal (bb : BasicBlock) (rd : VarId) (dest : Int) : Alloc Unit := do
  let r ← record rd
  if r.isGlobal then
    bbAddPh2Ir bb { op := .globalStore, src0 := dest, src1 := r.offset }
    setReg dest { (← reg dest) with polluted := false }
  else pure ()

/-- `OP_load_constant`, `OP_load_data_address` and `OP_load_rodata_address`. -/
def allocLoadConstant (bb : BasicBlock) (insn : Insn) : Alloc Unit := do
  let dest ← prepareDest bb insn.rd (-1) (-1)
  let rd ← deref insn.rd
  bbAddPh2Ir bb { op := insn.opcode, src0 := (← record rd).initVal.toInt, dest := dest }
  storeGlobal bb rd dest

/-- Write a variable whose address is taken from its registers to its new slot. -/
def storeCached (bb : BasicBlock) (var : VarId) : Alloc Unit :=
  registers.forM fun i => do
    if (← reg i).var = some var then
      let r ← record var
      bbAddPh2Ir bb
        { op := .store, src0 := i, src1 := r.offset, ofsBasedOnStackTop := r.ofsBasedOnStackTop }
      forget i
    else pure ()

/-- `OP_address_of` and `OP_global_address_of`. -/
def allocAddressOf (bb : BasicBlock) (insn : Insn) : Alloc Unit := do
  let rs1 ← deref insn.rs1
  modifyVar rs1 fun r => { r with addressTaken := true, isConst := false }
  let isStored := (← record rs1).spaceIsAllocated
  takeSlotOnce rs1
  if isStored then pure () else storeCached bb rs1
  let dest ← prepareDest bb insn.rd (-1) (-1)
  let r ← record rs1
  bbAddPh2Ir bb
    { op := if r.isGlobal ∨ insn.opcode = .globalAddressOf then .globalAddressOf else .addressOf
      src0 := r.offset
      dest := dest
      ofsBasedOnStackTop := r.ofsBasedOnStackTop }

/-- `OP_assign`. -/
def allocAssign (bb : BasicBlock) (insn : Insn) : Alloc Unit := do
  let rd ← deref insn.rd
  if (← record rd).consumed = -1 then pure ()
  else
    trackVarUse insn.rs1 insn.idx
    let found := findInRegs (← get) insn.rs1
    let src0 ← if found > -1 then pure found else prepareOperand bb insn.rs1 (-1)
    let dest ← prepareDest bb rd src0 (-1)
    bbAddPh2Ir bb { op := .assign, src0 := src0, dest := dest }
    storeGlobal bb rd dest
    if found > -1 then pure ()
    else
      vregClearPhys (← reg src0).var
      forget src0

/-- `OP_write`. -/
def allocWrite (bb : BasicBlock) (insn : Insn) : Alloc Unit := do
  let rs2 ← deref insn.rs2
  if (← record rs2).isFunc then
    let src0 ← prepareOperand bb insn.rs1 (-1)
    bbAddPh2Ir bb { op := .addressOfFunc, src0 := src0, funcName := f.varName rs2 }
    if env.dynlink ∧ (env.findFunc (f.varName rs2)).isSome then
      modify fun s => { s with used := s.used ++ [f.varName rs2] }
    else pure ()
  else
    spillAlive bb insn
    let src0 ← prepareOperand bb insn.rs1 (-1)
    let src1 ← prepareOperand bb insn.rs2 src0
    bbAddPh2Ir bb { op := .write, src0 := src0, src1 := src1, dest := insn.sz }

/-- `OP_branch`. -/
def allocBranch (bb : BasicBlock) (insn : Insn) : Alloc Unit := do
  let src0 ← prepareOperand bb insn.rs1 (-1)
  spillLiveOut bb
  bbAddPh2Ir bb { op := .branch, src0 := src0, thenBb := bb.then_, elseBb := bb.else_ }

/-- `OP_push`, with the instructions behind it. -/
def allocPush (bb : BasicBlock) (insn : Insn) (behind : List Insn) (p : Pushing) :
    Alloc Pushing := do
  extendLiveness bb insn insn.rs1 insn.sz
  if p.isPushingArgs then pure () else spillAlive bb insn
  let argsOnStack ←
    if p.handleAbi then pure p.argsOnStack else abiLowerCallArgs env bb (insn :: behind)
  if argsOnStack ∧ p.args ≥ maxArgsInReg env.arch then
    return ⟨true, true, argsOnStack, p.args⟩
  else
    let src0 ← prepareOperand bb insn.rs1 (-1)
    bbAddPh2Ir bb { op := .assign, src0 := src0, dest := p.args }
    setReg p.args { var := insn.rs1, polluted := false }
    return ⟨true, true, argsOnStack, p.args + 1⟩

/-- `OP_call`. -/
def allocCall (bb : BasicBlock) (insn : Insn) (p : Pushing) : Alloc Pushing := do
  let numParams ← deref (env.findFunc insn.str)
  if numParams = 0 then spillAlive bb insn else pure ()
  if env.dynlink then modify fun s => { s with used := s.used ++ [insn.str] } else pure ()
  bbAddPh2Ir bb { op := .call, funcName := insn.str }
  registers.forM forget
  return { p with isPushingArgs := false, handleAbi := false, args := 0 }

/-- `OP_indirect`. -/
def allocIndirect (bb : BasicBlock) (insn : Insn) (p : Pushing) : Alloc Pushing := do
  if p.args = 0 then spillAlive bb insn else pure ()
  let src0 ← prepareOperand bb insn.rs1 (-1)
  bbAddPh2Ir bb { op := .loadFunc, src0 := src0 }
  bbAddPh2Ir bb { op := .indirect }
  return { p with isPushingArgs := false, handleAbi := false, args := 0 }

/-- `OP_func_ret`. -/
def allocFuncRet (bb : BasicBlock) (insn : Insn) : Alloc Unit := do
  let dest ← prepareDest bb insn.rd (-1) (-1)
  bbAddPh2Ir bb { op := .assign, src0 := 0, dest := dest }

/-- `OP_return`. -/
def allocReturn (bb : BasicBlock) (insn : Insn) : Alloc Unit := do
  let src0 ← if insn.rs1.isSome then prepareOperand bb insn.rs1 (-1) else pure (-1)
  bbAddPh2Ir bb { op := .return_, src0 := src0 }

/-- The instructions with two operands, from `OP_add` to `OP_bit_xor`. -/
def allocBinary (bb : BasicBlock) (insn : Insn) : Alloc Unit := do
  trackVarUse insn.rs1 insn.idx
  trackVarUse insn.rs2 insn.idx
  let src0 ← prepareOperand bb insn.rs1 (-1)
  let src1 ← prepareOperand bb insn.rs2 src0
  let dest ← prepareDest bb insn.rd src0 src1
  bbAddPh2Ir bb { op := insn.opcode, src0 := src0, src1 := src1, dest := dest }

/-- The instructions with one operand: `OP_negate`, `OP_bit_not` and `OP_log_not` with
nothing in `src1`, and `OP_read`, `OP_trunc`, `OP_sign_ext` and `OP_cast` with a size there. -/
def allocUnary (bb : BasicBlock) (insn : Insn) (src1 : Int) : Alloc Unit := do
  let src0 ← prepareOperand bb insn.rs1 (-1)
  let dest ← prepareDest bb insn.rd src0 (-1)
  bbAddPh2Ir bb { op := insn.opcode, src0 := src0, src1 := src1, dest := dest }

/-- One instruction, with those behind it. -/
def allocInsn (bb : BasicBlock) (insn : Insn) (behind : List Insn) (p : Pushing) :
    Alloc Pushing := do
  refresh bb insn
  match insn.opcode with
  | .unwoundPhi => do allocUnwoundPhi bb insn; return p
  | .allocat => do allocAllocat f bb insn; return p
  | .loadConstant | .loadDataAddress | .loadRodataAddress => do allocLoadConstant bb insn; return p
  | .addressOf | .globalAddressOf => do allocAddressOf bb insn; return p
  | .assign => do allocAssign bb insn; return p
  | .write => do allocWrite env f bb insn; return p
  | .branch => do allocBranch bb insn; return p
  | .push => allocPush env bb insn behind p
  | .call => allocCall env bb insn p
  | .indirect => allocIndirect bb insn p
  | .funcRet => do allocFuncRet bb insn; return p
  | .return_ => do allocReturn bb insn; return p
  | .add | .sub | .mul | .div | .mod | .lshift | .rshift | .eq | .neq | .gt | .geq | .lt | .leq
  | .bitAnd | .bitOr | .bitXor => do allocBinary bb insn; return p
  | .negate | .bitNot | .logNot => do allocUnary bb insn 0; return p
  | .read | .trunc | .signExt | .cast => do allocUnary bb insn insn.sz; return p
  | _ => fail .abort

/-- The instructions of a block. -/
def allocInsns (bb : BasicBlock) : List Insn → Pushing → Alloc Unit
  | [], _ => pure ()
  | insn :: behind, p => do
      let p' ← allocInsn env f bb insn behind p
      allocInsns bb behind p'

/-- One block: its instructions, and a jump to a successor that is not laid out behind it. -/
def allocBlock (bb : BasicBlock) : Alloc Unit := do
  modify fun s => { s with visited := Function.update s.visited bb.id (s.visited bb.id + 1) }
  allocInsns env f bb bb.insns {}
  if bb.next.isSome then spillLiveOut bb else pure ()
  match bb.next with
  | none => pure ()
  | some next =>
      let s ← get
      if bb.id = f.exit ∨ next = f.exit then pure ()
      else if s.visited next = f.visited + 1 ∨ f.rpo next ≠ f.rpo bb.id + 1 then
        bbAddPh2Ir bb { op := .jump, nextBb := next }
      else pure ()

/-- The implicit return at the end of a block in front of the exit. -/
def implicitReturn (bb : BasicBlock) : Alloc Unit :=
  if f.returnsVoid = false then pure ()
  else if bb.insns.getLast?.map (·.opcode) = some .return_ then pure ()
  else bbAddPh2Ir bb { op := .return_, src0 := -1 }

/-- `reg_alloc` on a function with a body. -/
def regAlloc : Alloc Unit := do
  if f.name = "main" then modify fun s => { s with mainBb := some f.bbs.id } else pure ()
  placeParameters env f
  (f.bbs :: f.rest).forM (allocBlock env f)
  f.exitPrev.forM (implicitReturn f)

/-- The state `reg_alloc` comes to a function with: `stack_size` is as `add_func` set it, and
there is no code. -/
def State.initial (regs : Int → Reg) (visited : BlockId → Nat) (mainBb : Option BlockId)
    (used : List String) : State where
  vars := f.vars
  regs := regs
  stackSize := argumentArea env.arch
  code := fun _ => []
  visited := visited
  mainBb := mainBb
  used := used
  requests := []

end Shecc.RegAlloc
