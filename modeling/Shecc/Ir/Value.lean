import Shecc.Ir.Arithmetic

/-!
# The value an instruction computes

In the middle end a variable either carries a constant in its record or has a
run-time value in an environment. This file reads operands accordingly and gives
the value of the instructions that only compute.
-/

namespace Shecc

/-- The run-time values of variables. -/
abbrev Env := VarId → Word

/-- Read an operand: a constant from its record, anything else from the
environment. -/
def operand (vars : Vars) (env : Env) (v : VarId) : Word :=
  if (vars v).isConst then (vars v).initVal else env v

theorem operand_of_const {vars : Vars} {v : VarId} (env : Env)
    (constant : (vars v).isConst = true) : operand vars env v = (vars v).initVal := by
  simp [operand, constant]

theorem operand_of_not_const {vars : Vars} {v : VarId} (env : Env)
    (variable_ : (vars v).isConst = false) : operand vars env v = env v := by
  simp [operand, variable_]

/-- Operands depend only on the record and the environment entry of the
variable. -/
theorem operand_congr {vars vars' : Vars} {env : Env} {v : VarId}
    (sameRecord : vars' v = vars v) : operand vars' env v = operand vars env v := by
  simp [operand, sameRecord]

/-- The word an instruction gives its destination. Instructions that touch
memory, control or calls have no value here. -/
def computes (vars : Vars) (env : Env) (insn : Insn) : Option Word :=
  match insn.opcode, insn.rd, insn.rs1, insn.rs2 with
  | .loadConstant, some rd, _, _ => some (vars rd).initVal
  | .assign, some _, some rs1, _ => some (operand vars env rs1)
  | op, some _, some rs1, some rs2 => op.binary (operand vars env rs1) (operand vars env rs2)
  | op, some _, some rs1, none => op.unary (operand vars env rs1)
  | _, _, _, _ => none

/-- The instruction `rd = rs1 op rs2`. -/
abbrev Insn.binary (op : Opcode) (rd rs1 rs2 : VarId) : Insn :=
  { opcode := op, rd := some rd, rs1 := some rs1, rs2 := some rs2 }

@[simp] theorem computes_loadConstant (vars : Vars) (env : Env) (rd : VarId)
    (rs1 rs2 : Option VarId) (sz : Int) (str : String) (useful : Bool) (idx : Int) :
    computes vars env ⟨.loadConstant, some rd, rs1, rs2, sz, str, useful, idx⟩ =
      some (vars rd).initVal := by
  simp [computes]

@[simp] theorem computes_assign (vars : Vars) (env : Env) (rd rs1 : VarId)
    (rs2 : Option VarId) (sz : Int) (str : String) (useful : Bool) (idx : Int) :
    computes vars env ⟨.assign, some rd, some rs1, rs2, sz, str, useful, idx⟩ =
      some (operand vars env rs1) := by
  simp [computes]

theorem computes_binary {insn : Insn} {op : Opcode} {rd rs1 rs2 : VarId}
    (opcodeEq : insn.opcode = op) (rdEq : insn.rd = some rd) (rs1Eq : insn.rs1 = some rs1)
    (rs2Eq : insn.rs2 = some rs2) (binary : op.isBinary = true) (vars : Vars) (env : Env) :
    computes vars env insn = op.binary (operand vars env rs1) (operand vars env rs2) := by
  rw [computes, opcodeEq, rdEq, rs1Eq, rs2Eq]
  cases op <;> first | rfl | cases binary

theorem computes_unary {insn : Insn} {op : Opcode} {rd rs1 : VarId}
    (opcodeEq : insn.opcode = op) (rdEq : insn.rd = some rd) (rs1Eq : insn.rs1 = some rs1)
    (rs2Eq : insn.rs2 = none) (unary : op.isUnary = true) (vars : Vars) (env : Env) :
    computes vars env insn = op.unary (operand vars env rs1) := by
  rw [computes, opcodeEq, rdEq, rs1Eq, rs2Eq]
  cases op <;> first | rfl | cases unary

theorem unary_of_computes {vars : Vars} {env : Env} {insn : Insn} {rs1 : VarId} {w : Word}
    (rs1Eq : insn.rs1 = some rs1) (isUnary : insn.opcode.isUnary = true)
    (computed : computes vars env insn = some w) :
    insn.opcode.unary (operand vars env rs1) = some w := by
  rcases insn with ⟨op, rd, rs1', rs2, sz, str, useful, idx⟩
  cases rs1Eq
  cases op <;> cases isUnary <;> cases rd <;> cases rs2 <;>
    first | exact computed | cases computed

end Shecc
