import Shecc.RiscV.Decode
import Shecc.Execution.Core

/-!
# Executing RISC-V instructions

What the instructions of the back end do to the registers. Register zero reads as zero
whatever is written to it.
-/

namespace Shecc.RiscV

open Execution

/-- What the registers hold. -/
abbrev Regs := Int → Word

namespace Regs

/-- Read a register. -/
def get (h : Regs) (r : Int) : Word := if r = 0 then 0#32 else h r

/-- Write a register. -/
def set (h : Regs) (r : Int) (v : Word) : Regs := if r = 0 then h else Function.update h r v

@[simp] theorem get_zero (h : Regs) : h.get 0 = 0#32 := rfl

@[simp] theorem set_zero (h : Regs) (v : Word) : h.set 0 v = h := rfl

theorem get_set_same {h : Regs} {r : Int} {v : Word} (nonzero : r ≠ 0) : (h.set r v).get r = v := by
  rw [get, set, if_neg nonzero, if_neg nonzero, Function.update_self]

theorem get_set_other {h : Regs} {r s : Int} {v : Word} (different : s ≠ r) :
    (h.set r v).get s = h.get s := by
  rw [get, get, set]
  split
  · rfl
  · split
    · rfl
    · rw [Function.update_of_ne different]

end Regs

/-- What an operation makes of two operands. -/
def Op.alu : Op → Word → Word → Option Word
  | .add, x, y | .addi, x, y => some (x + y)
  | .sub, x, y => some (x - y)
  | .xor, x, y | .xori, x, y => some (x ^^^ y)
  | .or, x, y | .ori, x, y => some (x ||| y)
  | .and, x, y | .andi, x, y => some (x &&& y)
  | .sll, x, y | .slli, x, y => some (x <<< (y.toNat % 32))
  | .srl, x, y | .srli, x, y => some (x >>> (y.toNat % 32))
  | .sra, x, y | .srai, x, y => some (x.sshiftRight (y.toNat % 32))
  | .slt, x, y | .slti, x, y => some (if x.slt y then 1#32 else 0#32)
  | .sltu, x, y | .sltiu, x, y => some (if x.ult y then 1#32 else 0#32)
  | .mul, x, y => some (x * y)
  | .div, x, y => some (if y = 0#32 then -1#32 else x.sdiv y)
  | .mod, x, y => some (if y = 0#32 then x else x.srem y)
  | _, _, _ => none

/-- Whether a branch is taken. -/
def Op.taken : Op → Word → Word → Option Bool
  | .beq, x, y => some (x == y)
  | .bne, x, y => some (x != y)
  | .blt, x, y => some (x.slt y)
  | .bge, x, y => some (y.sle x)
  | .bltu, x, y => some (x.ult y)
  | .bgeu, x, y => some (y.ule x)
  | _, _, _ => none

/-- What an instruction does that goes on to the next one. -/
def flow : Insn → Regs → Option Regs
  | .R op rd rs1 rs2, h => (op.alu (h.get rs1) (h.get rs2)).map (h.set rd)
  | .I op rd rs1 imm, h => (op.alu (h.get rs1) (BitVec.ofInt 32 imm)).map (h.set rd)
  | .U .lui rd imm, h => some (h.set rd (BitVec.ofInt 32 imm))
  | _, _ => none

/-- What an instruction at an address does, and where the next one is. -/
def exec : Insn → Word → Regs → Option (Regs × Word)
  | .B op rs1 rs2 imm, a, h =>
      (op.taken (h.get rs1) (h.get rs2)).map fun taken =>
        (h, a + BitVec.ofInt 32 (if taken then imm else 4))
  | .J .jal rd imm, a, h => some (h.set rd (a + 4#32), a + BitVec.ofInt 32 imm)
  | insn, a, h => (flow insn h).map fun h' => (h', a + 4#32)

/-- The processor. -/
def processor : Processor Insn Regs where
  decode := decode
  exec := exec

theorem straight_flow : Placed.Straight processor flow := by
  intro insn a h h' flowed
  cases insn with
  | R op rd rs1 rs2 => exact congrArg (Option.map _) flowed
  | I op rd rs1 imm => exact congrArg (Option.map _) flowed
  | U op rd imm => exact congrArg (Option.map _) flowed
  | S op rs1 rs2 imm => cases flowed
  | B op rs1 rs2 imm => cases flowed
  | J op rd imm => cases flowed

/-- Instructions that fit their formats mean themselves. -/
theorem means_self {insns : List Insn} (valid : ∀ insn ∈ insns, insn.Valid) :
    List.Forall₂ (processor.Means Insn.encode) insns insns :=
  List.forall₂_same.mpr fun insn member => decode_encode (valid insn member)

/-- Valid instructions in a memory of their own. -/
theorem loaded_of_valid {insns : List Insn} (base : Word) (short : 4 * insns.length < 2 ^ 32)
    (valid : ∀ insn ∈ insns, insn.Valid) :
    Loaded Insn.encode (store Insn.encode base insns) base insns := by
  apply loaded_store base short
  intro insn member
  rcases decode_encode (valid insn member) with ⟨w, encoded, -⟩
  rw [encoded]
  rfl

variable {code : List Insn} {placed : Placed processor code} {i j : Nat} {h h' : Regs}

/-- A straight piece of the code. -/
theorem runs_line (line : List Insn) (here : line <+: code.drop i)
    (flows : line.foldlM (fun h insn => flow insn h) h = some h') :
    placed.Runs (i, h) (i + line.length, h') :=
  Placed.Runs.line straight_flow here flows

/-- A branch goes one of two ways. -/
theorem runs_branch {op : Op} {rs1 rs2 imm : Int} {taken : Bool}
    (here : code[i]? = some (.B op rs1 rs2 imm))
    (condition : op.taken (h.get rs1) (h.get rs2) = some taken)
    (leads : 4 * (i : Int) + (if taken then imm else 4) = 4 * j) :
    placed.Runs (i, h) (j, h) := by
  apply Placed.Runs.step here
  change Option.map _ _ = _
  rw [condition, Option.map_some, slot_add leads]

/-- A jump that does not link. -/
theorem runs_jump {imm : Int} (here : code[i]? = some (.jal zero imm))
    (leads : 4 * (i : Int) + imm = 4 * j) : placed.Runs (i, h) (j, h) := by
  apply Placed.Runs.step here
  change some (h.set 0 _, _) = _
  rw [Regs.set_zero, slot_add leads]

end Shecc.RiscV
