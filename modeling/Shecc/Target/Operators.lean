import Shecc.Arm.Arithmetic
import Shecc.RiscV.Arithmetic

/-!
# Operators on both targets

Sums, differences, bits and comparisons are lowered to a few instructions, all of which
write the destination only. Whatever registers coincide, it ends up with the result.
-/

namespace Shecc

open Execution

/-- The operators that are lowered to instructions on their operands. -/
def lowered : List Opcode :=
  [.add, .sub, .negate, .bitAnd, .bitOr, .bitXor, .bitNot, .eq, .neq, .lt, .leq, .gt, .geq,
    .logNot]

/-- The result of an operator on one or two operands. -/
def Opcode.result (op : Opcode) (l r : Word) : Option Word :=
  if op.isBinary then op.binary l r else op.unary l

/-! ## On RISC-V -/

namespace RiscV

/-- The instruction computes something and writes it to `rd`. -/
def Insn.Writes (rd : Int) : Insn → Prop
  | .R op rd' _ _ | .I op rd' _ _ => rd' = rd ∧ ∀ x y, (op.alu x y).isSome = true
  | _ => False

/-- Instructions that write one register keep the others. -/
theorem line_keeps {line : List Insn} {rd : Int} (writes : ∀ insn ∈ line, insn.Writes rd)
    (h : Regs) :
    ∃ h', line.foldlM (fun h insn => flow insn h) h = some h' ∧
      ∀ r, r ≠ rd → h'.get r = h.get r := by
  induction line generalizing h with
  | nil => exact ⟨h, rfl, fun _ _ => rfl⟩
  | cons insn rest inductionHypothesis =>
      have first : ∃ w, flow insn h = some (h.set rd w) := by
        have computes := writes insn List.mem_cons_self
        cases insn with
        | R op rd' rs1 rs2 =>
            rcases computes with ⟨rfl, total⟩
            rcases Option.isSome_iff_exists.mp (total (h.get rs1) (h.get rs2)) with ⟨w, isValue⟩
            exact ⟨w, congrArg (Option.map _) isValue⟩
        | I op rd' rs1 imm =>
            rcases computes with ⟨rfl, total⟩
            rcases Option.isSome_iff_exists.mp (total (h.get rs1) (BitVec.ofInt 32 imm)) with
              ⟨w, isValue⟩
            exact ⟨w, congrArg (Option.map _) isValue⟩
        | S op rs1 rs2 imm => exact computes.elim
        | B op rs1 rs2 imm => exact computes.elim
        | J op rd' imm => exact computes.elim
        | U op rd' imm => exact computes.elim
      rcases first with ⟨w, flowed⟩
      rcases inductionHypothesis (fun insn member => writes insn (.tail _ member)) (h.set rd w) with
        ⟨h', flows, keeps⟩
      refine ⟨h', ?_, fun r different => ?_⟩
      · rw [List.foldlM_cons, flowed]
        exact flows
      · rw [keeps r different, Regs.get_set_other different]

/-- The code of an operator leaves the result, and every other allocated register alone. -/
def Site.Computes {hardMulDiv : Bool} {op : Opcode} {l r : Word} (site : Site hardMulDiv op l r)
    (w : Word) : Prop :=
  ∃ h', processor.Reaches site.fetch site.base site.insns.length (site.regs, slot site.base 0)
      (h', slot site.base site.insns.length) ∧
    h'.get (site.ir.dest + 10) = w ∧ KeepsBut (site.ir.dest + 10) site.regs h'

variable {hardMulDiv : Bool} {op : Opcode} {l r w : Word}

/-- The code of an operator writes its destination only. -/
theorem Site.line (site : Site hardMulDiv op l r) (isLowered : op ∈ lowered) :
    (∀ insn ∈ site.insns, insn.Valid) ∧
      (∀ insn ∈ site.insns, insn.Writes (site.ir.dest + 10)) ∧ site.insns.length ≤ 3 := by
  have isRd : IsReg (site.ir.dest + 10) := site.dest.isReg
  have isRs1 : IsReg (site.ir.src0 + 10) := site.src0.isReg
  have isRs2 : op.isBinary = true → IsReg (site.ir.src1 + 10) := fun isBinary =>
    (site.src1 isBinary).isReg
  have isZero : IsReg 0 := by decide
  have emitted := site.emitted
  simp only [instructions, site.operator] at emitted
  simp only [lowered, List.mem_cons, List.not_mem_nil, or_false] at isLowered
  rcases isLowered with rfl | rfl | rfl | rfl | rfl | rfl | rfl | rfl | rfl | rfl | rfl | rfl |
    rfl | rfl <;>
    rw [← Option.some.inj emitted] <;>
    first
      | simp [Insn.Valid, Insn.Writes, Op.isa, Op.alu, isRd, isRs1, isZero, isRs2 rfl]
      | simp [Insn.Valid, Insn.Writes, Op.isa, Op.alu, isRd, isRs1, isZero]

/-- What the code leaves in its destination is all it changes. -/
theorem Site.computes_of_yields {site : Site hardMulDiv op l r} (isLowered : op ∈ lowered)
    (yields : site.Yields w) : site.Computes w := by
  rcases site.line isLowered with ⟨valid, writes, short⟩
  rcases line_keeps writes site.regs with ⟨h', flows, keeps⟩
  rcases yields with ⟨h'', ran, isResult⟩
  have ran' := reaches_line site.loaded valid flows
  rw [ran.unique (by omega) ran'] at isResult
  exact ⟨h', ran', isResult, fun r _ => keeps r⟩

end RiscV

/-! ## On ARM -/

namespace Arm

/-- The instruction computes something on registers and writes it to `rd`, if anywhere. -/
def Decoded.Writes (rd : Int) (d : Decoded) : Prop :=
  15 ∉ d.operation.names ∧
    ∃ op setFlags rn rd' operand, d.operation = .data op setFlags rn rd' operand ∧
      (op.isTest = true ∨ rd' = rd)

/-- An operation on data keeps the other registers. -/
theorem flow_keeps {d : Decoded} {rd : Int} (writes : d.Writes rd) (s : State) :
    ∃ s', flow d s = some s' ∧ ∀ r, r ≠ rd → s'.reg r = s.reg r := by
  rcases writes with ⟨noPc, op, setFlags, rn, rd', operand, isData, only⟩
  rw [flow, if_neg noPc]
  by_cases holds : d.cond.holds s
  case neg => exact ⟨s, if_neg holds, fun _ _ => rfl⟩
  rw [if_pos holds, isData]
  refine ⟨_, rfl, fun r different => ?_⟩
  have flags : (if setFlags = true then s.setFlags (op.result (s.reg rn) (operand.value s) s)
      else s).reg = s.reg := by
    split <;> rfl
  rcases only with isTest | isDest
  · rw [if_pos isTest, flags]
  · split
    · rw [flags]
    · rw [State.setReg_reg_other (isDest ▸ different), flags]

/-- Instructions that write one register keep the others. -/
theorem line_keeps {line : List Decoded} {rd : Int} (writes : ∀ d ∈ line, d.Writes rd)
    (s : State) :
    ∃ s', line.foldlM (fun s d => flow d s) s = some s' ∧
      ∀ r, r ≠ rd → s'.reg r = s.reg r := by
  induction line generalizing s with
  | nil => exact ⟨s, rfl, fun _ _ => rfl⟩
  | cons d rest inductionHypothesis =>
      rcases flow_keeps (writes d List.mem_cons_self) s with ⟨s₁, flowed, first⟩
      rcases inductionHypothesis (fun d member => writes d (.tail _ member)) s₁ with
        ⟨s', flows, keeps⟩
      refine ⟨s', ?_, fun r different => (keeps r different).trans (first r different)⟩
      rw [List.foldlM_cons, flowed]
      exact flows

/-- The code of an operator leaves the result, and every other allocated register alone. -/
def Site.Computes {hardMulDiv : Bool} {op : Opcode} {l r : Word} (site : Site hardMulDiv op l r)
    (w : Word) : Prop :=
  ∃ s', processor.Reaches site.fetch site.base site.insns.length (site.state, slot site.base 0)
      (s', slot site.base site.insns.length) ∧
    s'.reg site.ir.dest = w ∧
      ∀ r, IsAllocated r → r ≠ site.ir.dest → s'.reg r = site.state.reg r

variable {hardMulDiv : Bool} {op : Opcode} {l r w : Word}

/-- The code of an operator writes its destination only. -/
theorem Site.line (site : Site hardMulDiv op l r) (isLowered : op ∈ lowered) :
    (∀ insn ∈ site.insns, insn.Valid) ∧
      (∀ insn ∈ site.insns, insn.decoded.Writes site.ir.dest) ∧ site.insns.length ≤ 3 := by
  have isRd := site.dest.isReg
  have isRn := site.src0.isReg
  have isRm : op.isBinary = true → IsReg site.ir.src1 := fun isBinary =>
    (site.src1 isBinary).isReg
  have notRd : 15 ≠ site.ir.dest := (site.dest.ne (by decide)).symm
  have notRn : 15 ≠ site.ir.src0 := (site.src0.ne (by decide)).symm
  have notRm : op.isBinary = true → 15 ≠ site.ir.src1 := fun isBinary =>
    ((site.src1 isBinary).ne (by decide)).symm
  have byte : IsByte 0 ∧ IsByte 1 := by decide
  have emitted := site.emitted
  simp only [instructions, site.operator] at emitted
  simp only [lowered, List.mem_cons, List.not_mem_nil, or_false] at isLowered
  rcases isLowered with rfl | rfl | rfl | rfl | rfl | rfl | rfl | rfl | rfl | rfl | rfl | rfl |
    rfl | rfl <;>
    rw [← Option.some.inj emitted] <;>
    first
      | simp [Insn.Valid, Insn.decoded, Insn.meaning, Decoded.Writes, Operation.names,
          Operand.names, DataOp.isTest, isRd, isRn, notRd, notRn, byte, isRm rfl, notRm rfl]
      | simp [Insn.Valid, Insn.decoded, Insn.meaning, Decoded.Writes, Operation.names,
          Operand.names, DataOp.isTest, isRd, isRn, notRd, notRn, byte]

/-- What the code leaves in its destination is all it changes. -/
theorem Site.computes_of_yields {site : Site hardMulDiv op l r} (isLowered : op ∈ lowered)
    (yields : site.Yields w) : site.Computes w := by
  rcases site.line isLowered with ⟨valid, writes, short⟩
  have writes' : ∀ d ∈ site.insns.map Insn.decoded, d.Writes site.ir.dest := by
    simpa using writes
  rcases line_keeps writes' site.state with ⟨s', flows, keeps⟩
  rcases yields with ⟨s'', ran, isResult⟩
  have line := @Placed.Runs.line _ _ _ _ (site.loaded.placed (means_decoded valid)) 0 site.state
    s' _ straight_flow (site.insns.map Insn.decoded) (by rw [List.drop_zero]) flows
  rw [Placed.Runs, List.length_map, Nat.zero_add] at line
  have ran' : processor.Reaches site.fetch site.base site.insns.length
      (site.state, slot site.base 0) (s', slot site.base site.insns.length) := line
  rw [ran.unique (by omega) ran'] at isResult
  exact ⟨s', ran', isResult, fun r _ => keeps r⟩

end Arm

/-! ## Both targets -/

/-- Both targets leave the result of an operator in the destination and change no other
allocated register, whatever registers they are. -/
theorem operators_compute {op : Opcode} (isLowered : op ∈ lowered) (l r : Word) :
    ∃ w, op.result l r = some w ∧
      (∀ {hardMulDiv : Bool} (site : Arm.Site hardMulDiv op l r), site.Computes w) ∧
        ∀ {hardMulDiv : Bool} (site : RiscV.Site hardMulDiv op l r), site.Computes w := by
  have isSome : (op.result l r).isSome = true := by
    simp only [lowered, List.mem_cons, List.not_mem_nil, or_false] at isLowered
    rcases isLowered with rfl | rfl | rfl | rfl | rfl | rfl | rfl | rfl | rfl | rfl | rfl | rfl |
      rfl | rfl <;> rfl
  rcases Option.isSome_iff_exists.mp isSome with ⟨w, isResult⟩
  refine ⟨w, isResult, fun site => Arm.Site.computes_of_yields isLowered ?_,
    fun site => RiscV.Site.computes_of_yields isLowered ?_⟩
  all_goals
    rw [Opcode.result] at isResult
    split at isResult
  · apply site.yields_binary isResult
    rintro - rfl
    exact absurd isLowered (by decide)
  · exact site.yields_unary isResult
  · exact site.yields_binary isResult
  · exact site.yields_unary isResult

theorem Arm.smallEnv_option : Arm.smallEnv.hardMulDiv = false := rfl

/-- The code that compares a register to itself and overwrites it. -/
def Arm.selfComparison : Arm.Site false .leq 5 5 where
  env := Arm.smallEnv
  p := Arm.plainProgram
  elfOffset := fun _ => 0
  size := 0
  ir := { op := .leq }
  insns := [.cmpR .al 0 0, .zero 0, .movI .le 0 1]
  fetch := store Arm.Insn.encode 0#32 [.cmpR .al 0 0, .zero 0, .movI .le 0 1]
  base := 0#32
  state := { Arm.clearState with reg := fun _ => 5 }
  option := Arm.smallEnv_option
  operator := rfl
  emitted := rfl
  loaded := loaded_store 0#32 (by decide) (by decide)
  dest := by decide
  src0 := by decide
  left := rfl
  src1 := fun _ => by decide
  right := fun _ => rfl

/-- Five is at most five, in one register. -/
theorem operators_compute_self :
    ∃ w, Opcode.leq.result 5 5 = some w ∧ Arm.selfComparison.Computes w := by
  rcases @operators_compute .leq (by decide) 5 5 with ⟨w, isResult, onArm, -⟩
  exact ⟨w, isResult, onArm Arm.selfComparison⟩

end Shecc
