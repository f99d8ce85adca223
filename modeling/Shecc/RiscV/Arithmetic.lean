import Shecc.RiscV.Divide
import Shecc.Ir.Arithmetic

/-!
# Operators on RISC-V

The code of an operator computes its value where it has one. Equality is read off the
difference, and a register that holds the count shifts by its lowest five bits.
-/

namespace Shecc.RiscV

open Execution Codegen Word

/-! ## Truth values -/

/-- What is above zero is true. -/
theorem alu_sltu_zero (w : Word) :
    (if (0#32).ult w then 1#32 else 0#32) = Word.ofBool w.truth := by
  have positive : (0#32).ult w = w.truth := by
    rw [Bool.eq_iff_iff, BitVec.ult_iff_lt, Word.truth, bne_iff_ne]
    exact BitVec.pos_iff_ne_zero w
  rw [positive]
  rfl

theorem ofBool_xor_one (b : Bool) : Word.ofBool b ^^^ 1#32 = Word.ofBool !b := by
  cases b <;> rfl

theorem truth_sub (l r : Word) : (l - r).truth = (l != r) := by
  rw [Bool.eq_iff_iff, Word.truth, bne_iff_ne, bne_iff_ne]
  exact sub_ne_zero

/-! ## Where an operator is computed -/

/-- Code of an operator in memory, about to run on operands. The second one is read by
binary operators only. -/
structure Site (hardMulDiv : Bool) (op : Opcode) (l r : Word) where
  env : Env
  p : Program
  elfOffset : BlockId → Nat
  size : Nat
  ir : Ph2Ir
  insns : List Insn
  fetch : Word → Option Word
  base : Word
  regs : Regs
  option : env.hardMulDiv = hardMulDiv
  operator : ir.op = op
  emitted : instructions env p elfOffset size ir = some insns
  loaded : Loaded Insn.encode fetch base insns
  dest : IsAllocated (ir.dest + 10)
  src0 : IsAllocated (ir.src0 + 10)
  left : regs.get (ir.src0 + 10) = l
  src1 : op.isBinary = true → IsAllocated (ir.src1 + 10)
  right : op.isBinary = true → regs.get (ir.src1 + 10) = r

/-- The code runs to its end with the result in its destination. -/
def Site.Yields {hardMulDiv : Bool} {op : Opcode} {l r : Word} (site : Site hardMulDiv op l r)
    (w : Word) : Prop :=
  ∃ h', processor.Reaches site.fetch site.base site.insns.length (site.regs, slot site.base 0)
      (h', slot site.base site.insns.length) ∧
    h'.get (site.ir.dest + 10) = w

/-- Loaded instructions that go straight on. -/
theorem reaches_line {insns : List Insn} {fetch : Word → Option Word} {base : Word}
    {h h' : Regs} (loaded : Loaded Insn.encode fetch base insns)
    (valid : ∀ insn ∈ insns, insn.Valid)
    (flows : insns.foldlM (fun h insn => flow insn h) h = some h') :
    processor.Reaches fetch base insns.length (h, slot base 0) (h', slot base insns.length) := by
  have ran := @runs_line _ (loaded.placed (means_self valid)) 0 h h' insns
    (by rw [List.drop_zero]) flows
  rwa [Placed.Runs, Nat.zero_add] at ran

section Yields

variable {hardMulDiv : Bool} {op : Opcode} {l r w : Word} {site : Site hardMulDiv op l r}

/-- The code goes straight on and leaves the result. -/
theorem Site.yields_line {insns : List Insn} (isCode : insns = site.insns)
    (valid : ∀ insn ∈ insns, insn.Valid)
    (leaves : ∃ h', insns.foldlM (fun h insn => flow insn h) site.regs = some h' ∧
      h'.get (site.ir.dest + 10) = w) : site.Yields w := by
  have loaded := site.loaded
  rcases leaves with ⟨h', flows, isResult⟩
  rw [← isCode] at loaded
  refine ⟨h', ?_, isResult⟩
  rw [← isCode]
  exact reaches_line loaded valid flows

/-- The code is one instruction on registers. -/
theorem Site.yields_alu {alu : Op} {rs1 rs2 : Int}
    (isCode : [.R alu (site.ir.dest + 10) rs1 rs2] = site.insns)
    (format : alu.isa.map Prod.fst = some .R) (isRs1 : IsReg rs1) (isRs2 : IsReg rs2)
    (computed : alu.alu (site.regs.get rs1) (site.regs.get rs2) = some w) : site.Yields w := by
  apply Site.yields_line isCode
    (List.forall_mem_singleton.mpr ⟨format, site.dest.isReg, isRs1, isRs2⟩)
  refine ⟨site.regs.set (site.ir.dest + 10) w, ?_, Regs.get_set_same site.dest.ne_zero⟩
  change (flow (.R alu (site.ir.dest + 10) rs1 rs2) site.regs).bind some = _
  rw [flow, computed]
  rfl

/-- A unary operator is computed. -/
theorem Site.yields_unary (site : Site hardMulDiv op l r) (value : op.unary l = some w) :
    site.Yields w := by
  have regRd : IsReg (site.ir.dest + 10) := site.dest.isReg
  have regRs : IsReg (site.ir.src0 + 10) := site.src0.isReg
  have regZero : IsReg 0 := by decide
  have nonzero := site.dest.ne_zero
  have left := site.left
  have emitted := site.emitted
  simp only [instructions, site.operator] at emitted
  cases op <;> cases value
  case negate =>
    apply Site.yields_line (Option.some.inj emitted)
    · simp [Insn.Valid, Op.isa, regRd, regRs, regZero]
    · refine ⟨_, rfl, ?_⟩
      rw [Regs.get_set_same nonzero, left]
      exact BitVec.zero_sub l
  case bitNot =>
    apply Site.yields_line (Option.some.inj emitted)
    · simp [Insn.Valid, Op.isa, regRd, regRs]
    · refine ⟨_, rfl, ?_⟩
      rw [Regs.get_set_same nonzero, left]
      exact BitVec.xor_allOnes
  case logNot =>
    apply Site.yields_line (Option.some.inj emitted)
    · simp [Insn.Valid, Op.isa, regRd, regRs, regZero]
    · refine ⟨_, rfl, ?_⟩
      rw [Regs.get_set_same nonzero, Regs.get_set_same nonzero, left]
      change (if (0#32).ult l then 1#32 else 0#32) ^^^ 1#32 = _
      rw [alu_sltu_zero, ofBool_xor_one]

/-- A division is computed. -/
theorem Site.yields_division (site : Site hardMulDiv op l r) (isDivision : op = .div ∨ op = .mod)
    (nonzero : r ≠ 0#32) : site.Yields (truncated (op == .mod) l r) := by
  have isBinary : op.isBinary = true := by
    rcases isDivision with rfl | rfl <;> rfl
  have left := site.left
  have right := site.right isBinary
  have emitted := site.emitted
  have operator := site.operator
  by_cases hard : hardMulDiv = false
  · have isCode := softDiv_of_emitted (by rwa [operator]) (site.option.trans hard) emitted
    have loaded := site.loaded
    rw [isCode] at loaded
    rw [← right] at nonzero
    rcases softDiv_reaches site.dest site.src0 (site.src1 isBinary) loaded site.regs nonzero with
      ⟨h', ran, isResult, -⟩
    rw [left, right, operator] at isResult
    rw [Site.Yields, isCode]
    exact ⟨h', ran, isResult⟩
  · rw [Bool.not_eq_false] at hard
    have isRs1 := site.src0.isReg
    have isRs2 := (site.src1 isBinary).isReg
    simp only [instructions, operator] at emitted
    rcases isDivision with rfl | rfl
    · simp only [site.option.trans hard, if_true] at emitted
      apply Site.yields_alu (Option.some.inj emitted) rfl isRs1 isRs2
      rw [Op.alu, left, right, if_neg nonzero, ← truncated_div]
      rfl
    · simp only [site.option.trans hard, if_true] at emitted
      apply Site.yields_alu (Option.some.inj emitted) rfl isRs1 isRs2
      rw [Op.alu, left, right, if_neg nonzero, ← truncated_mod]
      rfl

/-- A product is computed. -/
theorem Site.yields_mul (site : Site hardMulDiv .mul l r) : site.Yields (l * r) := by
  have left := site.left
  have right := site.right rfl
  have emitted := site.emitted
  by_cases hard : hardMulDiv = false
  · have isCode : site.insns =
        softMul (site.ir.dest + 10) (site.ir.src0 + 10) (site.ir.src1 + 10) := by
      simpa [instructions, site.operator, site.option.trans hard] using emitted.symm
    have loaded := site.loaded
    rw [isCode] at loaded
    rcases softMul_reaches site.dest site.src0 (site.src1 rfl) loaded site.regs with
      ⟨h', ran, isResult, -⟩
    rw [left, right] at isResult
    rw [Site.Yields, isCode]
    exact ⟨h', ran, isResult⟩
  · rw [Bool.not_eq_false] at hard
    simp only [instructions, site.operator, site.option.trans hard, if_true] at emitted
    apply Site.yields_alu (Option.some.inj emitted) rfl site.src0.isReg (site.src1 rfl).isReg
    rw [Op.alu, left, right]

/-- A comparison of several instructions is computed. -/
theorem Site.yields_order (site : Site hardMulDiv op l r)
    (isOrder : op = .eq ∨ op = .neq ∨ op = .geq ∨ op = .leq) (value : op.binary l r = some w) :
    site.Yields w := by
  have isBinary := Opcode.isBinary_of_binary_eq_some value
  have isRd : IsReg (site.ir.dest + 10) := site.dest.isReg
  have isRs1 : IsReg (site.ir.src0 + 10) := site.src0.isReg
  have isRs2 : IsReg (site.ir.src1 + 10) := (site.src1 isBinary).isReg
  have isZero : IsReg 0 := by decide
  have nonzero := site.dest.ne_zero
  have left := site.left
  have right := site.right isBinary
  have emitted := site.emitted
  simp only [instructions, site.operator] at emitted
  rcases isOrder with rfl | rfl | rfl | rfl
  all_goals
    cases value
    apply Site.yields_line (Option.some.inj emitted)
      (by simp [Insn.Valid, Op.isa, isRd, isRs1, isRs2, isZero])
    refine ⟨_, rfl, ?_⟩
    simp only [Regs.get_set_same nonzero, left, right]
  · change (if (0#32).ult (l - r) then 1#32 else 0#32) ^^^ 1#32 = _
    rw [alu_sltu_zero, ofBool_xor_one, truth_sub, bne, Bool.not_not]
  · change (if (0#32).ult (l - r) then 1#32 else 0#32) = _
    rw [alu_sltu_zero, truth_sub]
  · change Word.ofBool (l.slt r) ^^^ 1#32 = _
    rw [ofBool_xor_one, BitVec.sle_eq_not_slt]
  · change Word.ofBool (r.slt l) ^^^ 1#32 = _
    rw [ofBool_xor_one, BitVec.sle_eq_not_slt]

/-- A binary operator is computed. -/
theorem Site.yields_binary (site : Site hardMulDiv op l r) (value : op.binary l r = some w) :
    site.Yields w := by
  have isBinary := Opcode.isBinary_of_binary_eq_some value
  by_cases isDivision : op = .div ∨ op = .mod
  · rcases Opcode.truncated_of_binary isDivision value with ⟨nonzero, rfl⟩
    exact site.yields_division isDivision nonzero
  by_cases isMul : op = .mul
  · subst isMul
    cases value
    exact site.yields_mul
  have isRs1 : IsReg (site.ir.src0 + 10) := site.src0.isReg
  have isRs2 : IsReg (site.ir.src1 + 10) := (site.src1 isBinary).isReg
  have left := site.left
  have right := site.right isBinary
  have emitted := site.emitted
  simp only [instructions, site.operator] at emitted
  by_cases isOrder : op = .eq ∨ op = .neq ∨ op = .geq ∨ op = .leq
  · exact site.yields_order isOrder value
  simp only [not_or] at isDivision isOrder
  cases op <;> first
    | exact absurd isBinary (by decide)
    | exact absurd rfl isDivision.1
    | exact absurd rfl isDivision.2
    | exact absurd rfl isMul
    | exact absurd rfl isOrder.1
    | exact absurd rfl isOrder.2.1
    | exact absurd rfl isOrder.2.2.1
    | exact absurd rfl isOrder.2.2.2
    | cases emitted
    | skip
  case lshift =>
    rw [Opcode.binary, Option.ite_none_right_eq_some] at value
    rcases value with ⟨small, isShift⟩
    apply Site.yields_alu (Option.some.inj emitted) rfl isRs1 isRs2
    rw [Op.alu, left, right, Nat.mod_eq_of_lt small, isShift]
  case rshift =>
    rw [Opcode.binary, Option.ite_none_right_eq_some] at value
    rcases value with ⟨small, isShift⟩
    apply Site.yields_alu (Option.some.inj emitted) rfl isRs1 isRs2
    rw [Op.alu, left, right, Nat.mod_eq_of_lt small, isShift]
  case gt =>
    apply Site.yields_alu (Option.some.inj emitted) rfl isRs2 isRs1
    rw [left, right]
    exact value
  all_goals
    apply Site.yields_alu (Option.some.inj emitted) rfl isRs1 isRs2
    rw [left, right]
    exact value

end Yields

end Shecc.RiscV
