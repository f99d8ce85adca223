import Shecc.Word.Division
import Shecc.RiscV.Multiply

/-!
# The emulated division of RISC-V

Without the instructions for it, the absolute values of the operands are divided by
shifting and subtracting, and the sign is set at the end. Nothing is changed but the
temporaries and the destination.
-/

namespace Shecc.RiscV

open Execution Word

namespace SoftDiv

variable {isMod : Bool} {rd rs1 rs2 : Int} {placed : Placed processor (softDiv isMod rd rs1 rs2)}

/-- What the loops leave alone. -/
structure Kept (h h' : Regs) : Prop where
  sign : h'.get t5 = h.get t5
  allocated : ∀ r, IsAllocated r → h'.get r = h.get r

theorem Kept.refl (h : Regs) : Kept h h := ⟨rfl, fun _ _ => rfl⟩

theorem Kept.trans {h h' h'' : Regs} (first : Kept h h') (second : Kept h' h'') : Kept h h'' :=
  ⟨second.sign.trans first.sign, fun r isR =>
    (second.allocated r isR).trans (first.allocated r isR)⟩

/-- Writing a temporary other than the sign. -/
theorem Kept.set {h : Regs} {r : Int} {v : Word} (notSign : t5 ≠ r) (isOther : ¬IsAllocated r) :
    Kept h (h.set r v) :=
  ⟨Regs.get_set_other notSign, fun _ isS => Regs.get_set_allocated isS isOther⟩

/-- The mask in `t5` once the signs have been split off. -/
def resultMask (isMod : Bool) (n d : Word) : Word :=
  if isMod then signMask n ^^^ 0#32 else signMask n ^^^ signMask d

theorem runs_setup (h : Regs) (isRs1 : IsAllocated rs1) (isRs2 : IsAllocated rs2) :
    ∃ h', placed.Runs (0, h) (11, h') ∧ h'.get t0 = 0#32 ∧ h'.get t1 = 1#32 ∧
      h'.get t2 = magnitude (h.get rs1) ∧ h'.get t3 = magnitude (h.get rs2) ∧
        h'.get t5 = resultMask isMod (h.get rs1) (h.get rs2) ∧
          ∀ r, IsAllocated r → h'.get r = h.get r := by
  have none_ : BitVec.ofInt 32 0 = 0#32 := rfl
  have amount : (BitVec.ofInt 32 31).toNat % 32 = 31 := rfl
  refine ⟨_, runs_line [.addi t2 rs1 0, .addi t3 rs2 0, .srai t0 t2 31, .add t2 t2 t0,
    .xor t2 t2 t0, .srai t1 t3 31, .add t3 t3 t1, .xor t3 t3 t1,
    .xor t5 t0 (if isMod then zero else t1), .addi t0 zero 0, .addi t1 zero 1]
    ⟨_, rfl⟩ rfl, ?_, ?_, ?_, ?_, ?_, ?_⟩
  · simp (disch := first | assumption | decide) only [Regs.get_set_same, Regs.get_set_other,
      Regs.get_zero]
    rfl
  · simp (disch := first | assumption | decide) only [Regs.get_set_same, Regs.get_set_other,
      Regs.get_zero]
    rfl
  · simp (disch := first | assumption | decide) only [Regs.get_set_same, Regs.get_set_allocated,
      Regs.get_set_other, none_, amount, BitVec.add_zero]
    rfl
  · simp (disch := first | assumption | decide) only [Regs.get_set_same, Regs.get_set_allocated,
      Regs.get_set_other, none_, amount, BitVec.add_zero]
    rfl
  · cases isMod <;> simp (disch := first | assumption | decide) only [Regs.get_set_same,
      Regs.get_set_allocated, Regs.get_set_other, Regs.get_zero, none_, amount, BitVec.add_zero,
      if_true, Bool.false_eq_true, if_false] <;> rfl
  · intro r isR
    simp (disch := first | assumption | decide) only [Regs.get_set_allocated]

/-! ## The loops -/

/-- What holds while the divisor grows. -/
structure Growing (dividend₀ divisor₀ : Nat) (h₀ h : Regs) : Prop where
  scaled : ∃ k, Scaled divisor₀ k (h.get t3) (h.get t1)
  quotient : h.get t0 = 0#32
  dividend : (h.get t2).toNat = dividend₀
  kept : Kept h₀ h

/-- What holds while the divisor shrinks. -/
structure Shrinking (dividend₀ divisor₀ : Nat) (h₀ h : Regs) : Prop where
  scaled : ∃ k, Scaled divisor₀ k (h.get t3) (h.get t1)
  dividing : Dividing dividend₀ divisor₀ (h.get t0) (h.get t2)
  below : (h.get t2).toNat < 2 * (h.get t3).toNat
  kept : Kept h₀ h

/-- What the loops leave. -/
structure Divided (dividend₀ divisor₀ : Nat) (h₀ h : Regs) : Prop where
  quotient : (h.get t0).toNat = dividend₀ / divisor₀
  remainder : (h.get t2).toNat = dividend₀ % divisor₀
  kept : Kept h₀ h

variable {dividend₀ divisor₀ : Nat} {h₀ h : Regs}

theorem Growing.shrinking (growing : Growing dividend₀ divisor₀ h₀ h)
    (reached : dividend₀ ≤ (h.get t3).toNat) (positive : 0 < divisor₀) :
    Shrinking dividend₀ divisor₀ h₀ h where
  scaled := growing.scaled
  dividing := ⟨by rw [growing.quotient, growing.dividend, BitVec.toNat_ofNat]; simp⟩
  below := by
    rcases growing.scaled with ⟨k, scaled⟩
    have bitPositive : 0 < (h.get t1).toNat := by
      rw [scaled.bit_eq]
      exact Nat.two_pow_pos k
    have bitLe := scaled.bit_le positive
    rw [growing.dividend]
    omega
  kept := growing.kept

/-- The divisor is doubled until it is not below the dividend. -/
theorem runs_grow (growing : Growing dividend₀ divisor₀ h₀ h) (positive : 0 < divisor₀)
    (fits : dividend₀ ≤ 2 ^ 31) :
    ∃ h', placed.Runs (13, h) (18, h') ∧ Shrinking dividend₀ divisor₀ h₀ h' := by
  apply Placed.Runs.loop (fun h => dividend₀ - (h.get t3).toNat) ?_ growing
  intro h growing
  by_cases same : h.get t2 = h.get t3
  · refine .inr ⟨h, ?_, growing.shrinking (by rw [← same, growing.dividend]) positive⟩
    exact @runs_branch _ placed 13 18 h .beq t2 t3 20 true rfl (by simp [Op.taken, same]) rfl
  · have entered : placed.Runs (13, h) (14, h) :=
      @runs_branch _ placed 13 14 h .beq t2 t3 20 false rfl (by simp [Op.taken, same]) rfl
    by_cases reached : h.get t2 < h.get t3
    · have isLt := BitVec.lt_def.mp reached
      rw [growing.dividend] at isLt
      refine .inr ⟨h, entered.trans ?_, growing.shrinking (le_of_lt isLt) positive⟩
      exact @runs_branch _ placed 14 18 h .bltu t2 t3 16 true rfl
        (congrArg some (BitVec.ult_iff_lt.mpr reached)) rfl
    · have grows : placed.Runs (14, h) (15, h) :=
        @runs_branch _ placed 14 15 h .bltu t2 t3 16 false rfl
          (congrArg some (Bool.eq_false_iff.mpr (mt BitVec.ult_iff_lt.mp reached))) rfl
      have isBelow : (h.get t3).toNat < dividend₀ := by
        have different : (h.get t2).toNat ≠ (h.get t3).toNat :=
          fun equal => same (BitVec.eq_of_toNat_eq equal)
        have notLess := mt BitVec.lt_def.mpr reached
        rw [growing.dividend] at different notLess
        omega
      have shifted := @runs_line _ placed 15 h _ [.slli t3 t3 1, .slli t1 t1 1] ⟨_, rfl⟩ rfl
      have again := fun h₂ => @runs_jump _ placed 17 13 h₂ (-16) rfl rfl
      rcases growing.scaled with ⟨k, scaled⟩
      have doubled := scaled.double positive (by omega)
      refine .inl ⟨_, ((entered.trans grows).trans shifted).trans (again _),
        ⟨⟨k + 1, ?_⟩, ?_, ?_, ?_⟩, ?_⟩
      · simp (disch := decide) only [Regs.get_set_same, Regs.get_set_other]
        exact doubled
      · simp (disch := decide) only [Regs.get_set_other]
        exact growing.quotient
      · simp (disch := decide) only [Regs.get_set_other]
        exact growing.dividend
      · exact growing.kept.trans ((Kept.set (by decide) (by decide)).trans
          (Kept.set (by decide) (by decide)))
      · simp (disch := decide) only [Regs.get_set_same, Regs.get_set_other]
        change dividend₀ - (h.get t3 <<< 1).toNat < _
        have divisorPositive : 0 < (h.get t3).toNat := by
          rw [scaled.divisor_eq]
          exact Nat.mul_pos positive (Nat.two_pow_pos k)
        rw [toNat_double (by omega)]
        omega

/-- The divisor is subtracted if it is not above what is left. -/
theorem runs_subtract (shrinking : Shrinking dividend₀ divisor₀ h₀ h) (positive : 0 < divisor₀)
    (fits : dividend₀ ≤ 2 ^ 31) :
    ∃ h', placed.Runs (18, h) (21, h') ∧ Dividing dividend₀ divisor₀ (h'.get t0) (h'.get t2) ∧
      (h'.get t2).toNat < (h'.get t3).toNat ∧ h'.get t3 = h.get t3 ∧ h'.get t1 = h.get t1 ∧
        Kept h₀ h' := by
  by_cases below : h.get t2 < h.get t3
  · refine ⟨h, ?_, shrinking.dividing, BitVec.lt_def.mp below, rfl, rfl, shrinking.kept⟩
    exact @runs_branch _ placed 18 21 h .bltu t2 t3 12 true rfl
      (congrArg some (BitVec.ult_iff_lt.mpr below)) rfl
  · have entered : placed.Runs (18, h) (19, h) :=
      @runs_branch _ placed 18 19 h .bltu t2 t3 12 false rfl
        (congrArg some (Bool.eq_false_iff.mpr (mt BitVec.ult_iff_lt.mp below))) rfl
    have subtracted := @runs_line _ placed 19 h _ [.sub t2 t2 t3, .add t0 t0 t1] ⟨_, rfl⟩ rfl
    have notBelow : (h.get t3).toNat ≤ (h.get t2).toNat := not_lt.mp (mt BitVec.lt_def.mpr below)
    rcases shrinking.scaled with ⟨k, scaled⟩
    refine ⟨_, entered.trans subtracted, ?_, ?_, ?_, ?_, ?_⟩
    · simp (disch := decide) only [Regs.get_set_same, Regs.get_set_other]
      exact shrinking.dividing.subtract scaled positive (by omega) notBelow
    · simp (disch := decide) only [Regs.get_set_same, Regs.get_set_other]
      have difference : (h.get t2 - h.get t3).toNat = (h.get t2).toNat - (h.get t3).toNat :=
        BitVec.toNat_sub_of_le (BitVec.le_def.mpr notBelow)
      have isBelow := shrinking.below
      omega
    · simp (disch := decide) only [Regs.get_set_other]
    · simp (disch := decide) only [Regs.get_set_other]
    · exact shrinking.kept.trans ((Kept.set (by decide) (by decide)).trans
        (Kept.set (by decide) (by decide)))

/-- Multiples of the divisor are subtracted until the divisor itself was. -/
theorem runs_shrink (shrinking : Shrinking dividend₀ divisor₀ h₀ h) (positive : 0 < divisor₀)
    (fits : dividend₀ ≤ 2 ^ 31) :
    ∃ h', placed.Runs (18, h) (24, h') ∧ Divided dividend₀ divisor₀ h₀ h' := by
  apply Placed.Runs.loop (fun h => (h.get t1).toNat) ?_ shrinking
  intro h shrinking
  rcases @runs_subtract _ _ _ _ placed _ _ _ _ shrinking positive fits with
    ⟨h₁, subtracted, dividing, isBelow, sameDivisor, sameBit, kept⟩
  have halved := @runs_line _ placed 21 h₁ _ [.srli t1 t1 1, .srli t3 t3 1] ⟨_, rfl⟩ rfl
  have keptAll : Kept h₀ ((h₁.set t1 (h₁.get t1 >>> 1)).set t3 (h₁.get t3 >>> 1)) :=
    kept.trans ((Kept.set (by decide) (by decide)).trans (Kept.set (by decide) (by decide)))
  rcases shrinking.scaled with ⟨k, scaled⟩
  rw [← sameDivisor, ← sameBit] at scaled
  cases k with
  | zero =>
      have isLast : h₁.get t1 >>> 1 = 0#32 := by
        apply BitVec.eq_of_toNat_eq
        rw [toNat_halve, scaled.bit_eq]
        rfl
      have isDivisor := scaled.divisor_eq
      rw [pow_zero, mul_one] at isDivisor
      rw [isDivisor] at isBelow
      rcases dividing.finished isBelow with ⟨quotient, remainder⟩
      refine .inr ⟨_, (subtracted.trans halved).trans
        (@runs_branch _ placed 23 24 _ .bne t1 zero (-20) false rfl ?_ rfl), ?_, ?_, keptAll⟩
      · simp (disch := decide) only [Regs.get_set_same, Regs.get_set_other]
        change some (h₁.get t1 >>> 1 != 0#32) = _
        rw [isLast]
        rfl
      · simp (disch := decide) only [Regs.get_set_other]
        exact quotient
      · simp (disch := decide) only [Regs.get_set_other]
        exact remainder
  | succ k =>
      have halvedBoth := scaled.halve
      have isBit := halvedBoth.bit_eq
      have bitPositive := Nat.two_pow_pos k
      refine .inl ⟨_, (subtracted.trans halved).trans
        (@runs_branch _ placed 23 18 _ .bne t1 zero (-20) true rfl ?_ rfl),
          ⟨⟨k, ?_⟩, ?_, ?_, keptAll⟩, ?_⟩
      · simp (disch := decide) only [Regs.get_set_same, Regs.get_set_other]
        change some (h₁.get t1 >>> 1 != 0#32) = _
        rw [Option.some.injEq, bne_iff_ne]
        intro isZero
        rw [isZero, BitVec.toNat_ofNat] at isBit
        omega
      · simp (disch := decide) only [Regs.get_set_same, Regs.get_set_other]
        exact halvedBoth
      · simp (disch := decide) only [Regs.get_set_other]
        exact dividing
      · simp (disch := decide) only [Regs.get_set_same, Regs.get_set_other]
        change (h₁.get t2).toNat < 2 * (h₁.get t3 >>> 1).toNat
        have isDivisor := scaled.divisor_eq
        have isHalf := halvedBoth.divisor_eq
        rw [pow_succ, ← mul_assoc] at isDivisor
        omega
      · simp (disch := decide) only [Regs.get_set_same, Regs.get_set_other]
        change (h₁.get t1 >>> 1).toNat < _
        rw [← sameBit, isBit, scaled.bit_eq, pow_succ]
        omega

/-- The absolute values are divided. -/
theorem runs_divide (quotient : h.get t0 = 0#32) (bit : h.get t1 = 1#32)
    (nonzero : h.get t3 ≠ 0#32) (fits : (h.get t2).toNat ≤ 2 ^ 31) :
    ∃ h', placed.Runs (11, h) (24, h') ∧ Divided (h.get t2).toNat (h.get t3).toNat h h' := by
  have positive : 0 < (h.get t3).toNat := by
    apply Nat.pos_of_ne_zero
    intro isZero
    exact nonzero (BitVec.eq_of_toNat_eq isZero)
  have entered : placed.Runs (11, h) (12, h) :=
    @runs_branch _ placed 11 12 h .beq t3 zero 52 false rfl (by simpa [Op.taken] using nonzero) rfl
  by_cases isZero : h.get t2 = 0#32
  · refine ⟨h, entered.trans (@runs_branch _ placed 12 24 h .beq t2 zero 48 true rfl
      (by rw [isZero]; rfl) rfl), ?_, ?_, Kept.refl h⟩
    · rw [quotient, isZero, BitVec.toNat_ofNat, Nat.zero_mod, Nat.zero_div]
    · rw [isZero, BitVec.toNat_ofNat, Nat.zero_mod, Nat.zero_mod]
  · have started : placed.Runs (12, h) (13, h) :=
      @runs_branch _ placed 12 13 h .beq t2 zero 48 false rfl (by simpa [Op.taken] using isZero) rfl
    have growing : Growing (h.get t2).toNat (h.get t3).toNat h h :=
      ⟨⟨0, by rw [bit]; exact scaled_zero _⟩, quotient, rfl, Kept.refl h⟩
    rcases @runs_grow _ _ _ _ placed _ _ _ _ growing positive fits with ⟨h₁, grown, shrinking⟩
    rcases @runs_shrink _ _ _ _ placed _ _ _ _ shrinking positive fits with ⟨h₂, shrunk, divided⟩
    exact ⟨h₂, ((entered.trans started).trans grown).trans shrunk, divided⟩

/-- The result moves to its destination and gets its sign. -/
theorem runs_finish (h : Regs) (isRd : IsAllocated rd) :
    ∃ h', placed.Runs (24, h) (27, h') ∧
      h'.get rd = (if h.get t5 = 0#32 then h.get (if isMod then t2 else t0)
        else -h.get (if isMod then t2 else t0)) ∧ KeepsBut rd h h' := by
  have moved := @runs_line _ placed 24 h _ [.addi rd (if isMod then t2 else t0) 0] ⟨_, rfl⟩ rfl
  have notSign : t5 ≠ rd := by
    intro same
    exact absurd (same ▸ isRd) (by decide)
  have isMoved : ∀ v : Word, (h.set rd (v + BitVec.ofInt 32 0)).get rd = v := by
    intro v
    rw [Regs.get_set_same isRd.ne_zero, show BitVec.ofInt 32 0 = 0#32 from rfl, BitVec.add_zero]
  by_cases nonneg : h.get t5 = 0#32
  · refine ⟨_, moved.trans (@runs_branch _ placed 25 27 _ .beq t5 zero 8 true rfl ?_ rfl), ?_, ?_⟩
    · rw [Regs.get_set_other notSign, nonneg]
      rfl
    · rw [isMoved, if_pos nonneg]
    · intro r isR other
      exact Regs.get_set_other other
  · have turned : placed.Runs (25, h.set rd (h.get (if isMod then t2 else t0) + BitVec.ofInt 32 0))
        (26, h.set rd (h.get (if isMod then t2 else t0) + BitVec.ofInt 32 0)) := by
      apply @runs_branch _ placed 25 26 _ .beq t5 zero 8 false rfl ?_ rfl
      rw [Regs.get_set_other notSign]
      simpa [Op.taken] using nonneg
    have negated := @runs_line _ placed 26 (h.set rd (h.get (if isMod then t2 else t0) +
      BitVec.ofInt 32 0)) _ [.sub rd zero rd] ⟨_, rfl⟩ rfl
    refine ⟨_, (moved.trans turned).trans negated, ?_, ?_⟩
    · rw [Regs.get_set_same isRd.ne_zero, isMoved, if_neg nonneg, Regs.get_zero, BitVec.zero_sub]
    · intro r isR other
      rw [Regs.get_set_other other, Regs.get_set_other other]

end SoftDiv

theorem softDiv_valid {isMod : Bool} {rd rs1 rs2 : Int} (isRd : IsAllocated rd)
    (isRs1 : IsAllocated rs1) (isRs2 : IsAllocated rs2) :
    ∀ insn ∈ softDiv isMod rd rs1 rs2, insn.Valid := by
  have regRd := isRd.isReg
  have regRs1 := isRs1.isReg
  have regRs2 := isRs2.isReg
  have back : Reachable (-16) := ⟨rfl, by decide, by decide⟩
  unfold IsReg at *
  cases isMod <;> simp [softDiv, Insn.Valid, Op.isa, IsReg, regRd, regRs1, regRs2, back] <;> decide

/-- Loaded code runs to an end with the quotient or the remainder in the destination. -/
theorem softDiv_reaches {isMod : Bool} {rd rs1 rs2 : Int} (isRd : IsAllocated rd)
    (isRs1 : IsAllocated rs1) (isRs2 : IsAllocated rs2) {fetch : Word → Option Word} {base : Word}
    (loaded : Loaded Insn.encode fetch base (softDiv isMod rd rs1 rs2)) (h : Regs)
    (nonzero : h.get rs2 ≠ 0#32) :
    ∃ h', processor.Reaches fetch base 27 (h, slot base 0) (h', slot base 27) ∧
      h'.get rd = truncated isMod (h.get rs1) (h.get rs2) ∧ KeepsBut rd h h' := by
  let placed := loaded.placed (means_self (@softDiv_valid isMod _ _ _ isRd isRs1 isRs2))
  rcases @SoftDiv.runs_setup _ _ _ _ placed h isRs1 isRs2 with
    ⟨h₁, started, isQuotient, isBit, isDividend, isDivisor, isMask, kept₁⟩
  have divisorNonzero : h₁.get t3 ≠ 0#32 := by
    intro isZero
    apply nonzero
    apply Word.magnitude_eq_zero
    rw [← isDivisor, isZero]
  have small : (h₁.get t2).toNat ≤ 2 ^ 31 := by
    rw [isDividend]
    exact Word.magnitude_le _
  rcases @SoftDiv.runs_divide _ _ _ _ placed h₁ isQuotient isBit divisorNonzero small with
    ⟨h₂, divided, isDivided⟩
  rcases @SoftDiv.runs_finish _ _ _ _ placed h₂ isRd with ⟨h₃, finished, isResult, kept₃⟩
  refine ⟨h₃, (started.trans divided).trans finished, ?_, ?_⟩
  · have quotient := isDivided.quotient
    have remainder := isDivided.remainder
    rw [isDividend, isDivisor] at quotient remainder
    rw [isResult, isDivided.kept.sign, isMask, SoftDiv.resultMask]
    cases isMod with
    | false => exact Word.signed_quotient quotient
    | true =>
        have signed := Word.signed_remainder remainder
        simpa using signed
  · intro r isR other
    rw [kept₃ r isR other, isDivided.kept.allocated r isR, kept₁ r isR]

/-- The code of a division without the instruction for it. -/
theorem softDiv_of_emitted {env : Env} {p : Codegen.Program} {elfOffset : BlockId → Nat}
    {size : Nat} {ir : Ph2Ir} {insns : List Insn} (isDivision : ir.op = .div ∨ ir.op = .mod)
    (soft : env.hardMulDiv = false) (emitted : instructions env p elfOffset size ir = some insns) :
    insns = softDiv (ir.op == .mod) (ir.dest + 10) (ir.src0 + 10) (ir.src1 + 10) := by
  rcases isDivision with isDiv | isMod
  · rw [isDiv, show (Opcode.div == .mod) = false from rfl]
    simpa [instructions, isDiv, soft] using emitted.symm
  · rw [isMod, show (Opcode.mod == .mod) = true from rfl]
    simpa [instructions, isMod, soft] using emitted.symm

/-- The emulated division by anything but zero ends with the quotient or the remainder
in its destination and leaves the other allocated registers alone. -/
theorem softDiv_computes {env : Env} {p : Codegen.Program} {elfOffset : BlockId → Nat}
    {size : Nat} {ir : Ph2Ir} {insns : List Insn} (isDivision : ir.op = .div ∨ ir.op = .mod)
    (soft : env.hardMulDiv = false) (dest : IsAllocated (ir.dest + 10))
    (src0 : IsAllocated (ir.src0 + 10)) (src1 : IsAllocated (ir.src1 + 10))
    (emitted : instructions env p elfOffset size ir = some insns) {fetch : Word → Option Word}
    {base : Word} (loaded : Loaded Insn.encode fetch base insns) (h : Regs)
    (nonzero : h.get (ir.src1 + 10) ≠ 0#32) :
    ∃ h', processor.Reaches fetch base insns.length (h, slot base 0) (h', slot base insns.length) ∧
      h'.get (ir.dest + 10) =
          truncated (ir.op == .mod) (h.get (ir.src0 + 10)) (h.get (ir.src1 + 10)) ∧
        KeepsBut (ir.dest + 10) h h' := by
  have isCode := softDiv_of_emitted isDivision soft emitted
  have isLength : insns.length = 27 := by
    rw [isCode]
    rfl
  rw [isLength]
  subst isCode
  exact softDiv_reaches dest src0 src1 loaded h nonzero

/-- The smallest word divided by itself, in place. -/
theorem softDiv_computes_smallest :
    ∃ h', processor.Reaches (store Insn.encode 0#32 (softDiv false 10 10 10)) 0#32 27
        (fun _ => 0x80000000#32, slot 0#32 0) (h', slot 0#32 27) ∧
      h'.get 10 = truncated false 0x80000000#32 0x80000000#32 ∧
        KeepsBut 10 (fun _ => 0x80000000#32) h' :=
  @softDiv_computes smallEnv branchingProgram (fun _ => 0) 0 { op := .div } _ (.inl rfl) rfl
    (by decide) (by decide) (by decide) rfl _ 0#32
    (loaded_of_valid 0#32 (by decide) (softDiv_valid (by decide) (by decide) (by decide)))
    (fun _ => 0x80000000#32) (by decide)

end Shecc.RiscV
