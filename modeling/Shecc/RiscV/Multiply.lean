import Shecc.RiscV.Machine
import Shecc.RiscV.Layout

/-!
# The emulated multiplication of RISC-V

Without the instructions for it, a product is computed by shifting and adding. The
product of what is left of the operands and the sum so far do not change together, and
the multiplier gets smaller.
-/

namespace Shecc.RiscV

open Execution

/-- The registers the allocator hands out. -/
def IsAllocated (r : Int) : Prop := 10 ≤ r ∧ r < 18

instance (r : Int) : Decidable (IsAllocated r) := inferInstanceAs (Decidable (_ ∧ _))

theorem IsAllocated.isReg {r : Int} (isAllocated : IsAllocated r) : IsReg r := by
  rcases isAllocated with ⟨low, high⟩
  constructor <;> omega

theorem IsAllocated.ne_zero {r : Int} (isAllocated : IsAllocated r) : r ≠ 0 := by
  have low := isAllocated.1
  omega

/-- No allocated register but `rd` has changed. -/
def KeepsBut (rd : Int) (h h' : Regs) : Prop :=
  ∀ r, IsAllocated r → r ≠ rd → h'.get r = h.get r

/-- Writing another register leaves an allocated one alone. -/
theorem Regs.get_set_allocated {h : Regs} {r s : Int} {v : Word} (isS : IsAllocated s)
    (isOther : ¬IsAllocated r) : (h.set r v).get s = h.get s := by
  apply Regs.get_set_other
  intro same
  exact isOther (same ▸ isS)

namespace SoftMul

variable {rd rs1 rs2 : Int} {placed : Placed processor (softMul rd rs1 rs2)}

/-- What holds before every round. -/
structure Inv (h₀ : Regs) (product : Word) (h : Regs) : Prop where
  sum : h.get t0 + h.get t3 * h.get t4 = product
  kept : ∀ r, IsAllocated r → h.get r = h₀.get r

theorem and_one_toNat (w : Word) : (w &&& 1#32).toNat = w.toNat % 2 := by
  rw [BitVec.toNat_and]
  exact Nat.and_one_is_mod _

/-- A word is twice its half and its lowest bit. -/
theorem halves (w : Word) : w = (w >>> 1) * 2#32 + (w &&& 1#32) := by
  apply BitVec.eq_of_toNat_eq
  have bound := w.isLt
  rw [BitVec.toNat_add, BitVec.toNat_mul, BitVec.toNat_ushiftRight, and_one_toNat,
    Nat.shiftRight_one, BitVec.toNat_ofNat]
  omega

theorem runs_setup (h : Regs) (isRs1 : IsAllocated rs1) (isRs2 : IsAllocated rs2) :
    ∃ h', placed.Runs (0, h) (4, h') ∧ Inv h (h.get rs1 * h.get rs2) h' := by
  refine ⟨_, runs_line [.addi t0 zero 0, .addi t1 zero 0, .addi t3 rs1 0, .addi t4 rs2 0]
    ⟨_, rfl⟩ rfl, ?_, ?_⟩
  · simp (disch := first | assumption | decide) only [Regs.get_set_same, Regs.get_set_allocated,
      Regs.get_set_other, Regs.get_zero]
    simp
  · intro r isR
    simp (disch := first | assumption | decide) only [Regs.get_set_allocated]

/-- The multiplicand is added if the multiplier is odd. -/
theorem runs_add (h : Regs) :
    ∃ h', placed.Runs (6, h) (9, h') ∧ h'.get t0 = h.get t0 + h.get t3 * (h.get t4 &&& 1#32) ∧
      h'.get t3 = h.get t3 ∧ h'.get t4 = h.get t4 ∧
        ∀ r, IsAllocated r → h'.get r = h.get r := by
  have tested : placed.Runs (6, h) (7, h.set t1 (h.get t4 &&& 1#32)) :=
    runs_line [.andi t1 t4 1] ⟨_, rfl⟩ rfl
  have isBit : (h.set t1 (h.get t4 &&& 1#32)).get t1 = h.get t4 &&& 1#32 :=
    Regs.get_set_same (by decide)
  by_cases even : h.get t4 &&& 1#32 = 0#32
  · have skipped := @runs_branch _ placed 7 9 (h.set t1 (h.get t4 &&& 1#32)) .beq t1 zero 8 true
      rfl (by rw [isBit, even]; rfl) rfl
    refine ⟨_, tested.trans skipped, ?_, ?_, ?_, ?_⟩
    · rw [Regs.get_set_other (by decide), even, BitVec.mul_zero, BitVec.add_zero]
    · exact Regs.get_set_other (by decide)
    · exact Regs.get_set_other (by decide)
    · intro r isR
      exact Regs.get_set_allocated isR (by decide)
  · have odd : h.get t4 &&& 1#32 = 1#32 := by
      apply BitVec.eq_of_toNat_eq
      have nonzero : (h.get t4 &&& 1#32).toNat ≠ 0 := by
        intro isZero
        exact even (BitVec.eq_of_toNat_eq isZero)
      rw [and_one_toNat] at nonzero ⊢
      rw [BitVec.toNat_ofNat]
      omega
    have reached := @runs_branch _ placed 7 8 (h.set t1 (h.get t4 &&& 1#32)) .beq t1 zero 8 false
      rfl (by rw [isBit, odd]; rfl) rfl
    refine ⟨_, (tested.trans reached).trans (runs_line [.add t0 t0 t3] ⟨_, rfl⟩ rfl), ?_, ?_, ?_,
      ?_⟩
    · rw [Regs.get_set_same (by decide), Regs.get_set_other (by decide),
        Regs.get_set_other (by decide), odd, BitVec.mul_one]
    · rw [Regs.get_set_other (by decide), Regs.get_set_other (by decide)]
    · rw [Regs.get_set_other (by decide), Regs.get_set_other (by decide)]
    · intro r isR
      rw [Regs.get_set_allocated isR (by decide), Regs.get_set_allocated isR (by decide)]

/-- A round adds the multiplicand if the multiplier is odd, and shifts both. -/
theorem runs_round {h₀ h : Regs} {product : Word} (holds : Inv h₀ product h)
    (leftOver : h.get t3 ≠ 0#32) (remaining : h.get t4 ≠ 0#32) :
    ∃ h', placed.Runs (4, h) (4, h') ∧ Inv h₀ product h' ∧
      (h'.get t4).toNat < (h.get t4).toNat := by
  have entered : placed.Runs (4, h) (6, h) := by
    apply (@runs_branch _ placed 4 5 h .beq t3 zero 32 false rfl ?_ rfl).trans
    · apply @runs_branch _ placed 5 6 h .beq t4 zero 28 false rfl ?_ rfl
      simpa [Op.taken] using remaining
    · simpa [Op.taken] using leftOver
  rcases @runs_add _ _ _ placed h with ⟨h₁, added, isSum, same3, same4, kept⟩
  have shifted : placed.Runs (9, h₁) (11, (h₁.set t3 (h₁.get t3 <<< 1)).set t4
      ((h₁.set t3 (h₁.get t3 <<< 1)).get t4 >>> 1)) :=
    runs_line [.slli t3 t3 1, .srli t4 t4 1] ⟨_, rfl⟩ rfl
  have again := fun h₂ => @runs_jump _ placed 11 4 h₂ (-28) rfl rfl
  refine ⟨_, ((entered.trans added).trans shifted).trans (again _), ⟨?_, ?_⟩, ?_⟩
  · simp (disch := decide) only [Regs.get_set_same, Regs.get_set_other]
    rw [← holds.sum, isSum, same3, same4, BitVec.shiftLeft_eq_mul_twoPow]
    conv_rhs => rw [halves (h.get t4)]
    rw [show (BitVec.twoPow 32 1 : Word) = 2#32 from rfl]
    ring
  · intro r isR
    rw [Regs.get_set_allocated isR (by decide), Regs.get_set_allocated isR (by decide), kept r isR,
      holds.kept r isR]
  · rw [Regs.get_set_same (by decide), Regs.get_set_other (by decide), same4,
      BitVec.toNat_ushiftRight, Nat.shiftRight_one]
    have positive : (h.get t4).toNat ≠ 0 := by
      intro isZero
      exact remaining (BitVec.eq_of_toNat_eq isZero)
    omega

/-- The loop ends with the product in the accumulator. -/
theorem runs_loop {h₀ h : Regs} {product : Word} (holds : Inv h₀ product h) :
    ∃ h', placed.Runs (4, h) (12, h') ∧ h'.get t0 = product ∧
      ∀ r, IsAllocated r → h'.get r = h₀.get r := by
  apply Placed.Runs.loop (fun h => (h.get t4).toNat) ?_ holds
  intro h holds
  by_cases noMultiplicand : h.get t3 = 0#32
  · refine .inr ⟨h, ?_, ?_, holds.kept⟩
    · apply @runs_branch _ placed 4 12 h .beq t3 zero 32 true rfl ?_ rfl
      rw [noMultiplicand]
      rfl
    · rw [← holds.sum, noMultiplicand, BitVec.zero_mul, BitVec.add_zero]
  · by_cases noMultiplier : h.get t4 = 0#32
    · refine .inr ⟨h, ?_, ?_, holds.kept⟩
      · apply (@runs_branch _ placed 4 5 h .beq t3 zero 32 false rfl ?_ rfl).trans
        · apply @runs_branch _ placed 5 12 h .beq t4 zero 28 true rfl ?_ rfl
          rw [noMultiplier]
          rfl
        · simpa [Op.taken] using noMultiplicand
      · rw [← holds.sum, noMultiplier, BitVec.mul_zero, BitVec.add_zero]
    · exact .inl (runs_round holds noMultiplicand noMultiplier)

end SoftMul

theorem softMul_valid {rd rs1 rs2 : Int} (isRd : IsAllocated rd) (isRs1 : IsAllocated rs1)
    (isRs2 : IsAllocated rs2) : ∀ insn ∈ softMul rd rs1 rs2, insn.Valid := by
  have regRd := isRd.isReg
  have regRs1 := isRs1.isReg
  have regRs2 := isRs2.isReg
  have back : Reachable (-28) := ⟨rfl, by decide, by decide⟩
  unfold IsReg at *
  simp [softMul, Insn.Valid, Op.isa, IsReg, regRd, regRs1, regRs2, back]
  decide

/-- Loaded code runs to an end with the product in the destination. -/
theorem softMul_reaches {rd rs1 rs2 : Int} (isRd : IsAllocated rd) (isRs1 : IsAllocated rs1)
    (isRs2 : IsAllocated rs2) {fetch : Word → Option Word} {base : Word}
    (loaded : Loaded Insn.encode fetch base (softMul rd rs1 rs2)) (h : Regs) :
    ∃ h', processor.Reaches fetch base 13 (h, slot base 0) (h', slot base 13) ∧
      h'.get rd = h.get rs1 * h.get rs2 ∧ KeepsBut rd h h' := by
  let placed := loaded.placed (means_self (softMul_valid isRd isRs1 isRs2))
  rcases @SoftMul.runs_setup _ _ _ placed h isRs1 isRs2 with ⟨h₁, started, holds⟩
  rcases SoftMul.runs_loop holds with ⟨h₂, looped, isProduct, kept⟩
  have moved : placed.Runs (12, h₂) (13, h₂.set rd (h₂.get t0 + 0#32)) :=
    runs_line [.addi rd t0 0] ⟨_, rfl⟩ rfl
  refine ⟨_, (started.trans looped).trans moved, ?_, ?_⟩
  · rw [Regs.get_set_same isRd.ne_zero, BitVec.add_zero, isProduct]
  · intro r isR other
    rw [Regs.get_set_other other, kept r isR]

/-- The emulated multiplication ends with the product of the operands in its
destination and leaves the other allocated registers alone. -/
theorem softMul_computes {env : Env} {p : Codegen.Program} {elfOffset : BlockId → Nat}
    {size : Nat} {ir : Ph2Ir} {insns : List Insn} (isMul : ir.op = .mul)
    (soft : env.hardMulDiv = false) (dest : IsAllocated (ir.dest + 10))
    (src0 : IsAllocated (ir.src0 + 10)) (src1 : IsAllocated (ir.src1 + 10))
    (emitted : instructions env p elfOffset size ir = some insns) {fetch : Word → Option Word}
    {base : Word} (loaded : Loaded Insn.encode fetch base insns) (h : Regs) :
    ∃ h', processor.Reaches fetch base insns.length (h, slot base 0) (h', slot base insns.length) ∧
      h'.get (ir.dest + 10) = h.get (ir.src0 + 10) * h.get (ir.src1 + 10) ∧
        KeepsBut (ir.dest + 10) h h' := by
  have isCode : insns = softMul (ir.dest + 10) (ir.src0 + 10) (ir.src1 + 10) := by
    simpa [instructions, isMul, soft] using emitted.symm
  subst isCode
  exact softMul_reaches dest src0 src1 loaded h

/-- Six times six, in place. -/
theorem softMul_computes_square :
    ∃ h', processor.Reaches (store Insn.encode 0#32 (softMul 10 10 10)) 0#32 13
        (fun _ => 6#32, slot 0#32 0) (h', slot 0#32 13) ∧
      h'.get 10 = 6#32 * 6#32 ∧ KeepsBut 10 (fun _ => 6#32) h' :=
  @softMul_computes smallEnv branchingProgram (fun _ => 0) 0 { op := .mul } _ rfl rfl (by decide)
    (by decide) (by decide) rfl _ 0#32
    (loaded_of_valid 0#32 (by decide) (softMul_valid (by decide) (by decide) (by decide))) _

end Shecc.RiscV
