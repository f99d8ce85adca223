import Shecc.Peephole.Fusion

/-!
# Strength reduction

`strength_reduction` replaces an operation with a power of two: a product becomes a left
shift, a quotient a right shift and a remainder a mask. The constant is replaced in its
register, and a shift or a mask rounds a negative word down. This file proves in which
states the pair that is left does what the pair did.
-/

namespace Shecc.Peephole

/-- `strength_reduction`. -/
def strengthReduction (ir next : Ph2Ir) : Option (List Ph2Ir) :=
  if ir.op = .loadConstant ∧ Word.isPowerOfTwo ir.imm then
    let shift : Int := Word.countHalvings 32 ir.imm 0
    if next.op = .div ∧ next.src1 = ir.dest then
      some [{ ir with src0 := shift }, { next with op := .rshift }]
    else if next.op = .mod ∧ next.src1 = ir.dest then
      some [{ ir with src0 := ir.src0 - 1 }, { next with op := .bitAnd }]
    else if next.op = .mul ∧ next.src0 = ir.dest then
      some [{ ir with src0 := shift },
        { next with op := .lshift, src0 := next.src1, src1 := ir.dest }]
    else if next.op = .mul ∧ next.src1 = ir.dest then
      some [{ ir with src0 := shift }, { next with op := .lshift }]
    else
      none
  else
    none

/-- What is left of a pair with the constant `2 ^ n`. -/
inductive Reduced (ir next : Ph2Ir) (n : Nat) : List Ph2Ir → Prop where
  | div (isDiv : next.op = .div) (second : next.src1 = ir.dest) :
      Reduced ir next n [{ ir with src0 := n }, { next with op := .rshift }]
  | mod (isMod : next.op = .mod) (second : next.src1 = ir.dest) :
      Reduced ir next n [{ ir with src0 := ir.src0 - 1 }, { next with op := .bitAnd }]
  | mulLeft (isMul : next.op = .mul) (first : next.src0 = ir.dest) :
      Reduced ir next n [{ ir with src0 := n },
        { next with op := .lshift, src0 := next.src1, src1 := ir.dest }]
  | mulRight (isMul : next.op = .mul) (second : next.src1 = ir.dest) :
      Reduced ir next n [{ ir with src0 := n }, { next with op := .lshift }]

variable {P : Platform} {ir next : Ph2Ir} {rest left : List Ph2Ir} {n : Nat} {s : Machine}

theorem strengthReduction_reduced (isReduced : strengthReduction ir next = some left) :
    ∃ n < 31, ir.imm = Word.pow2 n ∧ Reduced ir next n left := by
  unfold strengthReduction at isReduced
  split_ifs at isReduced with matched isDiv isMod mulLeft mulRight
  all_goals
    rcases (Word.isPowerOfTwo_iff ir.imm).mp matched.2 with ⟨n, small, power⟩
    rw [power, Word.countHalvings_pow2 small (by omega), Nat.zero_add] at isReduced
    obtain rfl := Option.some.inj isReduced
    refine ⟨n, small, power, ?_⟩
  · exact .div isDiv.1 isDiv.2
  · exact .mod isMod.1 isMod.2
  · exact .mulLeft mulLeft.1 mulLeft.2
  · exact .mulRight mulRight.1 mulRight.2

theorem fusePowerOfTwo_reduced (fused : fusePowerOfTwo ir next = some left) :
    ∃ n < 31, ir.imm = Word.pow2 n ∧ Reduced ir next n left := by
  unfold fusePowerOfTwo at fused
  split_ifs at fused with matched
  rcases (Word.isPowerOfTwo_iff ir.imm).mp matched.2.2 with ⟨n, small, power⟩
  rw [power, Word.countHalvings_pow2 small (by omega), Nat.zero_add] at fused
  obtain rfl := Option.some.inj fused
  exact ⟨n, small, power, .mulRight matched.1 matched.2.1.symm⟩

/-! ## When the pair that is left does the same -/

/-- From the state, the destination gets the value of the original pair, and the constant's
register has the content it had if an instruction of `rest` reads it. -/
structure Reduces (P : Platform) (ir next : Ph2Ir) (rest left : List Ph2Ir) (s : Machine) :
    Prop where
  dest : (P.run left s).reg next.dest = (P.run [ir, next] s).reg next.dest
  constant : P.live rest ir.dest = true →
    (P.run left s).reg ir.dest = (P.run [ir, next] s).reg ir.dest

/-- A word that a right shift or a mask divides as the power of two does. -/
def Exact (power x : Word) : Prop := 0 ≤ x.toInt ∨ power.toInt ∣ x.toInt

/-- The condition of a reduction: the constant is not read again, and the other operand is not
the constant and, for a quotient or a remainder, not a negative word with a remainder. -/
def Reducible (P : Platform) (ir next : Ph2Ir) (rest : List Ph2Ir) (s : Machine) : Prop :=
  (next.dest = ir.dest ∨ P.live rest ir.dest = false) ∧
    match next.op with
    | .mul => ¬(next.src0 = ir.dest ∧ next.src1 = ir.dest)
    | .div => next.src0 ≠ ir.dest ∧ Exact ir.imm (s.reg next.src0)
    | .mod => if next.src0 = ir.dest then ir.imm = 1 else Exact ir.imm (s.reg next.src0)
    | _ => True

theorem reduces_iff {k k' w w' : Word} (differs : k' ≠ k)
    (before : P.run [ir, next] s = (s.setReg ir.dest k).setReg next.dest w)
    (after : P.run left s = (s.setReg ir.dest k').setReg next.dest w') :
    Reduces P ir next rest left s ↔
      (next.dest = ir.dest ∨ P.live rest ir.dest = false) ∧ w' = w := by
  have dest : (P.run left s).reg next.dest = (P.run [ir, next] s).reg next.dest ↔ w' = w := by
    rw [before, after, Machine.setReg_same, Machine.setReg_same]
  constructor
  · intro reduces
    refine ⟨?_, dest.mp reduces.dest⟩
    by_contra neither
    rw [not_or, Bool.not_eq_false] at neither
    have constant := reduces.constant neither.2
    rw [before, after, Machine.setReg_ne _ _ (Ne.symm neither.1),
      Machine.setReg_ne _ _ (Ne.symm neither.1), Machine.setReg_same,
      Machine.setReg_same] at constant
    exact differs constant
  · rintro ⟨isDest | dead, same⟩
    · refine ⟨dest.mpr same, fun _ => ?_⟩
      rw [← isDest]
      exact dest.mpr same
    · refine ⟨dest.mpr same, fun isLive => ?_⟩
      rw [dead] at isLive
      cases isLive

/-! ## The operations -/

/-- A shift of `n` by itself is neither the quotient nor the product of the power with itself,
and the mask is the remainder for one only. -/
theorem pow2_itself (small : n < 31) :
    (BitVec.ofNat 32 n).sshiftRight n ≠ (Word.pow2 n).sdiv (Word.pow2 n) ∧
      (Word.pow2 n - 1 = (Word.pow2 n).srem (Word.pow2 n) ↔ Word.pow2 n = 1) ∧
      BitVec.ofNat 32 n <<< n ≠ Word.pow2 n * Word.pow2 n := by
  interval_cases n <;> decide

theorem toNat_exponent (small : n < 31) : (BitVec.ofNat 32 n).toNat = n := by
  rw [BitVec.toNat_ofNat, Nat.mod_eq_of_lt (by omega)]

theorem imm_exponent (ir : Ph2Ir) (n : Nat) :
    ({ ir with src0 := n } : Ph2Ir).imm = BitVec.ofNat 32 n := by
  rw [Ph2Ir.imm, BitVec.ofInt_natCast]

/-- The pair with the operation on the constant and another operand. -/
theorem run_pair (isConstant : ir.op = .loadConstant) (running : s.outcome = none) {w : Word}
    (value : next.op.binary ((s.setReg ir.dest ir.imm).reg next.src0)
      ((s.setReg ir.dest ir.imm).reg next.src1) = some w) :
    P.run [ir, next] s = (s.setReg ir.dest ir.imm).setReg next.dest w := by
  have gives : next.op.givesValue = true := by
    have isBinary := Opcode.isBinary_of_binary_eq_some value
    revert isBinary
    cases next.op <;> simp [Opcode.isBinary, Opcode.givesValue]
  exact run_constant isConstant gives running (value_of_binary value)

theorem pow2_ne_mask (n : Nat) : Word.pow2 n - 1 ≠ Word.pow2 n := by
  simp

theorem div_reduces_iff (isConstant : ir.op = .loadConstant) (small : n < 31)
    (power : ir.imm = Word.pow2 n) (running : s.outcome = none) (isDiv : next.op = .div)
    (second : next.src1 = ir.dest) :
    Reduces P ir next rest [{ ir with src0 := n }, { next with op := .rshift }] s ↔
      Reducible P ir next rest s := by
  have before := @run_pair P ir next s isConstant running
    (((s.setReg ir.dest ir.imm).reg next.src0).sdiv (Word.pow2 n)) (by
      rw [isDiv, second, Machine.setReg_same, power, Opcode.binary,
        if_pos (Word.divides_pow2 _ small)])
  have after := @run_pair P { ir with src0 := n } { next with op := .rshift } s isConstant running
    (((s.setReg ir.dest (BitVec.ofNat 32 n)).reg next.src0).sshiftRight n) (by
      rw [imm_exponent]
      simp only [second, Machine.setReg_same, Opcode.binary, toNat_exponent small]
      rw [if_pos (by omega)])
  rw [imm_exponent] at after
  rw [power] at before
  rw [reduces_iff (pow2_ne_exponent small).1.symm before after, Reducible, isDiv]
  apply and_congr_right'
  by_cases first : next.src0 = ir.dest
  · rw [first, Machine.setReg_same, Machine.setReg_same]
    exact iff_of_false (pow2_itself small).1 fun holds => holds.1 rfl
  · rw [Machine.setReg_ne _ _ first, Machine.setReg_ne _ _ first, and_iff_right first, power,
      Exact, Word.pow2_toInt small]
    exact Word.sdiv_pow2_eq_sshiftRight_iff _ small

theorem mod_reduces_iff (isConstant : ir.op = .loadConstant) (small : n < 31)
    (power : ir.imm = Word.pow2 n) (running : s.outcome = none) (isMod : next.op = .mod)
    (second : next.src1 = ir.dest) :
    Reduces P ir next rest [{ ir with src0 := ir.src0 - 1 }, { next with op := .bitAnd }] s ↔
      Reducible P ir next rest s := by
  have mask : ({ ir with src0 := ir.src0 - 1 } : Ph2Ir).imm = Word.pow2 n - 1 := by
    rw [← power, Ph2Ir.imm, Ph2Ir.imm, sub_eq_add_neg, BitVec.ofInt_add, BitVec.sub_eq_add_neg]
    rfl
  have before := @run_pair P ir next s isConstant running
    (((s.setReg ir.dest ir.imm).reg next.src0).srem (Word.pow2 n)) (by
      rw [isMod, second, Machine.setReg_same, power, Opcode.binary,
        if_pos (Word.divides_pow2 _ small)])
  have after := @run_pair P { ir with src0 := ir.src0 - 1 } { next with op := .bitAnd } s isConstant
    running (((s.setReg ir.dest (Word.pow2 n - 1)).reg next.src0) &&& (Word.pow2 n - 1)) (by
      rw [mask]
      simp only [second, Machine.setReg_same, Opcode.binary])
  rw [mask] at after
  rw [power] at before
  rw [reduces_iff (pow2_ne_mask n) before after, Reducible, isMod]
  apply and_congr_right'
  by_cases first : next.src0 = ir.dest
  · rw [if_pos first, first, Machine.setReg_same, Machine.setReg_same, BitVec.and_self, power]
    exact (pow2_itself small).2.1
  · rw [if_neg first, Machine.setReg_ne _ _ first, Machine.setReg_ne _ _ first, power,
      Exact, Word.pow2_toInt small]
    exact Word.srem_pow2_eq_and_iff _ small

/-- The product with the operand `o`, which is the constant if both operands are. -/
theorem mul_reduces_iff {next' : Ph2Ir} (isConstant : ir.op = .loadConstant) (small : n < 31)
    (power : ir.imm = Word.pow2 n) (running : s.outcome = none) (isMul : next.op = .mul)
    (isShift : next'.op = .lshift) (sameDest : next'.dest = next.dest)
    (amount : next'.src1 = ir.dest)
    (operands : next.src0 = ir.dest ∧ next.src1 = next'.src0 ∨
      next.src1 = ir.dest ∧ next.src0 = next'.src0) :
    Reduces P ir next rest [{ ir with src0 := n }, next'] s ↔ Reducible P ir next rest s := by
  have before := @run_pair P ir next s isConstant running
    ((s.setReg ir.dest ir.imm).reg next'.src0 * Word.pow2 n) (by
      rw [isMul, Opcode.binary]
      rcases operands with ⟨first, other⟩ | ⟨second, other⟩
      · rw [first, other, Machine.setReg_same, power, mul_comm]
      · rw [second, other, Machine.setReg_same, power])
  have after := @run_pair P { ir with src0 := n } next' s isConstant running
    ((s.setReg ir.dest (BitVec.ofNat 32 n)).reg next'.src0 <<< n) (by
      rw [imm_exponent]
      simp only [isShift, amount, Machine.setReg_same, Opcode.binary, toNat_exponent small]
      rw [if_pos (by omega)])
  rw [imm_exponent, sameDest] at after
  rw [power] at before
  have both : next.src0 = ir.dest ∧ next.src1 = ir.dest ↔ next'.src0 = ir.dest := by
    rcases operands with ⟨first, other⟩ | ⟨second, other⟩
    · rw [and_iff_right first, other]
    · rw [and_iff_left second, other]
  rw [reduces_iff (pow2_ne_exponent small).1.symm before after, Reducible, isMul]
  apply and_congr_right'
  dsimp only
  rw [both]
  by_cases same : next'.src0 = ir.dest
  · rw [same, Machine.setReg_same, Machine.setReg_same]
    exact iff_of_false (pow2_itself small).2.2 fun holds => holds rfl
  · rw [Machine.setReg_ne _ _ same, Machine.setReg_ne _ _ same]
    exact iff_of_true (Word.mul_pow2 _ n).symm same

/-- The pair that is left of an operation with a power of two does what the pair did exactly
under the condition of a reduction. -/
theorem reduction_reduces_iff (rest : List Ph2Ir) (isConstant : ir.op = .loadConstant)
    (reduced : strengthReduction ir next = some left ∨ fusePowerOfTwo ir next = some left)
    (running : s.outcome = none) :
    Reduces P ir next rest left s ↔ Reducible P ir next rest s := by
  have cases_ : ∃ n < 31, ir.imm = Word.pow2 n ∧ Reduced ir next n left := by
    rcases reduced with isReduced | fused
    · exact strengthReduction_reduced isReduced
    · exact fusePowerOfTwo_reduced fused
  rcases cases_ with ⟨n, small, power, isReduced⟩
  cases isReduced with
  | div isDiv second => exact div_reduces_iff isConstant small power running isDiv second
  | mod isMod second => exact mod_reduces_iff isConstant small power running isMod second
  | mulLeft isMul first =>
      exact mul_reduces_iff isConstant small power running isMul rfl rfl rfl (.inl ⟨first, rfl⟩)
  | mulRight isMul second =>
      exact mul_reduces_iff isConstant small power running isMul rfl rfl second
        (.inr ⟨second, rfl⟩)

/-- The code of `x * 8`. -/
def timesEight : Ph2Ir × Ph2Ir :=
  ({ op := .loadConstant, src0 := 8, dest := 1 }, { op := .mul, src0 := 0, src1 := 1, dest := 0 })

theorem timesEight_reduces_iff :
    Reduces plainPlatform timesEight.1 timesEight.2 []
        [{ op := .loadConstant, src0 := 3, dest := 1 },
          { op := .lshift, src0 := 0, src1 := 1, dest := 0 }] (machineWith fun _ => -5) ↔
      Reducible plainPlatform timesEight.1 timesEight.2 [] (machineWith fun _ => -5) :=
  reduction_reduces_iff [] rfl (.inl (by decide)) rfl

/-- The code of `x / 2`. -/
def half : Ph2Ir × Ph2Ir :=
  ({ op := .loadConstant, src0 := 2, dest := 1 }, { op := .div, src0 := 0, src1 := 1, dest := 0 })

/-- The half of minus one is rounded down. -/
theorem half_not_reduces :
    ¬∀ (P : Platform) (ir next : Ph2Ir) (rest left : List Ph2Ir) (s : Machine),
      ir.op = .loadConstant →
      (strengthReduction ir next = some left ∨ fusePowerOfTwo ir next = some left) →
      s.outcome = none → Reduces P ir next rest left s := by
  intro all
  have same := (all plainPlatform half.1 half.2 [] _ (machineWith fun _ => -1) rfl
    (.inl rfl) rfl).dest
  exact absurd same (by decide)

end Shecc.Peephole
