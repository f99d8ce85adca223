import Shecc.Word.Core

/-!
# Division by shifting and subtracting

What a division needs that has no instruction for it. Signs are split off with an
arithmetic shift. The divisor is doubled until it is not below the dividend, and halved
again while multiples of it are subtracted; the same shifts move the bit that is added
to the quotient.
-/

namespace Shecc.Word

/-! ## Signs -/

/-- All bits are the sign bit. -/
def signMask (w : Word) : Word := w.sshiftRight 31

/-- The absolute value, as the mask makes it. -/
def magnitude (w : Word) : Word := (w + signMask w) ^^^ signMask w

theorem signMask_eq (w : Word) : signMask w = if w.toInt < 0 then -1#32 else 0#32 := by
  apply BitVec.eq_of_toInt_eq
  have low := BitVec.le_toInt w
  have high := BitVec.toInt_lt (x := w)
  rw [signMask, BitVec.toInt_sshiftRight, Int.shiftRight_eq_div_pow]
  norm_num at low high ⊢
  split
  · rw [show (BitVec.toInt (-1#32 : Word)) = -1 from rfl]
    omega
  · rw [show (BitVec.toInt (0#32 : Word)) = 0 from rfl]
    omega

theorem magnitude_eq (w : Word) : magnitude w = if w.toInt < 0 then -w else w := by
  rw [magnitude, signMask_eq]
  split
  · have flipped : (w + -1#32) ^^^ -1#32 = ~~~(w + -1#32) := BitVec.xor_allOnes
    rw [flipped, BitVec.not_eq_neg_add]
    ring
  · rw [BitVec.add_zero, BitVec.xor_zero]

theorem magnitude_toNat (w : Word) : (magnitude w).toNat = w.toInt.natAbs := by
  have bound := w.isLt
  have value := @BitVec.toInt_eq_toNat_cond 32 w
  rw [magnitude_eq]
  split
  · rw [BitVec.toNat_neg]
    split at value <;> omega
  · split at value <;> omega

theorem magnitude_le (w : Word) : (magnitude w).toNat ≤ 2 ^ 31 := by
  rw [magnitude_toNat]
  have low := BitVec.le_toInt w
  have high := BitVec.toInt_lt (x := w)
  norm_num at low high
  omega

/-- An absolute value is its own, that of the smallest number included. -/
theorem magnitude_magnitude (w : Word) : magnitude (magnitude w) = magnitude w := by
  rw [magnitude_eq (magnitude w)]
  split
  · rename_i negative
    have isAbs := magnitude_toNat w
    have small := magnitude_le w
    have value := @BitVec.toInt_eq_toNat_cond 32 (magnitude w)
    apply BitVec.eq_of_toNat_eq
    rw [BitVec.toNat_neg]
    split at value <;> omega
  · rfl

theorem magnitude_eq_zero {w : Word} (isZero : magnitude w = 0#32) : w = 0#32 := by
  have size := magnitude_toNat w
  rw [isZero] at size
  apply BitVec.eq_of_toInt_eq
  rw [BitVec.toInt_zero]
  exact Int.natAbs_eq_zero.mp size.symm

/-! ## Shifting and subtracting -/

/-- The divisor and the bit of the quotient have been doubled `k` times. -/
structure Scaled (divisor₀ k : Nat) (divisor bit : Word) : Prop where
  divisor_eq : divisor.toNat = divisor₀ * 2 ^ k
  bit_eq : bit.toNat = 2 ^ k

theorem scaled_zero (divisor : Word) : Scaled divisor.toNat 0 divisor 1#32 :=
  ⟨by rw [pow_zero, mul_one], rfl⟩

theorem toNat_double {w : Word} (small : w.toNat < 2 ^ 31) :
    (w <<< 1).toNat = w.toNat * 2 := by
  rw [BitVec.toNat_shiftLeft, Nat.shiftLeft_eq]
  omega

theorem toNat_halve (w : Word) : (w >>> 1).toNat = w.toNat / 2 := by
  rw [BitVec.toNat_ushiftRight, Nat.shiftRight_one]

namespace Scaled

variable {divisor₀ k : Nat} {divisor bit : Word}

theorem bit_le (scaled : Scaled divisor₀ k divisor bit) (positive : 0 < divisor₀) :
    bit.toNat ≤ divisor.toNat := by
  rw [scaled.divisor_eq, scaled.bit_eq]
  exact Nat.le_mul_of_pos_left _ positive

/-- What is below half of the words can be doubled. -/
theorem double (scaled : Scaled divisor₀ k divisor bit) (positive : 0 < divisor₀)
    (small : divisor.toNat < 2 ^ 31) : Scaled divisor₀ (k + 1) (divisor <<< 1) (bit <<< 1) where
  divisor_eq := by
    rw [toNat_double small, scaled.divisor_eq, pow_succ, mul_assoc]
  bit_eq := by
    rw [toNat_double (lt_of_le_of_lt (scaled.bit_le positive) small), scaled.bit_eq, pow_succ]

theorem halve (scaled : Scaled divisor₀ (k + 1) divisor bit) :
    Scaled divisor₀ k (divisor >>> 1) (bit >>> 1) where
  divisor_eq := by
    rw [toNat_halve, scaled.divisor_eq, pow_succ, ← mul_assoc, Nat.mul_div_cancel _ (by decide)]
  bit_eq := by
    rw [toNat_halve, scaled.bit_eq, pow_succ, Nat.mul_div_cancel _ (by decide)]

end Scaled

/-- The quotient so far and what is left of the dividend. -/
structure Dividing (dividend₀ divisor₀ : Nat) (quotient dividend : Word) : Prop where
  sum : quotient.toNat * divisor₀ + dividend.toNat = dividend₀

namespace Dividing

variable {dividend₀ divisor₀ k : Nat} {quotient dividend divisor bit : Word}

/-- The multiple of the divisor is subtracted, and counted in the quotient. -/
theorem subtract (dividing : Dividing dividend₀ divisor₀ quotient dividend)
    (scaled : Scaled divisor₀ k divisor bit) (positive : 0 < divisor₀)
    (fits : dividend₀ < 2 ^ 32) (notBelow : divisor.toNat ≤ dividend.toNat) :
    Dividing dividend₀ divisor₀ (quotient + bit) (dividend - divisor) where
  sum := by
    have isDivisor := scaled.divisor_eq
    have isBit := scaled.bit_eq
    have sum := dividing.sum
    have product : (quotient.toNat + 2 ^ k) * divisor₀ =
        quotient.toNat * divisor₀ + divisor₀ * 2 ^ k := by ring
    have quotientLe : quotient.toNat + 2 ^ k ≤ (quotient.toNat + 2 ^ k) * divisor₀ :=
      Nat.le_mul_of_pos_right _ positive
    have quotientEq : (quotient + bit).toNat = quotient.toNat + 2 ^ k := by
      rw [BitVec.toNat_add, isBit, Nat.mod_eq_of_lt (by omega)]
    have dividendEq : (dividend - divisor).toNat = dividend.toNat - divisor.toNat :=
      BitVec.toNat_sub_of_le (BitVec.le_def.mpr notBelow)
    rw [quotientEq, dividendEq, product]
    omega

/-- In the end the quotient and the remainder are left. -/
theorem finished (dividing : Dividing dividend₀ divisor₀ quotient dividend)
    (below : dividend.toNat < divisor₀) :
    quotient.toNat = dividend₀ / divisor₀ ∧ dividend.toNat = dividend₀ % divisor₀ := by
  have sum := dividing.sum
  rw [← sum]
  constructor
  · rw [Nat.add_comm, Nat.add_mul_div_right _ _ (by omega), Nat.div_eq_of_lt below, zero_add]
  · rw [Nat.add_comm, Nat.add_mul_mod_self_right, Nat.mod_eq_of_lt below]

end Dividing

/-! ## The signed results -/

/-- A quotient rounded towards zero, from the quotient of the absolute values. -/
theorem tdiv_eq (n d : Int) :
    n.tdiv d = if n < 0 ↔ d < 0 then ((n.natAbs / d.natAbs : Nat) : Int)
      else -((n.natAbs / d.natAbs : Nat) : Int) := by
  have quotients : ∀ a b : Nat, (a : Int).tdiv b = ((a / b : Nat) : Int) := fun a b => rfl
  by_cases negN : n < 0 <;> by_cases negD : d < 0
  · rw [if_pos (by simp [negN, negD]), ← quotients, Int.ofNat_natAbs_of_nonpos (le_of_lt negN),
      Int.ofNat_natAbs_of_nonpos (le_of_lt negD), Int.neg_tdiv_neg]
  · rw [if_neg (by simp [negN, negD]), ← quotients, Int.ofNat_natAbs_of_nonpos (le_of_lt negN),
      Int.natAbs_of_nonneg (not_lt.mp negD), Int.neg_tdiv, neg_neg]
  · rw [if_neg (by simp [negN, negD]), ← quotients, Int.natAbs_of_nonneg (not_lt.mp negN),
      Int.ofNat_natAbs_of_nonpos (le_of_lt negD), Int.tdiv_neg, neg_neg]
  · rw [if_pos (by simp [negN, negD]), ← quotients, Int.natAbs_of_nonneg (not_lt.mp negN),
      Int.natAbs_of_nonneg (not_lt.mp negD)]

/-- A remainder has the sign of the dividend. -/
theorem tmod_eq (n d : Int) :
    n.tmod d = if n < 0 then -((n.natAbs % d.natAbs : Nat) : Int)
      else ((n.natAbs % d.natAbs : Nat) : Int) := by
  rw [← Int.natAbs_tmod]
  split
  · rename_i negative
    have nonpos := Int.tmod_nonneg d (Int.neg_nonneg.mpr (le_of_lt negative))
    rw [Int.neg_tmod] at nonpos
    omega
  · rename_i nonneg
    exact (Int.natAbs_of_nonneg (Int.tmod_nonneg d (not_lt.mp nonneg))).symm

theorem signMask_eq_zero (n : Word) : signMask n = 0#32 ↔ ¬n.toInt < 0 := by
  rw [signMask_eq]
  by_cases negN : n.toInt < 0 <;> simp [negN]

/-- The masks of the operands tell the sign of the quotient. -/
theorem signMask_xor_eq_zero (n d : Word) :
    signMask n ^^^ signMask d = 0#32 ↔ (n.toInt < 0 ↔ d.toInt < 0) := by
  rw [signMask_eq, signMask_eq]
  by_cases negN : n.toInt < 0 <;> by_cases negD : d.toInt < 0 <;> simp [negN, negD]

theorem ofInt_toNat (w : Word) : BitVec.ofInt 32 (w.toNat : Int) = w := by
  rw [BitVec.ofInt_natCast, BitVec.ofNat_toNat, BitVec.setWidth_eq]

/-- What a division or remainder is to compute: the quotient is rounded towards zero, the
remainder has the sign of the dividend. -/
def truncated (isMod : Bool) (n d : Word) : Word :=
  BitVec.ofInt 32 (if isMod then n.toInt.tmod d.toInt else n.toInt.tdiv d.toInt)

/-- The quotient is that of the instruction for it. -/
theorem truncated_div (n d : Word) : truncated false n d = n.sdiv d := by
  apply BitVec.eq_of_toInt_eq
  change (BitVec.ofInt 32 (n.toInt.tdiv d.toInt)).toInt = _
  rw [BitVec.toInt_ofInt, BitVec.toInt_sdiv]

theorem truncated_mod (n d : Word) : truncated true n d = n.srem d := by
  change BitVec.ofInt 32 (n.toInt.tmod d.toInt) = _
  rw [← BitVec.toInt_srem, BitVec.ofInt_toInt]

/-- What a quotient leaves is the remainder. -/
theorem sub_mul_sdiv (n d : Word) : n - n.sdiv d * d = n.srem d := by
  have sum : n.sdiv d * d + n.srem d = BitVec.ofInt 32 n.toInt := by
    rw [← truncated_div, ← truncated_mod, ← Int.tdiv_mul_add_tmod n.toInt d.toInt,
      BitVec.ofInt_add, BitVec.ofInt_mul, BitVec.ofInt_toInt]
    rfl
  rw [BitVec.ofInt_toInt] at sum
  exact sub_eq_of_eq_add' sum.symm

/-- The quotient of the absolute values, with its sign. -/
theorem signed_quotient {n d quotient : Word}
    (isQuotient : quotient.toNat = (magnitude n).toNat / (magnitude d).toNat) :
    (if signMask n ^^^ signMask d = 0#32 then quotient else -quotient) = truncated false n d := by
  rw [magnitude_toNat, magnitude_toNat] at isQuotient
  simp only [signMask_xor_eq_zero]
  change _ = BitVec.ofInt 32 (n.toInt.tdiv d.toInt)
  rw [tdiv_eq, ← isQuotient]
  split
  · rw [ofInt_toNat]
  · rw [BitVec.ofInt_neg, ofInt_toNat]

/-- The remainder of the absolute values, with its sign. -/
theorem signed_remainder {n d remainder : Word}
    (isRemainder : remainder.toNat = (magnitude n).toNat % (magnitude d).toNat) :
    (if signMask n = 0#32 then remainder else -remainder) = truncated true n d := by
  rw [magnitude_toNat, magnitude_toNat] at isRemainder
  simp only [signMask_eq_zero]
  change _ = BitVec.ofInt 32 (n.toInt.tmod d.toInt)
  rw [tmod_eq, ← isRemainder, ite_not]
  split
  · rw [BitVec.ofInt_neg, ofInt_toNat]
  · rw [ofInt_toNat]

end Shecc.Word
