import Mathlib

/-!
# Thirty-two bit words

Words are the values a register, a constant or a memory cell holds. This file
collects the facts about positive powers of two that strength reductions rest
on: which words pass the usual bit test, what the shift-counting loops return,
and where an arithmetic shift or a mask agrees with signed division and
remainder.
-/

namespace Shecc

/-- A 32-bit machine word; signed operations read it in two's complement. -/
abbrev Word := BitVec 32

namespace Word

/-- The bit test `value > 0 && (value & (value - 1)) == 0`. -/
def isPowerOfTwo (value : Word) : Bool :=
  (0#32).slt value && (value &&& (value - 1#32)) == 0#32

/-- The loop `while ((temp & 1) == 0) { temp >>= 1; shift++; }`, cut off after
`fuel` rounds. -/
def countTrailingZeros : Nat → Word → Nat → Nat
  | 0, _, shift => shift
  | fuel + 1, temp, shift =>
      if temp &&& 1#32 = 0#32 then
        countTrailingZeros fuel (temp.sshiftRight 1) (shift + 1)
      else
        shift

/-- The loop `while (tmp > 1) { tmp >>= 1; shift++; }`, cut off after `fuel`
rounds. -/
def countHalvings : Nat → Word → Nat → Nat
  | 0, _, shift => shift
  | fuel + 1, tmp, shift =>
      if (1#32).slt tmp then
        countHalvings fuel (tmp.sshiftRight 1) (shift + 1)
      else
        shift

/-- The word `2 ^ n`. -/
def pow2 (n : Nat) : Word := BitVec.ofNat 32 (2 ^ n)

/-! ## Powers of two below the sign bit -/

theorem two_pow_lt {n : Nat} (small : n < 31) : 2 ^ n < 2 ^ 31 :=
  Nat.pow_lt_pow_right (by omega) small

theorem pow2_toNat {n : Nat} (small : n < 31) : (pow2 n).toNat = 2 ^ n := by
  have bound := two_pow_lt small
  rw [pow2, BitVec.toNat_ofNat, Nat.mod_eq_of_lt (by omega)]

theorem pow2_toInt {n : Nat} (small : n < 31) : (pow2 n).toInt = 2 ^ n := by
  have bound := two_pow_lt small
  rw [BitVec.toInt_eq_toNat_of_lt (by rw [pow2_toNat small]; omega), pow2_toNat small]
  push_cast
  rfl

theorem pow2_ne_zero {n : Nat} (small : n < 31) : pow2 n ≠ 0#32 := by
  intro equal
  have natEqual := congrArg BitVec.toNat equal
  rw [pow2_toNat small] at natEqual
  exact absurd natEqual (Nat.pos_iff_ne_zero.mp (Nat.two_pow_pos n))

theorem pow2_ne_neg_one {n : Nat} (small : n < 31) : pow2 n ≠ -1#32 := by
  intro equal
  have bound := two_pow_lt small
  have natEqual := congrArg BitVec.toNat equal
  rw [pow2_toNat small] at natEqual
  have allOnes : (-1#32 : Word).toNat = 2 ^ 32 - 1 := by decide
  omega

theorem pow2_injective {m n : Nat} (smallM : m < 31) (smallN : n < 31)
    (equal : pow2 m = pow2 n) : m = n := by
  have natEqual := congrArg BitVec.toNat equal
  rw [pow2_toNat smallM, pow2_toNat smallN] at natEqual
  exact Nat.pow_right_injective (le_refl 2) natEqual

/-- The bit test accepts exactly the powers of two below the sign bit. -/
theorem isPowerOfTwo_iff (value : Word) :
    isPowerOfTwo value = true ↔ ∃ n < 31, value = pow2 n := by
  have positive : (0#32).slt value = true ↔ value.toNat ≠ 0 ∧ value.toNat < 2 ^ 31 := by
    rw [BitVec.slt_iff_toInt_lt, BitVec.toInt_zero, BitVec.toInt_eq_toNat_cond]
    have := value.isLt
    split <;> omega
  constructor
  · intro accepted
    rw [isPowerOfTwo, Bool.and_eq_true, positive, beq_iff_eq] at accepted
    obtain ⟨⟨nonzero, small⟩, masked⟩ := accepted
    have natMasked : value.toNat &&& (value.toNat - 1) = 0 := by
      have predecessor : (value - 1#32).toNat = value.toNat - 1 := by
        have := value.isLt
        rw [BitVec.toNat_sub]
        simp only [BitVec.toNat_ofNat]
        omega
      rw [← predecessor, ← BitVec.toNat_and, masked]
      rfl
    obtain ⟨n, power⟩ := (Nat.and_sub_one_eq_zero_iff_isPowerOfTwo nonzero).mp natMasked
    have smallExponent : n < 31 := by
      by_contra large
      have := Nat.pow_le_pow_right (n := 2) (by omega) (not_lt.mp large)
      omega
    refine ⟨n, smallExponent, ?_⟩
    apply BitVec.eq_of_toNat_eq
    rw [pow2_toNat smallExponent, power]
  · rintro ⟨n, small, rfl⟩
    have bound := two_pow_lt small
    have natMasked : (2 ^ n) &&& (2 ^ n - 1) = 0 :=
      (Nat.and_sub_one_eq_zero_iff_isPowerOfTwo (by positivity)).mpr ⟨n, rfl⟩
    have predecessor : (pow2 n - 1#32).toNat = 2 ^ n - 1 := by
      have := Nat.two_pow_pos n
      rw [BitVec.toNat_sub, pow2_toNat small]
      simp only [BitVec.toNat_ofNat]
      omega
    rw [isPowerOfTwo, Bool.and_eq_true, positive, beq_iff_eq]
    refine ⟨⟨by rw [pow2_toNat small]; positivity, by rw [pow2_toNat small]; omega⟩, ?_⟩
    apply BitVec.eq_of_toNat_eq
    rw [BitVec.toNat_and, predecessor, pow2_toNat small, natMasked]
    rfl

theorem pow2_halve {n : Nat} (small : n + 1 < 31) :
    (pow2 (n + 1)).sshiftRight 1 = pow2 n := by
  apply BitVec.eq_of_toInt_eq
  rw [BitVec.toInt_sshiftRight, pow2_toInt small, pow2_toInt (by omega),
    Int.shiftRight_eq_div_pow, pow_succ]
  simp

theorem pow2_low_bit {n : Nat} (small : n < 31) :
    pow2 n &&& 1#32 = 0#32 ↔ n ≠ 0 := by
  have lowBit : (pow2 n &&& 1#32).toNat = 2 ^ n % 2 := by
    rw [BitVec.toNat_and, pow2_toNat small]
    exact Nat.and_one_is_mod _
  constructor
  · rintro masked rfl
    exact absurd masked (by decide)
  · intro nonzero
    apply BitVec.eq_of_toNat_eq
    obtain ⟨m, rfl⟩ := Nat.exists_eq_succ_of_ne_zero nonzero
    rw [lowBit, pow_succ]
    simp

/-- On a power of two the trailing-zero loop adds the exponent. -/
theorem countTrailingZeros_pow2 {n fuel : Nat} (small : n < 31) (enough : n < fuel)
    (shift : Nat) : countTrailingZeros fuel (pow2 n) shift = shift + n := by
  induction n generalizing fuel shift with
  | zero =>
      obtain ⟨fuel, rfl⟩ := Nat.exists_eq_succ_of_ne_zero (show fuel ≠ 0 by omega)
      rw [countTrailingZeros, if_neg (by decide), Nat.add_zero]
  | succ n inductionHypothesis =>
      obtain ⟨fuel, rfl⟩ := Nat.exists_eq_succ_of_ne_zero (show fuel ≠ 0 by omega)
      rw [countTrailingZeros, if_pos ((pow2_low_bit small).mpr (Nat.succ_ne_zero n)),
        pow2_halve small, inductionHypothesis (by omega) (by omega)]
      omega

/-- On a power of two the halving loop adds the exponent. -/
theorem countHalvings_pow2 {n fuel : Nat} (small : n < 31) (enough : n < fuel)
    (shift : Nat) : countHalvings fuel (pow2 n) shift = shift + n := by
  induction n generalizing fuel shift with
  | zero =>
      obtain ⟨fuel, rfl⟩ := Nat.exists_eq_succ_of_ne_zero (show fuel ≠ 0 by omega)
      rw [countHalvings, if_neg (by decide), Nat.add_zero]
  | succ n inductionHypothesis =>
      obtain ⟨fuel, rfl⟩ := Nat.exists_eq_succ_of_ne_zero (show fuel ≠ 0 by omega)
      have above : (1#32).slt (pow2 (n + 1)) = true := by
        have one : (1#32 : Word).toInt = 1 := by decide
        have positive : (1 : Int) ≤ 2 ^ n := by exact_mod_cast Nat.two_pow_pos n
        rw [BitVec.slt_iff_toInt_lt, pow2_toInt small, pow_succ, one]
        omega
      rw [countHalvings, if_pos above, pow2_halve small,
        inductionHypothesis (by omega) (by omega)]
      omega

/-! ## Shifts and masks against multiplication, division and remainder -/

theorem mul_pow2 (x : Word) (n : Nat) : x * pow2 n = x <<< n := by
  apply BitVec.eq_of_toNat_eq
  rw [BitVec.toNat_mul, BitVec.toNat_shiftLeft, Nat.shiftLeft_eq, pow2, BitVec.toNat_ofNat,
    Nat.mul_mod_mod]

/-- Truncating division by `2 ^ n` is the arithmetic shift exactly on the
non-negative and the exactly divisible dividends. -/
theorem sdiv_pow2_eq_sshiftRight_iff (x : Word) {n : Nat} (small : n < 31) :
    x.sshiftRight n = x.sdiv (pow2 n) ↔ 0 ≤ x.toInt ∨ (2 ^ n : Int) ∣ x.toInt := by
  rw [← BitVec.toInt_inj, BitVec.toInt_sshiftRight,
    BitVec.toInt_sdiv_of_ne_or_ne _ _ (Or.inr (pow2_ne_neg_one small)), pow2_toInt small,
    Int.shiftRight_eq_div_pow, Int.tdiv_eq_ediv]
  have signOne : Int.sign (2 ^ n) = 1 := Int.sign_eq_one_of_pos (by positivity)
  rw [signOne]
  push_cast
  split <;> simp_all

theorem toInt_and_mask (x : Word) {n : Nat} (small : n < 31) :
    (x &&& (pow2 n - 1#32)).toInt = x.toInt % 2 ^ n := by
  have bound := two_pow_lt small
  have positive := Nat.two_pow_pos n
  have maskNat : (pow2 n - 1#32).toNat = 2 ^ n - 1 := by
    rw [BitVec.toNat_sub, pow2_toNat small]
    simp only [BitVec.toNat_ofNat]
    omega
  have andNat : (x &&& (pow2 n - 1#32)).toNat = x.toNat % 2 ^ n := by
    rw [BitVec.toNat_and, maskNat, Nat.and_two_pow_sub_one_eq_mod]
  have residue : x.toNat % 2 ^ n < 2 ^ n := Nat.mod_lt _ positive
  have belowSign : 2 * (x &&& (pow2 n - 1#32)).toNat < 2 ^ 32 := by
    rw [andNat]
    omega
  have divides : (2 ^ n : Int) ∣ 2 ^ 32 := pow_dvd_pow 2 (by omega)
  have wrapped : x.toInt % 2 ^ n = (x.toNat : Int) % 2 ^ n := by
    rw [BitVec.toInt_eq_toNat_cond]
    split
    · rfl
    · have multiple : (((2 ^ 32 : Nat) : Int)) % 2 ^ n = 0 :=
        Int.emod_eq_zero_of_dvd (by exact_mod_cast divides)
      rw [Int.sub_emod, multiple, Int.sub_zero, Int.emod_emod_of_dvd _ (dvd_refl _)]
  rw [BitVec.toInt_eq_toNat_of_lt belowSign, andNat, wrapped]
  push_cast
  rfl

/-- The C remainder by `2 ^ n` is the mask exactly on the non-negative and the
exactly divisible dividends. -/
theorem srem_pow2_eq_and_iff (x : Word) {n : Nat} (small : n < 31) :
    x &&& (pow2 n - 1#32) = x.srem (pow2 n) ↔ 0 ≤ x.toInt ∨ (2 ^ n : Int) ∣ x.toInt := by
  rw [← BitVec.toInt_inj, toInt_and_mask x small, BitVec.toInt_srem, pow2_toInt small,
    Int.tmod_eq_emod]
  have positive : (0 : Int) < 2 ^ n := by positivity
  split
  · simp_all
  · rename_i excluded
    simp only [excluded, iff_false]
    have : ((2 : Int) ^ n).natAbs ≠ 0 := by
      simp
    omega

end Word

end Shecc
