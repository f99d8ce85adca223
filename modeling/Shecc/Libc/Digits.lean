import Mathlib.Algebra.Order.Ring.Int
import Mathlib.Tactic.Linarith
import Shecc.Libc.Format

/-!
# The digits of a value

Each of the three conversions fills the end of a buffer of zeros with the digits of the
value. Without the zeros in front of them, and for a negative decimal with its sign, these
are the digits of the number.
-/

namespace Shecc.Libc

section Buffer

theorem set_replicate_append (c : Nat) (old ch : Char) (digits : List Char) :
    (List.replicate (c + 1) old ++ digits).set c ch = List.replicate c old ++ ch :: digits := by
  rw [List.replicate_succ', List.append_assoc, List.set_append_right _ _ (by simp)]
  simp

theorem modify_replicate_append (c : Nat) (old : Char) (change : Char → Char)
    (digits : List Char) :
    (List.replicate (c + 1) old ++ digits).modify c change =
      List.replicate c old ++ change old :: digits := by
  induction c with
  | zero => rfl
  | succ c inductionHypothesis =>
      rw [List.replicate_succ, List.cons_append, List.modify_succ_cons, inductionHypothesis]
      rfl

end Buffer

/-! ## Octal and hexadecimal digits -/

section Fixed

variable {base : Int} {digit : Int → Char}

/-- The last digits of a value, so many of them. -/
def lastDigits (base : Int) (digit : Int → Char) : (count : Nat) → (val : Int) → List Char
  | 0, _ => []
  | count + 1, val => lastDigits base digit count (val / base) ++ [digit (val % base)]

/-- The loop fills the buffer from the right. -/
theorem strBaseLoop_eq (positive : 0 ≤ base) (times rest : Nat) (val : Int)
    (digits : List Char) :
    strBaseLoop base digit times (List.replicate (rest + times) '0' ++ digits)
        (rest + times - 1) val =
      (List.replicate rest '0' ++ (lastDigits base digit times val ++ digits),
        val / base ^ times) := by
  induction times generalizing val digits with
  | zero => simp [strBaseLoop, lastDigits]
  | succ times inductionHypothesis =>
      have moved := inductionHypothesis (val / base) (digit (val % base) :: digits)
      rw [strBaseLoop, ← Nat.add_assoc, Nat.add_sub_cancel, set_replicate_append, moved,
        lastDigits, List.append_assoc, List.singleton_append, Int.pow_succ',
        Int.ediv_ediv_of_nonneg positive]

/-- Only the value up to a power of the base matters. -/
theorem lastDigits_add (positive : 0 < base) (count : Nat) (val times : Int) :
    lastDigits base digit count (val + times * base ^ count) =
      lastDigits base digit count val := by
  induction count generalizing val with
  | zero => rfl
  | succ count inductionHypothesis =>
      rw [lastDigits, lastDigits, Int.pow_succ, ← Int.mul_assoc,
        Int.add_mul_ediv_right _ _ (by omega), inductionHypothesis, Int.add_mul_emod_self_right]

/-- One more digit in front. -/
theorem lastDigits_succ (positive : 0 < base) (count : Nat) (val : Int) :
    lastDigits base digit (count + 1) val =
      digit (val / base ^ count % base) :: lastDigits base digit count val := by
  induction count generalizing val with
  | zero => simp [lastDigits]
  | succ count inductionHypothesis =>
      rw [lastDigits, inductionHypothesis, lastDigits, Int.pow_succ',
        Int.ediv_ediv_of_nonneg positive.le]
      rfl

end Fixed

section Number

variable {radix : Nat} {digit : Int → Char}

theorem lastDigits_zero (isZero : digit 0 = '0') (base : Int) (count : Nat) :
    lastDigits base digit count 0 = List.replicate count '0' := by
  induction count with
  | zero => rfl
  | succ count inductionHypothesis =>
      rw [lastDigits, Int.zero_ediv, Int.zero_emod, inductionHypothesis, isZero,
        List.replicate_succ']

/-- The last digits of a number are its digits behind zeros. -/
theorem replicate_lastDigits (isRadix : 1 < radix) (isDigit : ∀ d < radix, digit d = d.digitChar)
    {count zeros n : Nat} (small : n < radix ^ count) (hasRoom : 0 < zeros + count) :
    ∃ rest, List.replicate zeros '0' ++ lastDigits radix digit count n =
      List.replicate rest '0' ++ Nat.toDigits radix n := by
  induction count generalizing n zeros with
  | zero =>
      obtain rfl : n = 0 := Nat.lt_one_iff.mp small
      obtain ⟨zeros, rfl⟩ := Nat.exists_eq_succ_of_ne_zero (by omega : zeros ≠ 0)
      exact ⟨zeros, by simp [lastDigits, List.replicate_succ']⟩
  | succ count inductionHypothesis =>
      have last : digit ((n : Int) % radix) = (n % radix).digitChar := by
        rw [← Int.natCast_emod]
        exact isDigit _ (Nat.mod_lt _ (by omega))
      rw [lastDigits, last, ← Int.natCast_ediv, ← List.append_assoc]
      by_cases isLast : n < radix
      · refine ⟨zeros + count, ?_⟩
        rw [Nat.div_eq_of_lt isLast, Int.natCast_zero,
          lastDigits_zero (isDigit 0 (by omega)), List.replicate_append_replicate,
          Nat.mod_eq_of_lt isLast, Nat.toDigits_of_lt_base isLast]
      · have quotient_small : n / radix < radix ^ count :=
          Nat.div_lt_of_lt_mul (by rwa [← Nat.pow_succ'])
        have quotient_pos : 0 < n / radix := Nat.div_pos (not_lt.mp isLast) (by omega)
        have more : 0 < count := by
          rcases count with _ | count
          · rw [pow_zero] at quotient_small
            omega
          · exact Nat.succ_pos _
        obtain ⟨rest, moved⟩ := inductionHypothesis quotient_small (by omega : 0 < zeros + count)
        refine ⟨rest, ?_⟩
        rw [moved, List.append_assoc, ← Nat.toDigits_of_base_le isRadix (not_lt.mp isLast)]

/-- The first digit of a number other than 0. -/
theorem toDigits_head (isRadix : 1 < radix) {n : Nat} (notZero : n ≠ 0) :
    (Nat.toDigits radix n).head? ≠ some '0' := by
  induction n using Nat.strong_induction_on with
  | _ n inductionHypothesis =>
      rw [Nat.toDigits_eq_if isRadix]
      split_ifs with isLast
      · simpa using notZero
      · have quotient_pos : 0 < n / radix := Nat.div_pos (not_lt.mp isLast) (by omega)
        rw [List.head?_append, Option.or_of_isSome (by simp)]
        exact inductionHypothesis _ (Nat.div_lt_self (by omega) isRadix) (by omega)

end Number

/-! ## The conversions -/

section Conversions

theorem digitOf_eq : ∀ d < 10, digitOf (d : Nat) = d.digitChar := by
  decide

theorem hexDigitOf_eq : ∀ d < 16, hexDigitOf (d : Nat) = d.digitChar := by
  decide

theorem unsigned_add (val : Int) : val = unsigned val + val / 4294967296 * 4294967296 := by
  rw [unsigned]
  omega

theorem strBase8_eq (val : Int) :
    ∃ rest, strBase8 (List.replicate intBufLen '0') val =
      List.replicate rest '0' ++ Nat.toDigits 8 (unsigned val) := by
  have loop := @strBaseLoop_eq 8 digitOf (by decide) 10 6 val []
  rw [List.append_nil, List.append_nil] at loop
  have top : digitOf (val / 8 ^ 10 % 4) = digitOf (unsigned val / 8 ^ 10 % 8) := by
    rw [unsigned]
    congr 1
    omega
  have low : lastDigits 8 digitOf 10 val = lastDigits 8 digitOf 10 (unsigned val) := by
    rw [← @lastDigits_add 8 digitOf (by decide) 10 (unsigned val) (val / 4294967296 * 4)]
    congr 1
    rw [unsigned]
    omega
  have isBuffer : strBase8 (List.replicate intBufLen '0') val =
      List.replicate 5 '0' ++ lastDigits 8 digitOf 11 (unsigned val) := by
    rw [lastDigits_succ (by decide), ← top, ← low, ← set_replicate_append 5 '0']
    exact congrArg (fun result => result.1.set 5 (digitOf (result.2 % 4))) loop
  rw [isBuffer]
  apply @replicate_lastDigits 8 digitOf (by decide) (fun d small => digitOf_eq d (by omega))
  · rw [unsigned]
    omega
  · decide

theorem strBase16_eq (val : Int) :
    ∃ rest, strBase16 (List.replicate intBufLen '0') val =
      List.replicate rest '0' ++ Nat.toDigits 16 (unsigned val) := by
  have loop := @strBaseLoop_eq 16 hexDigitOf (by decide) 8 8 val []
  rw [List.append_nil, List.append_nil] at loop
  have isBuffer := congrArg Prod.fst loop
  dsimp only at isBuffer
  have low := @lastDigits_add 16 hexDigitOf (by decide) 8 (unsigned val) (val / 4294967296)
  rw [show (16 : Int) ^ 8 = 4294967296 by rfl, ← unsigned_add] at low
  rw [low] at isBuffer
  have isSmall : unsigned val < 16 ^ 8 := by
    rw [unsigned]
    omega
  obtain ⟨rest, digits⟩ := @replicate_lastDigits 16 hexDigitOf (by decide) hexDigitOf_eq 8 8 _
    isSmall (by decide)
  exact ⟨rest, isBuffer.trans digits⟩

theorem ediv_bounds (x : Int) {divisor : Int} (positive : 0 < divisor) :
    divisor * (x / divisor) ≤ x ∧ x < divisor * (x / divisor) + divisor :=
  ⟨Int.mul_ediv_self_le (by omega), Int.lt_mul_ediv_self_add positive⟩

/-- The sum of shifts is a tenth of the value up to less than two. -/
theorem quotient_bounds {val : Int} (small : 0 ≤ val) (large : val ≤ intMax) :
    0 ≤ val - 10 * quotient val ∧ val - 10 * quotient val < 20 := by
  rw [intMax] at large
  rw [quotient]
  have half := ediv_bounds val (by decide : 0 < (2 : Int))
  have quarter := ediv_bounds val (by decide : 0 < (4 : Int))
  generalize val / 2 = q₁ at *
  generalize val / 4 = q₂ at *
  have shift4 := ediv_bounds (q₁ + q₂) (by decide : 0 < (16 : Int))
  generalize (q₁ + q₂) / 16 = q₃ at *
  have shift8 := ediv_bounds (q₁ + q₂ + q₃) (by decide : 0 < (256 : Int))
  generalize (q₁ + q₂ + q₃) / 256 = q₄ at *
  have shift16 := ediv_bounds (q₁ + q₂ + q₃ + q₄) (by decide : 0 < (65536 : Int))
  generalize (q₁ + q₂ + q₃ + q₄) / 65536 = q₅ at *
  have shift3 := ediv_bounds (q₁ + q₂ + q₃ + q₄ + q₅) (by decide : 0 < (8 : Int))
  generalize (q₁ + q₂ + q₃ + q₄ + q₅) / 8 = q₆ at *
  constructor <;> linarith

/-- The quotient and the remainder that `__str_base10` computes without a division. -/
theorem quotient_eq {val : Int} (small : 0 ≤ val) (large : val ≤ intMax) :
    quotient val + (val - (quotient val * 4 + quotient val) * 2 + 6) / 16 = val / 10 ∧
      val - (quotient val * 4 + quotient val) * 2 -
        ((val - (quotient val * 4 + quotient val) * 2 + 6) / 16 * 4 +
          (val - (quotient val * 4 + quotient val) * 2 + 6) / 16) * 2 = val % 10 := by
  have bounds := quotient_bounds small large
  omega

/-- The loop of `__str_base10` writes all digits of a number that is not 0. -/
theorem strBase10Loop_eq {count fuel i n : Nat} {digits : List Char} (positive : 0 < n)
    (small : n < 10 ^ count) (isInt : (n : Int) ≤ intMax) (enough : count ≤ fuel)
    (hasRoom : count ≤ i) :
    ∃ i', strBase10Loop fuel (List.replicate (i + 1) '0' ++ digits) i n =
      (List.replicate (i' + 1) '0' ++ (Nat.toDigits 10 n ++ digits), i') := by
  induction count generalizing fuel i n digits with
  | zero =>
      rw [pow_zero] at small
      omega
  | succ count inductionHypothesis =>
      obtain ⟨fuel, rfl⟩ := Nat.exists_eq_succ_of_ne_zero (by omega : fuel ≠ 0)
      obtain ⟨i, rfl⟩ := Nat.exists_eq_succ_of_ne_zero (by omega : i ≠ 0)
      have notZero : (n : Int) ≠ 0 := by omega
      have isQuotient := quotient_eq (by omega : 0 ≤ (n : Int)) isInt
      have isDigit : Char.ofNat ('0'.toNat + ((n : Int) % 10).toNat) = (n % 10).digitChar := by
        rw [← digitOf_eq (n % 10) (Nat.mod_lt _ (by decide))]
        rfl
      rw [strBase10Loop, if_neg notZero]
      dsimp only
      rw [isQuotient.1, isQuotient.2, modify_replicate_append, isDigit, Nat.succ_sub_one]
      by_cases isLast : n < 10
      · have isDone : (n : Int) / 10 = 0 := by omega
        refine ⟨i, ?_⟩
        rw [isDone, Nat.toDigits_of_lt_base isLast, Nat.mod_eq_of_lt isLast]
        cases fuel <;> rfl
      · have quotient_small : n / 10 < 10 ^ count :=
          Nat.div_lt_of_lt_mul (by rwa [← Nat.pow_succ'])
        obtain ⟨i', moved⟩ := @inductionHypothesis fuel i (n / 10) ((n % 10).digitChar :: digits)
          (by omega) quotient_small (by omega) (by omega) (by omega)
        refine ⟨i', ?_⟩
        rw [← Nat.succ_eq_add_one, Int.natCast_ediv] at moved
        rw [Nat.toDigits_of_base_le (by decide) (not_lt.mp isLast), List.append_assoc]
        exact moved

theorem strBase10_eq {val : Int} (small : -2147483648 ≤ val) (large : val ≤ intMax) :
    ∃ rest, strBase10 (List.replicate intBufLen '0') val =
      List.replicate rest '0' ++
        ((if val < 0 then ['-'] else []) ++ Nat.toDigits 10 val.natAbs) := by
  by_cases isMin : val = -2147483648
  · subst isMin
    exact ⟨5, by decide⟩
  · have isNatInt : (val.natAbs : Int) ≤ intMax := by
      rw [intMax] at large ⊢
      omega
    have isSmall : val.natAbs < 10 ^ 10 := by
      rw [intMax] at isNatInt
      omega
    rw [strBase10, if_neg isMin]
    by_cases isNegative : val < 0
    · obtain ⟨i, isLoop⟩ := @strBase10Loop_eq 10 16 15 val.natAbs [] (by omega) isSmall isNatInt
        (by decide) (by decide)
      have isNat : (val.natAbs : Int) = -val := by omega
      rw [isNat, List.append_nil, List.append_nil] at isLoop
      have isSet := congrArg (fun result => result.1.set result.2 '-') isLoop
      refine ⟨i, ?_⟩
      rw [if_pos isNegative, if_pos isNegative]
      exact isSet.trans (set_replicate_append _ _ _ _)
    · rw [if_neg isNegative, if_neg isNegative, List.nil_append]
      by_cases isZero : val = 0
      · subst isZero
        exact ⟨15, by decide⟩
      · obtain ⟨i, isLoop⟩ := @strBase10Loop_eq 10 16 15 val.natAbs [] (by omega) isSmall isNatInt
          (by decide) (by decide)
        have isNat : (val.natAbs : Int) = val := by omega
        rw [isNat, List.append_nil, List.append_nil] at isLoop
        exact ⟨i + 1, congrArg Prod.fst isLoop⟩

end Conversions

end Shecc.Libc
