import Shecc.Libc.Output

/-!
# Where the conversions store

`__str_base10`, `__str_base8` and `__str_base16` once more, in the arithmetic of an `int`
and with a buffer that has an end: a store outside of it fails, as do a digit the code aborts
on and a loop that does not come to its end. None of this happens, and the buffer is the one
the unbounded conversions leave.
-/

namespace Shecc.Libc

/-- `pb[i] = ch`. -/
def store (pb : List Char) (i : Int) (ch : Char) : Option (List Char) :=
  if 0 ≤ i ∧ i < pb.length then some (pb.set i.toNat ch) else none

/-- `pb[i] += r`. -/
def storeAdd (pb : List Char) (i r : Int) : Option (List Char) :=
  if 0 ≤ i ∧ i < pb.length then
    some (pb.modify i.toNat fun ch => Char.ofNat (ch.toNat + r.toNat))
  else none

/-- A copy of a string to the buffer from `pb + i` on. -/
def storeString : (pb : List Char) → (i : Int) → (str : List Char) → Option (List Char)
  | pb, _, [] => some pb
  | pb, i, ch :: str => do
      let pb ← store pb i ch
      storeString pb (i + 1) str

/-- The shifts and additions of `__str_base10` in front of the correction. -/
def quotientInt (val : Int) : Int :=
  let q := wrap (val / 2 + val / 4)
  let q := wrap (q + q / 16)
  let q := wrap (q + q / 256)
  let q := wrap (q + q / 65536)
  q / 8

/-- A round of `__str_base10`: the quotient and the remainder, corrected. -/
def roundInt (val : Int) : Int × Int :=
  let q := quotientInt val
  let r := wrap (val - wrap (wrap (wrap (q * 4) + q) * 2))
  let t := wrap (r + 6) / 16
  (wrap (q + t), wrap (r - wrap (wrap (wrap (t * 4) + t) * 2)))

/-- The loop of `__str_base10`. -/
def storeBase10Loop : (fuel : Nat) → (pb : List Char) → (i val : Int) →
    Option (List Char × Int)
  | 0, pb, i, val => if val = 0 then some (pb, i) else none
  | fuel + 1, pb, i, val =>
      if val = 0 then some (pb, i)
      else do
        let pb ← storeAdd pb i (roundInt val).2
        storeBase10Loop fuel pb (i - 1) (roundInt val).1

/-- `__str_base10`. -/
def storeBase10 (pb : List Char) (val : Int) : Option (List Char) :=
  if val = -2147483648 then
    storeString pb (intBufLen - 11) ['-', '2', '1', '4', '7', '4', '8', '3', '6', '4', '8']
  else if val < 0 then do
    let result ← storeBase10Loop intBufLen pb (intBufLen - 1) (wrap (-val))
    store result.1 result.2 '-'
  else do
    let result ← storeBase10Loop intBufLen pb (intBufLen - 1) val
    return result.1

/-- The loops of `__str_base8` and `__str_base16`. -/
def storeBaseLoop (base : Int) (digit : Int → Option Char) :
    (times : Nat) → (pb : List Char) → (c val : Int) → Option (List Char × Int × Int)
  | 0, pb, c, val => some (pb, c, val)
  | times + 1, pb, c, val => do
      let ch ← digit (val % base)
      let pb ← store pb c ch
      storeBaseLoop base digit times pb (c - 1) (val / base)

/-- `__str_base8`. -/
def storeBase8 (pb : List Char) (val : Int) : Option (List Char) := do
  let result ← storeBaseLoop 8 (fun v => some (digitOf v)) (32 / 3) pb (intBufLen - 1) val
  store result.1 result.2.1 (digitOf (result.2.2 % 4))

/-- `__str_base16`, which aborts for a digit that is none. -/
def storeBase16 (pb : List Char) (val : Int) : Option (List Char) := do
  let result ← storeBaseLoop 16 (fun v => if v < 16 then some (hexDigitOf v) else none) 8 pb
    (intBufLen - 1) val
  return result.1

/-- The conversion to a base. -/
def storeBase (base : Base) (pb : List Char) (val : Int) : Option (List Char) :=
  match base with
  | .octal => storeBase8 pb val
  | .decimal => storeBase10 pb val
  | .hexadecimal => storeBase16 pb val

section Inside

variable {pb : List Char} {val : Int} {i : Nat}

theorem store_eq (inside : i < pb.length) (ch : Char) : store pb i ch = some (pb.set i ch) := by
  rw [store, if_pos ⟨Int.natCast_nonneg i, Int.ofNat_lt.mpr inside⟩, Int.toNat_natCast]

theorem storeAdd_eq (inside : i < pb.length) (r : Int) :
    storeAdd pb i r = some (pb.modify i fun ch => Char.ofNat (ch.toNat + r.toNat)) := by
  rw [storeAdd, if_pos ⟨Int.natCast_nonneg i, Int.ofNat_lt.mpr inside⟩, Int.toNat_natCast]

theorem storeString_eq {str : List Char} (inside : i + str.length ≤ pb.length) :
    storeString pb i str = some (pb.take i ++ (str ++ pb.drop (i + str.length))) := by
  induction str generalizing pb i with
  | nil => simp [storeString]
  | cons ch str inductionHypothesis =>
      rw [List.length_cons] at inside
      have inside' : (i + 1) + str.length ≤ (pb.set i ch).length := by
        rw [List.length_set]
        omega
      have moved := inductionHypothesis inside'
      have first : (pb.set i ch).take (i + 1) = pb.take i ++ [ch] := by
        rw [List.take_set, List.take_succ_eq_append_getElem (by omega : i < pb.length),
          List.set_append_right _ _ (by simp)]
        simp [Nat.min_eq_left (by omega : i ≤ pb.length)]
      have rest : (pb.set i ch).drop (i + 1 + str.length) = pb.drop (i + (ch :: str).length) := by
        rw [List.drop_set_of_lt (by omega), List.length_cons, Nat.add_assoc, Nat.add_comm 1]
      rw [storeString, store_eq (by omega), Option.bind_eq_bind, Option.bind_some]
      rw [first, rest, List.append_assoc] at moved
      exact moved

/-- No step towards the quotient overflows. -/
theorem quotientInt_eq (small : 0 ≤ val) (large : val ≤ intMax) :
    quotientInt val = quotient val := by
  have isWrap {x : Int} (low : 0 ≤ x) (high : x ≤ 2147483647) : wrap x = x :=
    wrap_eq (by omega) high
  rw [intMax] at large
  simp only [quotientInt, quotient]
  rw [isWrap (x := val / 2 + val / 4) (by omega) (by omega)]
  have low : 0 ≤ val / 2 + val / 4 := by omega
  have high : val / 2 + val / 4 ≤ 1610612735 := by omega
  generalize val / 2 + val / 4 = q₁ at low high ⊢
  rw [isWrap (x := q₁ + q₁ / 16) (by omega) (by omega)]
  have low : 0 ≤ q₁ + q₁ / 16 := by omega
  have high : q₁ + q₁ / 16 ≤ 1711276031 := by omega
  generalize q₁ + q₁ / 16 = q₂ at low high ⊢
  rw [isWrap (x := q₂ + q₂ / 256) (by omega) (by omega)]
  have low : 0 ≤ q₂ + q₂ / 256 := by omega
  have high : q₂ + q₂ / 256 ≤ 1717960703 := by omega
  generalize q₂ + q₂ / 256 = q₃ at low high ⊢
  rw [isWrap (x := q₃ + q₃ / 65536) (by omega) (by omega)]

/-- A round divides by ten, and no step of it overflows. -/
theorem roundInt_eq (small : 0 ≤ val) (large : val ≤ intMax) :
    roundInt val = (val / 10, val % 10) := by
  have bounds := quotient_bounds small large
  have divides := quotient_eq small large
  rw [roundInt, quotientInt_eq small large]
  rw [intMax] at large
  generalize quotient val = q at bounds divides ⊢
  have isWrap {x : Int} (low : -2147483648 ≤ x) (high : x ≤ 2147483647) : wrap x = x :=
    wrap_eq low high
  rw [isWrap (x := q * 4) (by omega) (by omega), isWrap (x := q * 4 + q) (by omega) (by omega),
    isWrap (x := (q * 4 + q) * 2) (by omega) (by omega),
    isWrap (x := val - (q * 4 + q) * 2) (by omega) (by omega)]
  have low : 0 ≤ val - (q * 4 + q) * 2 := by omega
  have high : val - (q * 4 + q) * 2 < 20 := by omega
  generalize val - (q * 4 + q) * 2 = r at low high divides ⊢
  rw [isWrap (x := r + 6) (by omega) (by omega)]
  have low' : 0 ≤ (r + 6) / 16 := by omega
  have high' : (r + 6) / 16 ≤ 1 := by omega
  generalize (r + 6) / 16 = t at low' high' divides ⊢
  rw [isWrap (x := t * 4) (by omega) (by omega), isWrap (x := t * 4 + t) (by omega) (by omega),
    isWrap (x := (t * 4 + t) * 2) (by omega) (by omega), isWrap (x := q + t) (by omega) (by omega),
    isWrap (x := r - (t * 4 + t) * 2) (by omega) (by omega), divides.1, divides.2]

/-- The loop stays in the buffer while there is room for the digits. -/
theorem storeBase10Loop_eq {count fuel n : Nat} (small : n < 10 ^ count)
    (isInt : (n : Int) ≤ intMax) (enough : count ≤ fuel) (hasRoom : count ≤ i)
    (inside : i < pb.length) :
    storeBase10Loop fuel pb i n =
        some ((strBase10Loop fuel pb i n).1, ((strBase10Loop fuel pb i n).2 : Int)) ∧
      (strBase10Loop fuel pb i n).2 ≤ i := by
  induction count generalizing fuel i n pb with
  | zero =>
      obtain rfl : n = 0 := by simpa using small
      cases fuel <;> simp [storeBase10Loop, strBase10Loop]
  | succ count inductionHypothesis =>
      obtain ⟨fuel, rfl⟩ := Nat.exists_eq_succ_of_ne_zero (by omega : fuel ≠ 0)
      obtain ⟨i, rfl⟩ := Nat.exists_eq_succ_of_ne_zero (by omega : i ≠ 0)
      by_cases isZero : n = 0
      · subst isZero
        simp [storeBase10Loop, strBase10Loop]
      · have notZero : (n : Int) ≠ 0 := by omega
        have quotient_small : n / 10 < 10 ^ count :=
          Nat.div_lt_of_lt_mul (by rwa [← Nat.pow_succ'])
        have isQuotient := quotient_eq (by omega : 0 ≤ (n : Int)) isInt
        let pb' := pb.modify (i + 1) fun ch => Char.ofNat (ch.toNat + ((n : Int) % 10).toNat)
        have inside' : i < pb'.length := by
          rw [List.length_modify]
          omega
        have moved := @inductionHypothesis pb' i fuel (n / 10) quotient_small (by omega) (by omega)
          (by omega) inside'
        rw [Int.natCast_ediv] at moved
        rw [storeBase10Loop, strBase10Loop, if_neg notZero, if_neg notZero,
          roundInt_eq (by omega) isInt, storeAdd_eq inside]
        dsimp only
        rw [isQuotient.1, isQuotient.2, Nat.succ_sub_one]
        refine ⟨?_, moved.2.trans (Nat.le_succ i)⟩
        have back : ((i.succ : Nat) : Int) - 1 = i := by omega
        simpa [back] using moved.1

/-- The loops of the other two stay in the buffer while there is room. -/
theorem storeBaseLoop_eq {base : Int} {digit : Int → Option Char} {digit' : Int → Char}
    (positive : 0 < base) (isDigit : ∀ v, 0 ≤ v → v < base → digit v = some (digit' v))
    {times c : Nat} (hasRoom : times ≤ c) (inside : c < pb.length) :
    storeBaseLoop base digit times pb c val =
      some ((strBaseLoop base digit' times pb c val).1, ((c - times : Nat) : Int),
        (strBaseLoop base digit' times pb c val).2) := by
  induction times generalizing pb c val with
  | zero => simp [storeBaseLoop, strBaseLoop]
  | succ times inductionHypothesis =>
      obtain ⟨c, rfl⟩ := Nat.exists_eq_succ_of_ne_zero (by omega : c ≠ 0)
      have stored := isDigit (val % base) (Int.emod_nonneg _ (by omega))
        (Int.emod_lt_of_pos _ positive)
      have inside' : c < (pb.set (c + 1) (digit' (val % base))).length := by
        rw [List.length_set]
        omega
      have moved := @inductionHypothesis _ (val / base) c (by omega) inside'
      have back : ((c.succ : Nat) : Int) - 1 = c := by omega
      simp only [storeBaseLoop, stored, Option.bind_eq_bind, Option.bind_some, store_eq inside,
        back]
      rw [moved, strBaseLoop, Nat.succ_sub_one]
      simp

theorem storeBase8_eq (isBuffer : pb.length = intBufLen) :
    storeBase8 pb val = some (strBase8 pb val) := by
  have loop := @storeBaseLoop_eq pb val 8 (fun v => some (digitOf v)) digitOf (by decide)
    (fun _ _ _ => rfl) 10 15 (by decide) (by rw [isBuffer]; decide)
  have lengths := @strBaseLoop_length 8 digitOf 10 15 val pb
  have stored : store (strBaseLoop 8 digitOf 10 pb 15 val).1 ((15 - 10 : Nat) : Int)
      (digitOf ((strBaseLoop 8 digitOf 10 pb 15 val).2 % 4)) = some (strBase8 pb val) :=
    store_eq (by rw [lengths, isBuffer]; decide) _
  rw [storeBase8]
  exact (congrArg (Option.bind · _) loop).trans stored

theorem storeBase16_eq (isBuffer : pb.length = intBufLen) :
    storeBase16 pb val = some (strBase16 pb val) := by
  have loop := @storeBaseLoop_eq pb val 16 (fun v => if v < 16 then some (hexDigitOf v) else none)
    hexDigitOf (by decide) (fun v _ small => if_pos small) 8 15 (by decide)
    (by rw [isBuffer]; decide)
  rw [storeBase16]
  exact congrArg (Option.bind · _) loop

theorem storeBase10_eq (isBuffer : pb.length = intBufLen) (small : -2147483648 ≤ val)
    (large : val ≤ intMax) : storeBase10 pb val = some (strBase10 pb val) := by
  rw [storeBase10, strBase10]
  rw [intMax] at large
  have loop {n : Nat} (isInt : (n : Int) ≤ 2147483647) :=
    @storeBase10Loop_eq pb 15 10 16 n (by omega) (by rw [intMax]; exact isInt) (by decide)
      (by decide) (by rw [isBuffer]; decide)
  split_ifs with isMin isNegative
  · have stored := @storeString_eq pb 5
      ['-', '2', '1', '4', '7', '4', '8', '3', '6', '4', '8'] (by rw [isBuffer]; decide)
    rw [List.drop_of_length_le (by rw [isBuffer]; decide), List.append_nil] at stored
    exact stored
  · obtain ⟨ran, inside⟩ := @loop val.natAbs (by omega)
    have isNat : (val.natAbs : Int) = -val := by omega
    have isWrap : wrap (-val) = -val := wrap_eq (by omega) (by rw [intMax]; omega)
    rw [isNat] at ran inside
    rw [isWrap]
    have lengths := strBase10Loop_length 16 15 (-val) pb
    have stored := @store_eq (strBase10Loop 16 pb 15 (-val)).1 (strBase10Loop 16 pb 15 (-val)).2
      (by rw [lengths, isBuffer, intBufLen]; omega) '-'
    exact (congrArg (Option.bind · _) ran).trans stored
  · obtain ⟨ran, -⟩ := @loop val.natAbs (by omega)
    have isNat : (val.natAbs : Int) = val := by omega
    rw [isNat] at ran
    exact congrArg (Option.bind · _) ran

/-- The conversions stay in the buffer and compute what the unbounded ones do. -/
theorem storeBase_eq (base : Base) (small : -2147483648 ≤ val) (large : val ≤ intMax) :
    storeBase base (List.replicate intBufLen '0') val = some (strBase base val) := by
  have isBuffer := List.length_replicate (n := intBufLen) (a := '0')
  cases base with
  | octal => exact storeBase8_eq isBuffer
  | decimal => exact storeBase10_eq isBuffer small large
  | hexadecimal => exact storeBase16_eq isBuffer

end Inside

/-- Every conversion stays in its buffer and leaves there, behind zeros, the digits of the
value, for a negative decimal with the sign before them; `__format` writes them without the
zeros, or in a field of the width asked for. -/
theorem storeBase_digits (base : Base) (val : BitVec 32) {fmtbuf : Fmtbuf}
    (isInt : fmtbuf.IsInt) :
    (∃ pb rest, storeBase base (List.replicate intBufLen '0') val.toInt = some pb ∧
      pb.length = intBufLen ∧ pb = List.replicate rest '0' ++ base.written val.toInt) ∧
      format fmtbuf val.toInt 0 false base false = fmtbuf.emit (base.written val.toInt) ∧
        ∀ (width : Nat) (zero alternate : Bool),
          format fmtbuf val.toInt width zero base alternate =
            fmtbuf.emit (base.field val.toInt width zero alternate) := by
  have small : -2147483648 ≤ val.toInt := by
    have := BitVec.le_toInt val
    omega
  have large : val.toInt ≤ intMax := by
    have := BitVec.toInt_lt (x := val)
    rw [intMax]
    omega
  obtain ⟨rest, split⟩ := @strBase_eq base val.toInt small large
  have writes := @format_eq fmtbuf base val.toInt isInt small large
  have field : base.field val.toInt 0 false false = base.written val.toInt := by
    cases base <;> simp [Base.field, Base.written, Base.sign, Base.digits]
  refine ⟨⟨strBase base val.toInt, rest, storeBase_eq base small large, strBase_length, split⟩,
    ?_, writes⟩
  rw [← field]
  exact writes 0 false false

/-- The smallest `int`, written to a buffer of twelve characters. -/
theorem storeBase_intMin :
    (∃ pb rest, storeBase .decimal (List.replicate intBufLen '0') (BitVec.intMin 32).toInt =
      some pb ∧ pb.length = intBufLen ∧
        pb = List.replicate rest '0' ++ Base.decimal.written (BitVec.intMin 32).toInt) ∧
      format ⟨fun _ => none, 0, 12, 0⟩ (BitVec.intMin 32).toInt 0 false .decimal false =
        Fmtbuf.emit ⟨fun _ => none, 0, 12, 0⟩
          (Base.decimal.written (BitVec.intMin 32).toInt) ∧
        ∀ (width : Nat) (zero alternate : Bool),
          format ⟨fun _ => none, 0, 12, 0⟩ (BitVec.intMin 32).toInt width zero .decimal alternate =
            Fmtbuf.emit ⟨fun _ => none, 0, 12, 0⟩
              (Base.decimal.field (BitVec.intMin 32).toInt width zero alternate) :=
  storeBase_digits .decimal (BitVec.intMin 32) rfl

end Shecc.Libc
