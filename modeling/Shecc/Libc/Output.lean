import Shecc.Libc.Emission

/-!
# The output that C defines

A format is made of pieces: characters, and conversions of an argument. The file says what
C99 defines the output of each piece to be, and proves that `__format` writes it for the
conversions of integers.
-/

namespace Shecc.Libc

/-- A flag of a conversion. -/
inductive Flag
  | alternate
  | zero
  deriving DecidableEq

/-- The character of a flag. -/
def Flag.char : Flag → Char
  | .alternate => '#'
  | .zero => '0'

/-- The character of the conversion to a base. -/
def Base.conversion : Base → Char
  | .octal => 'o'
  | .decimal => 'd'
  | .hexadecimal => 'x'

def Base.radix : Base → Nat
  | .octal => 8
  | .decimal => 10
  | .hexadecimal => 16

/-! ## Integers -/

/-- The number whose digits are written. -/
def Base.magnitude (base : Base) (val : Int) : Nat :=
  if base = .decimal then val.natAbs else unsigned val

/-- The digits. The alternate form of an octal number starts with a zero. -/
def Base.digits (base : Base) (val : Int) (alternate : Bool) : List Char :=
  let digits := Nat.toDigits base.radix (base.magnitude val)
  if base = .octal ∧ alternate ∧ digits.head? ≠ some '0' then '0' :: digits else digits

/-- The sign, or the indication of the base in the alternate form of a hexadecimal number that
is not 0. -/
def Base.sign (base : Base) (val : Int) (alternate : Bool) : List Char :=
  if base = .decimal ∧ val < 0 then ['-']
  else if base = .hexadecimal ∧ alternate ∧ base.magnitude val ≠ 0 then ['0', 'x']
  else []

/-- An integer in a field of a width, filled up with blanks in front or with zeros behind the
sign. -/
def Base.field (base : Base) (val : Int) (width : Nat) (zero alternate : Bool) : List Char :=
  let sign := base.sign val alternate
  let digits := base.digits val alternate
  let missing := width - (sign.length + digits.length)
  if zero then sign ++ (List.replicate missing '0' ++ digits)
  else List.replicate missing ' ' ++ (sign ++ digits)

section Integer

variable {fmtbuf : Fmtbuf} {base : Base} {val : Int}

theorem Base.radix_gt (base : Base) : 1 < base.radix := by
  cases base <;> decide

theorem Base.radix_le (base : Base) : base.radix ≤ 16 := by
  cases base <;> decide

theorem exists_digit {radix : Nat} (isRadix : 1 < radix) {n : Nat} {ch : Char}
    (member : ch ∈ Nat.toDigits radix n) : ∃ d < radix, ch = d.digitChar := by
  induction n using Nat.strong_induction_on with
  | _ n inductionHypothesis =>
      rw [Nat.toDigits_eq_if isRadix] at member
      split_ifs at member with isLast
      · exact ⟨n, isLast, List.mem_singleton.mp member⟩
      · rcases List.mem_append.mp member with member | member
        · exact inductionHypothesis _ (Nat.div_lt_self (by omega) isRadix) member
        · exact ⟨n % radix, Nat.mod_lt _ (by omega), List.mem_singleton.mp member⟩

theorem digitChar_ne : ∀ d < 16, d.digitChar ≠ '\x00' ∧ d.digitChar ≠ '-' := by
  decide

/-- The digits of a value with its sign, as they stand in the buffer. -/
def Base.written (base : Base) (val : Int) : List Char :=
  (if base = .decimal ∧ val < 0 then ['-'] else []) ++
    Nat.toDigits base.radix (base.magnitude val)

theorem Base.noNul_written : '\x00' ∉ base.written val := by
  intro member
  rcases List.mem_append.mp member with member | member
  · split_ifs at member <;> simp at member
  · obtain ⟨d, isDigit, isNul⟩ := exists_digit base.radix_gt member
    exact (digitChar_ne d (isDigit.trans_le base.radix_le)).1 isNul.symm

/-- The buffer of `__format`. -/
theorem strBase_eq (small : -2147483648 ≤ val) (large : val ≤ intMax) :
    ∃ rest, strBase base val = List.replicate rest '0' ++ base.written val := by
  cases base with
  | octal => simpa [Base.written, Base.radix, Base.magnitude, strBase] using strBase8_eq val
  | decimal =>
      simpa [Base.written, Base.radix, Base.magnitude, strBase] using strBase10_eq small large
  | hexadecimal => simpa [Base.written, Base.radix, Base.magnitude, strBase] using strBase16_eq val

theorem strBaseLoop_length {radix : Int} {digit : Int → Char} (times c : Nat) (val : Int)
    (pb : List Char) : (strBaseLoop radix digit times pb c val).1.length = pb.length := by
  induction times generalizing pb c val with
  | zero => rfl
  | succ times inductionHypothesis =>
      rw [strBaseLoop, inductionHypothesis, List.length_set]

theorem strBase10Loop_length (fuel i : Nat) (val : Int) (pb : List Char) :
    (strBase10Loop fuel pb i val).1.length = pb.length := by
  induction fuel generalizing pb i val with
  | zero => rfl
  | succ fuel inductionHypothesis =>
      rw [strBase10Loop]
      split_ifs
      · rfl
      · rw [inductionHypothesis, List.length_modify]

theorem strBase_length : (strBase base val).length = intBufLen := by
  cases base with
  | octal =>
      rw [strBase, strBase8, List.length_set, strBaseLoop_length, List.length_replicate]
  | decimal =>
      rw [strBase, strBase10]
      split_ifs
      · rfl
      · rw [List.length_set, strBase10Loop_length, List.length_replicate]
      · rw [strBase10Loop_length, List.length_replicate]
  | hexadecimal =>
      rw [strBase, strBase16, strBaseLoop_length, List.length_replicate]

/-- The characters start with a zero only if it is the last. -/
theorem Base.written_cons (base : Base) (val : Int) :
    ∃ ch digits, base.written val = ch :: digits ∧ (ch = '0' → digits = []) := by
  rw [Base.written]
  split_ifs with isNegative
  · exact ⟨'-', _, rfl, by simp⟩
  · rw [List.nil_append]
    by_cases isZero : base.magnitude val = 0
    · exact ⟨'0', [], by rw [isZero, Nat.toDigits_zero], fun _ => rfl⟩
    · have notZero := toDigits_head base.radix_gt isZero
      cases isDigits : Nat.toDigits base.radix (base.magnitude val) with
      | nil => exact absurd isDigits Nat.toDigits_ne_nil
      | cons ch digits =>
          rw [isDigits, List.head?_cons] at notZero
          refine ⟨ch, digits, rfl, ?_⟩
          rintro rfl
          exact absurd rfl notZero

theorem skipZeros_eq {ch : Char} {digits : List Char} (isFirst : ch = '0' → digits = [])
    (rest : Nat) : skipZeros (List.replicate rest '0' ++ ch :: digits) = rest := by
  induction rest with
  | zero =>
      rw [List.replicate_zero, List.nil_append]
      by_cases isZero : ch = '0'
      · rw [isFirst isZero, isZero]
        rfl
      · unfold skipZeros
        split
        · rename_i isSame
          cases isSame
          exact absurd rfl isZero
        · rfl
  | succ rest inductionHypothesis =>
      rw [List.replicate_succ, List.cons_append]
      rcases rest with _ | rest
      · rw [List.replicate_zero, List.nil_append] at inductionHypothesis ⊢
        rw [skipZeros, inductionHypothesis]
      · rw [List.replicate_succ, List.cons_append] at inductionHypothesis ⊢
        rw [skipZeros, inductionHypothesis]

/-- The end of `__format`. -/
theorem padded_eq {pb : List Char} {pbi : Nat} {width : Int} {zeropad : Bool} {out : List Char}
    (isInt : fmtbuf.IsInt) (noNul : '\x00' ∉ out) (isLength : pbi + out.length = intBufLen)
    (isRest : pb.drop pbi = out) :
    padded fmtbuf pb pbi width zeropad =
      fmtbuf.emit (List.replicate (width - out.length).toNat (if zeropad then '0' else ' ') ++
        out) := by
  have isMissing : ((intBufLen : Int) - pbi) = out.length := by omega
  have isWidth : (if width - out.length < 0 then 0 else width - out.length).toNat =
      (width - out.length).toNat := by
    split_ifs <;> omega
  rw [padded, isRest, isMissing, Fmtbuf.emit_append, ← pad_eq]
  rw [isWidth, pad_eq, fmtbufWriteStr_eq (isInt.emit _) noNul]

theorem cons_replicate (ch : Char) (count : Nat) (out : List Char) :
    ch :: (List.replicate count ch ++ out) = List.replicate count ch ++ ch :: out := by
  rw [← List.cons_append, ← List.replicate_succ, List.replicate_succ', List.append_assoc]
  rfl

/-- What `__format` finds in its buffer. -/
theorem strBase_split (small : -2147483648 ≤ val) (large : val ≤ intMax) :
    ∃ pbi ch digits, base.written val = ch :: digits ∧
      strBase base val = List.replicate pbi '0' ++ ch :: digits ∧
      skipZeros (strBase base val) = pbi ∧ (strBase base val).getD pbi '0' = ch ∧
      pbi + (ch :: digits).length = intBufLen := by
  obtain ⟨pbi, isBuffer⟩ := @strBase_eq base val small large
  obtain ⟨ch, digits, isWritten, isFirst⟩ := base.written_cons val
  have isLength := @strBase_length base val
  rw [isWritten] at isBuffer
  rw [isBuffer] at isLength ⊢
  refine ⟨pbi, ch, digits, isWritten, rfl, skipZeros_eq isFirst pbi, ?_, ?_⟩
  · simp [List.getD_eq_getElem?_getD]
  · rw [List.length_append, List.length_replicate] at isLength
    exact isLength

section Field

variable {sign digits : List Char} {width : Nat} {zero alternate : Bool}

/-- Without a sign blanks and zeros are at the same place. -/
theorem Base.field_unsigned (isSign : base.sign val alternate = [])
    (isDigits : base.digits val alternate = digits) :
    base.field val width zero alternate =
      List.replicate ((width : Int) - digits.length).toNat (if zero then '0' else ' ') ++
        digits := by
  rw [Base.field, isSign, isDigits, Int.toNat_sub]
  cases zero <;> simp

/-- Without zeros the sign stands at the digits. -/
theorem Base.field_blank (isSign : base.sign val alternate = sign)
    (isDigits : base.digits val alternate = digits) (isBlank : ¬(width ≠ 0 ∧ zero)) :
    base.field val width zero alternate =
      List.replicate ((width : Int) - (sign ++ digits).length).toNat (if zero then '0' else ' ') ++
        (sign ++ digits) := by
  rw [Base.field, isSign, isDigits, Int.toNat_sub, List.length_append]
  cases zero
  · rfl
  · obtain rfl : width = 0 := by simpa using isBlank
    simp

/-- The zeros stand behind the sign. -/
theorem Base.field_zero (isSign : base.sign val alternate = sign)
    (isDigits : base.digits val alternate = digits) :
    base.field val width true alternate =
      sign ++ (List.replicate ((width : Int) - sign.length - digits.length).toNat '0' ++
        digits) := by
  have isMissing : ((width : Int) - sign.length - digits.length).toNat =
      width - (sign.length + digits.length) := by
    omega
  rw [Base.field, isSign, isDigits, isMissing]
  rfl

end Field

theorem unsigned_lt (val : Int) : unsigned val < 4294967296 := by
  rw [unsigned]
  omega

theorem length_toDigits_le (val : Int) {radix count : Nat} (isRadix : 1 < radix)
    (positive : 0 < count) (enough : 4294967296 ≤ radix ^ count) :
    (Nat.toDigits radix (unsigned val)).length ≤ count :=
  (Nat.length_toDigits_le_iff isRadix positive).mpr ((unsigned_lt val).trans_le enough)

theorem format_octal (isInt : fmtbuf.IsInt) (small : -2147483648 ≤ val) (large : val ≤ intMax)
    (width : Nat) (zero alternate : Bool) :
    format fmtbuf val width zero .octal alternate =
      fmtbuf.emit (Base.octal.field val width zero alternate) := by
  obtain ⟨pbi, ch, digits, isWritten, isBuffer, isSkipped, isFirst, isLength⟩ :=
    @strBase_split .octal val small large
  have noNul : '\x00' ∉ ch :: digits := isWritten ▸ Base.noNul_written
  have isOctal : Nat.toDigits Base.octal.radix (Base.octal.magnitude val) = ch :: digits := by
    rw [← isWritten, Base.written, if_neg (by simp), List.nil_append]
  have isShort : (ch :: digits).length ≤ 11 := by
    rw [← isOctal]
    exact length_toDigits_le val (by decide) (by decide) (by decide)
  rw [intBufLen] at isLength
  have isSign : Base.octal.sign val alternate = [] := by simp [Base.sign]
  have isRest : (strBase .octal val).drop pbi = ch :: digits := by
    rw [isBuffer]
    simp
  rw [format, isSkipped, isFirst]
  by_cases isAlternate : alternate ∧ ch ≠ '0'
  · have isDigits : Base.octal.digits val alternate = '0' :: ch :: digits := by
      rw [Base.digits, isOctal, if_pos (by simpa using isAlternate)]
    rw [Base.field_unsigned isSign isDigits]
    by_cases isZero : width ≠ 0 ∧ zero
    · have isMissing : (width : Int) - 1 - (ch :: digits).length =
          width - ('0' :: ch :: digits).length := by
        simp only [List.length_cons]
        omega
      rw [if_pos (by grind), padded_eq (fmtbufWriteChar_isInt _ _) noNul isLength isRest,
        ← Fmtbuf.emit_cons, isMissing, isZero.2, if_pos rfl, cons_replicate]
    · obtain ⟨pbi, rfl⟩ := Nat.exists_eq_succ_of_ne_zero (by omega : pbi ≠ 0)
      have isRest : ((strBase .octal val).set pbi '0').drop pbi = '0' :: ch :: digits := by
        rw [isBuffer, set_replicate_append]
        simp
      rw [if_neg (by grind), if_pos isAlternate, Nat.succ_sub_one]
      apply padded_eq isInt _ _ isRest
      · simpa using noNul
      · simp only [List.length_cons, intBufLen] at isLength ⊢
        omega
  · have isDigits : Base.octal.digits val alternate = ch :: digits := by
      rw [Base.digits, isOctal, if_neg (by simpa using isAlternate)]
    rw [Base.field_unsigned isSign isDigits, if_neg (by grind), if_neg (by grind),
      padded_eq isInt noNul isLength isRest]

theorem format_decimal (isInt : fmtbuf.IsInt) (small : -2147483648 ≤ val) (large : val ≤ intMax)
    (width : Nat) (zero alternate : Bool) :
    format fmtbuf val width zero .decimal alternate =
      fmtbuf.emit (Base.decimal.field val width zero alternate) := by
  obtain ⟨pbi, ch, digits, isWritten, isBuffer, isSkipped, isFirst, isLength⟩ :=
    @strBase_split .decimal val small large
  have noNul : '\x00' ∉ ch :: digits := isWritten ▸ Base.noNul_written
  have isRest : (strBase .decimal val).drop pbi = ch :: digits := by
    rw [isBuffer]
    simp
  have isDigits : Base.decimal.digits val alternate = Nat.toDigits 10 val.natAbs := by
    simp [Base.digits, Base.radix, Base.magnitude]
  rw [format, isSkipped, isFirst]
  rw [Base.written] at isWritten
  by_cases isNegative : val < 0
  · rw [if_pos ⟨rfl, isNegative⟩] at isWritten
    obtain ⟨rfl, isTail⟩ : '-' = ch ∧ Nat.toDigits 10 val.natAbs = digits := by
      simpa [Base.radix, Base.magnitude] using isWritten
    have isSign : Base.decimal.sign val alternate = ['-'] := by simp [Base.sign, isNegative]
    rw [isTail] at isDigits
    by_cases isZero : width ≠ 0 ∧ zero
    · have isMissing : ((width : Int) - 1 - digits.length) =
          width - (['-'] : List Char).length - digits.length :=
        rfl
      have isRest' : (strBase .decimal val).drop (pbi + 1) = digits := by
        rw [← List.drop_drop, isRest]
        rfl
      rw [if_pos (by simpa using isZero), isZero.2, Base.field_zero isSign isDigits,
        Fmtbuf.emit_append, ← isMissing]
      apply padded_eq (fmtbufWriteChar_isInt _ _) _ _ isRest'
      · exact fun member => noNul (List.mem_cons_of_mem _ member)
      · rw [List.length_cons] at isLength
        omega
    · rw [if_neg (by simpa using isZero), Base.field_blank isSign isDigits isZero]
      exact padded_eq isInt noNul isLength isRest
  · rw [if_neg (by simp [isNegative]), List.nil_append] at isWritten
    have isSign : Base.decimal.sign val alternate = [] := by simp [Base.sign, isNegative]
    have notSign : ch ≠ '-' := by
      rintro rfl
      obtain ⟨d, isDigit, isMinus⟩ :=
        exists_digit Base.decimal.radix_gt (isWritten ▸ List.mem_cons_self)
      exact (digitChar_ne d (isDigit.trans_le (by decide))).2 isMinus.symm
    have isDigits' : Base.decimal.digits val alternate = ch :: digits := by
      rw [isDigits, ← isWritten]
      rfl
    rw [if_neg (by simp [notSign]), Base.field_unsigned isSign isDigits',
      padded_eq isInt noNul isLength isRest]

theorem format_hexadecimal (isInt : fmtbuf.IsInt) (small : -2147483648 ≤ val)
    (large : val ≤ intMax) (width : Nat) (zero alternate : Bool) :
    format fmtbuf val width zero .hexadecimal alternate =
      fmtbuf.emit (Base.hexadecimal.field val width zero alternate) := by
  obtain ⟨pbi, ch, digits, isWritten, isBuffer, isSkipped, isFirst, isLength⟩ :=
    @strBase_split .hexadecimal val small large
  have noNul : '\x00' ∉ ch :: digits := isWritten ▸ Base.noNul_written
  have isHexadecimal : Nat.toDigits 16 (unsigned val) = ch :: digits := by
    rw [← isWritten, Base.written, if_neg (by simp), List.nil_append]
    rfl
  have isShort : (ch :: digits).length ≤ 8 := by
    rw [← isHexadecimal]
    exact length_toDigits_le val (by decide) (by decide) (by decide)
  rw [intBufLen] at isLength
  have isDigits : Base.hexadecimal.digits val alternate = ch :: digits := by
    rw [Base.digits, if_neg (by simp), ← isHexadecimal]
    rfl
  have isRest : (strBase .hexadecimal val).drop pbi = ch :: digits := by
    rw [isBuffer]
    simp
  have notZero_iff : ch ≠ '0' ↔ Base.hexadecimal.magnitude val ≠ 0 := by
    rw [show Base.hexadecimal.magnitude val = unsigned val from rfl]
    by_cases isZero : unsigned val = 0
    · rw [isZero, Nat.toDigits_zero] at isHexadecimal
      cases isHexadecimal
      simp [isZero]
    · have notFirst := toDigits_head (by decide : 1 < 16) isZero
      rw [isHexadecimal, List.head?_cons] at notFirst
      simpa [isZero] using notFirst
  rw [format, isSkipped, isFirst]
  by_cases isAlternate : alternate ∧ ch ≠ '0'
  · have isSign : Base.hexadecimal.sign val alternate = ['0', 'x'] := by
      rw [Base.sign, if_neg (by simp), if_pos ⟨rfl, isAlternate.1, notZero_iff.mp isAlternate.2⟩]
    by_cases isZero : width ≠ 0 ∧ zero
    · rw [if_pos (by grind), isZero.2, Base.field_zero isSign isDigits, Fmtbuf.emit_append]
      exact padded_eq (fmtbufWriteChar_isInt _ _) noNul isLength isRest
    · obtain ⟨pbi, rfl⟩ := Nat.exists_eq_succ_of_ne_zero (by omega : pbi ≠ 0)
      obtain ⟨pbi, rfl⟩ := Nat.exists_eq_succ_of_ne_zero (by omega : pbi ≠ 0)
      have isRest : (((strBase .hexadecimal val).set (pbi + 1) 'x').set pbi '0').drop pbi =
          '0' :: 'x' :: ch :: digits := by
        rw [isBuffer, set_replicate_append, set_replicate_append]
        simp
      rw [if_neg (by grind), if_pos isAlternate, Base.field_blank isSign isDigits isZero]
      apply padded_eq isInt _ _ isRest
      · simpa using noNul
      · simp only [List.length_cons, intBufLen] at isLength ⊢
        omega
  · have isSign : Base.hexadecimal.sign val alternate = [] := by
      rw [Base.sign, if_neg (by simp), if_neg (by grind)]
    rw [Base.field_unsigned isSign isDigits, if_neg (by grind), if_neg (by grind),
      padded_eq isInt noNul isLength isRest]

/-- `__format` writes the field of its value. -/
theorem format_eq (isInt : fmtbuf.IsInt) (small : -2147483648 ≤ val) (large : val ≤ intMax)
    (width : Nat) (zero alternate : Bool) :
    format fmtbuf val width zero base alternate =
      fmtbuf.emit (base.field val width zero alternate) := by
  cases base with
  | octal => exact format_octal isInt small large width zero alternate
  | decimal => exact format_decimal isInt small large width zero alternate
  | hexadecimal => exact format_hexadecimal isInt small large width zero alternate

end Integer

end Shecc.Libc
