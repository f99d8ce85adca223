import Shecc.Libc.Snprintf

/-!
# `printf` within its strings

The scan of a format by its index, on the memory that the format stands in. A conversion
that the terminator cuts off takes the scan past it, and `printf` gives its buffer of 200
bytes the size `INT_MAX`.
-/

namespace Shecc.Libc

open Function (update)

/-! ## The call -/

/-- A string in memory without its terminator. An `int` counts its characters. -/
structure CString where
  chars : List Char
  noNul : '\x00' ∉ chars
  isShort : (chars.length : Int) ≤ intMax

/-- What a call finds in memory: the format, the bytes behind its terminator, the words at
`var_args` and the string at an address. -/
structure Call where
  format : CString
  behind : Nat → Char
  varArgs : Nat → BitVec 32
  string : BitVec 32 → CString

/-- `format[si]`. -/
def Call.char (call : Call) (si : Nat) : Char :=
  (call.format.chars ++ ['\x00'])[si]?.getD (call.behind si)

/-- The variables of `__format_to_buf`, and the indices at which it read the format. -/
structure Scan where
  si : Nat
  pi : Nat
  fmtbuf : Fmtbuf
  reads : List Nat

/-- A byte of the format is read. -/
def Scan.read (scan : Scan) : Scan := { scan with reads := scan.si :: scan.reads }

/-- `si++`. -/
def Scan.next (scan : Scan) : Scan := { scan with si := scan.si + 1 }

/-! ## `__format` -/

/-- The end of `__format`. The width wraps. -/
def paddedWrapping (fmtbuf : Fmtbuf) (pb : List Char) (pbi : Nat) (width : Int)
    (zeropad : Bool) : Fmtbuf :=
  let width := wrap (width - (intBufLen - pbi))
  let width := if width < 0 then 0 else width
  let fmtbuf := pad (if zeropad then '0' else ' ') width.toNat fmtbuf
  fmtbufWriteStr fmtbuf (pb.drop pbi) (intBufLen - pbi)

/-- `__format` for every `int` as the width. -/
def formatWrapping (fmtbuf : Fmtbuf) (val width : Int) (zeropad : Bool) (base : Base)
    (alternateForm : Bool) : Fmtbuf :=
  let pb := strBase base val
  let pbi := skipZeros pb
  let first := pb.getD pbi '0'
  match base with
  | .octal =>
      if alternateForm ∧ width ≠ 0 ∧ zeropad ∧ first ≠ '0' then
        paddedWrapping (fmtbufWriteChar fmtbuf '0') pb pbi (wrap (width - 1)) zeropad
      else if alternateForm ∧ first ≠ '0' then
        paddedWrapping fmtbuf (pb.set (pbi - 1) '0') (pbi - 1) width zeropad
      else paddedWrapping fmtbuf pb pbi width zeropad
  | .decimal =>
      if width ≠ 0 ∧ zeropad ∧ first = '-' then
        paddedWrapping (fmtbufWriteChar fmtbuf '-') pb (pbi + 1) (wrap (width - 1)) zeropad
      else paddedWrapping fmtbuf pb pbi width zeropad
  | .hexadecimal =>
      if alternateForm ∧ width ≠ 0 ∧ zeropad ∧ first ≠ '0' then
        paddedWrapping (fmtbufWriteChar (fmtbufWriteChar fmtbuf '0') 'x') pb pbi
          (wrap (width - 2)) zeropad
      else if alternateForm ∧ first ≠ '0' then
        paddedWrapping fmtbuf ((pb.set (pbi - 1) 'x').set (pbi - 2) '0') (pbi - 2) width zeropad
      else paddedWrapping fmtbuf pb pbi width zeropad

/-! ## `__format_to_buf` -/

section Scan

variable (call : Call)

/-- The test for a flag, and the state behind it. -/
def Call.flag (flag : Char) (scan : Scan) : Bool × Scan :=
  let scan := scan.read
  if call.char scan.si = flag then (true, scan.next) else (false, scan)

/-- The loop over the digits of a width, cut off after `fuel` rounds. -/
def Call.digits : (fuel : Nat) → (w : Int) → Scan → Option (Int × Scan)
  | 0, _, _ => none
  | fuel + 1, w, scan =>
      let scan := scan.read
      let ch := call.char scan.si
      if '0' ≤ ch ∧ ch ≤ '9' then
        Call.digits fuel (wrap (w * 10 + (ch.toNat - 48))) scan.next
      else some (w, scan)

/-- The width of a conversion. -/
def Call.width (fuel : Nat) (scan : Scan) : Option (Int × Scan) :=
  let scan := scan.read
  let ch := call.char scan.si
  if '1' ≤ ch ∧ ch ≤ '9' then call.digits fuel (ch.toNat - 48) scan.next
  else some (0, scan)

/-- The cases of the `switch` other than `%`. -/
def Call.convert (fmtbuf : Fmtbuf) (ch : Char) (pp zp : Bool) (w : Int) (v : BitVec 32) :
    Fmtbuf :=
  match ch with
  | 's' => fmtbufWriteStr fmtbuf (call.string v).chars (call.string v).chars.length
  | 'c' => fmtbufWriteChar fmtbuf (charOf v.toInt)
  | 'o' => formatWrapping fmtbuf v.toInt w zp .octal pp
  | 'd' => formatWrapping fmtbuf v.toInt w zp .decimal false
  | 'x' => formatWrapping fmtbuf v.toInt w zp .hexadecimal pp
  | _ => fmtbuf

/-- The end of the round of a `%`, from the `switch` on. -/
def Call.finish (pp zp : Bool) (w : Int) (v : BitVec 32) (scan : Scan) : Scan :=
  let scan := scan.read
  let ch := call.char scan.si
  if ch = '%' then { scan with fmtbuf := fmtbufWriteChar scan.fmtbuf '%' }.next
  else
    let fmtbuf := call.convert scan.fmtbuf ch pp zp w v
    { scan with fmtbuf := fmtbuf, pi := scan.pi + 1 }.next

/-- The round of the loop for a `%`. -/
def Call.conversion (fuel : Nat) (scan : Scan) : Option Scan := do
  let v := call.varArgs scan.pi
  let alternate := call.flag '#' scan.next
  let zero := call.flag '0' alternate.2
  let width ← call.width fuel zero.2
  return call.finish alternate.1 zero.1 width.1 v width.2

/-- The loop of `__format_to_buf`, cut off after `fuel` rounds. -/
def Call.loop : (fuel : Nat) → Scan → Option Scan
  | 0, _ => none
  | fuel + 1, scan =>
      let scan := scan.read
      let ch := call.char scan.si
      if ch = '\x00' then some scan
      else if ch ≠ '%' then
        Call.loop fuel { scan with fmtbuf := fmtbufWriteChar scan.fmtbuf ch }.next
      else do
        let scan ← call.conversion fuel scan
        Call.loop fuel scan

/-- `__format_to_buf`. -/
def Call.formatToBuf (fuel : Nat) (fmtbuf : Fmtbuf) : Option Scan := do
  let scan ← call.loop fuel ⟨0, 0, fmtbuf, []⟩
  if scan.fmtbuf.n ≠ 0 then
    let mem := update scan.fmtbuf.mem scan.fmtbuf.buf (some '\x00')
    return { scan with fmtbuf := { scan.fmtbuf with mem := mem } }
  else return scan

/-- What `printf` does before it writes the output: its buffer is given the size `INT_MAX`. -/
def Call.printf (fuel : Nat) : Option Fmtbuf := do
  let scan ← call.formatToBuf fuel ⟨fun _ => none, 0, intMax, 0⟩
  return scan.fmtbuf

/-- The bytes of `buffer` in `printf`. -/
def printfBuffer : Nat := 200

/-- For every buffer the scan of the format comes to an end and reads nothing behind its
terminator, and `printf` writes only to its own buffer. -/
def Call.StaysWithin : Prop :=
  (∀ fmtbuf, ∃ fuel scan, call.formatToBuf fuel fmtbuf = some scan ∧
    ∀ si ∈ scan.reads, si ≤ call.format.chars.length) ∧
  ∃ fuel fmtbuf, call.printf fuel = some fmtbuf ∧
    ∀ i, printfBuffer ≤ i → fmtbuf.mem i = none

end Scan

/-! ## The parts of a format -/

/-- What stands behind a `%`: the flags, the width and the format from the letter on. -/
structure Directive where
  alternate : Bool
  zero : Bool
  width : Int
  rest : List Char

/-- The directive at the start of a text. -/
def readDirective (text : List Char) : Directive :=
  let alternate := readFlag '#' text
  let zero := readFlag '0' alternate.2
  let width := readWidth zero.2
  ⟨alternate.1, zero.1, width.1, width.2⟩

/-- A part of a format. -/
inductive Part
  | text (ch : Char)
  | percent
  | conversion (directive : Directive) (letter : Char)

/-- The part of a directive with its letter. -/
def Directive.part (directive : Directive) (letter : Char) : Part :=
  if letter = '%' then .percent else .conversion directive letter

/-- The format is made of the parts: behind each `%`, its flags and its width stands a
letter. -/
inductive MadeOf : List Char → List Part → Prop
  | nil : MadeOf [] []
  | text {ch : Char} {text : List Char} {parts : List Part} (isPlain : ch ≠ '%')
      (rest : MadeOf text parts) : MadeOf (ch :: text) (.text ch :: parts)
  | directive {text rest : List Char} {letter : Char} {parts : List Part}
      (isRead : (readDirective text).rest = letter :: rest) (isRest : MadeOf rest parts) :
      MadeOf ('%' :: text) ((readDirective text).part letter :: parts)

/-- The characters of a number without its padding. -/
def Base.fieldLength (base : Base) (val : Int) (alternate : Bool) : Nat :=
  (base.sign val alternate).length + (base.digits val alternate).length

/-- A number in a field of a width. What is missing to the width is computed in an `int`. -/
def Base.fieldWrapping (base : Base) (val width : Int) (zero alternate : Bool) : List Char :=
  let length := base.fieldLength val alternate
  base.field val (wrap (width - length) + length).toNat zero alternate

/-- What a part prints with its argument. -/
def Part.output (call : Call) (v : BitVec 32) : Part → List Char
  | .text ch => [ch]
  | .percent => ['%']
  | .conversion directive letter =>
      match letter with
      | 's' => (call.string v).chars
      | 'c' => [charOf v.toInt]
      | 'o' => Base.octal.fieldWrapping v.toInt directive.width directive.zero directive.alternate
      | 'd' => Base.decimal.fieldWrapping v.toInt directive.width directive.zero false
      | 'x' =>
          Base.hexadecimal.fieldWrapping v.toInt directive.width directive.zero
            directive.alternate
      | _ => []

/-- How many arguments a part takes. -/
def Part.takes : Part → Nat
  | .conversion _ _ => 1
  | _ => 0

/-- What the parts print with the arguments from an index on. -/
def outputFrom (call : Call) : (pi : Nat) → List Part → List Char
  | _, [] => []
  | pi, part :: parts =>
      part.output call (call.varArgs pi) ++ outputFrom call (pi + part.takes) parts

/-! ## Numbers -/

section Number

variable {fmtbuf : Fmtbuf} {base : Base} {val width width' : Int} {zero alternate : Bool}

/-- The padding depends on what is missing to the width. -/
theorem paddedWrapping_eq {pb : List Char} {pbi : Nat}
    (same : (width' - (intBufLen - pbi)).toNat = (wrap (width - (intBufLen - pbi))).toNat) :
    paddedWrapping fmtbuf pb pbi width zero = padded fmtbuf pb pbi width' zero := by
  have clamp (x : Int) : (if x < 0 then 0 else x).toNat = x.toNat := by
    split_ifs <;> omega
  rw [paddedWrapping, padded, clamp, clamp, same]

theorem magnitude_ne_zero {ch : Char} {digits : List Char}
    (isWritten : Base.hexadecimal.written val = ch :: digits) :
    Base.hexadecimal.magnitude val ≠ 0 ↔ ch ≠ '0' := by
  have isDigits : Nat.toDigits 16 (Base.hexadecimal.magnitude val) = ch :: digits := by
    rw [← isWritten, Base.written, if_neg (by simp), List.nil_append]
    rfl
  by_cases isZero : Base.hexadecimal.magnitude val = 0
  · rw [isZero, Nat.toDigits_zero] at isDigits
    cases isDigits
    simp [isZero]
  · have notFirst := toDigits_head (by decide : 1 < 16) isZero
    rw [isDigits, List.head?_cons] at notFirst
    simpa [isZero] using notFirst

/-- The characters that the alternate form adds to a number. -/
def Base.added : Base → Nat
  | .octal => 1
  | .decimal => 0
  | .hexadecimal => 2

/-- The characters of a number are those in the buffer, and those of its alternate form. -/
theorem Base.fieldLength_eq {ch : Char} {digits : List Char}
    (isWritten : base.written val = ch :: digits) :
    base.fieldLength val alternate = digits.length + 1 +
      (if alternate ∧ ch ≠ '0' then base.added else 0) := by
  cases base with
  | octal =>
      have isDigits : Nat.toDigits Base.octal.radix (Base.octal.magnitude val) = ch :: digits := by
        rw [← isWritten, Base.written, if_neg (by simp), List.nil_append]
      rw [Base.fieldLength, Base.digits, Base.sign, isDigits]
      by_cases isAlternate : alternate ∧ ch ≠ '0' <;> simp [isAlternate, Base.added]
  | decimal =>
      have isLength := congrArg List.length isWritten
      rw [Base.written] at isLength
      by_cases isNegative : val < 0
      · simp [isNegative] at isLength
        simp [Base.fieldLength, Base.digits, Base.sign, Base.added, isNegative]
        omega
      · simp [isNegative] at isLength
        simp [Base.fieldLength, Base.digits, Base.sign, Base.added, isNegative]
        omega
  | hexadecimal =>
      have notZero := magnitude_ne_zero isWritten
      have isDigits :
          Nat.toDigits Base.hexadecimal.radix (Base.hexadecimal.magnitude val) = ch :: digits := by
        rw [← isWritten, Base.written, if_neg (by simp), List.nil_append]
      rw [Base.fieldLength, Base.digits, Base.sign, isDigits]
      by_cases isAlternate : alternate ∧ ch ≠ '0'
      · simp [isAlternate, notZero.mpr isAlternate.2, Base.added]
        omega
      · have noSign : ¬(alternate = true ∧ Base.hexadecimal.magnitude val ≠ 0) :=
          fun both => isAlternate ⟨both.1, notZero.mp both.2⟩
        simp [isAlternate, noSign]

/-- There is room in the buffer for what the alternate form adds. -/
theorem Base.length_written_le (notDecimal : base ≠ .decimal) :
    (base.written val).length + base.added ≤ intBufLen := by
  cases base with
  | octal =>
      have isShort := length_toDigits_le val (by decide : 1 < 8) (by decide : 0 < 11) (by decide)
      rw [Base.written, if_neg (by simp), List.nil_append]
      exact (Nat.add_le_add_right isShort 1).trans (by decide)
  | decimal => exact absurd rfl notDecimal
  | hexadecimal =>
      have isShort := length_toDigits_le val (by decide : 1 < 16) (by decide : 0 < 8) (by decide)
      rw [Base.written, if_neg (by simp), List.nil_append]
      exact (Nat.add_le_add_right isShort 2).trans (by decide)

/-- Another width that is 0 in the same cases and misses as many characters. -/
theorem formatWrapping_eq (small : -2147483648 ≤ val) (large : val ≤ intMax)
    (isZero : width' = 0 ↔ width = 0)
    (same : (width' - base.fieldLength val alternate).toNat =
      (wrap (width - base.fieldLength val alternate)).toNat) :
    formatWrapping fmtbuf val width zero base alternate =
      format fmtbuf val width' zero base alternate := by
  obtain ⟨pbi, ch, digits, isWritten, isBuffer, isSkipped, isFirst, isLength⟩ :=
    @strBase_split base val small large
  have hasRoom := @Base.length_written_le base val
  rw [Base.fieldLength_eq isWritten] at same
  rw [isWritten] at hasRoom
  simp only [List.length_cons, intBufLen] at isLength hasRoom
  simp only [wrap] at same
  cases base with
  | octal =>
      have hasRoom := hasRoom (by decide)
      rw [Base.added] at hasRoom same
      rw [formatWrapping, format, isSkipped, isFirst]
      simp only [ne_eq, isZero]
      split_ifs with isPadded isAlternate
      · apply paddedWrapping_eq
        rw [if_pos (by grind)] at same
        simp only [wrap, intBufLen]
        omega
      · apply paddedWrapping_eq
        rw [if_pos (by grind)] at same
        simp only [wrap, intBufLen]
        omega
      · apply paddedWrapping_eq
        rw [if_neg (by grind)] at same
        simp only [wrap, intBufLen]
        omega
  | decimal =>
      rw [Base.added, ite_self] at same
      rw [formatWrapping, format, isSkipped, isFirst]
      simp only [ne_eq, isZero]
      split_ifs with isPadded
      · apply paddedWrapping_eq
        simp only [wrap, intBufLen]
        omega
      · apply paddedWrapping_eq
        simp only [wrap, intBufLen]
        omega
  | hexadecimal =>
      have hasRoom := hasRoom (by decide)
      rw [Base.added] at hasRoom same
      rw [formatWrapping, format, isSkipped, isFirst]
      simp only [ne_eq, isZero]
      split_ifs with isPadded isAlternate
      · apply paddedWrapping_eq
        rw [if_pos (by grind)] at same
        simp only [wrap, intBufLen]
        omega
      · apply paddedWrapping_eq
        rw [if_pos (by grind)] at same
        simp only [wrap, intBufLen]
        omega
      · apply paddedWrapping_eq
        rw [if_neg (by grind)] at same
        simp only [wrap, intBufLen]
        omega

theorem Base.fieldLength_pos : 0 < base.fieldLength val alternate := by
  obtain ⟨ch, digits, isWritten, -⟩ := base.written_cons val
  rw [Base.fieldLength_eq isWritten]
  omega

theorem Base.fieldLength_le (small : -2147483648 ≤ val) (large : val ≤ intMax) :
    base.fieldLength val alternate ≤ intBufLen + 2 := by
  obtain ⟨pbi, ch, digits, isWritten, -, -, -, isLength⟩ := @strBase_split base val small large
  have isAdded : base.added ≤ 2 := by cases base <;> decide
  rw [List.length_cons] at isLength
  rw [Base.fieldLength_eq isWritten]
  split_ifs <;> omega

/-- A field depends on what is missing to its width. -/
theorem Base.field_congr {count count' : Nat}
    (same : count - base.fieldLength val alternate = count' - base.fieldLength val alternate) :
    base.field val count zero alternate = base.field val count' zero alternate := by
  rw [Base.fieldLength] at same
  rw [Base.field, Base.field, same]

/-- `__format` writes the field of its value. -/
theorem formatWrapping_field (isInt : fmtbuf.IsInt) (small : -2147483648 ≤ val)
    (large : val ≤ intMax) :
    formatWrapping fmtbuf val width zero base alternate =
      fmtbuf.emit (base.fieldWrapping val width zero alternate) := by
  have positive := @Base.fieldLength_pos base val alternate
  have bounded := @Base.fieldLength_le base val alternate small large
  rw [intBufLen] at bounded
  rw [Base.fieldWrapping]
  generalize isMissing : wrap (width - base.fieldLength val alternate) = missing
  -- The width counts as well by whether it is 0, so that a field of it stays one of a width.
  let count := if width = 0 then 0 else
    max 1 (missing + base.fieldLength val alternate).toNat
  have isZero : (count : Int) = 0 ↔ width = 0 := by
    dsimp only [count]
    split_ifs <;> omega
  have notMissing : width = 0 → missing.toNat = 0 := by
    rw [← isMissing]
    simp only [wrap]
    omega
  have same : ((count : Int) - base.fieldLength val alternate).toNat = missing.toNat := by
    dsimp only [count]
    split_ifs with isNone
    · rw [notMissing isNone]
      omega
    · omega
  rw [formatWrapping_eq small large isZero (isMissing ▸ same),
    format_eq isInt small large, Base.field_congr]
  omega

end Number

/-! ## The scan -/

section Scanning

variable {call : Call} {scan scan' : Scan} {text : List Char}

/-- The scan stands at a text of the format. -/
def Scan.At (scan : Scan) (call : Call) (text : List Char) : Prop :=
  scan.si ≤ call.format.chars.length ∧ call.format.chars.drop scan.si = text

/-- The index of the scan went on to a text, and every byte read in between is in the
format. -/
structure Scan.Reaches (scan : Scan) (call : Call) (text : List Char) (scan' : Scan) : Prop where
  at_text : scan'.At call text
  pi_eq : scan'.pi = scan.pi
  fmtbuf_eq : scan'.fmtbuf = scan.fmtbuf
  keeps : ∀ si ∈ scan.reads, si ∈ scan'.reads
  reads : ∀ si ∈ scan'.reads, si ∈ scan.reads ∨ si ≤ call.format.chars.length

theorem Scan.Reaches.trans {text' : List Char} {scan'' : Scan}
    (first : scan.Reaches call text scan') (second : scan'.Reaches call text' scan'') :
    scan.Reaches call text' scan'' where
  at_text := second.at_text
  pi_eq := second.pi_eq.trans first.pi_eq
  fmtbuf_eq := second.fmtbuf_eq.trans first.fmtbuf_eq
  keeps := fun si member => second.keeps si (first.keeps si member)
  reads := fun si member => (second.reads si member).elim (first.reads si) Or.inr

theorem Scan.At.char_cons {ch : Char} (atText : scan.At call (ch :: text)) :
    call.char scan.si = ch := by
  have isNext := congrArg List.head? atText.2
  rw [List.head?_drop, List.head?_cons] at isNext
  have inside := List.getElem?_eq_some_iff.mp isNext
  rw [Call.char, List.getElem?_append_left inside.1, isNext, Option.getD_some]

theorem Scan.At.char_nil (atText : scan.At call []) :
    scan.si = call.format.chars.length ∧ call.char scan.si = '\x00' := by
  have isEnd : scan.si = call.format.chars.length :=
    le_antisymm atText.1 (List.drop_eq_nil_iff.mp atText.2)
  rw [Call.char, isEnd, List.getElem?_concat_length, Option.getD_some]
  exact ⟨rfl, rfl⟩

theorem Scan.At.ne_nul {ch : Char} (atText : scan.At call (ch :: text)) : ch ≠ '\x00' := by
  have member : ch ∈ call.format.chars.drop scan.si := atText.2 ▸ List.mem_cons_self
  rintro rfl
  exact call.format.noNul (List.mem_of_mem_drop member)

theorem Scan.At.next {ch : Char} (atText : scan.At call (ch :: text)) :
    scan.next.At call text := by
  have inside := congrArg List.length atText.2
  rw [List.length_drop, List.length_cons] at inside
  constructor
  · change scan.si + 1 ≤ _
    omega
  · change call.format.chars.drop (scan.si + 1) = text
    rw [← List.drop_drop, atText.2]
    rfl

theorem Scan.At.read (atText : scan.At call text) : scan.read.At call text := atText

theorem Scan.At.reaches_read (atText : scan.At call text) :
    scan.Reaches call text scan.read where
  at_text := atText
  pi_eq := rfl
  fmtbuf_eq := rfl
  keeps := fun _ => List.mem_cons_of_mem _
  reads := by
    intro si member
    rcases List.mem_cons.mp member with rfl | member
    · exact Or.inr atText.1
    · exact Or.inl member

theorem Scan.At.reaches_next {ch : Char} (atText : scan.At call (ch :: text)) :
    scan.Reaches call text scan.read.next :=
  { atText.reaches_read with at_text := Scan.At.next atText }

/-- A flag is read as in the text. -/
theorem Call.flag_reaches {flag : Char} (notNul : flag ≠ '\x00') (atText : scan.At call text) :
    (call.flag flag scan).1 = (readFlag flag text).1 ∧
      scan.Reaches call (readFlag flag text).2 (call.flag flag scan).2 := by
  cases text with
  | nil =>
      rw [Call.flag, readFlag]
      rw [atText.read.char_nil.2, if_neg notNul.symm]
      exact ⟨rfl, atText.reaches_read⟩
  | cons ch text =>
      rw [Call.flag, readFlag]
      rw [atText.read.char_cons]
      split_ifs
      · exact ⟨rfl, atText.reaches_next⟩
      · exact ⟨rfl, atText.reaches_read⟩

/-- The digits of a width are read as in the text. -/
theorem Call.digits_reaches {fuel : Nat} {w : Int} {result : Int × Scan}
    (atText : scan.At call text) (isDone : call.digits fuel w scan = some result) :
    result.1 = (readDigits w text).1 ∧
      scan.Reaches call (readDigits w text).2 result.2 := by
  induction fuel generalizing w scan text with
  | zero => cases isDone
  | succ fuel inductionHypothesis =>
      rw [Call.digits] at isDone
      cases text with
      | nil =>
          rw [atText.read.char_nil.2, if_neg (by decide)] at isDone
          cases isDone
          exact ⟨rfl, atText.reaches_read⟩
      | cons ch text =>
          rw [atText.read.char_cons] at isDone
          rw [readDigits]
          split_ifs at isDone ⊢ with isDigit
          · have further := inductionHypothesis atText.reaches_next.at_text isDone
            exact ⟨further.1, atText.reaches_next.trans further.2⟩
          · cases isDone
            exact ⟨rfl, atText.reaches_read⟩

theorem Call.digits_isSome {fuel : Nat} (w : Int) (atText : scan.At call text)
    (enough : text.length < fuel) : (call.digits fuel w scan).isSome := by
  induction fuel generalizing w scan text with
  | zero => omega
  | succ fuel inductionHypothesis =>
      rw [Call.digits]
      cases text with
      | nil =>
          rw [atText.read.char_nil.2, if_neg (by decide)]
          rfl
      | cons ch text =>
          rw [atText.read.char_cons]
          split_ifs
          · exact inductionHypothesis _ atText.reaches_next.at_text (Nat.lt_of_succ_lt_succ enough)
          · rfl

theorem Call.width_reaches {fuel : Nat} {result : Int × Scan} (atText : scan.At call text)
    (isDone : call.width fuel scan = some result) :
    result.1 = (readWidth text).1 ∧ scan.Reaches call (readWidth text).2 result.2 := by
  rw [Call.width] at isDone
  cases text with
  | nil =>
      rw [atText.read.char_nil.2, if_neg (by decide)] at isDone
      cases isDone
      exact ⟨rfl, atText.reaches_read⟩
  | cons ch text =>
      rw [atText.read.char_cons] at isDone
      rw [readWidth]
      split_ifs at isDone ⊢
      · have further := Call.digits_reaches atText.reaches_next.at_text isDone
        exact ⟨further.1, atText.reaches_next.trans further.2⟩
      · cases isDone
        exact ⟨rfl, atText.reaches_read⟩

theorem Call.width_isSome {fuel : Nat} (atText : scan.At call text)
    (enough : text.length < fuel) : (call.width fuel scan).isSome := by
  rw [Call.width]
  cases text with
  | nil =>
      rw [atText.read.char_nil.2, if_neg (by decide)]
      rfl
  | cons ch text =>
      rw [atText.read.char_cons]
      split_ifs
      · rw [List.length_cons] at enough
        exact Call.digits_isSome _ atText.reaches_next.at_text (by omega)
      · rfl

theorem readFlag_length (flag : Char) (text : List Char) :
    (readFlag flag text).2.length ≤ text.length := by
  cases text with
  | nil => exact le_refl _
  | cons ch text =>
      rw [readFlag]
      split_ifs
      · exact Nat.le_succ _
      · exact le_refl _

theorem readDigits_length (w : Int) (text : List Char) :
    (readDigits w text).2.length ≤ text.length := by
  induction text generalizing w with
  | nil => exact le_refl _
  | cons ch text inductionHypothesis =>
      rw [readDigits]
      split_ifs
      · exact (inductionHypothesis _).trans (Nat.le_succ _)
      · exact le_refl _

theorem readWidth_length (text : List Char) : (readWidth text).2.length ≤ text.length := by
  cases text with
  | nil => exact le_refl _
  | cons ch text =>
      rw [readWidth]
      split_ifs
      · exact (readDigits_length _ _).trans (Nat.le_succ _)
      · exact le_refl _

theorem readDirective_length (text : List Char) :
    (readDirective text).rest.length ≤ text.length :=
  (readWidth_length _).trans ((readFlag_length _ _).trans (readFlag_length _ _))

/-- A directive is read as in the text. -/
theorem Call.conversion_reaches {fuel : Nat} (atText : scan.next.At call text)
    (isDone : call.conversion fuel scan = some scan') :
    ∃ reached, scan.next.Reaches call (readDirective text).rest reached ∧
      scan' = call.finish (readDirective text).alternate (readDirective text).zero
        (readDirective text).width (call.varArgs scan.pi) reached := by
  obtain ⟨width, isWidth, isEnd⟩ := Option.bind_eq_some_iff.mp isDone
  cases isEnd
  have alternate := Call.flag_reaches (by decide : '#' ≠ '\x00') atText
  have zero := Call.flag_reaches (by decide : '0' ≠ '\x00') alternate.2.at_text
  have isRead := Call.width_reaches zero.2.at_text isWidth
  refine ⟨width.2, (alternate.2.trans zero.2).trans isRead.2, ?_⟩
  rw [alternate.1, zero.1, isRead.1]
  rfl

theorem Call.conversion_isSome {fuel : Nat} (atText : scan.next.At call text)
    (enough : text.length < fuel) : (call.conversion fuel scan).isSome := by
  have alternate := Call.flag_reaches (by decide : '#' ≠ '\x00') atText
  have zero := Call.flag_reaches (by decide : '0' ≠ '\x00') alternate.2.at_text
  have isShort := (readFlag_length '0' _).trans (readFlag_length '#' text)
  obtain ⟨width, isWidth⟩ := Option.isSome_iff_exists.mp
    (Call.width_isSome zero.2.at_text (isShort.trans_lt enough))
  change (Option.bind _ _).isSome
  rw [isWidth]
  rfl

/-- What a conversion writes. -/
theorem Call.convert_eq {fmtbuf : Fmtbuf} (directive : Directive) (letter : Char)
    (v : BitVec 32) (isInt : fmtbuf.IsInt) :
    call.convert fmtbuf letter directive.alternate directive.zero directive.width v =
      fmtbuf.emit ((Part.conversion directive letter).output call v) := by
  have small : -2147483648 ≤ v.toInt := v.le_toInt
  have large : v.toInt ≤ intMax := Int.le_of_lt_add_one v.toInt_lt
  rw [Call.convert.eq_def]
  split
  · exact fmtbufWriteStr_eq isInt (call.string v).noNul
  · rfl
  · exact formatWrapping_field isInt small large
  · exact formatWrapping_field isInt small large
  · exact formatWrapping_field isInt small large
  · rw [Part.output] <;> first | rfl | assumption

/-- The round of a part took the scan to the text behind it. -/
structure Scan.Took (scan : Scan) (call : Call) (part : Part) (text : List Char) (scan' : Scan) :
    Prop where
  at_text : scan'.At call text
  pi_eq : scan'.pi = scan.pi + part.takes
  reads : ∀ si ∈ scan'.reads, si ∈ scan.reads ∨ si ≤ call.format.chars.length
  fmtbuf_eq : scan.fmtbuf.IsInt →
    scan'.fmtbuf = scan.fmtbuf.emit (part.output call (call.varArgs scan.pi))

/-- The end of a round at a letter. -/
theorem Call.finish_letter {directive : Directive} {letter : Char}
    (atText : scan.At call (letter :: text)) :
    scan.Took call (directive.part letter) text (call.finish directive.alternate directive.zero
      directive.width (call.varArgs scan.pi) scan) := by
  rw [Call.finish, atText.read.char_cons, Directive.part]
  split_ifs
  · exact ⟨atText.read.next, rfl, atText.reaches_read.reads, fun _ => rfl⟩
  · exact ⟨atText.read.next, rfl, atText.reaches_read.reads,
      fun isInt => Call.convert_eq directive letter _ isInt⟩

/-- The round of a complete directive. -/
theorem Call.conversion_took {fuel : Nat} {letter : Char} {rest : List Char}
    (atText : scan.next.At call text) (isRead : (readDirective text).rest = letter :: rest)
    (isDone : call.conversion fuel scan = some scan') :
    scan.Took call ((readDirective text).part letter) rest scan' := by
  obtain ⟨reached, isReached, rfl⟩ := Call.conversion_reaches atText isDone
  rw [isRead] at isReached
  have took := @Call.finish_letter call reached rest (readDirective text) letter isReached.at_text
  have samePi : reached.pi = scan.pi := isReached.pi_eq
  have sameFmtbuf : reached.fmtbuf = scan.fmtbuf := isReached.fmtbuf_eq
  rw [samePi] at took
  refine ⟨took.at_text, ?_, ?_, ?_⟩
  · rw [took.pi_eq, samePi]
  · intro si member
    exact (took.reads si member).elim (isReached.reads si) Or.inr
  · intro isInt
    rw [took.fmtbuf_eq (sameFmtbuf ▸ isInt), samePi, sameFmtbuf]

/-- What the loop does with a format that is made of parts. -/
theorem MadeOf.loop {parts : List Part} (madeOf : MadeOf text parts) {fuel : Nat}
    (atText : scan.At call text) (isDone : call.loop fuel scan = some scan') :
    (∀ si ∈ scan'.reads, si ∈ scan.reads ∨ si ≤ call.format.chars.length) ∧
      (scan.fmtbuf.IsInt → scan'.fmtbuf = scan.fmtbuf.emit (outputFrom call scan.pi parts)) := by
  cases fuel with
  | zero => cases isDone
  | succ fuel =>
      induction madeOf generalizing scan fuel with
      | nil =>
          rw [Call.loop, atText.read.char_nil.2, if_pos rfl] at isDone
          cases isDone
          exact ⟨atText.reaches_read.reads, fun _ => rfl⟩
      | @text ch text parts isPlain _ inductionHypothesis =>
          rw [Call.loop, atText.read.char_cons, if_neg atText.ne_nul, if_pos isPlain] at isDone
          cases fuel with
          | zero => cases isDone
          | succ fuel =>
              have atNext :
                  Scan.At { scan.read with fmtbuf := fmtbufWriteChar scan.fmtbuf ch }.next call
                    text :=
                atText.next
              obtain ⟨stays, isOutput⟩ := inductionHypothesis atNext fuel isDone
              refine ⟨?_, fun _ => isOutput (fmtbufWriteChar_isInt _ _)⟩
              intro si member
              exact (stays si member).elim (atText.reaches_read.reads si) Or.inr
      | @directive text rest letter parts isRead _ inductionHypothesis =>
          rw [Call.loop, atText.read.char_cons, if_neg atText.ne_nul, if_neg (by simp)] at isDone
          obtain ⟨taken, isTaken, isRest⟩ := Option.bind_eq_some_iff.mp isDone
          have took := Call.conversion_took atText.read.next isRead isTaken
          cases fuel with
          | zero => cases isRest
          | succ fuel =>
              obtain ⟨stays, isOutput⟩ := inductionHypothesis took.at_text fuel isRest
              constructor
              · intro si member
                rcases stays si member with member | inside
                · exact (took.reads si member).elim (atText.reaches_read.reads si) Or.inr
                · exact Or.inr inside
              · intro isInt
                have isWritten := took.fmtbuf_eq isInt
                rw [isOutput (isWritten ▸ isInt.emit _), isWritten, took.pi_eq, outputFrom,
                  Fmtbuf.emit_append]
                rfl

/-- The loop on such a format comes to an end. -/
theorem MadeOf.loop_isSome {parts : List Part} (madeOf : MadeOf text parts) {fuel : Nat}
    (atText : scan.At call text) (enough : text.length < fuel) :
    (call.loop fuel scan).isSome := by
  obtain ⟨fuel, rfl⟩ := Nat.exists_eq_succ_of_ne_zero (by omega : fuel ≠ 0)
  induction madeOf generalizing scan fuel with
  | nil =>
      rw [Call.loop, atText.read.char_nil.2, if_pos rfl]
      rfl
  | @text ch text parts isPlain _ inductionHypothesis =>
      rw [List.length_cons] at enough
      rw [Call.loop, atText.read.char_cons, if_neg atText.ne_nul, if_pos isPlain]
      obtain ⟨fuel, rfl⟩ := Nat.exists_eq_succ_of_ne_zero (by omega : fuel ≠ 0)
      have atNext : Scan.At { scan.read with fmtbuf := fmtbufWriteChar scan.fmtbuf ch }.next call
          text := atText.next
      exact inductionHypothesis atNext fuel (Nat.lt_of_succ_lt_succ enough)
  | @directive text rest letter parts isRead _ inductionHypothesis =>
      rw [List.length_cons] at enough
      have shorter := readDirective_length text
      rw [isRead, List.length_cons] at shorter
      rw [Call.loop, atText.read.char_cons, if_neg atText.ne_nul, if_neg (by simp)]
      obtain ⟨taken, isTaken⟩ := Option.isSome_iff_exists.mp
        (Call.conversion_isSome atText.read.next (Nat.lt_of_succ_lt_succ enough))
      have took := Call.conversion_took atText.read.next isRead isTaken
      obtain ⟨fuel, rfl⟩ := Nat.exists_eq_succ_of_ne_zero (by omega : fuel ≠ 0)
      have isRest := inductionHypothesis took.at_text fuel (by omega)
      rw [isTaken]
      exact isRest

/-! What was read stays recorded, wherever the scan stands. -/

theorem Call.flag_keeps (flag : Char) (scan : Scan) :
    scan.reads ⊆ (call.flag flag scan).2.reads := by
  rw [Call.flag]
  split_ifs <;> exact List.subset_cons_self _ _

theorem Call.digits_keeps {fuel : Nat} {w : Int} {result : Int × Scan}
    (isDone : call.digits fuel w scan = some result) : scan.reads ⊆ result.2.reads := by
  induction fuel generalizing w scan with
  | zero => cases isDone
  | succ fuel inductionHypothesis =>
      rw [Call.digits] at isDone
      split_ifs at isDone
      · exact List.Subset.trans (List.subset_cons_self _ _) (inductionHypothesis isDone)
      · cases isDone
        exact List.subset_cons_self _ _

theorem Call.width_keeps {fuel : Nat} {result : Int × Scan}
    (isDone : call.width fuel scan = some result) : scan.reads ⊆ result.2.reads := by
  rw [Call.width] at isDone
  split_ifs at isDone
  · exact List.Subset.trans (List.subset_cons_self _ _) (Call.digits_keeps isDone)
  · cases isDone
    exact List.subset_cons_self _ _

theorem Call.finish_keeps (pp zp : Bool) (w : Int) (v : BitVec 32) (scan : Scan) :
    scan.reads ⊆ (call.finish pp zp w v scan).reads := by
  rw [Call.finish]
  split_ifs <;> exact List.subset_cons_self _ _

theorem Call.conversion_keeps {fuel : Nat} (isDone : call.conversion fuel scan = some scan') :
    scan.reads ⊆ scan'.reads := by
  obtain ⟨width, isWidth, isEnd⟩ := Option.bind_eq_some_iff.mp isDone
  cases isEnd
  have alternate := @Call.flag_keeps call '#' scan.next
  have zero := @Call.flag_keeps call '0' (call.flag '#' scan.next).2
  exact List.Subset.trans (List.Subset.trans (List.Subset.trans alternate zero)
    (Call.width_keeps isWidth)) (Call.finish_keeps ..)

theorem Call.loop_keeps {fuel : Nat} (isDone : call.loop fuel scan = some scan') :
    scan.si ∈ scan'.reads ∧ scan.reads ⊆ scan'.reads := by
  induction fuel generalizing scan with
  | zero => cases isDone
  | succ fuel inductionHypothesis =>
      suffices keeps : scan.read.reads ⊆ scan'.reads from
        ⟨keeps List.mem_cons_self, List.Subset.trans (List.subset_cons_self _ _) keeps⟩
      rw [Call.loop] at isDone
      split_ifs at isDone
      · cases isDone
        exact List.Subset.refl _
      · exact (inductionHypothesis isDone).2
      · obtain ⟨taken, isTaken, isRest⟩ := Option.bind_eq_some_iff.mp isDone
        exact List.Subset.trans (Call.conversion_keeps isTaken) (inductionHypothesis isRest).2

/-- A round at the terminator goes past it. -/
theorem Call.finish_nil (pp zp : Bool) (w : Int) (v : BitVec 32) (atText : scan.At call []) :
    (call.finish pp zp w v scan).si = call.format.chars.length + 1 := by
  rw [Call.finish, atText.read.char_nil.2, if_neg (by decide), ← atText.char_nil.1]
  rfl

/-- The loop on another format reads behind the terminator. -/
theorem Call.loop_beyond {fuel : Nat} (notMade : ¬∃ parts, MadeOf text parts)
    (atText : scan.At call text) (isDone : call.loop fuel scan = some scan') :
    call.format.chars.length + 1 ∈ scan'.reads := by
  induction fuel generalizing scan text with
  | zero => cases isDone
  | succ fuel inductionHypothesis =>
      cases text with
      | nil => exact absurd ⟨[], MadeOf.nil⟩ notMade
      | cons ch text =>
          rw [Call.loop, atText.read.char_cons, if_neg atText.ne_nul] at isDone
          split_ifs at isDone with isPlain
          · have atNext : Scan.At { scan.read with fmtbuf := fmtbufWriteChar scan.fmtbuf ch }.next
                call text := atText.next
            apply inductionHypothesis _ atNext isDone
            rintro ⟨parts, madeOf⟩
            exact notMade ⟨_, MadeOf.text isPlain madeOf⟩
          · obtain rfl : ch = '%' := not_ne_iff.mp isPlain
            obtain ⟨taken, isTaken, isRest⟩ := Option.bind_eq_some_iff.mp isDone
            obtain ⟨reached, isReached, rfl⟩ := Call.conversion_reaches atText.read.next isTaken
            cases isRead : (readDirective text).rest with
            | nil =>
                rw [isRead] at isReached
                have isBehind := Call.finish_nil (readDirective text).alternate
                  (readDirective text).zero (readDirective text).width
                  (call.varArgs scan.read.pi) isReached.at_text
                rw [← isBehind]
                exact (Call.loop_keeps isRest).1
            | cons letter rest =>
                rw [isRead] at isReached
                have took := @Call.finish_letter call reached rest (readDirective text) letter
                  isReached.at_text
                rw [isReached.pi_eq] at took
                apply inductionHypothesis _ took.at_text isRest
                rintro ⟨parts, madeOf⟩
                exact notMade ⟨_, MadeOf.directive isRead madeOf⟩

end Scanning

/-! ## The contract -/

section Contract

variable {call : Call}

/-- The scan at the start of a format. -/
theorem start_at (fmtbuf : Fmtbuf) :
    Scan.At ⟨0, 0, fmtbuf, []⟩ call call.format.chars :=
  ⟨Nat.zero_le _, rfl⟩

/-- The call reads what its loop reads. -/
theorem Call.formatToBuf_loop {fuel : Nat} {fmtbuf : Fmtbuf} {scan : Scan} :
    call.formatToBuf fuel fmtbuf = some scan ↔
      ∃ scan', call.loop fuel ⟨0, 0, fmtbuf, []⟩ = some scan' ∧
        scan = { scan' with
          fmtbuf := { scan'.fmtbuf with
            mem := if scan'.fmtbuf.n ≠ 0 then
                update scan'.fmtbuf.mem scan'.fmtbuf.buf (some '\x00')
              else scan'.fmtbuf.mem } } := by
  constructor
  · intro isDone
    obtain ⟨scan', isLoop, isEnd⟩ := Option.bind_eq_some_iff.mp isDone
    refine ⟨scan', isLoop, ?_⟩
    split_ifs at isEnd ⊢
    · exact (Option.some.inj isEnd).symm
    · exact (Option.some.inj isEnd).symm
  · rintro ⟨scan', isLoop, rfl⟩
    rw [Call.formatToBuf, isLoop]
    change (if scan'.fmtbuf.n ≠ 0 then _ else _) = _
    split_ifs <;> rfl

/-- What `printf` does with a format that is made of parts. -/
theorem MadeOf.printf_mem {parts : List Part} (madeOf : MadeOf call.format.chars parts)
    {fuel : Nat} {fmtbuf : Fmtbuf} (isDone : call.printf fuel = some fmtbuf) :
    fmtbuf.mem = written intMax (outputFrom call 0 parts) := by
  obtain ⟨scan, isFormatted, isEnd⟩ := Option.bind_eq_some_iff.mp isDone
  cases isEnd
  obtain ⟨scan, isLoop, rfl⟩ := Call.formatToBuf_loop.mp isFormatted
  have isOutput := (madeOf.loop (start_at _) isLoop).2 rfl
  rw [emit_start (by decide)] at isOutput
  have hasRoom : (Fmtbuf.wrote intMax (outputFrom call 0 parts)).n ≠ 0 := by
    simp only [Fmtbuf.wrote, intMax]
    omega
  have isFull := update_take (intMax - 1).toNat (outputFrom call 0 parts)
  have isWritten : written intMax (outputFrom call 0 parts) =
      fun i => ((outputFrom call 0 parts).take (intMax - 1).toNat ++ ['\x00'])[i]? := by
    funext i
    rw [written, if_pos (by decide)]
  rw [isOutput, isWritten, ← isFull, if_pos hasRoom]
  rfl

theorem written_inside (out : List Char) :
    (∀ i, printfBuffer ≤ i → written intMax out i = none) ↔ out.length < printfBuffer := by
  have isNone (i : Nat) : written intMax out i = none ↔
      (out.take (intMax - 1).toNat ++ ['\x00']).length ≤ i := by
    rw [written, if_pos (by decide), List.getElem?_eq_none_iff]
  have isLarge : (intMax - 1).toNat = 2147483646 := rfl
  simp only [isNone, List.length_append, List.length_take, List.length_singleton, isLarge,
    printfBuffer]
  constructor
  · intro inside
    have last := inside 200 (le_refl _)
    omega
  · intro isShort i isBehind
    omega

/-- The calls stay within their strings if and only if behind each `%` of the format, its flags
and its width stands a letter, and the output of `printf` fits with its terminator. -/
theorem staysWithin_iff (call : Call) :
    call.StaysWithin ↔ ∃ parts, MadeOf call.format.chars parts ∧
      (outputFrom call 0 parts).length < printfBuffer := by
  constructor
  · rintro ⟨stays, fuel, fmtbuf, isPrinted, inside⟩
    by_cases isMade : ∃ parts, MadeOf call.format.chars parts
    · obtain ⟨parts, madeOf⟩ := isMade
      rw [madeOf.printf_mem isPrinted, written_inside] at inside
      exact ⟨parts, madeOf, inside⟩
    · obtain ⟨fuel, scan, isDone, reads⟩ := stays fmtbuf
      obtain ⟨scan', isLoop, isEnd⟩ := Call.formatToBuf_loop.mp isDone
      have isBeyond := Call.loop_beyond isMade (start_at _) isLoop
      have atMost := reads (call.format.chars.length + 1) (by rwa [isEnd])
      omega
  · rintro ⟨parts, madeOf, isShort⟩
    have ends (fmtbuf : Fmtbuf) : ∃ scan,
        call.loop (call.format.chars.length + 1) ⟨0, 0, fmtbuf, []⟩ = some scan :=
      Option.isSome_iff_exists.mp (madeOf.loop_isSome (start_at _) (Nat.lt_succ_self _))
    constructor
    · intro fmtbuf
      obtain ⟨scan, isLoop⟩ := ends fmtbuf
      refine ⟨_, _, Call.formatToBuf_loop.mpr ⟨scan, isLoop, rfl⟩, ?_⟩
      intro si member
      exact ((madeOf.loop (start_at _) isLoop).1 si member).elim (by simp) id
    · obtain ⟨scan, isLoop⟩ := ends ⟨fun _ => none, 0, intMax, 0⟩
      have isDone := Call.formatToBuf_loop.mpr ⟨scan, isLoop, rfl⟩
      have isPrinted := congrArg (Option.map Scan.fmtbuf) isDone
      rw [Option.map_some, Option.map_eq_bind] at isPrinted
      exact ⟨_, _, isPrinted, madeOf.printf_mem isPrinted ▸ (written_inside _).mpr isShort⟩

/-- The call `printf("%")`, with other bytes behind the format. -/
def percentCall : Call where
  format := ⟨['%'], by decide, by decide⟩
  behind := fun _ => 'x'
  varArgs := fun _ => 0
  string := fun _ => ⟨[], by decide, by decide⟩

/-- The format that is one `%` is read behind its terminator. -/
theorem percentCall_not_within : ¬∀ call : Call, call.StaysWithin := by
  intro within
  obtain ⟨fuel, scan, isDone, reads⟩ := (within percentCall).1 ⟨fun _ => none, 0, 0, 0⟩
  obtain ⟨scan', isLoop, isEnd⟩ := Call.formatToBuf_loop.mp isDone
  have isMade : ¬∃ parts, MadeOf percentCall.format.chars parts := by
    rintro ⟨parts, madeOf⟩
    cases madeOf with
    | text isPlain _ => exact isPlain rfl
    | directive isRead _ => cases isRead
  have isBeyond := Call.loop_beyond isMade (start_at _) isLoop
  have atMost := reads (percentCall.format.chars.length + 1) (by rwa [isEnd])
  omega

end Contract

end Shecc.Libc
