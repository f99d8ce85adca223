import Mathlib.Data.List.Basic
import Mathlib.Data.List.TakeWhile
import Shecc.Libc.Output

/-!
# `snprintf` against C99

A format that is read as C99 reads it gives the output that C99 defines, cut to the buffer.
The loop reads the flags `#` and `0` in this order and once each, and it skips a conversion
with other flags but writes the rest of it as it stands. It has no fields for characters and
strings.
-/

namespace Shecc.Libc

open Function (update update_self update_of_ne)

/-- A piece of a format with its argument. -/
inductive Piece
  | text (ch : Char) (isPlain : ch ≠ '%' ∧ ch ≠ '\x00')
  | percent
  | character (width : Nat) (val : Int)
  | string (width : Nat) (chars : List Char) (noNul : '\x00' ∉ chars)
  | number (flags : List Flag) (width : Nat) (base : Base) (val : Int)
      (isInt : -2147483648 ≤ val ∧ val ≤ intMax)

/-- The width in the text of a format. -/
def widthText (width : Nat) : List Char :=
  if width = 0 then [] else Nat.toDigits 10 width

/-- The text of a piece. -/
def Piece.spelling : Piece → List Char
  | .text ch _ => [ch]
  | .percent => ['%', '%']
  | .character width _ => '%' :: (widthText width ++ ['c'])
  | .string width _ _ => '%' :: (widthText width ++ ['s'])
  | .number flags width base _ _ =>
      '%' :: (flags.map Flag.char ++ (widthText width ++ [base.conversion]))

/-- The argument of a piece. -/
def Piece.argument : Piece → List Argument
  | .text _ _ => []
  | .percent => []
  | .character _ val => [.int val]
  | .string _ chars _ => [.str chars]
  | .number _ _ _ val _ => [.int val]

/-- Characters in a field of a width. -/
def justify (width : Nat) (out : List Char) : List Char :=
  List.replicate (width - out.length) ' ' ++ out

/-- The output that C99 defines for a piece. -/
def Piece.output : Piece → List Char
  | .text ch _ => [ch]
  | .percent => ['%']
  | .character width val => justify width [charOf val]
  | .string width chars _ => justify width chars
  | .number flags width base val _ =>
      base.field val width (flags.contains .zero) (flags.contains .alternate)

/-- The flags are those that the loop reads, and only integers have a field. -/
def Piece.Supported : Piece → Prop
  | .text _ _ => True
  | .percent => True
  | .character width _ => width ≤ 1
  | .string width _ _ => width = 0
  | .number flags _ _ _ _ => flags ∈ [[], [.alternate], [.zero], [.alternate, .zero]]

/-- The format that pieces make. -/
def spelling (pieces : List Piece) : List Char := pieces.flatMap Piece.spelling

/-- The arguments of pieces. -/
def arguments (pieces : List Piece) : List Argument := pieces.flatMap Piece.argument

/-- The complete output that C99 defines. -/
def output (pieces : List Piece) : List Char := pieces.flatMap Piece.output

/-- What C99 has written to a buffer of the size: what fits of the output before a terminator. -/
def written (n : Int) (out : List Char) : Written := fun i =>
  if 0 < n then (out.take (n - 1).toNat ++ ['\x00'])[i]? else none

/-- The call does what C99 says. -/
def Meets (n : Int) (pieces : List Piece) (extra : List Argument) : Prop :=
  snprintf n (spelling pieces) (arguments pieces ++ extra) =
    some (((output pieces).length : Int), written n (output pieces))

/-! ## Reading a conversion -/

section Reading

variable {flag : Char} {text : List Char}

/-- The flags that are left after one was read. -/
def dropFlag (flag : Flag) : List Flag → List Flag
  | [] => []
  | other :: flags => if other = flag then flags else other :: flags

/-- The flags behind the one at which the loop skips the conversion, if there is one. -/
def leftover (flags : List Flag) : Option (List Flag) :=
  match dropFlag .zero (dropFlag .alternate flags) with
  | [] => none
  | _ :: rest => some rest

theorem leftover_eq_none {flags : List Flag} :
    leftover flags = none ↔ flags ∈ [[], [.alternate], [.zero], [.alternate, .zero]] := by
  rcases flags with _ | ⟨_ | _, _ | ⟨_ | _, _ | ⟨third, flags⟩⟩⟩ <;>
    simp [leftover, dropFlag]

/-- The characters behind the flags of a conversion. -/
def Starts (text : List Char) : Prop := ∃ ch rest, text = ch :: rest ∧ ch ≠ '#' ∧ ch ≠ '0'

theorem readFlag_flags (flag : Flag) (flags : List Flag) (starts : Starts text) :
    readFlag flag.char (flags.map Flag.char ++ text) =
      (decide (flags.head? = some flag), (dropFlag flag flags).map Flag.char ++ text) := by
  rcases flags with _ | ⟨other, flags⟩
  · obtain ⟨ch, rest, rfl, notAlternate, notZero⟩ := starts
    cases flag <;> simp [readFlag, dropFlag, Flag.char, notAlternate, notZero]
  · cases flag <;> cases other <;> simp [readFlag, dropFlag, Flag.char]

theorem readDigits_append {digits : List Char} {w : Int} {ch : Char}
    (isDigits : ∀ digit ∈ digits, '0' ≤ digit ∧ digit ≤ '9') (isEnd : ¬('0' ≤ ch ∧ ch ≤ '9')) :
    readDigits w (digits ++ ch :: text) =
      (digits.foldl (fun w digit => wrap (w * 10 + (digit.toNat - 48))) w, ch :: text) := by
  induction digits generalizing w with
  | nil => simp [readDigits, isEnd]
  | cons digit digits inductionHypothesis =>
      rw [List.forall_mem_cons] at isDigits
      rw [List.cons_append, readDigits, if_pos isDigits.1, inductionHypothesis isDigits.2]
      rfl

theorem digitChar_isDigit : ∀ d : Nat, d < 10 →
    ('0' ≤ d.digitChar ∧ d.digitChar ≤ '9') ∧ (d.digitChar.toNat : Int) - 48 = d := by
  decide

theorem digitChar_isFirst : ∀ d : Nat, d < 10 → d.digitChar ≠ '0' →
    ('1' ≤ d.digitChar ∧ d.digitChar ≤ '9') ∧
      wrap (0 * 10 + ((d.digitChar.toNat : Int) - 48)) = (d.digitChar.toNat : Int) - 48 := by
  decide

/-- The loop of a width computes it. -/
theorem foldl_toDigits (n : Nat) :
    (Nat.toDigits 10 n).foldl (fun w digit => wrap (w * 10 + (digit.toNat - 48))) 0 = wrap n := by
  induction n using Nat.strong_induction_on with
  | _ n inductionHypothesis =>
      rw [Nat.toDigits_eq_if (by decide)]
      split_ifs with isLast
      · rw [List.foldl_cons, List.foldl_nil, (digitChar_isDigit n isLast).2]
        simp
      · rw [List.foldl_append, inductionHypothesis _ (by omega), List.foldl_cons, List.foldl_nil,
          (digitChar_isDigit _ (Nat.mod_lt _ (by decide))).2]
        simp only [wrap]
        omega

/-- The width of a conversion is read, and the conversion follows. -/
theorem readWidth_widthText (width : Nat) {ch : Char} (isEnd : ¬('0' ≤ ch ∧ ch ≤ '9')) :
    readWidth (widthText width ++ ch :: text) = (wrap width, ch :: text) := by
  rw [widthText]
  split_ifs with isNone
  · have notFirst : ¬('1' ≤ ch ∧ ch ≤ '9') :=
      fun isFirst => isEnd ⟨Char.le_trans (by decide : '0' ≤ '1') isFirst.1, isFirst.2⟩
    rw [List.nil_append, readWidth, if_neg notFirst, isNone]
    rfl
  · have notZero := toDigits_head (by decide : 1 < 10) isNone
    have value := foldl_toDigits width
    have areDigits : ∀ digit ∈ Nat.toDigits 10 width, ∃ d < 10, digit = d.digitChar :=
      fun digit member => exists_digit (by decide) member
    cases isText : Nat.toDigits 10 width with
    | nil => exact absurd isText Nat.toDigits_ne_nil
    | cons digit digits =>
        rw [isText] at notZero value areDigits
        rw [List.forall_mem_cons] at areDigits
        obtain ⟨⟨d, isDigit, rfl⟩, areDigits⟩ := areDigits
        have isFirst := digitChar_isFirst d isDigit (by simpa using notZero)
        rw [List.foldl_cons, isFirst.2] at value
        rw [List.cons_append, readWidth, if_pos isFirst.1, readDigits_append _ isEnd, value]
        intro digit member
        obtain ⟨d', isDigit', rfl⟩ := areDigits digit member
        exact (digitChar_isDigit d' isDigit').1

/-- No flag follows the flags of a conversion. -/
theorem starts_widthText (width : Nat) {ch : Char} (isEnd : ch ≠ '#' ∧ ch ≠ '0') :
    Starts (widthText width ++ ch :: text) := by
  rw [widthText]
  split_ifs with isNone
  · exact ⟨ch, text, rfl, isEnd⟩
  · have notZero := toDigits_head (by decide : 1 < 10) isNone
    cases isText : Nat.toDigits 10 width with
    | nil => exact absurd isText Nat.toDigits_ne_nil
    | cons digit digits =>
        obtain ⟨d, isDigit, rfl⟩ := exists_digit (by decide) (isText ▸ List.mem_cons_self)
        rw [isText] at notZero
        refine ⟨d.digitChar, _, rfl, ?_, by simpa using notZero⟩
        intro isAlternate
        have atLeast := (digitChar_isDigit d isDigit).1.1
        rw [isAlternate] at atLeast
        exact absurd atLeast (by decide)

end Reading

/-! ## The loop -/

section Loop

variable {fmtbuf : Fmtbuf} {fuel : Nat} {text : List Char} {args : List Argument}

/-- Characters of the format are written as they stand. -/
theorem formatLoop_text {plain : List Char} (isPlain : '%' ∉ plain)
    (enough : plain.length ≤ fuel) :
    formatLoop fuel (plain ++ text) args fmtbuf =
      formatLoop (fuel - plain.length) text args (fmtbuf.emit plain) := by
  induction plain generalizing fuel fmtbuf with
  | nil => rfl
  | cons ch plain inductionHypothesis =>
      rw [List.mem_cons, not_or] at isPlain
      rw [List.length_cons] at enough
      obtain ⟨fuel, rfl⟩ := Nat.exists_eq_succ_of_ne_zero (by omega : fuel ≠ 0)
      rw [List.cons_append, formatLoop, if_pos (Ne.symm isPlain.1),
        inductionHypothesis isPlain.2 (by omega), List.length_cons, Nat.succ_sub_succ]
      rfl

/-- What the loop does behind the flags of a conversion. -/
theorem formatLoop_flags {flags : List Flag} (starts : Starts text) :
    formatLoop (fuel + 1) ('%' :: (flags.map Flag.char ++ text)) args fmtbuf =
      match (readWidth ((dropFlag .zero (dropFlag .alternate flags)).map Flag.char ++ text)).2 with
      | [] => none
      | ch :: rest =>
          if ch = '%' then formatLoop fuel rest args (fmtbufWriteChar fmtbuf '%')
          else
            (convert fmtbuf ch (decide (flags.head? = some .alternate))
              (decide ((dropFlag .alternate flags).head? = some .zero))
              (readWidth ((dropFlag .zero (dropFlag .alternate flags)).map Flag.char ++ text)).1
              args.head?).bind (formatLoop fuel rest args.tail) := by
  have alternate := readFlag_flags .alternate flags starts
  have zero := readFlag_flags .zero (dropFlag .alternate flags) starts
  change readFlag '#' _ = _ at alternate
  change readFlag '0' _ = _ at zero
  rw [formatLoop, if_neg (by simp), alternate]
  dsimp only
  rw [zero]
  rfl

/-- A conversion with flags that the loop reads. -/
theorem formatLoop_convert {flags : List Flag} (isRead : leftover flags = none) (width : Nat)
    {ch : Char} (isConversion : ch ∈ ['s', 'c', 'o', 'd', 'x']) :
    formatLoop (fuel + 1) ('%' :: (flags.map Flag.char ++ (widthText width ++ ch :: text))) args
        fmtbuf =
      (convert fmtbuf ch (flags.contains .alternate) (flags.contains .zero) (wrap width)
        args.head?).bind (formatLoop fuel text args.tail) := by
  have isEnd : (ch ≠ '#' ∧ ch ≠ '0') ∧ ¬('0' ≤ ch ∧ ch ≤ '9') ∧ ch ≠ '%' := by
    simp only [List.mem_cons, List.not_mem_nil, or_false] at isConversion
    rcases isConversion with rfl | rfl | rfl | rfl | rfl <;> decide
  have isWidth := @readWidth_widthText text width ch isEnd.2.1
  rw [formatLoop_flags (starts_widthText width isEnd.1)]
  rw [leftover_eq_none] at isRead
  simp only [List.mem_cons, List.not_mem_nil, or_false] at isRead
  rcases isRead with rfl | rfl | rfl | rfl <;> simp [dropFlag, isWidth, isEnd.2.2]

/-- A conversion with other flags is skipped up to the first of them. -/
theorem formatLoop_skip {flags rest : List Flag} (isSkipped : leftover flags = some rest)
    (starts : Starts text) :
    formatLoop (fuel + 1) ('%' :: (flags.map Flag.char ++ text)) args fmtbuf =
      formatLoop fuel (rest.map Flag.char ++ text) args.tail fmtbuf := by
  rw [formatLoop_flags starts]
  rw [leftover] at isSkipped
  cases isLeft : dropFlag .zero (dropFlag .alternate flags) with
  | nil =>
      rw [isLeft] at isSkipped
      cases isSkipped
  | cons flag flags' =>
      rw [isLeft] at isSkipped
      cases isSkipped
      cases flag <;> rfl

end Loop

/-! ## What the call writes -/

section Call

variable {fmtbuf : Fmtbuf} {fuel : Nat} {text : List Char} {args : List Argument}

/-- What the loop writes for a piece. -/
def Piece.printed : Piece → List Char
  | .text ch _ => [ch]
  | .percent => ['%']
  | .character _ val => [charOf val]
  | .string _ chars _ => chars
  | .number flags width base val _ =>
      match leftover flags with
      | none => base.field val width (flags.contains .zero) (flags.contains .alternate)
      | some rest => rest.map Flag.char ++ (widthText width ++ [base.conversion])

/-- The width of a piece. -/
def Piece.width : Piece → Nat
  | .text _ _ => 0
  | .percent => 0
  | .character width _ => width
  | .string width _ _ => width
  | .number _ width _ _ _ => width

theorem dropFlag_length (flag : Flag) (flags : List Flag) :
    (dropFlag flag flags).length ≤ flags.length := by
  rcases flags with _ | ⟨other, flags⟩
  · exact le_refl _
  · rw [dropFlag]
    split_ifs
    · exact Nat.le_succ _
    · exact le_refl _

theorem leftover_length {flags rest : List Flag} (isSkipped : leftover flags = some rest) :
    rest.length < flags.length := by
  have shorter := (dropFlag_length .zero _).trans (dropFlag_length .alternate flags)
  rw [leftover] at isSkipped
  cases isLeft : dropFlag .zero (dropFlag .alternate flags) with
  | nil =>
      rw [isLeft] at isSkipped
      cases isSkipped
  | cons flag flags' =>
      rw [isLeft] at isSkipped shorter
      cases isSkipped
      exact shorter

/-- The alternate form is for the other bases. -/
theorem Base.field_decimal (val : Int) (width : Nat) (zero alternate : Bool) :
    Base.decimal.field val width zero alternate = Base.decimal.field val width zero false := by
  simp [Base.field, Base.sign, Base.digits]

theorem convert_number {base : Base} {val : Int} (isInt : fmtbuf.IsInt)
    (isVal : -2147483648 ≤ val ∧ val ≤ intMax) {width : Nat} (isWidth : (width : Int) ≤ intMax)
    (alternate zero : Bool) :
    convert fmtbuf base.conversion alternate zero (wrap width) (some (.int val)) =
      some (fmtbuf.emit (base.field val width zero alternate)) := by
  rw [wrap_eq (by omega) isWidth]
  cases base with
  | octal => exact congrArg some (format_eq isInt isVal.1 isVal.2 width zero alternate)
  | decimal =>
      rw [Base.field_decimal]
      exact congrArg some (format_eq isInt isVal.1 isVal.2 width zero false)
  | hexadecimal => exact congrArg some (format_eq isInt isVal.1 isVal.2 width zero alternate)

theorem convert_string {chars : List Char} (isInt : fmtbuf.IsInt) (noNul : '\x00' ∉ chars)
    (alternate zero : Bool) (width : Int) :
    convert fmtbuf 's' alternate zero width (some (.str chars)) = some (fmtbuf.emit chars) := by
  have isWhole : chars.takeWhile (· ≠ '\x00') = chars := by
    rw [List.takeWhile_eq_self_iff]
    intro ch member
    rw [decide_eq_true_eq]
    rintro rfl
    exact noNul member
  have isCopied := fmtbufWriteStr_eq isInt noNul
  change some (fmtbufWriteStr fmtbuf chars (chars.takeWhile (· ≠ '\x00')).length) = _
  rw [isWhole, isCopied]

theorem Base.conversion_mem (base : Base) : base.conversion ∈ ['s', 'c', 'o', 'd', 'x'] := by
  cases base <;> decide

theorem noPercent_widthText (width : Nat) : '%' ∉ widthText width := by
  rw [widthText]
  split_ifs
  · simp
  · intro member
    obtain ⟨d, isDigit, isPercent⟩ := exists_digit (by decide) member
    have atLeast := (digitChar_isDigit d isDigit).1.1
    rw [← isPercent] at atLeast
    exact absurd atLeast (by decide)

/-- One piece. -/
theorem formatLoop_piece (piece : Piece) (isInt : fmtbuf.IsInt)
    (isWidth : (piece.width : Int) ≤ intMax)
    (enough : (piece.spelling ++ text).length ≤ fuel) :
    ∃ fuel', text.length ≤ fuel' ∧
      formatLoop fuel (piece.spelling ++ text) (piece.argument ++ args) fmtbuf =
        formatLoop fuel' text args (fmtbuf.emit piece.printed) := by
  cases piece with
  | text ch isPlain =>
      simp only [Piece.spelling, List.length_append, List.length_singleton] at enough
      have isWritten := @formatLoop_text fmtbuf fuel text args [ch]
        (by simpa using Ne.symm isPlain.1)
        (by simp only [List.length_singleton]; omega)
      exact ⟨fuel - 1, by omega, isWritten⟩
  | percent =>
      simp only [Piece.spelling, List.length_append, List.length_cons, List.length_nil] at enough
      obtain ⟨fuel, rfl⟩ := Nat.exists_eq_succ_of_ne_zero (by omega : fuel ≠ 0)
      exact ⟨fuel, by omega, rfl⟩
  | character width val =>
      simp only [Piece.spelling, List.length_append, List.length_cons] at enough
      obtain ⟨fuel, rfl⟩ := Nat.exists_eq_succ_of_ne_zero (by omega : fuel ≠ 0)
      have isRead := @formatLoop_convert fmtbuf fuel text (.int val :: args) [] rfl width 'c'
        (by decide)
      refine ⟨fuel, by omega, ?_⟩
      simp only [Piece.spelling, List.cons_append, List.append_assoc]
      exact isRead
  | string width chars noNul =>
      simp only [Piece.spelling, List.length_append, List.length_cons] at enough
      obtain ⟨fuel, rfl⟩ := Nat.exists_eq_succ_of_ne_zero (by omega : fuel ≠ 0)
      have isRead := @formatLoop_convert fmtbuf fuel text (.str chars :: args) [] rfl width 's'
        (by decide)
      refine ⟨fuel, by omega, ?_⟩
      rw [List.head?_cons, convert_string isInt noNul] at isRead
      simp only [Piece.spelling, List.cons_append, List.append_assoc]
      exact isRead
  | number flags width base val isVal =>
      simp only [Piece.spelling, List.length_append, List.length_cons, List.length_map,
        List.length_nil] at enough
      obtain ⟨fuel, rfl⟩ := Nat.exists_eq_succ_of_ne_zero (by omega : fuel ≠ 0)
      simp only [Piece.spelling, List.cons_append, List.append_assoc, Piece.printed,
        List.nil_append, Piece.argument]
      cases isRead : leftover flags with
      | none =>
          have isConverted := @formatLoop_convert fmtbuf fuel text (.int val :: args) flags isRead
            width base.conversion base.conversion_mem
          have isWidth' : (width : Int) ≤ intMax := isWidth
          rw [List.head?_cons, convert_number isInt isVal isWidth'] at isConverted
          exact ⟨fuel, by omega, isConverted⟩
      | some rest =>
          have isShorter := leftover_length isRead
          have starts := @starts_widthText text width base.conversion (by cases base <;> decide)
          have isPlain : '%' ∉ rest.map Flag.char ++ (widthText width ++ [base.conversion]) := by
            simp only [List.mem_append, not_or, List.mem_singleton]
            refine ⟨?_, noPercent_widthText width, by cases base <;> decide⟩
            intro member
            obtain ⟨flag, -, isPercent⟩ := List.mem_map.mp member
            cases flag <;> cases isPercent
          rw [formatLoop_skip isRead starts]
          have isWritten := @formatLoop_text fmtbuf fuel text args _ isPlain (by simp; omega)
          refine ⟨fuel - (rest.map Flag.char ++ (widthText width ++ [base.conversion])).length,
            ?_, ?_⟩
          · simp only [List.length_append, List.length_map, List.length_singleton]
            omega
          · rw [List.append_assoc, List.append_assoc] at isWritten
            exact isWritten

/-- What the loop writes for a format. -/
def printed (pieces : List Piece) : List Char := pieces.flatMap Piece.printed

theorem formatLoop_eq (pieces : List Piece) (extra : List Argument) (isInt : fmtbuf.IsInt)
    (isWidth : ∀ piece ∈ pieces, (piece.width : Int) ≤ intMax)
    (enough : (spelling pieces).length ≤ fuel) :
    formatLoop fuel (spelling pieces) (arguments pieces ++ extra) fmtbuf =
      some (fmtbuf.emit (printed pieces)) := by
  induction pieces generalizing fuel fmtbuf with
  | nil => cases fuel <;> rfl
  | cons piece pieces inductionHypothesis =>
      rw [List.forall_mem_cons] at isWidth
      rw [spelling, List.flatMap_cons] at enough ⊢
      rw [arguments, List.flatMap_cons, List.append_assoc, printed, List.flatMap_cons,
        Fmtbuf.emit_append]
      obtain ⟨fuel', enough', isPiece⟩ := formatLoop_piece piece isInt isWidth.1 enough
      rw [isPiece]
      exact inductionHypothesis (isInt.emit _) isWidth.2 enough'

/-- The terminator stands behind what was written. -/
theorem update_take (k : Nat) (out : List Char) :
    update (fun i => (out.take k)[i]?) (min k out.length) (some '\x00') =
      fun i => (out.take k ++ ['\x00'])[i]? := by
  funext i
  rw [← List.length_take]
  by_cases isNext : i = (out.take k).length
  · rw [isNext, update_self, List.getElem?_concat_length]
  · rw [update_of_ne isNext, List.getElem?_append]
    split_ifs with isBefore
    · rfl
    · rw [List.getElem?_eq_none (not_lt.mp isBefore)]
      symm
      rw [List.getElem?_eq_none]
      rw [List.length_singleton]
      omega

/-- The result of the call. -/
theorem snprintf_eq {n : Int} (notNegative : 0 ≤ n) (pieces : List Piece) (extra : List Argument)
    (isWidth : ∀ piece ∈ pieces, (piece.width : Int) ≤ intMax) :
    snprintf n (spelling pieces) (arguments pieces ++ extra) =
      some (wrap (printed pieces).length, written n (printed pieces)) := by
  have start : Fmtbuf.IsInt ⟨fun _ => none, 0, n, 0⟩ := rfl
  rw [snprintf, formatToBuf, formatLoop_eq pieces extra start isWidth (le_refl _),
    emit_start notNegative]
  change Option.bind (if (Fmtbuf.wrote n (printed pieces)).n ≠ 0 then _ else _) _ = _
  have isFull := update_take (n - 1).toNat (printed pieces)
  by_cases isEmpty : n = 0
  · have isNone : written 0 (printed pieces) = fun i => ((printed pieces).take 0)[i]? := by
      funext i
      simp [written]
    subst isEmpty
    rw [if_neg (by simp [Fmtbuf.wrote]), isNone]
    rfl
  · have hasRoom : (Fmtbuf.wrote n (printed pieces)).n ≠ 0 := by
      simp only [Fmtbuf.wrote]
      omega
    have isWritten : written n (printed pieces) =
        fun i => ((printed pieces).take (n - 1).toNat ++ ['\x00'])[i]? := by
      funext i
      rw [written, if_pos (by omega)]
    rw [if_pos hasRoom, isWritten, ← isFull]
    rfl

end Call

/-! ## The contract -/

section Contract

variable {pieces : List Piece} {n : Int} {extra : List Argument}

theorem Piece.width_le (piece : Piece) : piece.width ≤ piece.output.length := by
  cases piece with
  | text ch isPlain => exact Nat.zero_le _
  | percent => exact Nat.zero_le _
  | character width val =>
      simp only [Piece.width, Piece.output, justify, List.length_append, List.length_replicate]
      omega
  | string width chars noNul =>
      simp only [Piece.width, Piece.output, justify, List.length_append, List.length_replicate]
      omega
  | number flags width base val isInt =>
      simp only [Piece.width, Piece.output, Base.field]
      split_ifs <;> simp only [List.length_append, List.length_replicate] <;> omega

theorem output_length_le {piece : Piece} (member : piece ∈ pieces) :
    piece.output.length ≤ (output pieces).length := by
  obtain ⟨front, back, rfl⟩ := List.append_of_mem member
  rw [output, List.flatMap_append, List.flatMap_cons, List.length_append, List.length_append]
  omega

theorem width_le (isShort : ((output pieces).length : Int) ≤ intMax) :
    ∀ piece ∈ pieces, (piece.width : Int) ≤ intMax := by
  intro piece member
  have atMost := piece.width_le.trans (output_length_le member)
  omega

/-- A supported piece is written as C99 says. -/
theorem Piece.Supported.printed_eq {piece : Piece} (supported : piece.Supported) :
    piece.printed = piece.output := by
  cases piece with
  | text ch isPlain => rfl
  | percent => rfl
  | character width val =>
      have noBlank : width - 1 = 0 := Nat.sub_eq_zero_of_le supported
      simp [Piece.printed, Piece.output, justify, noBlank]
  | string width chars noNul =>
      have noWidth : width = 0 := supported
      simp [Piece.printed, Piece.output, justify, noWidth]
  | number flags width base val isInt =>
      have isRead : leftover flags = none := leftover_eq_none.mpr supported
      simp only [Piece.printed, Piece.output, isRead]

theorem printed_eq_output (supported : ∀ piece ∈ pieces, piece.Supported) :
    printed pieces = output pieces :=
  List.flatMap_congr fun piece member => (supported piece member).printed_eq

/-- A supported format is printed as C99 says, if the length is an `int`. -/
theorem meets_of_supported (notNegative : 0 ≤ n)
    (supported : ∀ piece ∈ pieces, piece.Supported)
    (isShort : ((output pieces).length : Int) ≤ intMax) : Meets n pieces extra := by
  rw [Meets, snprintf_eq notNegative pieces extra (width_le isShort), printed_eq_output supported,
    wrap_eq (by omega) isShort]

/-- If the call does what C99 says and all fits, the loop writes the output. -/
theorem Meets.printed_eq {n : Int} (meets : Meets n pieces extra)
    (fits : ((output pieces).length : Int) < n - 1) (isInt : n ≤ intMax) :
    printed pieces = output pieces := by
  have isShort : ((output pieces).length : Int) ≤ intMax := by omega
  rw [Meets, snprintf_eq (by omega) pieces extra (width_le isShort), Option.some.injEq,
    Prod.mk.injEq] at meets
  have isSame : (printed pieces).take (n - 1).toNat ++ ['\x00'] =
      (output pieces).take (n - 1).toNat ++ ['\x00'] := by
    apply List.ext_getElem?
    intro i
    have isByte := congrFun meets.2 i
    rwa [written, written, if_pos (by omega), if_pos (by omega)] at isByte
  have isTaken := List.append_cancel_right isSame
  rw [List.take_of_length_le (by omega : (output pieces).length ≤ (n - 1).toNat)] at isTaken
  have isLength := congrArg List.length isTaken
  rw [List.length_take] at isLength
  rwa [List.take_of_length_le (by omega)] at isTaken

/-- The returned length is an `int`. -/
theorem fmtbufWriteStr_len (fmtbuf : Fmtbuf) (str : List Char) (l : Int) :
    (fmtbufWriteStr fmtbuf str l).len ≤ intMax := by
  rw [fmtbufWriteStr]
  dsimp only
  split_ifs <;> exact wrap_le _

theorem fmtbufWriteChar_len (fmtbuf : Fmtbuf) (ch : Char) :
    (fmtbufWriteChar fmtbuf ch).len ≤ intMax := by
  rw [fmtbufWriteChar]
  dsimp only
  split_ifs <;> exact wrap_le _

theorem format_len (fmtbuf : Fmtbuf) (val width : Int) (zeropad : Bool) (base : Base)
    (alternateForm : Bool) :
    (format fmtbuf val width zeropad base alternateForm).len ≤ intMax := by
  have ends (fmtbuf : Fmtbuf) (pb : List Char) (pbi : Nat) (width : Int) (zeropad : Bool) :
      (padded fmtbuf pb pbi width zeropad).len ≤ intMax := fmtbufWriteStr_len _ _ _
  rw [format.eq_def]
  cases base with
  | octal =>
      dsimp only
      split_ifs <;> exact ends _ _ _ _ _
  | decimal =>
      dsimp only
      split_ifs <;> exact ends _ _ _ _ _
  | hexadecimal =>
      dsimp only
      split_ifs <;> exact ends _ _ _ _ _

theorem convert_len {fmtbuf fmtbuf' : Fmtbuf} {ch : Char} {pp zp : Bool} {w : Int}
    {v : Option Argument} (isInt : fmtbuf.len ≤ intMax)
    (isOk : convert fmtbuf ch pp zp w v = some fmtbuf') : fmtbuf'.len ≤ intMax := by
  rw [convert.eq_def] at isOk
  split at isOk
  · cases isOk
    exact fmtbufWriteStr_len _ _ _
  · cases isOk
    exact fmtbufWriteChar_len _ _
  · cases isOk
    exact format_len _ _ _ _ _ _
  · cases isOk
    exact format_len _ _ _ _ _ _
  · cases isOk
    exact format_len _ _ _ _ _ _
  · split_ifs at isOk
    cases isOk
    exact isInt

theorem formatLoop_len {fuel : Nat} {text : List Char} {args : List Argument}
    {fmtbuf fmtbuf' : Fmtbuf} (isInt : fmtbuf.len ≤ intMax)
    (isOk : formatLoop fuel text args fmtbuf = some fmtbuf') : fmtbuf'.len ≤ intMax := by
  induction fuel generalizing text args fmtbuf with
  | zero =>
      cases text with
      | nil =>
          cases isOk
          exact isInt
      | cons ch text => cases isOk
  | succ fuel inductionHypothesis =>
      cases text with
      | nil =>
          cases isOk
          exact isInt
      | cons ch text =>
          rw [formatLoop] at isOk
          split_ifs at isOk with isPlain
          · exact inductionHypothesis (fmtbufWriteChar_len _ _) isOk
          · dsimp only at isOk
            split at isOk
            · cases isOk
            · split_ifs at isOk
              · exact inductionHypothesis (fmtbufWriteChar_len _ _) isOk
              · obtain ⟨converted, isConverted, isRest⟩ := Option.bind_eq_some_iff.mp isOk
                exact inductionHypothesis (convert_len isInt isConverted) isRest

theorem Meets.length_le (meets : Meets n pieces extra) :
    ((output pieces).length : Int) ≤ intMax := by
  obtain ⟨fmtbuf, isFormatted, isResult⟩ := Option.bind_eq_some_iff.mp meets
  obtain ⟨fmtbuf', isLoop, isEnd⟩ := Option.bind_eq_some_iff.mp isFormatted
  have start : (0 : Int) ≤ intMax := by decide
  have isInt : fmtbuf'.len ≤ intMax := formatLoop_len start isLoop
  have isLength : fmtbuf.len = (output pieces).length :=
    congrArg Prod.fst (Option.some.inj isResult)
  rw [← isLength]
  split_ifs at isEnd <;> cases isEnd <;> exact isInt

theorem Base.field_length (base : Base) (val : Int) (width : Nat) (zero alternate : Bool) :
    (base.field val width zero alternate).length =
      max width ((base.sign val alternate).length + (base.digits val alternate).length) := by
  rw [Base.field]
  split_ifs <;> simp only [List.length_append, List.length_replicate] <;> omega

/-- Zero and one have different fields. -/
theorem Base.field_ne (base : Base) (width : Nat) (zero alternate : Bool) :
    base.field 0 width zero alternate ≠ base.field 1 width zero alternate := by
  have isLast (val : Int) : (base.field val width zero alternate).getLast? =
      (base.digits val alternate).getLast? := by
    have isDigits : base.digits val alternate ≠ [] := by
      rw [Base.digits]
      split_ifs
      · exact List.cons_ne_nil _ _
      · exact Nat.toDigits_ne_nil
    rw [Base.field]
    split_ifs
    · rw [← List.append_assoc, List.getLast?_append_of_ne_nil _ isDigits]
    · rw [← List.append_assoc, List.getLast?_append_of_ne_nil _ isDigits]
  intro isSame
  have isDigit := congrArg List.getLast? isSame
  rw [isLast, isLast] at isDigit
  revert isDigit
  cases base <;> cases alternate <;> decide

theorem Base.sign_digits_le (base : Base) (alternate : Bool) :
    (base.sign 0 alternate).length + (base.digits 0 alternate).length ≤ 3 ∧
      (base.sign 1 alternate).length + (base.digits 1 alternate).length ≤ 3 := by
  cases base <;> cases alternate <;> decide

theorem Base.digits_pos (base : Base) (val : Int) (alternate : Bool) :
    0 < (base.digits val alternate).length := by
  rw [Base.digits]
  split_ifs
  · exact Nat.succ_pos _
  · exact Nat.length_toDigits_pos

/-- The loop writes something else than C99 says for one of two arguments, whatever stands behind
the conversion. -/
theorem Piece.exists_unlike {piece : Piece} (unsupported : ¬piece.Supported) :
    ∃ first second : Piece, (first.spelling = piece.spelling ∧ second.spelling = piece.spelling) ∧
      (first.output.length ≤ piece.output.length + 2 ∧
        second.output.length ≤ piece.output.length + 2) ∧
      ∀ rest rest', ¬(first.printed ++ rest = first.output ++ rest' ∧
        second.printed ++ rest = second.output ++ rest') := by
  cases piece with
  | text ch isPlain => exact absurd trivial unsupported
  | percent => exact absurd trivial unsupported
  | character width val =>
      obtain ⟨width, rfl⟩ := Nat.exists_eq_add_of_lt (not_le.mp unsupported)
      refine ⟨.character _ 97, .character _ 97, ⟨rfl, rfl⟩, ?_, ?_⟩
      · simp [Piece.output, justify]
      · rintro rest rest' ⟨isSame, -⟩
        rw [Piece.printed, Piece.output, justify, List.length_singleton,
          show 1 + width + 1 - 1 = width + 1 by omega, List.replicate_succ] at isSame
        cases isSame
  | string width chars noNul =>
      have isWidth : width ≠ 0 := unsupported
      refine ⟨.string width [] (by simp), .string width ['a'] (by decide), ⟨rfl, rfl⟩, ?_, ?_⟩
      · simp only [Piece.output, justify, List.length_append, List.length_replicate,
          List.length_nil, List.length_singleton]
        omega
      · rintro rest rest' ⟨isSame, isSame'⟩
        have isLength := congrArg List.length isSame
        have isLength' := congrArg List.length isSame'
        simp only [Piece.printed, Piece.output, justify, List.length_append,
          List.length_replicate, List.length_nil, List.length_singleton] at isLength isLength'
        omega
  | number flags width base val isInt =>
      refine ⟨.number flags width base 0 (by decide), .number flags width base 1 (by decide),
        ⟨rfl, rfl⟩, ?_, ?_⟩
      · have small := base.sign_digits_le (flags.contains .alternate)
        have positive := base.digits_pos val (flags.contains .alternate)
        simp only [Piece.output, Base.field_length]
        omega
      · rintro rest rest' ⟨isSame, isSame'⟩
        cases isRead : leftover flags with
        | none => exact absurd (leftover_eq_none.mp isRead) unsupported
        | some left =>
            simp only [Piece.printed, isRead] at isSame isSame'
            exact base.field_ne width _ _ (List.append_cancel_right (isSame.symm.trans isSame'))

theorem exists_first (unsupported : ¬∀ piece ∈ pieces, piece.Supported) :
    ∃ front piece back, pieces = front ++ piece :: back ∧ (∀ piece ∈ front, piece.Supported) ∧
      ¬piece.Supported := by
  induction pieces with
  | nil => exact absurd (by simp) unsupported
  | cons piece pieces inductionHypothesis =>
      by_cases supported : piece.Supported
      · have unsupported' : ¬∀ piece ∈ pieces, piece.Supported :=
          fun others => unsupported (List.forall_mem_cons.mpr ⟨supported, others⟩)
        obtain ⟨front, other, back, rfl, isFront, isOther⟩ := inductionHypothesis unsupported'
        exact ⟨piece :: front, other, back, rfl, List.forall_mem_cons.mpr ⟨supported, isFront⟩,
          isOther⟩
      · exact ⟨[], piece, pieces, rfl, by simp, supported⟩

/-- Near any arguments of a format that is not supported there are ones for which the call does
not do what C99 says. -/
theorem exists_not_meets (unsupported : ¬∀ piece ∈ pieces, piece.Supported)
    (isShort : ((output pieces).length : Int) + 4 ≤ intMax) :
    ∃ pieces', spelling pieces' = spelling pieces ∧ ((output pieces').length : Int) ≤ intMax ∧
      ¬Meets intMax pieces' [] := by
  obtain ⟨front, piece, back, rfl, isFront, isPiece⟩ := exists_first unsupported
  obtain ⟨first, second, isSpelled, isLength, unlike⟩ := Piece.exists_unlike isPiece
  have spelled {other : Piece} (isSame : other.spelling = piece.spelling) :
      spelling (front ++ other :: back) = spelling (front ++ piece :: back) := by
    simp only [spelling, List.flatMap_append, List.flatMap_cons, isSame]
  have short {other : Piece} (isLength : other.output.length ≤ piece.output.length + 2) :
      ((output (front ++ other :: back)).length : Int) + 2 ≤ intMax := by
    simp only [output, List.flatMap_append, List.flatMap_cons, List.length_append] at isShort ⊢
    omega
  have same {other : Piece} (isLength : other.output.length ≤ piece.output.length + 2)
      (meets : Meets intMax (front ++ other :: back) []) :
      other.printed ++ printed back = other.output ++ output back := by
    have isPrinted := meets.printed_eq (by have := short isLength; omega) (le_refl _)
    rw [printed, output, List.flatMap_append, List.flatMap_append, List.flatMap_cons,
      List.flatMap_cons] at isPrinted
    have isFront := printed_eq_output isFront
    rw [printed, output] at isFront
    rw [isFront] at isPrinted
    exact List.append_cancel_left isPrinted
  by_cases meets : Meets intMax (front ++ first :: back) []
  · refine ⟨front ++ second :: back, spelled isSpelled.2, by have := short isLength.2; omega, ?_⟩
    intro meets'
    exact unlike _ _ ⟨same isLength.1 meets, same isLength.2 meets'⟩
  · exact ⟨front ++ first :: back, spelled isSpelled.1, by have := short isLength.1; omega, meets⟩

/-- The call does what C99 says for the supported formats and the lengths that are an `int`, and
for no format of another kind with all its arguments. -/
theorem meets_iff (pieces : List Piece) :
    (∀ extra n, 0 ≤ n → n ≤ intMax → (∀ piece ∈ pieces, Piece.Supported piece) →
      (Meets n pieces extra ↔ ((output pieces).length : Int) ≤ intMax)) ∧
      ((¬∀ piece ∈ pieces, Piece.Supported piece) →
        ((output pieces).length : Int) + 4 ≤ intMax →
          ∃ pieces', spelling pieces' = spelling pieces ∧
            ((output pieces').length : Int) ≤ intMax ∧ ¬Meets intMax pieces' []) :=
  ⟨fun _ _ notNegative _ supported =>
    ⟨Meets.length_le, meets_of_supported notNegative supported⟩,
    exists_not_meets⟩

/-- `%#06x` of 255 in nine bytes. -/
theorem hexadecimal_meets :
    Meets 9 [.number [.alternate, .zero] 6 .hexadecimal 255 (by decide)] [] :=
  ((meets_iff _).1 [] 9 (by decide) (by decide) (by simp [Piece.Supported])).mpr (by decide)

/-- `%0#x` of 255 prints the `x`. -/
theorem swapped_not_meets :
    snprintf 50 ['%', '0', '#', 'x'] [.int 255] = some (1, written 50 ['x']) ∧
      ¬Meets 50 [.number [.zero, .alternate] 0 .hexadecimal 255 (by decide)] [] := by
  have result := @snprintf_eq 50 (by decide)
    [.number [.zero, .alternate] 0 .hexadecimal 255 (by decide)] [] (by simp [Piece.width, intMax])
  refine ⟨result, ?_⟩
  rw [Meets, result, Option.some.injEq, Prod.mk.injEq]
  rintro ⟨isLength, -⟩
  revert isLength
  decide

end Contract

end Shecc.Libc
