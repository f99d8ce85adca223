import Shecc.Lexer.Spans

/-!
# String literals

A literal is lexed up to its quote, its escapes are undone, and the characters it
stands for are placed in the read-only data with a NUL behind them.
-/

namespace Shecc.Lexer

open Shecc.Preprocessor (Token TokenKind SourceLocation Failure Cursor maxTokenLen maxLineLen)

/-! ## Escapes -/

/-- The escapes of one letter. -/
def simpleEscapes : List (Char × Char) :=
  [('a', '\x07'), ('b', '\x08'), ('f', '\x0c'), ('e', '\x1b'), ('n', '\n'), ('r', '\r'),
    ('t', '\t'), ('v', '\x0b'), ('\\', '\\'), ('\'', '\''), ('"', '"'), ('?', '?')]

/-- `hex_digit_value`. -/
def hexDigitValue (ch : Char) : Int :=
  if '0' ≤ ch ∧ ch ≤ '9' then ch.toNat - '0'.toNat
  else if 'a' ≤ ch ∧ ch ≤ 'f' then ch.toNat - 'a'.toNat + 10
  else if 'A' ≤ ch ∧ ch ≤ 'F' then ch.toNat - 'A'.toNat + 10
  else -1

/-- `input[i] >= '0' && input[i] <= '7'`. -/
def isOctal (ch : Char) : Bool := '0' ≤ ch && ch ≤ '7'

/-- Up to `count` accepted characters, and what is behind them. -/
def takeDigits (accept : Char → Bool) : (count : Nat) → List Char → List Char × List Char
  | 0, input => ([], input)
  | _ + 1, [] => ([], [])
  | count + 1, ch :: input =>
      if accept ch then
        let digits := takeDigits accept count input
        (ch :: digits.1, digits.2)
      else ([], ch :: input)

/-- The value of the digits of a hexadecimal escape. -/
def hexValue (digits : List Char) : Int :=
  digits.foldl (fun value digit => value * 16 + hexDigitValue digit) 0

/-- The value of the digits of an octal escape. -/
def octalValue (digits : List Char) : Int :=
  digits.foldl (fun value digit => value * 8 + (digit.toNat - '0'.toNat)) 0

/-- `(char) value`. -/
def toChar (value : Int) : Char := Char.ofNat (value % 256).toNat

/-- The `switch` of `unescape_string`, from behind a backslash on: the character and the rest
of the input, or none if the function returns. The NUL is a character to it. -/
def unescape : List Char → Except Failure (Option (Char × List Char))
  | [] => .error .outOfBounds
  | ch :: input =>
      match simpleEscapes.lookup ch with
      | some escaped => .ok (some (escaped, input))
      | none =>
          if ch = 'x' then
            match takeDigits isXDigit 2 input with
            | ([], _) => .ok none
            | (digits, rest) => .ok (some (toChar (hexValue digits), rest))
          else if isOctal ch then
            let digits := takeDigits isOctal 3 (ch :: input)
            .ok (some (toChar (octalValue digits.1), digits.2))
          else .ok (some (ch, input))

/-- The loop of `unescape_string`: what it stores and returns. `room` is what `j` may grow. -/
def unescapeLoop : (room : Nat) → (input output : List Char) → Except Failure (List Char × Int)
  | _, [], output => .ok (output ++ ['\x00'], output.length)
  | 0, _ :: _, output => .ok (output ++ ['\x00'], -1)
  | room + 1, ch :: input, output =>
      if ch = '\\' then
        match unescape input with
        | .error failure => .error failure
        | .ok none => .ok (output, -1)
        | .ok (some (escaped, rest)) => unescapeLoop room rest (output ++ [escaped])
      else unescapeLoop room input (output ++ [ch])

/-- `unescape_string`. -/
def unescapeString (input : List Char) (outputSize : Nat) : Except Failure (List Char × Int) :=
  if outputSize = 0 then .ok ([], -1) else unescapeLoop (outputSize - 1) input []

/-! ## Literals of a program -/

/-- `strlen` of a buffer, the string in it. -/
def stringOf : List Char → Except Failure (List Char)
  | [] => .error .outOfBounds
  | ch :: buffer => if ch = '\x00' then .ok [] else (stringOf buffer).map (ch :: ·)

/-- A token that the parser skips. -/
def isUnused (kind : TokenKind) : Bool :=
  kind = .whitespace ∨ kind = .newline ∨ kind = .tab

/-- `skip_unused_token`. -/
def skipUnusedToken : Token → List Token → Cursor
  | tk, [] => ⟨tk, []⟩
  | tk, next :: rest => if isUnused next.kind then skipUnusedToken next rest else ⟨tk, next :: rest⟩

/-- `lex_ident`. -/
def lexIdent (kind : TokenKind) (cur : Cursor) : Except Failure Cursor :=
  let cur := skipUnusedToken cur.tk cur.next
  match cur.next with
  | [] => .error (.errorAt "Unexpected token" cur.tk.location)
  | next :: rest =>
      if next.kind = kind then
        -- `lex_next` does not leave the end of the file
        if cur.tk.kind = .eof then .ok cur else .ok ⟨next, rest⟩
      else .error (.errorAt "Unexpected token" next.location)

/-- The loop of `read_literal_param` over the literals behind the first. -/
def readLiterals : (combined : List Char) → Token → List Token →
    Except Failure (List Char × Cursor)
  | combined, tk, [] => .ok (combined, ⟨tk, []⟩)
  | combined, tk, next :: rest =>
      if isUnused next.kind then readLiterals combined next rest
      else if next.kind = .string then do
        let (output, _) ← unescapeString next.literal.toList (maxLineLen - combined.length)
        let unescaped ← stringOf output
        if combined.length + unescaped.length ≥ maxLineLen - 1 then
          .error (.errorAt "Concatenated string literal too long" next.location)
        else readLiterals (combined ++ unescaped) next rest
      else .ok (combined, ⟨tk, next :: rest⟩)

/-- `write_symbol`: the index of the data, and the data section. -/
def writeSymbol (data rodata : List Char) : Nat × List Char :=
  (rodata.length, rodata ++ data ++ ['\x00'])

/-- `read_literal_param` up to the variable it makes: the index of the literal, the read-only
data, and the token it stops at. -/
def readLiteralParam (cur : Cursor) (rodata : List Char) :
    Except Failure ((Nat × List Char) × Cursor) := do
  let cur ← lexIdent .string cur
  let (output, _) ← unescapeString cur.tk.literal.toList maxLineLen
  let combined ← stringOf output
  let (combined, cur) ← readLiterals combined cur.tk cur.next
  return (writeSymbol combined rodata, cur)

/-! ## Writing a literal -/

/-- `text` writes the characters `s` in a string literal. -/
inductive Writes : (text s : List Char) → Prop
  | nil : Writes [] []
  | plain {text s : List Char} {ch : Char} (notQuote : ch ≠ '"') (notBackslash : ch ≠ '\\')
      (more : Writes text s) : Writes (ch :: text) (ch :: s)
  | simple {text s : List Char} {letter ch : Char} (isEscape : (letter, ch) ∈ simpleEscapes)
      (more : Writes text s) : Writes ('\\' :: letter :: text) (ch :: s)
  | hex {text s digits : List Char} (nonempty : digits ≠ []) (all : ∀ ch ∈ digits, isXDigit ch)
      (ended : digits.length = 2 ∨
        digits.length < 2 ∧ ∀ ch, text.head? = some ch → isXDigit ch = false)
      (more : Writes text s) :
      Writes ('\\' :: 'x' :: (digits ++ text)) (toChar (hexValue digits) :: s)
  | octal {text s digits : List Char} (nonempty : digits ≠ []) (all : ∀ ch ∈ digits, isOctal ch)
      (ended : digits.length = 3 ∨
        digits.length < 3 ∧ ∀ ch, text.head? = some ch → isOctal ch = false)
      (more : Writes text s) :
      Writes ('\\' :: (digits ++ text)) (toChar (octalValue digits) :: s)

section Writes

variable {text s : List Char}

theorem Writes.length_le (writes : Writes text s) : s.length ≤ text.length := by
  induction writes with
  | nil => simp
  | plain notQuote notBackslash more inductionHypothesis => simpa using inductionHypothesis
  | simple isEscape more inductionHypothesis =>
      simp only [List.length_cons]
      omega
  | hex nonempty all ended more inductionHypothesis =>
      simp only [List.length_cons, List.length_append]
      omega
  | octal nonempty all ended more inductionHypothesis =>
      have positive := List.length_pos_of_ne_nil nonempty
      simp only [List.length_cons, List.length_append]
      omega

/-- The loop over digits takes those of the escape. -/
theorem takeDigits_append {accept : Char → Bool} {count : Nat} {digits : List Char}
    (all : ∀ ch ∈ digits, accept ch)
    (ended : digits.length = count ∨
      digits.length < count ∧ ∀ ch, text.head? = some ch → accept ch = false) :
    takeDigits accept count (digits ++ text) = (digits, text) := by
  induction digits generalizing count with
  | nil =>
      cases count with
      | zero => rfl
      | succ count =>
          rcases ended with ⟨⟨⟩⟩ | ⟨-, notDigit⟩
          cases text with
          | nil => rfl
          | cons ch text => simp [takeDigits, notDigit ch rfl]
  | cons ch digits inductionHypothesis =>
      rw [List.forall_mem_cons] at all
      cases count with
      | zero => simp at ended
      | succ count =>
          have here := @inductionHypothesis count all.2 (by simpa using ended)
          simp [takeDigits, all.1, here]

theorem simpleEscapes_lookup : ∀ entry ∈ simpleEscapes,
    simpleEscapes.lookup entry.1 = some entry.2 := by
  decide

/-- An octal digit is the letter of no other escape. -/
theorem unescape_octal {ch : Char} {input : List Char} (octal : isOctal ch) :
    unescape (ch :: input) = .ok (some (toChar (octalValue (takeDigits isOctal 3 (ch :: input)).1),
      (takeDigits isOctal 3 (ch :: input)).2)) := by
  have notSimple : simpleEscapes.lookup ch = none := by
    have others : ∀ entry ∈ simpleEscapes, isOctal entry.1 = false := by
      decide
    rw [List.lookup_eq_none_iff]
    intro entry member
    rw [bne_iff_ne]
    rintro rfl
    cases octal.symm.trans (others entry member)
  have notHex : ch ≠ 'x' := by
    rintro rfl
    cases octal
  simp only [unescape, notSimple, if_neg notHex, if_pos octal]

theorem unescape_hex {digits : List Char} (nonempty : digits ≠ [])
    (all : ∀ ch ∈ digits, isXDigit ch)
    (ended : digits.length = 2 ∨
      digits.length < 2 ∧ ∀ ch, text.head? = some ch → isXDigit ch = false) :
    unescape ('x' :: (digits ++ text)) = .ok (some (toChar (hexValue digits), text)) := by
  have notSimple : simpleEscapes.lookup 'x' = none := by
    decide
  simp only [unescape, notSimple, if_pos, takeDigits_append all ended]

/-- A round of the loop over an escape. -/
theorem unescapeLoop_escape {room : Nat} {input rest output : List Char} {ch : Char}
    (isEscape : unescape input = .ok (some (ch, rest))) :
    unescapeLoop (room + 1) ('\\' :: input) output = unescapeLoop room rest (output ++ [ch]) := by
  rw [unescapeLoop, if_pos rfl, isEscape]

/-- Every escape is undone. -/
theorem Writes.unescapeLoop_eq {room : Nat} (writes : Writes text s) (fits : s.length ≤ room)
    (output : List Char) :
    unescapeLoop room text output =
      .ok (output ++ s ++ ['\x00'], ((output ++ s).length : Nat)) := by
  induction writes generalizing room output with
  | nil => cases room <;> simp [unescapeLoop]
  | @plain text s ch notQuote notBackslash more inductionHypothesis =>
      cases room with
      | zero => cases fits
      | succ room =>
          rw [unescapeLoop, if_neg notBackslash,
            inductionHypothesis (Nat.le_of_succ_le_succ fits), ← List.append_cons]
  | @simple text s letter ch isEscape more inductionHypothesis =>
      cases room with
      | zero => cases fits
      | succ room =>
          have isLetter : unescape (letter :: text) = .ok (some (ch, text)) := by
            simp only [unescape, simpleEscapes_lookup _ isEscape]
          rw [unescapeLoop_escape isLetter, inductionHypothesis (Nat.le_of_succ_le_succ fits),
            ← List.append_cons]
  | @hex text s digits nonempty all ended more inductionHypothesis =>
      cases room with
      | zero => cases fits
      | succ room =>
          rw [unescapeLoop_escape (unescape_hex nonempty all ended),
            inductionHypothesis (Nat.le_of_succ_le_succ fits), ← List.append_cons]
  | @octal text s digits nonempty all ended more inductionHypothesis =>
      cases room with
      | zero => cases fits
      | succ room =>
          have isDigits : unescape (digits ++ text) =
              .ok (some (toChar (octalValue digits), text)) := by
            rcases digits with _ | ⟨ch, digits⟩
            · cases nonempty rfl
            · rw [List.cons_append, unescape_octal (all ch (List.mem_cons_self ..)),
                ← List.cons_append, takeDigits_append all ended]
          rw [unescapeLoop_escape isDigits, inductionHypothesis (Nat.le_of_succ_le_succ fits),
            ← List.append_cons]

theorem stringBody_escape {special : Bool} {letter : Char} :
    stringBody special ('\\' :: letter :: text) =
      '\\' :: letter :: stringBody (letter == '\\') text := by
  rw [stringBody_goesOn (.inl (by decide)), beq_self_eq_true, stringBody_goesOn (.inr rfl)]

theorem stringBody_digits {special : Bool} {digits : List Char} (nonempty : digits ≠ [])
    (all : ∀ ch ∈ digits, ch ≠ '"' ∧ ch ≠ '\\') :
    stringBody special (digits ++ text) = digits ++ stringBody false text := by
  induction digits generalizing special with
  | nil => cases nonempty rfl
  | cons ch digits inductionHypothesis =>
      rw [List.forall_mem_cons] at all
      rw [List.cons_append, stringBody_goesOn (.inl all.1.1), beq_eq_false_iff_ne.mpr all.1.2]
      cases digits with
      | nil => rfl
      | cons next digits =>
          rw [inductionHypothesis (List.cons_ne_nil _ _) all.2]
          rfl

/-- The last character of what is behind is the last of all. -/
theorem getLast_behind {front : List Char} (notLast : (front ++ text).getLast? ≠ some '\\') :
    text.getLast? ≠ some '\\' := by
  intro isLast
  rw [List.getLast?_append, isLast] at notLast
  exact notLast rfl

theorem isXDigit_plain {ch : Char} (isDigit : isXDigit ch) : ch ≠ '"' ∧ ch ≠ '\\' := by
  constructor
  · rintro rfl
    cases isDigit
  · rintro rfl
    cases isDigit

theorem isOctal_plain {ch : Char} (isDigit : isOctal ch) : ch ≠ '"' ∧ ch ≠ '\\' := by
  constructor
  · rintro rfl
    cases isDigit
  · rintro rfl
    cases isDigit

/-- A text that writes `s` has quotes only behind backslashes, so its literal ends behind it
unless a backslash is its last character. -/
theorem Writes.stringBody_eq (writes : Writes text s) {special : Bool} {behind : List Char}
    (empty : text = [] → special = false) (notLast : text.getLast? ≠ some '\\') :
    stringBody special (text ++ '"' :: behind) = text := by
  induction writes generalizing special with
  | nil => simp [stringBody, empty rfl]
  | @plain text s ch notQuote notBackslash more inductionHypothesis =>
      rw [List.cons_append, stringBody_goesOn (.inl notQuote),
        beq_eq_false_iff_ne.mpr notBackslash]
      rw [inductionHypothesis (fun _ => rfl) (@getLast_behind text [ch] notLast)]
  | @simple text s letter ch isEscape more inductionHypothesis =>
      rw [List.cons_append, List.cons_append, stringBody_escape, inductionHypothesis]
      · rintro rfl
        simpa using notLast
      · exact @getLast_behind text ['\\', letter] notLast
  | @hex text s digits nonempty all ended more inductionHypothesis =>
      rw [List.cons_append, List.cons_append, stringBody_escape, List.append_assoc,
        stringBody_digits nonempty fun ch member => isXDigit_plain (all ch member)]
      rw [inductionHypothesis (fun _ => rfl)]
      exact @getLast_behind text ('\\' :: 'x' :: digits) notLast
  | @octal text s digits nonempty all ended more inductionHypothesis =>
      rw [List.cons_append, List.append_assoc, stringBody_goesOn (.inl (by decide)),
        stringBody_digits nonempty fun ch member => isOctal_plain (all ch member)]
      rw [inductionHypothesis (fun _ => rfl)]
      exact @getLast_behind text ('\\' :: digits) notLast

/-- Behind a backslash the literal does not end. -/
theorem stringBody_last {special : Bool} {behind : List Char}
    (isBody : stringBody special (text ++ '"' :: behind) = text) :
    text.getLast? ≠ some '\\' := by
  induction text generalizing special with
  | nil => simp
  | cons ch text inductionHypothesis =>
      rw [List.cons_append, stringBody] at isBody
      split_ifs at isBody
      rw [List.cons_inj_right] at isBody
      cases text with
      | nil =>
          intro isLast
          obtain rfl : ch = '\\' := Option.some_inj.mp isLast
          simp [stringBody] at isBody
      | cons next text =>
          rw [List.getLast?_cons_cons]
          exact inductionHypothesis isBody

end Writes

/-! ## Lexing a literal -/

section Lexing

variable {text s before behind buffer : List Char} {st : State} {fuel room : Nat}

/-- The loop over a literal that fits reads it. -/
theorem readString_ok {special : Bool}
    (reading : Reading before ('"' :: buffer) (text ++ '"' :: behind) st)
    (isBody : stringBody special (text ++ '"' :: behind) = text)
    (isRoom : room + buffer.length = maxTokenLen)
    (fits : (buffer ++ text).length < maxTokenLen) :
    ∃ st', readString room buffer special ((text ++ '"' :: behind).headD '\x00') st =
      .ok (buffer ++ text, st') ∧ Reading before ('"' :: (buffer ++ text)) ('"' :: behind) st' := by
  rw [List.length_append] at fits
  induction text generalizing room buffer special st with
  | nil =>
      cases room with
      | zero => omega
      | succ room =>
          refine ⟨st, ?_, by rwa [List.append_nil]⟩
          rw [List.nil_append, stringBody] at isBody
          split_ifs at isBody with isEnd
          rw [List.nil_append, List.headD_cons, readString, if_neg, List.append_nil]
          · rfl
          · simp [isEnd.2]
  | cons ch text inductionHypothesis =>
      rw [List.length_cons] at fits
      rw [List.cons_append, stringBody] at isBody
      split_ifs at isBody with isEnd
      rw [List.cons_inj_right] at isBody
      cases room with
      | zero => omega
      | succ room =>
          have goesOn : ch ≠ '"' ∨ special = true := by
            by_contra ended
            rw [not_or, not_not, Bool.not_eq_true] at ended
            exact isEnd ended
          have isShort : ¬ (buffer.getLast? ≠ some '\\' ∧ buffer.length ≥ maxTokenLen - 1) := by
            omega
          rcases reading.readChar_eq with ⟨st₁, isOk, reading₁⟩
          have room₁ : room + (buffer ++ [ch]).length = maxTokenLen := by
            rw [List.length_append, List.length_singleton]
            omega
          have fits₁ : (buffer ++ [ch]).length + text.length < maxTokenLen := by
            rw [List.length_append, List.length_singleton]
            omega
          rcases @inductionHypothesis (buffer ++ [ch]) st₁ room _ reading₁ isBody room₁ fits₁ with
            ⟨st', isOk', reading'⟩
          rw [← List.append_cons] at isOk' reading'
          refine ⟨st', ?_, reading'⟩
          rw [List.cons_append, List.headD_cons, readString, if_pos goesOn, if_neg isShort, ← isOk']
          change (readChar st).bind _ = _
          rw [isOk]
          rfl

/-- A quote starts a string literal. -/
theorem lexToken_quote {ahead : List Char} (at_ : At before ('"' :: ahead) st) :
    ∃ st', Reading before [] ('"' :: ahead) st' ∧ lexToken (fuel + 1) st = lexString st' := by
  refine ⟨{ st with loc := { st.loc with pos := st.buf.size } }, ?_, ?_⟩
  · constructor
    · simpa using at_.elements
    · simpa using at_.size
    · simpa using at_.noNul
    · simp [at_.size]
  · have isChar : peekChar 0 st = .ok ('"', st) := by
      rw [peekChar, at_.elements, at_.size, List.append_assoc, getD_behind]
      rfl
    rw [lexToken, bind_eq isChar]
    rfl

/-- A literal that ends behind its text is lexed to it. -/
theorem lexString_ok (reading : Reading before [] ('"' :: (text ++ '"' :: behind)) st)
    (isBody : stringBody false (text ++ '"' :: behind) = text) (fits : text.length < maxTokenLen) :
    ∃ token st', lexString st = .ok (token, st') ∧ token.kind = .string ∧
      token.literal.toList = text ∧ At (before ++ '"' :: text ++ ['"']) behind st' := by
  rcases reading.readChar_eq with ⟨st₁, isOk₁, reading₁⟩
  rcases @readString_ok text before behind [] st₁ maxTokenLen false reading₁ isBody rfl fits with
    ⟨st₂, isOk₂, reading₂⟩
  rcases reading₂.readChar_eq with ⟨st₃, isOk₃, reading₃⟩
  have noNul : '\x00' ∉ text := by
    have noNul := reading₃.taken_noNul
    simp only [List.nil_append, List.mem_append, List.mem_cons, not_or] at noNul
    exact noNul.1.2
  rw [lexString, bind_eq isOk₁, bind_eq isOk₂, bind_eq isOk₃, List.nil_append,
    internString_eq noNul]
  refine ⟨_, _, rfl, rfl, String.toList_ofList, ?_⟩
  constructor
  · simpa using reading₃.elements
  · simpa using reading₃.size
  · simpa using reading₃.noNul

/-- The literal of a string token is the text up to its quote. -/
theorem lexString_literal {ahead : List Char} (reading : Reading before [] ('"' :: ahead) st) :
    Ends True (fun token _ => token.literal.toList = stringBody false ahead) (lexString st) := by
  apply Ends.bind reading.readChar
  rintro next st₁ ⟨rfl, reading₁⟩
  have ends := @readString_ends before ahead st₁ maxTokenLen [] false reading₁ rfl (by decide)
  apply Ends.bind (ends.weaken (fun _ => trivial) fun _ _ => id)
  rintro buffer st₂ ⟨rfl, -, rest, -, reading₂⟩
  have noNul : '\x00' ∉ stringBody false ahead := by
    have noNul := reading₂.taken_noNul
    simp only [List.nil_append, List.mem_cons, not_or] at noNul
    exact noNul.2
  apply Ends.bind reading₂.readChar
  intro next st₃ _
  rw [List.nil_append, internString_eq noNul]
  exact String.toList_ofList

/-! ## Placing a literal -/

theorem stringOf_append (noNul : '\x00' ∉ s) : stringOf (s ++ ['\x00']) = .ok s := by
  induction s with
  | nil => rfl
  | cons ch s inductionHypothesis =>
      rw [List.mem_cons, not_or] at noNul
      rw [List.cons_append, stringOf, if_neg (Ne.symm noNul.1), inductionHypothesis noNul.2]
      rfl

/-- Without a literal behind it nothing is added. -/
theorem readLiterals_skip {combined : List Char} {tk : Token} {next : List Token}
    (alone : ∀ other ∈ (skipUnusedToken tk next).next.head?, other.kind ≠ .string) :
    readLiterals combined tk next = .ok (combined, skipUnusedToken tk next) := by
  induction next generalizing tk with
  | nil => rfl
  | cons other rest inductionHypothesis =>
      rw [skipUnusedToken] at alone ⊢
      rw [readLiterals]
      split_ifs at alone ⊢ with isUnused_ isString
      · exact inductionHypothesis alone
      · exact absurd isString (alone other rfl)
      · rfl

theorem readLiteralParam_eq {cur token : Token} {next : List Token} {rodata : List Char}
    (writes : Writes token.literal.toList s) (noNul : '\x00' ∉ s) (fits : s.length < maxLineLen)
    (isString : token.kind = .string) (notEof : cur.kind ≠ .eof)
    (alone : ∀ other ∈ (skipUnusedToken token next).next.head?, other.kind ≠ .string) :
    readLiteralParam ⟨cur, token :: next⟩ rodata =
      .ok ((rodata.length, rodata ++ s ++ ['\x00']), skipUnusedToken token next) := by
  have isIdent : lexIdent .string ⟨cur, token :: next⟩ = .ok ⟨token, next⟩ := by
    have isUsed : isUnused .string = false := rfl
    simp [lexIdent, skipUnusedToken, isUsed, isString, notEof]
  have isOutput : unescapeString token.literal.toList maxLineLen =
      .ok (s ++ ['\x00'], (s.length : Nat)) := by
    rw [unescapeString, if_neg (by decide),
      writes.unescapeLoop_eq (Nat.le_sub_one_of_lt fits), List.nil_append]
  simp only [readLiteralParam, isIdent, isOutput, stringOf_append noNul, readLiterals_skip alone,
    bind, Except.bind, pure, Except.pure, writeSymbol]

/-- A literal that writes `s` is lexed to its quote, its escapes are undone and `s` is placed
with a NUL behind it exactly if no backslash is the last character of the literal. -/
theorem literal_roundTrips_iff (writes : Writes text s) (noNul : '\x00' ∉ s)
    (fits : text.length < maxTokenLen) (at_ : At before ('"' :: (text ++ '"' :: behind)) st) :
    (∃ token st', lexToken (fuel + 1) st = .ok (token, st') ∧ token.kind = .string ∧
      token.literal.toList = text ∧ At (before ++ '"' :: text ++ ['"']) behind st' ∧
      unescapeString token.literal.toList maxTokenLen = .ok (s ++ ['\x00'], (s.length : Nat)) ∧
      ∀ cur next rodata, cur.kind ≠ .eof →
        (∀ other ∈ (skipUnusedToken token next).next.head?, other.kind ≠ .string) →
        readLiteralParam ⟨cur, token :: next⟩ rodata =
          .ok ((rodata.length, rodata ++ s ++ ['\x00']), skipUnusedToken token next)) ↔
    text.getLast? ≠ some '\\' := by
  rcases lexToken_quote at_ with ⟨st₁, reading, isString⟩
  rw [isString]
  have short : s.length < maxTokenLen := Nat.lt_of_le_of_lt writes.length_le fits
  constructor
  · rintro ⟨token, st', isOk, -, isText, -⟩
    have isLiteral := lexString_literal reading
    rw [isOk] at isLiteral
    exact stringBody_last (isLiteral.symm.trans isText)
  · intro notLast
    have isBody := @Writes.stringBody_eq _ _ writes false behind (fun _ => rfl) notLast
    rcases lexString_ok reading isBody fits with ⟨token, st', isOk, isKind, isText, at'⟩
    subst isText
    refine ⟨token, st', isOk, isKind, rfl, at', ?_, ?_⟩
    · rw [unescapeString, if_neg (by decide),
        writes.unescapeLoop_eq (Nat.le_sub_one_of_lt short), List.nil_append]
    · intro cur next rodata notEof alone
      exact readLiteralParam_eq writes noNul short isKind notEof alone

end Lexing

/-- The text `a` and the escape of a newline write `a` and a newline. -/
theorem newline_writes : Writes ['a', '\\', 'n'] ['a', '\n'] :=
  .plain (by decide) (by decide) (.simple (by decide) .nil)

theorem newline_roundTrips_iff :
    (∃ token st', lexToken 1 (start "f" "\"a\\n\";\x00".toList) = .ok (token, st') ∧
      token.kind = .string ∧ token.literal.toList = ['a', '\\', 'n'] ∧
      At ([] ++ '"' :: ['a', '\\', 'n'] ++ ['"']) [';'] st' ∧
      unescapeString token.literal.toList maxTokenLen =
        .ok (['a', '\n'] ++ ['\x00'], (['a', '\n'].length : Nat)) ∧
      ∀ cur next rodata, cur.kind ≠ .eof →
        (∀ other ∈ (skipUnusedToken token next).next.head?, other.kind ≠ .string) →
        readLiteralParam ⟨cur, token :: next⟩ rodata =
          .ok ((rodata.length, rodata ++ ['a', '\n'] ++ ['\x00']), skipUnusedToken token next)) ↔
    ['a', '\\', 'n'].getLast? ≠ some '\\' :=
  literal_roundTrips_iff newline_writes (by decide) (by decide) ⟨rfl, rfl, by decide⟩

/-- The literal of a backslash does not end. -/
theorem backslash_not_roundTrips : ¬ ∀ (text s before behind : List Char) (st : State)
    (fuel : Nat), Writes text s → '\x00' ∉ s → text.length < maxTokenLen →
    At before ('"' :: (text ++ '"' :: behind)) st →
    ∃ token st', lexToken (fuel + 1) st = .ok (token, st') ∧ token.literal.toList = text := by
  intro all
  rcases all ['\\', '\\'] ['\\'] [] [';'] (start "f" "\"\\\\\";\x00".toList) 0
    (.simple (by decide) .nil) (by decide) (by decide) ⟨rfl, rfl, by decide⟩ with
    ⟨token, st', isOk, -⟩
  have isError : (lexToken 1 (start "f" "\"\\\\\";\x00".toList)).isOk = false := by
    decide +kernel
  rw [isOk] at isError
  cases isError

end Shecc.Lexer
