import Shecc.Lexer.Reading
import Shecc.Preprocessor.Constant

/-!
# The literals of tokens

Every literal fits into `token_buffer` with its NUL, and the literal of a number is one of C's.
-/

namespace Shecc.Lexer

open Shecc.Preprocessor (Token TokenKind SourceLocation Failure Denotes maxTokenLen)

/-- What the literal of a token looks like. -/
structure Form (kind : TokenKind) (literal : String) : Prop where
  short : literal.length < maxTokenLen
  numeric : kind = .numeric → ∃ value, Denotes literal.toList value

/-- The tokens a step makes have literals of their form. -/
def Forms (step : Lex Token) : Prop :=
  ∀ s s' token, step s = .ok (token, s') → Form token.kind token.literal

variable {α : Type} {s s' : State} {kind : TokenKind} {buffer : List Char}

/-! ## Steps -/

/-- A step and what follows it return together. -/
theorem bind_eq_ok {β : Type} {first : Lex α} {rest : α → Lex β} {result : β × State}
    (ran : (first >>= rest) s = .ok result) :
    ∃ value middle, first s = .ok (value, middle) ∧ rest value middle = .ok result := by
  change (first s).bind (fun result => rest result.1 result.2) = _ at ran
  cases before : first s with
  | error failure =>
      rw [before] at ran
      cases ran
  | ok middle =>
      rw [before] at ran
      exact ⟨middle.1, middle.2, rfl, ran⟩

theorem Forms.bind {first : Lex α} {rest : α → Lex Token}
    (forms : ∀ value, Forms (rest value)) : Forms (first >>= rest) := by
  intro s s' token ran
  rcases bind_eq_ok ran with ⟨value, middle, -, behind⟩
  exact forms value _ _ _ behind

theorem Forms.errorAt {msg : String} {set : SourceLocation → SourceLocation} :
    Forms (errorAt msg set) := by
  intro s s' token ran
  cases ran

theorem Forms.emit {literal : String} {len : Nat} (form : Form kind literal) :
    Forms (emit kind literal len) := by
  intro s s' token ran
  cases ran
  exact form

theorem Form.plain (notNumeric : kind ≠ .numeric) : Form kind "" where
  short := by decide
  numeric isNumeric := absurd isNumeric notNumeric

theorem Form.short_of {literal : String} (short : literal.length < maxTokenLen)
    (notNumeric : kind ≠ .numeric) : Form kind literal where
  short := short
  numeric isNumeric := absurd isNumeric notNumeric

theorem internString_length (buffer : List Char) :
    (internString buffer).length ≤ buffer.length := by
  rw [internString, String.length_ofList]
  exact (List.takeWhile_prefix _).length_le

/-! ## Punctuators -/

/-- The steps of a table. -/
def AllForms (longer : List (Char × Lex Token)) : Prop := ∀ entry ∈ longer, Forms entry.2

theorem AllForms.nil : AllForms [] := by
  simp [AllForms]

theorem AllForms.cons {ch : Char} {step : Lex Token} {longer : List (Char × Lex Token)}
    (forms : Forms step) (more : AllForms longer) : AllForms ((ch, step) :: longer) :=
  List.forall_mem_cons.mpr ⟨forms, more⟩

theorem AllForms.lookup {ch : Char} {step : Lex Token} {longer : List (Char × Lex Token)}
    (forms : AllForms longer) (isLonger : longer.lookup ch = some step) : Forms step := by
  rcases List.lookup_eq_some_iff.mp isLonger with ⟨before, behind, split, -⟩
  apply forms (ch, step)
  rw [split]
  exact List.mem_append_right before List.mem_cons_self

theorem Forms.follow {len : Nat} {longer : List (Char × Lex Token)}
    (notNumeric : kind ≠ .numeric) (forms : AllForms longer) : Forms (follow kind len longer) := by
  apply Forms.bind
  intro ch
  cases isLonger : longer.lookup ch with
  | none => exact .emit (.plain notNumeric)
  | some next => exact forms.lookup isLonger

theorem dots_forms : Forms dots := by
  apply Forms.bind
  intro ch
  apply Forms.bind
  intro next
  dsimp only
  split_ifs
  · apply Forms.bind
    intro _
    exact .emit (.plain (by decide))
  · exact .emit (.plain (by decide))

theorem punctuators_forms : AllForms punctuators := by
  repeat' first
    | exact dots_forms
    | apply AllForms.nil
    | apply AllForms.cons
    | apply Forms.follow
    | decide

/-! ## Words and numbers -/

/-- The loops put accepted characters behind those of the buffer, as many as there is room. -/
theorem readWhile_takes {accept : Char → Bool} {room : Nat} {ch : Char} {buffer' : List Char}
    (ran : readWhile accept room buffer ch s = .ok (buffer', s')) :
    ∃ more, buffer' = buffer ++ more ∧ more.length ≤ room ∧ ∀ c ∈ more, accept c = true := by
  induction room generalizing buffer ch s with
  | zero =>
      rw [readWhile] at ran
      split_ifs at ran
      · cases ran
      · cases ran
        exact ⟨[], (List.append_nil _).symm, le_refl _, by simp⟩
  | succ room inductionHypothesis =>
      rw [readWhile] at ran
      split_ifs at ran with accepted
      · rcases bind_eq_ok ran with ⟨next, middle, -, ran'⟩
        rcases inductionHypothesis ran' with ⟨more, rfl, short, all⟩
        exact ⟨ch :: more, (List.append_cons ..).symm, Nat.succ_le_succ short,
          List.forall_mem_cons.mpr ⟨accepted, all⟩⟩
      · cases ran
        exact ⟨[], (List.append_nil _).symm, Nat.zero_le _, by simp⟩

/-- An accepted character is put behind them. -/
theorem readWhile_takes_first {accept : Char → Bool} {room : Nat} {ch : Char}
    {buffer' : List Char} (accepted : accept ch = true)
    (ran : readWhile accept (room + 1) buffer ch s = .ok (buffer', s')) :
    ∃ more, buffer' = buffer ++ ch :: more ∧ more.length ≤ room ∧ ∀ c ∈ more, accept c = true := by
  rw [readWhile, if_pos accepted] at ran
  rcases bind_eq_ok ran with ⟨next, middle, -, ran'⟩
  rcases readWhile_takes ran' with ⟨more, rfl, short, all⟩
  exact ⟨more, (List.append_cons ..).symm, short, all⟩

theorem readOctal_takes {room : Nat} {ch : Char} {buffer' : List Char}
    (ran : readOctal room buffer ch s = .ok (buffer', s')) :
    ∃ more, buffer' = buffer ++ more ∧ more.length ≤ room ∧
      ∀ c ∈ more, c.isDigit = true ∧ c < '8' := by
  induction room generalizing buffer ch s with
  | zero =>
      rw [readOctal] at ran
      split_ifs at ran
      · cases ran
      · cases ran
      · cases ran
        exact ⟨[], (List.append_nil _).symm, le_refl _, by simp⟩
  | succ room inductionHypothesis =>
      rw [readOctal] at ran
      split_ifs at ran with isDigit tooLarge
      · cases ran
      · rcases bind_eq_ok ran with ⟨next, middle, -, ran'⟩
        rcases inductionHypothesis ran' with ⟨more, rfl, short, all⟩
        exact ⟨ch :: more, (List.append_cons ..).symm, Nat.succ_le_succ short,
          List.forall_mem_cons.mpr ⟨⟨isDigit, Char.not_le.mp tooLarge⟩, all⟩⟩
      · cases ran
        exact ⟨[], (List.append_nil _).symm, Nat.zero_le _, by simp⟩

theorem readRadix_takes {accept : Char → Bool} {msg : String} {ch : Char} {buffer' : List Char}
    (ran : readRadix accept msg ch s = .ok (buffer', s')) :
    ∃ digits, buffer' = '0' :: ch :: digits ∧ digits ≠ [] ∧
      digits.length ≤ maxTokenLen - 3 ∧ ∀ c ∈ digits, accept c = true := by
  rcases bind_eq_ok ran with ⟨next, middle, -, ran'⟩
  by_cases accepted : accept next = true
  · rw [if_pos accepted] at ran'
    rcases @readWhile_takes_first middle s' ['0', ch] accept (maxTokenLen - 4) next buffer' accepted
      ran' with ⟨more, rfl, short, all⟩
    exact ⟨next :: more, rfl, List.cons_ne_nil _ _, Nat.succ_le_succ short,
      List.forall_mem_cons.mpr ⟨accepted, all⟩⟩
  · rw [if_neg accepted] at ran'
    cases ran'

/-- A hexadecimal digit in the words of the grammar. -/
theorem isXDigit_denotes {c : Char} (isDigit : isXDigit c = true) :
    c.isDigit = true ∨ 97 ≤ c.toNat ||| 32 ∧ c.toNat ||| 32 ≤ 102 := by
  have letters : ∀ n ≤ 102, (97 ≤ n ∨ 65 ≤ n ∧ n ≤ 70) → 97 ≤ n ||| 32 ∧ n ||| 32 ≤ 102 := by
    decide
  simp only [isXDigit, Bool.or_eq_true, Bool.and_eq_true, decide_eq_true_eq] at isDigit
  rcases isDigit with (isDigit | ⟨low, high⟩) | ⟨low, high⟩
  · exact .inl isDigit
  · exact .inr (letters c.toNat high (.inl low))
  · exact .inr (letters c.toNat (Nat.le_trans high (by decide)) (.inr ⟨low, high⟩))

/-- The digits of a number are one of C's literals. -/
theorem readDigits_denotes {first ch : Char} {buffer' : List Char} (isDigit : first.isDigit = true)
    (ran : readDigits first ch s = .ok (buffer', s')) :
    buffer'.length < maxTokenLen ∧ ∃ value, Denotes buffer' value := by
  rw [readDigits] at ran
  split_ifs at ran with isHex isBinary isOctal
  · rcases readRadix_takes ran with ⟨digits, rfl, nonempty, short, all⟩
    exact ⟨Nat.succ_le_succ (Nat.succ_le_succ (Nat.succ_le_succ short)), _,
      .hexadecimal isHex.2 nonempty fun c inDigits => isXDigit_denotes (all c inDigits)⟩
  · rcases readRadix_takes ran with ⟨digits, rfl, nonempty, short, all⟩
    refine ⟨Nat.succ_le_succ (Nat.succ_le_succ (Nat.succ_le_succ short)), _,
      .binary isBinary.2 nonempty fun c inDigits => ?_⟩
    simpa using all c inDigits
  · subst isOctal
    rcases readOctal_takes ran with ⟨digits, rfl, short, all⟩
    refine ⟨Nat.succ_le_succ (Nat.succ_le_succ short), _, .octal fun c inDigits => ?_⟩
    rcases all c inDigits with ⟨isDigit, small⟩
    refine ⟨isDigit, ?_, ?_⟩
    · rintro rfl
      exact absurd small (by decide)
    · rintro rfl
      exact absurd small (by decide)
  · rcases readWhile_takes ran with ⟨digits, rfl, short, all⟩
    exact ⟨Nat.succ_le_succ (Nat.succ_le_succ short), _,
      .decimal isOctal (List.forall_mem_cons.mpr ⟨isDigit, all⟩)⟩

/-- The literals of numbers hold no NUL. -/
theorem denotes_noNul {text : List Char} {value : Nat} (denotes : Denotes text value) :
    '\x00' ∉ text := by
  cases denotes with
  | decimal notZero all =>
      intro isNul
      cases all _ isNul
  | octal all =>
      rintro (_ | ⟨_, isNul⟩)
      cases (all _ isNul).1
  | hexadecimal isMark nonempty all =>
      rintro (_ | ⟨_, _ | ⟨_, isNul⟩⟩)
      · rcases isMark with ⟨⟨⟩⟩ | ⟨⟨⟩⟩
      · exact absurd (all _ isNul) (by decide)
  | binary isMark nonempty all =>
      rintro (_ | ⟨_, _ | ⟨_, isNul⟩⟩)
      · rcases isMark with ⟨⟨⟩⟩ | ⟨⟨⟩⟩
      · exact absurd (all _ isNul) (by decide)

theorem lexNumber_forms {first : Char} (isDigit : first.isDigit = true) :
    Forms (lexNumber first) := by
  apply Forms.bind
  intro ch s s' token ran
  rcases bind_eq_ok ran with ⟨buffer, middle, digits, ran'⟩
  rcases readDigits_denotes isDigit digits with ⟨short, value, denotes⟩
  have form : Form .numeric (internString buffer) := by
    constructor
    · exact Nat.lt_of_le_of_lt (internString_length buffer) short
    · rintro -
      rw [internString_eq (denotes_noNul denotes), String.toList_ofList]
      exact ⟨value, denotes⟩
  exact Forms.emit form _ _ _ ran'

theorem wordKind_ne_numeric (token : String) : wordKind token ≠ .numeric := by
  intro isNumeric
  rcases wordKind_cases token with isWord | isWord
  · rw [isNumeric] at isWord
    cases isWord
  · rw [isNumeric] at isWord
    cases isWord

theorem lexWord_forms {first : Char} : Forms (lexWord first) := by
  intro s s' token ran
  rcases bind_eq_ok ran with ⟨buffer, middle, reads, ran'⟩
  rcases readWhile_takes reads with ⟨more, rfl, short, -⟩
  apply Forms.emit (Form.short_of _ (wordKind_ne_numeric _)) _ _ _ ran'
  exact Nat.lt_of_le_of_lt (internString_length _) (Nat.lt_succ_of_le short)

theorem lookupDirective_ne_numeric (token : String) : lookupDirective token ≠ .numeric := by
  rw [lookupDirective]
  cases isDirective : directives.lookup token with
  | none => decide
  | some kind =>
      intro isNumeric
      have spelled := directives_spelling _ (lookup_mem isDirective)
      rw [show kind = .numeric from isNumeric] at spelled
      cases spelled

theorem lexDirective_forms : Forms lexDirective := by
  intro s s' token ran
  rw [lexDirective] at ran
  split_ifs at ran
  · cases ran
  · rcases bind_eq_ok ran with ⟨ch, middle, -, ran'⟩
    rcases bind_eq_ok ran' with ⟨buffer, middle', -, ran''⟩
    dsimp only at ran''
    split_ifs at ran''
    · cases ran''
    · exact Forms.emit (.plain (lookupDirective_ne_numeric _)) _ _ _ ran''

/-! ## Literals -/

/-- What is left of a string literal is shorter than `token_buffer`. -/
theorem readString_short {room : Nat} {special : Bool} {ch : Char} {buffer' : List Char}
    (isRoom : room + buffer.length = maxTokenLen)
    (ran : readString room buffer special ch s = .ok (buffer', s')) :
    buffer'.length < maxTokenLen := by
  induction room generalizing buffer special ch s with
  | zero =>
      rw [readString] at ran
      split_ifs at ran <;> cases ran
  | succ room inductionHypothesis =>
      rw [readString] at ran
      split_ifs at ran
      · cases ran
      · rcases bind_eq_ok ran with ⟨next, middle, -, ran'⟩
        apply inductionHypothesis _ ran'
        rw [List.length_append, List.length_singleton]
        omega
      · cases ran
        omega

theorem lexString_forms : Forms lexString := by
  apply Forms.bind
  intro ch s s' token ran
  rcases bind_eq_ok ran with ⟨buffer, middle, reads, ran'⟩
  have short := readString_short (show maxTokenLen + ([] : List Char).length = maxTokenLen by rfl)
    reads
  have form : Form .string (internString buffer) :=
    .short_of (Nat.lt_of_le_of_lt (internString_length buffer) short) (by decide)
  exact Forms.bind (fun _ => Forms.emit form) _ _ _ ran'

theorem readEscaped_short {room : Nat} {ch last : Char} {buffer' : List Char}
    (isRoom : room + buffer.length = maxTokenLen)
    (ran : readEscaped room buffer ch s = .ok ((buffer', last), s')) :
    buffer'.length < maxTokenLen := by
  induction room generalizing buffer ch s with
  | zero => cases ran
  | succ room inductionHypothesis =>
      rcases bind_eq_ok ran with ⟨next, middle, -, ran'⟩
      split_ifs at ran' with goesOn isFull
      · apply inductionHypothesis _ ran'
        rw [List.length_append, List.length_singleton]
        omega
      · cases ran'
      · cases ran'
        rw [List.length_append, List.length_singleton]
        omega

theorem readCharacters_short {ch last : Char} {buffer' : List Char}
    (ran : readCharacters ch s = .ok ((buffer', last), s')) : buffer'.length < maxTokenLen := by
  rcases bind_eq_ok ran with ⟨next, middle, -, ran'⟩
  split_ifs at ran'
  · exact readEscaped_short (by rfl) ran'
  · cases ran'
    rw [List.length_singleton]
    decide

theorem lexChar_forms : Forms lexChar := by
  apply Forms.bind
  intro ch s s' token ran
  rcases bind_eq_ok ran with ⟨⟨buffer, last⟩, middle, reads, ran'⟩
  dsimp only at ran'
  split_ifs at ran'
  · cases ran'
  · have form : Form .char (internString buffer) :=
      .short_of (Nat.lt_of_le_of_lt (internString_length buffer) (readCharacters_short reads))
        (by decide)
    exact Forms.bind (fun _ => Forms.emit form) _ _ _ ran'

/-! ## The functions -/

theorem lexSlash_forms {again : Lex Token} (forms : Forms again) : Forms (lexSlash again) := by
  apply Forms.bind
  intro ch
  split_ifs
  · exact .bind fun s => .bind fun behind => .bind fun _ => forms
  · exact .bind fun s => .bind fun behind => .bind fun _ => forms
  · exact .bind fun _ => .emit (.plain (by decide))
  · exact .emit (.plain (by decide))

/-- The tokens of `lex_token` have literals of their form. -/
theorem lexToken_forms (fuel : Nat) : Forms (lexToken fuel) := by
  induction fuel with
  | zero =>
      intro s s' token ran
      cases ran
  | succ fuel inductionHypothesis =>
      refine .bind fun ch => .bind fun _ => ?_
      split_ifs with directive newline slash space isNul isDigit quote tick
      · exact lexDirective_forms
      · refine .bind fun _ s s' token ran => ?_
        cases ran
        exact @Form.plain .newline (by decide)
      · exact lexSlash_forms inductionHypothesis
      · exact .bind fun _ => .emit (.plain (by decide))
      · exact .follow (by decide) AllForms.nil
      · exact lexNumber_forms isDigit
      · exact lexString_forms
      · exact lexChar_forms
      · cases isPunctuator : punctuators.lookup ch with
        | none => exact lexWord_forms
        | some punctuator => exact punctuators_forms.lookup isPunctuator
      · cases isPunctuator : punctuators.lookup ch with
        | none => exact .errorAt
        | some punctuator => exact punctuators_forms.lookup isPunctuator

/-- So do all tokens of a file. -/
theorem lexTokens_form {fuel rounds : Nat} {tokens : List Token}
    (ran : lexTokens fuel rounds s = .ok (tokens, s')) :
    ∀ token ∈ tokens, Form token.kind token.literal := by
  induction rounds generalizing s tokens with
  | zero => cases ran
  | succ rounds inductionHypothesis =>
      rcases bind_eq_ok ran with ⟨s₁, middle, -, ran₁⟩
      split_ifs at ran₁ with inside
      · rcases bind_eq_ok ran₁ with ⟨token, middle₁, lexed, ran₂⟩
        have form := lexToken_forms fuel _ _ _ lexed
        split_ifs at ran₂ with isEof
        · cases ran₂
          simpa using form
        · rcases bind_eq_ok ran₂ with ⟨tokens', middle₂, more, ran₃⟩
          cases ran₃
          exact List.forall_mem_cons.mpr ⟨form, inductionHypothesis more⟩
      · cases ran₁
        simp

theorem lexFile_form {fuel : Nat} {filename : String} {elements : List Char}
    {tokens : List Token} (ran : lexFile fuel filename elements = .ok tokens) :
    ∀ token ∈ tokens, Form token.kind token.literal := by
  cases lexed : lexTokens fuel fuel (start filename elements) with
  | error failure =>
      rw [lexFile_of_error lexed] at ran
      cases ran
  | ok result =>
      rcases result with ⟨tokens', s'⟩
      rw [lexFile_of_ok lexed] at ran
      cases isLast : tokens'.getLast? with
      | none =>
          rw [isLast] at ran
          cases ran
          simpa using Form.plain (by decide)
      | some cur =>
          rw [isLast] at ran
          dsimp only at ran
          split_ifs at ran
          cases ran
          exact lexTokens_form lexed

end Shecc.Lexer
