import Mathlib
import Shecc.Lexer.Core

/-!
# Reading a token

While a token is read, the characters before it, those of it that have been read and
those ahead make up the text, which a NUL ends. Every branch of `lex_token` reads on
to the end of a spelling of the token it makes.
-/

namespace Shecc.Lexer

open Shecc.Preprocessor (Token TokenKind SourceLocation Failure maxTokenLen)

/-! ## Spellings -/

/-- The text of the kinds that always have the same. -/
def spelling (kind : TokenKind) : Option String :=
  match directives.find? fun entry => decide (entry.2 = kind) with
  | some entry => some entry.1
  | none => if kind = .backslash then some "\\" else kind.text

/-- `chars` spell a token of the kind with the literal. -/
inductive Spelled (literal : String) : TokenKind → List Char → Prop
  | identifier {chars : List Char} (nonempty : chars ≠ []) (word : ∀ ch ∈ chars, isWord ch)
      (notDigit : ∀ ch, chars.head? = some ch → ch.isDigit = false)
      (same : literal.toList = chars) : Spelled literal .identifier chars
  | numeric {chars : List Char} (word : ∀ ch ∈ chars, isWord ch)
      (digit : ∃ ch, chars.head? = some ch ∧ ch.isDigit)
      (same : literal.toList = chars) : Spelled literal .numeric chars
  | string : Spelled literal .string ('"' :: literal.toList ++ ['"'])
  | char : Spelled literal .char ('\'' :: literal.toList ++ ['\''])
  | whitespace (n : Nat) : Spelled literal .whitespace (List.replicate (n + 1) ' ')
  | fixed {kind : TokenKind} {text : String} (isText : spelling kind = some text) :
      Spelled literal kind text.toList

theorem Spelled.of_text {literal : String} {kind : TokenKind} {chars : List Char}
    (isText : spelling kind = some (String.ofList chars)) : Spelled literal kind chars := by
  have spelled := @Spelled.fixed literal kind _ isText
  rwa [String.toList_ofList] at spelled

theorem spelling_nonempty {kind : TokenKind} {text : String} (isText : spelling kind = some text) :
    text.toList ≠ [] := by
  cases kind <;> cases isText <;> decide

theorem Spelled.nonempty {literal : String} {kind : TokenKind} {chars : List Char}
    (spelled : Spelled literal kind chars) : chars ≠ [] := by
  cases spelled with
  | identifier nonempty => exact nonempty
  | numeric word digit =>
      rcases digit with ⟨ch, isHead, -⟩
      rintro rfl
      simp at isHead
  | string => simp
  | char => simp
  | whitespace n => simp
  | fixed isText => exact spelling_nonempty isText

theorem Spelled.not_eof {literal : String} {kind : TokenKind} {chars : List Char}
    (spelled : Spelled literal kind chars) : kind ≠ .eof := by
  rintro rfl
  cases spelled with
  | fixed isText => cases isText

theorem directives_spelling : ∀ entry ∈ directives, spelling entry.2 = some entry.1 := by
  decide

theorem keywords_spelling : ∀ entry ∈ keywords, spelling entry.2 = some entry.1 := by
  decide

/-- What a table says of a token is an entry of it. -/
theorem lookup_mem {α β : Type} [BEq α] [LawfulBEq α] {table : List (α × β)} {key : α}
    {value : β} (isEntry : table.lookup key = some value) : (key, value) ∈ table := by
  rcases List.lookup_eq_some_iff.mp isEntry with ⟨front, back, split, -⟩
  rw [split]
  simp

/-- The `switch` knows only keywords. -/
theorem commonKeyword_mem {token : String} (common : commonKeyword token ≠ .identifier) :
    (token, commonKeyword token) ∈ keywords := by
  unfold commonKeyword at common ⊢
  repeat' split at common
  all_goals simp_all [keywords]

/-- A word is a keyword of the table or an identifier. -/
theorem wordKind_cases (token : String) :
    wordKind token = .identifier ∨ spelling (wordKind token) = some token := by
  rw [wordKind]
  by_cases common : commonKeyword token = .identifier
  · rw [if_pos common, lookupKeyword]
    cases isKeyword : keywords.lookup token with
    | none =>
        left
        rfl
    | some kind =>
        right
        exact keywords_spelling _ (lookup_mem isKeyword)
  · rw [if_neg common]
    right
    exact keywords_spelling _ (commonKeyword_mem common)

/-! ## Steps -/

/-- How a step ends if no diagnostic stops it. -/
def Ends {α : Type} (overflow : Prop) (post : α → State → Prop) :
    Except Failure (α × State) → Prop
  | .ok (value, s) => post value s
  | .error (.errorAt _ _) => True
  | .error .outOfBounds => overflow
  | .error _ => False

variable {α β : Type} {overflow : Prop}

theorem Ends.bind {first : Lex α} {rest : α → Lex β} {mid : α → State → Prop}
    {post : β → State → Prop} {s : State} (ends : Ends overflow mid (first s))
    (behind : ∀ value s', mid value s' → Ends overflow post (rest value s')) :
    Ends overflow post ((first >>= rest) s) := by
  change Ends overflow post ((first s).bind fun result => rest result.1 result.2)
  cases result : first s with
  | error failure =>
      rw [result] at ends
      cases failure <;> exact ends
  | ok result' =>
      rw [result] at ends
      exact behind _ _ ends

/-- A step and what follows it. -/
theorem bind_eq {first : Lex α} {rest : α → Lex β} {s s' : State} {value : α}
    (isOk : first s = .ok (value, s')) : (first >>= rest) s = rest value s' := by
  change (first s).bind (fun result => rest result.1 result.2) = _
  rw [isOk]
  rfl

theorem Ends.step {first : Lex α} {rest : α → Lex β} {post : β → State → Prop} {s s' : State}
    {value : α} (ran : first s = .ok (value, s')) (ends : Ends overflow post (rest value s')) :
    Ends overflow post ((first >>= rest) s) := by
  rw [bind_eq ran]
  exact ends

theorem Ends.weaken {mid post : α → State → Prop} {result : Except Failure (α × State)}
    {overflow' : Prop} (ends : Ends overflow' mid result) (less : overflow' → overflow)
    (promised : ∀ value s, mid value s → post value s) : Ends overflow post result := by
  cases result with
  | error failure =>
      cases failure with
      | outOfBounds => exact less ends
      | _ => exact ends
  | ok result' => exact promised _ _ ends

theorem errorAt_ends {msg : String} {set : SourceLocation → SourceLocation}
    {post : α → State → Prop} {s : State} : Ends overflow post (errorAt msg set s) :=
  trivial

theorem tokenTooLong_ends {sz : Nat} {post : α → State → Prop} {s : State} :
    Ends overflow post (tokenTooLong sz s) :=
  trivial

/-! ## Places -/

/-- `taken` has been read of a token that starts behind `before`, `ahead` has not. -/
structure Reading (before taken ahead : List Char) (s : State) : Prop where
  elements : s.buf.elements = before ++ taken ++ ahead ++ ['\x00']
  size : s.buf.size = (before ++ taken).length
  noNul : '\x00' ∉ before ++ taken ++ ahead
  pos : s.loc.pos = before.length

variable {before taken ahead : List Char} {ch : Char} {s : State}

theorem getD_behind (front back : List Char) (i : Nat) :
    (front ++ back).getD (front.length + i) '\x00' = back.getD i '\x00' := by
  rw [List.getD_append_right _ _ _ _ (Nat.le_add_right _ _), Nat.add_sub_cancel_left]

theorem Reading.peekChar (reading : Reading before taken ahead s) (offset : Nat) :
    peekChar offset s = .ok ((ahead ++ ['\x00']).getD offset '\x00', s) := by
  rw [Lexer.peekChar, reading.elements, reading.size, List.append_assoc _ ahead, getD_behind]

/-- The next character is read. -/
theorem Reading.readChar_eq (reading : Reading before taken (ch :: ahead) s) :
    ∃ s', readChar s = .ok (ahead.headD '\x00', s') ∧ Reading before (taken ++ [ch]) ahead s' := by
  have isMore : ¬ s.buf.size + 1 ≥ s.buf.elements.length := by
    rw [reading.elements, reading.size]
    simp
    omega
  have isNext : s.buf.elements.getD (s.buf.size + 1) '\x00' = ahead.headD '\x00' := by
    rw [reading.elements, reading.size, List.append_assoc _ (ch :: ahead), getD_behind]
    cases ahead <;> rfl
  rw [Lexer.readChar, if_neg isMore, isNext]
  refine ⟨_, rfl, ?_, ?_, ?_, reading.pos⟩
  · simp [reading.elements]
  · simp [reading.size, Nat.add_assoc]
  · simpa using reading.noNul

theorem Reading.readChar (reading : Reading before taken (ch :: ahead) s) :
    Ends overflow (fun next s' => next = ahead.headD '\x00' ∧
      Reading before (taken ++ [ch]) ahead s') (readChar s) := by
  rcases reading.readChar_eq with ⟨s', isOk, reading'⟩
  rw [isOk]
  exact ⟨rfl, reading'⟩

/-- The NUL is read again and again. -/
theorem Reading.readChar_end (reading : Reading before taken [] s) :
    Lexer.readChar s = .ok ('\x00', s) := by
  have isEnd : s.buf.size + 1 ≥ s.buf.elements.length := by
    rw [reading.elements, reading.size]
    simp [Nat.add_assoc]
  rw [Lexer.readChar, if_pos isEnd, reading.elements]
  simp

theorem Reading.head_ne (reading : Reading before taken (ch :: ahead) s) : ch ≠ '\x00' := by
  have noNul := reading.noNul
  rintro rfl
  simp at noNul

theorem Reading.taken_noNul (reading : Reading before taken ahead s) : '\x00' ∉ taken := by
  have noNul := reading.noNul
  simp only [List.mem_append, not_or] at noNul
  exact noNul.1.2

theorem internString_eq {buffer : List Char} (noNul : '\x00' ∉ buffer) :
    internString buffer = String.ofList buffer := by
  rw [internString, List.takeWhile_eq_self_iff.mpr]
  intro ch member
  rw [bne_iff_ne]
  rintro rfl
  exact noNul member

/-! ## Tokens -/

/-- A spelling of the token has been read from the text that starts behind `before`. -/
def Makes (before behind : List Char) (token : Token) (s : State) : Prop :=
  ∃ chars rest, behind = chars ++ rest ∧ Spelled token.literal token.kind chars ∧
    token.location.pos = before.length ∧ token.location.len = chars.length ∧
    Reading before chars rest s

theorem emit_makes (taken ahead : List Char) {kind : TokenKind} {literal : String} {len : Nat}
    (reading : Reading before taken ahead s) (spelled : Spelled literal kind taken)
    (isLen : len = taken.length) :
    Ends overflow (Makes before (taken ++ ahead)) (emit kind literal len s) := by
  refine ⟨taken, ahead, rfl, spelled, reading.pos, congrArg Nat.cast isLen, ?_⟩
  exact ⟨reading.elements, reading.size, reading.noNul, reading.pos⟩

/-- Behind `taken` the step reads on to a token if the current character is `ch`. -/
def Follows (taken : List Char) (ch : Char) (step : Lex Token) : Prop :=
  ∀ (overflow : Prop) before ahead s, Reading before taken (ch :: ahead) s →
    Ends overflow (Makes before (taken ++ ch :: ahead)) (step s)

/-- `Follows` for each of the characters that may be behind `taken`. -/
def Branches (taken : List Char) (longer : List (Char × Lex Token)) : Prop :=
  ∀ entry ∈ longer, entry.1 ≠ '\x00' ∧ Follows taken entry.1 entry.2

theorem Branches.nil : Branches taken [] := by
  simp [Branches]

theorem Branches.cons {step : Lex Token} {longer : List (Char × Lex Token)}
    (follows : Follows taken ch step) (notNul : ch ≠ '\x00') (branches : Branches taken longer) :
    Branches taken ((ch, step) :: longer) := by
  rintro entry (_ | ⟨_, member⟩)
  · exact ⟨notNul, follows⟩
  · exact branches entry member

theorem Branches.lookup {step : Lex Token} {longer : List (Char × Lex Token)}
    (branches : Branches taken longer) (isBranch : longer.lookup ch = some step) :
    ch ≠ '\x00' ∧ Follows taken ch step := by
  rcases List.lookup_eq_some_iff.mp isBranch with ⟨front, back, split, -⟩
  apply branches (ch, step)
  simp [split]

theorem follow_follows {kind : TokenKind} {len : Nat} {longer : List (Char × Lex Token)}
    (branches : Branches (taken ++ [ch]) longer)
    (isText : spelling kind = some (String.ofList (taken ++ [ch])))
    (isLen : len = (taken ++ [ch]).length) :
    Follows taken ch (follow kind len longer) := by
  intro overflow before ahead s reading
  apply Ends.bind reading.readChar
  rintro next s' ⟨isNext, reading'⟩
  rw [List.append_cons]
  cases isBranch : longer.lookup next with
  | none =>
      exact emit_makes _ _ reading' (.of_text isText) isLen
  | some step =>
      rcases branches.lookup isBranch with ⟨notNul, follows⟩
      cases ahead with
      | nil => cases notNul isNext
      | cons other ahead =>
          cases isNext
          exact follows overflow before ahead s' reading'

theorem dots_follows : Follows [] '.' dots := by
  intro overflow before ahead s reading
  apply Ends.bind reading.readChar
  rintro next s' ⟨isNext, reading'⟩
  apply Ends.step (reading'.peekChar 1)
  by_cases isElipsis : next = '.' ∧ (ahead ++ ['\x00']).getD 1 '\x00' = '.'
  · rw [if_pos isElipsis]
    rcases isElipsis with ⟨isDot, isDot'⟩
    rcases ahead with _ | ⟨first, _ | ⟨second, ahead⟩⟩
    · simp [isNext] at isDot
    · simp at isDot'
    · obtain rfl : first = '.' := isNext.symm.trans isDot
      obtain rfl : second = '.' := isDot'
      apply Ends.step rfl
      apply emit_makes ['.', '.', '.'] ahead _ (.of_text rfl) rfl
      constructor
      · simp [reading'.elements]
      · simp [reading'.size]
      · simpa using reading'.noNul
      · exact reading'.pos
  · rw [if_neg isElipsis]
    exact emit_makes ['.'] ahead reading' (.of_text rfl) rfl

theorem punctuators_branches : Branches [] punctuators := by
  repeat' first
    | exact dots_follows
    | apply Branches.nil
    | apply Branches.cons
    | apply follow_follows
    | decide

/-! ## Spaces, words and numbers -/

theorem lexNewline_follows : Follows [] '\n' lexNewline := by
  intro overflow before ahead s reading
  apply Ends.bind reading.readChar
  rintro next s' ⟨-, reading'⟩
  exact ⟨['\n'], ahead, rfl, .of_text rfl, reading'.pos, rfl,
    ⟨reading'.elements, reading'.size, reading'.noNul, reading'.pos⟩⟩

theorem countSpaces_ends {fuel n : Nat} (reading : Reading before taken (' ' :: ahead) s)
    (spaces : taken = List.replicate n ' ') (enough : ahead.length < fuel) :
    Ends overflow (fun sz s' => ∃ more rest, ' ' :: ahead = more ++ rest ∧ 0 < sz ∧
      taken ++ more = List.replicate sz ' ' ∧ Reading before (taken ++ more) rest s')
      (countSpaces fuel (n + 1) s) := by
  induction fuel generalizing n taken ahead s with
  | zero => cases enough
  | succ fuel inductionHypothesis =>
      apply Ends.bind reading.readChar
      rintro next s' ⟨isNext, reading'⟩
      have spaces' : taken ++ [' '] = List.replicate (n + 1) ' ' := by
        rw [spaces, List.replicate_succ']
      by_cases isSpace : next = ' '
      · rw [if_pos isSpace]
        rcases ahead with _ | ⟨other, ahead⟩
        · simp [isNext] at isSpace
        · obtain rfl : other = ' ' := isNext.symm.trans isSpace
          apply (inductionHypothesis reading' spaces' (Nat.lt_of_succ_lt_succ enough)).weaken id
          rintro sz s'' ⟨more, rest, split, positive, same, reading''⟩
          refine ⟨' ' :: more, rest, by rw [split, List.cons_append], positive, ?_⟩
          rw [List.append_cons]
          exact ⟨same, reading''⟩
      · rw [if_neg isSpace]
        exact ⟨[' '], ahead, rfl, Nat.succ_pos n, spaces', reading'⟩

theorem lexWhitespace_ends {fuel : Nat} (reading : Reading before [] (' ' :: ahead) s)
    (enough : ahead.length < fuel) :
    Ends overflow (Makes before (' ' :: ahead)) (lexWhitespace fuel s) := by
  apply Ends.bind (countSpaces_ends (n := 0) reading rfl enough)
  rintro sz s' ⟨more, rest, split, positive, same, reading'⟩
  rw [split]
  apply emit_makes _ _ reading'
  · rcases sz with _ | sz
    · cases positive
    · rw [same]
      exact .whitespace sz
  · rw [same, List.length_replicate]

/-- `more` of what is ahead has been read, all of it accepted. -/
def Took (accept : Char → Bool) (before taken ahead : List Char) (buffer : List Char)
    (s : State) : Prop :=
  ∃ more rest, ahead = more ++ rest ∧ buffer = taken ++ more ∧ (∀ ch ∈ more, accept ch) ∧
    Reading before buffer rest s

theorem Took.nil {accept : Char → Bool} (reading : Reading before taken ahead s) :
    Took accept before taken ahead taken s :=
  ⟨[], ahead, rfl, (List.append_nil taken).symm, by simp, reading⟩

theorem Took.cons {accept : Char → Bool} {buffer : List Char} (accepted : accept ch)
    (took : Took accept before (taken ++ [ch]) ahead buffer s) :
    Took accept before taken (ch :: ahead) buffer s := by
  rcases took with ⟨more, rest, split, same, all, reading⟩
  refine ⟨ch :: more, rest, by rw [split, List.cons_append],
    same.trans (List.append_cons _ _ _).symm, ?_, reading⟩
  exact List.forall_mem_cons.mpr ⟨accepted, all⟩

theorem Took.mono {accept accept' : Char → Bool} {buffer : List Char}
    (took : Took accept before taken ahead buffer s)
    (more : ∀ ch, accept ch → accept' ch) : Took accept' before taken ahead buffer s := by
  rcases took with ⟨front, rest, split, same, all, reading⟩
  exact ⟨front, rest, split, same, fun ch member => more ch (all ch member), reading⟩

theorem readWhile_ends {accept : Char → Bool} {room : Nat} (notNul : accept '\x00' = false)
    (reading : Reading before taken ahead s) :
    Ends overflow (Took accept before taken ahead)
      (readWhile accept room taken (ahead.headD '\x00') s) := by
  induction room generalizing taken ahead s with
  | zero =>
      rw [readWhile]
      split_ifs
      · exact tokenTooLong_ends
      · exact .nil reading
  | succ room inductionHypothesis =>
      rw [readWhile]
      split_ifs with accepted
      · rcases ahead with _ | ⟨ch, ahead⟩
        · cases notNul.symm.trans accepted
        · apply Ends.bind reading.readChar
          rintro next s' ⟨rfl, reading'⟩
          apply (inductionHypothesis reading').weaken id
          intro buffer s'' took
          exact took.cons accepted
      · exact .nil reading

/-- A loop that is entered reads the character it is entered for. -/
theorem readWhile_entered {accept : Char → Bool} {room : Nat} (notNul : accept '\x00' = false)
    (reading : Reading before taken (ch :: ahead) s) (accepted : accept ch) :
    Ends overflow (Took accept before (taken ++ [ch]) ahead)
      (readWhile accept (room + 1) taken ch s) := by
  rw [readWhile, if_pos accepted]
  apply Ends.bind reading.readChar
  rintro next s' ⟨rfl, reading'⟩
  exact readWhile_ends notNul reading'

theorem lexWord_ends (reading : Reading before [] (ch :: ahead) s) (isWord_ : isWord ch)
    (notDigit : ch.isDigit = false) :
    Ends overflow (Makes before (ch :: ahead)) (lexWord ch s) := by
  apply Ends.bind (readWhile_entered (by decide) reading isWord_)
  rintro buffer s' ⟨more, rest, rfl, rfl, all, reading'⟩
  rw [internString_eq reading'.taken_noNul]
  apply emit_makes _ rest reading' _ rfl
  rcases wordKind_cases (String.ofList ([] ++ [ch] ++ more)) with isIdentifier | isKeyword
  · rw [isIdentifier]
    apply Spelled.identifier
    · simp
    · simpa using ⟨isWord_, all⟩
    · rintro other ⟨⟩
      exact notDigit
    · rw [String.toList_ofList]
  · exact .of_text isKeyword

theorem isWord_of_isDigit {ch : Char} (isDigit : ch.isDigit) : isWord ch := by
  simp [isWord, Char.isAlphanum, isDigit]

theorem isWord_of_isXDigit {ch : Char} (isXDigit_ : isXDigit ch) : isWord ch := by
  simp only [isXDigit, Bool.or_eq_true, Bool.and_eq_true, decide_eq_true_eq] at isXDigit_
  simp only [isWord, Char.isAlphanum, Char.isAlpha, Char.isUpper, Char.isLower, Bool.or_eq_true,
    Bool.and_eq_true, decide_eq_true_eq, ge_iff_le]
  rcases isXDigit_ with (isDigit | isLower) | isUpper
  · exact .inl (.inr isDigit)
  · exact .inl (.inl (.inr ⟨isLower.1, UInt32.le_trans isLower.2 (by decide)⟩))
  · exact .inl (.inl (.inl ⟨isUpper.1, UInt32.le_trans isUpper.2 (by decide)⟩))

theorem readOctal_ends {room : Nat} (reading : Reading before taken ahead s) :
    Ends overflow (Took Char.isDigit before taken ahead)
      (readOctal room taken (ahead.headD '\x00') s) := by
  induction room generalizing taken ahead s with
  | zero =>
      rw [readOctal]
      split_ifs
      · exact errorAt_ends
      · exact tokenTooLong_ends
      · exact .nil reading
  | succ room inductionHypothesis =>
      rw [readOctal]
      split_ifs with isDigit
      · exact errorAt_ends
      · rcases ahead with _ | ⟨ch, ahead⟩
        · cases isDigit
        · apply Ends.bind reading.readChar
          rintro next s' ⟨rfl, reading'⟩
          apply (inductionHypothesis reading').weaken id
          intro buffer s'' took
          exact took.cons isDigit
      · exact .nil reading

theorem readRadix_ends {accept : Char → Bool} {msg : String}
    (reading : Reading before ['0'] (ch :: ahead) s) (notNul : accept '\x00' = false) :
    Ends overflow (Took accept before ['0', ch] ahead) (readRadix accept msg ch s) := by
  apply Ends.bind reading.readChar
  rintro next s' ⟨rfl, reading'⟩
  split_ifs
  · exact readWhile_ends notNul reading'
  · exact errorAt_ends

theorem readDigits_ends (reading : Reading before [ch] ahead s) :
    Ends overflow (Took isWord before [ch] ahead)
      (readDigits ch (ahead.headD '\x00') s) := by
  rw [readDigits]
  split_ifs with isHex isBinary isOctal
  · rcases ahead with _ | ⟨radix, ahead⟩
    · simp at isHex
    · rcases isHex with ⟨rfl, isX⟩
      apply (readRadix_ends reading rfl).weaken id
      intro buffer s' took
      apply Took.cons _ (took.mono fun digit => isWord_of_isXDigit)
      rcases isX with rfl | rfl <;> rfl
  · rcases ahead with _ | ⟨radix, ahead⟩
    · simp at isBinary
    · rcases isBinary with ⟨rfl, isB⟩
      apply (readRadix_ends reading rfl).weaken id
      intro buffer s' took
      have isWord_ : isWord radix := by
        rcases isB with rfl | rfl <;> rfl
      have allWord : ∀ digit : Char, (digit == '0' || digit == '1') = true → isWord digit := by
        intro digit accepted
        rcases (Bool.or_eq_true _ _).mp accepted with isZero | isOne
        · rw [beq_iff_eq.mp isZero]
          rfl
        · rw [beq_iff_eq.mp isOne]
          rfl
      exact Took.cons isWord_ (took.mono allWord)
  · apply (readOctal_ends reading).weaken id
    intro buffer s' took
    exact took.mono fun digit => isWord_of_isDigit
  · apply (readWhile_ends rfl reading).weaken id
    intro buffer s' took
    exact took.mono fun digit => isWord_of_isDigit

theorem lexNumber_ends (reading : Reading before [] (ch :: ahead) s) (isDigit : ch.isDigit) :
    Ends overflow (Makes before (ch :: ahead)) (lexNumber ch s) := by
  apply Ends.bind reading.readChar
  rintro next s' ⟨rfl, reading'⟩
  apply Ends.bind (readDigits_ends reading')
  rintro buffer s'' ⟨more, rest, rfl, rfl, all, reading''⟩
  rw [internString_eq reading''.taken_noNul]
  apply emit_makes _ rest reading'' _ rfl
  apply Spelled.numeric
  · simpa using ⟨isWord_of_isDigit isDigit, all⟩
  · exact ⟨ch, rfl, isDigit⟩
  · rw [String.toList_ofList]

theorem lexDirective_ends (reading : Reading before [] ('#' :: ahead) s) :
    Ends overflow (Makes before ('#' :: ahead)) (lexDirective s) := by
  rw [lexDirective]
  split_ifs
  · exact errorAt_ends
  · apply Ends.bind reading.readChar
    rintro next s' ⟨rfl, reading'⟩
    apply Ends.bind (readWhile_ends (by decide) reading')
    rintro buffer s'' ⟨more, rest, rfl, rfl, all, reading''⟩
    dsimp only
    split_ifs with unknown
    · exact errorAt_ends
    · apply emit_makes _ rest reading'' _ rfl
      rw [internString_eq reading''.taken_noNul] at unknown ⊢
      rw [lookupDirective] at unknown ⊢
      cases isDirective : directives.lookup (String.ofList ([] ++ ['#'] ++ more)) with
      | none =>
          rw [isDirective] at unknown
          cases unknown rfl
      | some kind => exact .of_text (directives_spelling _ (lookup_mem isDirective))

/-! ## Literals -/

/-- The characters of a string literal up to the quote that is not directly behind a
backslash. -/
def stringBody : (special : Bool) → List Char → List Char
  | _, [] => []
  | special, ch :: behind =>
      if ch = '"' ∧ special = false then [] else ch :: stringBody (ch == '\\') behind

/-- The characters of a string literal, those of `behind` up to its end, leave `token_buffer`:
the one that fills it is stored unchecked since it is behind a backslash, and no diagnostic
comes before another is stored or the NUL is. -/
def StringOverflows (body behind : List Char) : Prop :=
  body[maxTokenLen - 2]? = some '\\' ∧ (body[maxTokenLen - 1]? = some '\\' ∨
    body.length = maxTokenLen ∧ body.length < behind.length)

/-- Behind the text there are only diagnostics. -/
theorem readString_end {room : Nat} {buffer : List Char} {special : Bool}
    (reading : Reading before taken [] s) (isRoom : room + buffer.length = maxTokenLen) :
    Ends (buffer.length = maxTokenLen ∧ buffer.getLast? = some '\\') (fun _ _ => False)
      (readString room buffer special '\x00' s) := by
  induction room generalizing buffer special with
  | zero =>
      rw [readString, if_pos (by simp)]
      split_ifs with behindBackslash
      · exact ⟨(Nat.zero_add _).symm.trans isRoom, behindBackslash⟩
      · exact errorAt_ends
  | succ room inductionHypothesis =>
      rw [readString, if_pos (by simp)]
      split_ifs
      · exact errorAt_ends
      · apply Ends.step reading.readChar_end
        apply (inductionHypothesis _).weaken
        · rintro ⟨-, isLast⟩
          simp at isLast
        · simp
        · rw [List.length_append, List.length_singleton, ← isRoom]
          omega

theorem stringBody_goesOn {special : Bool} (goesOn : ch ≠ '"' ∨ special = true) :
    stringBody special (ch :: ahead) = ch :: stringBody (ch == '\\') ahead := by
  rw [stringBody, if_neg]
  rintro ⟨isQuote, notSpecial⟩
  rcases goesOn with notQuote | isSpecial
  · exact notQuote isQuote
  · cases notSpecial.symm.trans isSpecial

theorem stringBody_ends {special : Bool} (ended : ¬ (ch ≠ '"' ∨ special = true)) :
    ch = '"' ∧ stringBody special (ch :: ahead) = [] := by
  rw [not_or, not_not, Bool.not_eq_true] at ended
  exact ⟨ended.1, by rw [stringBody, if_pos ended]⟩

theorem stringOverflows_full {buffer body behind : List Char} (isFull : buffer.length = maxTokenLen)
    (filled : buffer[maxTokenLen - 2]? = some '\\') (isLast : buffer.getLast? = some '\\') :
    StringOverflows (buffer ++ body) behind := by
  rw [List.getLast?_eq_getElem?, isFull] at isLast
  constructor
  · rw [List.getElem?_append_left, filled]
    rw [isFull]
    decide
  · left
    rw [List.getElem?_append_left, isLast]
    rw [isFull]
    decide

theorem readString_ends {room : Nat} {buffer : List Char} {special : Bool}
    (reading : Reading before ('"' :: buffer) ahead s)
    (isRoom : room + buffer.length = maxTokenLen)
    (filled : buffer.length = maxTokenLen → buffer[maxTokenLen - 2]? = some '\\') :
    Ends (StringOverflows (buffer ++ stringBody special ahead) (buffer ++ ahead))
      (fun buffer' s' => buffer' = buffer ++ stringBody special ahead ∧
        buffer'.length < maxTokenLen ∧ ∃ rest, buffer ++ ahead = buffer' ++ '"' :: rest ∧
        Reading before ('"' :: buffer') ('"' :: rest) s')
      (readString room buffer special (ahead.headD '\x00') s) := by
  induction room generalizing buffer ahead s special with
  | zero =>
      rw [Nat.zero_add] at isRoom
      rcases ahead with _ | ⟨ch, ahead⟩
      · apply (readString_end reading (by rw [Nat.zero_add, isRoom])).weaken
        · rintro ⟨isFull, isLast⟩
          exact stringOverflows_full isFull (filled isFull) isLast
        · simp
      · rw [List.headD_cons, readString]
        split_ifs with goesOn behindBackslash
        · exact stringOverflows_full isRoom (filled isRoom) behindBackslash
        · exact errorAt_ends
        · rcases stringBody_ends goesOn with ⟨-, isBody⟩
          rw [isBody, List.append_nil]
          exact ⟨filled isRoom, .inr ⟨isRoom, by simp⟩⟩
  | succ room inductionHypothesis =>
      rcases ahead with _ | ⟨ch, ahead⟩
      · apply (readString_end reading isRoom).weaken
        · rintro ⟨isFull, isLast⟩
          exact stringOverflows_full isFull (filled isFull) isLast
        · simp
      · rw [List.headD_cons, readString]
        split_ifs with goesOn isLong
        · exact errorAt_ends
        · apply Ends.bind reading.readChar
          rintro next s' ⟨rfl, reading'⟩
          rw [stringBody_goesOn goesOn, List.append_cons, List.append_cons buffer ch ahead]
          apply @inductionHypothesis ahead _ (buffer ++ [ch]) _ reading'
          · rw [List.length_append, List.length_singleton]
            omega
          · intro isFull
            rw [List.length_append, List.length_singleton] at isFull
            have isLen : maxTokenLen = 256 := rfl
            have isLonger : buffer.length ≥ maxTokenLen - 1 := by omega
            have isLast : buffer.getLast? = some '\\' := by
              by_contra notBackslash
              exact isLong ⟨notBackslash, isLonger⟩
            rw [List.getLast?_eq_getElem?] at isLast
            rw [List.getElem?_append_left (by omega), ← isLast]
            congr 1
            omega
        · rcases stringBody_ends goesOn with ⟨rfl, isBody⟩
          rw [isBody, List.append_nil]
          refine ⟨rfl, ?_, ahead, rfl, reading⟩
          omega

/-- The literal behind the quote fits into `token_buffer`, or a diagnostic stops it. -/
def StringFits (behind : List Char) : Prop := ¬ StringOverflows (stringBody false behind) behind

theorem lexString_ends (reading : Reading before [] ('"' :: ahead) s) :
    Ends (¬ StringFits ahead)
      (fun token s' => StringFits ahead ∧ Makes before ('"' :: ahead) token s')
      (lexString s) := by
  apply Ends.bind reading.readChar
  rintro next s₁ ⟨rfl, reading₁⟩
  have ends := @readString_ends before ahead s₁ maxTokenLen [] false reading₁ rfl (by decide)
  apply Ends.bind (ends.weaken not_not_intro fun _ _ => id)
  rintro buffer s₂ ⟨rfl, isShort, rest, split, reading₂⟩
  rw [List.nil_append] at isShort reading₂ ⊢
  rw [List.nil_append, List.nil_append] at split
  apply Ends.bind reading₂.readChar
  rintro next s₃ ⟨-, reading₃⟩
  have fits : StringFits ahead := by
    rintro ⟨-, isLonger | ⟨isFull, -⟩⟩
    · rw [List.getElem?_eq_none (Nat.le_sub_one_of_lt isShort)] at isLonger
      cases isLonger
    · exact Nat.ne_of_lt isShort isFull
  have noNul : '\x00' ∉ stringBody false ahead := by
    have noNul := reading₃.taken_noNul
    simp only [List.mem_append, List.mem_cons, not_or] at noNul
    exact noNul.1.2
  rw [internString_eq noNul]
  have spelled := @Spelled.string (String.ofList (stringBody false ahead))
  rw [String.toList_ofList] at spelled
  apply (emit_makes _ _ reading₃ spelled (by simp)).weaken id
  intro token s₄ makes
  rw [List.append_assoc, List.singleton_append, List.cons_append, ← split] at makes
  exact ⟨fits, makes⟩

theorem readEscaped_ends {room : Nat} {buffer : List Char}
    (reading : Reading before ('\'' :: buffer) (ch :: ahead) s)
    (isRoom : room + buffer.length = maxTokenLen) :
    Ends (maxTokenLen ≤ buffer.length + 1 + (ahead.takeWhile (· != '\'')).length)
      (fun result s' => result.2 = '\'' →
        buffer.length + 1 + (ahead.takeWhile (· != '\'')).length < maxTokenLen ∧
        ∃ rest, buffer ++ ch :: ahead = result.1 ++ '\'' :: rest ∧
          Reading before ('\'' :: result.1) ('\'' :: rest) s')
      (readEscaped room buffer ch s) := by
  induction room generalizing buffer ch ahead s with
  | zero =>
      rw [readEscaped]
      change maxTokenLen ≤ _
      omega
  | succ room inductionHypothesis =>
      apply Ends.bind reading.readChar
      rintro next s' ⟨isNext, reading'⟩
      rcases ahead with _ | ⟨other, ahead⟩
      · obtain rfl : next = '\x00' := isNext
        rw [if_neg (by simp)]
        split_ifs with isFull
        · change maxTokenLen ≤ _
          simp
          omega
        · rintro ⟨⟩
      · obtain rfl : next = other := isNext
        by_cases isQuote : next = '\''
        · subst isQuote
          rw [if_neg (by simp), List.takeWhile_cons_of_neg (by simp)]
          split_ifs with isFull
          · change maxTokenLen ≤ _
            simp
            omega
          · rintro -
            refine ⟨?_, ahead, List.append_cons _ _ _, reading'⟩
            simp
            omega
        · rw [if_pos ⟨reading'.head_ne, isQuote⟩,
            List.takeWhile_cons_of_pos (by simpa using isQuote)]
          have isRoom' : room + (buffer ++ [ch]).length = maxTokenLen := by
            rw [List.length_append, List.length_singleton, ← isRoom]
            omega
          have isLen : (buffer ++ [ch]).length + 1 + (ahead.takeWhile (· != '\'')).length =
              buffer.length + 1 + (next :: ahead.takeWhile (· != '\'')).length := by
            simp
            omega
          have ends := @inductionHypothesis _ _ _ (buffer ++ [ch]) reading' isRoom'
          rw [isLen, ← List.append_cons] at ends
          exact ends

/-- The literal behind the quote fits into `token_buffer`. -/
def CharFits : (behind : List Char) → Prop
  | '\\' :: _ :: behind => (behind.takeWhile (· != '\'')).length + 2 < maxTokenLen
  | _ => True

theorem lexChar_ends (reading : Reading before [] ('\'' :: ahead) s) :
    Ends (¬ CharFits ahead)
      (fun token s' => CharFits ahead ∧ Makes before ('\'' :: ahead) token s')
      (lexChar s) := by
  apply Ends.bind reading.readChar
  rintro next s₁ ⟨rfl, reading₁⟩
  have characters : Ends (¬ CharFits ahead) (fun result s' => result.2 = '\'' →
      CharFits ahead ∧ ∃ rest, ahead = result.1 ++ '\'' :: rest ∧
        Reading before ('\'' :: result.1) ('\'' :: rest) s')
      (readCharacters (ahead.headD '\x00') s₁) := by
    rcases ahead with _ | ⟨ch, ahead⟩
    · apply Ends.step reading₁.readChar_end
      rintro ⟨⟩
    · apply Ends.bind reading₁.readChar
      rintro next s₂ ⟨rfl, reading₂⟩
      rw [List.headD_cons]
      split_ifs with isBackslash
      · subst isBackslash
        rcases ahead with _ | ⟨escaped, ahead⟩
        · apply Ends.step reading₂.readChar_end
          rintro ⟨⟩
        · apply (@readEscaped_ends _ _ _ _ _ ['\\'] reading₂ rfl).weaken
          · simp [CharFits]
            omega
          · intro result s₃ found isQuote
            rcases found isQuote with ⟨isShort, rest, split, reading₃⟩
            refine ⟨?_, rest, split, reading₃⟩
            simp [CharFits] at isShort ⊢
            omega
      · intro isQuote
        rcases ahead with _ | ⟨quote, rest⟩
        · cases isQuote
        · obtain rfl : quote = '\'' := isQuote
          have fits : CharFits (ch :: '\'' :: rest) := by
            rw [CharFits]
            · trivial
            · rintro _ _ ⟨⟩
              exact isBackslash rfl
          exact ⟨fits, rest, rfl, reading₂⟩
  apply Ends.bind characters
  rintro ⟨buffer, ch⟩ s₂ found
  dsimp only at found ⊢
  split_ifs with isQuote
  · exact errorAt_ends
  · rw [not_not] at isQuote
    rcases found isQuote with ⟨fits, rest, split, reading₂⟩
    apply Ends.bind reading₂.readChar
    rintro next s₃ ⟨-, reading₃⟩
    have noNul : '\x00' ∉ buffer := by
      have noNul := reading₃.taken_noNul
      simp only [List.mem_append, List.mem_cons, not_or] at noNul
      exact noNul.1.2
    rw [internString_eq noNul]
    have spelled := @Spelled.char (String.ofList buffer)
    rw [String.toList_ofList] at spelled
    apply (emit_makes _ _ reading₃ spelled (by simp)).weaken id
    intro token s₄ makes
    rw [List.append_assoc, List.singleton_append, List.cons_append, ← split] at makes
    exact ⟨fits, makes⟩

/-- A file is read as far as its tokens are. -/
theorem lexFile_of_error {fuel : Nat} {filename : String} {elements : List Char}
    {failure : Failure}
    (ran : lexTokens fuel fuel (start filename elements) = .error failure) :
    lexFile fuel filename elements = .error failure := by
  rw [lexFile, ran]
  rfl

theorem lexFile_of_ok {fuel : Nat} {filename : String} {elements : List Char}
    {tokens : List Token} {s : State}
    (ran : lexTokens fuel fuel (start filename elements) = .ok (tokens, s)) :
    lexFile fuel filename elements =
      match tokens.getLast? with
      | none => .ok [⟨.eof, "", s.loc⟩]
      | some cur =>
          if cur.kind = .eof then .ok tokens
          else .error (.errorAt "Internal error, expected eof at the end of file"
            cur.location) := by
  rw [lexFile, ran]
  rfl

end Shecc.Lexer
