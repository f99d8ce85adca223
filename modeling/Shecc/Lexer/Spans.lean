import Shecc.Lexer.Reading
import Mathlib.Logic.Relation

/-!
# The spans of tokens

A text is made of tokens and of the comments before them. A comment ends at the first
slash behind a star. `lex_token` takes stars in pairs, so it ends a comment at the
first slash that an odd number of stars stands directly before.
-/

namespace Shecc.Lexer

open Shecc.Preprocessor (Token TokenKind SourceLocation Failure maxTokenLen)

/-! ## Comments -/

/-- What is behind the first slash that enough stars stand directly before. -/
def closeComment (enough : Nat → Bool) : (stars : Nat) → List Char → Option (List Char)
  | _, [] => none
  | stars, ch :: behind =>
      if ch = '*' then closeComment enough (stars + 1) behind
      else if ch = '/' ∧ enough stars then some behind
      else closeComment enough 0 behind

/-- A star is enough to end a comment. -/
def anyStars (stars : Nat) : Bool := 0 < stars

/-- What `lex_token` needs to end a comment. -/
def oddStars (stars : Nat) : Bool := stars % 2 == 1

/-- `gap`, with `behind` behind it, is a sequence of comments. -/
inductive Comments (enough : Nat → Bool) : (gap behind : List Char) → Prop
  | nil {behind : List Char} : Comments enough [] behind
  | block {body gap behind : List Char} (closed : closeComment enough 0 body = some [])
      (more : Comments enough gap behind) : Comments enough ('/' :: '*' :: (body ++ gap)) behind
  | line {body behind : List Char} (oneLine : ∀ ch ∈ body, ch ≠ '\r' ∧ ch ≠ '\n')
      (ended : ∀ ch, behind.head? = some ch → ch = '\r' ∨ ch = '\n') :
      Comments enough ('/' :: '/' :: body) behind

/-- A comment starts the text. -/
def StartsComment (behind : List Char) : Prop :=
  ∃ rest, behind = '/' :: '*' :: rest ∨ behind = '/' :: '/' :: rest

section Comments

variable {enough : Nat → Bool} {stars : Nat} {body gap behind text rest : List Char}

theorem closeComment_append (closed : closeComment enough stars body = some []) :
    closeComment enough stars (body ++ rest) = some rest := by
  induction body generalizing stars with
  | nil => cases closed
  | cons ch body inductionHypothesis =>
      rw [closeComment] at closed
      rw [List.cons_append, closeComment]
      split_ifs at closed ⊢ with isStar isEnd
      · exact inductionHypothesis closed
      · cases closed
        rfl
      · exact inductionHypothesis closed

/-- A line goes up to where it ends. -/
theorem line_eq (oneLine : ∀ ch ∈ body, ch ≠ '\r' ∧ ch ≠ '\n')
    (ended : ∀ ch, behind.head? = some ch → ch = '\r' ∨ ch = '\n') :
    (body ++ behind).takeWhile (fun ch => decide (ch ≠ '\r' ∧ ch ≠ '\n')) = body := by
  rw [List.takeWhile_append_of_pos (by simpa using oneLine)]
  rcases behind with _ | ⟨ch, behind⟩
  · simp
  · rw [List.takeWhile_cons_of_neg, List.append_nil]
    rcases ended ch rfl with rfl | rfl <;> simp

/-- The comments before a token are those up to where none starts. -/
theorem Comments.unique {gap' behind' : List Char} (comments : Comments enough gap behind)
    (comments' : Comments enough gap' behind') (same : gap ++ behind = gap' ++ behind')
    (isToken : ¬ StartsComment behind) (isToken' : ¬ StartsComment behind') :
    gap = gap' := by
  induction comments generalizing gap' with
  | nil =>
      cases comments' with
      | nil => rfl
      | block closed more => exact absurd ⟨_, .inl same⟩ isToken
      | line oneLine ended => exact absurd ⟨_, .inr same⟩ isToken
  | @block body gap behind closed more inductionHypothesis =>
      cases comments' with
      | nil => exact absurd ⟨_, .inl same.symm⟩ isToken'
      | @block body' gap' behind' closed' more' =>
          simp only [List.cons_append, List.cons.injEq, true_and, List.append_assoc] at same
          have here := @closeComment_append _ _ _ (gap ++ behind) closed
          rw [same, closeComment_append closed', Option.some_inj] at here
          rw [← here] at same
          rw [List.append_cancel_right same, inductionHypothesis more' here.symm isToken]
      | line oneLine ended =>
          simp at same
  | @line body behind oneLine ended =>
      cases comments' with
      | nil => exact absurd ⟨_, .inr same.symm⟩ isToken'
      | block closed more => simp at same
      | line oneLine' ended' =>
          simp only [List.cons_append, List.cons.injEq, true_and] at same
          rw [← line_eq oneLine ended, same, line_eq oneLine' ended']

/-- A gap with something in it starts with a slash. -/
theorem Comments.head (comments : Comments enough gap behind) {ch : Char}
    (isHead : gap.head? = some ch) : ch = '/' := by
  cases comments with
  | nil => cases isHead
  | block closed more => exact (Option.some_inj.mp isHead).symm
  | line oneLine ended => exact (Option.some_inj.mp isHead).symm

/-- Behind a comment of the gap there are comments. -/
theorem Comments.behind_block (comments : Comments enough gap behind)
    (isBlock : gap = '/' :: '*' :: text) (closed : closeComment enough 0 text = some rest) :
    Comments enough rest behind := by
  cases comments with
  | nil => cases isBlock
  | block closed' more =>
      simp only [List.cons.injEq, true_and] at isBlock
      rw [← isBlock, closeComment_append closed', Option.some_inj] at closed
      rwa [← closed]
  | line oneLine ended => simp at isBlock

end Comments

/-! ## Skipping comments -/

/-- How the loop over a C-style comment ends if `stars` stars are directly before `ahead`. -/
def Skips (stars pos : Nat) (loc : SourceLocation) (ahead : List Char) : Prop :=
  (∃ body rest loc', ahead = body ++ rest ∧ closeComment oddStars stars body = some [] ∧
    skipComment pos loc (ahead ++ ['\x00']) = .ok (pos + 1 + body.length, loc')) ∨
  ∃ msg loc', skipComment pos loc (ahead ++ ['\x00']) = .error (.errorAt msg loc')

/-- A round of the loop goes on behind the characters it takes. -/
theorem Skips.round {stars stars' pos : Nat} {loc loc' : SourceLocation} {taken ahead : List Char}
    (skips : Skips stars' (pos + taken.length) loc' ahead)
    (counts : ∀ body, closeComment oddStars stars (taken ++ body) =
      closeComment oddStars stars' body)
    (runs : skipComment pos loc (taken ++ ahead ++ ['\x00']) =
      skipComment (pos + taken.length) loc' (ahead ++ ['\x00'])) :
    Skips stars pos loc (taken ++ ahead) := by
  rcases skips with ⟨body, rest, loc'', split, closed, isOk⟩ | ⟨msg, loc'', isError⟩
  · left
    refine ⟨taken ++ body, rest, loc'', by rw [split, List.append_assoc], ?_, ?_⟩
    · rw [counts, closed]
    · rw [runs, isOk, List.length_append]
      congr 2
      omega
  · right
    exact ⟨msg, loc'', runs.trans isError⟩

/-- The loop takes an even number of stars before it looks for the end, so it ends behind
the first slash that an odd number of stars stands before. -/
theorem skips_of_even {stars : Nat} (even : stars % 2 = 0) {ahead : List Char}
    (noNul : '\x00' ∉ ahead) (pos : Nat) (loc : SourceLocation) : Skips stars pos loc ahead := by
  have notOdd : oddStars stars = false := by
    simp [oddStars, even]
  induction isLen : ahead.length using Nat.strong_induction_on generalizing ahead stars pos loc with
  | _ len inductionHypothesis =>
      rcases ahead with _ | ⟨ch, ahead⟩
      · right
        simp [skipComment]
      · rw [List.mem_cons, not_or] at noNul
        by_cases isStar : ch = '*'
        · subst isStar
          rcases ahead with _ | ⟨next, ahead⟩
          · right
            simp [skipComment]
          · rw [List.mem_cons, not_or] at noNul
            by_cases isSlash : next = '/'
            · subst isSlash
              left
              refine ⟨['*', '/'], ahead, _, rfl, ?_, rfl⟩
              simp [closeComment, oddStars, Nat.add_mod, even]
            · have next' : ∃ stars', stars' % 2 = 0 ∧ ∀ body,
                  closeComment oddStars stars (['*', next] ++ body) =
                    closeComment oddStars stars' body := by
                by_cases isStar : next = '*'
                · refine ⟨stars + 2, by rw [Nat.add_mod_right, even], fun body => ?_⟩
                  simp [closeComment, isStar]
                · refine ⟨0, rfl, fun body => ?_⟩
                  simp [closeComment, isStar, isSlash]
              rcases next' with ⟨stars', even', counts⟩
              apply @Skips.round _ _ _ _ (nextLine next { loc with column := loc.column + 2 })
                ['*', next] ahead _ counts
              · simp [skipComment, isSlash, Ne.symm noNul.2.1]
              · apply inductionHypothesis ahead.length _ even' noNul.2.2 _ _ _ rfl
                · rw [← isLen]
                  simp [Nat.add_assoc]
                · simp [oddStars, even']
        · apply @Skips.round stars 0 _ _ (nextLine ch { loc with column := loc.column + 1 }) [ch]
          · apply inductionHypothesis ahead.length _ rfl noNul.2 _ _ rfl rfl
            rw [← isLen]
            simp
          · intro body
            simp [closeComment, isStar, notOdd]
          · cases ahead <;> simp [skipComment, isStar, Ne.symm noNul.1]

/-- A line comment is skipped up to its end. -/
theorem skipLine_ends {ahead : List Char} (noNul : '\x00' ∉ ahead) (pos : Nat) :
    ∃ body rest, ahead = body ++ rest ∧ (∀ ch ∈ body, ch ≠ '\r' ∧ ch ≠ '\n') ∧
      (∀ ch, rest.head? = some ch → ch = '\r' ∨ ch = '\n') ∧
      skipLine pos (ahead ++ ['\x00']) = .ok (pos + 1 + body.length) := by
  induction ahead generalizing pos with
  | nil => exact ⟨[], [], by simp [skipLine]⟩
  | cons ch ahead inductionHypothesis =>
      rw [List.mem_cons, not_or] at noNul
      by_cases inLine : ch ≠ '\r' ∧ ch ≠ '\n'
      · rcases inductionHypothesis noNul.2 (pos + 1) with ⟨body, rest, rfl, oneLine, ended, isOk⟩
        refine ⟨ch :: body, rest, rfl, List.forall_mem_cons.mpr ⟨inLine, oneLine⟩, ended, ?_⟩
        rw [List.cons_append, skipLine, if_pos ⟨Ne.symm noNul.1, inLine⟩, isOk, List.length_cons]
        congr 1
        omega
      · refine ⟨[], ch :: ahead, rfl, by simp, ?_, ?_⟩
        · rintro other ⟨⟩
          rwa [not_and_or, not_not, not_not] at inLine
        · rw [List.cons_append, skipLine, if_neg fun plain => inLine plain.2]
          rfl

/-! ## A call -/

/-- The characters that `lex_token` finds. -/
structure At (before ahead : List Char) (s : State) : Prop where
  elements : s.buf.elements = before ++ ahead ++ ['\x00']
  size : s.buf.size = before.length
  noNul : '\x00' ∉ before ++ ahead

/-- The literal that starts here fits into `token_buffer`. -/
def Fits : (behind : List Char) → Prop
  | '"' :: behind => StringFits behind
  | '\'' :: behind => CharFits behind
  | _ => True

/-- The token behind the comments is lexed, or the NUL. -/
def LexesAt (before behind : List Char) (token : Token) (s : State) : Prop :=
  (token.kind = .eof ∧ behind = [] ∧ token.location.pos = before.length ∧
    token.location.len = 1 ∧ Reading before [] [] s) ∨ Makes before behind token s

/-- What starts the token behind the comments: `holds` is about where it is. -/
def Behind (ahead : List Char) (holds : (gap behind : List Char) → Prop) : Prop :=
  ∃ gap behind, ahead = gap ++ behind ∧ Comments oddStars gap behind ∧
    ¬ StartsComment behind ∧ holds gap behind

/-- A call of `lex_token` with a token ahead. -/
def Lexes (before ahead : List Char) (token : Token) (s : State) : Prop :=
  Behind ahead fun gap behind => Fits behind ∧ LexesAt (before ++ gap) behind token s

section Call

variable {before taken ahead : List Char} {s : State} {overflow : Prop}

theorem Reading.at_ (reading : Reading before taken ahead s) : At (before ++ taken) ahead s :=
  ⟨reading.elements, reading.size, reading.noNul⟩

/-- Without a comment ahead the token is here. -/
theorem Lexes.of_makes {token : Token} (notComment : ¬ StartsComment ahead) (fits : Fits ahead)
    (makes : Makes before ahead token s) : Lexes before ahead token s := by
  refine ⟨[], ahead, rfl, .nil, notComment, fits, .inr ?_⟩
  rwa [List.append_nil]

theorem Reading.drop {ch : Char} (reading : Reading before taken (ch :: ahead) s) :
    s.buf.elements.drop (s.buf.size + 1) = ahead ++ ['\x00'] := by
  rw [reading.elements, reading.size, List.append_assoc, List.drop_append]
  simp

theorem not_startsComment {ch : Char} (notSlash : ch ≠ '/') : ¬ StartsComment (ch :: ahead) := by
  rintro ⟨rest, ⟨⟨⟩⟩ | ⟨⟨⟩⟩⟩ <;> exact notSlash rfl

theorem fits_of_head {ch : Char} (notQuote : ch ≠ '"') (notTick : ch ≠ '\'') :
    Fits (ch :: ahead) := by
  rw [Fits]
  · trivial
  · rintro _ ⟨⟩
    exact notQuote rfl
  · rintro _ ⟨⟩
    exact notTick rfl

/-- A comment before what is ahead. -/
theorem Behind.block {body rest : List Char} {holds holds' : List Char → List Char → Prop}
    (isBehind : Behind rest holds) (closed : closeComment oddStars 0 body = some [])
    (more : ∀ gap behind, holds gap behind → holds' ('/' :: '*' :: (body ++ gap)) behind) :
    Behind ('/' :: '*' :: (body ++ rest)) holds' := by
  rcases isBehind with ⟨gap, behind, rfl, comments, isToken, isHolds⟩
  refine ⟨_, behind, ?_, .block closed comments, isToken, more gap behind isHolds⟩
  simp

/-- A comment up to the end of the line before what is ahead, which starts no comment. -/
theorem Behind.line {body rest : List Char} {holds holds' : List Char → List Char → Prop}
    (isBehind : Behind rest holds) (oneLine : ∀ ch ∈ body, ch ≠ '\r' ∧ ch ≠ '\n')
    (ended : ∀ ch, rest.head? = some ch → ch = '\r' ∨ ch = '\n')
    (more : ∀ behind, holds [] behind → holds' ('/' :: '/' :: body) behind) :
    Behind ('/' :: '/' :: (body ++ rest)) holds' := by
  rcases isBehind with ⟨gap, behind, rfl, comments, isToken, isHolds⟩
  rcases gap with _ | ⟨ch, gap⟩
  · exact ⟨_, behind, rfl, .line oneLine ended, isToken, more behind isHolds⟩
  · obtain rfl : ch = '/' := comments.head rfl
    rcases ended '/' rfl with ⟨⟨⟩⟩ | ⟨⟨⟩⟩

/-- What starts with a slash, given what the call behind a comment does. -/
theorem lexSlash_ends {again : Lex Token} (reading : Reading before [] ('/' :: ahead) s)
    (isAgain : ∀ before rest s', At before rest s' → rest.length < ahead.length →
      Ends (Behind rest fun _ behind => ¬ Fits behind) (Lexes before rest) (again s')) :
    Ends (Behind ('/' :: ahead) fun _ behind => ¬ Fits behind) (Lexes before ('/' :: ahead))
      (lexSlash again s) := by
  apply Ends.bind reading.readChar
  rintro next s₁ ⟨rfl, reading₁⟩
  split_ifs with isStar isSlash isAssign
  · rcases ahead with _ | ⟨ch, ahead⟩
    · cases isStar
    · obtain rfl : ch = '*' := isStar
      have noNul : '\x00' ∉ ahead := by
        have noNul := reading.noNul
        simp at noNul
        exact noNul.2
      apply Ends.step rfl
      rw [reading₁.drop]
      rcases skips_of_even (Nat.zero_mod 2) noNul s₁.buf.size s₁.loc with
        ⟨body, rest, loc, rfl, closed, isOk⟩ | ⟨msg, loc, isError⟩
      · rw [isOk]
        apply Ends.step rfl
        apply Ends.step rfl
        apply (isAgain (before ++ '/' :: '*' :: body) rest _ _ _).weaken
        · intro overflows
          exact overflows.block closed fun gap behind => id
        · rintro token s₂ lexes
          apply Behind.block lexes closed
          rintro gap behind ⟨fits, lexesAt⟩
          refine ⟨fits, ?_⟩
          simpa using lexesAt
        · constructor
          · simp [reading₁.elements]
          · simp [reading₁.size]
            omega
          · simpa using reading₁.noNul
        · simp <;> omega
      · rw [isError]
        trivial
  · rcases ahead with _ | ⟨ch, ahead⟩
    · cases isSlash
    · obtain rfl : ch = '/' := isSlash
      have noNul : '\x00' ∉ ahead := by
        have noNul := reading.noNul
        simp at noNul
        exact noNul.2
      apply Ends.step rfl
      rw [reading₁.drop]
      rcases skipLine_ends noNul s₁.buf.size with ⟨body, rest, rfl, oneLine, ended, isOk⟩
      rw [isOk]
      apply Ends.step rfl
      apply Ends.step rfl
      apply (isAgain (before ++ '/' :: '/' :: body) rest _ _ _).weaken
      · intro overflows
        exact overflows.line oneLine ended fun behind => id
      · rintro token s₂ lexes
        apply Behind.line lexes oneLine ended
        rintro behind ⟨fits, lexesAt⟩
        refine ⟨fits, ?_⟩
        simpa using lexesAt
      · constructor
        · simp [reading₁.elements]
        · simp [reading₁.size]
          omega
        · simpa using reading₁.noNul
      · simp <;> omega
  · rcases ahead with _ | ⟨ch, ahead⟩
    · cases isAssign
    · obtain rfl : ch = '=' := isAssign
      apply Ends.bind reading₁.readChar
      rintro next s₂ ⟨-, reading₂⟩
      apply (emit_makes ['/', '='] _ reading₂ (.of_text rfl) rfl).weaken id
      intro token s₃ makes
      apply Lexes.of_makes _ (fits_of_head (by decide) (by decide)) makes
      rintro ⟨rest, ⟨⟨⟩⟩ | ⟨⟨⟩⟩⟩
  · apply (emit_makes ['/'] _ reading₁ (.of_text rfl) rfl).weaken id
    intro token s₃ makes
    apply Lexes.of_makes _ (fits_of_head (by decide) (by decide)) makes
    rintro ⟨rest, ⟨⟨⟩⟩ | ⟨⟨⟩⟩⟩
    · exact isStar rfl
    · exact isSlash rfl

theorem lexToken_ends {fuel : Nat} (at_ : At before ahead s) (enough : ahead.length < fuel) :
    Ends (Behind ahead fun _ behind => ¬ Fits behind) (Lexes before ahead) (lexToken fuel s) := by
  induction fuel generalizing before ahead s with
  | zero => cases enough
  | succ fuel inductionHypothesis =>
      have reading : Reading before [] ahead
          { s with loc := { s.loc with pos := s.buf.size } } := by
        constructor
        · simpa using at_.elements
        · simpa using at_.size
        · simpa using at_.noNul
        · simp [at_.size]
      have isChar : peekChar 0 s = .ok (ahead.headD '\x00', s) := by
        rw [peekChar, at_.elements, at_.size, List.append_assoc, getD_behind]
        cases ahead <;> rfl
      apply Ends.step isChar
      apply Ends.step rfl
      rcases ahead with _ | ⟨ch, ahead⟩
      · apply Ends.step reading.readChar_end
        refine ⟨[], [], rfl, .nil, ?_, trivial, .inl ⟨rfl, rfl, ?_, rfl, ?_⟩⟩
        · rintro ⟨rest, same | same⟩ <;> cases same
        · simp [at_.size]
        · simpa using ⟨reading.elements, reading.size, reading.noNul, reading.pos⟩
      · have plain : ∀ {result : Except Failure (Token × State)}, ch ≠ '/' → ch ≠ '"' → ch ≠ '\'' →
            Ends False (Makes before (ch :: ahead)) result →
            Ends (Behind (ch :: ahead) fun _ behind => ¬ Fits behind) (Lexes before (ch :: ahead))
              result := by
          intro result notSlash notQuote notTick ends
          apply ends.weaken False.elim
          intro token s' makes
          exact .of_makes (not_startsComment notSlash) (fits_of_head notQuote notTick) makes
        have literal : ∀ {result : Except Failure (Token × State)}, ¬ StartsComment (ch :: ahead) →
            Ends (¬ Fits (ch :: ahead))
              (fun token s' => Fits (ch :: ahead) ∧ Makes before (ch :: ahead) token s') result →
            Ends (Behind (ch :: ahead) fun _ behind => ¬ Fits behind) (Lexes before (ch :: ahead))
              result := by
          intro result notComment ends
          apply ends.weaken
          · intro overflows
            exact ⟨[], _, rfl, .nil, notComment, overflows⟩
          · rintro token s' ⟨fits, makes⟩
            exact .of_makes notComment fits makes
        rw [List.headD_cons]
        have token := fun punctuator (isPunctuator : punctuators.lookup ch = some punctuator) =>
          (punctuators_branches.lookup isPunctuator).2 False _ _ _ reading
        split_ifs with isHash isNewline isSlash isSpace isNul isDigit isQuote isTick isWord_
        · subst isHash
          exact plain (by decide) (by decide) (by decide) (lexDirective_ends reading)
        · subst isNewline
          exact plain (by decide) (by decide) (by decide) (lexNewline_follows _ _ _ _ reading)
        · subst isSlash
          apply lexSlash_ends reading
          intro before' rest s' at_' shorter
          apply inductionHypothesis at_'
          exact Nat.lt_of_lt_of_le shorter (Nat.le_of_lt_succ (Nat.lt_of_succ_lt enough))
        · subst isSpace
          apply plain (by decide) (by decide) (by decide)
          exact lexWhitespace_ends reading (Nat.lt_of_succ_lt_succ enough)
        · cases reading.head_ne isNul
        · apply plain _ _ _ (lexNumber_ends reading isDigit)
          · rintro rfl
            cases isDigit
          · rintro rfl
            cases isDigit
          · rintro rfl
            cases isDigit
        · subst isQuote
          exact literal (not_startsComment (by decide)) (lexString_ends reading)
        · subst isTick
          exact literal (not_startsComment (by decide)) (lexChar_ends reading)
        · cases isPunctuator : punctuators.lookup ch with
          | some punctuator => exact plain isSlash isQuote isTick (token _ isPunctuator)
          | none =>
              apply plain isSlash isQuote isTick
              exact lexWord_ends reading isWord_ ((Bool.not_eq_true _).mp isDigit)
        · cases isPunctuator : punctuators.lookup ch with
          | some punctuator => exact plain isSlash isQuote isTick (token _ isPunctuator)
          | none => trivial

end Call

/-! ## A run -/

/-- The tokens lie in this order in the text from `pos` on. The span of each spells it, only
comments are before and between them, and the last is the NUL behind the text. -/
inductive Covers : (pos : Nat) → (ahead : List Char) → List Token → Prop
  | eof {pos : Nat} {gap : List Char} {token : Token} (comments : Comments anyStars gap [])
      (isEof : token.kind = .eof) (isPos : token.location.pos = (pos + gap.length : Nat))
      (isLen : token.location.len = 1) : Covers pos gap [token]
  | token {pos : Nat} {gap chars rest : List Char} {token : Token} {tokens : List Token}
      (comments : Comments anyStars gap (chars ++ rest))
      (spelled : Spelled token.literal token.kind chars)
      (isPos : token.location.pos = (pos + gap.length : Nat))
      (isLen : token.location.len = chars.length)
      (more : Covers (pos + gap.length + chars.length) rest tokens) :
      Covers pos (gap ++ (chars ++ rest)) (token :: tokens)

/-- The comments ahead end where their first slash behind a star is, and the literal behind
them fits into `token_buffer`. -/
def Tidy (ahead : List Char) : Prop :=
  ∀ gap behind, ahead = gap ++ behind → Comments oddStars gap behind → ¬ StartsComment behind →
    Comments anyStars gap behind ∧ Fits behind

/-- What is ahead of the NUL. -/
def State.ahead (s : State) : List Char := (s.buf.elements.drop s.buf.size).dropLast

/-- `lex_token` is called with the second state some calls behind the first. -/
def Reaches (fuel : Nat) : State → State → Prop :=
  Relation.ReflTransGen fun s s' => ∃ token, lexToken fuel s = .ok (token, s') ∧ token.kind ≠ .eof

/-- The spans are in increasing order and disjoint. -/
theorem Covers.ordered {pos : Nat} {ahead : List Char} {tokens : List Token}
    (covers : Covers pos ahead tokens) :
    (∀ token ∈ tokens, (pos : Int) ≤ token.location.pos) ∧ tokens.Pairwise fun token later =>
      token.location.pos + token.location.len ≤ later.location.pos := by
  induction covers with
  | eof comments isEof isPos isLen =>
      simp only [List.forall_mem_singleton, List.pairwise_singleton, and_true, isPos]
      omega
  | token comments spelled isPos isLen more inductionHypothesis =>
      rcases inductionHypothesis with ⟨behind, pairwise⟩
      simp only [List.forall_mem_cons, List.pairwise_cons, isPos, isLen]
      refine ⟨⟨by omega, ?_⟩, ?_, pairwise⟩
      · intro later member
        have isBehind := behind later member
        omega
      · intro later member
        have isBehind := behind later member
        push_cast at isBehind ⊢
        exact isBehind

/-- There is one `T_eof`, at the end of the tokens and of the text. -/
theorem Covers.last {pos : Nat} {ahead : List Char} {tokens : List Token}
    (covers : Covers pos ahead tokens) : ∃ front token, tokens = front ++ [token] ∧
      token.kind = .eof ∧ token.location.pos = ((pos + ahead.length : Nat) : Int) ∧
      ∀ other ∈ front, other.kind ≠ .eof := by
  induction covers with
  | @eof pos gap token comments isEof isPos isLen =>
      exact ⟨[], token, rfl, isEof, isPos, by simp⟩
  | @token pos gap chars rest token tokens comments spelled isPos isLen more inductionHypothesis =>
      rcases inductionHypothesis with ⟨front, last, rfl, isEof, isEnd, others⟩
      refine ⟨token :: front, last, rfl, isEof, ?_,
        List.forall_mem_cons.mpr ⟨spelled.not_eof, others⟩⟩
      rw [isEnd]
      simp only [List.length_append]
      omega

section Run

variable {before ahead gap behind : List Char} {s s' : State} {fuel rounds : Nat} {token : Token}
  {tokens : List Token}

theorem At.ahead_eq (at_ : At before ahead s) : s.ahead = ahead := by
  rw [State.ahead, at_.elements, at_.size, List.append_assoc, List.drop_left,
    List.dropLast_concat]

/-- The comments ahead are determined. -/
theorem tidy_iff (comments : Comments oddStars gap behind) (isToken : ¬ StartsComment behind) :
    Tidy (gap ++ behind) ↔ Comments anyStars gap behind ∧ Fits behind := by
  constructor
  · intro tidy
    exact tidy gap behind rfl comments isToken
  · rintro holds gap' behind' split comments' isToken'
    obtain rfl := comments.unique comments' split isToken isToken'
    rw [List.append_cancel_left split] at holds
    exact holds

theorem reaches_iff_of_eof (lexed : lexToken fuel s = .ok (token, s')) (isEof : token.kind = .eof)
    {holds : State → Prop} : (∀ s'', Reaches fuel s s'' → holds s'') ↔ holds s := by
  constructor
  · intro all
    exact all s .refl
  · intro here s'' reaches
    rcases reaches.cases_head with rfl | ⟨s₁, ⟨token', lexed', notEof⟩, -⟩
    · exact here
    · rw [lexed] at lexed'
      cases lexed'
      exact absurd isEof notEof

theorem reaches_iff (lexed : lexToken fuel s = .ok (token, s')) (notEof : token.kind ≠ .eof)
    {holds : State → Prop} :
    (∀ s'', Reaches fuel s s'' → holds s'') ↔ holds s ∧ ∀ s'', Reaches fuel s' s'' → holds s'' := by
  constructor
  · intro all
    exact ⟨all s .refl, fun s'' reaches => all s'' (.head ⟨token, lexed, notEof⟩ reaches)⟩
  · rintro ⟨here, there⟩ s'' reaches
    rcases reaches.cases_head with rfl | ⟨s₁, ⟨token', lexed', -⟩, reaches'⟩
    · exact here
    · rw [lexed] at lexed'
      cases lexed'
      exact there s'' reaches'

/-- The comments before the first token are those that its position leaves. -/
theorem covers_cons_iff {pos : Nat} {chars rest : List Char}
    (spelled : Spelled token.literal token.kind chars)
    (isPos : token.location.pos = (pos + gap.length : Nat))
    (isLen : token.location.len = chars.length) :
    Covers pos (gap ++ (chars ++ rest)) (token :: tokens) ↔
      Comments anyStars gap (chars ++ rest) ∧
        Covers (pos + gap.length + chars.length) rest tokens := by
  constructor
  · intro covers
    generalize split : gap ++ (chars ++ rest) = ahead at covers
    cases covers with
    | eof comments isEof => exact absurd isEof spelled.not_eof
    | @token pos gap' chars' rest' token tokens comments spelled' isPos' isLen' more =>
        have sameGap : gap'.length = gap.length := by
          rw [isPos] at isPos'
          omega
        have sameLen : chars'.length = chars.length := by
          rw [isLen] at isLen'
          omega
        rcases List.append_inj split sameGap.symm with ⟨rfl, split'⟩
        rcases List.append_inj split' sameLen.symm with ⟨rfl, rfl⟩
        exact ⟨comments, more⟩
  · rintro ⟨comments, more⟩
    exact .token comments spelled isPos isLen more

theorem covers_eof_iff {pos : Nat} (isEof : token.kind = .eof)
    (isPos : token.location.pos = (pos + gap.length : Nat)) (isLen : token.location.len = 1) :
    Covers pos gap [token] ↔ Comments anyStars gap [] := by
  constructor
  · intro covers
    generalize isTokens : [token] = tokens at covers
    cases covers with
    | eof comments => exact comments
    | token comments spelled =>
        cases isTokens
        exact absurd isEof spelled.not_eof
  · intro comments
    exact .eof comments isEof isPos isLen

/-- A round of the loop. -/
theorem lexTokens_succ (at_ : At before ahead s) :
    lexTokens fuel (rounds + 1) s = (lexToken fuel s).bind fun result =>
      if result.1.kind = .eof then .ok ([result.1], result.2)
      else (lexTokens fuel rounds result.2).map fun more => (result.1 :: more.1, more.2) := by
  have isMore : s.buf.size < s.buf.elements.length := by
    rw [at_.elements, at_.size]
    simp
  change (if s.buf.size < s.buf.elements.length then _ else _ : Lex (List Token)) s = _
  rw [if_pos isMore]
  change (lexToken fuel s).bind _ = _
  congr 1
  funext ⟨token, s'⟩
  change (if token.kind = .eof then _ else _ : Lex (List Token)) s' = _
  split_ifs with isEof
  · rfl
  · change (lexTokens fuel rounds s').bind _ = _
    cases lexTokens fuel rounds s' <;> rfl

theorem lexTokens_covers_iff (at_ : At before ahead s) (enough : ahead.length < fuel)
    (enough' : ahead.length < rounds)
    (quiet : ∀ msg loc, lexTokens fuel rounds s ≠ .error (.errorAt msg loc)) :
    (∃ tokens s', lexTokens fuel rounds s = .ok (tokens, s') ∧
      Covers before.length ahead tokens) ↔ ∀ s', Reaches fuel s s' → Tidy s'.ahead := by
  induction rounds generalizing before ahead s with
  | zero => cases enough'
  | succ rounds inductionHypothesis =>
      rw [lexTokens_succ at_] at quiet ⊢
      have ends := lexToken_ends at_ enough
      cases lexed : lexToken fuel s with
      | error failure =>
          rw [lexed] at ends quiet
          constructor
          · rintro ⟨tokens, s', ⟨⟩, -⟩
          · intro all
            cases failure with
            | errorAt msg loc => cases quiet msg loc rfl
            | outOfBounds =>
                rcases ends with ⟨gap, behind, rfl, comments, isToken, overflows⟩
                have tidy := all s .refl
                rw [at_.ahead_eq, tidy_iff comments isToken] at tidy
                cases overflows tidy.2
            | _ => cases ends
      | ok result =>
          rcases result with ⟨token, s₁⟩
          rw [lexed] at ends quiet
          rcases ends with ⟨gap, behind, rfl, comments, isToken, fits, lexesAt⟩
          have tidy : Tidy s.ahead ↔ Comments anyStars gap behind := by
            rw [at_.ahead_eq, tidy_iff comments isToken, and_iff_left fits]
          rcases lexesAt with ⟨isEof, rfl, isPos, isLen, -⟩ |
            ⟨chars, rest, rfl, spelled, isPos, isLen, reading⟩
          · rw [List.length_append] at isPos
            rw [reaches_iff_of_eof lexed isEof, tidy, List.append_nil,
              ← covers_eof_iff isEof isPos isLen]
            change (∃ tokens s', (if token.kind = .eof then _ else _) = _ ∧ _) ↔ _
            rw [if_pos isEof]
            simp
          · rw [List.length_append] at isPos
            have at₁ : At (before ++ gap ++ chars) rest s₁ := reading.at_
            change ∀ msg loc, (if token.kind = .eof then _ else _) ≠ _ at quiet
            rw [if_neg spelled.not_eof] at quiet
            have quiet₁ : ∀ msg loc, lexTokens fuel rounds s₁ ≠ .error (.errorAt msg loc) := by
              intro msg loc isError
              exact quiet msg loc (by rw [isError]; rfl)
            have shorter : rest.length + 1 ≤ (gap ++ (chars ++ rest)).length := by
              have positive := List.length_pos_of_ne_nil spelled.nonempty
              simp only [List.length_append]
              omega
            have isMore := inductionHypothesis at₁ (by omega) (by omega) quiet₁
            rw [reaches_iff lexed spelled.not_eof, tidy, ← isMore]
            change (∃ tokens s', (if token.kind = .eof then _ else _) = _ ∧ _) ↔ _
            rw [if_neg spelled.not_eof, List.length_append, List.length_append]
            constructor
            · rintro ⟨tokens, s', isOk, covers⟩
              cases ran : lexTokens fuel rounds s₁ with
              | error failure =>
                  rw [ran] at isOk
                  cases isOk
              | ok more =>
                  rw [ran] at isOk
                  cases isOk
                  rw [covers_cons_iff spelled isPos isLen] at covers
                  exact ⟨covers.1, _, _, rfl, covers.2⟩
            · rintro ⟨comments', tokens, s', isOk, covers⟩
              rw [isOk]
              exact ⟨_, _, rfl, (covers_cons_iff spelled isPos isLen).mpr ⟨comments', covers⟩⟩

theorem lexTokens_nonempty (at_ : At before ahead s)
    (isOk : lexTokens fuel (rounds + 1) s = .ok (tokens, s')) : tokens ≠ [] := by
  rw [lexTokens_succ at_] at isOk
  rintro rfl
  cases lexed : lexToken fuel s with
  | error failure =>
      rw [lexed] at isOk
      cases isOk
  | ok result =>
      rw [lexed] at isOk
      change (if result.1.kind = .eof then _ else _) = _ at isOk
      split_ifs at isOk
      · cases isOk
      · cases ran : lexTokens fuel rounds result.2 with
        | error failure =>
            rw [ran] at isOk
            cases isOk
        | ok more =>
            rw [ran] at isOk
            cases isOk

/-- A text on which no diagnostic is raised is lexed without loss exactly if wherever
`lex_token` is called the comments ahead end where C ends them, and the literal behind them
fits into `token_buffer`. -/
theorem lexFile_covers_iff {text : List Char} {filename : String} (noNul : '\x00' ∉ text)
    (enough : text.length < fuel)
    (quiet : ∀ msg loc, lexFile fuel filename (text ++ ['\x00']) ≠ .error (.errorAt msg loc)) :
    (∃ tokens, lexFile fuel filename (text ++ ['\x00']) = .ok tokens ∧ Covers 0 text tokens) ↔
      ∀ s, Reaches fuel (start filename (text ++ ['\x00'])) s → Tidy s.ahead := by
  have at_ : At [] text (start filename (text ++ ['\x00'])) := ⟨rfl, rfl, noNul⟩
  have quiet' : ∀ msg loc, lexTokens fuel fuel (start filename (text ++ ['\x00'])) ≠
      .error (.errorAt msg loc) := by
    intro msg loc isError
    exact quiet msg loc (lexFile_of_error isError)
  rw [← lexTokens_covers_iff at_ enough enough quiet']
  constructor
  · rintro ⟨tokens, isOk, covers⟩
    cases ran : lexTokens fuel fuel (start filename (text ++ ['\x00'])) with
    | error failure =>
        rw [lexFile_of_error ran] at isOk
        cases isOk
    | ok result =>
        rcases result with ⟨tokens', s'⟩
        refine ⟨tokens', s', rfl, ?_⟩
        obtain ⟨rounds, rfl⟩ : ∃ rounds, fuel = rounds + 1 := ⟨fuel - 1, by omega⟩
        rw [lexFile_of_ok ran] at isOk
        rw [List.getLast?_eq_some_getLast (lexTokens_nonempty at_ ran)] at isOk
        dsimp only at isOk
        split_ifs at isOk
        cases isOk
        exact covers
  · rintro ⟨tokens, s', isOk, covers⟩
    refine ⟨tokens, ?_, covers⟩
    rcases covers.last with ⟨front, token, rfl, isEof, -⟩
    rw [lexFile_of_ok isOk]
    simp [isEof]

end Run

/-- A declaration with a comment in it. -/
def commented : List Char := "int/**/x;".toList

theorem commented_covers_iff :
    (∃ tokens, lexFile 10 "f" (commented ++ ['\x00']) = .ok tokens ∧ Covers 0 commented tokens) ↔
      ∀ s, Reaches 10 (start "f" (commented ++ ['\x00'])) s → Tidy s.ahead := by
  apply lexFile_covers_iff (by decide) (by decide)
  intro msg loc isError
  have isOk : (lexFile 10 "f" (commented ++ ['\x00'])).isOk = true := by decide +kernel
  rw [isError] at isOk
  cases isOk

/-- A declaration between a comment that ends behind two stars and another comment. -/
def swallowed : List Char := "/***/int x;/* */y".toList

/-- The declaration is neither in a span nor in a comment. -/
theorem swallowed_not_covers : ¬ ∀ (text : List Char) (filename : String) (fuel : Nat),
    '\x00' ∉ text → text.length < fuel →
    (∀ msg loc, lexFile fuel filename (text ++ ['\x00']) ≠ .error (.errorAt msg loc)) →
    ∃ tokens, lexFile fuel filename (text ++ ['\x00']) = .ok tokens ∧ Covers 0 text tokens := by
  intro all
  have lexed : (lexFile 20 "f" (swallowed ++ ['\x00'])).toOption =
      some [⟨.identifier, "y", ⟨16, 1, 1, 17, "f"⟩⟩, ⟨.eof, "", ⟨17, 1, 1, 18, "f"⟩⟩] := by
    decide +kernel
  rcases all swallowed "f" 20 (by decide) (by decide) (by
    intro msg loc isError
    rw [isError] at lexed
    cases lexed) with ⟨tokens, isOk, covers⟩
  rw [isOk] at lexed
  cases lexed
  generalize isText : swallowed = text at covers
  cases covers with
  | @token _ gap chars rest _ _ comments spelled isPos isLen more =>
      have length : gap.length = 16 := by
        rw [Nat.zero_add] at isPos
        exact (Int.ofNat.inj isPos).symm
      have isGap : gap = swallowed.take 16 := by
        rw [isText, ← length, List.take_left]
      have isBlock : gap = '/' :: '*' :: "**/int x;/* */".toList := by
        rw [isGap]
        decide
      have closed : closeComment anyStars 0 "**/int x;/* */".toList =
          some "int x;/* */".toList := by
        decide
      have isHead : "int x;/* */".toList.head? = some 'i' := by
        decide
      cases (comments.behind_block isBlock closed).head isHead

end Shecc.Lexer
