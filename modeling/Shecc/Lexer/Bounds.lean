import Shecc.Lexer.Comment

/-!
# The bounds of `token_buffer`

Only literals may leave `token_buffer`: in a string literal the check is skipped behind a
backslash, in a character literal there is none. A buffer of `read_file` ends with a NUL
and may have others before.
-/

namespace Shecc.Lexer

open Shecc.Preprocessor (Token TokenKind SourceLocation Failure maxTokenLen)

/-! ## Literals that do not fit -/

/-- The quote that ends the string literal behind which `chars` are, at its first character or
not directly behind a backslash. -/
def ClosesAt (chars : Nat → Char) (i : Nat) : Prop :=
  chars i = '"' ∧ (i = 0 ∨ chars (i - 1) ≠ '\\')

/-- The characters behind the quote of a string literal fill `token_buffer` behind a
backslash, which is not the end: a backslash fills it, or the NUL is put behind it. -/
def StringLeaves (chars : Nat → Char) : Prop :=
  (∀ i < maxTokenLen, ¬ ClosesAt chars i) ∧ chars (maxTokenLen - 2) = '\\' ∧
    (chars (maxTokenLen - 1) = '\\' ∨ ClosesAt chars maxTokenLen)

/-- The characters behind the quote of a character literal, the first of which is a
backslash, have no end before `token_buffer` is full. -/
def CharLeaves (chars : Nat → Char) : Prop :=
  chars 0 = '\\' ∧ ∀ i, 2 ≤ i → i < maxTokenLen → chars i ≠ '\x00' ∧ chars i ≠ '\''

/-- The characters of a text, which the NUL at its end goes on. -/
def charsOf (text : List Char) (i : Nat) : Char := text.getD i '\x00'

/-- A literal that leaves `token_buffer` starts the text. -/
def LiteralLeaves (text : List Char) : Prop :=
  (charsOf text 0 = '"' ∧ StringLeaves fun i => charsOf text (i + 1)) ∨
    (charsOf text 0 = '\'' ∧ CharLeaves fun i => charsOf text (i + 1))

/-- The first token of the text is a literal that leaves `token_buffer`. -/
def Leaves (text : List Char) : Prop :=
  ∃ gap behind, text = gap ++ behind ∧ '\x00' ∉ gap ∧ Comments oddStars gap behind ∧
    LiteralLeaves behind

/-! ## Reading on -/

/-- `read_char` yields the characters, again and again the NUL at the end. -/
structure Source (chars : Nat → Char) (s : State) : Prop where
  terminated : s.left.getLast? = some '\x00'
  isChar : ∀ i, charsOf s.left i = chars i

section Source

variable {chars : Nat → Char} {s : State}

theorem Source.readChar (source : Source chars s) :
    ∃ s', readChar s = .ok (chars 1, s') ∧ Source (fun i => chars (i + 1)) s' := by
  have terminated := source.terminated
  have isChar := source.isChar
  rcases isLeft : s.left with _ | ⟨ch, _ | ⟨next, rest⟩⟩
  · rw [isLeft] at terminated
    cases terminated
  · rw [isLeft] at terminated isChar
    obtain rfl : ch = '\x00' := Option.some_inj.mp terminated
    have isNul : ∀ i, chars i = '\x00' := by
      intro i
      rw [← isChar i]
      cases i <;> rfl
    have isEnd : s.buf.size + 1 ≥ s.buf.elements.length := by
      have length := congrArg List.length isLeft
      simp [State.left] at length
      omega
    have isLast : s.buf.elements.getLastD '\x00' = '\x00' := by
      have last := congrArg List.getLast? isLeft
      rw [State.left, List.getLast?_drop] at last
      split_ifs at last
      · cases last
      · rw [List.getLastD_eq_getLast?, last]
        rfl
    rw [Lexer.readChar, if_pos isEnd, isLast, isNul]
    refine ⟨s, rfl, source.terminated, ?_⟩
    intro i
    rw [source.isChar, isNul, isNul]
  · rw [isLeft] at terminated isChar
    have isChar₁ : next = chars 1 := isChar 1
    rw [State.readChar_eq isLeft, isChar₁]
    have isLeft' : State.left { s with buf := { s.buf with size := s.buf.size + 1 } } =
        next :: rest :=
      State.drop_eq isLeft
    refine ⟨_, rfl, ?_, ?_⟩
    · rw [isLeft']
      exact terminated
    · rw [isLeft']
      exact fun i => isChar (i + 1)

/-- Behind a step that ends the literal there is no overflow. -/
theorem OnLine.inside {step : Lex Token} (onLine : OnLine False step) (s : State) :
    step s ≠ .error .outOfBounds := by
  intro overflows
  have allows := onLine s
  rw [overflows] at allows
  exact allows rfl

theorem bind_overflows_iff {α : Type} {first : Lex α} {more : α → Lex Token}
    (behind : ∀ value, OnLine False (more value)) :
    (first >>= more) s = .error .outOfBounds ↔ first s = .error .outOfBounds := by
  change (first s).bind (fun result => more result.1 result.2) = _ ↔ _
  cases result : first s with
  | error failure =>
      constructor <;>
        · rintro ⟨⟩
          rfl
  | ok result' =>
      apply iff_of_false
      · exact (behind result'.1).inside result'.2
      · rintro ⟨⟩

theorem goesOn_iff {n : Nat} {special : Bool}
    (isSpecial : ∀ i, n = i + 1 → special = (chars i == '\\')) (isFirst : n = 0 → special = false) :
    chars n ≠ '"' ∨ special = true ↔ ¬ ClosesAt chars n := by
  rcases n with _ | n
  · simp [ClosesAt, isFirst rfl]
  · simp [ClosesAt, isSpecial n rfl]
    tauto

/-- The loop over a string literal, `n` characters of which are in `token_buffer`. -/
theorem readString_overflows_iff {room n : Nat} {buffer : List Char} {special : Bool}
    (source : Source (fun i => chars (n + i)) s) (isRoom : room + n = maxTokenLen)
    (isLength : buffer.length = n)
    (isLast : ∀ i, n = i + 1 → buffer.getLast? = some (chars i) ∧ special = (chars i == '\\'))
    (isFirst : n = 0 → special = false)
    (goesOn : ∀ i < n, ¬ ClosesAt chars i)
    (filled : n = maxTokenLen → chars (maxTokenLen - 2) = '\\') :
    readString room buffer special (chars n) s = .error .outOfBounds ↔ StringLeaves chars := by
  have isOpen := goesOn_iff (fun i isNext => (isLast i isNext).2) isFirst
  induction room generalizing n buffer special s with
  | zero =>
      obtain rfl : n = maxTokenLen := (Nat.zero_add n).symm.trans isRoom
      have isLast' : buffer.getLast? = some (chars (maxTokenLen - 1)) := (isLast _ rfl).1
      rw [readString, isLast']
      split_ifs with isOver isBackslash
      · exact iff_of_true rfl ⟨goesOn, filled rfl, .inl (Option.some_inj.mp isBackslash)⟩
      · apply iff_of_false (by rintro ⟨⟩)
        rintro ⟨-, -, isLast | isEnd⟩
        · exact isBackslash (congrArg some isLast)
        · exact isOpen.mp isOver isEnd
      · exact iff_of_true rfl ⟨goesOn, filled rfl, .inr (not_not.mp (mt isOpen.mpr isOver))⟩
  | succ room inductionHypothesis =>
      have isShort : n < maxTokenLen := by omega
      rw [readString]
      split_ifs with isOver isLong
      · -- The check is made, so the character before the last is not a backslash.
        apply iff_of_false (by rintro ⟨⟩)
        rintro ⟨-, isBackslash, -⟩
        rcases n with _ | n
        · exact absurd isLong.2 (by simp [isLength, maxTokenLen])
        · rw [isLength] at isLong
          have isEnd : n = maxTokenLen - 2 := by omega
          rw [(isLast n rfl).1, isEnd, isBackslash] at isLong
          exact isLong.1 rfl
      · rcases source.readChar with ⟨s', isOk, source'⟩
        rw [bind_eq isOk]
        apply inductionHypothesis (n := n + 1)
        · simpa [Nat.add_assoc, Nat.add_comm 1] using source'
        · omega
        · simp [isLength]
        · rintro i ⟨⟩
          simp
        · rintro ⟨⟩
        · intro i isBelow
          rcases Nat.lt_succ_iff_lt_or_eq.mp isBelow with isBelow | rfl
          · exact goesOn i isBelow
          · exact isOpen.mp isOver
        · intro isFull
          rcases n with _ | n
          · cases isFull
          · have isBackslash : buffer.getLast? = some '\\' := by
              by_contra notBackslash
              apply isLong ⟨notBackslash, _⟩
              omega
            rw [(isLast n rfl).1] at isBackslash
            rw [← Option.some_inj.mp isBackslash, ← isFull]
            rfl
        · exact goesOn_iff (by rintro i ⟨⟩; rfl) (by rintro ⟨⟩)
      · apply iff_of_false (by rintro ⟨⟩)
        rintro ⟨allOpen, -⟩
        exact isOver (isOpen.mpr (allOpen n isShort))

theorem lexString_overflows_iff (source : Source chars s) :
    lexString s = .error .outOfBounds ↔ StringLeaves fun i => chars (i + 1) := by
  rcases source.readChar with ⟨s', isOk, source'⟩
  have string := @readString_overflows_iff (fun i => chars (i + 1)) s' maxTokenLen 0 [] false
    (by simpa using source') rfl rfl nofun (fun _ => rfl)
    (fun i isBelow => absurd isBelow i.not_lt_zero) nofun
  rw [← string, lexString, bind_eq isOk]
  apply bind_overflows_iff
  intro buffer
  exact Stays.readChar.onLine fun _ => .emit _ _ _

/-- The loop over the characters behind a backslash, `n` characters of which are in
`token_buffer`. -/
theorem readEscaped_overflows_iff {room n : Nat} {buffer : List Char}
    (source : Source (fun i => chars (n + i)) s) (isRoom : room + n = maxTokenLen)
    (positive : 0 < n)
    (goesOn : ∀ i, 2 ≤ i → i ≤ n → i < maxTokenLen → chars i ≠ '\x00' ∧ chars i ≠ '\'') :
    readEscaped room buffer (chars n) s = .error .outOfBounds ↔
      ∀ i, 2 ≤ i → i < maxTokenLen → chars i ≠ '\x00' ∧ chars i ≠ '\'' := by
  induction room generalizing n buffer s with
  | zero =>
      apply iff_of_true rfl
      intro i isBehind isBelow
      exact goesOn i isBehind (by omega) isBelow
  | succ room inductionHypothesis =>
      rcases source.readChar with ⟨s', isOk, source'⟩
      rw [readEscaped, bind_eq isOk]
      split_ifs with isPlain isFull
      · apply inductionHypothesis (n := n + 1)
        · simpa [Nat.add_assoc, Nat.add_comm 1] using source'
        · omega
        · omega
        · intro i isBehind isUpTo isBelow
          rcases Nat.le_succ_iff.mp isUpTo with isUpTo | rfl
          · exact goesOn i isBehind isUpTo isBelow
          · exact isPlain
      · apply iff_of_true rfl
        intro i isBehind isBelow
        exact goesOn i isBehind (by omega) isBelow
      · apply iff_of_false (by rintro ⟨⟩)
        intro allPlain
        exact isPlain (allPlain (n + 1) (by omega) (by omega))

theorem lexChar_overflows_iff (source : Source chars s) :
    lexChar s = .error .outOfBounds ↔ CharLeaves fun i => chars (i + 1) := by
  rcases source.readChar with ⟨s₁, isOk₁, source₁⟩
  rcases source₁.readChar with ⟨s₂, isOk₂, source₂⟩
  have characters : readCharacters (chars 1) s₁ = .error .outOfBounds ↔
      CharLeaves fun i => chars (i + 1) := by
    rw [readCharacters, bind_eq isOk₂, CharLeaves]
    split_ifs with isBackslash
    · rw [and_iff_right isBackslash]
      apply @readEscaped_overflows_iff (fun i => chars (i + 1)) _ _ 1
      · simpa [Nat.add_assoc, Nat.add_comm 1] using source₂
      · rfl
      · exact Nat.one_pos
      · intro i isBehind isUpTo
        omega
    · apply iff_of_false nofun
      rintro ⟨isBackslash', -⟩
      exact isBackslash isBackslash'
  rw [← characters, lexChar, bind_eq isOk₁]
  apply bind_overflows_iff
  rintro ⟨buffer, ch⟩
  dsimp only
  split_ifs
  · exact .errorAt _ _
  · exact Stays.readChar.onLine fun _ => .emit _ _ _

end Source

/-! ## A call -/

section Call

variable {s : State} {text gap behind body rest : List Char} {fuel : Nat}

theorem LiteralLeaves.quote (leaves : LiteralLeaves text) :
    text.head? = some '"' ∨ text.head? = some '\'' := by
  rcases text with _ | ⟨ch, text⟩
  · rcases leaves with ⟨⟨⟩, -⟩ | ⟨⟨⟩, -⟩
  · rcases leaves with ⟨isQuote, -⟩ | ⟨isTick, -⟩
    · exact .inl (congrArg some isQuote)
    · exact .inr (congrArg some isTick)

theorem not_literalLeaves_slash : ¬ LiteralLeaves ('/' :: text) := by
  intro leaves
  rcases leaves.quote with isQuote | isTick
  · cases isQuote
  · cases isTick

/-- Without a comment the literal is here. -/
theorem leaves_iff (notComment : ¬ StartsComment text) : Leaves text ↔ LiteralLeaves text := by
  constructor
  · rintro ⟨gap, behind, rfl, -, comments, leaves⟩
    cases comments with
    | nil => exact leaves
    | block closed more => exact absurd ⟨_, .inl rfl⟩ notComment
    | line oneLine ended => exact absurd ⟨_, .inr rfl⟩ notComment
  · intro leaves
    exact ⟨[], text, rfl, by simp, .nil, leaves⟩

/-- A comment before the text is skipped. -/
theorem leaves_block_iff (closed : closeComment oddStars 0 body = some []) (noNul : '\x00' ∉ body) :
    Leaves ('/' :: '*' :: (body ++ rest)) ↔ Leaves rest := by
  constructor
  · rintro ⟨gap, behind, split, noNul', comments, leaves⟩
    cases comments with
    | nil =>
        rw [← split.trans (List.nil_append behind)] at leaves
        exact absurd leaves not_literalLeaves_slash
    | @block body' gap _ closed' more =>
        simp only [List.cons_append, List.cons.injEq, true_and, List.append_assoc] at split
        have here := @closeComment_append _ _ _ rest closed
        rw [split, closeComment_append closed', Option.some_inj] at here
        refine ⟨gap, behind, here.symm, ?_, more, leaves⟩
        intro member
        exact noNul' (by simp [member])
    | line oneLine ended => simp at split
  · rintro ⟨gap, behind, rfl, noNul', comments, leaves⟩
    refine ⟨_, behind, ?_, ?_, .block closed comments, leaves⟩
    · simp
    · simp [noNul, noNul']

/-- No literal is behind a comment that is not closed before a NUL. -/
theorem not_leaves_block
    (unclosed : ∀ body rest, text = body ++ rest → '\x00' ∉ body →
      closeComment oddStars 0 body ≠ some []) : ¬ Leaves ('/' :: '*' :: text) := by
  rintro ⟨gap, behind, split, noNul, comments, leaves⟩
  cases comments with
  | nil =>
      rw [← split.trans (List.nil_append behind)] at leaves
      exact not_literalLeaves_slash leaves
  | @block body gap _ closed more =>
      simp only [List.cons_append, List.cons.injEq, true_and, List.append_assoc] at split
      apply unclosed body _ split _ closed
      intro member
      exact noNul (by simp [member])
  | line oneLine ended => simp at split

/-- Behind a line there is its end. -/
theorem not_leaves_line : ¬ Leaves ('/' :: '/' :: text) := by
  rintro ⟨gap, behind, split, noNul, comments, leaves⟩
  cases comments with
  | nil =>
      rw [← split.trans (List.nil_append behind)] at leaves
      exact not_literalLeaves_slash leaves
  | block closed more => simp at split
  | line oneLine ended =>
      rcases leaves.quote with isQuote | isTick
      · rcases ended _ isQuote with ⟨⟨⟩⟩ | ⟨⟨⟩⟩
      · rcases ended _ isTick with ⟨⟨⟩⟩ | ⟨⟨⟩⟩

/-- The line that starts a text with a NUL in it. -/
theorem exists_line (hasNul : '\x00' ∈ text) : ∃ body ch rest, text = body ++ ch :: rest ∧
    (∀ ch ∈ body, ch ≠ '\x00' ∧ ch ≠ '\r' ∧ ch ≠ '\n') ∧
    (ch = '\x00' ∨ ch = '\r' ∨ ch = '\n') := by
  induction text with
  | nil => cases hasNul
  | cons ch text inductionHypothesis =>
      by_cases isEnd : ch = '\x00' ∨ ch = '\r' ∨ ch = '\n'
      · exact ⟨[], ch, text, rfl, by simp, isEnd⟩
      · simp only [not_or] at isEnd
        have hasNul' : '\x00' ∈ text := by
          simpa [Ne.symm isEnd.1] using hasNul
        rcases inductionHypothesis hasNul' with ⟨body, ch', rest, rfl, oneLine, isEnd'⟩
        exact ⟨ch :: body, ch', rest, rfl, List.forall_mem_cons.mpr ⟨isEnd, oneLine⟩, isEnd'⟩

/-- The characters behind some of those that are left. -/
theorem State.left_behind {taken : List Char} {loc : SourceLocation} (pos : Nat)
    (isLeft : s.left = taken ++ rest) (isPos : pos = s.buf.size + taken.length) :
    State.left ⟨{ s.buf with size := pos }, loc⟩ = rest := by
  rw [State.left, isPos, ← List.drop_drop]
  change s.left.drop _ = _
  rw [isLeft, List.drop_left]

theorem terminated_behind {taken : List Char}
    (terminated : (taken ++ rest).getLast? = some '\x00') (noNul : '\x00' ∉ taken) :
    rest.getLast? = some '\x00' := by
  rcases rest.eq_nil_or_concat with rfl | ⟨front, last, rfl⟩
  · rw [List.append_nil] at terminated
    exact absurd (List.mem_of_getLast? terminated) noNul
  · simpa [← List.append_assoc] using terminated

theorem source_located (terminated : s.left.getLast? = some '\x00') :
    Source (charsOf s.left) s.located :=
  ⟨terminated, fun _ => rfl⟩

theorem lexToken_eq_lexString (isLeft : s.left = '"' :: rest) :
    lexToken (fuel + 1) s = lexString s.located := by
  have isChar : peekChar 0 s = .ok ('"', s) := by
    rw [s.peekChar_eq, isLeft]
    rfl
  rw [lexToken, bind_eq isChar]
  rfl

theorem lexToken_eq_lexChar (isLeft : s.left = '\'' :: rest) :
    lexToken (fuel + 1) s = lexChar s.located := by
  have isChar : peekChar 0 s = .ok ('\'', s) := by
    rw [s.peekChar_eq, isLeft]
    rfl
  rw [lexToken, bind_eq isChar]
  rfl

/-- `lex_token` stays within `token_buffer` exactly if its token is not a literal that leaves
it. -/
theorem lexToken_inside_iff (terminated : s.left.getLast? = some '\x00')
    (enough : s.left.length ≤ fuel) :
    lexToken fuel s ≠ .error .outOfBounds ↔ ¬ Leaves s.left := by
  induction fuel generalizing s with
  | zero =>
      rw [List.length_eq_zero_iff.mp (Nat.le_zero.mp enough)] at terminated
      cases terminated
  | succ fuel inductionHypothesis =>
      by_cases isComment : StartsComment s.left
      · rcases isComment with ⟨text, isBlock | isLine⟩
        · have hasNul : '\x00' ∈ text := by
            have member := List.mem_of_getLast? terminated
            simpa [isBlock] using member
          rw [lexToken_block isBlock, isBlock]
          cases skipped : skipComment (s.buf.size + 1) { s.loc with pos := s.buf.size } text with
          | error failure =>
              apply iff_of_true
              · rintro ⟨⟩
                exact skipComment_inside hasNul _ _ skipped
              · apply not_leaves_block
                rintro body rest rfl noNul closed
                rcases @skipComment_of_closed _ _ rest (Nat.zero_mod 2) noNul closed
                  (s.buf.size + 1) { s.loc with pos := s.buf.size } with ⟨column, isOk⟩
                rw [isOk] at skipped
                cases skipped
          | ok result =>
              rcases result with ⟨pos, loc⟩
              rcases closed_of_skipComment (Nat.zero_mod 2) skipped with
                ⟨body, rest, rfl, noNul, isPos, closed⟩
              have isLeft : s.left = ('/' :: '*' :: body) ++ rest := isBlock
              have isLeft' := @State.left_behind _ _ _ loc pos isLeft (by simp; omega)
              have ends := @inductionHypothesis ⟨{ s.buf with size := pos }, loc⟩
              rw [isLeft'] at ends
              rw [leaves_block_iff closed noNul]
              apply ends
              · rw [isLeft] at terminated
                exact terminated_behind terminated (by simp [noNul])
              · rw [isLeft] at enough
                simp at enough
                omega
        · have hasNul : '\x00' ∈ text := by
            have member := List.mem_of_getLast? terminated
            simpa [isLine] using member
          rcases exists_line hasNul with ⟨body, ch, rest, rfl, oneLine, isEnd⟩
          rw [lexToken_line isLine, skipLine_of_ended oneLine isEnd, isLine]
          have isLeft : s.left = ('/' :: '/' :: body) ++ ch :: rest := isLine
          have notComment : ¬ StartsComment (ch :: rest) := by
            apply not_startsComment
            rintro rfl
            simp at isEnd
          apply iff_of_true _ not_leaves_line
          apply (inductionHypothesis _ _).mpr
          all_goals rw [State.left_behind _ isLeft (by simp; omega)]
          · rw [leaves_iff notComment]
            intro leaves
            rcases leaves.quote with isQuote | isTick
            · cases isQuote
              simp at isEnd
            · cases isTick
              simp at isEnd
          · rw [isLeft] at terminated
            apply terminated_behind terminated
            intro member
            simp at member
            exact (oneLine _ member).1 rfl
          · rw [isLeft] at enough
            simp at enough ⊢
            omega
      · rw [leaves_iff isComment]
        have source := source_located terminated
        by_cases isQuote : s.left.head? = some '"'
        · rcases List.head?_eq_some_iff.mp isQuote with ⟨rest, isLeft⟩
          rw [lexToken_eq_lexString isLeft, not_iff_not, lexString_overflows_iff source,
            LiteralLeaves,
            isLeft]
          simp [charsOf]
        · by_cases isTick : s.left.head? = some '\''
          · rcases List.head?_eq_some_iff.mp isTick with ⟨rest, isLeft⟩
            rw [lexToken_eq_lexChar isLeft, not_iff_not, lexChar_overflows_iff source,
              LiteralLeaves,
              isLeft]
            simp [charsOf]
          · have allows := @lexToken_onLine False fuel s terminated isComment (by
              rintro (isHead | isHead)
              · exact isQuote isHead
              · exact isTick isHead)
            apply iff_of_true
            · intro overflows
              rw [overflows] at allows
              exact allows rfl
            · intro leaves
              rcases leaves.quote with isHead | isHead
              · exact isQuote isHead
              · exact isTick isHead

end Call

theorem word_inside_iff :
    lexToken 2 (start "f" ['x', '\x00']) ≠ .error .outOfBounds ↔ ¬ Leaves ['x', '\x00'] :=
  lexToken_inside_iff (s := start "f" ['x', '\x00']) rfl (by decide)

/-- A quote and backslashes up to the end. -/
def backslashes : List Char := '"' :: List.replicate 256 '\\' ++ ['\x00']

/-- The backslashes are put into `token_buffer` unchecked. -/
theorem backslashes_not_inside : ¬ ∀ (fuel : Nat) (s : State), s.left.getLast? = some '\x00' →
    s.left.length ≤ fuel → lexToken fuel s ≠ .error .outOfBounds := by
  intro all
  have isLast : State.left (start "f" backslashes) = backslashes := rfl
  have terminated : backslashes.getLast? = some '\x00' := List.getLast?_concat
  have isLength : backslashes.length = 258 := by
    rw [backslashes, List.length_append, List.length_cons, List.length_replicate]
    rfl
  apply all 258 (start "f" backslashes) terminated (by rw [isLast, isLength])
  have source := source_located (s := start "f" backslashes) terminated
  have isBackslash : ∀ i, i < maxTokenLen → charsOf backslashes (i + 1) = '\\' := by
    intro i isBelow
    rw [charsOf, backslashes, List.cons_append, List.getD_cons_succ, List.getD_append]
    · exact List.getD_replicate _ isBelow
    · rwa [List.length_replicate]
  rw [lexToken_eq_lexString rfl, lexString_overflows_iff source]
  refine ⟨?_, isBackslash _ (by decide), .inl (isBackslash _ (by decide))⟩
  rintro i isBelow ⟨isQuote, -⟩
  cases (isBackslash i isBelow).symm.trans isQuote

end Shecc.Lexer
