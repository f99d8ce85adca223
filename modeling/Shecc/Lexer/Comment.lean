import Shecc.Lexer.Spans
import Mathlib.Data.List.Induction

/-!
# Where comments end

A C-style comment ends at the first slash behind a star, a C++-style comment before the
newline. What `lex_token` does behind a comment is what it does when it is called there
if it ends the comment there, which it does for an even number of stars at the end of the
body.
-/

namespace Shecc.Lexer

open Shecc.Preprocessor (Token TokenKind SourceLocation Failure maxTokenLen)

/-- The elements from the current character on. -/
def State.left (s : State) : List Char := s.buf.elements.drop s.buf.size

section Reading

variable {s : State} {fuel : Nat} {ch next : Char} {rest : List Char}

theorem State.peekChar_eq (s : State) (offset : Nat) :
    peekChar offset s = .ok (s.left.getD offset '\x00', s) := by
  simp [peekChar, State.left, List.getD_eq_getElem?_getD]

theorem State.readChar_eq (isLeft : s.left = ch :: next :: rest) :
    readChar s = .ok (next, { s with buf := { s.buf with size := s.buf.size + 1 } }) := by
  have isMore : ¬ s.buf.size + 1 ≥ s.buf.elements.length := by
    have length := congrArg List.length isLeft
    simp [State.left] at length
    omega
  have isNext := congrArg (fun left => left.getD 1 '\x00') isLeft
  simp only [State.left, List.getD_eq_getElem?_getD, List.getElem?_drop] at isNext
  rw [readChar, if_neg isMore, List.getD_eq_getElem?_getD, isNext]
  rfl

theorem State.drop_eq (isLeft : s.left = ch :: rest) :
    s.buf.elements.drop (s.buf.size + 1) = rest := by
  rw [← List.drop_drop]
  change s.left.drop 1 = rest
  rw [isLeft]
  rfl

/-- The state that `lex_token` starts with. -/
def State.located (s : State) : State := { s with loc := { s.loc with pos := s.buf.size } }

/-- The position of a call is the one it starts at. -/
theorem lexToken_of_located {s' : State} (same : s.located = s'.located) :
    lexToken fuel s = lexToken fuel s' := by
  have located : ∀ s : State, lexToken fuel s.located = lexToken fuel s := by
    intro s
    cases fuel <;> rfl
  rw [← located s, same, located s']

theorem lexToken_slash (isLeft : s.left = '/' :: rest) :
    lexToken (fuel + 1) s = lexSlash (lexToken fuel) s.located := by
  have isSlash : peekChar 0 s = .ok ('/', s) := by
    rw [s.peekChar_eq, isLeft]
    rfl
  rw [lexToken, bind_eq isSlash]
  rfl

/-- A C-style comment. -/
theorem lexToken_block (isLeft : s.left = '/' :: '*' :: rest) :
    lexToken (fuel + 1) s =
      (skipComment (s.buf.size + 1) { s.loc with pos := s.buf.size } rest).bind fun result =>
        lexToken fuel ⟨{ s.buf with size := result.1 }, result.2⟩ := by
  have isBehind : s.buf.elements.drop (s.buf.size + 1 + 1) = rest := by
    rw [← List.drop_drop, State.drop_eq isLeft]
    rfl
  rw [lexToken_slash isLeft, lexSlash, bind_eq (State.readChar_eq (s := s.located) isLeft),
    if_pos rfl, ← isBehind]
  change ((skipComment (s.buf.size + 1) { s.loc with pos := s.buf.size }
    (s.buf.elements.drop (s.buf.size + 1 + 1))).map _).bind _ = _
  cases skipComment (s.buf.size + 1) _ (s.buf.elements.drop (s.buf.size + 1 + 1)) <;> rfl

/-- A C++-style comment. -/
theorem lexToken_line (isLeft : s.left = '/' :: '/' :: rest) :
    lexToken (fuel + 1) s = (skipLine (s.buf.size + 1) rest).bind fun pos =>
      lexToken fuel ⟨{ s.buf with size := pos }, { s.loc with
        pos := s.buf.size
        column := s.loc.column + (pos - (s.buf.size + 1 : Nat) + 1) }⟩ := by
  have isBehind : s.buf.elements.drop (s.buf.size + 1 + 1) = rest := by
    rw [← List.drop_drop, State.drop_eq isLeft]
    rfl
  rw [lexToken_slash isLeft, lexSlash, bind_eq (State.readChar_eq (s := s.located) isLeft),
    if_neg (by decide), if_pos rfl, ← isBehind]
  change ((skipLine (s.buf.size + 1) (s.buf.elements.drop (s.buf.size + 1 + 1))).map _).bind _ = _
  cases skipLine (s.buf.size + 1) (s.buf.elements.drop (s.buf.size + 1 + 1)) <;> rfl

end Reading

/-! ## The loops over comments -/

section Skipping

variable {stars pos : Nat} {loc : SourceLocation} {body rest text : List Char}

theorem nextLine_line (ch : Char) (loc : SourceLocation) :
    nextLine ch loc = { loc with
      line := loc.line + [ch].count '\n'
      column := (nextLine ch loc).column } := by
  by_cases isNewline : ch = '\n' <;> simp [nextLine, isNewline]

/-- The loop ends at the first slash that an odd number of stars stands directly before, and
counts the lines up to it. -/
theorem skipComment_of_closed (even : stars % 2 = 0) (noNul : '\x00' ∉ body)
    (closed : closeComment oddStars stars body = some []) (pos : Nat) (loc : SourceLocation) :
    ∃ column, skipComment pos loc (body ++ rest) = .ok (pos + 1 + body.length,
      { loc with line := loc.line + body.count '\n', column := column }) := by
  have notOdd : oddStars stars = false := by
    simp [oddStars, even]
  induction isLen : body.length using Nat.strong_induction_on
    generalizing body stars pos loc with
  | _ len inductionHypothesis =>
      rcases body with _ | ⟨ch, body⟩
      · cases closed
      · rw [List.mem_cons, not_or] at noNul
        by_cases isStar : ch = '*'
        · subst isStar
          rcases body with _ | ⟨next, body⟩
          · cases closed
          · rw [List.mem_cons, not_or] at noNul
            by_cases isSlash : next = '/'
            · subst isSlash
              have isEnd : body = [] := by
                simpa [closeComment, oddStars, Nat.add_mod, even] using closed
              subst isEnd
              exact ⟨_, by simp [skipComment, ← isLen]; rfl⟩
            · have closed' : ∃ stars', stars' % 2 = 0 ∧
                  closeComment oddStars stars' body = some [] := by
                by_cases isStar : next = '*'
                · refine ⟨stars + 2, by rw [Nat.add_mod_right, even], ?_⟩
                  simpa [closeComment, isStar] using closed
                · refine ⟨0, rfl, ?_⟩
                  simpa [closeComment, isStar, isSlash] using closed
              rcases closed' with ⟨stars', even', closed'⟩
              rcases inductionHypothesis body.length (by rw [← isLen]; simp <;> omega) even' noNul.2.2
                closed' (pos + 2) (nextLine next { loc with column := loc.column + 2 })
                (by simp [oddStars, even']) rfl with ⟨column, isOk⟩
              refine ⟨column, ?_⟩
              rw [List.cons_append, List.cons_append, skipComment, if_pos rfl]
              simp only [isSlash, if_false, Ne.symm noNul.2.1]
              rw [isOk, nextLine_line, ← isLen]
              simp [List.count_cons]
              omega
        · have closed' : closeComment oddStars 0 body = some [] := by
            simpa [closeComment, isStar, notOdd] using closed
          rcases inductionHypothesis body.length (by rw [← isLen]; simp) (Nat.zero_mod 2) noNul.2
            closed' (pos + 1) (nextLine ch { loc with column := loc.column + 1 }) rfl rfl with
            ⟨column, isOk⟩
          refine ⟨column, ?_⟩
          rw [List.cons_append, skipComment.eq_def]
          simp only [isStar, if_false, Ne.symm noNul.1]
          rw [isOk, nextLine_line, ← isLen]
          simp [List.count_cons]
          omega

/-- Where the loop ends such a slash is. -/
theorem closed_of_skipComment {loc' : SourceLocation} {pos' : Nat} (even : stars % 2 = 0)
    (isOk : skipComment pos loc text = .ok (pos', loc')) :
    ∃ body rest, text = body ++ rest ∧ '\x00' ∉ body ∧ pos' = pos + 1 + body.length ∧
      closeComment oddStars stars body = some [] := by
  have notOdd : oddStars stars = false := by
    simp [oddStars, even]
  induction pos, loc, text using skipComment.induct generalizing stars with
  | case1 pos loc => cases isOk
  | case2 pos loc => cases isOk
  | case3 pos loc rest =>
      rw [skipComment, if_pos rfl, if_pos rfl] at isOk
      cases isOk
      refine ⟨['*', '/'], rest, rfl, by decide, rfl, ?_⟩
      simp [closeComment, oddStars, Nat.add_mod, even]
  | case4 pos loc rest notSlash =>
      rw [skipComment, if_pos rfl, if_neg notSlash, if_pos rfl] at isOk
      cases isOk
  | case5 pos loc next rest notSlash notNul inductionHypothesis =>
      rw [skipComment, if_pos rfl, if_neg notSlash, if_neg notNul] at isOk
      by_cases isStar : next = '*'
      · have even' : (stars + 2) % 2 = 0 := by
          rw [Nat.add_mod_right, even]
        rcases inductionHypothesis even' isOk (by simp [oddStars, even']) with
          ⟨body, rest, rfl, noNul, rfl, closed⟩
        refine ⟨'*' :: next :: body, rest, rfl, ?_, ?_, ?_⟩
        · simp [noNul, Ne.symm notNul]
        · simp
          omega
        · simpa [closeComment, isStar] using closed
      · rcases inductionHypothesis (Nat.zero_mod 2) isOk rfl with
          ⟨body, rest, rfl, noNul, rfl, closed⟩
        refine ⟨'*' :: next :: body, rest, rfl, ?_, ?_, ?_⟩
        · simp [noNul, Ne.symm notNul]
        · simp
          omega
        · simpa [closeComment, isStar, notSlash] using closed
  | case6 pos loc rest notStar =>
      rw [skipComment.eq_def] at isOk
      cases isOk
  | case7 pos loc ch rest notStar notNul inductionHypothesis =>
      rw [skipComment.eq_def] at isOk
      simp only [notStar, notNul, if_false] at isOk
      rcases inductionHypothesis (Nat.zero_mod 2) isOk rfl with
        ⟨body, rest, rfl, noNul, rfl, closed⟩
      refine ⟨ch :: body, rest, rfl, ?_, ?_, ?_⟩
      · simp [noNul, Ne.symm notNul]
      · simp
        omega
      · simpa [closeComment, notStar, notOdd] using closed

/-- The loop ends at a NUL at the latest. -/
theorem skipComment_inside (hasNul : '\x00' ∈ text) (pos : Nat) (loc : SourceLocation) :
    skipComment pos loc text ≠ .error .outOfBounds := by
  induction pos, loc, text using skipComment.induct with
  | case1 pos loc => cases hasNul
  | case2 pos loc => simp at hasNul
  | case3 pos loc rest =>
      rw [skipComment, if_pos rfl, if_pos rfl]
      rintro ⟨⟩
  | case4 pos loc rest notSlash =>
      rw [skipComment, if_pos rfl, if_neg notSlash, if_pos rfl]
      rintro ⟨⟩
  | case5 pos loc next rest notSlash notNul inductionHypothesis =>
      rw [skipComment, if_pos rfl, if_neg notSlash, if_neg notNul]
      apply inductionHypothesis
      simpa [Ne.symm notNul] using hasNul
  | case6 pos loc rest notStar =>
      rw [skipComment.eq_def]
      rintro ⟨⟩
  | case7 pos loc ch rest notStar notNul inductionHypothesis =>
      rw [skipComment.eq_def]
      simp only [notStar, notNul, if_false]
      apply inductionHypothesis
      simpa [Ne.symm notNul] using hasNul

/-- A line goes up to a character that ends it. -/
theorem skipLine_of_ended (oneLine : ∀ ch ∈ body, ch ≠ '\x00' ∧ ch ≠ '\r' ∧ ch ≠ '\n')
    {ch : Char} (isEnd : ch = '\x00' ∨ ch = '\r' ∨ ch = '\n') (pos : Nat) :
    skipLine pos (body ++ ch :: rest) = .ok (pos + 1 + body.length) := by
  induction body generalizing pos with
  | nil =>
      rw [List.nil_append, skipLine, if_neg]
      · rfl
      · rintro ⟨notNul, notReturn, notNewline⟩
        rcases isEnd with isNul | isReturn | isNewline
        · exact notNul isNul
        · exact notReturn isReturn
        · exact notNewline isNewline
  | cons other body inductionHypothesis =>
      rw [List.cons_append, skipLine, if_pos (oneLine other List.mem_cons_self),
        inductionHypothesis fun ch member => oneLine ch (List.mem_cons_of_mem other member)]
      congr 1
      simp
      omega

end Skipping

/-! ## Lines -/

/-- How a step ends that leaves `token_buffer` only if `overflow`. -/
def Allows {α : Type} (overflow : Prop) (post : α → State → Prop) :
    Except Failure (α × State) → Prop
  | .ok (value, s) => post value s
  | .error failure => failure = .outOfBounds → overflow

/-- A step that stays on its line. -/
def Stays {α : Type} (overflow : Prop) (step : Lex α) : Prop :=
  ∀ s, Allows overflow (fun _ s' => s'.loc.line = s.loc.line) (step s)

/-- A step that makes a token of its line. -/
def OnLine (overflow : Prop) (step : Lex Token) : Prop :=
  ∀ s, Allows overflow (fun token _ => token.location.line = s.loc.line) (step s)

section Lines

variable {α β : Type} {overflow : Prop}

theorem Allows.weaken {overflow' : Prop} {post : α → State → Prop}
    {result : Except Failure (α × State)} (allows : Allows overflow post result)
    (less : overflow → overflow') : Allows overflow' post result := by
  cases result with
  | ok result => exact allows
  | error failure => exact fun isBounds => less (allows isBounds)

theorem Allows.bind {first : Lex α} {more : α → Lex β} {s : State} {mid : α → State → Prop}
    {post : β → State → Prop} (allows : Allows overflow mid (first s))
    (behind : ∀ value s', mid value s' → Allows overflow post (more value s')) :
    Allows overflow post ((first >>= more) s) := by
  change Allows overflow post ((first s).bind fun result => more result.1 result.2)
  cases result : first s with
  | error failure =>
      rw [result] at allows
      exact allows
  | ok result' =>
      rw [result] at allows
      exact behind _ _ allows

theorem Stays.bind {first : Lex α} {more : α → Lex β} (stays : Stays overflow first)
    (behind : ∀ value, Stays overflow (more value)) : Stays overflow (first >>= more) := by
  intro s
  apply (stays s).bind
  intro value s' sameLine
  rw [← sameLine]
  exact behind value s'

theorem Stays.onLine {first : Lex α} {more : α → Lex Token} (stays : Stays overflow first)
    (behind : ∀ value, OnLine overflow (more value)) : OnLine overflow (first >>= more) := by
  intro s
  apply (stays s).bind
  intro value s' sameLine
  rw [← sameLine]
  exact behind value s'

theorem Stays.pure (value : α) : Stays overflow (pure value : Lex α) :=
  fun _ => rfl

theorem Stays.errorAt (msg : String) (set : SourceLocation → SourceLocation) :
    Stays overflow (errorAt msg set : Lex α) :=
  fun _ => nofun

theorem OnLine.errorAt (msg : String) (set : SourceLocation → SourceLocation) :
    OnLine overflow (Lexer.errorAt msg set) :=
  fun _ => nofun

theorem Stays.peekChar (offset : Nat) : Stays overflow (peekChar offset) :=
  fun _ => rfl

theorem Stays.readChar : Stays overflow readChar := by
  intro s
  rw [Lexer.readChar]
  split_ifs <;> rfl

theorem OnLine.emit (kind : TokenKind) (literal : String) (len : Nat) :
    OnLine overflow (emit kind literal len) :=
  fun _ => rfl

theorem branch_mem {longer : List (Char × Lex Token)} {ch : Char} {next : Lex Token}
    (isBranch : longer.lookup ch = some next) : (ch, next) ∈ longer := by
  rcases List.lookup_eq_some_iff.mp isBranch with ⟨front, back, split, -⟩
  simp [split]

theorem OnLine.follow (kind : TokenKind) (len : Nat) {longer : List (Char × Lex Token)}
    (branches : ∀ entry ∈ longer, OnLine overflow entry.2) :
    OnLine overflow (follow kind len longer) := by
  apply Stays.readChar.onLine
  intro ch
  cases isBranch : longer.lookup ch with
  | none => exact .emit kind "" len
  | some next => exact branches _ (branch_mem isBranch)

theorem OnLine.dots : OnLine overflow dots := by
  apply Stays.readChar.onLine
  intro ch
  apply (Stays.peekChar 1).onLine
  intro next s
  dsimp only
  split_ifs <;> rfl

theorem OnLine.lexNewline : OnLine overflow lexNewline := by
  apply Stays.readChar.onLine
  intro ch s
  rfl

theorem punctuators_onLine : ∀ entry ∈ punctuators, OnLine overflow entry.2 := by
  simp only [punctuators, List.forall_mem_cons]
  repeat' first
    | exact OnLine.dots
    | exact List.forall_mem_nil _
    | apply And.intro
    | rw [List.forall_mem_cons]
    | apply OnLine.follow
    | dsimp only

theorem readWhile_stays (accept : Char → Bool) (room : Nat) (buffer : List Char) (ch : Char) :
    Stays overflow (readWhile accept room buffer ch) := by
  induction room generalizing buffer ch with
  | zero =>
      rw [readWhile]
      split_ifs
      · exact .errorAt _ _
      · exact .pure buffer
  | succ room inductionHypothesis =>
      rw [readWhile]
      split_ifs
      · exact Stays.readChar.bind fun next => inductionHypothesis _ next
      · exact .pure buffer

theorem readOctal_stays (room : Nat) (buffer : List Char) (ch : Char) :
    Stays overflow (readOctal room buffer ch) := by
  induction room generalizing buffer ch with
  | zero =>
      rw [readOctal]
      split_ifs
      · exact .errorAt _ _
      · exact .errorAt _ _
      · exact .pure buffer
  | succ room inductionHypothesis =>
      rw [readOctal]
      split_ifs
      · exact .errorAt _ _
      · exact Stays.readChar.bind fun next => inductionHypothesis _ next
      · exact .pure buffer

theorem readDigits_stays (first ch : Char) : Stays overflow (readDigits first ch) := by
  have radix : ∀ accept msg, Stays overflow (readRadix accept msg ch) := by
    intro accept msg
    apply Stays.readChar.bind
    intro next
    split_ifs
    · exact readWhile_stays _ _ _ _
    · exact .errorAt _ _
  rw [readDigits]
  split_ifs
  · exact radix _ _
  · exact radix _ _
  · exact readOctal_stays _ _ _
  · exact readWhile_stays _ _ _ _

theorem OnLine.lexNumber (first : Char) : OnLine overflow (lexNumber first) :=
  Stays.readChar.onLine fun ch => (readDigits_stays first ch).onLine fun _ => .emit _ _ _

theorem OnLine.lexWord (first : Char) : OnLine overflow (lexWord first) :=
  (readWhile_stays _ _ _ first).onLine fun _ => .emit _ _ _

theorem OnLine.lexDirective : OnLine overflow lexDirective := by
  intro s
  rw [Lexer.lexDirective]
  split_ifs
  · exact OnLine.errorAt _ _ s
  · apply Stays.readChar.onLine
    intro ch
    apply (readWhile_stays _ _ _ ch).onLine
    intro buffer
    dsimp only
    split_ifs
    · exact .errorAt _ _
    · exact .emit _ _ _

theorem OnLine.lexWhitespace (fuel : Nat) : OnLine overflow (lexWhitespace fuel) := by
  have spaces : ∀ sz, Stays overflow (countSpaces fuel sz) := by
    induction fuel with
    | zero => exact fun _ _ => nofun
    | succ fuel inductionHypothesis =>
        intro sz
        apply Stays.readChar.bind
        intro ch
        split_ifs
        · exact inductionHypothesis _
        · exact .pure sz
  exact (spaces 1).onLine fun _ => .emit _ _ _

theorem OnLine.lexString : OnLine True lexString := by
  have string : ∀ room buffer special ch, Stays True (readString room buffer special ch) := by
    intro room
    induction room with
    | zero =>
        intro buffer special ch
        rw [readString]
        split_ifs
        · exact fun _ _ => trivial
        · exact .errorAt _ _
        · exact fun _ _ => trivial
    | succ room inductionHypothesis =>
        intro buffer special ch
        rw [readString]
        split_ifs
        · exact .errorAt _ _
        · exact Stays.readChar.bind fun next => inductionHypothesis _ _ next
        · exact .pure buffer
  exact Stays.readChar.onLine fun ch => (string _ _ _ ch).onLine fun _ =>
    Stays.readChar.onLine fun _ => .emit _ _ _

theorem OnLine.lexChar : OnLine True lexChar := by
  have escaped : ∀ room buffer ch, Stays True (readEscaped room buffer ch) := by
    intro room
    induction room with
    | zero => exact fun _ _ _ _ => trivial
    | succ room inductionHypothesis =>
        intro buffer ch
        apply Stays.readChar.bind
        intro next
        split_ifs
        · exact inductionHypothesis _ _
        · exact fun _ _ => trivial
        · exact .pure _
  apply Stays.readChar.onLine
  intro ch
  have characters : Stays True (readCharacters ch) := by
    apply Stays.readChar.bind
    intro next
    split_ifs
    · exact escaped _ _ _
    · exact .pure _
  apply characters.onLine
  rintro ⟨buffer, ch⟩
  dsimp only
  split_ifs
  · exact .errorAt _ _
  · exact Stays.readChar.onLine fun _ => .emit _ _ _

end Lines

/-- A token that no comment is before has the line that the call starts in, and only a literal
leaves `token_buffer`. -/
theorem lexToken_onLine {overflow : Prop} {fuel : Nat} {s : State}
    (terminated : s.left.getLast? = some '\x00') (notComment : ¬ StartsComment s.left)
    (isLiteral : s.left.head? = some '"' ∨ s.left.head? = some '\'' → overflow) :
    Allows overflow (fun token _ => token.location.line = s.loc.line) (lexToken (fuel + 1) s) := by
  rcases isLeft : s.left with _ | ⟨ch, rest⟩
  · rw [isLeft] at terminated
    cases terminated
  · have isChar : peekChar 0 s = .ok (ch, s) := by
      rw [s.peekChar_eq, isLeft]
      rfl
    rw [isLeft] at terminated notComment isLiteral
    rw [lexToken, bind_eq isChar, bind_eq rfl]
    have onLine : ∀ {step : Lex Token}, OnLine overflow step →
        Allows overflow (fun token _ => token.location.line = s.loc.line) (step s.located) :=
      fun onLine => onLine s.located
    have literal : ∀ {step : Lex Token}, overflow → OnLine True step →
        Allows overflow (fun token _ => token.location.line = s.loc.line) (step s.located) :=
      fun isOverflow onLine => (onLine s.located).weaken fun _ => isOverflow
    split_ifs with isHash isNewline isSlash isSpace isNul isDigit isQuote isTick isWord_
    · exact onLine .lexDirective
    · exact onLine .lexNewline
    · subst isSlash
      rcases rest with _ | ⟨next, rest⟩
      · cases terminated
      · have notStar : next ≠ '*' := by
          rintro rfl
          exact notComment ⟨rest, .inl rfl⟩
        have notSlash : next ≠ '/' := by
          rintro rfl
          exact notComment ⟨rest, .inr rfl⟩
        change Allows _ _ (lexSlash _ s.located)
        rw [lexSlash, bind_eq (State.readChar_eq (s := s.located) isLeft), if_neg notStar,
          if_neg notSlash]
        have assign : OnLine overflow (if next = '=' then do
            let _ ← readChar
            emit .divideeq "" 2
            else emit .divide "" 1) := by
          split_ifs
          · exact Stays.readChar.onLine fun _ => .emit _ _ _
          · exact .emit _ _ _
        exact assign ⟨⟨s.buf.elements, s.buf.size + 1⟩, s.located.loc⟩
    · exact onLine (.lexWhitespace fuel)
    · exact onLine (.follow _ _ (by simp))
    · exact onLine (.lexNumber ch)
    · exact literal (isLiteral (.inl (congrArg some isQuote))) .lexString
    · exact literal (isLiteral (.inr (congrArg some isTick))) .lexChar
    · cases isPunctuator : punctuators.lookup ch with
      | none => exact onLine (.lexWord ch)
      | some punctuator => exact onLine (punctuators_onLine _ (branch_mem isPunctuator))
    · cases isPunctuator : punctuators.lookup ch with
      | none => exact onLine (.errorAt _ _)
      | some punctuator => exact onLine (punctuators_onLine _ (branch_mem isPunctuator))

/-! ## The comments of the language -/

/-- A comment. -/
inductive Comment
  | block (body : List Char) (unclosed : ¬ ['*', '/'] <:+: body)
  | line (body : List Char) (oneLine : '\n' ∉ body)

/-- The characters of a comment. -/
def Comment.text : Comment → List Char
  | block body _ => '/' :: '*' :: (body ++ ['*', '/'])
  | line body _ => '/' :: '/' :: body

/-- The comment ends before `behind`. -/
def Comment.UpTo : Comment → (behind : List Char) → Prop
  | block _ _, _ => True
  | line _ _, behind => ∀ ch, behind.head? = some ch → ch = '\n'

/-- The stars at the end of a body. -/
def trailingStars (body : List Char) : Nat := (body.reverse.takeWhile (· == '*')).length

/-- The comments that `lex_token` ends where they end. -/
def Comment.Exact : Comment → Prop
  | block body _ => trailingStars body % 2 = 0
  | line body _ => '\r' ∉ body

/-- The state behind a comment that starts here, where the line is the true one. -/
def State.behind (s : State) (comment : Comment) (column : Int) : State :=
  ⟨{ s.buf with size := s.buf.size + comment.text.length }, { s.loc with
    line := s.loc.line + comment.text.count '\n'
    column := column }⟩

/-- The call at the comment returns the token that starts behind it, with its position and
its line. -/
def Comment.Skipped (comment : Comment) (fuel : Nat) (s : State) : Prop :=
  ∃ column token s', lexToken fuel (s.behind comment column) = .ok (token, s') ∧
    lexToken (fuel + 1) s = .ok (token, s') ∧
    token.location.pos = (s.buf.size + comment.text.length : Nat) ∧
    token.location.line = s.loc.line + comment.text.count '\n'

section Stars

variable {enough : Nat → Bool} {stars : Nat} {body rest : List Char}

/-- The stars directly behind `stars` stars and a text. -/
def starsBehind (stars : Nat) (body : List Char) : Nat :=
  body.foldl (fun stars ch => if ch = '*' then stars + 1 else 0) stars

theorem starsBehind_zero (body : List Char) : starsBehind 0 body = trailingStars body := by
  induction body using List.reverseRecOn with
  | nil => rfl
  | append_singleton body ch inductionHypothesis =>
      rw [starsBehind, List.foldl_concat, ← starsBehind, inductionHypothesis, trailingStars,
        trailingStars, List.reverse_concat]
      by_cases isStar : ch = '*' <;> simp [isStar]

/-- A body without an end in it is counted. -/
theorem closeComment_of_unclosed (notZero : enough 0 = false) (unclosed : ¬ ['*', '/'] <:+: body)
    (notHere : stars = 0 ∨ body.head? ≠ some '/') :
    closeComment enough stars (body ++ rest) =
      closeComment enough (starsBehind stars body) rest := by
  induction body generalizing stars with
  | nil => rfl
  | cons ch body inductionHypothesis =>
      have unclosed' : ¬ ['*', '/'] <:+: body := fun inside =>
        unclosed (List.infix_cons inside)
      rw [List.cons_append, closeComment, starsBehind, List.foldl_cons, ← starsBehind]
      by_cases isStar : ch = '*'
      · rw [if_pos isStar, if_pos isStar]
        apply inductionHypothesis unclosed'
        right
        intro isSlash
        rcases List.head?_eq_some_iff.mp isSlash with ⟨body', rfl⟩
        exact unclosed ⟨[], body', by rw [isStar]; rfl⟩
      · rw [if_neg isStar, if_neg isStar, if_neg]
        · exact inductionHypothesis unclosed' (.inl rfl)
        · rintro ⟨rfl, isEnough⟩
          rcases notHere with rfl | notSlash
          · rw [notZero] at isEnough
            cases isEnough
          · exact notSlash rfl

/-- The end of a body ends the comment if it is enough. -/
theorem closeComment_block (notZero : enough 0 = false) (unclosed : ¬ ['*', '/'] <:+: body) :
    closeComment enough 0 (body ++ ['*', '/']) =
      if enough (trailingStars body + 1) then some [] else none := by
  rw [closeComment_of_unclosed notZero unclosed (.inl rfl), starsBehind_zero]
  by_cases isEnough : enough (trailingStars body + 1) = true <;> simp [closeComment, isEnough]

theorem closeComment_exact (unclosed : ¬ ['*', '/'] <:+: body) :
    closeComment oddStars 0 (body ++ ['*', '/']) = some [] ↔ trailingStars body % 2 = 0 := by
  rw [closeComment_block rfl unclosed]
  simp [oddStars]
  omega

end Stars

section Call

variable {before behind : List Char} {s : State} {fuel : Nat} {comment : Comment}

theorem At.left_eq {ahead : List Char} (at_ : At before ahead s) :
    s.left = ahead ++ ['\x00'] := by
  rw [State.left, at_.elements, at_.size, List.append_assoc, List.drop_left]

/-- Behind an exact comment the call goes on. -/
theorem lexToken_of_exact (at_ : At before (comment.text ++ behind) s) (upTo : comment.UpTo behind)
    (exact_ : comment.Exact) :
    ∃ column, lexToken (fuel + 1) s = lexToken fuel (s.behind comment column) := by
  have isLeft := at_.left_eq
  have noNul := at_.noNul
  cases comment with
  | block body unclosed =>
      simp only [Comment.text, List.cons_append, List.mem_append, List.mem_cons, not_or] at noNul
      have noNul' : '\x00' ∉ body ++ ['*', '/'] := by
        simp [noNul]
      rw [Comment.text, List.append_assoc, List.cons_append, List.cons_append] at isLeft
      rcases skipComment_of_closed (Nat.zero_mod 2) noNul'
        ((closeComment_exact unclosed).mpr exact_)
        (s.buf.size + 1) { s.loc with pos := s.buf.size } with ⟨column, isOk⟩
      refine ⟨column, ?_⟩
      rw [lexToken_block isLeft, isOk]
      apply lexToken_of_located
      simp [State.located, State.behind, Comment.text]
      omega
  | line body oneLine =>
      have oneLine' : ∀ ch ∈ body, ch ≠ '\x00' ∧ ch ≠ '\r' ∧ ch ≠ '\n' := by
        intro ch member
        refine ⟨?_, ?_, ?_⟩
        · rintro rfl
          exact noNul (by simp [Comment.text, member])
        · rintro rfl
          exact exact_ member
        · rintro rfl
          exact oneLine member
      have noLine : (Comment.line body oneLine).text.count '\n' = 0 := by
        simpa [Comment.text, List.count_eq_zero] using oneLine
      obtain ⟨ch, rest, isRest, isEnd⟩ : ∃ ch rest, behind ++ ['\x00'] = ch :: rest ∧
          (ch = '\x00' ∨ ch = '\r' ∨ ch = '\n') := by
        cases behind with
        | nil => exact ⟨_, [], rfl, .inl rfl⟩
        | cons ch behind => exact ⟨ch, _, rfl, .inr (.inr (upTo ch rfl))⟩
      rw [Comment.text, List.append_assoc, List.cons_append, List.cons_append, isRest] at isLeft
      refine ⟨s.loc.column + (s.buf.size + 1 + 1 + body.length - (s.buf.size + 1) + 1), ?_⟩
      rw [lexToken_line isLeft, skipLine_of_ended oneLine' isEnd]
      apply lexToken_of_located
      simp only [State.located, State.behind, noLine]
      simp [Comment.text]
      omega

/-- A comment that is taken as one is exact. -/
theorem Comment.Exact.of_comments (comments : Comments oddStars comment.text behind) :
    comment.Exact := by
  generalize isGap : comment.text = gap at comments
  cases comment with
  | block body unclosed =>
      cases comments with
      | nil => cases isGap
      | line oneLine ended => simp [Comment.text] at isGap
      | block closed more =>
          simp only [Comment.text, List.cons.injEq, true_and] at isGap
          apply (closeComment_exact unclosed).mp
          have closed' := @closeComment_block oddStars _ rfl unclosed
          rw [isGap, closeComment_append closed] at closed'
          split_ifs at closed' with isEnough
          rw [closeComment_block rfl unclosed, if_pos isEnough]
  | line body oneLine =>
      cases comments with
      | nil => cases isGap
      | block closed more => simp [Comment.text] at isGap
      | line oneLine' ended =>
          simp only [Comment.text, List.cons.injEq, true_and] at isGap
          subst isGap
          intro isReturn
          exact (oneLine' _ isReturn).1 rfl

theorem Comment.text_pos (comment : Comment) : 0 < comment.text.length := by
  cases comment <;> simp [Comment.text]

theorem At.behind_comment (at_ : At before (comment.text ++ behind) s) (column : Int) :
    At (before ++ comment.text) behind (s.behind comment column) := by
  constructor
  · simpa [State.behind] using at_.elements
  · simp [State.behind, at_.size]
  · simpa using at_.noNul

/-- Where the token of a call is. -/
theorem Lexes.pos {ahead : List Char} {token : Token} {s' : State}
    (lexes : Lexes before ahead token s') : ∃ gap behind, ahead = gap ++ behind ∧
      Comments oddStars gap behind ∧ ¬ StartsComment behind ∧
      token.location.pos = (before ++ gap).length := by
  rcases lexes with ⟨gap, behind, split, comments, isToken, -, lexesAt⟩
  refine ⟨gap, behind, split, comments, isToken, ?_⟩
  rcases lexesAt with ⟨-, -, isPos, -⟩ | ⟨chars, rest, -, -, isPos, -⟩
  · exact isPos
  · exact isPos

/-- The call at a comment returns the token behind it exactly if an even number of stars ends
the body, or no carriage return is in the line. -/
theorem lexToken_skipped_iff (at_ : At before (comment.text ++ behind) s)
    (upTo : comment.UpTo behind) (isToken : ¬ StartsComment behind)
    (enough : (comment.text ++ behind).length ≤ fuel)
    (begins : ∀ column, ∃ token s', lexToken fuel (s.behind comment column) = .ok (token, s')) :
    comment.Skipped fuel s ↔ comment.Exact := by
  constructor
  · rintro ⟨column, token, s', -, lexed, isPos, -⟩
    have lexes := lexToken_ends at_ (Nat.lt_succ_of_le enough)
    rw [lexed] at lexes
    rcases Lexes.pos lexes with ⟨gap, behind', split, comments, -, isPos'⟩
    have sameLength : comment.text.length = gap.length := by
      rw [isPos, at_.size, List.length_append] at isPos'
      omega
    rcases List.append_inj split sameLength with ⟨rfl, rfl⟩
    exact .of_comments comments
  · intro exact_
    rcases @lexToken_of_exact _ _ _ fuel _ at_ upTo exact_ with ⟨column, goesOn⟩
    rcases begins column with ⟨token, s', lexed⟩
    have at_' := at_.behind_comment column
    have shorter : behind.length < fuel := by
      have positive := comment.text_pos
      rw [List.length_append] at enough
      omega
    have lexes := lexToken_ends at_' shorter
    have onLine := lexed
    obtain ⟨fuel, rfl⟩ : ∃ fuel', fuel = fuel' + 1 := ⟨fuel - 1, by omega⟩
    have isLine := @lexToken_onLine True fuel (s.behind comment column)
      (by simp [at_'.left_eq]) (by
        rw [at_'.left_eq]
        rintro ⟨rest, isStart⟩
        rcases behind with _ | ⟨first, _ | ⟨second, behind⟩⟩
        · simp at isStart
        · simp at isStart
        · apply isToken
          simp at isStart
          rcases isStart with ⟨rfl, rfl, -⟩ | ⟨rfl, rfl, -⟩
          · exact ⟨behind, .inl rfl⟩
          · exact ⟨behind, .inr rfl⟩) fun _ => trivial
    rw [lexed] at lexes isLine
    rcases Lexes.pos lexes with ⟨gap, behind', split, comments, isToken', isPos⟩
    obtain rfl := comments.unique .nil split.symm isToken' isToken
    refine ⟨column, token, s', lexed, goesOn.trans lexed, ?_, isLine⟩
    rw [isPos, at_.size, List.append_nil, List.length_append]

end Call

/-- A comment without a body. -/
def empty : Comment := .block [] (by decide)

theorem empty_skipped_iff :
    empty.Skipped 8 (start "f" ['/', '*', '*', '/', ';', '\x00']) ↔ empty.Exact := by
  apply @lexToken_skipped_iff [] [';'] _ _ empty ⟨rfl, rfl, by decide⟩ trivial
    (not_startsComment (by decide)) (by decide)
  intro column
  exact ⟨_, _, rfl⟩

/-- A comment whose body is a star. -/
def starred : Comment := .block ['*'] (by decide)

/-- The comment, a semicolon, and another comment and semicolon. -/
def swallowing : List Char := ['/', '*', '*', '*', '/', ';', '/', '*', ' ', '*', '/', ';']

/-- The semicolon behind the comment is not returned, but the one behind the next comment. -/
theorem starred_not_skipped : ¬ ∀ (comment : Comment) (before behind : List Char) (s : State)
    (fuel : Nat), At before (comment.text ++ behind) s → comment.UpTo behind →
    ¬ StartsComment behind → (comment.text ++ behind).length ≤ fuel →
    (∀ column, ∃ token s', lexToken fuel (s.behind comment column) = .ok (token, s')) →
    comment.Skipped fuel s := by
  intro all
  have begins : ∀ column, ∃ token s',
      lexToken 12 ((start "f" (swallowing ++ ['\x00'])).behind starred column) =
        .ok (token, s') := by
    intro column
    exact ⟨_, _, rfl⟩
  rcases all starred [] (swallowing.drop 5) (start "f" (swallowing ++ ['\x00'])) 12
    ⟨rfl, rfl, by decide⟩ trivial (not_startsComment (by decide)) (by decide) begins with
    ⟨column, token, s', -, lexed, isPos, -⟩
  have isSecond : (lexToken 13 (start "f" (swallowing ++ ['\x00']))).toOption.map
      (fun result => result.1.location.pos) = some 11 := by
    decide +kernel
  rw [lexed] at isSecond
  cases (Option.some_inj.mp isSecond).symm.trans isPos

end Shecc.Lexer
