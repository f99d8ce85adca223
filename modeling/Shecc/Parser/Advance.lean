import Shecc.Parser.Expression

/-!
# The tokens a reader passes

A reader moves the cursor forward over tokens. Only three kinds of tokens make an
expression branch; a step over the others is called quiet.
-/

namespace Shecc.Parser

open Shecc.Preprocessor (Token TokenKind SourceLocation Cursor)

/-- The tokens between two cursors. -/
inductive Advances : Cursor → List Token → Cursor → Prop where
  | refl (cur : Cursor) : Advances cur [] cur
  | step {tk next : Token} {rest tokens : List Token} {cur : Cursor}
      (onward : Advances ⟨next, rest⟩ tokens cur) :
      Advances ⟨tk, next :: rest⟩ (next :: tokens) cur

namespace Advances

theorem trans {first middle last : Cursor} {tokens others : List Token}
    (before : Advances first tokens middle) (behind : Advances middle others last) :
    Advances first (tokens ++ others) last := by
  induction before with
  | refl cur => exact behind
  | step onward inductionHypothesis => exact .step (inductionHypothesis behind)

/-- What is passed and what is left is what was ahead. -/
theorem next_eq {first last : Cursor} {tokens : List Token}
    (advances : Advances first tokens last) :
    first.next = tokens ++ last.next := by
  induction advances with
  | refl cur => rfl
  | step onward inductionHypothesis => simp [← inductionHypothesis]

end Advances

/-- The tokens that were ahead of one cursor and are not ahead of a later one. -/
def tokensBetween (first last : Cursor) : List Token :=
  first.next.take (first.next.length - last.next.length)

theorem Advances.tokensBetween_eq {first last : Cursor} {tokens : List Token}
    (advances : Advances first tokens last) : tokensBetween first last = tokens := by
  simp [tokensBetween, advances.next_eq]

/-- Only the last token is the end of the file. -/
def EndsOnce (cur : Cursor) : Prop := ∀ tk ∈ (cur.tk :: cur.next).dropLast, tk.kind ≠ .eof

instance (cur : Cursor) : Decidable (EndsOnce cur) :=
  inferInstanceAs (Decidable (∀ tk ∈ (cur.tk :: cur.next).dropLast, tk.kind ≠ .eof))

theorem EndsOnce.advance {first last : Cursor} {tokens : List Token} (ends : EndsOnce first)
    (advances : Advances first tokens last) : EndsOnce last := by
  induction advances with
  | refl cur => exact ends
  | step onward inductionHypothesis =>
      exact inductionHypothesis fun tk ahead => ends tk (List.mem_cons_of_mem _ ahead)

/-- No token in front of another is the end of the file. -/
theorem EndsOnce.ne_eof {tk next : Token} {rest : List Token} (ends : EndsOnce ⟨tk, next :: rest⟩) :
    tk.kind ≠ .eof :=
  ends tk (by simp)

/-- The tokens that make an expression branch. -/
def branching : List TokenKind := [.logAnd, .logOr, .question]

/-- None of the tokens makes an expression branch. -/
def Plain (tokens : List Token) : Prop := ∀ tk ∈ tokens, tk.kind ∉ branching

instance (tokens : List Token) : Decidable (Plain tokens) :=
  inferInstanceAs (Decidable (∀ tk ∈ tokens, tk.kind ∉ branching))

theorem Plain.nil : Plain [] := fun _ present => absurd present List.not_mem_nil

theorem Plain.append {tokens others : List Token} :
    Plain (tokens ++ others) ↔ Plain tokens ∧ Plain others := by
  simp [Plain, or_imp, forall_and]

/-- The cursor moves over plain tokens only. -/
def Skips (first last : Cursor) : Prop := ∃ tokens, Advances first tokens last ∧ Plain tokens

namespace Skips

theorem refl (cur : Cursor) : Skips cur cur := ⟨[], .refl cur, .nil⟩

theorem trans {first middle last : Cursor} (before : Skips first middle)
    (behind : Skips middle last) : Skips first last := by
  rcases before with ⟨tokens, advances, plain⟩
  rcases behind with ⟨others, onward, also⟩
  exact ⟨tokens ++ others, advances.trans onward, Plain.append.mpr ⟨plain, also⟩⟩

/-- One more plain token. -/
theorem cons {tk next : Token} {rest : List Token} {cur : Cursor} (plain : next.kind ∉ branching)
    (onward : Skips ⟨next, rest⟩ cur) : Skips ⟨tk, next :: rest⟩ cur := by
  rcases onward with ⟨tokens, advances, also⟩
  exact ⟨next :: tokens, .step advances, by simpa [Plain] using ⟨plain, also⟩⟩

theorem one {tk next : Token} {rest : List Token} (plain : next.kind ∉ branching) :
    Skips ⟨tk, next :: rest⟩ ⟨next, rest⟩ := cons plain (refl _)

end Skips

theorem not_branching_of_isUnused {kind : TokenKind} (unused : Lexer.isUnused kind = true) :
    kind ∉ branching := by
  cases kind <;> simp [Lexer.isUnused, branching] at unused ⊢

theorem skips_skipUnusedToken (tk : Token) (next : List Token) :
    Skips ⟨tk, next⟩ (Lexer.skipUnusedToken tk next) := by
  induction next generalizing tk with
  | nil => exact .refl _
  | cons token rest inductionHypothesis =>
      unfold Lexer.skipUnusedToken
      split
      case isTrue unused =>
        exact .cons (not_branching_of_isUnused unused) (inductionHypothesis token)
      case isFalse => exact .refl _

namespace Parsing

theorem skips_ahead (p : Parsing) : Skips p.cur p.ahead := skips_skipUnusedToken _ _

/-- Skipping unused tokens a second time passes none. -/
theorem skipUnusedToken_idem (tk : Token) (next : List Token) :
    Lexer.skipUnusedToken (Lexer.skipUnusedToken tk next).tk (Lexer.skipUnusedToken tk next).next =
      Lexer.skipUnusedToken tk next := by
  induction next generalizing tk with
  | nil => rfl
  | cons other rest inductionHypothesis =>
      rw [Lexer.skipUnusedToken]
      split
      · exact inductionHypothesis other
      · next used => rw [Lexer.skipUnusedToken, if_neg used]

@[simp]
theorem ahead_move_ahead (p : Parsing) : (p.move p.ahead).ahead = p.ahead :=
  skipUnusedToken_idem _ _

@[simp]
theorem peek_move_ahead (p : Parsing) : (p.move p.ahead).peek = p.peek := by
  rw [peek, ahead_move_ahead]
  rfl

theorem behind_cons {p : Parsing} {tk next : Token} {rest : List Token}
    (ahead : p.ahead = ⟨tk, next :: rest⟩) :
    p.behind = if tk.kind = .eof then ⟨tk, next :: rest⟩ else ⟨next, rest⟩ := by
  unfold behind
  rw [ahead]

/-- The token ahead is the next one. -/
theorem peek_cons {p : Parsing} {kind : TokenKind} (found : p.peek = some kind) :
    ∃ tk next rest, p.ahead = ⟨tk, next :: rest⟩ ∧ next.kind = kind := by
  unfold peek at found
  rcases ahead : p.ahead with ⟨tk, _ | ⟨next, rest⟩⟩
  · simp [ahead] at found
  · exact ⟨tk, next, rest, rfl, by simpa [ahead] using found⟩

/-- The token ahead is a plain one. -/
theorem skips_behind {p : Parsing} {kind : TokenKind} (found : p.peek = some kind)
    (plain : kind ∉ branching) : Skips p.cur p.behind := by
  rcases peek_cons found with ⟨tk, next, rest, ahead, rfl⟩
  refine p.skips_ahead.trans ?_
  rw [behind_cons ahead, ahead]
  split
  · exact .refl _
  · exact .one plain

/-- The token ahead is passed, unless it stands behind the end of the file. -/
theorem advances_behind {p : Parsing} {kind : TokenKind} (ends : EndsOnce p.cur)
    (found : p.peek = some kind) : ∃ tokens token, Advances p.cur (tokens ++ [token]) p.behind ∧
      Plain tokens ∧ token.kind = kind := by
  rcases peek_cons found with ⟨tk, next, rest, ahead, rfl⟩
  rcases p.skips_ahead with ⟨tokens, advances, plain⟩
  have ends := ends.advance advances
  rw [ahead] at ends advances
  rw [behind_cons ahead, if_neg ends.ne_eof]
  exact ⟨tokens, next, advances.trans (.step (.refl _)), plain, rfl⟩

end Parsing

/-! ## String literals -/

theorem skips_readLiterals {combined literal : List Char} {tk : Token} {next : List Token}
    {cur : Cursor} (read : Lexer.readLiterals combined tk next = .ok (literal, cur)) :
    Skips ⟨tk, next⟩ cur := by
  induction next generalizing combined tk with
  | nil =>
      cases read
      exact .refl _
  | cons token rest inductionHypothesis =>
      unfold Lexer.readLiterals at read
      split at read
      case isTrue unused =>
        exact .cons (not_branching_of_isUnused unused) (inductionHypothesis read)
      case isFalse =>
        split at read
        case isTrue isString =>
          rcases Preprocessor.bind_ok_iff.mp read with ⟨⟨output, _⟩, -, read⟩
          rcases Preprocessor.bind_ok_iff.mp read with ⟨unescaped, -, read⟩
          split at read
          · cases read
          · exact .cons (by simp [isString, branching]) (inductionHypothesis read)
        case isFalse =>
          cases read
          exact .refl _

theorem skips_lexIdent {kind : TokenKind} {cur last : Cursor} (plain : kind ∉ branching)
    (read : Lexer.lexIdent kind cur = .ok last) : Skips cur last := by
  refine (skips_skipUnusedToken cur.tk cur.next).trans ?_
  unfold Lexer.lexIdent at read
  dsimp only at read
  rcases ahead : Lexer.skipUnusedToken cur.tk cur.next with ⟨tk, _ | ⟨next, rest⟩⟩
  · simp [ahead] at read
  · simp only [ahead] at read
    split at read
    case isTrue found =>
      split at read <;> cases read
      · exact .refl _
      · exact .one (found ▸ plain)
    case isFalse => cases read

theorem skips_readLiteralParam {cur last : Cursor} {rodata : List Char}
    {result : Nat × List Char} (read : Lexer.readLiteralParam cur rodata = .ok (result, last)) :
    Skips cur last := by
  unfold Lexer.readLiteralParam at read
  rcases Preprocessor.bind_ok_iff.mp read with ⟨first, readFirst, read⟩
  rcases Preprocessor.bind_ok_iff.mp read with ⟨⟨output, _⟩, -, read⟩
  rcases Preprocessor.bind_ok_iff.mp read with ⟨combined, -, read⟩
  rcases Preprocessor.bind_ok_iff.mp read with ⟨⟨literal, behind⟩, readRest, read⟩
  cases read
  exact (skips_lexIdent (by decide) readFirst).trans (skips_readLiterals readRest)

end Shecc.Parser
