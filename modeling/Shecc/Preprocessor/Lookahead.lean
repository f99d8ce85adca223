import Shecc.Preprocessor.Expand

/-!
# What is ahead of a cursor

The lexing functions look at the next token that is no white space. What they do is
said here by the cells ahead of the cursor without the white space.
-/

namespace Shecc.Preprocessor

open LinkedList

/-- White space between tokens. -/
def TokenKind.isSpace : TokenKind → Bool
  | .whitespace | .tab => true
  | _ => false

/-- The cells that are no white space. -/
def solid (cells : List (Nat × Token)) : List (Nat × Token) :=
  cells.filter fun cell => !cell.2.kind.isSpace

@[simp]
theorem solid_nil : solid [] = [] := rfl

theorem solid_cons_space {cell : Nat × Token} {rest : List (Nat × Token)}
    (isSpace : cell.2.kind.isSpace = true) : solid (cell :: rest) = solid rest := by
  rw [solid, List.filter_cons_of_neg (by simp [isSpace])]
  rfl

theorem solid_cons {cell : Nat × Token} {rest : List (Nat × Token)}
    (notSpace : cell.2.kind.isSpace = false) : solid (cell :: rest) = cell :: solid rest := by
  rw [solid, List.filter_cons_of_pos (by simp [notSpace])]
  rfl

/-- The cells behind a cell. -/
def Behind (w : World) (p : Ptr) (cells : List (Nat × Token)) : Prop :=
  ∃ address token next, p = .cell address ∧ w.heap.cells address = .live token next ∧
    Linked w.heap next cells .null

/-- The cells behind a cell without the white space. -/
def Ahead (w : World) (p : Ptr) (cells : List (Nat × Token)) : Prop :=
  ∃ all, Behind w p all ∧ solid all = cells

section Lexing

variable {w : World} {p : Ptr} {cell : Nat × Token} {rest : List (Nat × Token)}

theorem Behind.peek (behind : Behind w p (cell :: rest)) (kind : TokenKind) :
    peekToken p kind w = .ok (cell.2.kind == kind, w) := by
  rcases behind with ⟨address, token, next, rfl, found, rfl, last, foundCell, -⟩
  exact peekToken_live found foundCell kind

theorem Behind.peek_nil (behind : Behind w p []) (kind : TokenKind) :
    peekToken p kind w = .ok (false, w) := by
  rcases behind with ⟨address, token, next, rfl, found, rfl⟩
  exact peekToken_last found kind

theorem Behind.next (behind : Behind w p (cell :: rest)) :
    readNext p w = .ok (.cell cell.1, w) ∧ Behind w (.cell cell.1) rest ∧
      readToken (.cell cell.1) w = .ok (cell.2, w) := by
  rcases behind with ⟨address, token, next, rfl, found, rfl, last, foundCell, linked⟩
  exact ⟨readNext_live found, ⟨_, _, _, rfl, foundCell, linked⟩, readToken_live foundCell⟩

/-- The loop over white space goes to the cell in front of the next token. -/
theorem skipSpace_behind {fuel : Nat} {all : List (Nat × Token)} (behind : Behind w p all)
    (enough : all.length < fuel) : ∃ q rest, skipSpace fuel p w = .ok (q, w) ∧
      Behind w q rest ∧ solid rest = solid all ∧
        (∀ cell rest', rest = cell :: rest' → cell.2.kind.isSpace = false) := by
  induction all generalizing p fuel with
  | nil =>
      cases fuel with
      | zero => cases enough
      | succ fuel =>
          refine ⟨p, [], ?_, behind, rfl, by simp⟩
          rw [skipSpace, Run.bind_ok (behind.peek_nil _), Run.bind_ok (behind.peek_nil _)]
          rfl
  | cons cell rest inductionHypothesis =>
      cases fuel with
      | zero => cases enough
      | succ fuel =>
          rw [skipSpace, Run.bind_ok (behind.peek _), Run.bind_ok (behind.peek _)]
          cases isSpace : cell.2.kind.isSpace with
          | false =>
              refine ⟨p, cell :: rest, ?_, behind, rfl, ?_⟩
              · cases isKind : cell.2.kind <;> rw [isKind] at isSpace <;>
                  first | rfl | cases isSpace
              · intro cell' rest' same
                cases same
                exact isSpace
          | true =>
              rcases behind.next with ⟨isNext, behind', -⟩
              rcases inductionHypothesis behind' (Nat.lt_of_succ_lt_succ enough) with
                ⟨q, rest', ran, behindQ, same, notSpace⟩
              refine ⟨q, rest', ?_, behindQ, ?_, notSpace⟩
              · have isEither : (cell.2.kind == .whitespace || cell.2.kind == .tab) = true := by
                  cases isKind : cell.2.kind <;> rw [isKind] at isSpace <;>
                    first | rfl | cases isSpace
                rw [if_pos isEither, Run.bind_ok isNext, ran]
              · rw [same, solid_cons_space isSpace]

/-- Behind a cell there are fewer cells than the heap has. -/
theorem Behind.length_le (behind : Behind w p rest) (bounded : w.heap.Bounded) :
    rest.length ≤ w.heap.size := by
  rcases behind with ⟨address, token, next, rfl, found, linked⟩
  exact linked.length_le bounded

variable {cells : List (Nat × Token)}

theorem ppLexSkipSpace_ahead (bounded : w.heap.Bounded) (ahead : Ahead w p cells) :
    ∃ q rest, ppLexSkipSpace p w = .ok (q, w) ∧ Behind w q rest ∧ solid rest = cells ∧
      (∀ cell rest', rest = cell :: rest' → cell.2.kind.isSpace = false) := by
  rcases ahead with ⟨all, behind, rfl⟩
  exact skipSpace_behind behind (Nat.lt_succ_of_le (behind.length_le bounded))

/-- The cursor in front of the next token. -/
theorem position_ahead (bounded : w.heap.Bounded) (ahead : Ahead w p (cell :: rest)) :
    ∃ q all, ppLexSkipSpace p w = .ok (q, w) ∧ Behind w q (cell :: all) ∧ solid all = rest ∧
      cell.2.kind.isSpace = false := by
  rcases ppLexSkipSpace_ahead bounded ahead with ⟨q, all, ran, behind, same, notSpace⟩
  cases all with
  | nil => cases same
  | cons cell' all =>
      have isSolid := notSpace cell' all rfl
      rw [solid_cons isSolid] at same
      cases same
      exact ⟨q, all, ran, behind, rfl, isSolid⟩

theorem ppLexNextToken_ahead (bounded : w.heap.Bounded) (ahead : Ahead w p (cell :: rest)) :
    ppLexNextToken p true w = .ok (.cell cell.1, w) ∧ Ahead w (.cell cell.1) rest ∧
      readToken (.cell cell.1) w = .ok (cell.2, w) := by
  rcases position_ahead bounded ahead with ⟨q, all, ran, behind, rfl, -⟩
  rcases behind.next with ⟨isNext, behind', isToken⟩
  refine ⟨?_, ⟨all, behind', rfl⟩, isToken⟩
  rw [ppLexNextToken, position, if_pos rfl, Run.bind_ok ran, isNext]

theorem ppLexPeekToken_ahead (bounded : w.heap.Bounded) (ahead : Ahead w p (cell :: rest))
    (kind : TokenKind) : ppLexPeekToken p kind true w = .ok (cell.2.kind == kind, w) := by
  rcases position_ahead bounded ahead with ⟨q, all, ran, behind, rfl, -⟩
  rw [ppLexPeekToken, position, if_pos rfl, Run.bind_ok ran, behind.peek]

theorem errorAt_ahead {α : Type} {msg : String} {token : Token}
    (isToken : readToken p w = .ok (token, w)) :
    (errorAt msg p : Run α) w = .error (.errorAt msg token.location) := by
  rw [errorAt, Run.bind_ok isToken]
  rfl

theorem ppLexExpectToken_ahead (bounded : w.heap.Bounded) (ahead : Ahead w p (cell :: rest))
    {kind : TokenKind} (isKind : cell.2.kind = kind) :
    ppLexExpectToken p kind true w = .ok (.cell cell.1, w) := by
  rcases position_ahead bounded ahead with ⟨q, all, ran, behind, rfl, -⟩
  rcases behind.next with ⟨isNext, -, isToken⟩
  rw [ppLexExpectToken, position, if_pos rfl, Run.bind_ok ran, Run.bind_ok isNext,
    if_neg (by simp), Run.bind_ok isToken, if_pos isKind]
  rfl

theorem ppLexExpectToken_other (bounded : w.heap.Bounded) (ahead : Ahead w p (cell :: rest))
    {kind : TokenKind} (other : cell.2.kind ≠ kind) :
    ppLexExpectToken p kind true w =
      .error (.errorAt "Unexpected token kind" cell.2.location) := by
  rcases position_ahead bounded ahead with ⟨q, all, ran, behind, rfl, -⟩
  rcases behind.next with ⟨isNext, -, isToken⟩
  rw [ppLexExpectToken, position, if_pos rfl, Run.bind_ok ran, Run.bind_ok isNext,
    if_neg (by simp), Run.bind_ok isToken, if_neg other, errorAt_ahead isToken]

/-- The next token is an operator, which is read. -/
theorem ppGetOperator_ahead (bounded : w.heap.Bounded) (ahead : Ahead w p (cell :: rest))
    {op : Opcode} (isOperator : cell.2.kind.operator = some op) :
    ppGetOperator p w = .ok ((.cell cell.1, op), w) := by
  rcases position_ahead bounded ahead with ⟨q, all, ran, behind, rfl, notSpace⟩
  rcases behind.next with ⟨isNext, -, isToken⟩
  have aheadQ : Ahead w q (cell :: solid all) := ⟨cell :: all, behind, solid_cons notSpace⟩
  rw [ppGetOperator, Run.bind_ok ran, Run.bind_ok isNext, if_neg (by simp), Run.bind_ok isToken]
  simp only [isOperator]
  rw [Run.bind_ok (ppLexNextToken_ahead bounded aheadQ).1]
  rfl

/-- The next token is no operator, and stays where it is. -/
theorem ppGetOperator_operand (bounded : w.heap.Bounded) (ahead : Ahead w p (cell :: rest))
    (isOperand : cell.2.kind.operator = none) :
    ∃ q, ppGetOperator p w = .ok ((q, .generic), w) ∧ Ahead w q (cell :: rest) := by
  rcases position_ahead bounded ahead with ⟨q, all, ran, behind, rfl, notSpace⟩
  rcases behind.next with ⟨isNext, -, isToken⟩
  refine ⟨q, ?_, cell :: all, behind, solid_cons notSpace⟩
  rw [ppGetOperator, Run.bind_ok ran, Run.bind_ok isNext, if_neg (by simp), Run.bind_ok isToken]
  simp only [isOperand]
  rfl

end Lexing

end Shecc.Preprocessor
