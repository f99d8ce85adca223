import Shecc.LinkedList.Core
import Shecc.Preprocessor.Macro

/-!
# The preprocessor's memory

Tokens are cells of a heap, linked by their `next` field. A function of the
preprocessor is a computation on the heap and the tables; the token variables on
its stack are cells as well, with a wild link until they are written.
-/

namespace Shecc.Preprocessor

open LinkedList

/-- The result of a call: the list and its end, and the heap they are in. -/
structure Return where
  heap : Heap Token
  head : Nat
  endOfToken : Ptr

/-- The heap and the tables of the preprocessor. `replacements` are the `replacement`
fields of the records, and `returned` are the calls that have returned. -/
structure World where
  heap : Heap Token
  macros : Macros
  replacements : String → Ptr
  pragmaOnce : String → Bool
  tokenCache : String → Option Ptr
  returned : List Return

/-- A computation of the preprocessor. -/
abbrev Run := StateT World (Except Failure)

namespace Run

variable {α β : Type}

/-- The computation that stops. -/
def fail (failure : Failure) : Run α := fun _ => .error failure

theorem bind_eq (step : Run α) (rest : α → Run β) (w : World) :
    (step >>= rest) w = (step w).bind fun result => rest result.1 result.2 := rfl

theorem pure_eq (value : α) (w : World) : (pure value : Run α) w = .ok (value, w) := rfl

theorem bind_ok {step : Run α} {rest : α → Run β} {w w' : World} {value : α}
    (ran : step w = .ok (value, w')) : (step >>= rest) w = rest value w' := by
  rw [bind_eq, ran]
  rfl

theorem bind_error {step : Run α} {rest : α → Run β} {w : World} {failure : Failure}
    (ran : step w = .error failure) : (step >>= rest) w = .error failure := by
  rw [bind_eq, ran]
  rfl

/-- A computation and what follows it return together. -/
theorem bind_eq_ok_iff {step : Run α} {rest : α → Run β} {w : World} {result : β × World} :
    (step >>= rest) w = .ok result ↔
      ∃ value w', step w = .ok (value, w') ∧ rest value w' = .ok result := by
  rw [bind_eq]
  cases step w with
  | error failure => simp [Except.bind]
  | ok middle =>
      rcases middle with ⟨value, w'⟩
      simp [Except.bind]

end Run

/-! ## Reading and writing -/

/-- The heap with a change. -/
def World.withHeap (w : World) (heap : Heap Token) : World := { w with heap := heap }

@[simp]
theorem World.withHeap_heap (w : World) (heap : Heap Token) : (w.withHeap heap).heap = heap := rfl

/-- The token a pointer points to, and its link. -/
def readCell (p : Ptr) : Run (Token × Ptr) := fun w =>
  match w.heap.get p with
  | some cell => .ok (cell, w)
  | none => .error (if p = .null then .nullPointer else .wildPointer)

/-- `tk->next`. -/
def readNext (p : Ptr) : Run Ptr := do
  let cell ← readCell p
  pure cell.2

/-- The fields of `tk`. -/
def readToken (p : Ptr) : Run Token := do
  let cell ← readCell p
  pure cell.1

/-- A new token with a null link: `copy_token` and `new_token`. -/
def newToken (tk : Token) : Run Ptr := fun w =>
  .ok (.cell w.heap.size, w.withHeap (w.heap.alloc tk .null))

/-- A token variable on the stack. -/
def newLocal : Run Nat := fun w =>
  .ok (w.heap.size, w.withHeap (w.heap.alloc ⟨.start, "", synthBuiltInLoc⟩ .wild))

/-- A token variable goes out of scope. -/
def endLocal (address : Nat) : Run Unit := fun w => .ok ((), w.withHeap (w.heap.kill address))

/-- `tk->next = next`. -/
def setNext (p next : Ptr) : Run Unit := fun w =>
  match w.heap.setNext p next with
  | some heap => .ok ((), w.withHeap heap)
  | none => .error (if p = .null then .nullPointer else .wildPointer)

/-- `pp_lex_peek_token(tk, kind, false)`. -/
def peekToken (tk : Ptr) (kind : TokenKind) : Run Bool := do
  let next ← readNext tk
  if next = .null then pure false
  else do
    let token ← readToken next
    pure (token.kind == kind)

/-- The last token of a list: `while (prev->next) prev = prev->next`. -/
def lastToken : Nat → Ptr → Run Ptr
  | 0, _ => Run.fail .outOfFuel
  | fuel + 1, prev => do
      let next ← readNext prev
      if next = .null then pure prev else lastToken fuel next

section Reading

variable {w : World} {address : Nat} {tk : Token} {next : Ptr}

theorem readCell_live (found : w.heap.cells address = .live tk next) :
    readCell (.cell address) w = .ok ((tk, next), w) := by
  rw [readCell]
  simp only [Heap.get, found]

theorem readNext_live (found : w.heap.cells address = .live tk next) :
    readNext (.cell address) w = .ok (next, w) := by
  rw [readNext, Run.bind_ok (readCell_live found)]
  rfl

theorem readToken_live (found : w.heap.cells address = .live tk next) :
    readToken (.cell address) w = .ok (tk, w) := by
  rw [readToken, Run.bind_ok (readCell_live found)]
  rfl

theorem readToken_null : readToken .null w = .error .nullPointer := rfl

theorem setNext_live {q : Ptr} (found : w.heap.cells address = .live tk next) :
    setNext (.cell address) q w =
      .ok ((), w.withHeap (w.heap.put address (.live tk q))) := by
  rw [setNext]
  simp only [Heap.setNext_of_live found]

theorem readNext_eq_ok {p q : Ptr} {w' : World} (ran : readNext p w = .ok (q, w')) :
    w' = w ∧ ∃ address tk, p = .cell address ∧ w.heap.cells address = .live tk q := by
  rcases Run.bind_eq_ok_iff.mp ran with ⟨cell, middle, read, ⟨⟩⟩
  cases p with
  | null => cases read
  | wild => cases read
  | cell address =>
      cases found : w.heap.cells address with
      | dead => simp only [readCell, Heap.get, found] at read; cases read
      | live tk q =>
          rw [readCell_live found] at read
          cases read
          exact ⟨rfl, address, tk, rfl, found⟩

/-- Behind the last token of a list there is none. -/
theorem peekToken_last (found : w.heap.cells address = .live tk .null) (kind : TokenKind) :
    peekToken (.cell address) kind w = .ok (false, w) := by
  rw [peekToken, Run.bind_ok (readNext_live found)]
  rfl

theorem peekToken_live {behind : Nat} {other : Token} {last : Ptr}
    (found : w.heap.cells address = .live tk (.cell behind))
    (token : w.heap.cells behind = .live other last) (kind : TokenKind) :
    peekToken (.cell address) kind w = .ok (other.kind == kind, w) := by
  rw [peekToken, Run.bind_ok (readNext_live found)]
  simp only [reduceCtorEq, if_false]
  rw [Run.bind_ok (readToken_live token)]
  rfl

/-- The last token of a list of fewer tokens than the loop may pass. -/
theorem lastToken_linked {fuel : Nat} {p : Ptr} {cells : List (Nat × Token)}
    (linked : Linked w.heap p (cells ++ [(address, tk)]) .null) (enough : cells.length < fuel) :
    lastToken fuel p w = .ok (.cell address, w) := by
  induction cells generalizing p fuel with
  | nil =>
      rcases linked_singleton.mp linked with ⟨rfl, found⟩
      cases fuel with
      | zero => cases enough
      | succ fuel =>
          rw [lastToken, Run.bind_ok (readNext_live found)]
          rfl
  | cons entry rest inductionHypothesis =>
      rcases entry with ⟨first, token⟩
      rcases linked with ⟨rfl, behind, found, linked⟩
      cases fuel with
      | zero => cases enough
      | succ fuel =>
          rw [lastToken, Run.bind_ok (readNext_live found)]
          have notNull : behind ≠ .null := by
            rintro rfl
            cases rest with
            | nil => cases linked.1
            | cons entry others => cases linked.1
          rw [if_neg notNull]
          exact inductionHypothesis linked (Nat.lt_of_succ_lt_succ enough)

end Reading

end Shecc.Preprocessor
