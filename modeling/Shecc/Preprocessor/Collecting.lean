import Shecc.Preprocessor.Arguments

/-!
# The loop that collects arguments

What holds before every iteration of the loop: where its variables and the lists it
has bound are in the heap, and which arguments have ended. Without an empty argument
the bound lists are the arguments; behind an empty one the variable for the list
still links to the argument before.
-/

namespace Shecc.Preprocessor

open LinkedList

/-! ## The state of the loop -/

/-- A pointer that is null, wild, or to a cell behind the variables of the loop. -/
def Over (base : Nat) (p : Ptr) : Prop := ∀ address, p = .cell address → base < address

/-- The argument so far: nothing, or the list the variable `arg_head` links to, of
cells that belong to no bound list. -/
def Partial (heap : Heap Token) (base mark : Nat) (part : List Token) (argCur : Ptr) : Prop :=
  ∃ token first, heap.cells base = .live token first ∧ first ≠ .null ∧ Over base first ∧
    ((part = [] ∧ argCur = .cell base) ∨
      ∃ chain last, Linked heap first (chain ++ [last]) .null ∧
        (chain ++ [last]).map Prod.snd = part ∧ argCur = .cell last.1 ∧
          (∀ entry ∈ chain, entry.1 < last.1) ∧ ∀ entry ∈ chain ++ [last], mark ≤ entry.1)

/-- The next token is of a kind. -/
def headIs (entries : List (Nat × Token)) (kind : TokenKind) : Bool :=
  match entries with
  | [] => false
  | entry :: _ => entry.2.kind == kind

section Collecting

variable (record : Macro) (base : Nat) (start : Heap Token)

/-- What holds before every iteration: `done` are the arguments that have ended,
`part` is the argument so far, and `entries` are the tokens to come. -/
structure Holding (done : List (List Token)) (part : List Token) (entries : List (Nat × Token))
    (c : Collecting) (heap : Heap Token) (mark : Nat) : Prop where
  bounded : heap.Bounded
  base_lt : base < mark
  mark_le : mark ≤ heap.size
  below : ∀ address < base, heap.cells address = start.cells address
  input : ∃ address token, c.tk = .cell address ∧
    Linked start c.tk ((address, token) :: entries) .null ∧
      ∀ entry ∈ (address, token) :: entries, entry.1 < base
  depth : 0 ≤ c.bracketDepth ∨ headIs entries .closeBracket = true
  closed : ∀ address token next, base ≤ address → heap.cells address = .live token next →
    Over base next
  bound : ∀ name p, c.args name = some p → Over base p ∧ p ≠ .null
  argument : Partial heap base mark part c.argCur
  argIdx : c.argIdx = min done.length record.paramNames.length
  few : record.variadicTk = none → done.length ≤ record.paramNames.length

/-- A parameter of an argument that has ended. -/
def IsBound (done : List (List Token)) (name : String) : Prop :=
  (∃ i param, i < done.length ∧ record.paramNames[i]? = some param ∧ param.literal = name) ∨
    ∃ param, record.variadicTk = some param ∧ record.paramNames.length < done.length ∧
      param.literal = name

/-- The bound lists: of cells of their own before the mark. -/
structure Lists (args : Args) (heap : Heap Token) (mark : Nat)
    (lists : String → List (Nat × Token)) : Prop where
  linked : ∀ name p, args name = some p → Linked heap p (lists name) .null
  notNil : ∀ name p, args name = some p → lists name ≠ []
  inside : ∀ name p, args name = some p → ∀ entry ∈ lists name, base < entry.1 ∧ entry.1 < mark
  apart : ∀ name other p q, args name = some p → args other = some q → name ≠ other →
    ∀ entry ∈ lists name, ∀ entry' ∈ lists other, entry.1 ≠ entry'.1

/-- The variadic parameter is bound to this name. -/
def IsVariadic (done : List (List Token)) (name : String) (param : Token) : Prop :=
  record.variadicTk = some param ∧ record.paramNames.length < done.length ∧ param.literal = name

/-- The tokens of the bound lists. -/
structure Contents (done : List (List Token)) (args : Args)
    (lists : String → List (Nat × Token)) : Prop where
  named : ∀ name p, args name = some p → (∀ param, ¬ IsVariadic record done name param) →
    ∃ (i : Nat) (param : Token), record.paramNames[i]? = some param ∧ param.literal = name ∧
      done[i]? = some ((lists name).map Prod.snd)
  variadic : ∀ name param, IsVariadic record done name param → ∃ before,
    (lists name).map Prod.snd = before ++
      joinArguments (variadicComma param) (done.drop record.paramNames.length) ∧
    (before = [] ↔ ∀ one ∈ record.paramNames, one.literal ≠ name)

end Collecting

section Steps

variable {record : Macro} {base : Nat} {start : Heap Token} {done : List (List Token)}
  {part : List Token} {entries : List (Nat × Token)} {c : Collecting} {w : World} {mark : Nat}

theorem Holding.frame (holding : Holding record base start done part entries c w.heap mark) :
    ∃ address token, c.tk = .cell address ∧
      Linked w.heap c.tk ((address, token) :: entries) .null := by
  rcases holding.input with ⟨address, token, isCell, linked, below⟩
  refine ⟨address, token, isCell, linked.frame ?_⟩
  intro entry member
  exact holding.below entry.1 (below entry member)

theorem Holding.peek (holding : Holding record base start done part entries c w.heap mark)
    (kind : TokenKind) : peekToken c.tk kind w = .ok (headIs entries kind, w) := by
  rcases holding.frame with ⟨address, token, isCell, -, next, found, linked⟩
  rw [isCell]
  cases entries with
  | nil =>
      cases linked
      exact peekToken_last found kind
  | cons entry rest =>
      rcases entry with ⟨behind, other⟩
      rcases linked with ⟨rfl, last, found', -⟩
      exact peekToken_live found found' kind

theorem Holding.readNext (holding : Holding record base start done part entries c w.heap mark) :
    readNext c.tk w =
      .ok ((match entries with | [] => .null | entry :: _ => .cell entry.1), w) := by
  rcases holding.frame with ⟨address, token, isCell, -, next, found, linked⟩
  rw [isCell, readNext_live found]
  cases entries with
  | nil =>
      cases linked
      rfl
  | cons entry rest =>
      rcases entry with ⟨behind, other⟩
      rw [linked.1]

theorem Holding.readToken {entry : Nat × Token}
    (holding : Holding record base start done part (entry :: entries) c w.heap mark) :
    readToken (.cell entry.1) w = .ok (entry.2, w) := by
  rcases holding.frame with ⟨address, token, isCell, -, next, found, linked⟩
  rcases linked with ⟨-, last, found', -⟩
  exact readToken_live found'

/-- A token passed. -/
theorem Holding.input_tail {entry : Nat × Token}
    (holding : Holding record base start done part (entry :: entries) c w.heap mark) :
    ∃ address token, Ptr.cell entry.1 = .cell address ∧
      Linked start (.cell entry.1) ((address, token) :: entries) .null ∧
        ∀ other ∈ (address, token) :: entries, other.1 < base := by
  rcases holding.input with ⟨address, token, isCell, linked, below⟩
  rcases linked with ⟨-, next, -, linked⟩
  rcases entry with ⟨behind, other⟩
  refine ⟨behind, other, rfl, ?_, fun entry member => below entry (List.mem_cons_of_mem _ member)⟩
  rw [← linked.1]
  exact linked

theorem headIs_cons {entry : Nat × Token} {kind : TokenKind} :
    headIs (entry :: entries) kind = true ↔ entry.2.kind = kind := by
  rw [headIs, beq_iff_eq]

/-- Before a token that closes nothing the count is not negative. -/
theorem Holding.count_nonneg {entry : Nat × Token}
    (holding : Holding record base start done part (entry :: entries) c w.heap mark)
    (notClose : entry.2.kind ≠ .closeBracket) : 0 ≤ c.bracketDepth := by
  apply holding.depth.resolve_right
  rw [headIs_cons]
  exact notClose

end Steps

section Accumulate

variable {record : Macro} {base : Nat} {start : Heap Token} {done : List (List Token)}
  {part : List Token} {entry : Nat × Token} {entries : List (Nat × Token)} {c : Collecting}
  {w : World} {mark : Nat}

/-- The end of the argument is a live cell that belongs to no bound list. -/
theorem Partial.argCur_live {heap : Heap Token} {argCur : Ptr}
    (argument : Partial heap base mark part argCur) :
    ∃ cur token next, argCur = .cell cur ∧ heap.cells cur = .live token next ∧
      (cur = base ∨ mark ≤ cur) := by
  rcases argument with
    ⟨token, first, found, -, -, ⟨-, rfl⟩ | ⟨chain, last, linked, -, rfl, -, behind⟩⟩
  · exact ⟨base, token, first, rfl, found, Or.inl rfl⟩
  · rcases linked_append.mp linked with ⟨middle, -, isLast⟩
    refine ⟨last.1, last.2, .null, rfl, (linked_singleton.mp isLast).2, Or.inr ?_⟩
    exact behind last (List.mem_append_right _ List.mem_cons_self)

/-- The argument with a token more. -/
theorem Partial.push {heap : Heap Token} {cur : Nat} {token : Token} {next : Ptr}
    (argument : Partial heap base mark part (.cell cur)) (bounded : heap.Bounded)
    (base_lt : base < mark) (mark_le : mark ≤ heap.size)
    (found : heap.cells cur = .live token next) (copy : Token) :
    Partial ((heap.alloc copy .null).put cur (.live token (.cell heap.size))) base mark
      (part ++ [copy]) (.cell heap.size) := by
  have curLt := bounded.lt_size found
  rcases argument with
    ⟨variable_, first, isVariable, notNull, isOver, ⟨rfl, isCur⟩ |
      ⟨chain, last, linked, rfl, isCur, increasing, behind⟩⟩
  · cases isCur
    rw [isVariable] at found
    cases found
    refine ⟨token, .cell heap.size, Heap.cells_put_self _ _, Ptr.noConfusion, ?_, Or.inr ?_⟩
    · rintro address ⟨⟩
      exact curLt
    · refine ⟨[], (heap.size, copy), linked_singleton.mpr ⟨rfl, ?_⟩, rfl, rfl, ?_, ?_⟩
      · rw [Heap.cells_put_of_ne _ (Nat.ne_of_gt curLt)]
        exact Heap.cells_alloc_self _ _
      · intro entry none_
        cases none_
      · intro entry member
        cases List.mem_singleton.mp member
        exact mark_le
  · cases isCur
    rcases last with ⟨address, value⟩
    rcases linked_append.mp linked with ⟨middle, -, isLast⟩
    rw [(linked_singleton.mp isLast).2] at found
    cases found
    have lastLe : mark ≤ address := behind _ (List.mem_append_right _ List.mem_cons_self)
    have baseOther : base ≠ address := Nat.ne_of_lt (Nat.lt_of_lt_of_le base_lt lastLe)
    have baseLt : base < heap.size := Nat.lt_of_lt_of_le base_lt mark_le
    have isLive : (heap.alloc copy .null).cells address = .live token .null := by
      rw [Heap.cells_alloc_of_ne _ _ (Nat.ne_of_lt curLt)]
      exact (linked_singleton.mp isLast).2
    refine ⟨variable_, first, ?_, notNull, isOver, Or.inr ?_⟩
    · rw [Heap.cells_put_of_ne _ baseOther, Heap.cells_alloc_of_ne _ _ (Nat.ne_of_lt baseLt)]
      exact isVariable
    · refine ⟨chain ++ [(address, token)], (heap.size, copy), ?_, ?_, rfl, ?_, ?_⟩
      · apply linked_append.mpr
        refine ⟨.cell heap.size, ?_, linked_singleton.mpr ⟨rfl, ?_⟩⟩
        · have before : Linked (heap.alloc copy .null) first (chain ++ [(address, token)])
              .null := by
            apply linked.frame
            intro entry member
            exact Heap.cells_alloc_of_ne _ _ (Nat.ne_of_lt (linked.lt_size bounded entry member))
          exact before.relink (fun entry member => Nat.ne_of_lt (increasing entry member))
            (Heap.setNext_of_live isLive)
        · rw [Heap.cells_put_of_ne _ (Nat.ne_of_gt curLt)]
          exact Heap.cells_alloc_self _ _
      · rw [List.map_append]
        rfl
      · exact fun entry member => linked.lt_size bounded entry member
      · intro entry member
        rcases List.mem_append.mp member with old | new
        · exact behind entry old
        · cases List.mem_singleton.mp new
          exact mark_le

/-- A token of an argument. -/
theorem Holding.accumulate
    (holding : Holding record base start done part (entry :: entries) c w.heap mark)
    (notClose : entry.2.kind ≠ .closeBracket) :
    ∃ heap, Preprocessor.accumulate c w = .ok
        ({ c with tk := .cell entry.1, argCur := .cell w.heap.size }, w.withHeap heap) ∧
      Holding record base start done (part ++ [entry.2]) entries
        { c with tk := .cell entry.1, argCur := .cell w.heap.size } heap mark ∧
      ∀ address < mark, address ≠ base → heap.cells address = w.heap.cells address := by
  rcases holding.argument.argCur_live with ⟨cur, token, next, isCur, found, place⟩
  have curLt := holding.bounded.lt_size found
  have argument := holding.argument
  rw [isCur] at argument
  have found' : (w.heap.alloc entry.2 .null).cells cur = .live token next := by
    rw [Heap.cells_alloc_of_ne _ _ (Nat.ne_of_lt curLt)]
    exact found
  refine ⟨(w.heap.alloc entry.2 .null).put cur (.live token (.cell w.heap.size)), ?_, ?_, ?_⟩
  · rw [Preprocessor.accumulate, Run.bind_ok holding.readNext, Run.bind_ok holding.readToken]
    rw [Run.bind_ok (rfl : newToken entry.2 w = _), isCur]
    rw [Run.bind_ok (setNext_live (w := w.withHeap (w.heap.alloc entry.2 .null)) found')]
    rfl
  · constructor
    case bounded =>
      exact (holding.bounded.alloc entry.2 .null).put _ (Nat.lt_succ_of_lt curLt)
    case base_lt => exact holding.base_lt
    case mark_le => exact Nat.le_succ_of_le holding.mark_le
    case below =>
      intro address inside
      have curOther : address ≠ cur := by
        rcases place with rfl | behind
        · exact Nat.ne_of_lt inside
        · exact Nat.ne_of_lt (Nat.lt_of_lt_of_le (Nat.lt_trans inside holding.base_lt) behind)
      have sizeOther : address ≠ w.heap.size :=
        Nat.ne_of_lt (Nat.lt_of_lt_of_le (Nat.lt_trans inside holding.base_lt) holding.mark_le)
      rw [Heap.cells_put_of_ne _ curOther, Heap.cells_alloc_of_ne _ _ sizeOther]
      exact holding.below address inside
    case input => exact holding.input_tail
    case depth => exact Or.inl (holding.count_nonneg notClose)
    case closed =>
      intro address other behind inside isLive
      by_cases same : address = cur
      · subst same
        rw [Heap.cells_put_self] at isLive
        cases isLive
        rintro address' ⟨⟩
        exact Nat.lt_of_lt_of_le holding.base_lt holding.mark_le
      · rw [Heap.cells_put_of_ne _ same] at isLive
        by_cases isNew : address = w.heap.size
        · subst isNew
          rw [Heap.cells_alloc_self] at isLive
          cases isLive
          rintro address' ⟨⟩
        · rw [Heap.cells_alloc_of_ne _ _ isNew] at isLive
          exact holding.closed address other behind inside isLive
    case bound => exact holding.bound
    case argument =>
      exact argument.push holding.bounded holding.base_lt holding.mark_le found entry.2
    case argIdx => exact holding.argIdx
    case few => exact holding.few
  · intro address inside notBase
    have curOther : address ≠ cur := by
      rcases place with rfl | behind
      · exact notBase
      · exact Nat.ne_of_lt (Nat.lt_of_lt_of_le inside behind)
    rw [Heap.cells_put_of_ne _ curOther,
      Heap.cells_alloc_of_ne _ _ (Nat.ne_of_lt (Nat.lt_of_lt_of_le inside holding.mark_le))]

end Accumulate

section Ends

variable {record : Macro} {base : Nat} {start : Heap Token} {done : List (List Token)}
  {part : List Token} {entry : Nat × Token} {entries : List (Nat × Token)} {c : Collecting}
  {w : World} {mark : Nat}

/-- The variable `arg_head` and its link. -/
theorem Partial.variable_ {heap : Heap Token} {argCur : Ptr}
    (argument : Partial heap base mark part argCur) :
    ∃ token first, heap.cells base = .live token first ∧ first ≠ .null ∧ Over base first := by
  rcases argument with ⟨token, first, found, notNull, isOver, -⟩
  exact ⟨token, first, found, notNull, isOver⟩

/-- An argument that ends: what changes is the table, and cells behind the variables. -/
theorem Holding.ended {heap : Heap Token} {args : Args} {argIdx : Nat}
    (holding : Holding record base start done part entries c w.heap mark)
    (bounded : heap.Bounded) (grows : w.heap.size ≤ heap.size)
    (below : ∀ address ≤ base, heap.cells address = w.heap.cells address)
    (closed : ∀ address token next, base ≤ address → heap.cells address = .live token next →
      Over base next)
    (bound : ∀ name p, args name = some p → Over base p ∧ p ≠ .null)
    (index : argIdx = min (done.length + 1) record.paramNames.length)
    (few : record.variadicTk = none → done.length < record.paramNames.length) :
    Holding record base start (done ++ [part]) [] entries
      { c with argIdx := argIdx, args := args, argCur := .cell base } heap heap.size := by
  have baseLt : base < w.heap.size := Nat.lt_of_lt_of_le holding.base_lt holding.mark_le
  constructor
  case bounded => exact bounded
  case base_lt => exact Nat.lt_of_lt_of_le baseLt grows
  case mark_le => exact Nat.le_refl _
  case below =>
    intro address inside
    rw [below address (Nat.le_of_lt inside)]
    exact holding.below address inside
  case input => exact holding.input
  case depth => exact holding.depth
  case closed => exact closed
  case bound => exact bound
  case argument =>
    rcases holding.argument.variable_ with ⟨token, first, found, notNull, isOver⟩
    refine ⟨token, first, ?_, notNull, isOver, Or.inl ⟨rfl, rfl⟩⟩
    rw [below base (Nat.le_refl _)]
    exact found
  case argIdx =>
    rw [List.length_append]
    exact index
  case few =>
    intro notVariadic
    rw [List.length_append]
    exact few notVariadic

/-- The next token passed. -/
theorem Holding.pass
    (holding : Holding record base start done part (entry :: entries) c w.heap mark)
    (notClose : entry.2.kind ≠ .closeBracket) :
    Holding record base start done part entries { c with tk := .cell entry.1 } w.heap mark :=
  { holding with
    input := holding.input_tail
    depth := Or.inl (holding.count_nonneg notClose) }

/-- The heap behind a comma and a list added to the list that ends in `last`. -/
def appended (heap : Heap Token) (last : Nat) (token comma : Token) (first : Ptr) : Heap Token :=
  ((heap.alloc comma .null).put last (.live token (.cell heap.size))).put heap.size
    (.live comma first)

theorem appendVariadic_eq {prev first : Ptr} {last : Nat} {token param : Token}
    (found : w.heap.cells last = .live token .null) (bounded : w.heap.Bounded)
    (isLast : lastOf prev w = .ok (.cell last, w)) :
    appendVariadic prev first param w =
      .ok ((), w.withHeap (appended w.heap last token (variadicComma param) first)) := by
  have lastLt := bounded.lt_size found
  rw [appendVariadic, Run.bind_ok isLast]
  rw [Run.bind_ok (rfl : newToken _ w = _)]
  have found' : (w.heap.alloc (variadicComma param) .null).cells last = .live token .null := by
    rw [Heap.cells_alloc_of_ne _ _ (Nat.ne_of_lt lastLt)]
    exact found
  rw [Run.bind_ok (setNext_live (w := w.withHeap (w.heap.alloc (variadicComma param) .null))
    found')]
  apply setNext_live
  exact (Heap.cells_put_of_ne _ (Nat.ne_of_gt lastLt)).trans (Heap.cells_alloc_self _ _)

theorem cells_appended {heap : Heap Token} {last : Nat} {token comma : Token} {first : Ptr}
    {address : Nat} (notLast : address ≠ last) (notNew : address ≠ heap.size) :
    (appended heap last token comma first).cells address = heap.cells address := by
  rw [appended, Heap.cells_put_of_ne _ notNew, Heap.cells_put_of_ne _ notLast,
    Heap.cells_alloc_of_ne _ _ notNew]

theorem linked_appended {heap : Heap Token} {last : Nat} {token comma : Token} {p first : Ptr}
    {cells others : List (Nat × Token)} (bounded : heap.Bounded)
    (linked : Linked heap p (cells ++ [(last, token)]) .null)
    (fresh : ∀ entry ∈ cells, entry.1 ≠ last) (linked' : Linked heap first others .null)
    (apart : ∀ entry ∈ others, entry.1 ≠ last) :
    Linked (appended heap last token comma first) p
      (cells ++ [(last, token)] ++ (heap.size, comma) :: others) .null := by
  have inside := linked.lt_size bounded
  have lastLt : last < heap.size :=
    inside (last, token) (List.mem_append_right _ List.mem_cons_self)
  apply linked_append.mpr
  refine ⟨.cell heap.size, ?_, rfl, first, Heap.cells_put_self _ _, ?_⟩
  · apply linked_append.mpr
    rcases linked_append.mp linked with ⟨middle, before, isLast⟩
    refine ⟨middle, before.frame ?_, linked_singleton.mpr ⟨(linked_singleton.mp isLast).1, ?_⟩⟩
    · intro entry member
      apply cells_appended (fresh entry member)
      exact Nat.ne_of_lt (inside entry (List.mem_append_left _ member))
    · rw [appended, Heap.cells_put_of_ne _ (Nat.ne_of_lt lastLt)]
      exact Heap.cells_put_self _ _
  · apply linked'.frame
    intro entry member
    exact cells_appended (apart entry member) (Nat.ne_of_lt (linked'.lt_size bounded entry member))

/-- The last token of a list is found only in a list that ends. -/
theorem lastToken_eq_ok {fuel : Nat} {p q : Ptr} {w' : World}
    (ran : lastToken fuel p w = .ok (q, w')) : w' = w ∧ ∃ cells last,
      q = .cell last.1 ∧ Linked w.heap p (cells ++ [last]) .null := by
  induction fuel generalizing p with
  | zero => cases ran
  | succ fuel inductionHypothesis =>
      rw [lastToken] at ran
      rcases Run.bind_eq_ok_iff.mp ran with ⟨next, middle, read, ranRest⟩
      rcases readNext_eq_ok read with ⟨rfl, address, token, rfl, found⟩
      by_cases isNull : next = .null
      · rw [if_pos isNull] at ranRest
        cases ranRest
        subst isNull
        exact ⟨rfl, [], (address, token), rfl, linked_singleton.mpr ⟨rfl, found⟩⟩
      · rw [if_neg isNull] at ranRest
        rcases inductionHypothesis ranRest with ⟨same, cells, last, isCell, linked⟩
        exact ⟨same, (address, token) :: cells, last, isCell, rfl, next, found, linked⟩

/-- From a cell behind the variables a list goes on behind them. -/
theorem Linked.over {heap : Heap Token} {p : Ptr} {cells : List (Nat × Token)} {q : Ptr}
    (linked : Linked heap p cells q) (isOver : Over base p)
    (closed : ∀ address token next, base ≤ address → heap.cells address = .live token next →
      Over base next) : ∀ entry ∈ cells, base < entry.1 := by
  induction cells generalizing p with
  | nil => simp
  | cons entry rest inductionHypothesis =>
      rcases entry with ⟨address, token⟩
      rcases linked with ⟨rfl, next, found, linked⟩
      have behind := isOver address rfl
      rintro entry (_ | ⟨_, member⟩)
      · exact behind
      · exact inductionHypothesis linked (closed address token next (Nat.le_of_lt behind) found)
          entry member

end Ends

/-! ## The end of an argument -/

section Invariant

variable (record : Macro) (base : Nat) (done : List (List Token)) (args : Args)
  (heap : Heap Token) (mark : Nat)

/-- What the variable `arg_head` still links to: nothing, or the list of the argument
before. -/
def Stale (lists : String → List (Nat × Token)) : Prop :=
  ∀ token first, heap.cells base = .live token first →
    (done = [] ∧ first = .wild) ∨
    ∃ last entry others next, done.getLast? = some last ∧ last = entry.2 :: others ∧
      first = .cell entry.1 ∧ heap.cells entry.1 = .live entry.2 next ∧
        (base < entry.1 ∧ entry.1 < mark) ∧
          ∀ param, record.variadicTk = some param → record.paramNames.length < done.length →
            entry ∈ lists param.literal

/-- Where no argument is empty, the lists are the arguments. -/
structure Good (part : List Token) : Prop where
  isBound : ∀ name, (args name).isSome = true ↔ IsBound record done name
  lists : ∃ lists, Lists base args heap mark lists ∧ Contents record done args lists ∧
    (part = [] → Stale record base done heap mark lists)

/-- A list that starts with no comma, or that is no list. -/
def Starts (p : Ptr) : Prop :=
  p = .wild ∨ ∃ address token next, p = .cell address ∧ (base < address ∧ address < mark) ∧
    heap.cells address = .live token next ∧ token.kind ≠ .comma

/-- A list that does not end. -/
def Cyclic (p : Ptr) : Prop :=
  ∃ cells : Nat → Prop, ∃ address, p = .cell address ∧ cells address ∧ ∀ one, cells one →
    (base < one ∧ one < mark) ∧ ∃ token next, heap.cells one = .live token (.cell next) ∧
      cells next

/-- An empty variadic argument leaves the variadic parameter with the wrong list. -/
def Stuck : Prop :=
  ∃ param p, record.variadicTk = some param ∧ record.paramNames.length < done.length ∧
    args param.literal = some p ∧
      (done[record.paramNames.length]? = some [] ∧ Starts base heap mark p ∨
        Cyclic base heap mark p)

/-- The first empty argument is a variadic one. -/
def EmptyVariadic : Prop :=
  ∃ j, record.paramNames.length ≤ j ∧ done[j]? = some [] ∧ ∀ i < j, done[i]? ≠ some []

/-- No parameter has the name of the variadic one. -/
def VariadicApart : Prop :=
  ∀ param, record.variadicTk = some param → ∀ one ∈ record.paramNames,
    one.literal ≠ param.literal

/-- What is known of the bound lists. -/
structure Sorted (part : List Token) : Prop where
  good : [] ∉ done → Good record base done args heap mark part
  stuck : EmptyVariadic record done → record.variadicTk.isSome = true → VariadicApart record →
    Stuck record base done args heap mark
  noComma : ∀ argument ∈ done, ∀ token ∈ argument, token.kind ≠ .comma
  noCommaPart : ∀ token ∈ part, token.kind ≠ .comma

end Invariant

section Accumulate

variable {record : Macro} {base : Nat} {done : List (List Token)} {part : List Token}
  {args : Args} {heap heap' : Heap Token} {mark : Nat}

theorem Lists.frame {lists : String → List (Nat × Token)}
    (isLists : Lists base args heap mark lists)
    (same : ∀ address < mark, address ≠ base → heap'.cells address = heap.cells address) :
    Lists base args heap' mark lists := by
  refine ⟨?_, isLists.notNil, isLists.inside, isLists.apart⟩
  intro name p bound
  apply (isLists.linked name p bound).frame
  intro entry member
  have inside := isLists.inside name p bound entry member
  exact same entry.1 inside.2 (Nat.ne_of_gt inside.1)

theorem Sorted.push {token : Token} (sorted : Sorted record base done args heap mark part)
    (notComma : token.kind ≠ .comma)
    (same : ∀ address < mark, address ≠ base → heap'.cells address = heap.cells address) :
    Sorted record base done args heap' mark (part ++ [token]) := by
  constructor
  · intro notEmpty
    rcases sorted.good notEmpty with ⟨isBound, lists, isLists, contents, -⟩
    refine ⟨isBound, lists, isLists.frame same, contents, ?_⟩
    intro isNil
    cases List.append_eq_nil_iff.mp isNil |>.2
  · intro empty variadic apart
    rcases sorted.stuck empty variadic apart with ⟨param, p, isParam, more, bound, wrong⟩
    refine ⟨param, p, isParam, more, bound, ?_⟩
    rcases wrong with ⟨isEmpty, isWild | ⟨address, token, next, isCell, inside, found, kind⟩⟩ |
      ⟨cells, address, isCell, member, cycle⟩
    · exact Or.inl ⟨isEmpty, Or.inl isWild⟩
    · refine Or.inl ⟨isEmpty, Or.inr ⟨address, token, next, isCell, inside, ?_, kind⟩⟩
      rw [same address inside.2 (Nat.ne_of_gt inside.1)]
      exact found
    · refine Or.inr ⟨cells, address, isCell, member, fun one inCells => ?_⟩
      rcases cycle one inCells with ⟨inside, token, next, found, inCells'⟩
      refine ⟨inside, token, next, ?_, inCells'⟩
      rw [same one inside.2 (Nat.ne_of_gt inside.1)]
      exact found
  · exact sorted.noComma
  · intro other member
    rcases List.mem_append.mp member with old | new
    · exact sorted.noCommaPart other old
    · cases List.mem_singleton.mp new
      exact notComma

end Accumulate

section Bind

variable {record : Macro} {base : Nat} {start : Heap Token} {done : List (List Token)}
  {part : List Token} {entries : List (Nat × Token)} {c : Collecting}
  {heap : Heap Token} {w : World} {mark : Nat} {args : Args}

/-- The list of an argument that is not empty. -/
theorem Partial.chain {argCur : Ptr} (argument : Partial heap base mark part argCur)
    (notEmpty : part ≠ []) (bounded : heap.Bounded) :
    ∃ token first chain, heap.cells base = .live token first ∧ Linked heap first chain .null ∧
      chain.map Prod.snd = part ∧ ∀ entry ∈ chain, mark ≤ entry.1 ∧ entry.1 < heap.size := by
  rcases argument with
    ⟨token, first, found, -, -, ⟨isNil, -⟩ | ⟨chain, last, linked, values, -, -, behind⟩⟩
  · exact absurd isNil notEmpty
  · refine ⟨token, first, chain ++ [last], found, linked, values, fun entry member => ?_⟩
    exact ⟨behind entry member, linked.lt_size bounded entry member⟩

/-- A name bound to a new list. -/
theorem Lists.update {lists : String → List (Nat × Token)} {name : String} {first : Ptr}
    {chain : List (Nat × Token)} (isLists : Lists base args heap mark lists)
    (linked : Linked heap first chain .null) (notNil : chain ≠ [])
    (new : ∀ entry ∈ chain, mark ≤ entry.1 ∧ entry.1 < heap.size) (base_lt : base < mark)
    (mark_le : mark ≤ heap.size) :
    Lists base (Function.update args name (some first)) heap heap.size
      (Function.update lists name chain) := by
  constructor
  · intro other p bound
    by_cases same : other = name
    · subst same
      rw [Function.update_self] at bound ⊢
      cases bound
      exact linked
    · rw [Function.update_of_ne same] at bound ⊢
      exact isLists.linked other p bound
  · intro other p bound
    by_cases same : other = name
    · subst same
      rw [Function.update_self]
      exact notNil
    · rw [Function.update_of_ne same] at bound ⊢
      exact isLists.notNil other p bound
  · intro other p bound entry member
    by_cases same : other = name
    · subst same
      rw [Function.update_self] at member
      exact ⟨Nat.lt_of_lt_of_le base_lt (new entry member).1, (new entry member).2⟩
    · rw [Function.update_of_ne same] at bound member
      have inside := isLists.inside other p bound entry member
      exact ⟨inside.1, Nat.lt_of_lt_of_le inside.2 mark_le⟩
  · intro one other p q bound bound' different entry member entry' member'
    by_cases same : one = name
    · subst same
      rw [Function.update_self] at member
      rw [Function.update_of_ne (Ne.symm different)] at bound' member'
      have inside := isLists.inside other q bound' entry' member'
      exact Nat.ne_of_gt (Nat.lt_of_lt_of_le inside.2 (new entry member).1)
    · rw [Function.update_of_ne same] at bound member
      have inside := isLists.inside one p bound entry member
      by_cases same' : other = name
      · subst same'
        rw [Function.update_self] at member'
        exact Nat.ne_of_lt (Nat.lt_of_lt_of_le inside.2 (new entry' member').1)
      · rw [Function.update_of_ne same'] at bound' member'
        exact isLists.apart one other p q bound bound' different entry member entry' member'

theorem not_isVariadic_of_le (few : done.length ≤ record.paramNames.length) (name : String)
    (param : Token) : ¬ IsVariadic record done name param := by
  rintro ⟨-, more, -⟩
  exact absurd more (Nat.not_lt_of_le few)

/-- A name bound to the parameter of the argument that has ended. -/
theorem isBound_param {param : Token} (found : record.paramNames[done.length]? = some param)
    (name : String) : IsBound record (done ++ [part]) name ↔
      param.literal = name ∨ IsBound record done name := by
  have inside := (List.getElem?_eq_some_iff.mp found).1
  constructor
  · rintro (⟨i, one, index, isParam, same⟩ | ⟨one, -, more, -⟩)
    · rw [List.length_append, List.length_singleton] at index
      rcases Nat.lt_succ_iff_lt_or_eq.mp index with earlier | rfl
      · exact Or.inr (Or.inl ⟨i, one, earlier, isParam, same⟩)
      · rw [found] at isParam
        cases isParam
        exact Or.inl same
    · rw [List.length_append, List.length_singleton] at more
      exact absurd more (Nat.not_lt_of_le inside)
  · rintro (same | ⟨i, one, index, isParam, same⟩ | ⟨one, -, more, -⟩)
    · exact Or.inl ⟨done.length, param, by simp, found, same⟩
    · refine Or.inl ⟨i, one, ?_, isParam, same⟩
      rw [List.length_append]
      exact Nat.lt_add_right _ index
    · exact absurd inside (Nat.not_lt_of_gt more)

/-- An argument bound to a parameter. -/
theorem Good.bindParam {param : Token} {token : Token} {first : Ptr} {chain : List (Nat × Token)}
    (good : Good record base done args heap mark part)
    (isParam : record.paramNames[done.length]? = some param)
    (found : heap.cells base = .live token first) (linked : Linked heap first chain .null)
    (values : chain.map Prod.snd = part) (notEmpty : part ≠ [])
    (new : ∀ entry ∈ chain, mark ≤ entry.1 ∧ entry.1 < heap.size) (base_lt : base < mark)
    (mark_le : mark ≤ heap.size) :
    Good record base (done ++ [part]) (Function.update args param.literal (some first)) heap
      heap.size [] := by
  rcases good with ⟨isBound, lists, isLists, contents, -⟩
  have inside := (List.getElem?_eq_some_iff.mp isParam).1
  have few : (done ++ [part]).length ≤ record.paramNames.length := by
    rw [List.length_append]
    exact inside
  have chainNil : chain ≠ [] := by
    rintro rfl
    exact notEmpty values.symm
  constructor
  · intro name
    rw [isBound_param isParam]
    by_cases same : name = param.literal
    · subst same
      rw [Function.update_self]
      simp
    · rw [Function.update_of_ne same, isBound]
      exact ⟨Or.inr, fun other => other.resolve_left (Ne.symm same)⟩
  · refine ⟨Function.update lists param.literal chain,
      isLists.update linked chainNil new base_lt mark_le, ⟨?_, ?_⟩, ?_⟩
    · rintro name p bound -
      by_cases same : name = param.literal
      · subst same
        refine ⟨done.length, param, isParam, rfl, ?_⟩
        rw [Function.update_self, values, List.getElem?_concat_length]
      · rw [Function.update_of_ne same] at bound ⊢
        rcases contents.named name p bound (not_isVariadic_of_le (Nat.le_of_lt inside) name) with
          ⟨i, one, isOne, sameName, isDone⟩
        refine ⟨i, one, isOne, sameName, ?_⟩
        rw [List.getElem?_append_left (List.getElem?_eq_some_iff.mp isDone).1]
        exact isDone
    · intro name one variadic
      exact absurd variadic (not_isVariadic_of_le few name one)
    · rintro - token' first' found'
      rw [found] at found'
      cases found'
      right
      cases chain with
      | nil => exact absurd rfl chainNil
      | cons entry rest =>
          rcases linked with ⟨isCell, next, isLive, -⟩
          have place := new entry List.mem_cons_self
          refine ⟨part, entry, rest.map Prod.snd, next, ?_, values.symm, isCell, isLive,
            ⟨Nat.lt_of_lt_of_le base_lt place.1, place.2⟩, ?_⟩
          · simp
          · intro one _ more
            exact absurd more (Nat.not_lt_of_le few)

end Bind

section BindVariadic

variable {record : Macro} {base : Nat} {done : List (List Token)} {part : List Token}
  {heap : Heap Token} {mark : Nat} {args : Args}

theorem joinArguments_concat (comma : Token) {arguments : List (List Token)} (last : List Token)
    (some_ : arguments ≠ []) :
    joinArguments comma (arguments ++ [last]) = joinArguments comma arguments ++ comma :: last := by
  induction arguments with
  | nil => exact absurd rfl some_
  | cons first rest inductionHypothesis =>
      cases rest with
      | nil => rfl
      | cons second others =>
          have tail := inductionHypothesis (List.cons_ne_nil _ _)
          rw [List.cons_append] at tail
          change first ++ comma :: joinArguments comma (second :: (others ++ [last])) =
            (first ++ comma :: joinArguments comma (second :: others)) ++ comma :: last
          rw [tail, List.append_assoc]
          rfl

/-- The last cell of a list that ends is not one of the cells before. -/
theorem last_fresh {p : Ptr} {cells : List (Nat × Token)} {last : Nat × Token}
    (linked : Linked heap p (cells ++ [last]) .null) : ∀ entry ∈ cells, entry.1 ≠ last.1 := by
  intro entry member same
  rcases linked_append.mp linked with ⟨middle, before, isLast⟩
  rcases List.append_of_mem member with ⟨earlier, later, rfl⟩
  rcases linked_append.mp before with ⟨here, -, -, next, found, behind⟩
  rw [same, (linked_singleton.mp isLast).2] at found
  injection found with _ isNull
  subst isNull
  have toLast := linked_append.mpr ⟨middle, behind, isLast⟩
  cases later with
  | nil => cases toLast.1
  | cons other others => cases toLast.1

theorem isVariadic_iff {param : Token} (isParam : record.variadicTk = some param)
    (more : record.paramNames.length ≤ done.length) (name : String) (one : Token) :
    IsVariadic record (done ++ [part]) name one ↔ one = param ∧ param.literal = name := by
  constructor
  · rintro ⟨isOne, -, same⟩
    cases isOne.symm.trans isParam
    exact ⟨rfl, same⟩
  · rintro ⟨rfl, same⟩
    refine ⟨isParam, ?_, same⟩
    rw [List.length_append]
    exact Nat.lt_succ_of_le more

theorem IsVariadic.param {param one : Token} {name : String}
    (variadic : IsVariadic record done name one) (isParam : record.variadicTk = some param) :
    param.literal = name := by
  rcases variadic with ⟨isOne, -, same⟩
  cases isOne.symm.trans isParam
  exact same

/-- A name bound to the variadic parameter. -/
theorem isBound_variadic {param : Token} (isParam : record.variadicTk = some param)
    (more : record.paramNames.length ≤ done.length) (name : String) :
    IsBound record (done ++ [part]) name ↔ param.literal = name ∨ IsBound record done name := by
  constructor
  · rintro (⟨i, one, -, isOne, same⟩ | ⟨one, isOne, -, same⟩)
    · have inside := (List.getElem?_eq_some_iff.mp isOne).1
      exact Or.inr (Or.inl ⟨i, one, Nat.lt_of_lt_of_le inside more, isOne, same⟩)
    · cases isOne.symm.trans isParam
      exact Or.inl same
  · rintro (same | ⟨i, one, index, isOne, same⟩ | ⟨one, isOne, moreDone, same⟩)
    · refine Or.inr ⟨param, isParam, ?_, same⟩
      rw [List.length_append]
      exact Nat.lt_succ_of_le more
    · refine Or.inl ⟨i, one, ?_, isOne, same⟩
      rw [List.length_append]
      exact Nat.lt_add_right _ index
    · refine Or.inr ⟨one, isOne, ?_, same⟩
      rw [List.length_append]
      exact Nat.lt_add_right _ moreDone

/-- The lists of the other parameters are not changed by a variadic argument. -/
theorem Contents.named_variadic {param : Token} {lists lists' : String → List (Nat × Token)}
    {args' : Args} (contents : Contents record done args lists)
    (isParam : record.variadicTk = some param)
    (more : record.paramNames.length ≤ done.length)
    (sameArgs : ∀ name, name ≠ param.literal → args' name = args name)
    (sameLists : ∀ name, name ≠ param.literal → lists' name = lists name) :
    ∀ name p, args' name = some p →
      (∀ one, ¬ IsVariadic record (done ++ [part]) name one) →
        ∃ (i : Nat) (one : Token), record.paramNames[i]? = some one ∧ one.literal = name ∧
          (done ++ [part])[i]? = some ((lists' name).map Prod.snd) := by
  intro name p bound notVariadic
  have other : name ≠ param.literal := by
    rintro rfl
    exact notVariadic param ((isVariadic_iff isParam more _ _).mpr ⟨rfl, rfl⟩)
  rw [sameArgs name other] at bound
  rw [sameLists name other]
  rcases contents.named name p bound (fun one variadic => other (variadic.param isParam).symm)
    with ⟨i, one, isOne, sameName, isDone⟩
  refine ⟨i, one, isOne, sameName, ?_⟩
  rw [List.getElem?_append_left (List.getElem?_eq_some_iff.mp isDone).1]
  exact isDone

/-- The first variadic argument. -/
theorem Good.bindVariadic {param : Token} {token : Token} {first : Ptr}
    {chain : List (Nat × Token)} (good : Good record base done args heap mark part)
    (isParam : record.variadicTk = some param)
    (more : record.paramNames.length ≤ done.length) (unbound : args param.literal = none)
    (found : heap.cells base = .live token first) (linked : Linked heap first chain .null)
    (values : chain.map Prod.snd = part) (notEmpty : part ≠ [])
    (new : ∀ entry ∈ chain, mark ≤ entry.1 ∧ entry.1 < heap.size) (base_lt : base < mark)
    (mark_le : mark ≤ heap.size) :
    Good record base (done ++ [part]) (Function.update args param.literal (some first)) heap
      heap.size [] := by
  rcases good with ⟨isBound, lists, isLists, contents, -⟩
  have notBound : ¬ IsBound record done param.literal := by
    rw [← isBound, unbound]
    exact Bool.false_ne_true
  have exactly : done.length = record.paramNames.length := by
    apply Nat.le_antisymm _ more
    by_contra tooMany
    exact notBound (Or.inr ⟨param, isParam, Nat.lt_of_not_le tooMany, rfl⟩)
  have chainNil : chain ≠ [] := by
    rintro rfl
    exact notEmpty values.symm
  constructor
  · intro name
    rw [isBound_variadic isParam more]
    by_cases same : name = param.literal
    · subst same
      rw [Function.update_self]
      simp
    · rw [Function.update_of_ne same, isBound]
      exact ⟨Or.inr, fun other => other.resolve_left (Ne.symm same)⟩
  · refine ⟨Function.update lists param.literal chain,
      isLists.update linked chainNil new base_lt mark_le, ⟨?_, ?_⟩, ?_⟩
    · exact contents.named_variadic isParam more
        (fun name other => Function.update_of_ne other _ _)
        (fun name other => Function.update_of_ne other _ _)
    · intro name one variadic
      rcases (isVariadic_iff isParam more name one).mp variadic with ⟨rfl, rfl⟩
      refine ⟨[], ?_, ?_⟩
      · rw [Function.update_self, values, List.drop_append_of_le_length more,
          List.drop_of_length_le (Nat.le_of_eq exactly)]
        rfl
      · refine ⟨fun _ other member same => notBound ?_, fun _ => rfl⟩
        rcases List.getElem?_of_mem member with ⟨i, isOther⟩
        have inside := (List.getElem?_eq_some_iff.mp isOther).1
        exact Or.inl ⟨i, other, Nat.lt_of_lt_of_le inside more, isOther, same⟩
    · rintro - token' first' found'
      rw [found] at found'
      cases found'
      right
      cases chain with
      | nil => exact absurd rfl chainNil
      | cons entry rest =>
          rcases linked with ⟨isCell, next, isLive, -⟩
          have place := new entry List.mem_cons_self
          refine ⟨part, entry, rest.map Prod.snd, next, ?_, values.symm, isCell, isLive,
            ⟨Nat.lt_of_lt_of_le base_lt place.1, place.2⟩, ?_⟩
          · simp
          · intro one isOne _
            cases isOne.symm.trans isParam
            rw [Function.update_self]
            exact List.mem_cons_self

/-- A variadic argument behind the first. -/
theorem Good.appendVariadic {param : Token} {token lastToken : Token} {first p : Ptr}
    {last : Nat} {cells chain : List (Nat × Token)}
    (good : Good record base done args heap mark part) (bounded : heap.Bounded)
    (isParam : record.variadicTk = some param)
    (more : record.paramNames.length ≤ done.length) (bound : args param.literal = some p)
    (isList : Linked heap p (cells ++ [(last, lastToken)]) .null)
    (found : heap.cells base = .live token first) (linked : Linked heap first chain .null)
    (values : chain.map Prod.snd = part) (notEmpty : part ≠ [])
    (new : ∀ entry ∈ chain, mark ≤ entry.1 ∧ entry.1 < heap.size) (base_lt : base < mark)
    (mark_le : mark ≤ heap.size) :
    Good record base (done ++ [part]) args
      (appended heap last lastToken (variadicComma param) first) (heap.size + 1) [] := by
  rcases good with ⟨isBound, lists, isLists, contents, -⟩
  have sameList : lists param.literal = cells ++ [(last, lastToken)] :=
    (isLists.linked _ _ bound).unique isList
  have inside := isLists.inside _ _ bound
  rw [sameList] at inside
  have lastInside := inside (last, lastToken) (List.mem_append_right _ List.mem_cons_self)
  have isBoundParam : IsBound record done param.literal := by
    rw [← isBound, bound]
    rfl
  have chainNil : chain ≠ [] := by
    rintro rfl
    exact notEmpty values.symm
  have chainApart : ∀ entry ∈ chain, entry.1 ≠ last := fun entry member =>
    Nat.ne_of_gt (Nat.lt_of_lt_of_le lastInside.2 (new entry member).1)
  have longer : Linked (appended heap last lastToken (variadicComma param) first) p
      (cells ++ [(last, lastToken)] ++ (heap.size, variadicComma param) :: chain) .null :=
    linked_appended bounded isList (last_fresh isList) linked chainApart
  have kept : ∀ entry : Nat × Token, entry.1 < heap.size → entry.1 ≠ last →
      (appended heap last lastToken (variadicComma param) first).cells entry.1 =
        heap.cells entry.1 :=
    fun entry inside notLast => cells_appended notLast (Nat.ne_of_lt inside)
  constructor
  · intro name
    rw [isBound_variadic isParam more, isBound]
    refine ⟨Or.inr, ?_⟩
    rintro (rfl | other)
    · exact isBoundParam
    · exact other
  · refine ⟨Function.update lists param.literal
      (cells ++ [(last, lastToken)] ++ (heap.size, variadicComma param) :: chain), ?_, ⟨?_, ?_⟩,
      ?_⟩
    · have newInside : ∀ entry ∈
          cells ++ [(last, lastToken)] ++ (heap.size, variadicComma param) :: chain,
            entry ∈ cells ++ [(last, lastToken)] ∨ mark ≤ entry.1 ∧ entry.1 < heap.size + 1 := by
        intro entry member
        rcases List.mem_append.mp member with old | _ | ⟨_, inChain⟩
        · exact Or.inl old
        · exact Or.inr ⟨mark_le, Nat.lt_succ_self _⟩
        · exact Or.inr ⟨(new entry inChain).1, Nat.lt_succ_of_lt (new entry inChain).2⟩
      constructor
      · intro name q bound'
        by_cases same : name = param.literal
        · subst same
          rw [Function.update_self]
          cases bound'.symm.trans bound
          exact longer
        · rw [Function.update_of_ne same]
          apply (isLists.linked name q bound').frame
          intro entry member
          have place := isLists.inside name q bound' entry member
          apply kept entry (Nat.lt_of_lt_of_le place.2 mark_le)
          apply isLists.apart name param.literal q p bound' bound same entry member
            (last, lastToken)
          rw [sameList]
          exact List.mem_append_right _ List.mem_cons_self
      · intro name q bound'
        by_cases same : name = param.literal
        · subst same
          rw [Function.update_self]
          simp
        · rw [Function.update_of_ne same]
          exact isLists.notNil name q bound'
      · intro name q bound' entry member
        by_cases same : name = param.literal
        · subst same
          rw [Function.update_self] at member
          rcases newInside entry member with old | new'
          · have place := inside entry old
            exact ⟨place.1, Nat.lt_succ_of_lt (Nat.lt_of_lt_of_le place.2 mark_le)⟩
          · exact ⟨Nat.lt_of_lt_of_le base_lt new'.1, new'.2⟩
        · rw [Function.update_of_ne same] at member
          have place := isLists.inside name q bound' entry member
          exact ⟨place.1, Nat.lt_succ_of_lt (Nat.lt_of_lt_of_le place.2 mark_le)⟩
      · intro one other q r bound₁ bound₂ different entry member entry' member'
        by_cases same : one = param.literal
        · subst same
          rw [Function.update_self] at member
          rw [Function.update_of_ne (Ne.symm different)] at member'
          rcases newInside entry member with old | new'
          · rw [← sameList] at old
            exact isLists.apart _ other q r bound₁ bound₂ different entry old entry' member'
          · have place := isLists.inside other r bound₂ entry' member'
            exact Nat.ne_of_gt (Nat.lt_of_lt_of_le place.2 new'.1)
        · rw [Function.update_of_ne same] at member
          by_cases same' : other = param.literal
          · subst same'
            rw [Function.update_self] at member'
            rcases newInside entry' member' with old | new'
            · rw [← sameList] at old
              exact isLists.apart one _ q r bound₁ bound₂ different entry member entry' old
            · have place := isLists.inside one q bound₁ entry member
              exact Nat.ne_of_lt (Nat.lt_of_lt_of_le place.2 new'.1)
          · rw [Function.update_of_ne same'] at member'
            exact isLists.apart one other q r bound₁ bound₂ different entry member entry' member'
    · exact contents.named_variadic isParam more (fun _ _ => rfl)
        (fun name other => Function.update_of_ne other _ _)
    · intro name one variadic
      rcases (isVariadic_iff isParam more name one).mp variadic with ⟨rfl, rfl⟩
      rw [Function.update_self, List.drop_append_of_le_length more, List.map_append,
        List.map_cons, values, ← sameList]
      rcases Nat.lt_or_ge record.paramNames.length done.length with longer' | exactly
      · rcases contents.variadic _ one ⟨isParam, longer', rfl⟩ with ⟨before, isBefore, iff_⟩
        refine ⟨before, ?_, iff_⟩
        have notNil : done.drop record.paramNames.length ≠ [] := by
          intro isNil
          exact absurd longer' (Nat.not_lt_of_le (List.drop_eq_nil_iff.mp isNil))
        rw [joinArguments_concat _ _ notNil, isBefore, List.append_assoc]
      · have few : done.length ≤ record.paramNames.length := exactly
        rcases contents.named _ p bound (not_isVariadic_of_le few _) with
          ⟨i, other, isOther, sameName, -⟩
        refine ⟨(lists one.literal).map Prod.snd ++ [variadicComma one], ?_, ?_⟩
        · rw [List.drop_of_length_le few, List.nil_append, List.append_assoc]
          rfl
        · constructor
          · intro isNil
            cases (List.append_eq_nil_iff.mp isNil).2
          · intro apart
            exact absurd sameName (apart other (List.mem_of_getElem? isOther))
    · rintro - token' first' found'
      have baseLast : base ≠ last := Nat.ne_of_lt lastInside.1
      have baseLt : base < heap.size := Nat.lt_of_lt_of_le base_lt mark_le
      rw [cells_appended baseLast (Nat.ne_of_lt baseLt), found] at found'
      cases found'
      right
      cases chain with
      | nil => exact absurd rfl chainNil
      | cons entry rest =>
          rcases linked with ⟨isCell, next, isLive, -⟩
          have place := new entry List.mem_cons_self
          refine ⟨part, entry, rest.map Prod.snd, next, ?_, values.symm, isCell, ?_,
            ⟨Nat.lt_of_lt_of_le base_lt place.1, Nat.lt_succ_of_lt place.2⟩, ?_⟩
          · simp
          · rw [kept entry place.2 (chainApart entry List.mem_cons_self)]
            exact isLive
          · intro one isOne _
            cases isOne.symm.trans isParam
            rw [Function.update_self]
            exact List.mem_append_right _ (List.mem_cons_of_mem _ List.mem_cons_self)

end BindVariadic

section Stuck

variable {record : Macro} {base : Nat} {done : List (List Token)} {part : List Token}
  {heap : Heap Token} {mark : Nat} {args : Args}

theorem emptyVariadic_concat (empty : EmptyVariadic record (done ++ [part])) :
    EmptyVariadic record done ∨
      [] ∉ done ∧ part = [] ∧ record.paramNames.length ≤ done.length := by
  rcases empty with ⟨j, more, isEmpty, earlier⟩
  have index := (List.getElem?_eq_some_iff.mp isEmpty).1
  rw [List.length_append, List.length_singleton] at index
  rcases Nat.lt_succ_iff_lt_or_eq.mp index with inside | rfl
  · left
    refine ⟨j, more, ?_, fun i before => ?_⟩
    · rw [List.getElem?_append_left inside] at isEmpty
      exact isEmpty
    · have notEmpty := earlier i before
      rw [List.getElem?_append_left (Nat.lt_trans before inside)] at notEmpty
      exact notEmpty
  · right
    rw [List.getElem?_concat_length] at isEmpty
    refine ⟨?_, Option.some.inj isEmpty, more⟩
    intro member
    rcases List.getElem?_of_mem member with ⟨i, isDone⟩
    have before := (List.getElem?_eq_some_iff.mp isDone).1
    have notEmpty := earlier i before
    rw [List.getElem?_append_left before] at notEmpty
    exact notEmpty isDone

/-- The cells of a list link to cells of the list. -/
theorem linked_next {p : Ptr} {cells : List (Nat × Token)} {last : Nat × Token}
    (linked : Linked heap p (cells ++ [last]) .null) : ∀ entry ∈ cells,
      ∃ entry' ∈ cells ++ [last], heap.cells entry.1 = .live entry.2 (.cell entry'.1) := by
  intro entry member
  rcases linked_append.mp linked with ⟨middle, before, isLast⟩
  rcases List.append_of_mem member with ⟨earlier, later, rfl⟩
  rcases linked_append.mp before with ⟨here, -, -, next, found, behind⟩
  cases later with
  | nil =>
      cases behind
      rw [(linked_singleton.mp isLast).1] at found
      exact ⟨last, List.mem_append_right _ List.mem_cons_self, found⟩
  | cons other others =>
      rw [behind.1] at found
      refine ⟨other, ?_, found⟩
      simp

/-- A list whose first cell stays where it is starts as before. -/
theorem Starts.kept {heap' : Heap Token} {mark' : Nat} {p : Ptr}
    (starts : Starts base heap mark p) (mark_le : mark ≤ mark')
    (kept : ∀ address token next, base < address → address < mark →
      heap.cells address = .live token next → ∃ next', heap'.cells address = .live token next') :
    Starts base heap' mark' p := by
  rcases starts with isWild | ⟨address, token, next, isCell, inside, found, kind⟩
  · exact Or.inl isWild
  · rcases kept address token next inside.1 inside.2 found with ⟨next', found'⟩
    exact Or.inr ⟨address, token, next', isCell, ⟨inside.1, Nat.lt_of_lt_of_le inside.2 mark_le⟩,
      found', kind⟩

/-- A list that does not end has no last token. -/
theorem Cyclic.not_linked {p : Ptr} {cells : List (Nat × Token)}
    (cyclic : Cyclic base heap mark p) : ¬ Linked heap p cells .null := by
  intro linked
  rcases cyclic with ⟨members, address, rfl, member, cycle⟩
  induction cells generalizing address with
  | nil => cases linked
  | cons entry rest inductionHypothesis =>
      rcases entry with ⟨first, token⟩
      rcases linked with ⟨isCell, next, found, linked⟩
      cases isCell
      rcases cycle address member with ⟨-, token', next', found', member'⟩
      rw [found] at found'
      cases found'
      exact inductionHypothesis next' linked member'

/-- The first variadic argument is empty, and the parameter gets what was left. -/
theorem Good.stuck_first {param : Token} {token : Token} {first : Ptr}
    (good : Good record base done args heap mark [])
    (noComma : ∀ argument ∈ done, ∀ token ∈ argument, token.kind ≠ .comma)
    (isParam : record.variadicTk = some param)
    (more : record.paramNames.length ≤ done.length) (unbound : args param.literal = none)
    (found : heap.cells base = .live token first) (mark_le : mark ≤ heap.size) :
    Stuck record base (done ++ [[]]) (Function.update args param.literal (some first)) heap
      heap.size := by
  rcases good with ⟨isBound, lists, -, -, stale⟩
  have exactly : done.length = record.paramNames.length := by
    apply Nat.le_antisymm _ more
    by_contra tooMany
    have notBound : ¬ IsBound record done param.literal := by
      rw [← isBound, unbound]
      exact Bool.false_ne_true
    exact notBound (Or.inr ⟨param, isParam, Nat.lt_of_not_le tooMany, rfl⟩)
  refine ⟨param, first, isParam, ?_, Function.update_self _ _ _, Or.inl ⟨?_, ?_⟩⟩
  · rw [List.length_append]
    exact Nat.lt_succ_of_le more
  · rw [← exactly, List.getElem?_concat_length]
  · rcases stale rfl token first found with
      ⟨-, isWild⟩ | ⟨last, entry, others, next, isLast, isFirst, isCell, isLive, inside, -⟩
    · exact Or.inl isWild
    · refine Or.inr ⟨entry.1, entry.2, next, isCell,
        ⟨inside.1, Nat.lt_of_lt_of_le inside.2 mark_le⟩, isLive, ?_⟩
      apply noComma last (List.mem_of_getLast? isLast)
      rw [isFirst]
      exact List.mem_cons_self

/-- A later variadic argument is empty, and the list is linked to itself. -/
theorem Good.stuck_later {param : Token} {token lastToken : Token} {first p : Ptr}
    {last : Nat} {cells : List (Nat × Token)}
    (good : Good record base done args heap mark [])
    (isParam : record.variadicTk = some param) (apart : VariadicApart record)
    (more : record.paramNames.length ≤ done.length) (bound : args param.literal = some p)
    (isList : Linked heap p (cells ++ [(last, lastToken)]) .null)
    (found : heap.cells base = .live token first) (base_lt : base < mark)
    (mark_le : mark ≤ heap.size) :
    Stuck record base (done ++ [[]]) args
      (appended heap last lastToken (variadicComma param) first) (heap.size + 1) := by
  rcases good with ⟨isBound, lists, isLists, -, stale⟩
  have sameList : lists param.literal = cells ++ [(last, lastToken)] :=
    (isLists.linked _ _ bound).unique isList
  have inside := isLists.inside _ _ bound
  rw [sameList] at inside
  have moreDone : record.paramNames.length < done.length := by
    have isBoundParam : IsBound record done param.literal := by
      rw [← isBound, bound]
      rfl
    rcases isBoundParam with ⟨i, one, -, isOne, same⟩ | ⟨one, -, moreDone, -⟩
    · exact absurd same (apart param isParam one (List.mem_of_getElem? isOne))
    · exact moreDone
  have notNil : done ≠ [] := by
    rintro rfl
    exact absurd moreDone (Nat.not_lt_zero _)
  rcases stale rfl token first found with
    ⟨isNil, -⟩ | ⟨-, entry, -, -, -, -, isFirst, -, -, inList⟩
  · exact absurd isNil notNil
  have entryIn := inList param isParam moreDone
  rw [sameList] at entryIn
  have lastLt : last < heap.size := Nat.lt_of_lt_of_le
    (inside (last, lastToken) (List.mem_append_right _ List.mem_cons_self)).2 mark_le
  refine ⟨param, p, isParam, ?_, bound, Or.inr ⟨fun address => address = heap.size ∨
    ∃ one ∈ cells ++ [(last, lastToken)], one.1 = address, ?_⟩⟩
  · rw [List.length_append]
    exact Nat.lt_add_right _ moreDone
  · have isStart : ∃ one ∈ cells ++ [(last, lastToken)], p = .cell one.1 := by
      cases cells with
      | nil => exact ⟨(last, lastToken), List.mem_cons_self, isList.1⟩
      | cons one rest => exact ⟨one, List.mem_cons_self, isList.1⟩
    rcases isStart with ⟨start, startIn, isCell⟩
    refine ⟨start.1, isCell, Or.inr ⟨start, startIn, rfl⟩, ?_⟩
    rintro address (rfl | ⟨one, member, rfl⟩)
    · refine ⟨⟨Nat.lt_of_lt_of_le base_lt mark_le, Nat.lt_succ_self _⟩, variadicComma param,
        entry.1, ?_, Or.inr ⟨entry, entryIn, rfl⟩⟩
      rw [← isFirst]
      exact Heap.cells_put_self _ _
    · have place := inside one member
      have oneLt := Nat.lt_of_lt_of_le place.2 mark_le
      refine ⟨⟨place.1, Nat.lt_succ_of_lt oneLt⟩, ?_⟩
      rcases List.mem_append.mp member with before | isLast
      · rcases linked_next isList one before with ⟨next, nextIn, isLive⟩
        refine ⟨one.2, next.1, ?_, Or.inr ⟨next, nextIn, rfl⟩⟩
        rw [cells_appended (last_fresh isList one before) (Nat.ne_of_lt oneLt)]
        exact isLive
      · cases List.mem_singleton.mp isLast
        refine ⟨lastToken, heap.size, ?_, Or.inl rfl⟩
        rw [appended, Heap.cells_put_of_ne _ (Nat.ne_of_lt lastLt)]
        exact Heap.cells_put_self _ _

end Stuck

end Shecc.Preprocessor
