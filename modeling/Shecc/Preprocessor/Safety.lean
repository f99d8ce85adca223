import Shecc.Preprocessor.Expand
import Shecc.Preprocessor.Collecting
import Shecc.Trace.Core

/-!
# Lists that nothing links into

While a call builds its list, no cell outside of it and no table links into it. So
what the directives and the calls for macros and files read and write is apart from
the lists of the calls that have not returned. This holds as long as every call links
something: one that does not returns what its variable `head` held before, and the
address of `head`.
-/

namespace Shecc.Preprocessor

open LinkedList Trace

/-! ## What a call returns -/

/-- The call has linked something behind `head`. -/
def Return.Links (r : Return) : Prop := r.endOfToken ≠ .cell r.head

/-- The list is the returned one. Its cells are newer than the call. -/
structure Return.IsList (r : Return) (first : Ptr) (cells : List (Nat × Token))
    (last : Nat × Token) : Prop where
  head : ∃ token, r.heap.cells r.head = .live token first
  linked : Linked r.heap first (cells ++ [last]) .null
  endOfToken : r.endOfToken = .cell last.1
  new : ∀ entry ∈ cells ++ [last], r.head < entry.1

/-- Linked behind a caller's list, which is older than the call, the returned list is
the rest of that list, and `end_of_token` is its end. -/
def Return.Splices (r : Return) (first : Ptr) (cells : List (Nat × Token))
    (last : Nat × Token) : Prop :=
  ∀ p before cur q, Linked r.heap p (before ++ [cur]) q → (∀ entry ∈ before, entry.1 ≠ cur.1) →
    (∀ entry ∈ before ++ [cur], entry.1 < r.head) →
      ∃ heap, r.heap.setNext (.cell cur.1) first = some heap ∧
        Linked heap p (before ++ [cur] ++ (cells ++ [last])) .null

/-- The call returns a list and its end, or the empty list twice. -/
def Return.WellFormed (r : Return) : Prop :=
  (∃ first cells last, r.IsList first cells last ∧ r.Splices first cells last) ∨
    ∃ token, r.heap.cells r.head = .live token .null ∧ r.endOfToken = .null

theorem Return.IsList.splices {r : Return} {first : Ptr} {cells : List (Nat × Token)}
    {last : Nat × Token} (isList : r.IsList first cells last) : r.Splices first cells last := by
  intro p before cur q linked distinct older
  rcases linked_append.mp linked with ⟨middle, -, atCur⟩
  rcases linked_singleton.mp atCur with ⟨-, found⟩
  refine ⟨_, Heap.setNext_of_live found, linked_append.mpr ⟨first, ?_, ?_⟩⟩
  · exact linked.relink distinct (Heap.setNext_of_live found)
  · apply isList.linked.frame
    intro entry member
    apply Heap.cells_put_of_ne
    apply Nat.ne_of_gt
    exact Nat.lt_trans (older cur (List.mem_append_right _ List.mem_cons_self))
      (isList.new entry member)

/-! ## Memory that is safe for the pending lists -/

/-- The pointer is null, wild, or to an allocated cell that is in no pending list. -/
def Free (pending : Nat → Prop) (size : Nat) (p : Ptr) : Prop :=
  ∀ address, p = .cell address → address < size ∧ ¬ pending address

/-- No cell outside of the pending lists and no table links to one inside. -/
structure Safe (pending : Nat → Prop) (w : World) : Prop where
  bounded : w.heap.Bounded
  inside : ∀ address, pending address → address < w.heap.size
  next : ∀ address token q, ¬ pending address → w.heap.cells address = .live token q →
    Free pending w.heap.size q
  replacement : ∀ name, Free pending w.heap.size (w.replacements name)
  tokenCache : ∀ name p, w.tokenCache name = some p → Free pending w.heap.size p

/-- The pending cells are as before. -/
def Kept (pending : Nat → Prop) (h h' : Heap Token) : Prop :=
  ∀ address, pending address → h'.cells address = h.cells address

/-- The pointers of a context are free. -/
structure Context.Free (ctx : Context) (pending : Nat → Prop) (size : Nat) : Prop where
  expandedFrom : Preprocessor.Free pending size ctx.expandedFrom
  macroArgs : ∀ name, Preprocessor.Free pending size (Args.get ctx.macroArgs name)

/-- The pointers of a table of arguments are free. -/
def Args.Free (args : Args) (pending : Nat → Prop) (size : Nat) : Prop :=
  ∀ name p, args name = some p → Preprocessor.Free pending size p

section Free

variable {pending : Nat → Prop} {n m : Nat} {p : Ptr}

theorem Free.mono (free : Free pending n p) (le : n ≤ m) : Free pending m p := by
  intro address isCell
  rcases free address isCell with ⟨inside, notPending⟩
  exact ⟨Nat.lt_of_lt_of_le inside le, notPending⟩

theorem free_null : Free pending n .null := by
  rintro address ⟨⟩

theorem free_wild : Free pending n .wild := by
  rintro address ⟨⟩

theorem Context.Free.mono {ctx : Context} (free : ctx.Free pending n) (le : n ≤ m) :
    ctx.Free pending m :=
  ⟨free.expandedFrom.mono le, fun name => (free.macroArgs name).mono le⟩

theorem Args.Free.mono {args : Args} (free : args.Free pending n) (le : n ≤ m) :
    args.Free pending m :=
  fun name p bound => (free name p bound).mono le

theorem Args.Free.get {args : Args} (free : args.Free pending n) (name : String) :
    Preprocessor.Free pending n (Args.get (some args) name) := by
  rw [Args.get]
  cases bound : args name with
  | none => exact free_null
  | some p => exact free name p bound

theorem Args.Free.update {args : Args} (free : args.Free pending n) {name : String}
    (isFree : Preprocessor.Free pending n p) :
    Args.Free (Function.update args name (some p)) pending n := by
  intro other q bound
  by_cases same : other = name
  · subst same
    rw [Function.update_self] at bound
    cases bound
    exact isFree
  · rw [Function.update_of_ne same] at bound
    exact free other q bound

end Free

section Safe

variable {pending : Nat → Prop} {w : World}

/-- A new cell. -/
theorem Safe.alloc (safe : Safe pending w) (token : Token) {q : Ptr}
    (free : Free pending w.heap.size q) : Safe pending (w.withHeap (w.heap.alloc token q)) := by
  constructor
  · exact safe.bounded.alloc token q
  · exact fun address isPending => Nat.lt_succ_of_lt (safe.inside address isPending)
  · intro address other r notPending found
    by_cases isNew : address = w.heap.size
    · subst isNew
      rw [World.withHeap_heap, Heap.cells_alloc_self] at found
      cases found
      exact free.mono (Nat.le_succ _)
    · rw [World.withHeap_heap, Heap.cells_alloc_of_ne _ _ isNew] at found
      exact (safe.next address other r notPending found).mono (Nat.le_succ _)
  · exact fun name => (safe.replacement name).mono (Nat.le_succ _)
  · exact fun name p cached => (safe.tokenCache name p cached).mono (Nat.le_succ _)

theorem Safe.kept_alloc (safe : Safe pending w) (token : Token) (q : Ptr) :
    Kept pending w.heap (w.heap.alloc token q) := by
  intro address isPending
  exact Heap.cells_alloc_of_ne _ _ (Nat.ne_of_lt (safe.inside address isPending))

/-- A cell outside of the pending lists that changes. -/
theorem Safe.put (safe : Safe pending w) {address : Nat} {cell : Cell Token}
    (inside : address < w.heap.size)
    (free : ∀ token q, cell = .live token q → Free pending w.heap.size q) :
    Safe pending (w.withHeap (w.heap.put address cell)) := by
  constructor
  · exact safe.bounded.put cell inside
  · exact safe.inside
  · intro other token q notPending found
    by_cases same : other = address
    · subst same
      rw [World.withHeap_heap, Heap.cells_put_self] at found
      exact free token q found
    · rw [World.withHeap_heap, Heap.cells_put_of_ne _ same] at found
      exact safe.next other token q notPending found
  · exact safe.replacement
  · exact safe.tokenCache

theorem kept_put {h : Heap Token} {address : Nat} (notPending : ¬ pending address)
    (cell : Cell Token) : Kept pending h (h.put address cell) := by
  intro other isPending
  apply Heap.cells_put_of_ne
  rintro rfl
  exact notPending isPending

end Safe

/-! ## Computations that leave the pending lists alone -/

/-- A fact about pointers that is not changed by new cells. -/
class Lasting (fact : Nat → Prop) : Prop where
  mono : ∀ {n m : Nat}, n ≤ m → fact n → fact m

/-- The computation keeps the memory safe and the pending cells as they are. What it
assumes and what it promises are about the cells allocated before and behind it. -/
def Spec {α : Type} (pending : Nat → Prop) (pre : Nat → Prop) (step : Run α)
    (post : α → Nat → Prop) : Prop :=
  Traced World.returned Return.Links Return.WellFormed step
    (fun w => pre w.heap.size ∧ Safe pending w)
    fun w value w' => Safe pending w' ∧ Kept pending w.heap w'.heap ∧
      w.heap.size ≤ w'.heap.size ∧ post value w'.heap.size

section Lasting

variable {pending : Nat → Prop}

instance {fact : Prop} : Lasting fun _ => fact := ⟨fun _ holds => holds⟩

instance {first second : Nat → Prop} [Lasting first] [Lasting second] :
    Lasting fun m => first m ∧ second m :=
  ⟨fun le holds => ⟨Lasting.mono le holds.1, Lasting.mono le holds.2⟩⟩

instance {α : Type} {fact : α → Nat → Prop} [∀ value, Lasting (fact value)] :
    Lasting fun m => ∀ value, fact value m :=
  ⟨fun le holds value => Lasting.mono le (holds value)⟩

instance {condition : Prop} {fact : Nat → Prop} [Lasting fact] :
    Lasting fun m => condition → fact m :=
  ⟨fun le holds isTrue => Lasting.mono le (holds isTrue)⟩

instance {p : Ptr} : Lasting fun m => Free pending m p := ⟨fun le free => free.mono le⟩

instance {ctx : Context} : Lasting fun m => ctx.Free pending m := ⟨fun le free => free.mono le⟩

instance {args : Args} : Lasting fun m => args.Free pending m := ⟨fun le free => free.mono le⟩

end Lasting

section Spec

variable {α β : Type} {pending : Nat → Prop} {pre pre' : Nat → Prop} {step : Run α}
  {post post' : α → Nat → Prop}

theorem Spec.weaken (spec : Spec pending pre step post) (assumed : ∀ m, pre' m → pre m)
    (promised : ∀ value m, post value m → post' value m) : Spec pending pre' step post' := by
  apply Traced.weaken spec
  · rintro w ⟨isPre, safe⟩
    exact ⟨assumed _ isPre, safe⟩
  · rintro w value w' - ⟨safe, kept, grows, holds⟩
    exact ⟨safe, kept, grows, promised value _ holds⟩

theorem Spec.of (spec : Spec pending pre step post) (assumed : ∀ m, pre' m → pre m) :
    Spec pending pre' step post :=
  spec.weaken assumed fun _ _ holds => holds

theorem Spec.bind [Lasting pre] {rest : α → Run β} {mid : α → Nat → Prop}
    {post : β → Nat → Prop} (first : Spec pending pre step mid)
    (second : ∀ value, Spec pending (fun m => pre m ∧ mid value m) (rest value) post) :
    Spec pending pre (step >>= rest) post := by
  apply Traced.bind first
  intro w value
  apply Traced.weaken (second value)
  · rintro w₁ ⟨⟨isPre, -⟩, safe, -, grows, isMid⟩
    exact ⟨⟨Lasting.mono grows isPre, isMid⟩, safe⟩
  · rintro w₁ value' w₂ ⟨-, -, kept, grows, -⟩ ⟨safe', kept', grows', isPost⟩
    refine ⟨safe', ?_, Nat.le_trans grows grows', isPost⟩
    intro address isPending
    rw [kept' address isPending, kept address isPending]

theorem Spec.fail {failure : Failure} : Spec pending pre (Run.fail failure : Run α) post :=
  Traced.fail

theorem Spec.pure {value : α} (holds : ∀ m, pre m → post value m) :
    Spec pending pre (pure value : Run α) post := by
  apply Traced.pure
  rintro w ⟨isPre, safe⟩
  exact ⟨safe, fun _ _ => rfl, Nat.le_refl _, holds _ isPre⟩

theorem Spec.ite {condition : Prop} [Decidable condition] {first second : Run α}
    (isTrue : condition → Spec pending pre first post)
    (isFalse : ¬ condition → Spec pending pre second post) :
    Spec pending pre (if condition then first else second) post :=
  Traced.ite isTrue isFalse

/-- A computation that does not change the world. -/
theorem Spec.read (ran : ∀ w value w', step w = .ok (value, w') → w' = w ∧
    (pre w.heap.size → Safe pending w → post value w.heap.size)) :
    Spec pending pre step post := by
  apply Traced.silent
  intro w value w' isOk
  rcases ran w value w' isOk with ⟨rfl, holds⟩
  refine ⟨rfl, ?_⟩
  rintro ⟨isPre, safe⟩
  exact ⟨safe, fun _ _ => rfl, Nat.le_refl _, holds isPre safe⟩

end Spec

section Primitives

variable {α : Type} {pending : Nat → Prop} {pre : Nat → Prop}

theorem readCell_eq_ok {w w' : World} {p : Ptr} {cell : Token × Ptr}
    (ran : readCell p w = .ok (cell, w')) : w' = w ∧ w.heap.get p = some cell := by
  rw [readCell] at ran
  cases found : w.heap.get p with
  | none =>
      simp only [found] at ran
      cases ran
  | some other =>
      simp only [found] at ran
      cases ran
      exact ⟨rfl, rfl⟩

theorem readNext_spec {p : Ptr} : Spec pending (fun m => Free pending m p) (readNext p)
    fun q m => Free pending m q := by
  apply Traced.silent
  intro w q w' ran
  rcases readNext_eq_ok ran with ⟨rfl, address, token, rfl, found⟩
  refine ⟨rfl, ?_⟩
  rintro ⟨free, safe⟩
  exact ⟨safe, fun _ _ => rfl, Nat.le_refl _,
    safe.next address token q (free address rfl).2 found⟩

theorem readToken_spec {p : Ptr} : Spec pending pre (readToken p) fun _ _ => True := by
  apply Spec.read
  intro w token w' ran
  rcases Run.bind_eq_ok_iff.mp ran with ⟨cell, middle, read, ⟨⟩⟩
  exact ⟨(readCell_eq_ok read).1, fun _ _ => trivial⟩

theorem peekToken_spec {p : Ptr} {kind : TokenKind} :
    Spec pending pre (peekToken p kind) fun _ _ => True := by
  apply Spec.read
  intro w found w' ran
  rcases Run.bind_eq_ok_iff.mp ran with ⟨next, middle, read, ran'⟩
  rcases readNext_eq_ok read with ⟨rfl, -⟩
  by_cases isNull : next = .null
  · rw [if_pos isNull] at ran'
    cases ran'
    exact ⟨rfl, fun _ _ => trivial⟩
  · rw [if_neg isNull] at ran'
    rcases Run.bind_eq_ok_iff.mp ran' with ⟨token, middle, readToken, ⟨⟩⟩
    rcases Run.bind_eq_ok_iff.mp readToken with ⟨cell, middle, readCell, ⟨⟩⟩
    exact ⟨(readCell_eq_ok readCell).1, fun _ _ => trivial⟩

theorem newToken_spec {token : Token} : Spec pending pre (newToken token)
    fun p m => Free pending m p := by
  apply Traced.silent
  rintro w p w' ⟨⟩
  refine ⟨rfl, ?_⟩
  rintro ⟨-, safe⟩
  refine ⟨safe.alloc token free_null, safe.kept_alloc token _, Nat.le_succ _, ?_⟩
  rintro address ⟨⟩
  exact ⟨Nat.lt_succ_self _, fun isPending => Nat.lt_irrefl _ (safe.inside _ isPending)⟩

theorem newLocal_spec :
    Spec pending pre newLocal fun address m => Free pending m (.cell address) := by
  apply Traced.silent
  rintro w p w' ⟨⟩
  refine ⟨rfl, ?_⟩
  rintro ⟨-, safe⟩
  refine ⟨safe.alloc _ free_wild, safe.kept_alloc _ _, Nat.le_succ _, ?_⟩
  rintro address ⟨⟩
  exact ⟨Nat.lt_succ_self _, fun isPending => Nat.lt_irrefl _ (safe.inside _ isPending)⟩

theorem endLocal_spec {address : Nat} :
    Spec pending (fun m => Free pending m (.cell address)) (endLocal address) fun _ _ => True := by
  apply Traced.silent
  rintro w p w' ⟨⟩
  refine ⟨rfl, ?_⟩
  rintro ⟨free, safe⟩
  rcases free address rfl with ⟨inside, notPending⟩
  refine ⟨safe.put inside ?_, kept_put notPending _, Nat.le_refl _, trivial⟩
  rintro token q ⟨⟩

theorem setNext_eq_ok {p q : Ptr} {w w' : World} {result : Unit}
    (ran : setNext p q w = .ok (result, w')) : ∃ address token old, p = .cell address ∧
      w.heap.cells address = .live token old ∧
        w' = w.withHeap (w.heap.put address (.live token q)) := by
  rw [setNext] at ran
  cases isSet : w.heap.setNext p q with
  | none =>
      simp only [isSet] at ran
      cases ran
  | some heap =>
      simp only [isSet] at ran
      cases ran
      rcases Heap.setNext_eq_some isSet with ⟨address, token, old, isCell, found, rfl⟩
      exact ⟨address, token, old, isCell, found, rfl⟩

theorem setNext_spec {p q : Ptr} :
    Spec pending (fun m => Free pending m p ∧ Free pending m q) (setNext p q) fun _ _ => True := by
  apply Traced.silent
  intro w result w' ran
  rcases setNext_eq_ok ran with ⟨address, token, old, rfl, found, rfl⟩
  refine ⟨rfl, ?_⟩
  rintro ⟨⟨free, free'⟩, safe⟩
  rcases free address rfl with ⟨inside, notPending⟩
  refine ⟨safe.put inside ?_, kept_put notPending _, Nat.le_refl _, trivial⟩
  rintro other r ⟨⟩
  exact free'

theorem getMacro_spec {name : String} :
    Spec pending pre (getMacro name) fun _ _ => True := by
  apply Spec.read
  rintro w value w' ⟨⟩
  exact ⟨rfl, fun _ _ => trivial⟩

theorem isMacroDefined_spec {name : String} :
    Spec pending pre (isMacroDefined name) fun _ _ => True := by
  apply Spec.read
  rintro w value w' ⟨⟩
  exact ⟨rfl, fun _ _ => trivial⟩

theorem isPragmaOnce_spec {path : String} :
    Spec pending pre (isPragmaOnce path) fun _ _ => True := by
  apply Spec.read
  rintro w value w' ⟨⟩
  exact ⟨rfl, fun _ _ => trivial⟩

theorem getReplacement_spec {name : String} :
    Spec pending pre (getReplacement name) fun p m => Free pending m p := by
  apply Spec.read
  rintro w value w' ⟨⟩
  exact ⟨rfl, fun _ safe => safe.replacement name⟩

theorem getTokenCache_spec {filename : String} :
    Spec pending pre (getTokenCache filename)
      fun cached m => ∀ p, cached = some p → Free pending m p := by
  apply Spec.read
  rintro w value w' ⟨⟩
  exact ⟨rfl, fun _ safe p cached => safe.tokenCache filename p cached⟩

theorem setMacros_spec {change : Macros → Macros} :
    Spec pending pre (setMacros change) fun _ _ => True := by
  apply Traced.silent
  rintro w value w' ⟨⟩
  refine ⟨rfl, ?_⟩
  rintro ⟨-, safe⟩
  exact ⟨⟨safe.bounded, safe.inside, safe.next, safe.replacement, safe.tokenCache⟩,
    fun _ _ => rfl, Nat.le_refl _, trivial⟩

theorem setPragmaOnce_spec {path : String} :
    Spec pending pre (setPragmaOnce path) fun _ _ => True := by
  apply Traced.silent
  rintro w value w' ⟨⟩
  refine ⟨rfl, ?_⟩
  rintro ⟨-, safe⟩
  exact ⟨⟨safe.bounded, safe.inside, safe.next, safe.replacement, safe.tokenCache⟩,
    fun _ _ => rfl, Nat.le_refl _, trivial⟩

theorem setReplacement_spec {name : String} {head : Ptr} :
    Spec pending (fun m => Free pending m head) (setReplacement name head) fun _ _ => True := by
  apply Traced.silent
  rintro w value w' ⟨⟩
  refine ⟨rfl, ?_⟩
  rintro ⟨free, safe⟩
  refine ⟨⟨safe.bounded, safe.inside, safe.next, ?_, safe.tokenCache⟩, fun _ _ => rfl,
    Nat.le_refl _, trivial⟩
  intro other
  change Free pending w.heap.size (Function.update w.replacements name head other)
  by_cases same : other = name
  · subst same
    rw [Function.update_self]
    exact free
  · rw [Function.update_of_ne same]
    exact safe.replacement other

theorem setTokenCache_spec {filename : String} {head : Ptr} :
    Spec pending (fun m => Free pending m head) (setTokenCache filename head) fun _ _ => True := by
  apply Traced.silent
  rintro w value w' ⟨⟩
  refine ⟨rfl, ?_⟩
  rintro ⟨free, safe⟩
  refine ⟨⟨safe.bounded, safe.inside, safe.next, safe.replacement, ?_⟩, fun _ _ => rfl,
    Nat.le_refl _, trivial⟩
  intro other p cached
  change Function.update w.tokenCache filename (some head) other = some p at cached
  by_cases same : other = filename
  · subst same
    rw [Function.update_self] at cached
    cases cached
    exact free
  · rw [Function.update_of_ne same] at cached
    exact safe.tokenCache other p cached

theorem Run.lift_spec {result : Except Failure α} :
    Spec pending pre (Run.lift result) fun _ _ => True := by
  apply Spec.read
  intro w value w' ran
  cases result with
  | error failure => cases ran
  | ok value =>
      cases ran
      exact ⟨rfl, fun _ _ => trivial⟩

theorem walk_spec {loop : Nat → Run α} {post : α → Nat → Prop}
    (rounds : ∀ fuel, Spec pending pre (loop fuel) post) : Spec pending pre (walk loop) post := by
  intro w value w' ran
  exact rounds _ w value w' ran

theorem errorAt_spec [Lasting pre] {msg : String} {tk : Ptr} {post : α → Nat → Prop} :
    Spec pending pre (errorAt msg tk) post := by
  apply Spec.bind readToken_spec
  intro token
  exact Spec.fail

end Primitives

/-! ## The functions of the directives -/

section Lexing

variable {pending : Nat → Prop} {fuel : Nat} {tk : Ptr}

theorem skipSpace_spec : Spec pending (fun m => Free pending m tk) (skipSpace fuel tk)
    fun p m => Free pending m p := by
  induction fuel generalizing tk with
  | zero => exact Spec.fail
  | succ fuel inductionHypothesis =>
      apply Spec.bind peekToken_spec
      intro whitespace
      apply Spec.bind peekToken_spec
      intro tab
      apply Spec.ite
      · intro _
        apply Spec.bind (readNext_spec.of fun m holds => holds.1.1)
        intro next
        exact inductionHypothesis.of fun m holds => holds.2
      · intro _
        exact Spec.pure fun m holds => holds.1.1

theorem ppLexSkipSpace_spec : Spec pending (fun m => Free pending m tk) (ppLexSkipSpace tk)
    fun p m => Free pending m p :=
  walk_spec fun _ => skipSpace_spec

theorem position_spec {skip : Bool} : Spec pending (fun m => Free pending m tk)
    (position tk skip) fun p m => Free pending m p := by
  apply Spec.ite
  · intro _
    exact ppLexSkipSpace_spec
  · intro _
    exact Spec.pure fun m free => free

theorem ppLexNextToken_spec {skip : Bool} : Spec pending (fun m => Free pending m tk)
    (ppLexNextToken tk skip) fun p m => Free pending m p := by
  apply Spec.bind position_spec
  intro behind
  exact readNext_spec.of fun m holds => holds.2

theorem ppLexPeekToken_spec {kind : TokenKind} {skip : Bool} :
    Spec pending (fun m => Free pending m tk) (ppLexPeekToken tk kind skip) fun _ _ => True := by
  apply Spec.bind position_spec
  intro behind
  exact peekToken_spec

theorem ppLexExpectToken_spec {kind : TokenKind} {skip : Bool} :
    Spec pending (fun m => Free pending m tk) (ppLexExpectToken tk kind skip)
      fun p m => Free pending m p := by
  apply Spec.bind position_spec
  intro behind
  apply Spec.bind (readNext_spec.of fun m holds => holds.2)
  intro next
  apply Spec.ite
  · intro _
    exact errorAt_spec
  · intro _
    apply Spec.bind readToken_spec
    intro token
    apply Spec.ite
    · intro _
      exact Spec.pure fun m holds => holds.1.2
    · intro _
      exact errorAt_spec

theorem ppGetOperator_spec : Spec pending (fun m => Free pending m tk) (ppGetOperator tk)
    fun result m => Free pending m result.1 := by
  apply Spec.bind ppLexSkipSpace_spec
  intro behind
  apply Spec.bind (readNext_spec.of fun m holds => holds.2)
  intro next
  apply Spec.ite
  · intro _
    exact errorAt_spec
  · intro _
    apply Spec.bind readToken_spec
    intro token
    cases token.kind.operator with
    | none => exact Spec.pure fun m holds => holds.1.1.2
    | some op =>
        apply Spec.bind (ppLexNextToken_spec.of fun m holds => holds.1.1.2)
        intro operator
        exact Spec.pure fun m holds => holds.2

theorem twoBehind_spec : Spec pending (fun m => Free pending m tk) (twoBehind tk)
    fun p m => Free pending m p := by
  apply Spec.bind readNext_spec
  intro next
  apply Spec.ite
  · intro _
    exact errorAt_spec
  · intro _
    apply Spec.bind (readNext_spec.of fun m holds => holds.2)
    intro behind
    apply Spec.ite
    · intro _
      exact errorAt_spec
    · intro _
      exact Spec.pure fun m holds => holds.2

theorem skipInnerCondIncl_spec : Spec pending (fun m => Free pending m tk)
    (skipInnerCondIncl fuel tk) fun p m => Free pending m p := by
  induction fuel generalizing tk with
  | zero => exact Spec.fail
  | succ fuel inductionHypothesis =>
      apply Spec.bind readToken_spec
      intro token
      apply Spec.ite
      · intro _
        exact Spec.pure fun m holds => holds.1
      · intro _
        apply Spec.ite
        · intro _
          apply Spec.bind (twoBehind_spec.of fun m holds => holds.1)
          intro behind
          apply Spec.bind (inductionHypothesis.of fun m holds => holds.2)
          intro closed
          exact inductionHypothesis.of fun m holds => holds.2
        · intro _
          apply Spec.ite
          · intro _
            exact twoBehind_spec.of fun m holds => holds.1
          · intro _
            apply Spec.bind (readNext_spec.of fun m holds => holds.1)
            intro next
            exact inductionHypothesis.of fun m holds => holds.2

theorem skipCondIncl_spec : Spec pending (fun m => Free pending m tk) (skipCondIncl fuel tk)
    fun p m => Free pending m p := by
  induction fuel generalizing tk with
  | zero => exact Spec.fail
  | succ fuel inductionHypothesis =>
      apply Spec.bind readToken_spec
      intro token
      apply Spec.ite
      · intro _
        exact Spec.pure fun m holds => holds.1
      · intro _
        apply Spec.ite
        · intro _
          apply Spec.bind (skipInnerCondIncl_spec.of fun m holds => holds.1)
          intro closed
          exact inductionHypothesis.of fun m holds => holds.2
        · intro _
          apply Spec.ite
          · intro _
            exact Spec.pure fun m holds => holds.1
          · intro _
            apply Spec.bind (readNext_spec.of fun m holds => holds.1)
            intro next
            exact inductionHypothesis.of fun m holds => holds.2

theorem ppSkipCondIncl_spec : Spec pending (fun m => Free pending m tk) (ppSkipCondIncl tk)
    fun p m => Free pending m p :=
  walk_spec fun _ => skipCondIncl_spec

end Lexing

/-- The calls a function makes return free lists. -/
def Returning (pending : Nat → Prop) (expand : Expand) : Prop :=
  ∀ tk ctx, Spec pending (fun m => Free pending m tk ∧ ctx.Free pending m) (expand tk ctx)
    fun result m => Free pending m result.1 ∧ Free pending m result.2

section Condition

variable {pending : Nat → Prop} {expand : Expand} {fuel precedence : Nat} {tk : Ptr}

theorem unaryValue_spec {op : Opcode} {lhs : Word} {pre : Nat → Prop} [Lasting pre]
    (free : ∀ m, pre m → Free pending m tk) :
    Spec pending pre (unaryValue tk op lhs) fun _ _ => True := by
  have other : Spec pending pre (do
      let next ← readNext tk
      errorAt "Unexpected unary token while evaluating constant"
        (if next = .null then tk else next) : Run Word) fun _ _ => True := by
    apply Spec.bind (readNext_spec.of free)
    intro next
    exact errorAt_spec
  cases op <;> first | exact Spec.pure fun _ _ => trivial | exact other

theorem infixValue_spec {op : Opcode} {lhs rhs : Word} {pre : Nat → Prop} [Lasting pre] :
    Spec pending pre (infixValue tk op lhs rhs) fun _ _ => True := by
  apply Spec.ite
  · intro _
    cases op.binary lhs rhs with
    | none => exact Spec.fail
    | some value => exact Spec.pure fun _ _ => trivial
  · intro _
    exact errorAt_spec

theorem definedOperand_spec : Spec pending (fun m => Free pending m tk) (definedOperand tk)
    fun result m => Free pending m result.1 := by
  apply Spec.bind ppLexExpectToken_spec
  intro opening
  apply Spec.bind (ppLexExpectToken_spec.of fun m holds => holds.2)
  intro name
  apply Spec.bind readToken_spec
  intro token
  apply Spec.bind isMacroDefined_spec
  intro isDefined
  apply Spec.bind (ppLexExpectToken_spec.of fun m holds => holds.1.1.2)
  intro closing
  exact Spec.pure fun m holds => holds.2

theorem expandOperand_spec (returning : Returning pending expand) {name : String} :
    Spec pending (fun m => Free pending m tk) (expandOperand expand tk name) fun _ _ => True := by
  apply Spec.bind getReplacement_spec
  intro replacement
  apply Spec.bind ((returning replacement _).of fun m holds =>
    ⟨holds.2, ⟨holds.1, fun name => free_null⟩⟩)
  intro expansion
  apply Spec.bind (readNext_spec.of fun m holds => holds.1.1)
  intro tmp
  apply Spec.bind (setNext_spec.of fun m holds => ⟨holds.1.1.1, holds.1.2.1⟩)
  intro _
  exact setNext_spec.of fun m holds => ⟨holds.1.1.2.2, holds.1.2⟩

theorem ppReadConstantExprOperand_spec (returning : Returning pending expand) :
    Spec pending (fun m => Free pending m tk) (ppReadConstantExprOperand expand fuel tk)
      fun result m => Free pending m result.1 := by
  induction fuel generalizing tk with
  | zero => exact Spec.fail
  | succ fuel inductionHypothesis =>
      apply Spec.bind ppLexPeekToken_spec
      intro isNumeric
      apply Spec.ite
      · intro _
        apply Spec.bind (ppLexNextToken_spec.of fun m holds => holds.1)
        intro number
        apply Spec.bind readToken_spec
        intro token
        exact Spec.pure fun m holds => holds.1.2
      · intro _
        apply Spec.bind (ppLexPeekToken_spec.of fun m holds => holds.1)
        intro isBracket
        apply Spec.ite
        · intro _
          apply Spec.bind (ppLexNextToken_spec.of fun m holds => holds.1.1)
          intro opening
          apply Spec.bind (inductionHypothesis.of fun m holds => holds.2)
          rintro ⟨last, value⟩
          apply Spec.bind (ppLexExpectToken_spec.of fun m holds => holds.2)
          intro closing
          exact Spec.pure fun m holds => holds.2
        · intro _
          apply Spec.bind (ppLexPeekToken_spec.of fun m holds => holds.1.1)
          intro isIdentifier
          apply Spec.ite
          · intro _
            apply Spec.bind (ppLexNextToken_spec.of fun m holds => holds.1.1.1)
            intro name
            apply Spec.bind readToken_spec
            intro token
            apply Spec.ite
            · intro _
              exact definedOperand_spec.of fun m holds => holds.1.2
            · intro _
              apply Spec.bind getMacro_spec
              intro record
              cases record.filter fun record => !record.isFunctionLike with
              | none => exact Spec.pure fun m holds => holds.1.1.2
              | some record =>
                  apply Spec.bind ((expandOperand_spec returning).of fun m holds => holds.1.1.2)
                  intro _
                  exact inductionHypothesis.of fun m holds => holds.1.1.1.2
          · intro _
            apply Spec.bind (ppLexNextToken_spec.of fun m holds => holds.1.1.1)
            intro wrong
            exact errorAt_spec

theorem infixLoop_spec {readInfix : Nat → Ptr → Run (Ptr × Word)}
    (isRead : ∀ precedence tk, Spec pending (fun m => Free pending m tk) (readInfix precedence tk)
      fun result m => Free pending m result.1) {lhs : Word} :
    Spec pending (fun m => Free pending m tk) (infixLoop readInfix precedence fuel tk lhs)
      fun result m => Free pending m result.1 := by
  induction fuel generalizing tk lhs with
  | zero => exact Spec.fail
  | succ fuel inductionHypothesis =>
      apply Spec.bind ppGetOperator_spec
      rintro ⟨behind, op⟩
      apply Spec.ite
      · intro _
        exact Spec.pure fun m holds => holds.2
      · intro _
        apply Spec.bind ((isRead _ behind).of fun m holds => holds.2)
        rintro ⟨last, rhs⟩
        apply Spec.bind infixValue_spec
        intro value
        apply Spec.bind (ppGetOperator_spec.of fun m holds => holds.1.2)
        rintro ⟨next, lost⟩
        exact inductionHypothesis.of fun m holds => holds.2

theorem ppReadConstantInfixExpr_spec (returning : Returning pending expand) :
    Spec pending (fun m => Free pending m tk) (ppReadConstantInfixExpr expand fuel precedence tk)
      fun result m => Free pending m result.1 := by
  induction fuel generalizing tk precedence with
  | zero => exact Spec.fail
  | succ fuel inductionHypothesis =>
      apply Spec.bind ppGetOperator_spec
      rintro ⟨behind, op⟩
      apply Spec.ite
      · intro _
        apply Spec.bind (inductionHypothesis.of fun m holds => holds.2)
        rintro ⟨last, lhs⟩
        apply Spec.bind (unaryValue_spec fun m holds => holds.2)
        intro value
        exact (infixLoop_spec fun _ _ => inductionHypothesis).of fun m holds => holds.1.2
      · intro _
        apply Spec.bind ((ppReadConstantExprOperand_spec returning).of fun m holds => holds.2)
        rintro ⟨last, lhs⟩
        exact (infixLoop_spec fun _ _ => inductionHypothesis).of fun m holds => holds.2

theorem ppReadConstantExpr_spec (returning : Returning pending expand) :
    Spec pending (fun m => Free pending m tk) (ppReadConstantExpr expand fuel tk)
      fun result m => Free pending m result.1 := by
  apply Spec.bind (ppReadConstantInfixExpr_spec returning)
  rintro ⟨last, value⟩
  apply Spec.bind (ppLexNextToken_spec.of fun m holds => holds.2)
  intro next
  exact Spec.pure fun m holds => holds.2

end Condition

section Collecting

variable {pending : Nat → Prop} {expand : Expand} {ctx : Context} {hideSet : List String}
  {record : Macro} {argHead fuel : Nat} {macroTk : SourceLocation} {tk : Ptr}

/-- The pointers of the loop are free. -/
structure Collecting.Free (c : Collecting) (pending : Nat → Prop) (size : Nat) : Prop where
  tk : Preprocessor.Free pending size c.tk
  argCur : Preprocessor.Free pending size c.argCur
  args : c.args.Free pending size

instance {c : Collecting} : Lasting fun m => c.Free pending m :=
  ⟨fun le free => ⟨free.tk.mono le, free.argCur.mono le, free.args.mono le⟩⟩

theorem countBracket_spec {bracketDepth : Int} {pre : Nat → Prop} [Lasting pre] :
    Spec pending pre (countBracket tk bracketDepth) fun _ _ => True := by
  apply Spec.bind peekToken_spec
  intro opens
  apply Spec.ite
  · intro _
    exact Spec.pure fun _ _ => trivial
  · intro _
    apply Spec.bind peekToken_spec
    intro closes
    apply Spec.ite
    · intro _
      exact Spec.pure fun _ _ => trivial
    · intro _
      exact Spec.pure fun _ _ => trivial

theorem enclosingArgument_spec :
    Spec pending (fun m => Free pending m tk ∧ ctx.Free pending m) (enclosingArgument ctx tk)
      fun p m => Free pending m p := by
  apply Spec.bind peekToken_spec
  intro isIdentifier
  apply Spec.ite
  · intro _
    apply Spec.bind (readNext_spec.of fun m holds => holds.1.1)
    intro next
    apply Spec.bind readToken_spec
    intro token
    exact Spec.pure fun m holds => holds.1.1.1.2.macroArgs token.literal
  · intro _
    exact Spec.pure fun m _ => free_null

theorem expandArgument_spec (returning : Returning pending expand) {argTk : Ptr} {c : Collecting} :
    Spec pending (fun m => Free pending m argTk ∧ c.Free pending m)
      (expandArgument expand hideSet argTk c) fun c' m => c'.Free pending m := by
  apply Spec.bind (readNext_spec.of fun m holds => holds.2.tk)
  intro next
  apply Spec.bind ((returning argTk _).of fun m holds =>
    ⟨holds.1.1, ⟨holds.2, fun name => free_null⟩⟩)
  intro expansion
  apply Spec.bind (readNext_spec.of fun m holds => holds.1.1.2.tk)
  intro behind
  apply Spec.bind (setNext_spec.of fun m holds => ⟨holds.1.1.1.2.argCur, holds.1.2.1⟩)
  intro _
  exact Spec.pure fun m holds =>
    ⟨holds.1.2, holds.1.1.2.2, holds.1.1.1.1.2.args⟩

theorem accumulate_spec {c : Collecting} : Spec pending (fun m => c.Free pending m) (accumulate c)
    fun c' m => c'.Free pending m := by
  apply Spec.bind (readNext_spec.of fun m free => free.tk)
  intro next
  apply Spec.bind readToken_spec
  intro token
  apply Spec.bind newToken_spec
  intro copy
  apply Spec.bind (setNext_spec.of fun m holds => ⟨holds.1.1.1.argCur, holds.2⟩)
  intro _
  exact Spec.pure fun m holds => ⟨holds.1.1.1.2, holds.1.2, holds.1.1.1.1.args⟩

theorem lastToken_spec : Spec pending (fun m => Free pending m tk) (lastToken fuel tk)
    fun p m => Free pending m p := by
  induction fuel generalizing tk with
  | zero => exact Spec.fail
  | succ fuel inductionHypothesis =>
      apply Spec.bind readNext_spec
      intro next
      apply Spec.ite
      · intro _
        exact Spec.pure fun m holds => holds.1
      · intro _
        exact inductionHypothesis.of fun m holds => holds.2

theorem appendVariadic_spec {prev first : Ptr} {param : Token} :
    Spec pending (fun m => Free pending m prev ∧ Free pending m first)
      (appendVariadic prev first param) fun _ _ => True := by
  have isLast : Spec pending (fun m => Free pending m prev ∧ Free pending m first) (lastOf prev)
      fun p m => Free pending m p := by
    have rounds : ∀ fuel, Spec pending (fun m => Free pending m prev ∧ Free pending m first)
        (lastToken fuel prev) fun p m => Free pending m p :=
      fun fuel => lastToken_spec.of fun m holds => holds.1
    intro w p w' ran
    exact rounds _ w p w' ran
  apply Spec.bind isLast
  intro last
  apply Spec.bind newToken_spec
  intro comma
  apply Spec.bind (setNext_spec.of fun m holds => ⟨holds.1.2, holds.2⟩)
  intro _
  exact setNext_spec.of fun m holds => ⟨holds.1.2, holds.1.1.1.2⟩

theorem bindArgument_spec {c : Collecting} :
    Spec pending (fun m => c.Free pending m ∧ Free pending m (.cell argHead))
      (bindArgument record argHead macroTk c) fun c' m => c'.Free pending m := by
  apply Spec.bind (readNext_spec.of fun m holds => holds.2)
  intro first
  cases record.paramNames[c.argIdx]? with
  | some param =>
      exact Spec.pure fun m holds =>
        ⟨holds.1.1.tk, holds.1.1.argCur, holds.1.1.args.update holds.2⟩
  | none =>
      apply Spec.ite
      · intro _
        cases record.variadicTk with
        | none => exact Spec.fail
        | some param =>
            cases bound : c.args param.literal with
            | some prev =>
                simp only [bound]
                apply Spec.bind (appendVariadic_spec.of fun m holds =>
                  ⟨holds.1.1.args _ prev bound, holds.2⟩)
                intro _
                exact Spec.pure fun m holds => holds.1.1.1
            | none =>
                simp only [bound]
                exact Spec.pure fun m holds =>
                  ⟨holds.1.1.tk, holds.1.1.argCur, holds.1.1.args.update holds.2⟩
      · intro _
        exact Spec.fail

/-- The variables behind an iteration are free. -/
def Iteration.Free (i : Iteration) (pending : Nat → Prop) (size : Nat) : Prop :=
  match i with
  | .continue_ c => c.Free pending size
  | .break_ c => c.Free pending size

theorem passDelimiter_spec {c : Collecting} : Spec pending (fun m => c.Free pending m)
    (passDelimiter c) fun i m => i.Free pending m := by
  apply Spec.bind peekToken_spec
  intro isComma
  apply Spec.ite
  · intro _
    apply Spec.bind (readNext_spec.of fun m holds => holds.1.tk)
    intro next
    exact Spec.pure fun m holds => ⟨holds.2, holds.1.1.argCur, holds.1.1.args⟩
  · intro _
    apply Spec.bind peekToken_spec
    intro closes
    apply Spec.ite
    · intro _
      apply Spec.bind (readNext_spec.of fun m holds => holds.1.1.tk)
      intro next
      exact Spec.pure fun m holds => ⟨holds.2, holds.1.1.1.argCur, holds.1.1.1.args⟩
    · intro _
      exact Spec.pure fun m holds => holds.1.1

theorem collectToken_spec {c : Collecting} :
    Spec pending (fun m => c.Free pending m ∧ Free pending m (.cell argHead))
      (collectToken record argHead macroTk c) fun i m => i.Free pending m := by
  have inside : Spec pending (fun m => c.Free pending m ∧ Free pending m (.cell argHead))
      (inArgument c) fun _ _ => True := by
    apply Spec.bind peekToken_spec
    intro comma
    apply Spec.bind peekToken_spec
    intro closes
    exact Spec.pure fun _ _ => trivial
  apply Spec.bind inside
  intro isInside
  apply Spec.ite
  · intro _
    apply Spec.bind (accumulate_spec.of fun m holds => holds.1.1)
    intro c'
    exact Spec.pure fun m holds => holds.2
  · intro _
    apply Spec.bind (bindArgument_spec.of fun m holds => holds.1)
    intro c'
    exact passDelimiter_spec.of fun m holds => ⟨holds.2.tk, holds.1.1.2, holds.2.args⟩

theorem collect_spec (returning : Returning pending expand) {c : Collecting} :
    Spec pending
      (fun m => (c.Free pending m ∧ Free pending m (.cell argHead)) ∧ ctx.Free pending m)
      (collect expand ctx hideSet record argHead macroTk c) fun i m => i.Free pending m := by
  apply Spec.bind countBracket_spec
  intro bracketDepth
  apply Spec.bind (enclosingArgument_spec.of fun m holds => ⟨holds.1.1.1.tk, holds.1.2⟩)
  intro argTk
  apply Spec.ite
  · intro _
    exact collectToken_spec.of fun m holds =>
      ⟨⟨holds.1.1.1.1.tk, holds.1.1.1.1.argCur, holds.1.1.1.1.args⟩, holds.1.1.1.2⟩
  · intro _
    apply Spec.bind ((expandArgument_spec returning).of fun m holds =>
      ⟨holds.2, ⟨holds.1.1.1.1.tk, holds.1.1.1.1.argCur, holds.1.1.1.1.args⟩⟩)
    intro c'
    exact Spec.pure fun m holds => holds.2

theorem collectLoop_spec (returning : Returning pending expand) {c : Collecting} :
    Spec pending
      (fun m => (c.Free pending m ∧ Free pending m (.cell argHead)) ∧ ctx.Free pending m)
      (collectLoop expand ctx hideSet record argHead macroTk fuel c)
      fun c' m => c'.Free pending m := by
  induction fuel generalizing c with
  | zero => exact Spec.fail
  | succ fuel inductionHypothesis =>
      have lasting : ∀ i : Iteration, Lasting fun m => i.Free pending m := by
        intro i
        cases i with
        | continue_ c' => exact inferInstanceAs (Lasting fun m => c'.Free pending m)
        | break_ c' => exact inferInstanceAs (Lasting fun m => c'.Free pending m)
      apply Spec.bind (collect_spec returning)
      intro i
      cases i with
      | continue_ c' => exact inductionHypothesis.of fun m holds =>
          ⟨⟨holds.2, holds.1.1.2⟩, holds.1.2⟩
      | break_ c' => exact Spec.pure fun m holds => holds.2

theorem collectArguments_spec (returning : Returning pending expand) :
    Spec pending (fun m => Free pending m tk ∧ ctx.Free pending m)
      (collectArguments expand ctx hideSet record macroTk fuel tk)
      fun result m => Free pending m result.1 ∧ result.2.Free pending m := by
  apply Spec.bind newLocal_spec
  intro argHead
  apply Spec.bind ((collectLoop_spec returning).of fun m holds =>
    ⟨⟨⟨holds.1.1, holds.2, fun name p bound => by cases bound⟩, holds.2⟩, holds.1.2⟩)
  intro c
  apply Spec.ite
  · intro _
    exact Spec.fail
  · intro _
    apply Spec.bind (endLocal_spec.of fun m holds => holds.1.2)
    intro _
    exact Spec.pure fun m holds => ⟨holds.1.2.tk, holds.1.2.args⟩

end Collecting

namespace Internal

section Directives

variable {pending : Nat → Prop} {expand : Expand} {ctx : Context} {fuel : Nat} {tk : Ptr}
  {s : Scan} {lexFile : String → Except Failure (List Token)}

theorem skipComma_spec : Spec pending (fun m => Free pending m tk) (skipComma tk)
    fun p m => Free pending m p := by
  apply Spec.bind ppLexPeekToken_spec
  intro isComma
  apply Spec.ite
  · intro _
    exact ppLexNextToken_spec.of fun m holds => holds.1
  · intro _
    exact Spec.pure fun m holds => holds.1

theorem readParams_spec {record : Macro} : Spec pending (fun m => Free pending m tk)
    (readParams fuel tk record) fun result m => Free pending m result.1 := by
  induction fuel generalizing tk record with
  | zero => exact Spec.fail
  | succ fuel inductionHypothesis =>
      apply Spec.bind ppLexPeekToken_spec
      intro isIdentifier
      apply Spec.ite
      · intro _
        apply Spec.bind (ppLexNextToken_spec.of fun m holds => holds.1)
        intro name
        apply Spec.bind readToken_spec
        intro token
        apply Spec.bind Run.lift_spec
        intro added
        apply Spec.bind (skipComma_spec.of fun m holds => holds.1.1.2)
        intro behind
        exact inductionHypothesis.of fun m holds => holds.2
      · intro _
        exact Spec.pure fun m holds => holds.1

theorem readElipsis_spec {record : Macro} : Spec pending (fun m => Free pending m tk)
    (readElipsis tk record) fun result m => Free pending m result.1 := by
  apply Spec.bind ppLexPeekToken_spec
  intro isElipsis
  apply Spec.ite
  · intro _
    apply Spec.bind (ppLexNextToken_spec.of fun m holds => holds.1)
    intro elipsis
    apply Spec.bind readToken_spec
    intro token
    exact Spec.pure fun m holds => holds.1.2
  · intro _
    exact Spec.pure fun m holds => holds.1

theorem readParameterList_spec {record : Macro} : Spec pending (fun m => Free pending m tk)
    (readParameterList tk record) fun result m => Free pending m result.1 := by
  apply Spec.bind ppLexPeekToken_spec
  intro isBracket
  apply Spec.ite
  · intro _
    apply Spec.bind (ppLexNextToken_spec.of fun m holds => holds.1)
    intro opening
    apply Spec.bind (walk_spec fun fuel => readParams_spec.of fun m holds => holds.2)
    rintro ⟨names, record'⟩
    apply Spec.bind (readElipsis_spec.of fun m holds => holds.2)
    rintro ⟨elipsis, record''⟩
    apply Spec.bind (ppLexExpectToken_spec.of fun m holds => holds.2)
    intro closing
    exact Spec.pure fun m holds => holds.2
  · intro _
    exact Spec.pure fun m holds => holds.1

theorem continueLine_spec : Spec pending (fun m => Free pending m tk) (continueLine tk)
    fun p m => Free pending m p := by
  apply Spec.bind ppLexExpectToken_spec
  intro backslash
  apply Spec.bind (ppLexPeekToken_spec.of fun m holds => holds.2)
  intro isNewline
  apply Spec.ite
  · intro _
    apply Spec.bind (ppLexExpectToken_spec.of fun m holds => holds.1.2)
    intro newline
    exact ppLexNextToken_spec.of fun m holds => holds.2
  · intro _
    exact errorAt_spec

/-- The ends of a replacement list are free. -/
structure Replacement.Free (r : Replacement) (pending : Nat → Prop) (size : Nat) : Prop where
  head : Preprocessor.Free pending size r.head
  tail : Preprocessor.Free pending size r.tail

instance {r : Replacement} : Lasting fun m => r.Free pending m :=
  ⟨fun le free => ⟨free.head.mono le, free.tail.mono le⟩⟩

theorem append_spec {r : Replacement} {token : Token} : Spec pending (fun m => r.Free pending m)
    (r.append token) fun r' m => r'.Free pending m := by
  apply Spec.bind newToken_spec
  intro copy
  apply Spec.ite
  · intro _
    exact Spec.pure fun m holds => ⟨holds.2, holds.2⟩
  · intro _
    apply Spec.bind (setNext_spec.of fun m holds => ⟨holds.1.tail, holds.2⟩)
    intro _
    exact Spec.pure fun m holds => ⟨holds.1.1.head, holds.1.2⟩

theorem readReplacement_spec {r : Replacement} :
    Spec pending (fun m => Free pending m tk ∧ r.Free pending m) (readReplacement fuel tk r)
      fun result m => Free pending m result.1 ∧ result.2.Free pending m := by
  induction fuel generalizing tk r with
  | zero => exact Spec.fail
  | succ fuel inductionHypothesis =>
      apply Spec.bind (ppLexPeekToken_spec.of fun m holds => holds.1)
      intro isNewline
      apply Spec.ite
      · intro _
        exact Spec.pure fun m holds => holds.1
      · intro _
        apply Spec.bind (ppLexPeekToken_spec.of fun m holds => holds.1.1)
        intro isBackslash
        apply Spec.ite
        · intro _
          apply Spec.bind (continueLine_spec.of fun m holds => holds.1.1.1)
          intro behind
          exact inductionHypothesis.of fun m holds => ⟨holds.2, holds.1.1.1.2⟩
        · intro _
          apply Spec.bind (ppLexNextToken_spec.of fun m holds => holds.1.1.1)
          intro next
          apply Spec.bind readToken_spec
          intro token
          apply Spec.bind (append_spec.of fun m holds => holds.1.1.1.1.2)
          intro r'
          exact inductionHypothesis.of fun m holds => ⟨holds.1.1.2, holds.2⟩

theorem tokenToString_spec {pre : Nat → Prop} [Lasting pre]
    (free : ∀ m, pre m → Free pending m tk) :
    Spec pending pre (tokenToString tk) fun _ _ => True := by
  apply Spec.bind readToken_spec
  intro token
  have isEof : Spec pending (fun m => pre m ∧ True) (do
      let next ← readNext tk
      if next = .null then pure none
      else Run.fail (.errorAt ("Internal error, token_to_string does not expect eof token in " ++
        "the middle of token stream") token.location) : Run (Option String)) fun _ _ => True := by
    apply Spec.bind (readNext_spec.of fun m holds => free m holds.1)
    intro next
    apply Spec.ite
    · intro _
      exact Spec.pure fun _ _ => trivial
    · intro _
      exact Spec.fail
  cases token.kind <;> first
    | exact isEof
    | exact Spec.fail
    | exact Spec.pure fun _ _ => trivial

theorem skipBracketed_spec {sz : Nat} : Spec pending (fun m => Free pending m tk)
    (skipBracketed fuel tk sz) fun p m => Free pending m p := by
  induction fuel generalizing tk sz with
  | zero => exact Spec.fail
  | succ fuel inductionHypothesis =>
      apply Spec.bind ppLexPeekToken_spec
      intro isGt
      apply Spec.ite
      · intro _
        exact Spec.pure fun m holds => holds.1
      · intro _
        apply Spec.bind (ppLexNextToken_spec.of fun m holds => holds.1)
        intro next
        apply Spec.bind (tokenToString_spec fun m holds => holds.2)
        intro literal
        cases literal with
        | none => exact Spec.fail
        | some literal =>
            apply Spec.ite
            · intro _
              exact inductionHypothesis.of fun m holds => holds.1.2
            · intro _
              exact Spec.fail

theorem appendTokens_spec {tokens : List Token} {cur : Ptr} :
    Spec pending (fun m => Free pending m cur) (appendTokens cur tokens)
      fun p m => Free pending m p := by
  induction tokens generalizing cur with
  | nil => exact Spec.pure fun m free => free
  | cons token rest inductionHypothesis =>
      apply Spec.bind newToken_spec
      intro new
      apply Spec.bind setNext_spec
      intro _
      exact inductionHypothesis.of fun m holds => holds.1.2

theorem genFileTokenStream_spec {filename : String} {pre : Nat → Prop} [Lasting pre] :
    Spec pending pre (genFileTokenStream lexFile filename) fun p m => Free pending m p := by
  apply Spec.bind getTokenCache_spec
  intro cached
  cases cached with
  | some head => exact Spec.pure fun m holds => holds.2 head rfl
  | none =>
      apply Spec.bind Run.lift_spec
      intro tokens
      apply Spec.bind newLocal_spec
      intro head
      apply Spec.bind (appendTokens_spec.of fun m holds => holds.2)
      intro cur
      apply Spec.bind (readNext_spec.of fun m holds => holds.1.2)
      intro first
      apply Spec.bind readToken_spec
      intro last
      apply Spec.bind (endLocal_spec.of fun m holds => holds.1.1.1.2)
      intro _
      apply Spec.ite
      · intro _
        apply Spec.bind (setTokenCache_spec.of fun m holds => holds.1.1.2)
        intro _
        exact Spec.pure fun m holds => holds.1.1.1.2
      · intro _
        exact Spec.fail

end Directives

end Internal

namespace Internal

section Directives

variable {pending : Nat → Prop} {expand : Expand} {ctx : Context} {fuel : Nat} {tk : Ptr}
  {s : Scan} {lexFile : String → Except Failure (List Token)}

/-- Nothing has been appended, and the walk goes on at a free token. -/
def Silent (s : Scan) (pending : Nat → Prop) (s' : Scan) (size : Nat) : Prop :=
  Free pending size s'.tk ∧ s'.cur = s.cur

theorem ignoreInclude_spec : Spec pending (fun m => Free pending m s.tk) (ignoreInclude s)
    (Silent s pending) := by
  apply Spec.bind ppLexExpectToken_spec
  intro opening
  apply Spec.bind (walk_spec fun fuel => skipBracketed_spec.of fun m holds => holds.2)
  intro last
  apply Spec.bind (ppLexNextToken_spec.of fun m holds => holds.2)
  intro closing
  apply Spec.bind (ppLexExpectToken_spec.of fun m holds => holds.2)
  intro newline
  apply Spec.bind (ppLexNextToken_spec.of fun m holds => holds.2)
  intro next
  exact Spec.pure fun m holds => ⟨holds.2, rfl⟩

theorem cppdDefine_spec : Spec pending (fun m => Free pending m s.tk) (cppdDefine s)
    (Silent s pending) := by
  apply Spec.bind ppLexExpectToken_spec
  intro identifier
  apply Spec.bind readToken_spec
  intro name
  apply Spec.bind getMacro_spec
  intro old
  apply Spec.bind (readParameterList_spec.of fun m holds => holds.1.1.2)
  rintro ⟨parameters, record⟩
  apply Spec.bind (ppLexSkipSpace_spec.of fun m holds => holds.2)
  intro start
  apply Spec.bind (walk_spec fun fuel => readReplacement_spec.of fun m holds =>
    ⟨holds.2, ⟨free_null, free_null⟩⟩)
  rintro ⟨last, r⟩
  apply Spec.bind (ppLexExpectToken_spec.of fun m holds => holds.2.1)
  intro newline
  apply Spec.bind (ppLexNextToken_spec.of fun m holds => holds.2)
  intro next
  apply Spec.bind (setReplacement_spec.of fun m holds => holds.1.1.2.2.head)
  intro _
  apply Spec.bind setMacros_spec
  intro _
  exact Spec.pure fun m holds => ⟨holds.1.1.2, rfl⟩

theorem cppdUndef_spec : Spec pending (fun m => Free pending m s.tk) (cppdUndef_ s)
    (Silent s pending) := by
  apply Spec.bind ppLexExpectToken_spec
  intro identifier
  apply Spec.bind readToken_spec
  intro name
  apply Spec.bind setMacros_spec
  intro _
  apply Spec.bind (ppLexExpectToken_spec.of fun m holds => holds.1.1.2)
  intro newline
  exact Spec.pure fun m holds => ⟨holds.2, rfl⟩

theorem cppdIf_spec (returning : Returning pending expand) :
    Spec pending (fun m => Free pending m s.tk) (cppdIf expand fuel s) (Silent s pending) := by
  apply Spec.bind (ppReadConstantExpr_spec returning)
  rintro ⟨behind, value⟩
  apply Spec.ite
  · intro _
    exact Spec.pure fun m holds => ⟨holds.2, rfl⟩
  · intro _
    apply Spec.bind (ppSkipCondIncl_spec.of fun m holds => holds.2)
    intro skipped
    exact Spec.pure fun m holds => ⟨holds.2, rfl⟩

theorem conditional_spec {wanted : Bool} : Spec pending (fun m => Free pending m s.tk)
    (conditional s wanted) (Silent s pending) := by
  apply Spec.bind ppLexExpectToken_spec
  intro identifier
  apply Spec.bind readToken_spec
  intro name
  apply Spec.bind isMacroDefined_spec
  intro isDefined
  apply Spec.ite
  · intro _
    apply Spec.bind (ppLexExpectToken_spec.of fun m holds => holds.1.1.2)
    intro newline
    exact Spec.pure fun m holds => ⟨holds.2, rfl⟩
  · intro _
    apply Spec.bind (ppSkipCondIncl_spec.of fun m holds => holds.1.1.2)
    intro skipped
    exact Spec.pure fun m holds => ⟨holds.2, rfl⟩

theorem cppdElif_spec (returning : Returning pending expand) :
    Spec pending (fun m => Free pending m s.tk) (cppdElif expand fuel s) (Silent s pending) := by
  rw [cppdElif]
  cases s.ci with
  | nil => exact errorAt_spec
  | cons ci outer =>
      apply Spec.ite
      · intro _
        exact errorAt_spec
      · intro _
        apply Spec.bind (ppReadConstantExpr_spec returning)
        rintro ⟨behind, value⟩
        apply Spec.ite
        · intro _
          exact Spec.pure fun m holds => ⟨holds.2, rfl⟩
        · intro _
          apply Spec.bind (ppSkipCondIncl_spec.of fun m holds => holds.2)
          intro skipped
          exact Spec.pure fun m holds => ⟨holds.2, rfl⟩

theorem cppdElse_spec : Spec pending (fun m => Free pending m s.tk) (cppdElse s)
    (Silent s pending) := by
  rw [cppdElse]
  cases s.ci with
  | nil => exact errorAt_spec
  | cons ci outer =>
      apply Spec.ite
      · intro _
        exact errorAt_spec
      · intro _
        apply Spec.bind ppLexExpectToken_spec
        intro newline
        apply Spec.ite
        · intro _
          apply Spec.bind (ppSkipCondIncl_spec.of fun m holds => holds.2)
          intro skipped
          exact Spec.pure fun m holds => ⟨holds.2, rfl⟩
        · intro _
          exact Spec.pure fun m holds => ⟨holds.2, rfl⟩

theorem cppdEndif_spec : Spec pending (fun m => Free pending m s.tk) (cppdEndif s)
    (Silent s pending) := by
  rw [cppdEndif]
  cases s.ci with
  | nil => exact errorAt_spec
  | cons ci outer =>
      apply Spec.bind ppLexExpectToken_spec
      intro newline
      exact Spec.pure fun m holds => ⟨holds.2, rfl⟩

theorem pragmaOnce_spec : Spec pending (fun m => Free pending m tk) (pragmaOnce tk)
    fun p m => Free pending m p := by
  apply Spec.bind ppLexPeekToken_spec
  intro isIdentifier
  apply Spec.ite
  · intro _
    apply Spec.bind (ppLexNextToken_spec.of fun m holds => holds.1)
    intro next
    apply Spec.bind readToken_spec
    intro name
    apply Spec.ite
    · intro _
      apply Spec.bind setPragmaOnce_spec
      intro _
      exact Spec.pure fun m holds => holds.1.1.2
    · intro _
      exact Spec.pure fun m holds => holds.1.2
  · intro _
    exact Spec.pure fun m holds => holds.1

theorem skipLine_spec : Spec pending (fun m => Free pending m tk) (skipLine fuel tk)
    fun p m => Free pending m p := by
  induction fuel generalizing tk with
  | zero => exact Spec.fail
  | succ fuel inductionHypothesis =>
      apply Spec.bind ppLexPeekToken_spec
      intro isNewline
      apply Spec.ite
      · intro _
        exact Spec.pure fun m holds => holds.1
      · intro _
        apply Spec.bind (ppLexNextToken_spec.of fun m holds => holds.1)
        intro next
        exact inductionHypothesis.of fun m holds => holds.2

theorem cppdPragma_spec : Spec pending (fun m => Free pending m s.tk) (cppdPragma s)
    (Silent s pending) := by
  apply Spec.bind pragmaOnce_spec
  intro behind
  apply Spec.bind (walk_spec fun fuel => skipLine_spec.of fun m holds => holds.2)
  intro last
  apply Spec.bind (ppLexExpectToken_spec.of fun m holds => holds.2)
  intro newline
  exact Spec.pure fun m holds => ⟨holds.2, rfl⟩

theorem cppdError_spec : Spec pending (fun m => Free pending m s.tk) (cppdError s)
    (Silent s pending) := by
  apply Spec.bind ppLexPeekToken_spec
  intro isString
  apply Spec.ite
  · intro _
    apply Spec.bind (ppLexNextToken_spec.of fun m holds => holds.1)
    intro next
    apply Spec.bind readToken_spec
    intro message
    exact Spec.fail
  · intro _
    exact errorAt_spec

end Directives

end Internal

end Shecc.Preprocessor
