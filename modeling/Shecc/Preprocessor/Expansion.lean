import Shecc.Preprocessor.Safety
import Shecc.Preprocessor.Binding

/-!
# The list a call returns

A call links copies behind its variable `head`, and the lists the calls it makes have
returned. Every round of its loop leaves its list linked from `head` to the last cell,
with nothing else linked into it, so the list it returns is well formed unless nothing
was linked at all.
-/

namespace Shecc.Preprocessor

open LinkedList Trace

/-! ## Pending lists -/

/-- The pending cells with those of one list more. -/
def With (pending : Nat → Prop) (cells : List (Nat × Token)) (address : Nat) : Prop :=
  pending address ∨ ∃ entry ∈ cells, entry.1 = address

/-- A call has returned a list of new cells that nothing links into. -/
structure Delivered (pending : Nat → Prop) (size : Nat) (result : Ptr × Ptr) (w : World)
    (cells : List (Nat × Token)) (last : Nat × Token) : Prop where
  linked : Linked w.heap result.1 (cells ++ [last]) .null
  endOfToken : result.2 = .cell last.1
  new : ∀ entry ∈ cells ++ [last], size ≤ entry.1
  safe : Safe (With pending (cells ++ [last])) w

/-- The calls a function makes deliver lists. -/
def Expands (expand : Expand) : Prop :=
  ∀ pending tk ctx, Traced World.returned Return.Links Return.WellFormed (expand tk ctx)
    (fun w => (Free pending w.heap.size tk ∧ ctx.Free pending w.heap.size) ∧ Safe pending w)
    fun w result w' => Kept pending w.heap w'.heap ∧ w.heap.size ≤ w'.heap.size ∧
      ∃ cells last, Delivered pending w.heap.size result w' cells last

section Pending

variable {pending : Nat → Prop} {cells : List (Nat × Token)} {last : Nat × Token} {w : World}
  {n m : Nat} {p : Ptr}

theorem Free.of_with (free : Free (With pending cells) n p) : Free pending n p := by
  intro address isCell
  rcases free address isCell with ⟨inside, notPending⟩
  exact ⟨inside, fun isPending => notPending (Or.inl isPending)⟩

/-- Older cells are in no list of new ones. -/
theorem Free.with_new (free : Free pending n p) (le : n ≤ m)
    (new : ∀ entry ∈ cells, n ≤ entry.1) : Free (With pending cells) m p := by
  intro address isCell
  rcases free address isCell with ⟨inside, notPending⟩
  refine ⟨Nat.lt_of_lt_of_le inside le, ?_⟩
  rintro (isPending | ⟨entry, member, same⟩)
  · exact notPending isPending
  · exact absurd inside (Nat.not_lt_of_le (same ▸ new entry member))

theorem Context.Free.with_new {ctx : Context} (free : ctx.Free pending n) (le : n ≤ m)
    (new : ∀ entry ∈ cells, n ≤ entry.1) : ctx.Free (With pending cells) m :=
  ⟨free.expandedFrom.with_new le new, fun name => (free.macroArgs name).with_new le new⟩

theorem Kept.of_with {h h' : Heap Token} (kept : Kept (With pending cells) h h') :
    Kept pending h h' :=
  fun address isPending => kept address (Or.inl isPending)

/-- The next cell of a list that ends is null or in the list. -/
theorem linked_next_free {h : Heap Token} {address : Nat} {token : Token} {q : Ptr}
    (linked : Linked h p cells .null) (member : ∃ entry ∈ cells, entry.1 = address)
    (found : h.cells address = .live token q) : q = .null ∨ ∃ entry ∈ cells, q = .cell entry.1 := by
  rcases member with ⟨entry, member, rfl⟩
  rcases List.append_of_mem member with ⟨earlier, later, rfl⟩
  rcases linked_append.mp linked with ⟨here, -, isHere, next, isLive, behind⟩
  rw [isLive] at found
  cases found
  cases later with
  | nil => exact Or.inl behind
  | cons other others =>
      rcases other with ⟨after, value⟩
      refine Or.inr ⟨(after, value), ?_, behind.1⟩
      simp

/-- A delivered list is an ordinary list to a caller that does not append it. -/
theorem Delivered.release {result : Ptr × Ptr} (delivered : Delivered pending n result w cells last)
    (older : ∀ address, pending address → address < n) :
    Safe pending w ∧ Free pending w.heap.size result.1 ∧ Free pending w.heap.size result.2 := by
  have safe := delivered.safe
  have isFree : ∀ entry ∈ cells ++ [last], Free pending w.heap.size (.cell entry.1) := by
    rintro entry member address ⟨⟩
    refine ⟨safe.inside entry.1 (Or.inr ⟨entry, member, rfl⟩), fun isPending => ?_⟩
    exact absurd (older _ isPending) (Nat.not_lt_of_le (delivered.new entry member))
  refine ⟨⟨safe.bounded, fun address isPending => safe.inside address (Or.inl isPending), ?_,
    fun name => (safe.replacement name).of_with,
    fun name p cached => (safe.tokenCache name p cached).of_with⟩, ?_, ?_⟩
  · intro address token q notPending found
    by_cases member : ∃ entry ∈ cells ++ [last], entry.1 = address
    · rcases linked_next_free delivered.linked member found with rfl | ⟨entry, inList, rfl⟩
      · exact free_null
      · exact isFree entry inList
    · exact (safe.next address token q (fun isPending => isPending.elim notPending member)
        found).of_with
  · have linked := delivered.linked
    cases cells with
    | nil =>
        rw [linked.1]
        exact isFree last List.mem_cons_self
    | cons entry rest =>
        rw [linked.1]
        exact isFree entry List.mem_cons_self
  · rw [delivered.endOfToken]
    exact isFree last (List.mem_append_right _ List.mem_cons_self)

theorem Expands.returning {expand : Expand} (expands : Expands expand) :
    Returning pending expand := by
  intro tk ctx
  apply Traced.weaken (expands pending tk ctx)
  · exact fun w holds => holds
  · rintro w result w' ⟨-, safe⟩ ⟨kept, grows, cells, last, delivered⟩
    rcases delivered.release safe.inside with ⟨safe', free, free'⟩
    exact ⟨safe', kept, grows, free, free'⟩

end Pending

/-! ## The list of a call -/

/-- Between two rounds: the list is linked from `head` to `cur`, of cells that are not
older than the call, and the walk goes on outside of it. -/
structure Output (pending : Nat → Prop) (head : Nat) (s : Scan) (w : World)
    (cells : List (Nat × Token)) (last : Nat × Token) : Prop where
  safe : Safe (With pending (cells ++ [last])) w
  linked : Linked w.heap (.cell head) (cells ++ [last]) (if cells = [] then .wild else .null)
  cur : s.cur = .cell last.1
  distinct : ∀ entry ∈ cells, entry.1 ≠ last.1
  new : ∀ entry ∈ cells ++ [last], head ≤ entry.1
  older : ∀ address, pending address → address < head
  tk : Free (With pending (cells ++ [last])) w.heap.size s.tk

section Output

variable {pending : Nat → Prop} {head : Nat} {s : Scan} {w w' : World}
  {cells : List (Nat × Token)} {last : Nat × Token}

/-- A computation that leaves the list alone. -/
theorem Output.keep {s' : Scan} (output : Output pending head s w cells last)
    (safe : Safe (With pending (cells ++ [last])) w')
    (kept : Kept (With pending (cells ++ [last])) w.heap w'.heap) (sameCur : s'.cur = s.cur)
    (free : Free (With pending (cells ++ [last])) w'.heap.size s'.tk) :
    Output pending head s' w' cells last := by
  refine ⟨safe, ?_, sameCur.trans output.cur, output.distinct, output.new, output.older, free⟩
  apply output.linked.frame
  intro entry member
  exact kept entry.1 (Or.inr ⟨entry, member, rfl⟩)

/-- Two lists are pending one behind the other. -/
theorem with_append {first second : List (Nat × Token)} :
    With pending (first ++ second) = With (With pending first) second := by
  funext address
  apply propext
  constructor
  · rintro (isPending | ⟨entry, member, same⟩)
    · exact Or.inl (Or.inl isPending)
    · rcases List.mem_append.mp member with inFirst | inSecond
      · exact Or.inl (Or.inr ⟨entry, inFirst, same⟩)
      · exact Or.inr ⟨entry, inSecond, same⟩
  · rintro ((isPending | ⟨entry, member, same⟩) | ⟨entry, member, same⟩)
    · exact Or.inl isPending
    · exact Or.inr ⟨entry, List.mem_append_left _ member, same⟩
    · exact Or.inr ⟨entry, List.mem_append_right _ member, same⟩

/-- A change of the link of a pending cell. -/
theorem Safe.put_pending (safe : Safe pending w) {address : Nat} (isPending : pending address)
    (cell : Cell Token) : Safe pending (w.withHeap (w.heap.put address cell)) := by
  refine ⟨safe.bounded.put cell (safe.inside address isPending), safe.inside, ?_,
    safe.replacement, safe.tokenCache⟩
  intro other token q notPending found
  have different : other ≠ address := by
    rintro rfl
    exact notPending isPending
  rw [World.withHeap_heap, Heap.cells_put_of_ne _ different] at found
  exact safe.next other token q notPending found

/-- A delivered list appended. -/
theorem Output.link {n : Nat} {result : Ptr × Ptr} {chain : List (Nat × Token)}
    {end_ : Nat × Token} (output : Output pending head s w cells last)
    (delivered : Delivered (With pending (cells ++ [last])) n result w chain end_)
    (older : ∀ entry ∈ cells ++ [last], entry.1 < n) (le : n ≤ w.heap.size)
    (tk : Free (With pending (cells ++ [last])) n s.tk) {nothing : Unit}
    (set : setNext s.cur result.1 w = .ok (nothing, w')) :
    Output pending head { s with cur := result.2 } w' (cells ++ [last] ++ chain) end_ ∧
      Kept pending w.heap w'.heap ∧ w.heap.size = w'.heap.size ∧ w'.returned = w.returned := by
  rcases setNext_eq_ok set with ⟨address, token, old, isCell, found, rfl⟩
  have isLast : address = last.1 := by
    have same := output.cur
    rw [isCell] at same
    exact Ptr.cell.inj same
  subst isLast
  have lastMem : last ∈ cells ++ [last] := List.mem_append_right _ List.mem_cons_self
  have notOlder : ¬ pending last.1 := fun isPending =>
    absurd (output.older _ isPending) (Nat.not_lt_of_le (output.new last lastMem))
  have headLe : head ≤ n :=
    Nat.le_of_lt (Nat.lt_of_le_of_lt (output.new last lastMem) (older last lastMem))
  have chainOther : ∀ entry ∈ chain ++ [end_], entry.1 ≠ last.1 := fun entry member =>
    Nat.ne_of_gt (Nat.lt_of_lt_of_le (older last lastMem) (delivered.new entry member))
  have assoc : cells ++ [last] ++ chain ++ [end_] = cells ++ [last] ++ (chain ++ [end_]) :=
    List.append_assoc _ _ _
  refine ⟨⟨?_, ?_, delivered.endOfToken, ?_, ?_, output.older, ?_⟩, kept_put notOlder _, rfl, rfl⟩
  · rw [assoc, with_append]
    exact delivered.safe.put_pending (Or.inl (Or.inr ⟨last, lastMem, rfl⟩)) _
  · rw [assoc, if_neg (by simp)]
    apply linked_append.mpr
    refine ⟨result.1, ?_, ?_⟩
    · exact output.linked.relink output.distinct (Heap.setNext_of_live found)
    · apply delivered.linked.frame
      intro entry member
      exact Heap.cells_put_of_ne _ (chainOther entry member)
  · intro entry member
    rcases List.mem_append.mp member with inList | inChain
    · exact Nat.ne_of_lt (Nat.lt_of_lt_of_le (older entry inList)
        (delivered.new end_ (List.mem_append_right _ List.mem_cons_self)))
    · exact last_fresh delivered.linked entry inChain
  · intro entry member
    rw [assoc] at member
    rcases List.mem_append.mp member with inList | inChain
    · exact output.new entry inList
    · exact Nat.le_trans headLe (delivered.new entry inChain)
  · rw [assoc, with_append]
    exact tk.with_new le delivered.new

end Output

/-! ## One round -/

section Emits

variable {pending : Nat → Prop} {head : Nat} {s : Scan} {cells : List (Nat × Token)}
  {last : Nat × Token}

/-- A delivered list linked behind `cur`. -/
theorem Output.append {w w₁ w₂ : World} {result : Ptr × Ptr} {chain : List (Nat × Token)}
    {end_ : Nat × Token} (output : Output pending head s w cells last)
    (kept : Kept (With pending (cells ++ [last])) w.heap w₁.heap)
    (grows : w.heap.size ≤ w₁.heap.size)
    (delivered : Delivered (With pending (cells ++ [last])) w.heap.size result w₁ chain end_)
    {nothing : Unit} (set : setNext s.cur result.1 w₁ = .ok (nothing, w₂)) :
    Output pending head { s with cur := result.2 } w₂ (cells ++ [last] ++ chain) end_ ∧
      Kept pending w.heap w₂.heap ∧ w.heap.size ≤ w₂.heap.size ∧ w₂.returned = w₁.returned := by
  have older : ∀ entry ∈ cells ++ [last], entry.1 < w.heap.size :=
    fun entry member => output.safe.inside _ (Or.inr ⟨entry, member, rfl⟩)
  have safe := (delivered.release output.safe.inside).1
  have output' : Output pending head s w₁ cells last :=
    output.keep safe kept rfl (output.tk.mono grows)
  rcases output'.link delivered older grows output.tk set with ⟨output'', kept', same, logged⟩
  refine ⟨output'', ?_, Nat.le_trans grows (Nat.le_of_eq same), logged⟩
  intro address isPending
  rw [kept' address isPending, kept.of_with address isPending]

/-- The walk passes a token. -/
theorem Output.advance {w w' : World} {q : Ptr} (output : Output pending head s w cells last)
    (ran : readNext s.tk w = .ok (q, w')) :
    w' = w ∧ Output pending head { s with tk := q } w cells last := by
  rcases readNext_eq_ok ran with ⟨rfl, address, token, isCell, found⟩
  refine ⟨rfl, output.keep output.safe (fun _ _ => rfl) rfl ?_⟩
  exact output.safe.next address token q (output.tk address isCell).2 found

/-- A new token is a delivered list. -/
theorem Safe.delivered {w : World} (safe : Safe pending w) (token : Token) :
    Delivered pending w.heap.size (.cell w.heap.size, .cell w.heap.size)
      (w.withHeap (w.heap.alloc token .null)) [] (w.heap.size, token) := by
  have safe' := safe.alloc token free_null
  have isNew : ∀ address, With pending ([] ++ [(w.heap.size, token)]) address ↔
      pending address ∨ address = w.heap.size := by
    intro address
    simp [With, eq_comm]
  have free : ∀ {p : Ptr}, Free pending w.heap.size p →
      Free (With pending ([] ++ [(w.heap.size, token)])) (w.heap.size + 1) p := by
    intro p free
    apply free.with_new (Nat.le_succ _)
    intro entry member
    cases List.mem_singleton.mp member
    exact Nat.le_refl _
  refine ⟨linked_singleton.mpr ⟨rfl, Heap.cells_alloc_self _ _⟩, rfl, ?_, safe'.bounded, ?_, ?_,
    fun name => free (safe.replacement name),
    fun name p cached => free (safe.tokenCache name p cached)⟩
  · intro entry member
    cases List.mem_singleton.mp member
    exact Nat.le_refl _
  · intro address isPending
    rcases (isNew address).mp isPending with older | rfl
    · exact safe'.inside address older
    · exact Nat.lt_succ_self _
  · intro address other q notPending found
    have notNew : address ≠ w.heap.size := fun same => notPending
      ((isNew address).mpr (Or.inr same))
    rw [World.withHeap_heap, Heap.cells_alloc_of_ne _ _ notNew] at found
    apply free
    exact safe.next address other q (fun older => notPending ((isNew address).mpr (Or.inl older)))
      found

/-- The list of a call that is running. -/
def Running (pending : Nat → Prop) (head : Nat) (s : Scan) (w : World) : Prop :=
  ∃ cells last, Output pending head s w cells last

/-- What a round does with the list. -/
def Emits (pending : Nat → Prop) (head : Nat) (s : Scan) (cells : List (Nat × Token))
    (last : Nat × Token) (pre : Nat → Prop) (step : Run Scan) : Prop :=
  Traced World.returned Return.Links Return.WellFormed step
    (fun w => pre w.heap.size ∧ Output pending head s w cells last)
    fun w s' w' => Running pending head s' w' ∧ Kept pending w.heap w'.heap ∧
      w.heap.size ≤ w'.heap.size

variable {pre pre' : Nat → Prop}

theorem Emits.of {step : Run Scan} (emits : Emits pending head s cells last pre step)
    (assumed : ∀ m, pre' m → pre m) : Emits pending head s cells last pre' step := by
  apply Traced.weaken emits
  · rintro w ⟨isPre, output⟩
    exact ⟨assumed _ isPre, output⟩
  · exact fun _ _ _ _ holds => holds

theorem Emits.bind {α : Type} [Lasting pre] {step : Run α} {rest : α → Run Scan}
    {mid : α → Nat → Prop} (first : Spec (With pending (cells ++ [last])) pre step mid)
    (second : ∀ value,
      Emits pending head s cells last (fun m => pre m ∧ mid value m) (rest value)) :
    Emits pending head s cells last pre (step >>= rest) := by
  have traced := Traced.weaken first
    (fun w (holds : pre w.heap.size ∧ Output pending head s w cells last) =>
      ⟨holds.1, holds.2.safe⟩) fun _ _ _ _ holds => holds
  apply Traced.bind traced
  intro w value
  apply Traced.weaken (second value)
  · rintro w₁ ⟨⟨isPre, output⟩, safe, kept, grows, isMid⟩
    exact ⟨⟨Lasting.mono grows isPre, isMid⟩, output.keep safe kept rfl (output.tk.mono grows)⟩
  · rintro w₁ s' w₂ ⟨-, -, kept, grows, -⟩ ⟨running, kept', grows'⟩
    refine ⟨running, ?_, Nat.le_trans grows grows'⟩
    intro address isPending
    rw [kept' address isPending, kept.of_with address isPending]

theorem Emits.ite {condition : Prop} [Decidable condition] {first second : Run Scan}
    (isTrue : condition → Emits pending head s cells last pre first)
    (isFalse : ¬ condition → Emits pending head s cells last pre second) :
    Emits pending head s cells last pre (if condition then first else second) :=
  Traced.ite isTrue isFalse

/-- A directive that appends nothing. -/
theorem Emits.silent {step : Run Scan} (spec : Spec (With pending (cells ++ [last])) pre step
    (Internal.Silent s (With pending (cells ++ [last])))) :
    Emits pending head s cells last pre step := by
  apply Traced.weaken spec
  · exact fun w holds => ⟨holds.1, holds.2.safe⟩
  · rintro w s' w' ⟨-, output⟩ ⟨safe, kept, grows, free, sameCur⟩
    exact ⟨⟨cells, last, output.keep safe kept sameCur free⟩, kept.of_with, grows⟩

/-- The walk goes on elsewhere. -/
theorem Emits.at_ {step : Run Scan} {tk : Ptr}
    (emits : Emits pending head { s with tk := tk } cells last pre step)
    (free : ∀ m, pre m → Free (With pending (cells ++ [last])) m tk) :
    Emits pending head s cells last pre step := by
  apply Traced.weaken emits
  · rintro w ⟨isPre, output⟩
    exact ⟨isPre, output.keep output.safe (fun _ _ => rfl) rfl (free _ isPre)⟩
  · exact fun _ _ _ _ holds => holds

end Emits

namespace Internal

section Rounds

variable {pending : Nat → Prop} {head : Nat} {s : Scan} {cells : List (Nat × Token)}
  {last : Nat × Token} {pre : Nat → Prop} {expand : Expand} {ctx : Context} {fuel : Nat}
  {token : Token} {lexFile : String → Except Failure (List Token)}

/-- A new token linked behind `cur`, and the walk passes one. -/
theorem emit_emits {new : Token} : Emits pending head s cells last pre (do
    let made ← newToken new
    setNext s.cur made
    let tk ← readNext s.tk
    pure { s with tk := tk, cur := made }) := by
  apply Traced.silent
  intro w s' w' ran
  rcases Run.bind_eq_ok_iff.mp ran with ⟨made, w₁, isMade, ran₁⟩
  cases isMade
  rcases Run.bind_eq_ok_iff.mp ran₁ with ⟨nothing, w₂, isSet, ran₂⟩
  rcases Run.bind_eq_ok_iff.mp ran₂ with ⟨tk, w₃, isNext, ran₃⟩
  cases ran₃
  constructor
  · rcases readNext_eq_ok isNext with ⟨rfl, -⟩
    rcases setNext_eq_ok isSet with ⟨-, -, -, -, -, rfl⟩
    rfl
  · rintro ⟨-, output⟩
    rcases output.append (output.safe.kept_alloc new .null) (Nat.le_succ _)
      (output.safe.delivered new) isSet with ⟨output', kept, grows, -⟩
    rcases output'.advance isNext with ⟨rfl, output''⟩
    exact ⟨⟨_, _, output''⟩, kept, grows⟩

theorem copyThrough_emits : Emits pending head s cells last pre (copyThrough s token) :=
  emit_emits

theorem handle_emits [Lasting pre] {handler : Handler} {expandedFrom : Ptr} :
    Emits pending head s cells last pre (handle s handler expandedFrom) := by
  apply Emits.bind readToken_spec
  intro origin
  exact emit_emits

/-- The list of a call linked behind `cur`, before the rest of the round. -/
theorem splice_traced (expands : Expands expand) {list : Ptr} {expansionCtx : Context}
    (free : ∀ m, pre m → Free (With pending (cells ++ [last])) m list ∧
      expansionCtx.Free (With pending (cells ++ [last])) m) :
    Traced World.returned Return.Links Return.WellFormed (splice expand s list expansionCtx)
      (fun w => pre w.heap.size ∧ Output pending head s w cells last)
      fun w s' w' => s'.tk = s.tk ∧ Running pending head s' w' ∧
        Kept pending w.heap w'.heap ∧ w.heap.size ≤ w'.heap.size := by
  have traced := Traced.weaken (expands (With pending (cells ++ [last])) list expansionCtx)
    (fun w (holds : pre w.heap.size ∧ Output pending head s w cells last) =>
      ⟨free _ holds.1, holds.2.safe⟩) fun _ _ _ _ holds => holds
  apply Traced.bind traced
  intro w expansion
  apply Traced.silent
  intro w₁ s' w' ran
  rcases Run.bind_eq_ok_iff.mp ran with ⟨nothing, w₂, isSet, ran₂⟩
  cases ran₂
  constructor
  · rcases setNext_eq_ok isSet with ⟨-, -, -, -, -, rfl⟩
    rfl
  · rintro ⟨⟨-, output⟩, kept, grows, chain, end_, delivered⟩
    rcases output.append kept grows delivered isSet with ⟨output', kept', grows', -⟩
    exact ⟨rfl, ⟨_, _, output'⟩, kept', grows'⟩

theorem splice_emits (expands : Expands expand) {list : Ptr} {expansionCtx : Context}
    (free : ∀ m, pre m → Free (With pending (cells ++ [last])) m list ∧
      expansionCtx.Free (With pending (cells ++ [last])) m) :
    Emits pending head s cells last pre (splice expand s list expansionCtx) :=
  Traced.weaken (splice_traced expands free) (fun _ holds => holds) fun _ _ _ _ holds => holds.2

theorem substitute_emits (expands : Expands expand) {list : Ptr} {expansionCtx : Context}
    (free : ∀ m, pre m → Free (With pending (cells ++ [last])) m list ∧
      expansionCtx.Free (With pending (cells ++ [last])) m) :
    Emits pending head s cells last pre (substitute expand s list expansionCtx) := by
  apply Traced.bind (splice_traced expands free)
  intro w s₁
  apply Traced.silent
  intro w₁ s' w' ran
  rcases Run.bind_eq_ok_iff.mp ran with ⟨tk, w₂, isNext, ran₂⟩
  cases ran₂
  constructor
  · rcases readNext_eq_ok isNext with ⟨rfl, -⟩
    rfl
  · rintro ⟨-, -, ⟨cells', last', output⟩, kept, grows⟩
    rcases output.advance isNext with ⟨rfl, output'⟩
    exact ⟨⟨_, _, output'⟩, kept, grows⟩

theorem expandMacro_emits (expands : Expands expand) {record : Macro} {expandedFrom : Ptr} :
    Emits pending head s cells last
      (fun m => (ctx.Free (With pending (cells ++ [last])) m ∧
        Free (With pending (cells ++ [last])) m s.tk) ∧
          Free (With pending (cells ++ [last])) m expandedFrom)
      (expandMacro expand ctx fuel s token record expandedFrom) := by
  apply Emits.bind (ppLexPeekToken_spec.of fun m holds => holds.1.2)
  intro isBracket
  apply Emits.ite
  · intro _
    apply Emits.bind (ppLexNextToken_spec.of fun m holds => holds.1.1.2)
    intro opening
    apply Emits.bind ((collectArguments_spec expands.returning).of fun m holds =>
      ⟨holds.2, holds.1.1.1.1⟩)
    rintro ⟨tk, args⟩
    apply Emits.bind getReplacement_spec
    intro replacement
    apply @Emits.at_ _ _ _ _ _ _ _ tk _ fun m holds => holds.1.2.1
    exact substitute_emits expands fun m holds =>
      ⟨holds.2, ⟨holds.1.1.1.1.2, holds.1.2.2.get⟩⟩
  · intro _
    apply Emits.bind getReplacement_spec
    intro replacement
    exact substitute_emits expands fun m holds =>
      ⟨holds.2, ⟨holds.1.1.2, holds.1.1.1.1.macroArgs⟩⟩

theorem identifier_emits (expands : Expands expand) :
    Emits pending head s cells last
      (fun m => ctx.Free (With pending (cells ++ [last])) m ∧
        Free (With pending (cells ++ [last])) m s.tk)
      (identifier expand ctx fuel s token) := by
  have expandedFrom : ∀ m, ctx.Free (With pending (cells ++ [last])) m ∧
      Free (With pending (cells ++ [last])) m s.tk → Free (With pending (cells ++ [last])) m
        (if ctx.expandedFrom = .null then s.tk else ctx.expandedFrom) := by
    rintro m ⟨free, tk⟩
    by_cases isNull : ctx.expandedFrom = .null
    · rw [if_pos isNull]
      exact tk
    · rw [if_neg isNull]
      exact free.expandedFrom
  apply Emits.ite
  · intro _
    exact substitute_emits expands fun m holds =>
      ⟨holds.1.macroArgs token.literal, ⟨expandedFrom m holds, fun name => free_null⟩⟩
  · intro _
    apply Emits.ite
    · intro _
      exact copyThrough_emits
    · intro _
      apply Emits.bind getMacro_spec
      intro record
      cases record.filter fun record => !record.isDisabled with
      | none => exact copyThrough_emits
      | some record =>
          cases isHandler : record.handler with
          | some handler =>
              simp only [isHandler]
              exact handle_emits
          | none =>
              simp only [isHandler]
              exact (expandMacro_emits expands).of fun m holds => ⟨holds.1, expandedFrom m holds.1⟩

theorem includeFile_emits (expands : Expands expand) :
    Emits pending head s cells last
      (fun m => Free (With pending (cells ++ [last])) m s.tk)
      (includeFile lexFile expand ctx s) := by
  apply Emits.bind ppLexNextToken_spec
  intro string
  apply Emits.bind readToken_spec
  intro name
  apply Emits.bind Run.lift_spec
  intro path
  apply Emits.bind (ppLexExpectToken_spec.of fun m holds => holds.1.1.2)
  intro newline
  apply Emits.bind (ppLexNextToken_spec.of fun m holds => holds.2)
  intro next
  apply Emits.bind isPragmaOnce_spec
  intro once
  apply Emits.ite
  · intro _
    apply Emits.silent
    exact Spec.pure fun m holds => ⟨holds.1.2, rfl⟩
  · intro _
    apply Emits.bind genFileTokenStream_spec
    intro file
    apply @Emits.at_ _ _ _ _ _ _ _ next _ fun m holds => holds.1.1.2
    exact splice_emits expands fun m holds => ⟨holds.2, ⟨free_null, fun name => free_null⟩⟩

theorem cppdInclude_emits (expands : Expands expand) :
    Emits pending head s cells last
      (fun m => Free (With pending (cells ++ [last])) m s.tk)
      (cppdInclude lexFile expand ctx s) := by
  apply Emits.bind ppLexPeekToken_spec
  intro isString
  apply Emits.ite
  · intro _
    exact (includeFile_emits expands).of fun m holds => holds.1
  · intro _
    exact Emits.silent (ignoreInclude_spec.of fun m holds => holds.1)

theorem eof_emits : Emits pending head s cells last
    (fun m => Free (With pending (cells ++ [last])) m s.tk) (eof ctx s token) := by
  rw [eof]
  cases ctx.trimEof with
  | none => exact Emits.silent Spec.fail
  | some trim =>
      cases trim with
      | true =>
          apply Emits.bind ppLexNextToken_spec
          intro next
          exact Emits.silent (Spec.pure fun m holds => ⟨holds.2, rfl⟩)
      | false => exact copyThrough_emits

theorem process_emits (expands : Expands expand) :
    Emits pending head s cells last
      (fun m => ctx.Free (With pending (cells ++ [last])) m ∧
        Free (With pending (cells ++ [last])) m s.tk)
      (process lexFile expand ctx fuel s token) := by
  rw [process]
  split
  · exact identifier_emits expands
  · exact (cppdInclude_emits expands).of fun m holds => holds.2
  · exact Emits.silent (cppdDefine_spec.of fun m holds => holds.2)
  · exact Emits.silent (cppdUndef_spec.of fun m holds => holds.2)
  · exact Emits.silent ((cppdIf_spec expands.returning).of fun m holds => holds.2)
  · exact Emits.silent (conditional_spec.of fun m holds => holds.2)
  · exact Emits.silent (conditional_spec.of fun m holds => holds.2)
  · exact Emits.silent ((cppdElif_spec expands.returning).of fun m holds => holds.2)
  · exact Emits.silent (cppdElse_spec.of fun m holds => holds.2)
  · exact Emits.silent (cppdEndif_spec.of fun m holds => holds.2)
  · exact Emits.silent (cppdPragma_spec.of fun m holds => holds.2)
  · exact Emits.silent (cppdError_spec.of fun m holds => holds.2)
  · exact Emits.silent errorAt_spec
  · exact eof_emits.of fun m holds => holds.2
  · exact copyThrough_emits

end Rounds

end Internal

/-! ## The loop and the call -/

namespace Internal

section Call

variable {pending : Nat → Prop} {head : Nat} {expand : Expand} {ctx : Context} {fuel : Nat}
  {lexFile : String → Except Failure (List Token)}

/-- One round behind another. -/
theorem scan_traced (expands : Expands expand) (rounds : Nat) (s : Scan) :
    Traced World.returned Return.Links Return.WellFormed (scan lexFile expand ctx fuel rounds s)
      (fun w => Running pending head s w ∧ ctx.Free pending head)
      fun w s' w' => Running pending head s' w' ∧ Kept pending w.heap w'.heap ∧
        w.heap.size ≤ w'.heap.size := by
  induction rounds generalizing s with
  | zero => exact Traced.fail
  | succ rounds inductionHypothesis =>
      rw [scan]
      apply Traced.ite
      · intro _
        apply Traced.pure
        rintro w ⟨running, -⟩
        exact ⟨running, fun _ _ => rfl, Nat.le_refl _⟩
      · intro _
        have read : Traced World.returned Return.Links Return.WellFormed (readToken s.tk)
            (fun w => Running pending head s w ∧ ctx.Free pending head)
            fun w _ w' => w' = w := by
          apply Traced.silent
          intro w token w' ran
          rcases Run.bind_eq_ok_iff.mp ran with ⟨cell, middle, isRead, ⟨⟩⟩
          rcases readCell_eq_ok isRead with ⟨rfl, -⟩
          exact ⟨rfl, fun _ => rfl⟩
        apply Traced.bind read
        intro w token
        have round : Traced World.returned Return.Links Return.WellFormed
            (process lexFile expand ctx fuel s token)
            (fun w' => ∃ list : List (Nat × Token) × (Nat × Token),
              Output pending head s w' list.1 list.2 ∧ ctx.Free pending head)
            fun w₁ s' w₂ => Running pending head s' w₂ ∧ Kept pending w₁.heap w₂.heap ∧
              w₁.heap.size ≤ w₂.heap.size := by
          have : Nonempty (List (Nat × Token) × (Nat × Token)) := ⟨([], (0, token))⟩
          apply Traced.exists
          rintro ⟨cells, last⟩
          apply Traced.weaken (@process_emits pending head s cells last expand ctx fuel token
            lexFile
            expands)
          · rintro w' ⟨output, free⟩
            have lastIn := output.safe.inside last.1
              (Or.inr ⟨last, List.mem_append_right _ List.mem_cons_self, rfl⟩)
            have le : head ≤ w'.heap.size := Nat.le_of_lt (Nat.lt_of_le_of_lt
              (output.new last (List.mem_append_right _ List.mem_cons_self)) lastIn)
            exact ⟨⟨free.with_new le output.new, output.tk⟩, output⟩
          · exact fun _ _ _ _ holds => holds
        have round' := Traced.weaken round
          (fun w' (holds : (Running pending head s w ∧ ctx.Free pending head) ∧ w' = w) => by
            rcases holds with ⟨⟨⟨cells, last, output⟩, free⟩, rfl⟩
            exact ⟨(cells, last), output, free⟩)
          fun _ _ _ _ holds => holds
        apply Traced.bind round'
        intro w₁ s'
        apply Traced.weaken (inductionHypothesis s')
        · rintro w₂ ⟨⟨⟨-, free⟩, rfl⟩, running, -, -⟩
          exact ⟨running, free⟩
        · rintro w₂ s'' w₃ ⟨⟨-, rfl⟩, -, kept, grows⟩ ⟨running, kept', grows'⟩
          refine ⟨running, ?_, Nat.le_trans grows grows'⟩
          intro address isPending
          rw [kept' address isPending, kept address isPending]

/-- The list a call returns is well formed exactly if something was linked. -/
theorem wellFormed_iff {s : Scan} {w : World} (running : Running pending head s w) :
    Return.WellFormed ⟨w.heap, head, s.cur⟩ ↔ Return.Links ⟨w.heap, head, s.cur⟩ := by
  rcases running with ⟨cells, last, output⟩
  have linked := output.linked
  cases cells with
  | nil =>
      rcases linked_singleton.mp linked with ⟨isHead, found⟩
      rw [if_pos rfl] at found
      have sameHead := Ptr.cell.inj isHead
      apply iff_of_false
      · rintro (⟨first, others, end_, isList, -⟩ | ⟨token, found', -⟩)
        · rcases isList.head with ⟨token, found'⟩
          change w.heap.cells head = _ at found'
          rw [sameHead, found] at found'
          cases found'
          have linked' := isList.linked
          cases others with
          | nil => cases linked'.1
          | cons other rest => cases linked'.1
        · change w.heap.cells head = _ at found'
          rw [sameHead, found] at found'
          cases found'
      · intro links
        apply links
        rw [isHead]
        exact output.cur
  | cons entry rest =>
      rcases entry with ⟨address, token⟩
      rw [if_neg (List.cons_ne_nil _ _)] at linked
      rw [List.cons_append] at linked
      have distinct := linked.nodup
      rw [List.map_cons, List.nodup_cons] at distinct
      rcases linked with ⟨isHead, next, found, linked⟩
      cases isHead
      have newer : ∀ one ∈ rest ++ [last], head < one.1 := by
        intro one member
        have le := output.new one (List.mem_cons_of_mem _ member)
        apply Nat.lt_of_le_of_ne le
        intro same
        exact distinct.1 (List.mem_map.mpr ⟨one, member, same.symm⟩)
      apply iff_of_true
      · have isList : Return.IsList ⟨w.heap, head, s.cur⟩ next rest last :=
          ⟨⟨token, found⟩, linked, output.cur, newer⟩
        exact Or.inl ⟨next, rest, last, isList, isList.splices⟩
      · intro same
        have isLast := output.cur.symm.trans same
        have less := newer last (List.mem_append_right _ List.mem_cons_self)
        rw [Ptr.cell.inj isLast] at less
        exact absurd less (Nat.lt_irrefl _)

/-- The list of a call that returns is delivered, if something was linked. -/
theorem delivered_of_links {s : Scan} {w w' : World} {list : Ptr}
    (running : Running pending head s w) (read : readNext (.cell head) w = .ok (list, w'))
    (links : Return.Links ⟨w.heap, head, s.cur⟩) :
    ∃ cells last,
      Delivered pending head (list, s.cur) (w.withHeap (w.heap.kill head)) cells last := by
  rcases running with ⟨cells, last, output⟩
  rcases readNext_eq_ok read with ⟨rfl, address, token, isCell, found⟩
  cases isCell
  have linked := output.linked
  have safe := output.safe
  cases cells with
  | nil =>
      rcases linked_singleton.mp linked with ⟨isHead, -⟩
      exact absurd (output.cur.trans isHead.symm) links
  | cons entry rest =>
      rcases entry with ⟨address, value⟩
      rw [if_neg (List.cons_ne_nil _ _)] at linked
      rw [List.cons_append] at linked
      have distinct := linked.nodup
      rw [List.map_cons, List.nodup_cons] at distinct
      rcases linked with ⟨isHead, next, found', linked⟩
      cases isHead
      rw [found] at found'
      cases found'
      have other : ∀ one ∈ rest ++ [last], one.1 ≠ head := by
        intro one member same
        exact distinct.1 (List.mem_map.mpr ⟨one, member, same⟩)
      have less : ∀ {p : Ptr} {n : Nat}, Free (With pending ((head, token) :: rest ++ [last])) n p →
          Free (With pending (rest ++ [last])) n p := by
        intro p n free address isCell
        rcases free address isCell with ⟨inside, notPending⟩
        refine ⟨inside, ?_⟩
        rintro (isPending | ⟨one, member, same⟩)
        · exact notPending (Or.inl isPending)
        · exact notPending (Or.inr ⟨one, List.mem_cons_of_mem _ member, same⟩)
      refine ⟨rest, last, ?_, output.cur, ?_, ?_⟩
      · apply linked.frame
        intro one member
        exact Heap.cells_put_of_ne _ (other one member)
      · intro one member
        exact output.new one (List.mem_cons_of_mem _ member)
      · have headIn : head < w'.heap.size :=
          safe.inside head (Or.inr ⟨_, List.mem_cons_self, rfl⟩)
        refine ⟨safe.bounded.put _ headIn, ?_, ?_, fun name => less (safe.replacement name),
          fun name p cached => less (safe.tokenCache name p cached)⟩
        · rintro address (isPending | ⟨one, member, same⟩)
          · exact safe.inside address (Or.inl isPending)
          · exact safe.inside address (Or.inr ⟨one, List.mem_cons_of_mem _ member, same⟩)
        · intro address one q notPending isLive
          by_cases same : address = head
          · subst same
            rw [World.withHeap_heap, Heap.kill, Heap.cells_put_self] at isLive
            cases isLive
          · rw [World.withHeap_heap, Heap.kill, Heap.cells_put_of_ne _ same] at isLive
            apply less
            apply safe.next address one q _ isLive
            rintro (isPending | ⟨entry, member, sameAddress⟩)
            · exact notPending (Or.inl isPending)
            · rcases List.mem_cons.mp member with rfl | inRest
              · exact same sameAddress.symm
              · exact notPending (Or.inr ⟨entry, inRest, sameAddress⟩)

/-- The end of a call. -/
theorem finish_traced (s : Scan) : Traced World.returned Return.Links Return.WellFormed
    (do
      let list ← readNext (.cell head)
      logReturn head s.cur
      endLocal head
      pure (list, s.cur) : Run (Ptr × Ptr))
    (fun w => Running pending head s w)
    fun w result w' => Kept pending w.heap w'.heap ∧ w.heap.size ≤ w'.heap.size ∧
      ∃ cells last, Delivered pending head result w' cells last := by
  intro w result w' ran
  rcases Run.bind_eq_ok_iff.mp ran with ⟨list, w₁, read, ran₁⟩
  have same := (readNext_eq_ok read).1
  subst same
  rcases Run.bind_eq_ok_iff.mp ran₁ with ⟨nothing, w₂, logged, ran₂⟩
  rcases Run.bind_eq_ok_iff.mp ran₂ with ⟨nothing', w₃, ended, ran₃⟩
  cases logged
  cases ended
  cases ran₃
  refine ⟨[⟨w₁.heap, head, s.cur⟩], rfl, fun running => ?_⟩
  refine ⟨chronicle_singleton (wellFormed_iff running), fun all => ?_⟩
  have links := all _ List.mem_cons_self
  rcases delivered_of_links running read links with ⟨cells, last, delivered⟩
  refine ⟨?_, Nat.le_refl _, cells, last, ⟨delivered.linked, delivered.endOfToken, delivered.new,
    ⟨delivered.safe.bounded, delivered.safe.inside, delivered.safe.next,
      delivered.safe.replacement, delivered.safe.tokenCache⟩⟩⟩
  apply kept_put
  intro isPending
  rcases running with ⟨others, end_, output⟩
  exact absurd (output.older head isPending) (Nat.lt_irrefl _)

theorem running_start {w : World} {tk : Ptr} (safe : Safe pending w)
    (free : Free pending w.heap.size tk) : Running pending w.heap.size ⟨tk, .cell w.heap.size, []⟩
      (w.withHeap (w.heap.alloc ⟨.start, "", synthBuiltInLoc⟩ .wild)) := by
  have delivered := safe.delivered ⟨.start, "", synthBuiltInLoc⟩
  have safe' := delivered.safe
  refine ⟨[], (w.heap.size, ⟨.start, "", synthBuiltInLoc⟩), ?_, ?_, rfl, ?_, ?_, safe.inside, ?_⟩
  · refine ⟨safe.bounded.alloc _ _, safe'.inside, ?_, safe'.replacement, safe'.tokenCache⟩
    intro address token q notPending found
    have notNew : address ≠ w.heap.size := by
      rintro rfl
      exact notPending (Or.inr ⟨_, List.mem_cons_self, rfl⟩)
    apply safe'.next address token q notPending
    rw [World.withHeap_heap, Heap.cells_alloc_of_ne _ _ notNew] at found ⊢
    exact found
  · exact linked_singleton.mpr ⟨rfl, Heap.cells_alloc_self _ _⟩
  · intro entry member
    cases member
  · intro entry member
    cases List.mem_singleton.mp member
    exact Nat.le_refl _
  · apply free.with_new (Nat.le_succ _)
    intro entry member
    cases List.mem_singleton.mp member
    exact Nat.le_refl _

end Call

end Internal

section Call

variable {lexFile : String → Except Failure (List Token)}

/-- The scan and the delivery after it, where the calls below deliver. -/
theorem scanned_traced {fuel : Nat} {pending : Nat → Prop}
    (inductionHypothesis : Expands (ppPreprocessInternal lexFile fuel)) (tk : Ptr)
    (ctx : Context) (head : Nat) :
    Traced World.returned Return.Links Return.WellFormed
      (do
        let s ← Internal.scan lexFile (ppPreprocessInternal lexFile fuel) ctx fuel fuel
          ⟨tk, .cell head, []⟩
        match s.ci with
        | ci :: _ => errorAt "Unterminated conditional directive" ci.tk
        | [] => do
            let list ← readNext (.cell head)
            Internal.logReturn head s.cur
            endLocal head
            pure (list, s.cur) : Run (Ptr × Ptr))
      (fun w' => Running pending head ⟨tk, .cell head, []⟩ w' ∧ ctx.Free pending head)
      fun w₁ result w' => Kept pending w₁.heap w'.heap ∧ w₁.heap.size ≤ w'.heap.size ∧
        ∃ cells last, Delivered pending head result w' cells last := by
  apply Traced.bind (Internal.scan_traced inductionHypothesis fuel _)
  intro w₁ s
  cases isOpen : s.ci with
  | cons ci outer =>
      intro w₂ result w' ran
      rcases Run.bind_eq_ok_iff.mp ran with ⟨token, w₃, -, failed⟩
      cases failed
  | nil =>
      apply Traced.weaken (@Internal.finish_traced pending head s)
      · rintro w₂ ⟨-, running, -⟩
        exact running
      · rintro w₂ result w' ⟨-, -, kept, grows⟩ ⟨kept', grows', delivered⟩
        refine ⟨?_, Nat.le_trans grows grows', delivered⟩
        intro address isPending
        rw [kept' address isPending, kept address isPending]

/-- A call delivers a list, as long as every call links something. -/
theorem ppPreprocessInternal_expands (fuel : Nat) :
    Expands (ppPreprocessInternal lexFile fuel) := by
  induction fuel with
  | zero =>
      intro pending tk ctx
      exact Traced.fail
  | succ fuel inductionHypothesis =>
      intro pending tk ctx
      have started : Traced World.returned Return.Links Return.WellFormed newLocal
          (fun w => (Free pending w.heap.size tk ∧ ctx.Free pending w.heap.size) ∧ Safe pending w)
          fun w head w' => head = w.heap.size ∧ Running pending head ⟨tk, .cell head, []⟩ w' ∧
            Kept pending w.heap w'.heap ∧ w.heap.size ≤ w'.heap.size := by
        apply Traced.silent
        rintro w head w' ⟨⟩
        refine ⟨rfl, ?_⟩
        rintro ⟨⟨free, -⟩, safe⟩
        exact ⟨rfl, Internal.running_start safe free, safe.kept_alloc _ _, Nat.le_succ _⟩
      rw [ppPreprocessInternal]
      apply Traced.bind started
      intro w head
      apply Traced.weaken (scanned_traced inductionHypothesis tk ctx head)
      · rintro w₁ ⟨⟨⟨-, free⟩, -⟩, rfl, running, -, -⟩
        exact ⟨running, free⟩
      · rintro w₁ result w' ⟨-, rfl, -, kept, grows⟩ ⟨kept', grows', delivered⟩
        refine ⟨?_, Nat.le_trans grows grows', delivered⟩
        intro address isPending
        rw [kept' address isPending, kept address isPending]

/-- Every pointer of the memory and of the tables is null, wild or to an allocated
cell. -/
def World.Sound (w : World) : Prop := Safe (fun _ => False) w

/-- The pointer is null, wild or to an allocated cell. -/
def Ptr.Allocated (p : Ptr) (w : World) : Prop := Free (fun _ => False) w.heap.size p

/-- The pointers of the context are null, wild or to allocated cells. -/
def Context.Allocated (ctx : Context) (w : World) : Prop :=
  ctx.Free (fun _ => False) w.heap.size

/-- The last call to return is the call itself. -/
theorem ppPreprocessInternal_logs {fuel : Nat} {tk : Ptr} {ctx : Context} {w w' : World}
    {result : Ptr × Ptr} (ran : ppPreprocessInternal lexFile fuel tk ctx w = .ok (result, w')) :
    ∃ calls call, w'.returned = w.returned ++ (calls ++ [call]) ∧ call.endOfToken = result.2 ∧
      ∃ token, call.heap.cells call.head = .live token result.1 := by
  cases fuel with
  | zero => cases ran
  | succ fuel =>
      rcases Run.bind_eq_ok_iff.mp ran with ⟨head, w₁, started, ran₁⟩
      cases started
      rcases Run.bind_eq_ok_iff.mp ran₁ with ⟨s, w₂, scanned, ran₂⟩
      rcases @Internal.scan_traced (fun _ => False) w.heap.size _ ctx fuel lexFile
        (ppPreprocessInternal_expands fuel) fuel _ _ _ _ scanned with ⟨calls, logged, -⟩
      cases isOpen : s.ci with
      | cons ci outer =>
          simp only [isOpen] at ran₂
          rcases Run.bind_eq_ok_iff.mp ran₂ with ⟨token, w₃, -, failed⟩
          cases failed
      | nil =>
          simp only [isOpen] at ran₂
          rcases Run.bind_eq_ok_iff.mp ran₂ with ⟨list, w₃, read, ran₃⟩
          rcases Run.bind_eq_ok_iff.mp ran₃ with ⟨nothing, w₄, isLog, ran₄⟩
          rcases Run.bind_eq_ok_iff.mp ran₄ with ⟨nothing', w₅, ended, ran₅⟩
          rcases readNext_eq_ok read with ⟨rfl, address, token, isCell, found⟩
          cases isCell
          cases isLog
          cases ended
          cases ran₅
          refine ⟨calls, ⟨w₃.heap, w.heap.size, s.cur⟩, ?_, rfl, token, found⟩
          change w₃.returned ++ _ = _
          rw [logged, List.append_assoc]
          rfl

end Call

/-! ## Two runs -/

theorem textWorld_sound (tokens : List Token) : (textWorld tokens).Sound := by
  refine ⟨Heap.ofList_bounded tokens, fun _ isPending => isPending.elim, ?_, fun name => free_null,
    fun name p cached => by cases cached⟩
  intro address token q _ found address' isCell
  subst isCell
  refine ⟨?_, fun isPending => isPending⟩
  change (Heap.ofList tokens).cells address = _ at found
  cases isToken : tokens[address]? with
  | none =>
      simp only [Heap.ofList, isToken] at found
      cases found
  | some other =>
      simp only [Heap.ofList, isToken] at found
      injection found with _ isNext
      by_cases inside : address + 1 < tokens.length
      · rw [if_pos inside] at isNext
        cases isNext
        exact inside
      · rw [if_neg inside] at isNext
        cases isNext

/-- A context of a file. -/
def fileContext : Context := ⟨[], none, .null, some false⟩

/-- The text `x;`. -/
def copiedText : List Token := [lineToken .identifier "x", lineToken .semicolon ""]

/-- The text `EMPTY`. -/
def emptyText : List Token := [lineToken .identifier "EMPTY"]

/-- The memory behind `#define EMPTY`. -/
def emptyWorld : World :=
  { textWorld emptyText with
    macros := fun name => if name = "EMPTY" then some {} else none }

end Shecc.Preprocessor
