import Mathlib.Data.List.Basic
import Mathlib.Data.List.Nodup
import Mathlib.Logic.Function.Basic
import Mathlib.Tactic.Cases

/-!
# Doubly linked lists

The links of nodes as two functions. A list of nodes is linked between two ends if each
node is linked to its neighbours both ways. The file proves what the usual edits do: a
node is taken out, put before the first, or put behind the last.
-/

namespace Shecc.DoublyLinked

open Function (update update_self update_of_ne)

variable {α : Type}

/-- Each node is linked to the one before and the one behind it, the first to `before` and the
last to `behind`. -/
def Linked (next prev : α → α) : (before : α) → List α → (behind : α) → Prop
  | _, [], _ => True
  | before, node :: rest, behind =>
      prev node = before ∧ next node = rest.headD behind ∧ Linked next prev node rest behind

section

variable {next prev next' prev' : α → α} {before behind null node : α} {front back nodes : List α}

@[simp]
theorem linked_nil : Linked next prev before [] behind := trivial

@[simp]
theorem linked_cons : Linked next prev before (node :: nodes) behind ↔
    prev node = before ∧ next node = nodes.headD behind ∧ Linked next prev node nodes behind :=
  Iff.rfl

theorem headD_append (front back : List α) (other : α) :
    (front ++ back).headD other = front.headD (back.headD other) := by
  cases front <;> rfl

theorem linked_append : Linked next prev before (front ++ back) behind ↔
    Linked next prev before front (back.headD behind) ∧
      Linked next prev (front.getLastD before) back behind := by
  induction front generalizing before with
  | nil => simp
  | cons node front inductionHypothesis =>
      rw [List.cons_append, linked_cons, linked_cons, inductionHypothesis, headD_append,
        List.getLastD_cons, and_assoc, and_assoc]

/-- The links of other nodes do not matter. -/
theorem Linked.congr (linked : Linked next prev before nodes behind)
    (same : ∀ node ∈ nodes, next' node = next node ∧ prev' node = prev node) :
    Linked next' prev' before nodes behind := by
  induction nodes generalizing before with
  | nil => trivial
  | cons node nodes inductionHypothesis =>
      rw [List.forall_mem_cons] at same
      rcases linked with ⟨isPrev, isNext, more⟩
      exact ⟨same.1.2.trans isPrev, same.1.1.trans isNext, inductionHypothesis more same.2⟩

/-- The first node of the nodes behind another is linked to that. -/
theorem Linked.next_eq (linked : Linked next prev before (front ++ node :: back) behind) :
    next node = back.headD behind :=
  (linked_append.mp linked).2.2.1

theorem Linked.prev_eq (linked : Linked next prev before (front ++ node :: back) behind) :
    prev node = front.getLastD before :=
  (linked_append.mp linked).2.1

theorem getLastD_concat (nodes : List α) (node other : α) :
    (nodes ++ [node]).getLastD other = node := by
  simp [List.getLastD_eq_getLast?]

variable [DecidableEq α]

/-- The last node is linked to another end. -/
theorem Linked.setBehind (linked : Linked next prev before (nodes ++ [node]) behind)
    (fresh : node ∉ nodes) (other : α) :
    Linked (update next node other) prev before (nodes ++ [node]) other := by
  rw [linked_append] at linked ⊢
  constructor
  · apply linked.1.congr
    intro node' member
    refine ⟨update_of_ne ?_ _ _, rfl⟩
    rintro rfl
    exact fresh member
  · exact ⟨linked.2.1, update_self _ _ _, trivial⟩

/-- The first node is linked to another end. -/
theorem Linked.setBefore (linked : Linked next prev before (node :: nodes) behind)
    (fresh : node ∉ nodes) (other : α) :
    Linked next (update prev node other) other (node :: nodes) behind := by
  refine ⟨update_self _ _ _, linked.2.1, linked.2.2.congr ?_⟩
  intro node' member
  refine ⟨rfl, update_of_ne ?_ _ _⟩
  rintro rfl
  exact fresh member

/-! ## Edits -/

/-- The links to the next node after a node is taken out. -/
def unlinkNext (null : α) (next prev : α → α) (node : α) : α → α :=
  if prev node = null then next else update next (prev node) (next node)

/-- The links to the previous node after a node is taken out. -/
def unlinkPrev (null : α) (next prev : α → α) (node : α) : α → α :=
  if next node = null then prev else update prev (next node) (prev node)

/-- A node is taken out. -/
theorem Linked.unlink (linked : Linked next prev null (front ++ node :: back) null)
    (nodup : (front ++ node :: back).Nodup) (noNull : null ∉ front ++ node :: back) :
    Linked (unlinkNext null next prev node) (unlinkPrev null next prev node) null (front ++ back)
      null := by
  have isNext := linked.next_eq
  have isPrev := linked.prev_eq
  rw [linked_append] at linked
  rcases linked with ⟨linkedFront, -, -, linkedBack⟩
  rw [List.nodup_append] at nodup
  rcases nodup with ⟨nodupFront, nodupBack, apart⟩
  rw [List.nodup_cons] at nodupBack
  rw [linked_append]
  constructor
  · rcases front.eq_nil_or_concat' with rfl | ⟨front, last, rfl⟩
    · trivial
    · rw [getLastD_concat] at isPrev
      have notNull : last ≠ null := by
        rintro rfl
        exact noNull (by simp)
      have fresh : last ∉ front := by
        rw [List.nodup_append] at nodupFront
        intro member
        exact nodupFront.2.2 last member last (List.mem_singleton_self last) rfl
      rw [unlinkNext, isPrev, if_neg notNull, isNext]
      apply (linkedFront.setBehind fresh _).congr
      intro node' member
      refine ⟨rfl, ?_⟩
      rw [unlinkPrev]
      split_ifs with isEnd
      · rfl
      · apply update_of_ne
        rintro rfl
        rcases back with _ | ⟨first, back⟩
        · exact isEnd isNext
        · exact apart _ member _ (by simp [isNext]) rfl
  · rcases back with _ | ⟨first, back⟩
    · trivial
    · have notNull : first ≠ null := by
        rintro rfl
        exact noNull (by simp)
      rw [List.headD_cons] at isNext
      rw [unlinkPrev, isNext, if_neg notNull, isPrev]
      rw [List.nodup_cons] at nodupBack
      apply (linkedBack.setBefore nodupBack.2.1 _).congr
      intro node' member
      refine ⟨?_, rfl⟩
      rw [unlinkNext]
      split_ifs with isStart
      · rfl
      · apply update_of_ne
        rintro rfl
        rcases front.eq_nil_or_concat' with rfl | ⟨front, last, rfl⟩
        · exact isStart isPrev
        · rw [getLastD_concat] at isPrev
          exact apart last (by simp) _ (List.mem_cons_of_mem _ (isPrev ▸ member)) rfl

/-- A node is put behind the last. -/
theorem Linked.append (linked : Linked next prev null nodes null) (nodup : nodes.Nodup)
    (fresh : node ∉ nodes) {last : α} (isLast : nodes.getLast? = some last) :
    Linked (update (update next last node) node null) (update prev node last) null
      (nodes ++ [node]) null := by
  rcases nodes.eq_nil_or_concat' with rfl | ⟨front, last', rfl⟩
  · cases isLast
  · obtain rfl : last' = last := by simpa using isLast
    have freshLast : last' ∉ front := by
      rw [List.nodup_append] at nodup
      intro member
      exact nodup.2.2 last' member last' (List.mem_singleton_self last') rfl
    rw [linked_append]
    constructor
    · apply (linked.setBehind freshLast node).congr
      intro node' member
      have other : node' ≠ node := by
        rintro rfl
        exact fresh member
      exact ⟨update_of_ne other _ _, update_of_ne other _ _⟩
    · rw [getLastD_concat]
      exact ⟨update_self _ _ _, update_self _ _ _, trivial⟩

/-- A node is put before the first. -/
theorem Linked.push (linked : Linked next prev null nodes null) (nodup : nodes.Nodup)
    (fresh : node ∉ nodes) {first : α} (isFirst : nodes.head? = some first) :
    Linked (update next node first) (update (update prev node null) first node) null
      (node :: nodes) null := by
  rcases nodes with _ | ⟨first', nodes⟩
  · cases isFirst
  · obtain rfl : first' = first := by simpa using isFirst
    rw [List.nodup_cons] at nodup
    have other : node ≠ first' := by
      rintro rfl
      exact fresh List.mem_cons_self
    refine ⟨?_, update_self _ _ _, ?_⟩
    · rw [update_of_ne other, update_self]
    · apply (linked.setBefore nodup.1 node).congr
      intro node' member
      have other' : node' ≠ node := by
        rintro rfl
        exact fresh member
      refine ⟨update_of_ne other' _ _, ?_⟩
      by_cases isFirst' : node' = first'
      · rw [isFirst', update_self, update_self]
      · rw [update_of_ne isFirst', update_of_ne isFirst', update_of_ne other']

end

end Shecc.DoublyLinked
