import Shecc.Traversal.IdomTree
import Mathlib.Data.List.Perm.Subperm

/-!
# Connecting vertices to those above

Each vertex is entered in the list of the vertex its link leads to, and the vertex above it in
the list of the next, up to a vertex that is in a list already. The lists have room for a fixed
number of entries; a computation that finds a list full stops.
-/

namespace Shecc.Traversal

variable {β ε : Type}

/-- The lists of the vertices below, and the ways back. -/
structure Children (β : Type) where
  next : β → List β
  prev : β → Option β

/-! ## The computation -/

section Computation

variable [DecidableEq β] (capacity : Nat) (full missing running : ε)

/-- Entering a vertex in the list of another. The vertex is looked at before the other. -/
def connect (pred : Option β) (succ : β) (lists : Children β) : Except ε (Children β × Bool) :=
  if (lists.prev succ).isSome then .ok (lists, false)
  else
    match pred with
    | none => .error missing
    | some pred =>
        if succ ∈ lists.next pred then .ok (lists, false)
        else if capacity ≤ (lists.next pred).length then .error full
        else
          .ok ({
            next := Function.update lists.next pred (lists.next pred ++ [succ])
            prev := Function.update lists.prev succ (some pred) }, true)

/-- Going up from a vertex. -/
def connectUp (idom : β → Option β) (root : β) : Nat → β → Children β → Except ε (Children β)
  | 0, _, _ => .error running
  | fuel + 1, curr, lists =>
      if curr = root then .ok lists
      else do
        let (lists, connected) ← connect capacity full missing (idom curr) curr lists
        match connected, idom curr with
        | true, some d => connectUp idom root fuel d lists
        | _, _ => .ok lists

end Computation

/-! ## What is connected -/

/-- The vertices hang in the lists their links lead to, each once, and no list has overflown. -/
structure Hanging (capacity : Nat) (root : β) (idom : β → Option β) (lists : Children β) :
    Prop where
  prev : ∀ c p, lists.prev c = some p → c ≠ root ∧ idom c = some p
  next_iff : ∀ p c, c ∈ lists.next p ↔ lists.prev c = some p
  nodup : ∀ p, (lists.next p).Nodup
  short : ∀ p, (lists.next p).length ≤ capacity

/-- What is connected is connected all the way up, or up to the vertex. -/
def HangsTo (root : β) (curr : Option β) (lists : Children β) : Prop :=
  ∀ c p, lists.prev c = some p → p = root ∨ (∃ q, lists.prev p = some q) ∨ some p = curr

/-- No vertex is the link of more than so many others. -/
def FewBelow (capacity : Nat) (root : β) (idom : β → Option β) : Prop :=
  ∀ p (list : List β), list.Nodup → (∀ c ∈ list, c ≠ root ∧ idom c = some p) →
    list.length ≤ capacity

/-- What was connected still is. -/
def KeepsPrev (lists lists' : Children β) : Prop :=
  ∀ c p, lists.prev c = some p → lists'.prev c = some p

section Connect

variable {capacity : Nat} {full missing running : ε} {root curr d : β} {idom : β → Option β}
  {lists : Children β}

theorem hanging_nil {lists : Children β} (empty : ∀ c, lists.next c = [] ∧ lists.prev c = none) :
    Hanging capacity root idom lists ∧ HangsTo root none lists := by
  have unlinked : ∀ {P : Prop} c p, lists.prev c = some p → P := by
    intro P c p link
    cases (empty c).2.symm.trans link
  refine ⟨⟨fun c p => unlinked c p, ?_, ?_, ?_⟩, fun c p => unlinked c p⟩
  · intro p c
    rw [(empty p).1, (empty c).2]
    simp
  · intro p
    rw [(empty p).1]
    exact List.nodup_nil
  · intro p
    rw [(empty p).1]
    exact Nat.zero_le _

/-- Where the links are exact, they are as many as the vertices that are immediately dominated. -/
theorem fewBelow_iff {edges : β → List β} {number : β → Int}
    (exact : ExactLinks edges root number idom) : FewBelow capacity root idom ↔
      ∀ d (list : List β), list.Nodup →
        (∀ b ∈ list, Reaches edges root b ∧ ImmediatelyDominates edges root d b) →
          list.length ≤ capacity := by
  simp only [FewBelow, exact.link_iff]

/-- When every link is connected, no vertex is the link of too many others. -/
theorem Hanging.fewBelow (hanging : Hanging capacity root idom lists)
    (all : ∀ c p, idom c = some p → c ≠ root → ∃ d, lists.prev c = some d) :
    FewBelow capacity root idom := by
  intro p list nodup isBelow
  apply Nat.le_trans _ (hanging.short p)
  apply (List.subperm_of_subset nodup _).length_le
  intro c member
  rcases isBelow c member with ⟨differ, link⟩
  rcases all c p link differ with ⟨d, isPrev⟩
  cases link.symm.trans (hanging.prev c d isPrev).2
  exact (hanging.next_iff p c).mpr isPrev

variable [DecidableEq β]

/-- When every link is connected, each vertex is in the list of its link once and in no other. -/
theorem Hanging.count (hanging : Hanging capacity root idom lists) {b d : β}
    (isPrev : lists.prev b = some d) (p : β) :
    (lists.next p).count b = if p = d then 1 else 0 := by
  rw [(hanging.nodup p).count]
  refine if_congr ?_ rfl rfl
  rw [hanging.next_iff, isPrev, Option.some.injEq]
  exact eq_comm

/-- A vertex that is not connected is, or the list is full. -/
theorem connect_spec (connected : Hanging capacity root idom lists) (link : idom curr = some d)
    (notRoot : curr ≠ root) (unlinked : lists.prev curr = none) :
    (∃ lists', connect capacity full missing (some d) curr lists = .ok (lists', true) ∧
      Hanging capacity root idom lists' ∧ KeepsPrev lists lists' ∧
      lists'.prev = Function.update lists.prev curr (some d)) ∨
    (connect capacity full missing (some d) curr lists = .error full ∧
      ¬ FewBelow capacity root idom) := by
  have notIn : curr ∉ lists.next d := by
    intro member
    rw [connected.next_iff, unlinked] at member
    cases member
  have differ : ∀ c p, lists.prev c = some p → c ≠ curr := by
    rintro c p linked rfl
    cases unlinked.symm.trans linked
  have notSome : ¬ (lists.prev curr).isSome = true := by
    rw [unlinked]
    exact Bool.false_ne_true
  rw [connect, if_neg notSome]
  show _ ∨ (if curr ∈ lists.next d then _ else _) = _ ∧ _
  simp only [if_neg notIn]
  by_cases isFull : capacity ≤ (lists.next d).length
  · right
    refine ⟨if_pos isFull, ?_⟩
    intro few
    have short := few d (curr :: lists.next d)
      (List.nodup_cons.mpr ⟨notIn, connected.nodup d⟩) (by
        intro c member
        rcases List.mem_cons.mp member with rfl | member
        · exact ⟨notRoot, link⟩
        · exact connected.prev c d ((connected.next_iff d c).mp member))
    rw [List.length_cons] at short
    omega
  · left
    refine ⟨_, if_neg isFull, ⟨?_, ?_, ?_, ?_⟩, ?_, rfl⟩
    · intro c p linked
      change Function.update lists.prev curr (some d) c = some p at linked
      by_cases same : c = curr
      · subst same
        rw [Function.update_self] at linked
        cases linked
        exact ⟨notRoot, link⟩
      · rw [Function.update_of_ne same] at linked
        exact connected.prev c p linked
    · intro p c
      show c ∈ Function.update lists.next d _ p ↔ Function.update lists.prev curr _ c = some p
      by_cases isD : p = d
      · subst isD
        rw [Function.update_self, List.mem_append, List.mem_singleton, connected.next_iff]
        by_cases same : c = curr
        · subst same
          simp
        · rw [Function.update_of_ne same]
          simp [same]
      · rw [Function.update_of_ne isD, connected.next_iff]
        by_cases same : c = curr
        · subst same
          rw [Function.update_self, unlinked]
          simp [Ne.symm isD]
        · rw [Function.update_of_ne same]
    · intro p
      show (Function.update lists.next d _ p).Nodup
      by_cases isD : p = d
      · subst isD
        rw [Function.update_self]
        exact (connected.nodup p).append (List.nodup_singleton curr) fun c member isCurr =>
          notIn (List.mem_singleton.mp isCurr ▸ member)
      · rw [Function.update_of_ne isD]
        exact connected.nodup p
    · intro p
      show (Function.update lists.next d _ p).length ≤ capacity
      by_cases isD : p = d
      · subst isD
        rw [Function.update_self, List.length_append]
        exact Nat.lt_of_not_le isFull
      · rw [Function.update_of_ne isD]
        exact connected.short p
    · intro c p linked
      exact (Function.update_of_ne (differ c p linked) _ _).trans linked

/-- Going up from a vertex connects it and everything above it. -/
theorem connectUp_spec {edges : β → List β} {number : β → Int} {fuel : Nat}
    (linked : Linked edges root number idom) (connected : Hanging capacity root idom lists)
    (closed : HangsTo root (some curr) lists) (link : ∃ d, idom curr = some d)
    (above : ∀ b, number b < number root → idom b = none)
    (enough : number curr - number root < fuel) :
    (∃ lists', connectUp capacity full missing running idom root fuel curr lists = .ok lists' ∧
      Hanging capacity root idom lists' ∧ HangsTo root none lists' ∧
      (curr = root ∨ ∃ d, lists'.prev curr = some d) ∧ KeepsPrev lists lists') ∨
    (connectUp capacity full missing running idom root fuel curr lists = .error full ∧
      ¬ FewBelow capacity root idom) := by
  induction fuel generalizing curr lists with
  | zero =>
      rcases link with ⟨d, link⟩
      have notAbove : ¬ number curr < number root := fun lower => by
        cases (above curr lower).symm.trans link
      omega
  | succ fuel inductionHypothesis =>
      rcases link with ⟨d, link⟩
      rw [connectUp]
      by_cases isRoot : curr = root
      · left
        refine ⟨lists, if_pos isRoot, connected, ?_, Or.inl isRoot, fun _ _ => id⟩
        intro c p linkedC
        rcases closed c p linkedC with isTop | linkedP | isCurr
        · exact Or.inl isTop
        · exact Or.inr (Or.inl linkedP)
        · exact Or.inl ((Option.some.inj isCurr).trans isRoot)
      rw [if_neg isRoot, link]
      cases isPrev : lists.prev curr with
      | some p =>
          left
          have stays : connect capacity full missing (some d) curr lists = .ok (lists, false) := by
            rw [connect, isPrev]
            rfl
          refine ⟨lists, ?_, connected, ?_, Or.inr ⟨p, isPrev⟩, fun _ _ => id⟩
          · rw [stays]
            rfl
          · intro c q linkedC
            rcases closed c q linkedC with isTop | linkedQ | isCurr
            · exact Or.inl isTop
            · exact Or.inr (Or.inl linkedQ)
            · exact Or.inr (Or.inl ⟨p, Option.some.inj isCurr ▸ isPrev⟩)
      | none =>
          rcases @connect_spec _ ε capacity full missing _ _ _ _ _ _ connected link isRoot isPrev
            with ⟨lists₁, ran, connected₁, keeps, isPrev₁⟩ | ⟨ran, many⟩
          · have lower := linked.lower curr d link isRoot
            have closed₁ : HangsTo root (some d) lists₁ := by
              intro c p linkedC
              rw [isPrev₁] at linkedC
              by_cases same : c = curr
              · subst same
                rw [Function.update_self] at linkedC
                exact Or.inr (Or.inr linkedC.symm)
              · rw [Function.update_of_ne same] at linkedC
                rcases closed c p linkedC with isTop | ⟨q, linkedP⟩ | isCurr
                · exact Or.inl isTop
                · exact Or.inr (Or.inl ⟨q, keeps p q linkedP⟩)
                · refine Or.inr (Or.inl ⟨d, ?_⟩)
                  rw [Option.some.inj isCurr, isPrev₁, Function.update_self]
            rw [ran]
            show (∃ _, connectUp capacity full missing running idom root fuel d lists₁ = _ ∧ _) ∨
              (connectUp capacity full missing running idom root fuel d lists₁ = _ ∧ _)
            rcases inductionHypothesis connected₁ closed₁ (linked.closed curr d link) (by omega) with
              ⟨lists', ran', connected', closed', _, keeps'⟩ | failed
            · left
              refine ⟨lists', ran', connected', closed', Or.inr ⟨d, ?_⟩,
                fun c p linkedC => keeps' c p (keeps c p linkedC)⟩
              apply keeps'
              rw [isPrev₁, Function.update_self]
            · exact Or.inr failed
          · right
            rw [ran]
            exact ⟨rfl, many⟩

end Connect

end Shecc.Traversal
