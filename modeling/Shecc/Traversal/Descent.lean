import Shecc.Traversal.IdomTree

/-!
# What a recursion over a tree keeps

A recursion that goes down to the children of a vertex, with a step before them and a step behind
them, is followed by the list of the vertices it is in. A relation between its state and this list
that the steps keep holds again when the recursion is back.
-/

namespace Shecc.Traversal

variable {β σ : Type} {children : β → List β} {pre post : β → σ → Option σ}
  {holds : σ → Visits β → Prop} {fuel : Nat} {b : β} {s : σ} {v v' : Visits β}

/-- The recursion is back where it was, and has entered more. -/
structure Visits.Extends (v v' : Visits β) : Prop where
  stack : v'.stack = v.stack
  entered : ∃ new, v'.entered = new ++ v.entered

theorem Visits.Extends.refl (v : Visits β) : v.Extends v := ⟨rfl, [], rfl⟩

theorem Visits.Extends.trans {w : Visits β} (first : v.Extends v') (second : v'.Extends w) :
    v.Extends w := by
  rcases first.entered with ⟨new, isNew⟩
  rcases second.entered with ⟨new', isNew'⟩
  exact ⟨second.stack.trans first.stack, new' ++ new, by rw [isNew', isNew, List.append_assoc]⟩

/-- What was entered before was entered once if what is entered then is. -/
theorem Visits.Extends.nodup (more : v.Extends v') (nodup : (v'.entered.map Prod.fst).Nodup) :
    (v.entered.map Prod.fst).Nodup := by
  rcases more.entered with ⟨new, isNew⟩
  rw [isNew, List.map_append] at nodup
  exact (List.nodup_append.mp nodup).2.1

theorem walkAll_extends {go : β → Visits β → Option (Visits β)} {bs : List β}
    (going : ∀ c ∈ bs, ∀ v v', go c v = some v' → v.Extends v')
    (walked : walkAll go (fun _ _ => true) bs v = some v') : v.Extends v' := by
  induction bs generalizing v with
  | nil =>
      cases walked
      exact Visits.Extends.refl _
  | cons c rest inductionHypothesis =>
      rcases walkAll_cons_eq_some_iff.mp walked with ⟨middle, stepped, walked⟩
      exact (going c List.mem_cons_self v middle stepped).trans
        (inductionHypothesis (fun d member => going d (List.mem_cons_of_mem c member)) walked)

theorem descend_extends
    (visited : descend children Visits.enter Visits.leave fuel b v = some v') : v.Extends v' := by
  induction fuel generalizing b v v' with
  | zero => cases visited
  | succ fuel inductionHypothesis =>
      rcases walk_succ_eq_some_iff.mp visited with ⟨first, entered, middle, walked, left⟩
      cases entered
      have behind := walkAll_extends (fun c _ v v' => inductionHypothesis) walked
      cases left
      rcases behind.entered with ⟨new, isNew⟩
      refine ⟨?_, new ++ [(b, v.stack)], ?_⟩
      · show middle.stack.tail = v.stack
        rw [behind.stack]
        rfl
      · show middle.entered = _
        rw [isNew, List.append_assoc]
        rfl

/-- The steps of a recursion that keep a relation. -/
structure Keeping (pre post : β → σ → Option σ) (holds : σ → Visits β → Prop) : Prop where
  enter : ∀ b s v, b ∉ v.entered.map Prod.fst → holds s v →
    ∃ s', pre b s = some s' ∧ holds s' ⟨b :: v.stack, (b, v.stack) :: v.entered⟩
  leave : ∀ b stack entered s, holds s ⟨b :: stack, entered⟩ →
    ∃ s', post b s = some s' ∧ holds s' ⟨stack, entered⟩

theorem walkAll_keeping {goVisits : β → Visits β → Option (Visits β)} {go : β → σ → Option σ}
    {bs : List β}
    (more : ∀ c ∈ bs, ∀ v v', goVisits c v = some v' → v.Extends v')
    (going : ∀ c ∈ bs, ∀ s v v', goVisits c v = some v' → (v'.entered.map Prod.fst).Nodup →
      holds s v → ∃ s', go c s = some s' ∧ holds s' v')
    (visited : walkAll goVisits (fun _ _ => true) bs v = some v')
    (nodup : (v'.entered.map Prod.fst).Nodup) (start : holds s v) :
    ∃ s', walkAll go (fun _ _ => true) bs s = some s' ∧ holds s' v' := by
  induction bs generalizing s v with
  | nil =>
      cases visited
      exact ⟨s, rfl, start⟩
  | cons c rest inductionHypothesis =>
      rcases walkAll_cons_eq_some_iff.mp visited with ⟨middle, stepped, walked⟩
      have others := walkAll_extends (fun d member => more d (List.mem_cons_of_mem c member)) walked
      rcases going c List.mem_cons_self s v middle stepped (others.nodup nodup) start with
        ⟨s₁, went, holds₁⟩
      rcases inductionHypothesis (fun d member => more d (List.mem_cons_of_mem c member))
        (fun d member => going d (List.mem_cons_of_mem c member)) walked holds₁ with
        ⟨s', wentAll, holds'⟩
      exact ⟨s', walkAll_cons_eq_some_iff.mpr ⟨s₁, went, wentAll⟩, holds'⟩

/-- A relation that the steps keep holds again when the recursion is back. -/
theorem descend_keeping (keeping : Keeping pre post holds)
    (visited : descend children Visits.enter Visits.leave fuel b v = some v')
    (nodup : (v'.entered.map Prod.fst).Nodup) (start : holds s v) :
    ∃ s', descend children pre post fuel b s = some s' ∧ holds s' v' := by
  induction fuel generalizing b s v v' with
  | zero => cases visited
  | succ fuel inductionHypothesis =>
      rcases walk_succ_eq_some_iff.mp visited with ⟨first, entered, middle, walked, left⟩
      cases entered
      cases left
      have behind := walkAll_extends (fun c _ v v' => descend_extends) walked
      have fresh : b ∉ v.entered.map Prod.fst := by
        have both := behind.nodup nodup
        exact (List.nodup_cons.mp both).1
      rcases keeping.enter b s v fresh start with ⟨s₁, isPre, holds₁⟩
      rcases walkAll_keeping (fun c _ v v' => descend_extends)
        (fun c _ s v v' => inductionHypothesis) walked nodup holds₁ with ⟨s₂, went, holds₂⟩
      rcases middle with ⟨stack, inside⟩
      have isBack : stack = b :: v.stack := behind.stack
      subst isBack
      rcases keeping.leave b v.stack inside s₂ holds₂ with ⟨s₃, isPost, holds₃⟩
      exact ⟨s₃, walk_succ_eq_some_iff.mpr ⟨s₁, isPre, s₂, went, isPost⟩, holds₃⟩

/-- The recursion is in each vertex once. -/
structure Upright (v : Visits β) : Prop where
  inside : ∀ b ∈ v.stack, b ∈ v.entered.map Prod.fst
  nodup : v.stack.Nodup
  entered : ∀ visit ∈ v.entered, (visit.1 :: visit.2).Nodup

theorem descend_upright
    (visited : descend children Visits.enter Visits.leave fuel b v = some v')
    (nodup : (v'.entered.map Prod.fst).Nodup) (start : Upright v) : Upright v' := by
  have keeping : @Keeping β Unit (fun _ => some) (fun _ => some) fun _ => Upright := by
    constructor
    · intro b s v fresh upright
      have once : (b :: v.stack).Nodup :=
        List.nodup_cons.mpr ⟨fun member => fresh (upright.inside b member), upright.nodup⟩
      refine ⟨s, rfl, ?_, once, ?_⟩
      · intro c member
        rcases List.mem_cons.mp member with rfl | member
        · exact List.mem_cons_self
        · exact List.mem_cons_of_mem b (upright.inside c member)
      · intro visit member
        rcases List.mem_cons.mp member with rfl | member
        · exact once
        · exact upright.entered visit member
    · intro b stack entered s upright
      exact ⟨s, rfl, fun c member => upright.inside c (List.mem_cons_of_mem b member),
        (List.nodup_cons.mp upright.nodup).2, upright.entered⟩
  rcases @descend_keeping _ _ _ _ _ _ _ _ () _ _ keeping visited nodup start with ⟨_, _, upright⟩
  exact upright

end Shecc.Traversal
