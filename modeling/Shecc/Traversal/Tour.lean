import Shecc.Traversal.Route
import Mathlib.Data.List.Perm.Subperm

/-!
# The depth-first search

A walk whose due vertices are those not entered is the depth-first search. The file proves
that it ends, in which orders it enters and leaves the vertices, and that a walk over another
state that agrees on what is due follows it.
-/

namespace Shecc.Traversal

variable {β σ : Type}

/-- The vertices entered and the vertices left, the latest first. -/
structure Tour (β : Type) where
  entered : List β := []
  left : List β := []

def Tour.enter (t : Tour β) (b : β) : Tour β := { t with entered := b :: t.entered }

def Tour.leave (t : Tour β) (b : β) : Tour β := { t with left := b :: t.left }

def Tour.isDue [DecidableEq β] (t : Tour β) (b : β) : Bool := b ∉ t.entered

/-- The depth-first search from a vertex. -/
def tour [DecidableEq β] (edges : β → List β) : Nat → β → Tour β → Option (Tour β) :=
  walk edges Tour.isDue (fun b t => some (t.enter b)) fun b t => some (t.leave b)

/-- The edge leads to a vertex that was entered no later and left no earlier: one the search is
still in when it comes along the edge. -/
def Tour.BackEdge (t : Tour β) (b c : β) : Prop :=
  c = b ∨ [b, c].Sublist t.entered ∧ [c, b].Sublist t.left

section Searching

variable {edges : β → List β} {root b c p : β} {stack bs vertices : List β} {t t' : Tour β}
  {due : σ → β → Bool} {pre post : β → σ → Option σ} {s : σ} {fuel : Nat}

/-- A search in progress. The stack is a route; a vertex that was left has its edges to vertices
left before it or entered before it, and was entered from a vertex that is left later. -/
structure Touring (edges : β → List β) (root : β) (stack : List β) (t : Tour β) : Prop where
  nodup : t.entered.Nodup
  perm : t.entered.Perm (stack ++ t.left)
  inOrder : stack.Sublist t.entered
  route : stack = [] ∨ Route edges root stack
  reached : ∀ b ∈ t.entered, Reaches edges root b
  edge : ∀ b ∈ t.left, ∀ c ∈ edges b,
    [b, c].Sublist t.left ∨ c = b ∨ [b, c].Sublist t.entered
  parent : ∀ b ∈ t.left, b = root ∨ ∃ p, b ∈ edges p ∧ (p ∈ stack ∨ [p, b].Sublist t.left)

theorem touring_empty (edges : β → List β) (root : β) : Touring edges root [] ({} : Tour β) where
  nodup := List.nodup_nil
  perm := List.Perm.refl _
  inOrder := List.Sublist.refl _
  route := Or.inl rfl
  reached := fun _ member => (List.not_mem_nil member).elim
  edge := fun _ member => (List.not_mem_nil member).elim
  parent := fun _ member => (List.not_mem_nil member).elim

namespace Touring

theorem mem_entered_iff (touring : Touring edges root stack t) :
    b ∈ t.entered ↔ b ∈ stack ∨ b ∈ t.left := by
  rw [touring.perm.mem_iff, List.mem_append]

theorem nodup_append (touring : Touring edges root stack t) : (stack ++ t.left).Nodup :=
  touring.perm.nodup_iff.mp touring.nodup

/-- The vertex on the stack was not left. -/
theorem notLeft (touring : Touring edges root (b :: stack) t) : b ∉ t.left := by
  intro member
  exact (List.nodup_append.mp touring.nodup_append).2.2 b List.mem_cons_self b member rfl

theorem enter (touring : Touring edges root stack t) (route : Route edges root (b :: stack))
    (fresh : b ∉ t.entered) : Touring edges root (b :: stack) (t.enter b) where
  nodup := List.nodup_cons.mpr ⟨fresh, touring.nodup⟩
  perm := touring.perm.cons b
  inOrder := touring.inOrder.cons_cons b
  route := Or.inr route
  reached := by
    intro c member
    rcases List.mem_cons.mp member with rfl | member
    · exact route.reaches
    · exact touring.reached c member
  edge := by
    intro c member d edge
    rcases touring.edge c member d edge with before | same | entered
    · exact Or.inl before
    · exact Or.inr (Or.inl same)
    · exact Or.inr (Or.inr (entered.cons b))
  parent := by
    intro c member
    rcases touring.parent c member with isRoot | ⟨p, edge, onStack | later⟩
    · exact Or.inl isRoot
    · exact Or.inr ⟨p, edge, Or.inl (List.mem_cons_of_mem b onStack)⟩
    · exact Or.inr ⟨p, edge, Or.inr later⟩

/-- The innermost vertex is left when the ends of its edges were entered. -/
theorem leave (touring : Touring edges root (b :: stack) t) (all : edges b ⊆ t.entered) :
    Touring edges root stack (t.leave b) where
  nodup := touring.nodup
  perm := touring.perm.trans List.perm_middle.symm
  inOrder := (List.sublist_cons_self b stack).trans touring.inOrder
  route := by
    cases stack with
    | nil => exact Or.inl rfl
    | cons p stack =>
        rcases touring.route with ⟨⟨⟩⟩ | route
        exact Or.inr route.tail
  reached := touring.reached
  edge := by
    intro c member d edge
    rcases List.mem_cons.mp member with rfl | member
    · rcases touring.mem_entered_iff.mp (all edge) with onStack | isLeft
      · rcases List.mem_cons.mp onStack with rfl | onStack
        · exact Or.inr (Or.inl rfl)
        · apply Or.inr (Or.inr _)
          exact ((List.singleton_sublist.mpr onStack).cons_cons c).trans touring.inOrder
      · exact Or.inl ((List.singleton_sublist.mpr isLeft).cons_cons c)
    · rcases touring.edge c member d edge with before | same | entered
      · exact Or.inl (before.cons b)
      · exact Or.inr (Or.inl same)
      · exact Or.inr (Or.inr entered)
  parent := by
    intro c member
    rcases List.mem_cons.mp member with rfl | isLeft
    · rcases touring.route with ⟨⟨⟩⟩ | route
      cases route with
      | start => exact Or.inl rfl
      | step route edge => exact Or.inr ⟨_, edge, Or.inl List.mem_cons_self⟩
    · rcases touring.parent c isLeft with isRoot | ⟨p, edge, onStack | later⟩
      · exact Or.inl isRoot
      · rcases List.mem_cons.mp onStack with rfl | onStack
        · exact Or.inr ⟨p, edge, Or.inr ((List.singleton_sublist.mpr isLeft).cons_cons p)⟩
        · exact Or.inr ⟨p, edge, Or.inl onStack⟩
      · exact Or.inr ⟨p, edge, Or.inr (later.cons b)⟩

theorem length_le (touring : Touring edges root stack t)
    (all : ∀ c, Reaches edges root c → c ∈ vertices) : t.entered.length ≤ vertices.length :=
  (List.subperm_of_subset touring.nodup fun c member =>
    all c (touring.reached c member)).length_le

end Touring

/-! ## The whole search -/

/-- A search from the root has come to its end. -/
structure Toured (edges : β → List β) (root : β) (t : Tour β) : Prop where
  touring : Touring edges root [] t
  last : ∃ rest, t.left = root :: rest

/-- Of two elements one comes first. -/
theorem pair_sublist_or {list : List β} (member : b ∈ list) (other : c ∈ list) (differ : c ≠ b) :
    [b, c].Sublist list ∨ [c, b].Sublist list := by
  rcases List.append_of_mem member with ⟨front, back, rfl⟩
  rcases List.mem_append.mp other with inFront | inBack
  · right
    exact (List.singleton_sublist.mpr inFront).append
      (List.singleton_sublist.mpr List.mem_cons_self)
  · rcases List.mem_cons.mp inBack with same | inBack
    · exact (differ same).elim
    · left
      exact ((List.singleton_sublist.mpr inBack).cons_cons b).trans
        (List.sublist_append_right front _)

namespace Toured

theorem nodup (toured : Toured edges root t) : t.left.Nodup := toured.touring.nodup_append

/-- The vertices left are those within reach. -/
theorem mem_left_iff (toured : Toured edges root t) : b ∈ t.left ↔ Reaches edges root b := by
  constructor
  · intro member
    exact toured.touring.reached b (toured.touring.mem_entered_iff.mpr (Or.inr member))
  · intro reaches
    induction reaches with
    | refl =>
        rcases toured.last with ⟨rest, last⟩
        rw [last]
        exact List.mem_cons_self
    | @tail p b _ edge inductionHypothesis =>
        rcases toured.touring.edge p inductionHypothesis b edge with before | rfl | entered
        · exact before.subset (List.mem_cons_of_mem p List.mem_cons_self)
        · exact inductionHypothesis
        · have member : b ∈ t.entered := entered.subset (List.mem_cons_of_mem p List.mem_cons_self)
          rcases toured.touring.mem_entered_iff.mp member with ⟨⟨⟩⟩ | isLeft
          exact isLeft

theorem mem_entered_iff (toured : Toured edges root t) : b ∈ t.entered ↔ Reaches edges root b := by
  rw [toured.touring.mem_entered_iff, ← toured.mem_left_iff]
  exact or_iff_right List.not_mem_nil

/-- The end of an edge is left before its start, unless it is a back edge. -/
theorem edge (toured : Toured edges root t) (reaches : Reaches edges root b)
    (edge : c ∈ edges b) : [b, c].Sublist t.left ∨ t.BackEdge b c := by
  have member := toured.mem_left_iff.mpr reaches
  rcases toured.touring.edge b member c edge with before | same | entered
  · exact Or.inl before
  · exact Or.inr (Or.inl same)
  · by_cases differ : c = b
    · exact Or.inr (Or.inl differ)
    rcases pair_sublist_or member (toured.mem_left_iff.mpr (reaches.tail edge)) differ with
      before | after
    · exact Or.inl before
    · exact Or.inr (Or.inr ⟨entered, after⟩)

/-- There is an edge to every other vertex than the root from one left later. -/
theorem parent (toured : Toured edges root t) (reaches : Reaches edges root b)
    (differ : b ≠ root) : ∃ p, b ∈ edges p ∧ [p, b].Sublist t.left := by
  rcases toured.touring.parent b (toured.mem_left_iff.mpr reaches) with
    same | ⟨p, edge, ⟨⟨⟩⟩ | later⟩
  · exact (differ same).elim
  · exact ⟨p, edge, later⟩

end Toured

/-! ## A walk that follows the search -/

section Following

variable [DecidableEq β] {holds : σ → Tour β → Prop}

/-- A walk over another state agrees with the search on what is due, or is over wherever the search
gets to; and its work keeps the relation of the two states. -/
structure Follows (edges : β → List β) (root : β) (due : σ → β → Bool)
    (pre post : β → σ → Option σ) (holds : σ → Tour β → Prop) : Prop where
  due : ∀ b s t, Reaches edges root b → holds s t →
    due s b = t.isDue b ∨ due s b = false ∧ ∀ t', holds s t'
  enters : ∀ b stack s t, Touring edges root stack t → Route edges root (b :: stack) →
    b ∉ t.entered → holds s t → ∃ s', pre b s = some s' ∧ holds s' (t.enter b)
  leaves : ∀ b stack s t, Touring edges root (b :: stack) t → edges b ⊆ t.entered → holds s t →
    ∃ s', post b s = some s' ∧ holds s' (t.leave b)

/-- Where the search and the walk get to together. -/
structure Together (edges : β → List β) (root : β) (stack : List β) (holds : σ → Tour β → Prop)
    (bs : List β) (t : Tour β) (search : Option (Tour β)) (walked : Option σ) : Prop where
  meet : ∃ t' s', search = some t' ∧ walked = some s' ∧ holds s' t' ∧
    Touring edges root stack t' ∧ t.entered ⊆ t'.entered ∧ bs ⊆ t'.entered

theorem walkAll_follows {goTour : β → Tour β → Option (Tour β)} {go : β → σ → Option σ}
    (agree : ∀ c ∈ bs, ∀ s t, holds s t →
      due s c = t.isDue c ∨ due s c = false ∧ ∀ t', holds s t')
    (going : ∀ c ∈ bs, ∀ s t₁, Touring edges root stack t₁ → holds s t₁ → c ∉ t₁.entered →
      t.entered.length ≤ t₁.entered.length →
        Together edges root stack holds [c] t₁ (goTour c t₁) (go c s))
    {t₁ : Tour β} (touring : Touring edges root stack t₁) (related : holds s t₁)
    (grown : t.entered.length ≤ t₁.entered.length) :
    Together edges root stack holds bs t₁ (walkAll goTour Tour.isDue bs t₁)
      (walkAll go due bs s) := by
  induction bs generalizing s t₁ with
  | nil =>
      exact ⟨⟨t₁, s, rfl, rfl, related, touring, List.Subset.refl _, List.nil_subset _⟩⟩
  | cons c rest inductionHypothesis =>
      have one : Together edges root stack holds [c] t₁ (walkOn goTour Tour.isDue c t₁)
          (walkOn go due c s) := by
        have notDue : t₁.isDue c ≠ true → c ∈ t₁.entered := by
          intro notDue
          rwa [ne_eq, Bool.not_eq_true, Tour.isDue, decide_eq_false_iff_not, not_not] at notDue
        have stay : c ∈ t₁.entered →
            Together edges root stack holds [c] t₁ (some t₁) (some s) := fun member =>
          ⟨⟨t₁, s, rfl, rfl, related, touring, List.Subset.refl _,
            fun d same => List.mem_singleton.mp same ▸ member⟩⟩
        have onward : t₁.isDue c = true →
            Together edges root stack holds [c] t₁ (goTour c t₁) (go c s) := fun isDue =>
          going c List.mem_cons_self s t₁ touring related (of_decide_eq_true isDue) grown
        rw [walkOn, walkOn]
        rcases agree c List.mem_cons_self s t₁ related with same | ⟨isOver, always⟩
        · rw [same]
          by_cases isDue : t₁.isDue c = true
          · rw [if_pos isDue, if_pos isDue]
            exact onward isDue
          · rw [if_neg isDue, if_neg isDue]
            exact stay (notDue isDue)
        · rw [isOver]
          by_cases isDue : t₁.isDue c = true
          · rw [if_pos isDue]
            rcases (onward isDue).meet with ⟨t₂, _, searched, -, -, touring₂, grows, members⟩
            exact ⟨⟨t₂, s, searched, rfl, always t₂, touring₂, grows, members⟩⟩
          · rw [if_neg isDue]
            exact stay (notDue isDue)
      rcases one.meet with ⟨t₂, s₂, searched, walked, related₂, touring₂, grows, member⟩
      have longer : t₁.entered.length ≤ t₂.entered.length :=
        (List.subperm_of_subset touring.nodup grows).length_le
      have others := inductionHypothesis
        (fun d memberRest => agree d (List.mem_cons_of_mem c memberRest))
        (fun d memberRest => going d (List.mem_cons_of_mem c memberRest)) touring₂ related₂
        (Nat.le_trans grown longer)
      rcases others.meet with ⟨t₃, s₃, searched', walked', related₃, touring₃, grows', members⟩
      refine ⟨⟨t₃, s₃, ?_, ?_, related₃, touring₃, List.Subset.trans grows grows', ?_⟩⟩
      · exact Option.bind_eq_some_iff.mpr ⟨t₂, searched, searched'⟩
      · exact walkAll_cons_eq_some_iff.mpr ⟨s₂, walked, walked'⟩
      · exact List.cons_subset.mpr ⟨grows' (member List.mem_cons_self), members⟩

/-- With fuel for the vertices that were not entered the search ends, and the walk with it. -/
theorem walk_follows (follows : Follows edges root due pre post holds)
    (all : ∀ c, Reaches edges root c → c ∈ vertices) (touring : Touring edges root stack t)
    (route : Route edges root (b :: stack)) (fresh : b ∉ t.entered) (related : holds s t)
    (enough : vertices.length < fuel + t.entered.length) :
    Together edges root stack holds [b] t (tour edges fuel b t)
      (walk edges due pre post fuel b s) := by
  induction fuel generalizing b stack s t with
  | zero =>
      have := touring.length_le all
      omega
  | succ fuel inductionHypothesis =>
      rcases follows.enters b stack s t touring route fresh related with ⟨s₁, entered, related₁⟩
      have touring₁ := touring.enter route fresh
      have children : Together edges root (b :: stack) holds (edges b) (t.enter b)
          (walkAll (tour edges fuel) Tour.isDue (edges b) (t.enter b))
          (walkAll (walk edges due pre post fuel) due (edges b) s₁) :=
        walkAll_follows (t := t.enter b)
        (fun c edge s t related => follows.due c s t (route.step edge).reaches related)
        (fun c edge s₂ t₂ touring₂ related₂ fresh₂ grown => inductionHypothesis touring₂
          (route.step edge) fresh₂ related₂ (by
            simp only [Tour.enter, List.length_cons] at grown
            omega))
        touring₁ related₁ (Nat.le_refl _)
      rcases children.meet with ⟨t₂, s₂, searched, walked, related₂, touring₂, grows, members⟩
      rcases follows.leaves b stack s₂ t₂ touring₂ members related₂ with ⟨s₃, isLeft, related₃⟩
      refine ⟨⟨t₂.leave b, s₃, ?_, ?_, related₃, touring₂.leave members, ?_, ?_⟩⟩
      · exact walk_succ_eq_some_iff.mpr ⟨t.enter b, rfl, t₂, searched, rfl⟩
      · exact walk_succ_eq_some_iff.mpr ⟨s₁, entered, s₂, walked, isLeft⟩
      · exact fun c member => grows (List.mem_cons_of_mem b member)
      · intro c same
        rw [List.mem_singleton.mp same]
        exact grows List.mem_cons_self

/-- A vertex is the latest to be left at the end of the search from it. -/
theorem tour_left (searched : tour edges fuel b t = some t') : ∃ rest, t'.left = b :: rest := by
  cases fuel with
  | zero => cases searched
  | succ fuel =>
      rcases walk_succ_eq_some_iff.mp searched with ⟨_, _, middle, _, isLeft⟩
      cases isLeft
      exact ⟨middle.left, rfl⟩

/-- The search from the root ends, and the walk with it. -/
theorem walk_follows_root (follows : Follows edges root due pre post holds)
    (all : ∀ c, Reaches edges root c → c ∈ vertices) (related : holds s {})
    (enough : vertices.length < fuel) :
    ∃ t s', tour edges fuel root {} = some t ∧ walk edges due pre post fuel root s = some s' ∧
      holds s' t ∧ Toured edges root t := by
  have together := walk_follows follows all (touring_empty edges root) .start
    List.not_mem_nil related (Nat.lt_of_lt_of_le enough (Nat.le_add_right _ _))
  rcases together.meet with ⟨t, s', searched, walked, related', touring, _, _⟩
  exact ⟨t, s', searched, walked, related', touring, tour_left searched⟩

end Following

end Searching

end Shecc.Traversal
