import Shecc.Traversal.Core
import Mathlib.Data.List.Nodup

/-!
# Routes and dominance

A route is a path from the root of a graph. A vertex dominates another if it is on every route
to it; the immediate dominator is the nearest of the others that do.
-/

namespace Shecc.Traversal

variable {β : Type}

/-- A path from the root, the latest vertex first. -/
inductive Route (edges : β → List β) (root : β) : List β → Prop
  | start : Route edges root [root]
  | step {b p : β} {rest : List β} : Route edges root (p :: rest) → b ∈ edges p →
      Route edges root (b :: p :: rest)

/-- Every route to the second goes through the first. -/
def Dominates (edges : β → List β) (root a b : β) : Prop :=
  ∀ rest, Route edges root (b :: rest) → a ∈ b :: rest

/-- It dominates the vertex and is another. -/
def StrictlyDominates (edges : β → List β) (root a b : β) : Prop :=
  a ≠ b ∧ Dominates edges root a b

/-- It strictly dominates the vertex, and every strict dominator of the vertex dominates it. -/
structure ImmediatelyDominates (edges : β → List β) (root d b : β) : Prop where
  strictly : StrictlyDominates edges root d b
  nearest : ∀ a, StrictlyDominates edges root a b → Dominates edges root a d

section Routes

variable {edges : β → List β} {root a b c d p : β} {front rest : List β}

theorem Route.reaches (route : Route edges root (b :: rest)) : Reaches edges root b := by
  induction rest generalizing b with
  | nil =>
      cases route
      exact Reaches.refl _
  | cons p rest inductionHypothesis =>
      cases route with
      | step route edge => exact (inductionHypothesis route).tail edge

theorem Reaches.route (reaches : Reaches edges root b) : ∃ rest, Route edges root (b :: rest) := by
  induction reaches with
  | refl => exact ⟨[], .start⟩
  | tail _ edge inductionHypothesis =>
      rcases inductionHypothesis with ⟨rest, route⟩
      exact ⟨_, route.step edge⟩

theorem Route.tail (route : Route edges root (b :: p :: rest)) : Route edges root (p :: rest) := by
  cases route with
  | step route _ => exact route

theorem Route.edge (route : Route edges root (b :: p :: rest)) : b ∈ edges p := by
  cases route with
  | step _ edge => exact edge

/-- The part of a route up to a vertex is a route to it. -/
theorem Route.upTo (route : Route edges root (front ++ b :: rest)) :
    Route edges root (b :: rest) := by
  induction front with
  | nil => exact route
  | cons c front inductionHypothesis =>
      cases front with
      | nil => exact route.tail
      | cons p front => exact inductionHypothesis route.tail

theorem Route.of_mem {route : List β} (isRoute : Route edges root route) (member : b ∈ route) :
    ∃ rest, Route edges root (b :: rest) ∧ b :: rest <:+ route := by
  rcases List.append_of_mem member with ⟨front, rest, rfl⟩
  exact ⟨rest, isRoute.upTo, List.suffix_append front (b :: rest)⟩

theorem Route.root_mem {route : List β} (isRoute : Route edges root route) : root ∈ route := by
  induction isRoute with
  | start => exact List.mem_singleton_self root
  | step _ _ inductionHypothesis => exact List.mem_cons_of_mem _ inductionHypothesis

/-- A route without its detours. -/
theorem Route.exists_nodup [DecidableEq β] (route : Route edges root (b :: rest)) :
    ∃ rest', Route edges root (b :: rest') ∧ (b :: rest').Nodup ∧ rest' ⊆ rest := by
  induction rest generalizing b with
  | nil => exact ⟨[], route, List.nodup_singleton b, List.Subset.refl _⟩
  | cons p rest inductionHypothesis =>
      rcases inductionHypothesis route.tail with ⟨rest', route', nodup, smaller⟩
      by_cases member : b ∈ p :: rest'
      · rcases route'.of_mem member with ⟨rest'', route'', suffix⟩
        refine ⟨rest'', route'', nodup.sublist suffix.sublist, ?_⟩
        intro c memberRest
        rcases List.mem_cons.mp (suffix.subset (List.mem_cons_of_mem b memberRest)) with
          rfl | memberRest
        · exact List.mem_cons_self
        · exact List.mem_cons_of_mem p (smaller memberRest)
      · exact ⟨p :: rest', route'.step route.edge, List.nodup_cons.mpr ⟨member, nodup⟩,
          List.cons_subset_cons p smaller⟩

/-! ## Dominance -/

theorem Dominates.refl (b : β) : Dominates edges root b b := fun _ _ => List.mem_cons_self

theorem root_dominates (b : β) : Dominates edges root root b := fun _ route => route.root_mem

/-- Only the root dominates the root. -/
theorem Dominates.eq_root (dominates : Dominates edges root a root) : a = root :=
  List.mem_singleton.mp (dominates [] .start)

theorem Dominates.trans (first : Dominates edges root a b) (second : Dominates edges root b c) :
    Dominates edges root a c := by
  intro rest route
  rcases route.of_mem (second rest route) with ⟨rest', route', suffix⟩
  exact suffix.subset (first rest' route')

/-- What strictly dominates a vertex dominates those before it. -/
theorem StrictlyDominates.before (strictly : StrictlyDominates edges root a b)
    (edge : b ∈ edges p) : Dominates edges root a p := by
  intro rest route
  rcases List.mem_cons.mp (strictly.2 (p :: rest) (route.step edge)) with same | member
  · exact (strictly.1 same).elim
  · exact member

/-- Two vertices of which a route is long enough for both do not dominate each other. -/
theorem Dominates.antisymm_of_length (first : Dominates edges root a b)
    (second : Dominates edges root b a) (length : Nat) :
    ∀ rest, rest.length ≤ length → Route edges root (a :: rest) → a = b := by
  induction length with
  | zero =>
      intro rest short route
      cases List.length_eq_zero_iff.mp (Nat.le_zero.mp short)
      exact (List.mem_singleton.mp (second [] route)).symm
  | succ length inductionHypothesis =>
      intro rest short route
      rcases List.mem_cons.mp (second rest route) with same | member
      · exact same.symm
      rcases List.append_of_mem member with ⟨front, middle, rfl⟩
      have toB : Route edges root (b :: middle) := @Route.upTo _ _ _ _ (a :: front) _ route
      rcases List.mem_cons.mp (first middle toB) with same | member
      · exact same
      rcases List.append_of_mem member with ⟨front', last, rfl⟩
      apply inductionHypothesis last _ (@Route.upTo _ _ _ _ (b :: front') _ toB)
      simp only [List.length_append, List.length_cons] at short
      omega

theorem Dominates.antisymm (reaches : Reaches edges root a) (first : Dominates edges root a b)
    (second : Dominates edges root b a) : a = b := by
  rcases reaches.route with ⟨rest, route⟩
  exact first.antisymm_of_length second rest.length rest (Nat.le_refl _) route

theorem StrictlyDominates.reaches (strictly : StrictlyDominates edges root a b)
    (reaches : Reaches edges root b) : Reaches edges root a := by
  rcases reaches.route with ⟨rest, route⟩
  rcases route.of_mem (strictly.2 rest route) with ⟨_, route', _⟩
  exact route'.reaches

/-- There is only one immediate dominator. -/
theorem ImmediatelyDominates.unique (reaches : Reaches edges root b)
    (first : ImmediatelyDominates edges root c b) (second : ImmediatelyDominates edges root d b) :
    c = d :=
  Dominates.antisymm (first.strictly.reaches reaches) (second.nearest c first.strictly)
    (first.nearest d second.strictly)

end Routes

end Shecc.Traversal
