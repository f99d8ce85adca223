import Mathlib

/-!
# Handing out room in order

Owners get places in a linear order, each behind everything handed out before. Nothing is
shared as long as the end of what is handed out only moves up.
-/

namespace Shecc

variable {ι α : Type*} [LinearOrder α]

/-- The places of every owner lie between `bottom` and `top`, and no place has two owners. -/
structure Packed (bottom top : α) (occupied : ι → Set α) : Prop where
  inside : ∀ i, occupied i ⊆ Set.Ico bottom top
  apart : Pairwise (Function.onFun Disjoint occupied)

namespace Packed

variable {bottom top top' : α} {occupied occupied' : ι → Set α}

/-- Nobody has a place. -/
theorem empty (nobody : ∀ i, occupied i = ∅) : Packed bottom top occupied := by
  constructor
  · intro i
    rw [nobody i]
    exact Set.empty_subset _
  · intro i j _
    change Disjoint (occupied i) (occupied j)
    rw [nobody i]
    exact Set.empty_disjoint _

/-- One owner moves behind the end, which moves up; the others stay or give up places. -/
theorem place (packed : Packed bottom top occupied) (i : ι)
    (others : ∀ j, j ≠ i → occupied' j ⊆ occupied j) (fresh : occupied' i ⊆ Set.Ico top top')
    (low : bottom ≤ top) (up : top ≤ top') : Packed bottom top' occupied' := by
  have behind : ∀ j, j ≠ i → Disjoint (occupied' i) (occupied' j) := by
    intro j other
    rw [Set.disjoint_left]
    intro x mine yours
    exact absurd (packed.inside j (others j other yours)).2 (not_lt.mpr (fresh mine).1)
  constructor
  · intro j x member
    by_cases same : j = i
    · subst same
      exact ⟨low.trans (fresh member).1, (fresh member).2⟩
    · rcases packed.inside j (others j same member) with ⟨above, below⟩
      exact ⟨above, below.trans_le up⟩
  · intro j k different
    by_cases first : j = i
    · subst first
      exact behind k different.symm
    · by_cases second : k = i
      · subst second
        exact (behind j first).symm
      · exact (packed.apart different).mono (others j first) (others k second)

end Packed

end Shecc
