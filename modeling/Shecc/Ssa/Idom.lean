import Shecc.Ssa.ReversePostOrder
import Shecc.Traversal.IdomPasses

/-!
# Immediate dominators

`build_idom` goes through the blocks along `rpo_next` and gives each the nearest block on the
way up from all its predecessors that have a link, until a pass changes nothing. `build_r_idom`
is the same computation on the edges the other way round.
-/

namespace Shecc.Ssa

open Traversal

/-! ## The computation -/

/-- The blocks in the order of `rpo_next`, or of `rpo_r_next`: the body of the `do` loop. -/
def idomPass (rpo : BlockId → Int) (rpoNext : BlockId → Option BlockId)
    (candidates : BlockId → List BlockId) (fuel : Nat) :
    Nat → Option BlockId → (BlockId → Option BlockId) × Bool →
      Except Halt ((BlockId → Option BlockId) × Bool)
  | 0, _, _ => .error .running
  | _ + 1, none, result => .ok result
  | steps + 1, some bb, (idom, changed) => do
      let pred ← choose rpo idom fuel (candidates bb)
      if idom bb ≠ some pred then
        idomPass rpo rpoNext candidates fuel steps (rpoNext bb)
          (Function.update idom bb (some pred), true)
      else idomPass rpo rpoNext candidates fuel steps (rpoNext bb) (idom, changed)

/-- The `do` loop. -/
def idomLoop (rpo : BlockId → Int) (rpoNext : BlockId → Option BlockId)
    (candidates : BlockId → List BlockId) (fuel : Nat) (first : BlockId) :
    Nat → (BlockId → Option BlockId) → Except Halt (BlockId → Option BlockId)
  | 0, _ => .error .running
  | rounds + 1, idom => do
      let (idom, changed) ←
        idomPass rpo rpoNext candidates fuel fuel (rpoNext first) (idom, false)
      if changed then idomLoop rpo rpoNext candidates fuel first rounds idom else .ok idom

/-- `intersect`. -/
def intersect (s : State) (fuel : Nat) : BlockId → BlockId → Except Halt BlockId :=
  meet s.rpo s.idom fuel fuel

/-- `build_idom` for a function. -/
def buildIdom (f : Func) (fuel : Nat) (s : State) : Except Halt State := do
  let idom ← idomLoop s.rpo s.rpoNext f.predecessors fuel f.bbs fuel
    (Function.update s.idom f.bbs (some f.bbs))
  return { s with idom := idom }

section Passes

variable {rpo : BlockId → Int} {rpoNext : BlockId → Option BlockId}
  {candidates : BlockId → List BlockId} {list : List BlockId} {prev first : BlockId} {fuel : Nat}

theorem idomPass_eq_sweep {steps : Nat} (links : Links rpoNext prev list)
    (enough : list.length < steps) (result : (BlockId → Option BlockId) × Bool) :
    idomPass rpo rpoNext candidates fuel steps (rpoNext prev) result =
      Traversal.sweep rpo candidates fuel list result := by
  induction list generalizing prev steps result with
  | nil =>
      cases steps with
      | zero => cases enough
      | succ steps =>
          have isNext : rpoNext prev = none := links
          rw [isNext]
          rfl
  | cons bb rest inductionHypothesis =>
      cases steps with
      | zero => cases enough
      | succ steps =>
          rcases result with ⟨idom, changed⟩
          have others := inductionHypothesis links.2 (Nat.lt_of_succ_lt_succ enough)
          rw [links.1, idomPass, Traversal.sweep]
          simp only [others]

theorem idomLoop_eq_iterate (links : Links rpoNext first list) (enough : list.length < fuel)
    (rounds : Nat) (idom : BlockId → Option BlockId) :
    idomLoop rpo rpoNext candidates fuel first rounds idom =
      Traversal.iterate rpo candidates fuel list rounds idom := by
  induction rounds generalizing idom with
  | zero => rfl
  | succ rounds inductionHypothesis =>
      rw [idomLoop, Traversal.iterate, idomPass_eq_sweep links enough]
      simp only [inductionHypothesis]

end Passes

/-! ## The blocks of a function -/

/-- The blocks of a function are all within reach of its entry, and `prev` has the edges the other
way round. -/
structure Func.AllReachable (f : Func) (blocks : List BlockId) : Prop where
  mem_iff : ∀ bb, bb ∈ blocks ↔ f.Reachable bb
  mirrored : ∀ bb ∈ blocks, ∀ p, p ∈ f.predecessors bb ↔ p ∈ blocks ∧ bb ∈ f.successors p

/-- Between blocks within reach `prev` has the edges the other way round. -/
def Func.Mirrored (f : Func) : Prop :=
  ∀ bb p, f.Reachable bb → f.Reachable p → (p ∈ f.predecessors bb ↔ bb ∈ f.successors p)

section Build

variable {f : Func} {blocks : List BlockId} {t : Tour BlockId} {s : State} {fuel : Nat}

theorem Func.AllReachable.finite (graph : f.AllReachable blocks) (bb : BlockId)
    (reachable : f.Reachable bb) : bb ∈ blocks := (graph.mem_iff bb).mpr reachable

theorem Func.AllReachable.toMirrored (graph : f.AllReachable blocks) : f.Mirrored := by
  intro bb p reachable reachableP
  rw [graph.mirrored bb (graph.finite bb reachable)]
  exact and_iff_right (graph.finite p reachableP)

section Graph

variable {edges preds : BlockId → List BlockId} {root : BlockId}

theorem NumberedFrom.length_le (numbered : NumberedFrom edges root t s)
    (finite : ∀ bb, Traversal.Reaches edges root bb → bb ∈ blocks) :
    t.left.length ≤ blocks.length :=
  (List.subperm_of_subset numbered.toured.nodup fun bb member =>
    finite bb (numbered.mem_iff.mp member)).length_le

/-- The numbers of a block within reach are those of the list. -/
theorem NumberedFrom.rpo_le (numbered : NumberedFrom edges root t s) {bb : BlockId}
    (reaches : Traversal.Reaches edges root bb) : 0 < s.rpo bb ∧ s.rpo bb ≤ t.left.length := by
  rcases List.append_of_mem (numbered.mem_iff.mpr reaches) with ⟨front, back, isLeft⟩
  rw [numbered.number front bb back isLeft, isLeft, List.length_append, List.length_cons]
  omega

theorem NumberedFrom.rpo_root (numbered : NumberedFrom edges root t s) : s.rpo root = 1 :=
  numbered.number [] root t.left.tail numbered.left_eq

theorem NumberedFrom.ranked (numbered : NumberedFrom edges root t s)
    (mirrored : ∀ bb p, Traversal.Reaches edges root bb → Traversal.Reaches edges root p →
      (p ∈ preds bb ↔ bb ∈ edges p))
    (finite : ∀ bb, Traversal.Reaches edges root bb → bb ∈ blocks) :
    Ranked edges preds root s.rpo blocks.length where
  mem_preds := mirrored
  nonneg := Int.le_of_lt (numbered.rpo_le (Traversal.Reaches.refl root)).1
  bounded := by
    intro bb reaches
    have := (numbered.rpo_le reaches).2
    have := numbered.length_le finite
    omega
  injective := fun _ _ => numbered.injective
  root_lt := by
    intro bb reaches differ
    have positive := (numbered.rpo_le reaches).1
    have notOne : s.rpo bb ≠ 1 := fun isOne => differ
      (numbered.injective reaches (Traversal.Reaches.refl root)
        (isOne.trans numbered.rpo_root.symm))
    rw [numbered.rpo_root]
    omega
  parent := fun _ => numbered.parent

theorem NumberedFrom.covers (numbered : NumberedFrom edges root t s) :
    Covers edges root s.rpo t.left.tail := by
  have nodup := numbered.toured.nodup
  rw [numbered.left_eq] at nodup
  constructor
  · exact numbered.number.pairwise.sublist (List.tail_sublist _)
  · intro bb
    constructor
    · intro member
      refine ⟨numbered.mem_iff.mp (List.mem_of_mem_tail member), ?_⟩
      rintro rfl
      exact (List.nodup_cons.mp nodup).1 member
    · rintro ⟨reaches, differ⟩
      have member := numbered.mem_iff.mpr reaches
      rw [numbered.left_eq] at member
      exact (List.mem_cons.mp member).resolve_left differ

end Graph

/-- The links before the first pass: only the entry has one. -/
theorem linked_start (edges : BlockId → List BlockId) (root : BlockId) (number : BlockId → Int)
    {idom : BlockId → Option BlockId} (unlinked : ∀ bb, idom bb = none) :
    Linked edges root number (Function.update idom root (some root)) := by
  have onlyRoot : ∀ {P : Prop} b d, Function.update idom root (some root) b = some d →
      b ≠ root → P := by
    intro P b d link differ
    rw [Function.update_of_ne differ, unlinked] at link
    cases link
  have isRoot : ∀ b d, Function.update idom root (some root) b = some d → b = root ∧ d = root := by
    intro b d link
    by_cases same : b = root
    · rw [same, Function.update_self] at link
      exact ⟨same, (Option.some.inj link).symm⟩
    · exact onlyRoot b d link same
  constructor
  · exact Function.update_self _ _ _
  · intro b d link
    rw [(isRoot b d link).1]
    exact Traversal.Reaches.refl root
  · intro b d link
    exact ⟨root, (isRoot b d link).2 ▸ Function.update_self _ _ _⟩
  · exact fun b d link => onlyRoot b d link
  · exact fun b d link => onlyRoot b d link
  · exact fun b d link => onlyRoot b d link

/-- The `do` loop ends, and the links are to the immediate dominators. -/
theorem idomLoop_linked {edges preds : BlockId → List BlockId} {root : BlockId}
    {idom₀ : BlockId → Option BlockId} (numbered : NumberedFrom edges root t s)
    (mirrored : ∀ bb p, Traversal.Reaches edges root bb → Traversal.Reaches edges root p →
      (p ∈ preds bb ↔ bb ∈ edges p))
    (finite : ∀ bb, Traversal.Reaches edges root bb → bb ∈ blocks)
    (unlinked : ∀ bb, idom₀ bb = none)
    (enough : 2 * blocks.length + 1 < fuel) :
    ∃ idom, idomLoop s.rpo s.rpoNext preds fuel root fuel
        (Function.update idom₀ root (some root)) = .ok idom ∧
      Linked edges root s.rpo idom ∧
      ∀ bb, Traversal.Reaches edges root bb → bb ≠ root →
        ∃ d, idom bb = some d ∧ ImmediatelyDominates edges root d bb := by
  have length := numbered.length_le finite
  rw [numbered.left_eq, List.length_cons] at length
  rcases Traversal.iterate_spec (numbered.ranked mirrored finite) numbered.covers
    (show 2 * blocks.length < fuel by omega)
    (Passes.start (linked_start edges root s.rpo unlinked)) (Nat.zero_le _)
    (show t.left.tail.length + 1 < fuel + 0 by omega) with ⟨idom, iterated, linked, immediate⟩
  refine ⟨idom, ?_, linked, immediate⟩
  rw [idomLoop_eq_iterate numbered.links (by omega), iterated]

/-- `build_idom` ends, and the links are to the immediate dominators. -/
theorem buildIdom_linked (numbered : Numbered f t s) (mirrored : f.Mirrored)
    (finite : ∀ bb, f.Reachable bb → bb ∈ blocks) (unlinked : ∀ bb, s.idom bb = none)
    (enough : 2 * blocks.length + 1 < fuel) :
    ∃ idom, buildIdom f fuel s = .ok { s with idom := idom } ∧
      Linked f.successors f.bbs s.rpo idom ∧
      ∀ bb, f.Reachable bb → bb ≠ f.bbs →
        ∃ d, idom bb = some d ∧ ImmediatelyDominates f.successors f.bbs d bb := by
  rcases idomLoop_linked numbered mirrored finite unlinked enough with
    ⟨idom, ran, linked, immediate⟩
  refine ⟨idom, ?_, linked, immediate⟩
  rw [buildIdom, ran]
  rfl

end Build

/-- With the numbers of `build_rpo`, `build_idom` comes to an end without following a missing link,
and links every other block than the entry to its one immediate dominator. -/
theorem buildIdom_immediate {f : Func} {blocks : List BlockId} {s : State} {fuel : Nat}
    (graph : f.AllReachable blocks) (unnumbered : s.Unnumbered f)
    (unlinked : ∀ bb, s.idom bb = none) (enough : 2 * blocks.length + 1 < fuel) :
    ∃ s₁ s₂, buildRpo f fuel s = some s₁ ∧ buildIdom f fuel s₁ = .ok s₂ ∧
      ∀ bb ∈ blocks, bb ≠ f.bbs → ∃ d, s₂.idom bb = some d ∧
        ImmediatelyDominates f.successors f.bbs d bb ∧
        ∀ e, ImmediatelyDominates f.successors f.bbs e bb → e = d := by
  rcases buildRpo_numbered (fun bb => (graph.mem_iff bb).mpr) (show blocks.length < fuel by omega)
    unnumbered with ⟨t, s₁, _, built, numbered, _, renumbers⟩
  have unlinked₁ : ∀ bb, s₁.idom bb = none := by
    intro bb
    rw [renumbers.links.1]
    exact unlinked bb
  rcases buildIdom_linked numbered graph.toMirrored graph.finite unlinked₁ enough with
    ⟨idom, builtIdom, _, immediate⟩
  refine ⟨s₁, _, built, builtIdom, ?_⟩
  intro bb member differ
  have reachable := (graph.mem_iff bb).mp member
  rcases immediate bb reachable differ with ⟨d, link, isImmediate⟩
  exact ⟨d, link, isImmediate, fun e other => other.unique reachable isImmediate⟩

theorem loopFunc_allReachable : loopFunc.AllReachable [0, 1, 2, 3] := by
  have entry := loopFunc.reachable_entry
  have one : loopFunc.Reachable 1 := entry.successor List.mem_cons_self
  have two : loopFunc.Reachable 2 := entry.successor (List.mem_cons_of_mem 1 List.mem_cons_self)
  have three : loopFunc.Reachable 3 := two.successor (List.mem_cons_of_mem 1 List.mem_cons_self)
  constructor
  · intro bb
    refine ⟨fun member => ?_, loopFunc_blocks bb⟩
    simp only [List.mem_cons, List.not_mem_nil, or_false] at member
    rcases member with rfl | rfl | rfl | rfl
    · exact entry
    · exact one
    · exact two
    · exact three
  · intro bb member p
    have inList : ∀ bb ∈ [0, 1, 2, 3], ∀ p ∈ loopFunc.predecessors bb,
        p ∈ [0, 1, 2, 3] ∧ bb ∈ loopFunc.successors p := by decide
    have inPrev : ∀ bb ∈ [0, 1, 2, 3], ∀ p ∈ [0, 1, 2, 3], bb ∈ loopFunc.successors p →
        p ∈ loopFunc.predecessors bb := by decide
    exact ⟨inList bb member p, fun both => inPrev bb member p both.1 both.2⟩

/-- Neither block of the loop with two ways in dominates the other. -/
theorem loopFunc_immediate : ∃ s₁ s₂, buildRpo loopFunc 10 initialState = some s₁ ∧
    buildIdom loopFunc 10 s₁ = .ok s₂ ∧
    ∀ bb ∈ [0, 1, 2, 3], bb ≠ loopFunc.bbs → ∃ d, s₂.idom bb = some d ∧
      ImmediatelyDominates loopFunc.successors loopFunc.bbs d bb ∧
      ∀ e, ImmediatelyDominates loopFunc.successors loopFunc.bbs e bb → e = d :=
  buildIdom_immediate loopFunc_allReachable (initialState_unnumbered loopFunc) (fun _ => rfl)
    (by decide)

end Shecc.Ssa
