import Shecc.Ssa.Core
import Shecc.Traversal.Counted

/-!
# Visits

A traversal adds one to the count of each block it comes by and goes on to blocks whose count is
below that of the function. A block that an earlier traversal has left out is behind by more than
one, and is come by again each time a block leads to it. The file says exactly when a traversal
runs its callbacks once on every block.
-/

namespace Shecc.Ssa

open Traversal

/-- A pass: one traversal, forward from the entry or backward from the exit. -/
structure Pass where
  f : Func
  backward : Bool
  preorderCb : Callback
  postorderCb : Callback

namespace Pass

def edges (p : Pass) : BlockId → List BlockId :=
  if p.backward then p.f.predecessors else p.f.successors

def root (p : Pass) : BlockId := if p.backward then p.f.exit else p.f.bbs

/-- `func->visited++`, and the traversal. -/
def run (p : Pass) (fuel : Nat) (s : State) : Option State :=
  if p.backward then bbBackwardTraversal p.f p.preorderCb p.postorderCb fuel p.f.exit s.nextPass
  else bbForwardTraversal p.f p.preorderCb p.postorderCb fuel p.f.bbs s.nextPass

end Pass

/-- The calls of the callbacks, the latest first. -/
structure Calls where
  preorder : List BlockId := []
  postorder : List BlockId := []

/-- The pass, with the calls it makes. -/
def Pass.record (p : Pass) (fuel : Nat) (s : State) : Option (State × Calls) :=
  walk p.edges (fun r => r.1.isDue)
    (fun bb r => (p.preorderCb bb (r.1.visit bb)).map fun s =>
      (s, { r.2 with preorder := bb :: r.2.preorder }))
    (fun bb r => (p.postorderCb bb r.1).map fun s =>
      (s, { r.2 with postorder := bb :: r.2.postorder }))
    fuel p.root (s.nextPass, {})

/-- The callbacks come to an end and leave the counts alone. -/
structure Pass.Quiet (p : Pass) : Prop where
  preorder : ∀ bb s, ∃ s', p.preorderCb bb s = some s' ∧ s'.visited = s.visited ∧
    s'.funcVisited = s.funcVisited
  postorder : ∀ bb s, ∃ s', p.postorderCb bb s = some s' ∧ s'.visited = s.visited ∧
    s'.funcVisited = s.funcVisited

/-- Each callback is called once on every block within reach. -/
def Calls.Once (p : Pass) (calls : Calls) : Prop :=
  ∀ bb, Traversal.Reaches p.edges p.root bb →
    calls.preorder.count bb = 1 ∧ calls.postorder.count bb = 1

/-- The block was left out of no earlier pass, or there is only one way to come by it. -/
def State.MetOnce (s : State) (p : Pass) (blocks : List BlockId) (bb : BlockId) : Prop :=
  s.visited bb = s.funcVisited ∨
    edgesTo p.edges blocks bb + (if bb = p.root then 1 else 0) = 1

/-- The states between the passes. What happens there does not touch the counts, but that of a
block that is created is zero. -/
inductive Between : State → Prop
  | start {s : State} : (∀ bb, s.visited bb = 0) → s.funcVisited = 0 → Between s
  | change {s s' : State} : Between s →
      (∀ bb, s'.visited bb = s.visited bb ∨ s'.visited bb = 0) →
        s'.funcVisited = s.funcVisited → Between s'
  | pass {s s' : State} {p : Pass} {fuel : Nat} : Between s → p.Quiet →
      p.run fuel s = some s' → Between s'

section Passes

variable {p : Pass} {s s' : State} {fuel : Nat} {blocks : List BlockId}

theorem Pass.run_eq (p : Pass) (fuel : Nat) (s : State) :
    p.run fuel s = walk p.edges State.isDue (fun bb s => p.preorderCb bb (s.visit bb))
      p.postorderCb fuel p.root s.nextPass := by
  rw [Pass.run, Pass.edges, Pass.root]
  split <;> rfl

/-- Recording the calls changes nothing. -/
theorem Pass.record_run (p : Pass) (fuel : Nat) (s : State) :
    (p.record fuel s).map Prod.fst = p.run fuel s := by
  rw [p.run_eq]
  apply @walk_project _ _ _ _ _ _ _ _ _ _ Prod.fst (fun _ => True) _ fuel p.root _ trivial
  refine ⟨fun _ _ _ => rfl, ?_, ?_, fun _ _ _ _ _ => trivial, fun _ _ _ _ _ => trivial⟩
  · intro bb r _
    show ((p.preorderCb bb (r.1.visit bb)).map _).map _ = p.preorderCb bb (r.1.visit bb)
    cases p.preorderCb bb (r.1.visit bb) <;> rfl
  · intro bb r _
    show ((p.postorderCb bb r.1).map _).map _ = p.postorderCb bb r.1
    cases p.postorderCb bb r.1 <;> rfl

/-- The counts and the calls. -/
def countsOf (r : State × Calls) : Counted BlockId := ⟨r.1.visited, r.2.preorder, r.2.postorder⟩

/-- The counts and the calls of a pass are those of the counting walk. -/
theorem Pass.record_counted (quiet : p.Quiet) (fuel : Nat) (s : State) :
    (p.record fuel s).map countsOf =
      countedWalk p.edges (s.funcVisited + 1) fuel p.root ⟨s.visited, [], []⟩ := by
  apply @walk_project _ _ _ _ _ _ _ _ _ _ countsOf
    (fun r => r.1.funcVisited = s.funcVisited + 1) _ fuel p.root (s.nextPass, {}) rfl
  constructor
  · intro r bb same
    rw [State.isDue, same]
    rfl
  · intro bb r _
    rcases quiet.preorder bb (r.1.visit bb) with ⟨s', ran, visited, _⟩
    rw [ran]
    show some (Counted.mk s'.visited (bb :: r.2.preorder) r.2.postorder) = _
    rw [visited]
    rfl
  · intro bb r _
    rcases quiet.postorder bb r.1 with ⟨s', ran, visited, _⟩
    rw [ran]
    show some (Counted.mk s'.visited r.2.preorder (bb :: r.2.postorder)) = _
    rw [visited]
    rfl
  · intro bb r r' same ran
    rcases quiet.preorder bb (r.1.visit bb) with ⟨s', ran', _, funcVisited⟩
    rw [ran'] at ran
    cases ran
    exact funcVisited.trans same
  · intro bb r r' same ran
    rcases quiet.postorder bb r.1 with ⟨s', ran', _, funcVisited⟩
    rw [ran'] at ran
    cases ran
    exact funcVisited.trans same

/-- A pass adds one to the count of the function. -/
theorem Pass.run_funcVisited (quiet : p.Quiet) (ran : p.run fuel s = some s') :
    s'.funcVisited = s.funcVisited + 1 := by
  rw [p.run_eq] at ran
  refine @walk_good _ _ _ _ _ _ (fun s' => s'.funcVisited = s.funcVisited + 1) ?_ ?_ fuel p.root
    s.nextPass s' rfl ran
  · intro bb s₁ s₂ same ran
    rcases quiet.preorder bb (s₁.visit bb) with ⟨s₃, ran', _, funcVisited⟩
    cases ran'.symm.trans ran
    exact funcVisited.trans same
  · intro bb s₁ s₂ same ran
    rcases quiet.postorder bb s₁ with ⟨s₃, ran', _, funcVisited⟩
    cases ran'.symm.trans ran
    exact funcVisited.trans same

/-- No block is ahead of its function. -/
theorem Between.settled (between : Between s) : s.Settled := by
  induction between with
  | start zero zeroFunc =>
      intro bb
      rw [zero, zeroFunc]
  | change _ same sameFunc inductionHypothesis =>
      intro bb
      rw [sameFunc]
      rcases same bb with same | zero
      · rw [same]
        exact inductionHypothesis bb
      · rw [zero]
        exact Nat.zero_le _
  | @pass s s' p fuel _ quiet ran inductionHypothesis =>
      intro bb
      rw [p.run_funcVisited quiet ran]
      have recorded := p.record_run fuel s
      rw [ran] at recorded
      rcases Option.map_eq_some_iff.mp recorded with ⟨⟨s₁, calls⟩, isRecord, rfl⟩
      have counted := p.record_counted quiet fuel s
      rw [isRecord] at counted
      exact countedWalk_le (fun d => Nat.le_succ_of_le (inductionHypothesis d))
        (Nat.lt_succ_of_le (inductionHypothesis p.root)) counted.symm bb

end Passes

/-- Whatever the passes before have done, a pass comes to an end, and calls its callbacks once on
every block within reach if and only if each was left out of no earlier pass or there is only one
way to come by it. -/
theorem pass_once_iff {s : State} (between : Between s) {p : Pass} (quiet : p.Quiet)
    {blocks : List BlockId} (spans : Spans p.edges p.root blocks) :
    ∃ bound, ∀ fuel, bound < fuel → ∃ s' calls, p.run fuel s = some s' ∧
      p.record fuel s = some (s', calls) ∧
      (calls.Once p ↔ ∀ bb, Traversal.Reaches p.edges p.root bb → s.MetOnce p blocks bb) := by
  have settled := between.settled
  refine ⟨behind blocks (s.funcVisited + 1) ⟨s.visited, [], []⟩, ?_⟩
  intro fuel enough
  rcases Nat.exists_eq_succ_of_ne_zero (Nat.ne_of_gt (Nat.zero_lt_of_lt enough)) with ⟨fuel, rfl⟩
  have meets : Meets s.visited (s.funcVisited + 1) [] (⟨s.visited, [], []⟩ : Counted BlockId) :=
    ⟨fun bb => (Nat.add_zero _).symm, fun bb => (Nat.zero_min _).symm⟩
  rcases countedWalk_walked (fun bb reaches => (spans.mem_iff bb).mpr reaches)
    (Traversal.Reaches.refl p.root) meets (Nat.lt_succ_of_le (settled p.root))
    (Nat.le_of_lt_succ enough) with ⟨c', new, walked, isWalked⟩
  have counted := p.record_counted quiet (fuel + 1) s
  rw [walked] at counted
  rcases Option.map_eq_some_iff.mp counted with ⟨⟨s', calls⟩, isRecord, rfl⟩
  have ran := p.record_run (fuel + 1) s
  rw [isRecord] at ran
  refine ⟨s', calls, ran.symm, isRecord, ?_⟩
  have isNew : calls.preorder = new := isWalked.entered.trans (List.append_nil new)
  rcases isWalked.left with ⟨left, isLeft, perm⟩
  have isLeft : calls.postorder = left := isLeft.trans (List.append_nil left)
  have meets' := isWalked.meets
  rw [List.append_nil] at meets'
  have inside : ∀ bb ∈ new, Traversal.Reaches p.edges p.root bb := by
    rw [← isNew]
    exact countedWalk_inside (fun bb member => (List.not_mem_nil member).elim) walked
  have once := meets'.once_iff isNew (fun bb _ => Nat.lt_succ_of_le (settled bb)) inside spans
  have sameLimit : ∀ bb, MetOnce p.edges p.root blocks s.visited (s.funcVisited + 1) bb ↔
      s.MetOnce p blocks bb := fun bb => or_congr_left Nat.succ_inj
  simp only [sameLimit] at once
  rw [← once]
  constructor
  · intro isOnce bb reaches
    rw [← isNew]
    exact (isOnce bb reaches).1
  · intro isOnce bb reaches
    rw [isNew, isLeft, perm.count_eq]
    exact ⟨isOnce bb reaches, isOnce bb reaches⟩

theorem endlessFunc_spans : Spans endlessFunc.successors 0 [0, 1] := by
  have toEdges : ∀ p ∈ [0, 1], ∀ c ∈ endlessFunc.successors p, c ∈ [0, 1] := by decide
  refine ⟨by decide, fun bb => ⟨fun member => ?_, fun reaches => ?_⟩⟩
  · rcases List.mem_cons.mp member with rfl | member
    · exact Traversal.Reaches.refl 0
    · cases List.mem_singleton.mp member
      exact (Traversal.Reaches.refl 0).tail List.mem_cons_self
  · induction reaches with
    | refl => exact List.mem_cons_self
    | tail _ edge inductionHypothesis => exact toEdges _ inductionHypothesis _ edge

/-- The first pass over the loop without an end. -/
theorem endlessFunc_once_iff : ∃ bound, ∀ fuel, bound < fuel → ∃ s' calls,
    Pass.run ⟨endlessFunc, false, noCallback, noCallback⟩ fuel initialState = some s' ∧
    Pass.record ⟨endlessFunc, false, noCallback, noCallback⟩ fuel initialState =
      some (s', calls) ∧
    (calls.Once ⟨endlessFunc, false, noCallback, noCallback⟩ ↔
      ∀ bb, Traversal.Reaches endlessFunc.successors 0 bb →
        initialState.MetOnce ⟨endlessFunc, false, noCallback, noCallback⟩ [0, 1] bb) :=
  pass_once_iff (.start (fun _ => rfl) rfl) ⟨fun _ s => ⟨s, rfl, rfl, rfl⟩,
    fun _ s => ⟨s, rfl, rfl, rfl⟩⟩ endlessFunc_spans

/-- A loop without an end is left out of a pass from the exit, and the next pass from the entry
comes by its block a second time. -/
theorem endlessFunc_notOnce :
    ¬ ∀ (s : State) (p : Pass) (fuel : Nat) (s' : State) (calls : Calls), Between s → p.Quiet →
      p.record fuel s = some (s', calls) → calls.Once p := by
  intro claimed
  have quiet : ∀ backward, Pass.Quiet ⟨endlessFunc, backward, noCallback, noCallback⟩ :=
    fun backward => ⟨fun bb s => ⟨s, rfl, rfl, rfl⟩, fun bb s => ⟨s, rfl, rfl, rfl⟩⟩
  have first : Between initialState := .start (fun _ => rfl) rfl
  have second := @Between.pass _ _ _ 3 first (quiet false) rfl
  have third := @Between.pass _ _ _ 3 second (quiet true) rfl
  have once := claimed _ ⟨endlessFunc, false, noCallback, noCallback⟩ 4 _ _ third (quiet false) rfl
  have reaches : Traversal.Reaches endlessFunc.successors 0 1 :=
    (Traversal.Reaches.refl 0).tail List.mem_cons_self
  exact absurd (once 1 reaches).1 (by decide)

end Shecc.Ssa
