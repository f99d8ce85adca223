import Shecc.Ir.Exec
import Shecc.Traversal.Core

/-!
# Control flow graphs

What the analyses on a function read are its blocks with their instructions and edges; what
they write are fields of the blocks, of the function and of the variables. The traversals
count visits in the blocks and compare them with the count of the function.
-/

namespace Shecc.Ssa

open Traversal

/-- The fields of `basic_block_t` the analyses read: the instructions, the edges, and the
blocks in `prev`. -/
structure BasicBlock extends Block where
  prev : List BlockId := []

/-- `func_t`: the entry, the exit, the blocks and `param_defs[i].subscripts[0]`. -/
structure Func where
  bbs : BlockId
  exit : BlockId
  block : BlockId → BasicBlock
  paramDefs : List VarId := []

/-- `next`, `then_` and `else_`. -/
def Func.successors (f : Func) (bb : BlockId) : List BlockId := (f.block bb).successors

/-- The blocks in `prev`. -/
def Func.predecessors (f : Func) (bb : BlockId) : List BlockId := (f.block bb).prev

/-- The fields the analyses write. A list of variables is the elements up to its size. -/
structure State where
  visited : BlockId → Nat
  funcVisited : Nat
  bbCnt : Nat
  rpo : BlockId → Int := fun _ => 0
  rpoNext : BlockId → Option BlockId := fun _ => none
  idom : BlockId → Option BlockId := fun _ => none
  domNext : BlockId → List BlockId := fun _ => []
  domPrev : BlockId → Option BlockId := fun _ => none
  df : BlockId → List BlockId := fun _ => []
  rpoR : BlockId → Int
  rpoRNext : BlockId → Option BlockId
  rIdom : BlockId → Option BlockId := fun _ => none
  rdomNext : BlockId → List BlockId := fun _ => []
  rdomPrev : BlockId → Option BlockId := fun _ => none
  rdf : BlockId → List BlockId := fun _ => []
  liveGen : BlockId → List VarId
  liveKill : BlockId → List VarId
  liveIn : BlockId → List VarId
  liveOut : BlockId → List VarId
  vars : Vars

/-- A state before any pass. -/
def initialState : State where
  visited := fun _ => 0
  funcVisited := 0
  bbCnt := 0
  rpoR := fun _ => 0
  rpoRNext := fun _ => none
  liveGen := fun _ => []
  liveKill := fun _ => []
  liveIn := fun _ => []
  liveOut := fun _ => []
  vars := fun _ => {}

/-- A variable is written in the entry and read in a loop without an end. -/
def endlessFunc : Func where
  bbs := 0
  exit := 2
  block
    | 0 => { insns := [{ opcode := .loadConstant, rd := some 0 }], next := some 1 }
    | 1 => { insns := [{ opcode := .push, rs1 := some 0 }], next := some 1, prev := [0, 1] }
    | _ => { insns := [] }

/-! ## Lists of variables -/

/-- `var_list_add_var`. -/
def varListAddVar (list : List VarId) (var : VarId) : List VarId :=
  if var ∈ list then list else list ++ [var]

section VarList

variable {list : List VarId} {u v : VarId}

@[simp]
theorem mem_varListAddVar : u ∈ varListAddVar list v ↔ u ∈ list ∨ u = v := by
  rw [varListAddVar]
  split
  case isTrue present =>
    constructor
    · exact Or.inl
    · rintro (member | rfl)
      · exact member
      · exact present
  case isFalse absent => simp

theorem mem_foldl_varListAddVar {others : List VarId} :
    u ∈ others.foldl varListAddVar list ↔ u ∈ list ∨ u ∈ others := by
  induction others generalizing list with
  | nil => simp
  | cons v rest inductionHypothesis =>
      rw [List.foldl_cons, inductionHypothesis, mem_varListAddVar, List.mem_cons, or_assoc]

end VarList

/-! ## Traversals -/

/-- `bb->visited++`. -/
def State.visit (s : State) (bb : BlockId) : State :=
  { s with visited := Function.update s.visited bb (s.visited bb + 1) }

/-- `bb->visited < func->visited`. -/
def State.isDue (s : State) (bb : BlockId) : Bool := s.visited bb < s.funcVisited

/-- `func->visited++`. -/
def State.nextPass (s : State) : State := { s with funcVisited := s.funcVisited + 1 }

/-- A callback, which may run forever on lists it finds. -/
abbrev Callback := BlockId → State → Option State

/-- No callback. -/
def noCallback : Callback := fun _ s => some s

/-- `bb_forward_traversal`. -/
def bbForwardTraversal (f : Func) (preorderCb postorderCb : Callback) :
    Nat → BlockId → State → Option State :=
  walk f.successors State.isDue
    (fun bb s => preorderCb bb (s.visit bb)) postorderCb

/-- `bb_backward_traversal`. -/
def bbBackwardTraversal (f : Func) (preorderCb postorderCb : Callback) :
    Nat → BlockId → State → Option State :=
  walk f.predecessors State.isDue
    (fun bb s => preorderCb bb (s.visit bb)) postorderCb

/-- Control can reach the block from the entry. -/
def Func.Reachable (f : Func) : BlockId → Prop := Traversal.Reaches f.successors f.bbs

/-- The exit can be reached from the block along `prev`. -/
def Func.ReachesExit (f : Func) : BlockId → Prop := Traversal.Reaches f.predecessors f.exit

theorem Func.reachable_entry (f : Func) : f.Reachable f.bbs := Traversal.Reaches.refl f.bbs

theorem Func.Reachable.successor {f : Func} {bb succ : BlockId} (reachable : f.Reachable bb)
    (edge : succ ∈ f.successors bb) : f.Reachable succ :=
  reachable.tail edge

/-- No pass is under way: every block is due in the next one. -/
def State.Settled (s : State) : Prop := ∀ bb, s.visited bb ≤ s.funcVisited

theorem State.Settled.nextPass {s : State} (settled : s.Settled) (bb : BlockId) :
    s.nextPass.isDue bb = true :=
  decide_eq_true (Nat.lt_succ_of_le (settled bb))

/-! ## The reverse post order from the exit -/

/-- `bb_index_reversed_rpo`. -/
def bbIndexReversedRpo : Callback := fun bb s =>
  some { s with rpoR := Function.update s.rpoR bb s.bbCnt, bbCnt := s.bbCnt + 1 }

/-- `bb_reverse_reversed_index`. -/
def bbReverseReversedIndex : Callback := fun bb s =>
  some { s with rpoR := Function.update s.rpoR bb (s.bbCnt - s.rpoR bb) }

/-- `prev->rpo_r_next = bb`. -/
def State.link (s : State) (prev bb : BlockId) : State :=
  { s with rpoRNext := Function.update s.rpoRNext prev (some bb) }

/-- The loop of `bb_build_reversed_rpo`. -/
def insertReversedRpo (bb : BlockId) : Nat → BlockId → State → Option State
  | 0, _, _ => none
  | fuel + 1, prev, s =>
      match s.rpoRNext prev with
      | none => some (s.link prev bb)
      | some curr =>
          if s.rpoR curr < s.rpoR bb then insertReversedRpo bb fuel curr s
          else some ((s.link bb curr).link prev bb)

/-- `bb_build_reversed_rpo`. -/
def bbBuildReversedRpo (f : Func) (fuel : Nat) : Callback := fun bb s =>
  if f.exit = bb then some s else insertReversedRpo bb fuel f.exit s

/-- `build_reversed_rpo` for a function. -/
def buildReversedRpo (f : Func) (fuel : Nat) (s : State) : Option State := do
  let s ← bbBackwardTraversal f noCallback bbIndexReversedRpo fuel f.exit
    { s.nextPass with bbCnt := 0 }
  let s ← bbBackwardTraversal f noCallback bbReverseReversedIndex fuel f.exit s.nextPass
  bbBackwardTraversal f noCallback (bbBuildReversedRpo f fuel) fuel f.exit s.nextPass

/-- The block is in the list linked by `rpo_r_next` from the exit. -/
def State.Listed (f : Func) (s : State) : BlockId → Prop :=
  Relation.ReflTransGen (fun bb succ => s.rpoRNext bb = some succ) f.exit

/-- Every link leads to a block from which the exit can be reached. -/
def State.Inside (f : Func) (s : State) : Prop :=
  ∀ bb succ, s.rpoRNext bb = some succ → f.ReachesExit succ

@[simp]
theorem State.link_rpoRNext (s : State) (prev bb : BlockId) :
    (s.link prev bb).rpoRNext = Function.update s.rpoRNext prev (some bb) := rfl

section ReversedRpo

variable {f : Func} {fuel : Nat} {s s' : State} {bb prev curr : BlockId}

theorem State.Inside.link (inside : s.Inside f) (reaches : f.ReachesExit bb) :
    (s.link prev bb).Inside f := by
  intro other succ linked
  by_cases same : other = prev
  · subst same
    rw [State.link_rpoRNext, Function.update_self] at linked
    cases linked
    exact reaches
  · rw [State.link_rpoRNext, Function.update_of_ne same] at linked
    exact inside other succ linked

theorem insertReversedRpo_inside (inside : s.Inside f) (reaches : f.ReachesExit bb)
    (inserted : insertReversedRpo bb fuel prev s = some s') : s'.Inside f := by
  induction fuel generalizing prev with
  | zero => cases inserted
  | succ fuel inductionHypothesis =>
      rw [insertReversedRpo] at inserted
      cases isNext : s.rpoRNext prev with
      | none =>
          simp only [isNext] at inserted
          cases inserted
          exact inside.link reaches
      | some curr =>
          simp only [isNext] at inserted
          split at inserted
          case isTrue before => exact inductionHypothesis inserted
          case isFalse behind =>
            cases inserted
            exact (inside.link (inside prev curr isNext)).link reaches

theorem bbBuildReversedRpo_inside (inside : s.Inside f) (reaches : f.ReachesExit bb)
    (built : bbBuildReversedRpo f fuel bb s = some s') : s'.Inside f := by
  rw [bbBuildReversedRpo] at built
  split at built
  case isTrue isExit =>
    cases built
    exact inside
  case isFalse notExit => exact insertReversedRpo_inside inside reaches built

/-- A traversal whose callback links only blocks the exit can be reached from. -/
theorem bbBackwardTraversal_inside {postorderCb : Callback}
    (links : ∀ bb s s', f.ReachesExit bb → s.Inside f → postorderCb bb s = some s' → s'.Inside f)
    (inside : s.Inside f)
    (walked : bbBackwardTraversal f noCallback postorderCb fuel f.exit s = some s') :
    s'.Inside f := by
  apply walk_preserves _ _ (Traversal.Reaches.refl f.exit) inside walked
  · intro bb s s' _ entered inside
    cases entered
    exact inside
  · intro bb s s' reaches left inside
    exact links bb s s' reaches inside left

/-- Only blocks from which the exit can be reached are listed. -/
theorem buildReversedRpo_listed (unlinked : ∀ bb, s.rpoRNext bb = none)
    (built : buildReversedRpo f fuel s = some s') (listed : s'.Listed f bb) :
    f.ReachesExit bb := by
  rw [buildReversedRpo] at built
  rcases Option.bind_eq_some_iff.mp built with ⟨s₁, indexed, built⟩
  rcases Option.bind_eq_some_iff.mp built with ⟨s₂, reversed, built⟩
  have inside₁ : s₁.Inside f := by
    apply bbBackwardTraversal_inside _ _ indexed
    · intro bb s s' _ inside ran
      cases ran
      exact inside
    · intro bb succ linked
      cases (unlinked bb).symm.trans linked
  have inside₂ : s₂.Inside f := by
    apply bbBackwardTraversal_inside _ (show s₁.nextPass.Inside f from inside₁) reversed
    intro bb s s' _ inside ran
    cases ran
    exact inside
  have inside' : s'.Inside f := by
    apply bbBackwardTraversal_inside _ (show s₂.nextPass.Inside f from inside₂) built
    intro bb s s' reaches inside ran
    exact bbBuildReversedRpo_inside inside reaches ran
  cases listed with
  | refl => exact Traversal.Reaches.refl f.exit
  | tail _ linked => exact inside' _ _ linked

end ReversedRpo

end Shecc.Ssa
