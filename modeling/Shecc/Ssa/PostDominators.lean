import Shecc.Ssa.Frontier
import Shecc.Traversal.Counted

/-!
# Post-dominators and control dependence

The passes from the exit: `build_reversed_rpo` numbers the blocks along `prev`, `build_r_idom`
links each to its immediate post-dominator, `build_rdom` turns the links into a tree, and
`build_rdf` sends runners from the blocks a branch leads to, which find the blocks on whose branch
a block depends.
-/

namespace Shecc.Ssa

open Traversal

/-- `next`, `else_` and `then_`, in the order the passes from the exit look at them. -/
def Func.rCandidates (f : Func) (bb : BlockId) : List BlockId :=
  (f.block bb).next.toList ++ (f.block bb).else_.toList ++ (f.block bb).then_.toList

/-! ## The passes -/

/-- `reverse_intersect`. -/
def reverseIntersect (s : State) (fuel : Nat) : BlockId → BlockId → Except Halt BlockId :=
  meet s.rpoR s.rIdom fuel fuel

/-- `build_r_idom` for a function. -/
def buildRIdom (f : Func) (fuel : Nat) (s : State) : Except Halt State := do
  let rIdom ← idomLoop s.rpoR s.rpoRNext f.rCandidates fuel f.exit fuel
    (Function.update s.rIdom f.exit (some f.exit))
  return { s with rIdom := rIdom }

/-- `MAX_BB_RDOM_SUCC`. -/
def maxBbRdomSucc : Nat := 256

/-- `rdom_connect`. -/
def rdomConnect (s : State) (pred : Option BlockId) (succ : BlockId) :
    Except Stop (State × Bool) :=
  if (s.rdomPrev succ).isSome then .ok (s, false)
  else
    match pred with
    | none => .error (.halt .missing)
    | some pred =>
        if succ ∈ s.rdomNext pred then .ok (s, false)
        else if maxBbRdomSucc ≤ (s.rdomNext pred).length then
          .error (.fatal "Too many predecessors in reverse dominator tree")
        else
          .ok ({ s with
            rdomNext := Function.update s.rdomNext pred (s.rdomNext pred ++ [succ])
            rdomPrev := Function.update s.rdomPrev succ (some pred) }, true)

/-- The loop of `bb_build_rdom`. -/
def bbBuildRdom (f : Func) : Nat → BlockId → State → Except Stop State
  | 0, _, _ => .error (.halt .running)
  | fuel + 1, curr, s =>
      if curr = f.exit then .ok s
      else do
        let (s, connected) ← rdomConnect s (s.rIdom curr) curr
        match connected, s.rIdom curr with
        | true, some rIdom => bbBuildRdom f fuel rIdom s
        | _, _ => .ok s

/-- `build_rdom` for a function. -/
def buildRdom (f : Func) (fuel : Nat) (s : State) : Option (Except Stop State) :=
  preorderPass f.predecessors (bbBuildRdom f fuel) fuel f.exit s

/-- `bb_build_rdf`. -/
def bbBuildRdf (f : Func) (fuel : Nat) (bb : BlockId) (s : State) : Except Fault State := do
  let rdf ← runners dfCapacity s.rIdom fuel bb (f.rCandidates bb) s.rdf
  return { s with rdf := rdf }

/-- `build_rdf` for a function. -/
def buildRdf (f : Func) (fuel : Nat) (s : State) : Option (Except Fault State) :=
  postorderPass f.predecessors (bbBuildRdf f fuel) fuel f.exit s

/-! ## Numbers and links -/

/-- The numbers from the exit in the place of those from the entry. -/
def State.turned (s : State) : State :=
  { s with rpo := s.rpoR, rpoNext := s.rpoRNext, rpoR := s.rpo, rpoRNext := s.rpoNext }

/-- Between blocks from which the exit is reached the edges are those in `prev`. -/
def Func.MirroredBack (f : Func) : Prop :=
  ∀ bb p, f.ReachesExit bb → f.ReachesExit p → (p ∈ f.rCandidates bb ↔ bb ∈ f.predecessors p)

/-- What the passes from the exit start from: no block from which the exit is reached was left out
of an earlier traversal, and nothing is linked or entered. -/
structure State.BeforeReversed (f : Func) (s : State) : Prop where
  even : s.Even f.predecessors f.exit
  unlinked : ∀ bb, s.rpoRNext bb = none
  rIdom : ∀ bb, s.rIdom bb = none
  rdomTree : ∀ bb, s.rdomNext bb = [] ∧ s.rdomPrev bb = none
  rdf : ∀ bb, s.rdf bb = []

section Numbers

variable {f : Func} {s s₁ : State} {blocks : List BlockId} {fuel : Nat} {t : Tour BlockId}

theorem insertReversedRpo_turned (bb : BlockId) (fuel : Nat) (prev : BlockId) (s : State) :
    (insertReversedRpo bb fuel prev s).map State.turned = insertRpo bb fuel prev s.turned := by
  induction fuel generalizing prev with
  | zero => rfl
  | succ fuel inductionHypothesis =>
      rw [insertReversedRpo, insertRpo, show s.turned.rpoNext prev = s.rpoRNext prev from rfl]
      cases s.rpoRNext prev with
      | none => rfl
      | some curr =>
          show (if s.rpoR curr < s.rpoR bb then _ else _ : Option State).map _ =
            if s.rpoR curr < s.rpoR bb then _ else _
          split
          · exact inductionHypothesis curr
          · rfl

/-- A pass from the exit is the pass on the turned state. -/
theorem postorderWalk_turned {postorderCb postorderCb' : Callback}
    (turns : ∀ bb s, (postorderCb bb s).map State.turned = postorderCb' bb s.turned)
    (fuel : Nat) (s : State) :
    (bbBackwardTraversal f noCallback postorderCb fuel f.exit s).map State.turned =
      postorderWalk f.predecessors postorderCb' fuel f.exit s.turned := by
  apply @walk_project _ _ _ _ _ _ _ _ _ _ State.turned (fun _ => True) _ fuel f.exit _ trivial
  exact ⟨fun _ _ _ => rfl, fun _ _ _ => rfl, fun bb s _ => turns bb s, fun _ _ _ _ _ => trivial,
    fun _ _ _ _ _ => trivial⟩

theorem bind_turned {x : Option State} {next next' : State → Option State}
    (turns : ∀ s, (next s).map State.turned = next' s.turned) :
    (x >>= next).map State.turned = x.map State.turned >>= next' := by
  cases x with
  | none => rfl
  | some s => exact turns s

theorem buildReversedRpo_turned (f : Func) (fuel : Nat) (s : State) :
    (buildReversedRpo f fuel s).map State.turned =
      rpoPasses f.predecessors f.exit fuel { s.turned with bbCnt := 0 }.nextPass := by
  have index := @postorderWalk_turned f bbIndexReversedRpo bbIndexRpo (fun _ _ => rfl) fuel
    { s.nextPass with bbCnt := 0 }
  have reverse := @postorderWalk_turned f bbReverseReversedIndex bbReverseIndex
    (fun _ _ => rfl) fuel
  have insert := @postorderWalk_turned f (bbBuildReversedRpo f fuel) (insertRpoFrom f.exit fuel)
    (by
      intro bb s
      rw [bbBuildReversedRpo, insertRpoFrom]
      split
      · rfl
      · exact insertReversedRpo_turned bb fuel f.exit s) fuel
  rw [buildReversedRpo, rpoPasses, bind_turned, index]
  · rfl
  · intro s₁
    rw [bind_turned, reverse s₁.nextPass]
    · rfl
    · exact fun s₂ => insert s₂.nextPass

/-- `build_reversed_rpo` ends, and numbers and links the blocks from which the exit is reached. -/
theorem buildReversedRpo_numbered (finite : ∀ bb, f.ReachesExit bb → bb ∈ blocks)
    (enough : blocks.length < fuel) (before : s.BeforeReversed f) :
    ∃ t s₁, buildReversedRpo f fuel s = some s₁ ∧
      NumberedFrom f.predecessors f.exit t s₁.turned ∧ s₁.Even f.predecessors f.exit ∧
      (∀ bb, s₁.rIdom bb = none) ∧ (∀ bb, s₁.rdomNext bb = [] ∧ s₁.rdomPrev bb = none) ∧
      ∀ bb, s₁.rdf bb = [] := by
  rcases @rpoPasses_numbered f.predecessors f.exit { s.turned with bbCnt := 0 } blocks fuel finite
    enough before.even before.unlinked with ⟨t, s', _, ran, numbered, even, renumbers⟩
  rw [← buildReversedRpo_turned] at ran
  rcases Option.map_eq_some_iff.mp ran with ⟨s₁, built, rfl⟩
  have rIdom := congrArg State.rIdom renumbers
  have rdomNext := congrArg State.rdomNext renumbers
  have rdomPrev := congrArg State.rdomPrev renumbers
  have rdf := congrArg State.rdf renumbers
  exact ⟨t, s₁, built, numbered, even, fun bb => (congrFun rIdom bb).trans (before.rIdom bb),
    fun bb => ⟨(congrFun rdomNext bb).trans (before.rdomTree bb).1,
      (congrFun rdomPrev bb).trans (before.rdomTree bb).2⟩,
    fun bb => (congrFun rdf bb).trans (before.rdf bb)⟩

/-- The state behind `build_reversed_rpo` and `build_r_idom`: `s₁`, with the links to the immediate
post-dominators. -/
structure ReversedLinking (f : Func) (blocks : List BlockId) (fuel : Nat) (s s₁ : State)
    (rIdom : BlockId → Option BlockId) : Prop where
  built : buildReversedRpo f fuel s = some s₁
  builtRIdom : buildRIdom f fuel s₁ = .ok { s₁ with rIdom := rIdom }
  even : s₁.Even f.predecessors f.exit
  exact : ExactLinks f.predecessors f.exit s₁.rpoR rIdom
  ranked : Ranked f.predecessors f.rCandidates f.exit s₁.rpoR blocks.length
  rdomTree : ∀ bb, s₁.rdomNext bb = [] ∧ s₁.rdomPrev bb = none
  rdf : ∀ bb, s₁.rdf bb = []

theorem exists_reversedLinking (mirrored : f.MirroredBack)
    (finite : ∀ bb, f.ReachesExit bb → bb ∈ blocks) (before : s.BeforeReversed f)
    (enough : 2 * blocks.length + 1 < fuel) :
    ∃ s₁ rIdom, ReversedLinking f blocks fuel s s₁ rIdom := by
  rcases buildReversedRpo_numbered finite (show blocks.length < fuel by omega) before with
    ⟨t, s₁, built, numbered, even, unlinked, rdomTree, rdf⟩
  rcases idomLoop_linked numbered mirrored finite unlinked enough with
    ⟨rIdom, ran, linked, immediate⟩
  refine ⟨s₁, rIdom, built, ?_, even, ⟨linked, immediate⟩, numbered.ranked mirrored finite,
    rdomTree, rdf⟩
  have ran' : idomLoop s₁.rpoR s₁.rpoRNext f.rCandidates fuel f.exit fuel
    (Function.update s₁.rIdom f.exit (some f.exit)) = .ok rIdom := ran
  rw [buildRIdom, ran']
  rfl

/-- Numbers of blocks from which the exit is reached are between that of the exit and the number of
blocks. -/
theorem ReversedLinking.number {rIdom : BlockId → Option BlockId}
    (linking : ReversedLinking f blocks fuel s s₁ rIdom) {bb : BlockId}
    (reaches : f.ReachesExit bb) :
    s₁.rpoR f.exit ≤ s₁.rpoR bb ∧ s₁.rpoR bb - s₁.rpoR f.exit ≤ blocks.length := by
  have bounded := linking.ranked.bounded bb reaches
  have nonneg := linking.ranked.nonneg
  refine ⟨?_, by omega⟩
  by_cases isExit : bb = f.exit
  · exact isExit ▸ Int.le_refl _
  · exact Int.le_of_lt (linking.ranked.root_lt bb reaches isExit)

end Numbers

/-! ## The tree -/

/-- The state with other lists. -/
def State.withRdom (s : State) (l : Children BlockId) : State :=
  { s with rdomNext := l.next, rdomPrev := l.prev }

/-- `rdom_connect` connects. -/
theorem rdomConnect_eq (s : State) (l : Children BlockId) (pred : Option BlockId)
    (succ : BlockId) :
    rdomConnect (s.withRdom l) pred succ =
      (connect maxBbRdomSucc (.fatal "Too many predecessors in reverse dominator tree")
        (.halt .missing) pred succ l).map fun r => (s.withRdom r.1, r.2) := by
  cases pred with
  | none =>
      rw [rdomConnect, connect]
      show (if (l.prev succ).isSome = true then _ else _) = _
      split <;> rfl
  | some pred =>
      rw [rdomConnect, connect]
      show (if (l.prev succ).isSome = true then _
        else if succ ∈ l.next pred then _
        else if maxBbRdomSucc ≤ (l.next pred).length then _ else _) = _
      split
      · rfl
      · split
        · rfl
        · split <;> rfl

/-- The loop of `bb_build_rdom` connects a block and what is above it. -/
theorem bbBuildRdom_eq (f : Func) (fuel : Nat) (s : State) (l : Children BlockId)
    (curr : BlockId) :
    bbBuildRdom f fuel curr (s.withRdom l) =
      (connectUp maxBbRdomSucc (.fatal "Too many predecessors in reverse dominator tree")
        (.halt .missing) (.halt .running) s.rIdom f.exit fuel curr l).map s.withRdom := by
  induction fuel generalizing curr l with
  | zero => rfl
  | succ fuel inductionHypothesis =>
      rw [bbBuildRdom, connectUp]
      split
      · rfl
      · show (rdomConnect (s.withRdom l) (s.rIdom curr) curr >>= _) = _
        rw [rdomConnect_eq]
        cases connect maxBbRdomSucc (Stop.fatal "Too many predecessors in reverse dominator tree")
          (Stop.halt Halt.missing) (s.rIdom curr) curr l with
        | error why => rfl
        | ok r =>
            rcases r with ⟨l', connected⟩
            cases connected with
            | false => rfl
            | true =>
                cases link : s.rIdom curr with
                | none =>
                    simp only [Except.map, bind, Except.bind]
                    rw [show (s.withRdom l').rIdom curr = none from link]
                | some d =>
                    simp only [Except.map, bind, Except.bind]
                    rw [show (s.withRdom l').rIdom curr = some d from link]
                    exact inductionHypothesis l' d

/-- What holds of the traversal of `build_rdom`. -/
def ReverseBuilding (f : Func) (s₁ : State) (rIdom : BlockId → Option BlockId) :
    Except Stop State → Tour BlockId → Prop :=
  Hung f.predecessors f.exit
    (fun v n l => { s₁ with rIdom := rIdom, visited := v, funcVisited := n }.withRdom l)
    maxBbRdomSucc (.fatal "Too many predecessors in reverse dominator tree") rIdom

/-- No block immediately post-dominates more than `MAX_BB_RDOM_SUCC` others. -/
def Func.FewPostDominated (f : Func) : Prop :=
  ∀ d (list : List BlockId), list.Nodup →
    (∀ bb ∈ list, f.ReachesExit bb ∧ ImmediatelyDominates f.predecessors f.exit d bb) →
      list.length ≤ maxBbRdomSucc

section Tree

variable {f : Func} {s s₁ : State} {blocks : List BlockId} {fuel : Nat} {t : Tour BlockId}
  {rIdom : BlockId → Option BlockId}

/-- `build_rdom` behind the links. -/
theorem ReversedLinking.buildRdom (linking : ReversedLinking f blocks fuel s s₁ rIdom)
    (finite : ∀ bb, f.ReachesExit bb → bb ∈ blocks) (enough : blocks.length < fuel) :
    ∃ t result, buildRdom f fuel { s₁ with rIdom := rIdom } = some result ∧
      ReverseBuilding f s₁ rIdom result t ∧ Toured f.predecessors f.exit t := by
  have connects : ConnectsUp (bbBuildRdom f fuel)
      (fun v n l => { s₁ with rIdom := rIdom, visited := v, funcVisited := n }.withRdom l)
      maxBbRdomSucc (.fatal "Too many predecessors in reverse dominator tree") (.halt .missing)
      (.halt .running) rIdom f.exit fuel :=
    ⟨fun _ _ _ => rfl, fun _ _ _ => rfl, fun _ _ _ _ => rfl, fun _ _ _ => rfl,
      fun v n l bb => bbBuildRdom_eq f fuel
        { s₁ with rIdom := rIdom, visited := v, funcVisited := n } l bb⟩
  have high : ∀ bb, f.ReachesExit bb → s₁.rpoR bb - s₁.rpoR f.exit < fuel := by
    intro bb reaches
    have := (linking.number reaches).2
    omega
  exact @preorderPass_hung Stop f.predecessors f.exit s₁.rpoR rIdom (bbBuildRdom f fuel) _ _ fuel
    _ _ _ blocks connects finite linking.exact.linked (fun bb => linking.exact.exists_link)
    (fun bb reaches => (linking.number reaches).1) high enough s₁.visited s₁.funcVisited
    ⟨s₁.rdomNext, s₁.rdomPrev⟩ linking.even linking.rdomTree

theorem bbBuildRdf_sends (f : Func) (fuel : Nat) (rIdom : BlockId → Option BlockId) :
    SendsRunners (bbBuildRdf f fuel) rIdom f.rCandidates fuel State.rIdom State.rdf where
  ok := by
    intro bb s l same ran
    refine ⟨{ s with rdf := l }, ?_, rfl, same, rfl, rfl⟩
    rw [bbBuildRdf, same, ran]
    rfl
  error := by
    intro bb s why same failed
    rw [bbBuildRdf, same, failed]
    rfl
  visit := fun _ _ => ⟨rfl, rfl⟩
  nextPass := fun _ => ⟨rfl, rfl⟩

/-- `build_rdf` behind `build_rdom`. -/
theorem ReversedLinking.buildRdf {s₃ : State} (linking : ReversedLinking f blocks fuel s s₁ rIdom)
    (spans : Spans f.predecessors f.exit blocks) (enough : blocks.length < fuel)
    (building : ReverseBuilding f s₁ rIdom (.ok s₃) t) (toured : Toured f.predecessors f.exit t) :
    ∃ result, buildRdf f fuel s₃ = some result ∧
      ((∃ s₄, result = .ok s₄ ∧ AreFrontiers f.predecessors f.rCandidates f.exit s₄.rdf) ↔
        FrontiersFit dfCapacity f.predecessors f.rCandidates f.exit blocks) := by
  rcases building with ⟨v, n, l, rfl, counting, _⟩
  have setting : Setting f.predecessors f.rCandidates f.exit s₁.rpoR blocks.length rIdom fuel
      blocks :=
    { exact := linking.exact
      ranked := linking.ranked
      enough := by
        intro bb reaches
        have := (linking.number reaches).2
        omega
      spans := spans }
  exact postorderPass_frontiers setting (bbBuildRdf_sends f fuel rIdom) enough
    (counting.even toured) rfl linking.rdf

end Tree

/-- After `build_reversed_rpo` and `build_r_idom` each block but the exit has a link to its one
immediate post-dominator. After `build_rdom`, if the compiler does not stop there, `build_rdf` comes
to an end with the blocks on whose branch a block depends in its list if and only if the exit leads
nowhere, every way on from a block leads to the exit, and no block has more entries than there is
room for. -/
theorem buildRdf_controlDependence_iff {f : Func} {blocks : List BlockId} {s : State} {fuel : Nat}
    (spans : Spans f.predecessors f.exit blocks) (mirrored : f.MirroredBack)
    (before : s.BeforeReversed f) (enough : 2 * blocks.length + 1 < fuel) :
    ∃ s₁ s₂ result, buildReversedRpo f fuel s = some s₁ ∧ buildRIdom f fuel s₁ = .ok s₂ ∧
      (∀ bb ∈ blocks, bb ≠ f.exit → ∃ d, s₂.rIdom bb = some d ∧
        ImmediatelyDominates f.predecessors f.exit d bb ∧
        ∀ e, ImmediatelyDominates f.predecessors f.exit e bb → e = d) ∧
      buildRdom f fuel s₂ = some result ∧
      ∀ s₃, result = .ok s₃ → ∃ result', buildRdf f fuel s₃ = some result' ∧
        ((∃ s₄, result' = .ok s₄ ∧
          AreFrontiers f.predecessors f.rCandidates f.exit s₄.rdf) ↔
            FrontiersFit dfCapacity f.predecessors f.rCandidates f.exit blocks) := by
  have finite : ∀ bb, f.ReachesExit bb → bb ∈ blocks := fun bb => (spans.mem_iff bb).mpr
  rcases exists_reversedLinking mirrored finite before enough with ⟨s₁, rIdom, linking⟩
  rcases linking.buildRdom finite (show blocks.length < fuel by omega) with
    ⟨t, result, built, building, toured⟩
  refine ⟨s₁, _, result, linking.built, linking.builtRIdom, ?_, built, ?_⟩
  · intro bb member differ
    have reaches := (spans.mem_iff bb).mp member
    rcases linking.exact.link bb reaches differ with ⟨d, link, immediate⟩
    exact ⟨d, link, immediate, fun e other => other.unique reaches immediate⟩
  · rintro s₃ rfl
    exact linking.buildRdf spans (show blocks.length < fuel by omega) building toured

theorem initialState_beforeReversed (f : Func) : initialState.BeforeReversed f :=
  ⟨fun _ _ => rfl, fun _ => rfl, fun _ => rfl, fun _ => ⟨rfl, rfl⟩, fun _ => rfl⟩

theorem loopFunc_spansBack : Spans loopFunc.predecessors loopFunc.exit [0, 1, 2, 3] := by
  have exit : loopFunc.ReachesExit 3 := Traversal.Reaches.refl 3
  have two : loopFunc.ReachesExit 2 := exit.tail (by decide)
  have one : loopFunc.ReachesExit 1 := two.tail (by decide)
  have zero : loopFunc.ReachesExit 0 := two.tail (by decide)
  refine ⟨by decide, fun bb => ⟨fun member => ?_, fun reaches => ?_⟩⟩
  · simp only [List.mem_cons, List.not_mem_nil, or_false] at member
    rcases member with rfl | rfl | rfl | rfl
    · exact zero
    · exact one
    · exact two
    · exact exit
  · have closed : ∀ bb ∈ [0, 1, 2, 3], ∀ p ∈ loopFunc.predecessors bb, p ∈ [0, 1, 2, 3] := by
      decide
    induction reaches with
    | refl => decide
    | tail _ edge inductionHypothesis => exact closed _ inductionHypothesis _ edge

theorem loopFunc_mirroredBack : loopFunc.MirroredBack := by
  intro bb p reaches reachesP
  have mirrored : ∀ bb ∈ [0, 1, 2, 3], ∀ p ∈ [0, 1, 2, 3],
      (p ∈ loopFunc.rCandidates bb ↔ bb ∈ loopFunc.predecessors p) := by
    decide
  exact mirrored bb ((loopFunc_spansBack.mem_iff bb).mpr reaches) p
    ((loopFunc_spansBack.mem_iff p).mpr reachesP)

/-- Control dependence in the loop with two ways in. -/
theorem loopFunc_controlDependence_iff : ∃ s₁ s₂ result,
    buildReversedRpo loopFunc 10 initialState = some s₁ ∧ buildRIdom loopFunc 10 s₁ = .ok s₂ ∧
    (∀ bb ∈ [0, 1, 2, 3], bb ≠ loopFunc.exit → ∃ d, s₂.rIdom bb = some d ∧
      ImmediatelyDominates loopFunc.predecessors loopFunc.exit d bb ∧
      ∀ e, ImmediatelyDominates loopFunc.predecessors loopFunc.exit e bb → e = d) ∧
    buildRdom loopFunc 10 s₂ = some result ∧
    ∀ s₃, result = .ok s₃ → ∃ result', buildRdf loopFunc 10 s₃ = some result' ∧
      ((∃ s₄, result' = .ok s₄ ∧
        AreFrontiers loopFunc.predecessors loopFunc.rCandidates loopFunc.exit s₄.rdf) ↔
          FrontiersFit dfCapacity loopFunc.predecessors loopFunc.rCandidates loopFunc.exit
            [0, 1, 2, 3]) :=
  buildRdf_controlDependence_iff loopFunc_spansBack loopFunc_mirroredBack
    (initialState_beforeReversed loopFunc) (by decide)

/-! ## Many labels -/

/-- A `switch` has one body behind sixty-six `case` labels. Their conditions are the blocks from 1
on, and 67 is the body. -/
def manyLabels : Func where
  bbs := 0
  exit := 70
  block bb :=
    if bb = 0 then { insns := [], next := some 1 }
    else if bb < 66 then
      { insns := [], then_ := some 67, else_ := some (bb + 1), prev := [bb - 1] }
    else if bb = 66 then { insns := [], then_ := some 67, else_ := some 69, prev := [65] }
    else if bb = 67 then
      { insns := [], next := some 68, prev := (List.range 66).map (· + 1) }
    else if bb = 68 then { insns := [], next := some 69, prev := [67] }
    else if bb = 69 then { insns := [], next := some 70, prev := [66, 68] }
    else if bb = 70 then { insns := [], prev := [69] }
    else { insns := [] }

theorem manyLabels_closed : ∀ bb ∈ List.range 71, ∀ p ∈ manyLabels.predecessors bb,
    p ∈ List.range 71 ∧ bb ∈ manyLabels.rCandidates p := by
  decide +kernel

theorem manyLabels_mirror : ∀ bb ∈ List.range 71, ∀ p ∈ manyLabels.rCandidates bb,
    p ∈ List.range 71 ∧ bb ∈ manyLabels.predecessors p := by
  decide +kernel

/-- All blocks but the exit lead to one with a higher number. -/
theorem manyLabels_higher : ∀ k ∈ List.range 71, k = 0 ∨
    ∃ j ∈ List.range k, 70 - k ∈ manyLabels.predecessors (70 - j) := by
  decide +kernel

theorem manyLabels_inRange (k : Nat) (inside : k < 71) : manyLabels.ReachesExit (70 - k) := by
  induction k using Nat.strongRecOn with
  | ind k inductionHypothesis =>
      rcases manyLabels_higher k (List.mem_range.mpr inside) with rfl | ⟨j, member, edge⟩
      · exact Traversal.Reaches.refl 70
      · have lower : j < k := List.mem_range.mp member
        exact (inductionHypothesis j lower (Nat.lt_trans lower inside)).tail edge

theorem manyLabels_spans :
    Spans manyLabels.predecessors manyLabels.exit (List.range 71) := by
  refine ⟨List.nodup_range, fun bb => ⟨fun member => ?_, fun reaches => ?_⟩⟩
  · have inside : bb < 71 := List.mem_range.mp member
    have reaches := manyLabels_inRange (70 - bb) (Nat.lt_of_le_of_lt (Nat.sub_le 70 bb) (by decide))
    rw [Nat.sub_sub_self (Nat.le_of_lt_succ inside)] at reaches
    exact reaches
  · induction reaches with
    | refl => exact List.mem_range.mpr (by decide)
    | tail _ edge inductionHypothesis => exact (manyLabels_closed _ inductionHypothesis _ edge).1

theorem manyLabels_mirrored : manyLabels.MirroredBack := by
  intro bb p reaches reachesP
  constructor
  · exact fun member => (manyLabels_mirror bb ((manyLabels_spans.mem_iff bb).mpr reaches) p member).2
  · exact fun edge => (manyLabels_closed p ((manyLabels_spans.mem_iff p).mpr reachesP) bb edge).2

/-- From each condition there is a way to the exit that avoids the body. -/
theorem manyLabels_avoid (k : Nat) (inside : k < 66) : ∃ rest,
    Route manyLabels.predecessors manyLabels.exit ((66 - k) :: rest) ∧ 67 ∉ (66 - k) :: rest := by
  induction k with
  | zero => exact ⟨[69, 70], .step (.step .start (by decide)) (by decide), by decide⟩
  | succ k inductionHypothesis =>
      rcases inductionHypothesis (Nat.lt_of_succ_lt inside) with ⟨rest, route, avoids⟩
      have edges : ∀ k ∈ List.range 65, 66 - (k + 1) ∈ manyLabels.predecessors (66 - k) ∧
          66 - (k + 1) ≠ 67 := by
        decide +kernel
      have edge := edges k (List.mem_range.mpr (Nat.lt_of_succ_lt_succ inside))
      refine ⟨_, route.step edge.1, ?_⟩
      intro member
      rcases List.mem_cons.mp member with same | member
      · exact edge.2 same.symm
      · exact avoids member

/-- The body has more entries than there is room for. -/
theorem manyLabels_notFit : ¬ FrontiersFit dfCapacity manyLabels.predecessors
    manyLabels.rCandidates manyLabels.exit (List.range 71) := by
  classical
  intro fit
  have short := fit.short 67 (manyLabels_inRange 3 (by decide))
  have each : ∀ x ∈ List.range 71, (if 1 ≤ x ∧ x ≤ 66 then 1 else 0) ≤
      (manyLabels.rCandidates x).countP fun p =>
        Traversal.Dominates manyLabels.predecessors manyLabels.exit 67 p ∧
          ¬ StrictlyDominates manyLabels.predecessors manyLabels.exit 67 x := by
    intro x _
    split
    case isFalse => exact Nat.zero_le _
    case isTrue isCondition =>
      have toBody : ∀ x ∈ List.range 67, x = 0 ∨ 67 ∈ manyLabels.rCandidates x := by
        decide +kernel
      have member := (toBody x (List.mem_range.mpr (Nat.lt_succ_of_le isCondition.2))).resolve_left
        (Nat.ne_of_gt isCondition.1)
      apply List.countP_pos_iff.mpr
      refine ⟨67, member, decide_eq_true ⟨Traversal.Dominates.refl 67, ?_⟩⟩
      intro strictly
      rcases manyLabels_avoid (66 - x) (Nat.sub_lt (by decide) isCondition.1) with
        ⟨rest, route, avoids⟩
      rw [Nat.sub_sub_self isCondition.2] at route avoids
      exact avoids (strictly.2 rest route)
  have many : 66 ≤ frontierCount manyLabels.predecessors manyLabels.rCandidates manyLabels.exit
      (List.range 71) 67 := by
    have some_ : ((List.range 71).map fun x => if 1 ≤ x ∧ x ≤ 66 then 1 else 0).sum = 66 := by
      decide +kernel
    rw [frontierCount, ← some_]
    refine Nat.le_trans (List.sum_le_sum each) (Nat.le_of_eq ?_)
    congr
  exact absurd (Nat.le_trans many short) (by decide)

/-- The body is the immediate post-dominator of none, and a block of three others at most. -/
theorem manyLabels_fewPostDominated : manyLabels.FewPostDominated := by
  intro d list nodup isBelow
  have inRange : list ⊆ List.range 71 := fun bb member =>
    (manyLabels_spans.mem_iff bb).mpr (isBelow bb member).1
  have short := (List.subperm_of_subset nodup inRange).length_le
  rw [List.length_range] at short
  exact Nat.le_trans short (show 71 ≤ 256 by decide)

/-- The runners from the labels write beyond the list of the body. -/
theorem manyLabels_notControlDependence : ¬ ∀ (f : Func) (blocks : List BlockId) (s : State)
    (fuel : Nat), Spans f.predecessors f.exit blocks → f.MirroredBack → s.BeforeReversed f →
    2 * blocks.length + 1 < fuel → ∀ s₁ s₂ s₃, buildReversedRpo f fuel s = some s₁ →
      buildRIdom f fuel s₁ = .ok s₂ → buildRdom f fuel s₂ = some (.ok s₃) →
        ∃ s₄, buildRdf f fuel s₃ = some (.ok s₄) ∧
          AreFrontiers f.predecessors f.rCandidates f.exit s₄.rdf := by
  intro claimed
  have finite : ∀ bb, manyLabels.ReachesExit bb → bb ∈ List.range 71 :=
    fun bb => (manyLabels_spans.mem_iff bb).mpr
  have before := initialState_beforeReversed manyLabels
  rcases @exists_reversedLinking manyLabels initialState (List.range 71) 150 manyLabels_mirrored
    finite before (by simp) with ⟨s₁, rIdom, linking⟩
  rcases linking.buildRdom finite (by simp) with ⟨t, result, built, building, toured⟩
  cases result with
  | error why =>
      exact building.2 ((fewBelow_iff linking.exact).mpr manyLabels_fewPostDominated)
  | ok s₃ =>
      rcases claimed manyLabels (List.range 71) initialState 150 manyLabels_spans
        manyLabels_mirrored before (by simp) s₁ _ s₃ linking.built linking.builtRIdom built with
        ⟨s₄, builtRdf, areFrontiers⟩
      rcases linking.buildRdf manyLabels_spans (by simp) building toured with
        ⟨result', builtRdf', frontiers_iff⟩
      cases builtRdf.symm.trans builtRdf'
      exact manyLabels_notFit (frontiers_iff.mp ⟨s₄, rfl, areFrontiers⟩)

end Shecc.Ssa
