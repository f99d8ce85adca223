import Shecc.Ssa.DomTree
import Shecc.Traversal.Frontier

/-!
# Dominance frontiers

`build_df` sends a runner from each predecessor of a block up to the link of the block, and enters
the block in the list `DF` of each block the runner comes by. Nothing is checked: neither that the
list has room nor that the runner has a link to follow.
-/

namespace Shecc.Ssa

open Traversal

/-- The entries `DF` and `RDF` have room for. -/
def dfCapacity : Nat := 64

/-- `bb_build_df`. A block without predecessors is left alone. -/
def bbBuildDf (f : Func) (fuel : Nat) (bb : BlockId) (s : State) : Except Fault State := do
  let df ← runners dfCapacity s.idom fuel bb (f.predecessors bb) s.df
  return { s with df := df }

/-- A traversal with a callback behind the children that may go wrong. -/
def postorderPass {ε : Type} (edges : BlockId → List BlockId)
    (postorderCb : BlockId → State → Except ε State) (fuel : Nat) (root : BlockId) (s : State) :
    Option (Except ε State) :=
  walk edges dueIfRunning (fun bb result => some (result >>= fun s => .ok (s.visit bb)))
    (fun bb result => some (result >>= postorderCb bb)) fuel root (.ok s.nextPass)

/-- `build_df` for a function. -/
def buildDf (f : Func) (fuel : Nat) (s : State) : Option (Except Fault State) :=
  postorderPass f.successors (bbBuildDf f fuel) fuel f.bbs s

/-! ## The runners of a traversal -/

/-- The callback sends runners along links that it keeps, and writes nothing but the lists. -/
structure SendsRunners (postorderCb : BlockId → State → Except Fault State)
    (idom : BlockId → Option BlockId) (preds : BlockId → List BlockId) (fuel : Nat)
    (links : State → BlockId → Option BlockId) (lists : State → BlockId → List BlockId) : Prop where
  ok : ∀ bb s l, links s = idom → runners dfCapacity idom fuel bb (preds bb) (lists s) = .ok l →
    ∃ s', postorderCb bb s = .ok s' ∧ lists s' = l ∧ links s' = idom ∧ s'.visited = s.visited ∧
      s'.funcVisited = s.funcVisited
  error : ∀ bb s why, links s = idom →
    runners dfCapacity idom fuel bb (preds bb) (lists s) = .error why →
      postorderCb bb s = .error why
  visit : ∀ bb s, links (s.visit bb) = links s ∧ lists (s.visit bb) = lists s
  nextPass : ∀ s, links s.nextPass = links s ∧ lists s.nextPass = lists s

section Runners

variable {edges preds : BlockId → List BlockId} {root : BlockId} {number : BlockId → Int}
  {bound fuel : Nat} {idom : BlockId → Option BlockId} {blocks : List BlockId} {s : State}
  {postorderCb : BlockId → State → Except Fault State}
  {links : State → BlockId → Option BlockId} {lists : State → BlockId → List BlockId}

/-- What holds of the traversal: the runners to the blocks it has left have come to their ends, or
something does not fit. -/
def Running (edges preds : BlockId → List BlockId) (root : BlockId)
    (idom : BlockId → Option BlockId) (fuel : Nat) (blocks : List BlockId)
    (links : State → BlockId → Option BlockId) (lists : State → BlockId → List BlockId) :
    Except Fault State → Tour BlockId → Prop
  | .ok s, t => Counting edges root s t ∧ links s = idom ∧
      ListsAt dfCapacity idom preds fuel t.left (lists s)
  | .error _, _ => ¬ Fits dfCapacity idom preds fuel blocks

theorem Running.leave (setting : Setting edges preds root number bound idom fuel blocks)
    (sends : SendsRunners postorderCb idom preds fuel links lists) {bb : BlockId}
    {stack : List BlockId} {t : Tour BlockId} (touring : Touring edges root (bb :: stack) t)
    (running : Running edges preds root idom fuel blocks links lists (.ok s) t) :
    Running edges preds root idom fuel blocks links lists (postorderCb bb s) (t.leave bb) := by
  rcases running with ⟨counting, same, at_⟩
  have reached : ∀ c ∈ bb :: t.left, Traversal.Reaches edges root c := by
    intro c member
    apply touring.reached c (touring.mem_entered_iff.mpr _)
    rcases List.mem_cons.mp member with rfl | member
    · exact Or.inl List.mem_cons_self
    · exact Or.inr member
  have reaches := reached bb List.mem_cons_self
  rcases ListsAt.step setting.exact setting.ranked reaches
    (fun p member reachesP => (setting.ranked.mem_preds bb p reaches reachesP).mp member)
    setting.enough touring.notLeft (List.nodup_append.mp touring.nodup_append).2.1
    (fun c member => (setting.spans.mem_iff c).mpr (reached c member)) at_ with
    ⟨l, ran, at'⟩ | ⟨⟨why, failed⟩, notFits⟩
  · rcases sends.ok bb s l same ran with ⟨s', isOk, isLists, same', visited, funcVisited⟩
    rw [isOk]
    have kept := counting.keep visited funcVisited
    refine ⟨⟨kept.inside, kept.outside⟩, same', ?_⟩
    rw [isLists]
    exact at'
  · rw [sends.error bb s why same failed]
    exact notFits

/-- The traversal comes to an end with lists that are the frontiers if and only if everything
fits. -/
theorem postorderPass_frontiers (setting : Setting edges preds root number bound idom fuel blocks)
    (sends : SendsRunners postorderCb idom preds fuel links lists)
    (enough : blocks.length < fuel) (even : s.Even edges root) (same : links s = idom)
    (empty : ∀ bb, lists s bb = []) :
    ∃ result, postorderPass edges postorderCb fuel root s = some result ∧
      ((∃ s', result = .ok s' ∧ AreFrontiers edges preds root (lists s')) ↔
        FrontiersFit dfCapacity edges preds root blocks) := by
  have start : Running edges preds root idom fuel blocks links lists (.ok s.nextPass) {} := by
    refine ⟨even.counting, (sends.nextPass s).1.trans same, listsAt_nil ?_⟩
    rw [(sends.nextPass s).2]
    exact empty
  have follows : Follows edges root dueIfRunning
      (fun bb result => some (result >>= fun s => .ok (s.visit bb)))
      (fun bb result => some (result >>= postorderCb bb))
      (Running edges preds root idom fuel blocks links lists) := by
    constructor
    · intro bb result t reaches running
      cases result with
      | ok s' => exact Or.inl (running.1.isDue_eq reaches)
      | error why => exact Or.inr ⟨rfl, fun _ => running⟩
    · intro bb stack result t _ route fresh running
      refine ⟨_, rfl, ?_⟩
      cases result with
      | ok s' =>
          refine ⟨running.1.enter route.reaches fresh, (sends.visit bb s').1.trans running.2.1, ?_⟩
          rw [(sends.visit bb s').2]
          exact running.2.2
      | error why => exact running
    · intro bb stack result t touring _ running
      refine ⟨_, rfl, ?_⟩
      cases result with
      | ok s' => exact Running.leave setting sends touring running
      | error why => exact running
  rcases walk_follows_root follows (fun bb => (setting.spans.mem_iff bb).mpr) start enough with
    ⟨t, result, _, ran, running, toured⟩
  refine ⟨result, ran, ?_⟩
  have perm : t.left.Perm blocks := by
    rw [List.perm_ext_iff_of_nodup toured.nodup setting.spans.nodup]
    intro bb
    rw [toured.mem_left_iff, setting.spans.mem_iff]
  cases result with
  | ok s' =>
      rcases running with ⟨_, _, at_⟩
      constructor
      · rintro ⟨_, isSame, areFrontiers⟩
        cases isSame
        have noPreds := (setting.areFrontiers_iff at_ perm).mp areFrontiers
        exact (setting.fits_iff noPreds).mp (at_.fits perm)
      · intro fit
        exact ⟨s', rfl, (setting.areFrontiers_iff at_ perm).mpr fit.noPreds⟩
  | error why =>
      constructor
      · rintro ⟨_, isSame, _⟩
        cases isSame
      · intro fit
        exact (running ((setting.fits_iff fit.noPreds).mpr fit)).elim

end Runners

theorem bbBuildDf_sends (f : Func) (fuel : Nat) (idom : BlockId → Option BlockId) :
    SendsRunners (bbBuildDf f fuel) idom f.predecessors fuel State.idom State.df where
  ok := by
    intro bb s l same ran
    refine ⟨{ s with df := l }, ?_, rfl, same, rfl, rfl⟩
    rw [bbBuildDf, same, ran]
    rfl
  error := by
    intro bb s why same failed
    rw [bbBuildDf, same, failed]
    rfl
  visit := fun _ _ => ⟨rfl, rfl⟩
  nextPass := fun _ => ⟨rfl, rfl⟩

/-- What `ssa_build` starts from: no traversal was made, and nothing is linked or entered. -/
structure State.BeforeSsa (f : Func) (s : State) : Prop where
  unnumbered : s.Unnumbered f
  idom : ∀ bb, s.idom bb = none
  domTree : ∀ bb, s.domNext bb = [] ∧ s.domPrev bb = none
  df : ∀ bb, s.df bb = []

/-- `build_df` behind `build_dom`. -/
theorem Linking.buildDf {f : Func} {blocks : List BlockId} {s s₁ s₃ : State} {fuel : Nat}
    {idom : BlockId → Option BlockId} {t : Tour BlockId}
    (linking : Linking f blocks fuel s s₁ idom) (spans : Spans f.successors f.bbs blocks)
    (before : s.BeforeSsa f) (enough : blocks.length < fuel)
    (building : Building f idom { s₁ with idom := idom } (.ok s₃) t)
    (toured : Toured f.successors f.bbs t) :
    ∃ result, buildDf f fuel s₃ = some result ∧
      ((∃ s₄, result = .ok s₄ ∧ AreFrontiers f.successors f.predecessors f.bbs s₄.df) ↔
        FrontiersFit dfCapacity f.successors f.predecessors f.bbs blocks) := by
  rcases building with ⟨counting, connected, _, _, sameDf⟩
  have setting : Setting f.successors f.predecessors f.bbs s₁.rpo blocks.length idom fuel blocks :=
    { exact := linking.exact
      ranked := linking.ranked
      enough := by
        intro bb reachable
        have := (linking.number reachable).2
        omega
      spans := spans }
  apply postorderPass_frontiers setting (bbBuildDf_sends f fuel idom) enough
    (counting.even toured) connected.idom_eq
  intro bb
  rw [sameDf]
  show s₁.df bb = []
  rw [linking.renumbers.links.2.2.2]
  exact before.df bb

/-- After `build_rpo`, `build_idom` and `build_dom`, if the compiler does not stop there, `build_df`
comes to an end with the dominance frontiers in the lists if and only if the entry has no
predecessors, all predecessors of blocks within reach are within reach, and no block has more
entries, counted once for each predecessor, than there is room for. -/
theorem buildDf_frontiers_iff {f : Func} {blocks : List BlockId} {s : State} {fuel : Nat}
    (spans : Spans f.successors f.bbs blocks) (mirrored : f.Mirrored)
    (before : s.BeforeSsa f) (enough : 2 * blocks.length + 1 < fuel) :
    ∃ s₁ s₂ result, buildRpo f fuel s = some s₁ ∧ buildIdom f fuel s₁ = .ok s₂ ∧
      buildDom f fuel s₂ = some result ∧
      ∀ s₃, result = .ok s₃ → ∃ result', buildDf f fuel s₃ = some result' ∧
        ((∃ s₄, result' = .ok s₄ ∧
          AreFrontiers f.successors f.predecessors f.bbs s₄.df) ↔
            FrontiersFit dfCapacity f.successors f.predecessors f.bbs blocks) := by
  have finite : ∀ bb, f.Reachable bb → bb ∈ blocks := fun bb => (spans.mem_iff bb).mpr
  rcases exists_linking mirrored finite before.unnumbered before.idom enough with
    ⟨s₁, idom, linking⟩
  rcases linking.buildDom finite before.domTree (show blocks.length < fuel by omega) with
    ⟨t, result, builtDom, building, toured⟩
  refine ⟨s₁, _, result, linking.built, linking.builtIdom, builtDom, ?_⟩
  rintro s₃ rfl
  exact linking.buildDf spans before (show blocks.length < fuel by omega) building toured

theorem initialState_beforeSsa (f : Func) : initialState.BeforeSsa f :=
  ⟨initialState_unnumbered f, fun _ => rfl, fun _ => ⟨rfl, rfl⟩, fun _ => rfl⟩

theorem loopFunc_spans : Spans loopFunc.successors loopFunc.bbs [0, 1, 2, 3] :=
  ⟨by decide, loopFunc_allReachable.mem_iff⟩

/-- The frontiers in the loop with two ways in. -/
theorem loopFunc_frontiers_iff : ∃ s₁ s₂ result, buildRpo loopFunc 10 initialState = some s₁ ∧
    buildIdom loopFunc 10 s₁ = .ok s₂ ∧ buildDom loopFunc 10 s₂ = some result ∧
    ∀ s₃, result = .ok s₃ → ∃ result', buildDf loopFunc 10 s₃ = some result' ∧
      ((∃ s₄, result' = .ok s₄ ∧
        AreFrontiers loopFunc.successors loopFunc.predecessors loopFunc.bbs s₄.df) ↔
          FrontiersFit dfCapacity loopFunc.successors loopFunc.predecessors loopFunc.bbs
            [0, 1, 2, 3]) :=
  buildDf_frontiers_iff loopFunc_spans loopFunc_allReachable.toMirrored
    (initialState_beforeSsa loopFunc) (by decide)

/-! ## Many cases -/

/-- In a branch of a function there is a `switch` with sixty-six cases, each of which returns. The
conditions of the cases are the blocks from 3 on and their bodies those from 69 on. -/
def manyCases : Func where
  bbs := 0
  exit := 138
  block bb :=
    if bb = 0 then { insns := [], next := some 1 }
    else if bb = 1 then { insns := [], then_ := some 2, else_ := some 137, prev := [0] }
    else if bb = 2 then { insns := [], next := some 3, prev := [1] }
    else if bb < 68 then
      { insns := [], then_ := some (bb + 66), else_ := some (bb + 1), prev := [bb - 1] }
    else if bb = 68 then { insns := [], then_ := some 134, else_ := some 135, prev := [67] }
    else if bb < 135 then { insns := [], next := some 138, prev := [bb - 66] }
    else if bb = 135 then { insns := [], next := some 136, prev := [68] }
    else if bb = 136 then { insns := [], next := some 138, prev := [135, 137] }
    else if bb = 137 then { insns := [], next := some 136, prev := [1] }
    else if bb = 138 then
      { insns := [], prev := (List.range 66).map (· + 69) ++ [136] }
    else { insns := [] }

theorem manyCases_closed : ∀ bb ∈ List.range 139, ∀ succ ∈ manyCases.successors bb,
    succ ∈ List.range 139 ∧ bb ∈ manyCases.predecessors succ := by
  decide +kernel

theorem manyCases_mirror : ∀ bb ∈ List.range 139, ∀ p ∈ manyCases.predecessors bb,
    p ∈ List.range 139 ∧ bb ∈ manyCases.successors p := by
  decide +kernel

/-- All blocks but the entry, the one behind the branch and the exit have one predecessor. -/
theorem manyCases_only : ∀ bb ∈ List.range 139, bb ∈ [0, 136, 138] ∨
    ∃ p ∈ List.range bb, manyCases.predecessors bb = [p] := by
  decide +kernel

/-- All blocks but the entry have a predecessor with a lower number. -/
theorem manyCases_lower : ∀ bb ∈ List.range 139, bb = 0 ∨
    ∃ p ∈ List.range bb, bb ∈ manyCases.successors p := by
  decide +kernel

theorem manyCases_inRange (bb : Nat) (inside : bb < 139) : manyCases.Reachable bb := by
  induction bb using Nat.strongRecOn with
  | ind bb inductionHypothesis =>
      rcases manyCases_lower bb (List.mem_range.mpr inside) with rfl | ⟨p, member, edge⟩
      · exact Traversal.Reaches.refl 0
      · have lower : p < bb := List.mem_range.mp member
        exact (inductionHypothesis p lower (Nat.lt_trans lower inside)).tail edge

theorem manyCases_spans : Spans manyCases.successors manyCases.bbs (List.range 139) := by
  refine ⟨List.nodup_range, fun bb => ⟨fun member => ?_, fun reachable => ?_⟩⟩
  · exact manyCases_inRange bb (List.mem_range.mp member)
  · induction reachable with
    | refl => exact List.mem_range.mpr (by decide)
    | tail _ edge inductionHypothesis => exact (manyCases_closed _ inductionHypothesis _ edge).1

theorem manyCases_mirrored : manyCases.Mirrored := by
  intro bb p reachable reachableP
  constructor
  · exact fun member => (manyCases_mirror bb ((manyCases_spans.mem_iff bb).mpr reachable) p member).2
  · exact fun edge => (manyCases_closed p ((manyCases_spans.mem_iff p).mpr reachableP) bb edge).2

/-- A block with one predecessor is reached through it. -/
theorem manyCases_dominates {bb p : BlockId} (isOnly : manyCases.predecessors bb = [p])
    (differ : bb ≠ manyCases.bbs) :
    Traversal.Dominates manyCases.successors manyCases.bbs p bb := by
  intro rest route
  cases rest with
  | nil =>
      cases route
      exact (differ rfl).elim
  | cons q rest =>
      have reachableQ := route.tail.reaches
      have member := (manyCases_mirrored bb q route.reaches reachableQ).mpr route.edge
      rw [isOnly] at member
      rw [List.mem_singleton.mp member]
      exact List.mem_cons_of_mem _ List.mem_cons_self

/-- The first condition dominates the others. -/
theorem manyCases_conditions (bb : Nat) (inside : bb < 66) :
    Traversal.Dominates manyCases.successors manyCases.bbs 3 (bb + 3) := by
  induction bb with
  | zero => exact Traversal.Dominates.refl 3
  | succ bb inductionHypothesis =>
      have next : ∀ bb ∈ List.range 65, manyCases.predecessors (bb + 1 + 3) = [bb + 3] := by
        decide +kernel
      exact (inductionHypothesis (Nat.lt_of_succ_lt inside)).trans
        (manyCases_dominates (next bb (List.mem_range.mpr (Nat.lt_of_succ_lt_succ inside)))
          (Nat.succ_ne_zero _))

/-- It dominates the bodies. -/
theorem manyCases_bodies (bb : Nat) (inside : bb < 66) :
    Traversal.Dominates manyCases.successors manyCases.bbs 3 (bb + 69) := by
  have condition : ∀ bb ∈ List.range 66, manyCases.predecessors (bb + 69) = [bb + 3] := by
    decide +kernel
  exact (manyCases_conditions bb inside).trans
    (manyCases_dominates (condition bb (List.mem_range.mpr inside)) (Nat.succ_ne_zero _))

/-- A block immediately dominates those it is the only predecessor of, and three others at most. -/
theorem manyCases_fewDominated : manyCases.FewDominated := by
  intro d list nodup isBelow
  have few : list ⊆ [0, 136, 138] ++ manyCases.successors d := by
    intro bb member
    rcases isBelow bb member with ⟨reachable, immediate⟩
    have inRange := (manyCases_spans.mem_iff bb).mpr reachable
    rcases manyCases_only bb inRange with special | ⟨p, lower, isOnly⟩
    · exact List.mem_append_left _ special
    · have differ : bb ≠ manyCases.bbs := by
        intro isEntry
        subst isEntry
        exact Nat.not_lt_zero p (List.mem_range.mp lower)
      have edge : bb ∈ manyCases.successors p :=
        (manyCases_mirror bb inRange p (isOnly ▸ List.mem_singleton_self p)).2
      have below := immediate.strictly.before edge
      have above := immediate.nearest p
        ⟨Nat.ne_of_lt (List.mem_range.mp lower), manyCases_dominates isOnly differ⟩
      rw [← above.antisymm (manyCases_inRange p
        (Nat.lt_trans (List.mem_range.mp lower) (List.mem_range.mp inRange))) below]
      exact List.mem_append_right _ edge
  have short := (List.subperm_of_subset nodup few).length_le
  have successors : (manyCases.successors d).length ≤ 3 := by
    simp only [Func.successors, Block.successors]
    grind
  rw [List.length_append] at short
  exact Nat.le_trans short (Nat.le_trans (Nat.add_le_add_left successors 3)
    (show 3 + 3 ≤ 64 by decide))

theorem manyCases_notStrictly :
    ¬ StrictlyDominates manyCases.successors manyCases.bbs 3 138 := by
  intro strictly
  have route : Route manyCases.successors manyCases.bbs [138, 136, 137, 1, 0] :=
    .step (.step (.step (.step .start (by decide)) (by decide)) (by decide)) (by decide)
  exact absurd (strictly.2 [136, 137, 1, 0] route) (by decide)

/-- The first condition has more entries than there is room for. -/
theorem manyCases_notFit : ¬ FrontiersFit dfCapacity manyCases.successors
    manyCases.predecessors manyCases.bbs (List.range 139) := by
  classical
  intro fit
  have short := fit.short 3 (manyCases_inRange 3 (by decide))
  have atExit : 66 ≤ (manyCases.predecessors 138).countP fun p =>
      Traversal.Dominates manyCases.successors manyCases.bbs 3 p ∧
        ¬ StrictlyDominates manyCases.successors manyCases.bbs 3 138 := by
    have isRange : manyCases.predecessors 138 = (List.range 66).map (· + 69) ++ [136] := rfl
    have all : ((List.range 66).map (· + 69)).countP (fun _ => true) = 66 := by decide
    rw [isRange, ← all, List.countP_append]
    apply Nat.le_add_right_of_le
    apply List.countP_mono_left
    intro p member _
    rcases List.mem_map.mp member with ⟨bb, inside, rfl⟩
    exact decide_eq_true
      ⟨manyCases_bodies bb (List.mem_range.mp inside), manyCases_notStrictly⟩
  have many : 66 ≤ frontierCount manyCases.successors manyCases.predecessors manyCases.bbs
      (List.range 139) 3 := by
    apply Nat.le_trans atExit
    rw [frontierCount]
    apply List.single_le_sum (fun _ _ => Nat.zero_le _)
    exact List.mem_map.mpr ⟨138, List.mem_range.mpr (by decide), by congr⟩
  exact absurd (Nat.le_trans many short) (by decide)

/-- The runners of a function with many cases write beyond a list. -/
theorem manyCases_notFrontiers : ¬ ∀ (f : Func) (blocks : List BlockId) (s : State) (fuel : Nat),
    Spans f.successors f.bbs blocks → f.Mirrored → s.BeforeSsa f → 2 * blocks.length + 1 < fuel →
      ∀ s₁ s₂ s₃, buildRpo f fuel s = some s₁ → buildIdom f fuel s₁ = .ok s₂ →
        buildDom f fuel s₂ = some (.ok s₃) →
          ∃ s₄, buildDf f fuel s₃ = some (.ok s₄) ∧
            AreFrontiers f.successors f.predecessors f.bbs s₄.df := by
  intro claimed
  have finite : ∀ bb, manyCases.Reachable bb → bb ∈ List.range 139 :=
    fun bb => (manyCases_spans.mem_iff bb).mpr
  have before := initialState_beforeSsa manyCases
  rcases @exists_linking manyCases (List.range 139) initialState 280 manyCases_mirrored finite
    before.unnumbered before.idom (by simp) with ⟨s₁, idom, linking⟩
  rcases linking.buildDom finite before.domTree (by simp) with
    ⟨t, result, builtDom, building, toured⟩
  cases result with
  | error why =>
      exact building.2 ((fewLinks_iff linking.exact).mpr manyCases_fewDominated)
  | ok s₃ =>
      rcases claimed manyCases (List.range 139) initialState 280 manyCases_spans
        manyCases_mirrored before (by simp) s₁ _ s₃ linking.built linking.builtIdom builtDom with
        ⟨s₄, builtDf, areFrontiers⟩
      rcases linking.buildDf manyCases_spans before (by simp) building toured with
        ⟨result', builtDf', frontiers_iff⟩
      cases builtDf.symm.trans builtDf'
      exact manyCases_notFit (frontiers_iff.mp ⟨s₄, rfl, areFrontiers⟩)

end Shecc.Ssa
