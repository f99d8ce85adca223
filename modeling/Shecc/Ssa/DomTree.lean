import Shecc.Ssa.Idom
import Shecc.Traversal.Connect

/-!
# The dominator tree

`build_dom` comes by every block and climbs the links of `build_idom`, entering each block in the
list of the one above it, until a block is in its list already. `bb_solve_phi_params` descends
these lists.
-/

namespace Shecc.Ssa

open Traversal

/-- `MAX_BB_DOM_SUCC`. -/
def maxBbDomSucc : Nat := 64

/-- Why the compiler does not go on: it has stopped with a message, or it would never stop, or it
would follow a missing link. -/
inductive Stop
  | fatal (message : String) | halt (why : Halt)
  deriving DecidableEq

/-- `dom_connect`. The second block is looked at before the first. -/
def domConnect (s : State) (pred : Option BlockId) (succ : BlockId) : Except Stop (State × Bool) :=
  if (s.domPrev succ).isSome then .ok (s, false)
  else
    match pred with
    | none => .error (.halt .missing)
    | some pred =>
        if succ ∈ s.domNext pred then .ok (s, false)
        else if maxBbDomSucc ≤ (s.domNext pred).length then
          .error (.fatal "Too many predecessors in dominator tree")
        else
          .ok ({ s with
            domNext := Function.update s.domNext pred (s.domNext pred ++ [succ])
            domPrev := Function.update s.domPrev succ (some pred) }, true)

/-- The loop of `bb_build_dom`. -/
def bbBuildDom (f : Func) : Nat → BlockId → State → Except Stop State
  | 0, _, _ => .error (.halt .running)
  | fuel + 1, curr, s =>
      if curr = f.bbs then .ok s
      else do
        let (s, connected) ← domConnect s (s.idom curr) curr
        match connected, s.idom curr with
        | true, some idom => bbBuildDom f fuel idom s
        | _, _ => .ok s

/-- A traversal does nothing more when the compiler has stopped. -/
def dueIfRunning {ε : Type} : Except ε State → BlockId → Bool
  | .ok s, bb => s.isDue bb
  | .error _, _ => false

/-- `build_dom` for a function. -/
def buildDom (f : Func) (fuel : Nat) (s : State) : Option (Except Stop State) :=
  walk f.successors dueIfRunning
    (fun bb result => some (result >>= fun s => bbBuildDom f fuel bb (s.visit bb)))
    (fun _ result => some result) fuel f.bbs (.ok s.nextPass)

/-- The recursion of `bb_solve_phi_params`, with what it does before and behind the blocks below:
`dom_next` is read up to its first null pointer. -/
def bbSolvePhiParams {σ : Type} (s : State) (before behind : BlockId → σ → Option σ) :
    Nat → BlockId → σ → Option σ :=
  descend s.domNext before behind

/-! ## Traversals that connect -/

/-- A traversal with a callback before the children that may go wrong. -/
def preorderPass {ε : Type} (edges : BlockId → List BlockId)
    (preorderCb : BlockId → State → Except ε State) (fuel : Nat) (root : BlockId) (s : State) :
    Option (Except ε State) :=
  walk edges dueIfRunning
    (fun bb result => some (result >>= fun s => preorderCb bb (s.visit bb)))
    (fun _ result => some result) fuel root (.ok s.nextPass)

/-- The callback connects a block and what is above it. The states differ in their counts and
lists. -/
structure ConnectsUp {ε : Type} (preorderCb : BlockId → State → Except ε State)
    (state : (BlockId → Nat) → Nat → Children BlockId → State) (capacity : Nat)
    (full missing running : ε) (idom : BlockId → Option BlockId) (root : BlockId) (fuel : Nat) :
    Prop where
  visited : ∀ v n l, (state v n l).visited = v
  funcVisited : ∀ v n l, (state v n l).funcVisited = n
  visit : ∀ v n l bb, (state v n l).visit bb = state (Function.update v bb (v bb + 1)) n l
  nextPass : ∀ v n l, (state v n l).nextPass = state v (n + 1) l
  callback : ∀ v n l bb, preorderCb bb (state v n l) =
    (connectUp capacity full missing running idom root fuel bb l).map (state v n)

/-- What holds of the traversal: the blocks it has come by are connected; or a list was full. -/
def Hung {ε : Type} (edges : BlockId → List BlockId) (root : BlockId)
    (state : (BlockId → Nat) → Nat → Children BlockId → State) (capacity : Nat) (full : ε)
    (idom : BlockId → Option BlockId) : Except ε State → Tour BlockId → Prop
  | .ok s, t => ∃ v n l, s = state v n l ∧ Counting edges root s t ∧
      Hanging capacity root idom l ∧ HangsTo root none l ∧
      ∀ bb ∈ t.entered, bb = root ∨ ∃ d, l.prev bb = some d
  | .error why, _ => why = full ∧ ¬ FewBelow capacity root idom

section Connect

variable {ε : Type} {edges : BlockId → List BlockId} {root bb : BlockId} {number : BlockId → Int}
  {idom : BlockId → Option BlockId} {preorderCb : BlockId → State → Except ε State}
  {state : (BlockId → Nat) → Nat → Children BlockId → State} {capacity fuel : Nat}
  {full missing running : ε} {s : State} {t : Tour BlockId} {blocks : List BlockId}

/-- The block the traversal comes by is connected. -/
theorem Hung.enter
    (connects : ConnectsUp preorderCb state capacity full missing running idom root fuel)
    (linked : Linked edges root number idom)
    (all : ∀ bb, Traversal.Reaches edges root bb → ∃ d, idom bb = some d)
    (lowest : ∀ bb, Traversal.Reaches edges root bb → number root ≤ number bb)
    (enough : ∀ bb, Traversal.Reaches edges root bb → number bb - number root < fuel)
    (reaches : Traversal.Reaches edges root bb) (fresh : bb ∉ t.entered)
    (hung : Hung edges root state capacity full idom (.ok s) t) :
    Hung edges root state capacity full idom (preorderCb bb (s.visit bb)) (t.enter bb) := by
  rcases hung with ⟨v, n, l, rfl, counting, hanging, closed, entered⟩
  have closedTo : HangsTo root (some bb) l := by
    intro c p link
    rcases closed c p link with isRoot | linkP | ⟨⟨⟩⟩
    · exact Or.inl isRoot
    · exact Or.inr (Or.inl linkP)
  have noneLower : ∀ b, number b < number root → idom b = none := by
    intro b lower
    cases link : idom b with
    | none => rfl
    | some d => exact (Int.not_lt.mpr (lowest b (linked.reaches b d link)) lower).elim
  have counts := counting.enter reaches fresh
  rw [connects.visit] at counts ⊢
  rw [connects.callback]
  rcases @connectUp_spec _ ε capacity full missing running _ _ _ _ _ _ number fuel linked hanging
    closedTo (all bb reaches) noneLower (enough bb reaches) with
    ⟨l', ran, hanging', closed', isLinked, keeps⟩ | ⟨failed, many⟩
  · rw [ran]
    refine ⟨_, _, l', rfl, counts.keep ?_ ?_, hanging', closed', ?_⟩
    · rw [connects.visited, connects.visited]
    · rw [connects.funcVisited, connects.funcVisited]
    · intro c member
      rcases List.mem_cons.mp member with rfl | member
      · exact isLinked
      · rcases entered c member with isRoot | ⟨d, link⟩
        · exact Or.inl isRoot
        · exact Or.inr ⟨d, keeps c d link⟩
  · rw [failed]
    exact ⟨rfl, many⟩

/-- The traversal comes to an end. -/
theorem preorderPass_hung
    (connects : ConnectsUp preorderCb state capacity full missing running idom root fuel)
    (finite : ∀ bb, Traversal.Reaches edges root bb → bb ∈ blocks)
    (linked : Linked edges root number idom)
    (all : ∀ bb, Traversal.Reaches edges root bb → ∃ d, idom bb = some d)
    (lowest : ∀ bb, Traversal.Reaches edges root bb → number root ≤ number bb)
    (high : ∀ bb, Traversal.Reaches edges root bb → number bb - number root < fuel)
    (enough : blocks.length < fuel) {v : BlockId → Nat} {n : Nat} {l : Children BlockId}
    (even : (state v n l).Even edges root) (empty : ∀ bb, l.next bb = [] ∧ l.prev bb = none) :
    ∃ t result, preorderPass edges preorderCb fuel root (state v n l) = some result ∧
      Hung edges root state capacity full idom result t ∧ Toured edges root t := by
  rcases @hanging_nil _ capacity root idom l empty with ⟨hanging, closed⟩
  have start : Hung edges root state capacity full idom (.ok (state v n l).nextPass) {} :=
    ⟨v, n + 1, l, connects.nextPass v n l, even.counting, hanging, closed,
      fun _ member => (List.not_mem_nil member).elim⟩
  have follows : Follows edges root dueIfRunning
      (fun bb result => some (result >>= fun s => preorderCb bb (s.visit bb)))
      (fun _ result => some result) (Hung edges root state capacity full idom) := by
    constructor
    · intro bb result t reaches hung
      cases result with
      | ok s =>
          rcases hung with ⟨_, _, _, _, counting, _⟩
          exact Or.inl (counting.isDue_eq reaches)
      | error why => exact Or.inr ⟨rfl, fun _ => hung⟩
    · intro bb stack result t _ route fresh hung
      cases result with
      | ok s =>
          exact ⟨_, rfl, Hung.enter connects linked all lowest high route.reaches fresh hung⟩
      | error why => exact ⟨_, rfl, hung⟩
    · intro bb stack result t _ _ hung
      refine ⟨result, rfl, ?_⟩
      cases result with
      | ok s =>
          rcases hung with ⟨v, n, l, isState, counting, rest⟩
          exact ⟨v, n, l, isState, ⟨counting.inside, counting.outside⟩, rest⟩
      | error why => exact hung
  rcases walk_follows_root follows finite start enough with ⟨t, result, _, ran, holds, toured⟩
  exact ⟨t, result, ran, holds, toured⟩

end Connect

/-! ## The tree while it is built -/

/-- The lists have links of `build_idom`, each once, and have not overflown. -/
structure Connected (root : BlockId) (idom : BlockId → Option BlockId) (s : State) : Prop where
  idom_eq : s.idom = idom
  prev : ∀ c p, s.domPrev c = some p → c ≠ root ∧ idom c = some p
  next_iff : ∀ p c, c ∈ s.domNext p ↔ s.domPrev c = some p
  nodup : ∀ p, (s.domNext p).Nodup
  short : ∀ p, (s.domNext p).length ≤ maxBbDomSucc

/-- What is connected is connected all the way up, or up to the block. -/
def ClosedTo (root : BlockId) (curr : Option BlockId) (s : State) : Prop :=
  ∀ c p, s.domPrev c = some p → p = root ∨ (∃ q, s.domPrev p = some q) ∨ some p = curr

/-- No block is the link of more than `MAX_BB_DOM_SUCC` others. -/
def FewLinks (root : BlockId) (idom : BlockId → Option BlockId) : Prop :=
  FewBelow maxBbDomSucc root idom

/-- The state with other lists. -/
def State.withDom (s : State) (l : Children BlockId) : State :=
  { s with domNext := l.next, domPrev := l.prev }

section Connect

variable {f : Func} {fuel : Nat} {s : State}

/-- `dom_connect` connects. -/
theorem domConnect_eq (s : State) (l : Children BlockId) (pred : Option BlockId) (succ : BlockId) :
    domConnect (s.withDom l) pred succ =
      (connect maxBbDomSucc (.fatal "Too many predecessors in dominator tree") (.halt .missing)
        pred succ l).map fun r => (s.withDom r.1, r.2) := by
  cases pred with
  | none =>
      rw [domConnect, connect]
      show (if (l.prev succ).isSome = true then _ else _) = _
      split <;> rfl
  | some pred =>
      rw [domConnect, connect]
      show (if (l.prev succ).isSome = true then _
        else if succ ∈ l.next pred then _
        else if maxBbDomSucc ≤ (l.next pred).length then _ else _) = _
      split
      · rfl
      · split
        · rfl
        · split <;> rfl

/-- The loop of `bb_build_dom` connects a block and what is above it. -/
theorem bbBuildDom_eq (f : Func) (fuel : Nat) (s : State) (l : Children BlockId) (curr : BlockId) :
    bbBuildDom f fuel curr (s.withDom l) =
      (connectUp maxBbDomSucc (.fatal "Too many predecessors in dominator tree") (.halt .missing)
        (.halt .running) s.idom f.bbs fuel curr l).map s.withDom := by
  induction fuel generalizing curr l with
  | zero => rfl
  | succ fuel inductionHypothesis =>
      rw [bbBuildDom, connectUp]
      split
      · rfl
      · show (domConnect (s.withDom l) (s.idom curr) curr >>= _) = _
        rw [domConnect_eq]
        cases connect maxBbDomSucc (Stop.fatal "Too many predecessors in dominator tree")
          (Stop.halt Halt.missing) (s.idom curr) curr l with
        | error why => rfl
        | ok r =>
            rcases r with ⟨l', connected⟩
            cases connected with
            | false => rfl
            | true =>
                cases link : s.idom curr with
                | none =>
                    simp only [Except.map, bind, Except.bind]
                    rw [show (s.withDom l').idom curr = none from link]
                | some d =>
                    simp only [Except.map, bind, Except.bind]
                    rw [show (s.withDom l').idom curr = some d from link]
                    exact inductionHypothesis l' d

end Connect

/-! ## The whole tree -/

/-- What holds of the traversal of `build_dom`: the blocks it has come by are connected, and the
rest of the state is as it was; or the compiler has stopped at a block with too many below it. -/
def Building (f : Func) (idom : BlockId → Option BlockId) (s₀ : State) :
    Except Stop State → Tour BlockId → Prop
  | .ok s, t => Counting f.successors f.bbs s t ∧ Connected f.bbs idom s ∧
      ClosedTo f.bbs none s ∧ (∀ bb ∈ t.entered, bb = f.bbs ∨ ∃ d, s.domPrev bb = some d) ∧
      s.df = s₀.df
  | .error why, _ => why = .fatal "Too many predecessors in dominator tree" ∧ ¬ FewLinks f.bbs idom

section Build

variable {f : Func} {s : State} {blocks : List BlockId} {fuel : Nat}

/-- `build_dom` comes to an end. -/
theorem buildDom_building (finite : ∀ bb, f.Reachable bb → bb ∈ blocks)
    (linked : Linked f.successors f.bbs s.rpo s.idom)
    (all : ∀ bb, f.Reachable bb → ∃ d, s.idom bb = some d)
    (lowest : ∀ bb, f.Reachable bb → s.rpo f.bbs ≤ s.rpo bb)
    (high : ∀ bb, f.Reachable bb → s.rpo bb - s.rpo f.bbs < fuel)
    (enough : blocks.length < fuel) (even : s.Even f.successors f.bbs)
    (empty : ∀ bb, s.domNext bb = [] ∧ s.domPrev bb = none) :
    ∃ t result, buildDom f fuel s = some result ∧ Building f s.idom s result t ∧
      Toured f.successors f.bbs t := by
  have connects : ConnectsUp (bbBuildDom f fuel)
      (fun v n l => { s with visited := v, funcVisited := n }.withDom l) maxBbDomSucc
      (.fatal "Too many predecessors in dominator tree") (.halt .missing) (.halt .running)
      s.idom f.bbs fuel :=
    ⟨fun _ _ _ => rfl, fun _ _ _ => rfl, fun _ _ _ _ => rfl, fun _ _ _ => rfl,
      fun v n l bb => bbBuildDom_eq f fuel { s with visited := v, funcVisited := n } l bb⟩
  rcases @preorderPass_hung Stop f.successors f.bbs s.rpo s.idom (bbBuildDom f fuel) _ _ fuel _ _ _
    blocks connects finite linked all lowest high enough s.visited s.funcVisited
    ⟨s.domNext, s.domPrev⟩ even empty with ⟨t, result, ran, hung, toured⟩
  refine ⟨t, result, ran, ?_, toured⟩
  cases result with
  | ok s' =>
      rcases hung with ⟨v, n, l, rfl, counting, hanging, closed, entered⟩
      exact ⟨counting, ⟨rfl, hanging.prev, hanging.next_iff, hanging.nodup, hanging.short⟩, closed,
        entered, rfl⟩
  | error why => exact hung

end Build

/-- No block immediately dominates more than `MAX_BB_DOM_SUCC` others. -/
def Func.FewDominated (f : Func) : Prop :=
  ∀ d (list : List BlockId), list.Nodup →
    (∀ bb ∈ list, f.Reachable bb ∧ ImmediatelyDominates f.successors f.bbs d bb) →
      list.length ≤ maxBbDomSucc

/-- Each block other than the entry is in the list of its immediate dominator once and in no
other, and the recursion enters each block once, with its dominators on the stack. -/
structure Func.DominatorTree (f : Func) (blocks : List BlockId) (s : State)
    (visits : Visits BlockId) : Prop where
  once : ∀ bb ∈ blocks, bb ≠ f.bbs → ∃ d, s.idom bb = some d ∧
    ImmediatelyDominates f.successors f.bbs d bb ∧
      ∀ p, (s.domNext p).count bb = if p = d then 1 else 0
  nodup : (visits.entered.map Prod.fst).Nodup
  mem_iff : ∀ bb, bb ∈ visits.entered.map Prod.fst ↔ bb ∈ blocks
  onStack : ∀ visit ∈ visits.entered, ∀ d, d ∈ visit.1 :: visit.2 ↔
    Traversal.Dominates f.successors f.bbs d visit.1

section Tree

variable {f : Func} {s : State} {t : Tour BlockId} {blocks : List BlockId} {bound fuel : Nat}
  {number : BlockId → Int}

theorem fewLinks_iff {idom : BlockId → Option BlockId}
    (immediate : ExactLinks f.successors f.bbs number idom) : FewLinks f.bbs idom ↔ f.FewDominated := by
  simp only [FewLinks, FewBelow, Func.FewDominated, immediate.link_iff]
  exact Iff.rfl

/-- The lists are the inverse of the links when every block was come by. -/
theorem Connected.inverse {idom : BlockId → Option BlockId} (connected : Connected f.bbs idom s)
    (immediate : ExactLinks f.successors f.bbs number idom)
    (ranked : Ranked f.successors f.predecessors f.bbs number bound)
    (all : ∀ bb, f.Reachable bb → bb = f.bbs ∨ ∃ d, s.domPrev bb = some d) :
    Inverse idom f.bbs number bound s.domNext := by
  have mem_iff : ∀ b c, c ∈ s.domNext b ↔ c ≠ f.bbs ∧ idom c = some b := by
    intro b c
    rw [connected.next_iff]
    constructor
    · exact connected.prev c b
    · rintro ⟨differ, link⟩
      rcases all c (immediate.linked.reaches c b link) with isEntry | ⟨d, isPrev⟩
      · exact (differ isEntry).elim
      · cases link.symm.trans (connected.prev c d isPrev).2
        exact isPrev
  refine ⟨mem_iff, connected.nodup, ?_, ?_⟩
  · intro b c member
    rcases (mem_iff b c).mp member with ⟨differ, link⟩
    exact immediate.linked.lower c b link differ
  · intro b c member
    exact ranked.bounded c (immediate.linked.reaches c b ((mem_iff b c).mp member).2)

/-- When every block was come by, none has too many below it. -/
theorem Connected.fewDominated {idom : BlockId → Option BlockId} (connected : Connected f.bbs idom s)
    (immediate : ExactLinks f.successors f.bbs number idom)
    (all : ∀ bb, f.Reachable bb → bb = f.bbs ∨ ∃ d, s.domPrev bb = some d) : f.FewDominated := by
  rw [← fewLinks_iff immediate]
  intro p list nodup isBelow
  apply Nat.le_trans _ (connected.short p)
  apply (List.subperm_of_subset nodup _).length_le
  intro c member
  rcases isBelow c member with ⟨differ, link⟩
  rcases all c (immediate.linked.reaches c p link) with isEntry | ⟨d, isPrev⟩
  · exact (differ isEntry).elim
  · cases link.symm.trans (connected.prev c d isPrev).2
    exact (connected.next_iff p c).mpr isPrev

/-- The tree, and the recursion over it. -/
theorem Connected.dominatorTree (connected : Connected f.bbs s.idom s)
    (immediate : ExactLinks f.successors f.bbs number s.idom)
    (ranked : Ranked f.successors f.predecessors f.bbs number blocks.length)
    (graph : f.AllReachable blocks)
    (all : ∀ bb, f.Reachable bb → bb = f.bbs ∨ ∃ d, s.domPrev bb = some d)
    (enough : blocks.length < fuel) :
    ∃ visits, bbSolvePhiParams s Visits.enter Visits.leave fuel f.bbs {} = some visits ∧
      f.DominatorTree blocks s visits := by
  have inverse := connected.inverse immediate ranked all
  have nonneg := ranked.nonneg
  have descent : ∃ new, bbSolvePhiParams s Visits.enter Visits.leave fuel f.bbs {} =
      some ⟨[], new ++ []⟩ ∧ Below s.idom [] [f.bbs] new :=
    descend_below inverse immediate.linked.rootLink (by omega)
      (ranked.bounded f.bbs f.reachable_entry)
  rcases descent with ⟨new, went, below⟩
  rw [List.append_nil] at went
  have toEntry : ∀ bb, f.Reachable bb → Chain s.idom bb f.bbs := fun bb reachable =>
    (immediate.chain_iff ranked reachable).mpr (root_dominates bb)
  have mem_iff : ∀ bb, bb ∈ new.map Prod.fst ↔ bb ∈ blocks := by
    intro bb
    rw [below.mem_iff, graph.mem_iff]
    constructor
    · rintro ⟨b, isEntry, chain⟩
      rw [List.mem_singleton.mp isEntry] at chain
      rcases Relation.ReflTransGen.cases_head chain with rfl | ⟨c, link, -⟩
      · exact f.reachable_entry
      · exact immediate.linked.reaches bb c link
    · exact fun reachable => ⟨f.bbs, List.mem_singleton_self _, toEntry bb reachable⟩
  refine ⟨⟨[], new⟩, went, ⟨?_, below.nodup, mem_iff, ?_⟩⟩
  · intro bb member differ
    rcases immediate.link bb ((graph.mem_iff bb).mp member) differ with ⟨d, link, isImmediate⟩
    refine ⟨d, link, isImmediate, ?_⟩
    intro p
    have isIn : bb ∈ s.domNext p ↔ p = d := by
      rw [inverse.mem_iff, link]
      simp [differ, eq_comm]
    rw [(connected.nodup p).count]
    exact if_congr isIn rfl rfl
  · intro visit member d
    have reachable : f.Reachable visit.1 :=
      (graph.mem_iff _).mp ((mem_iff _).mp (List.mem_map_of_mem member))
    rw [below.onStack visit member d, ← immediate.chain_iff ranked reachable]
    constructor
    · rintro (⟨b, _, up, _⟩ | ⟨⟨⟩⟩)
      exact up
    · intro up
      have reachableD : f.Reachable d := by
        rcases Relation.ReflTransGen.cases_tail up with rfl | ⟨c, _, link⟩
        · exact reachable
        · rcases immediate.linked.closed c d link with ⟨e, link'⟩
          exact immediate.linked.reaches d e link'
      exact Or.inl ⟨f.bbs, List.mem_singleton_self _, up, toEntry d reachableD⟩

end Tree

/-! ## The passes together -/

/-- The state behind `build_rpo` and `build_idom`: `s₁`, with the links to the immediate dominators. -/
structure Linking (f : Func) (blocks : List BlockId) (fuel : Nat) (s s₁ : State)
    (idom : BlockId → Option BlockId) : Prop where
  built : buildRpo f fuel s = some s₁
  builtIdom : buildIdom f fuel s₁ = .ok { s₁ with idom := idom }
  even : s₁.Even f.successors f.bbs
  renumbers : s.Renumbers s₁
  exact : ExactLinks f.successors f.bbs s₁.rpo idom
  ranked : Ranked f.successors f.predecessors f.bbs s₁.rpo blocks.length

section Passes

variable {f : Func} {blocks : List BlockId} {s s₁ : State} {fuel : Nat}
  {idom : BlockId → Option BlockId}

theorem exists_linking (mirrored : f.Mirrored) (finite : ∀ bb, f.Reachable bb → bb ∈ blocks)
    (unnumbered : s.Unnumbered f) (unlinked : ∀ bb, s.idom bb = none)
    (enough : 2 * blocks.length + 1 < fuel) : ∃ s₁ idom, Linking f blocks fuel s s₁ idom := by
  rcases buildRpo_numbered finite (show blocks.length < fuel by omega) unnumbered with
    ⟨t, s₁, _, built, numbered, even, renumbers⟩
  have unlinked₁ : ∀ bb, s₁.idom bb = none := by
    intro bb
    rw [renumbers.links.1]
    exact unlinked bb
  rcases buildIdom_linked numbered mirrored finite unlinked₁ enough with
    ⟨idom, builtIdom, linked, isImmediate⟩
  exact ⟨s₁, idom, built, builtIdom, even, renumbers, ⟨linked, isImmediate⟩,
    numbered.ranked mirrored finite⟩

/-- Numbers of blocks within reach are between that of the entry and the number of blocks. -/
theorem Linking.number (linking : Linking f blocks fuel s s₁ idom) {bb : BlockId}
    (reachable : f.Reachable bb) :
    s₁.rpo f.bbs ≤ s₁.rpo bb ∧ s₁.rpo bb - s₁.rpo f.bbs ≤ blocks.length := by
  have bounded := linking.ranked.bounded bb reachable
  have nonneg := linking.ranked.nonneg
  refine ⟨?_, by omega⟩
  by_cases isEntry : bb = f.bbs
  · exact isEntry ▸ Int.le_refl _
  · exact Int.le_of_lt (linking.ranked.root_lt bb reachable isEntry)

/-- `build_dom` behind them. -/
theorem Linking.buildDom (linking : Linking f blocks fuel s s₁ idom)
    (finite : ∀ bb, f.Reachable bb → bb ∈ blocks)
    (empty : ∀ bb, s.domNext bb = [] ∧ s.domPrev bb = none) (enough : blocks.length < fuel) :
    ∃ t result, buildDom f fuel { s₁ with idom := idom } = some result ∧
      Building f idom { s₁ with idom := idom } result t ∧ Toured f.successors f.bbs t := by
  apply @buildDom_building f { s₁ with idom := idom } blocks fuel finite linking.exact.linked
    (fun bb => linking.exact.exists_link) (fun bb reachable => (linking.number reachable).1) _
    enough linking.even
  · intro bb
    show s₁.domNext bb = [] ∧ s₁.domPrev bb = none
    rw [linking.renumbers.links.2.1, linking.renumbers.links.2.2.1]
    exact empty bb
  · intro bb reachable
    have := (linking.number reachable).2
    show s₁.rpo bb - s₁.rpo f.bbs < fuel
    omega

end Passes

/-- After `build_rpo`, `build_idom` and `build_dom` the lists are the dominator tree, and the
recursion of `bb_solve_phi_params` goes over it; if a block has too many in its list, the compiler
stops with a message. -/
theorem buildDom_tree {f : Func} {blocks : List BlockId} {s : State} {fuel : Nat}
    (graph : f.AllReachable blocks) (unnumbered : s.Unnumbered f)
    (unlinked : ∀ bb, s.idom bb = none) (empty : ∀ bb, s.domNext bb = [] ∧ s.domPrev bb = none)
    (enough : 2 * blocks.length + 1 < fuel) :
    ∃ s₁ s₂ result, buildRpo f fuel s = some s₁ ∧ buildIdom f fuel s₁ = .ok s₂ ∧
      buildDom f fuel s₂ = some result ∧
      (¬ f.FewDominated →
        result = .error (.fatal "Too many predecessors in dominator tree")) ∧
      (f.FewDominated → ∃ s₃ visits, result = .ok s₃ ∧
        bbSolvePhiParams s₃ Visits.enter Visits.leave fuel f.bbs {} = some visits ∧
        f.DominatorTree blocks s₃ visits) := by
  rcases exists_linking graph.toMirrored graph.finite unnumbered unlinked enough with
    ⟨s₁, idom, linking⟩
  rcases linking.buildDom graph.finite empty (show blocks.length < fuel by omega) with
    ⟨t, result, builtDom, building, toured⟩
  refine ⟨s₁, _, result, linking.built, linking.builtIdom, builtDom, ?_, ?_⟩
  · intro many
    cases result with
    | error why => rw [building.1]
    | ok s₃ =>
        rcases building with ⟨_, connected, _, entered, _⟩
        exact (many (connected.fewDominated linking.exact fun bb reachable =>
          entered bb (toured.mem_entered_iff.mpr reachable))).elim
  · intro few
    cases result with
    | error why => exact (building.2 ((fewLinks_iff linking.exact).mpr few)).elim
    | ok s₃ =>
        rcases building with ⟨_, connected, _, entered, _⟩
        have sameIdom : s₃.idom = idom := connected.idom_eq
        have immediate := linking.exact
        rw [← sameIdom] at immediate
        have connected' : Connected f.bbs s₃.idom s₃ := by
          rw [sameIdom]
          exact connected
        rcases connected'.dominatorTree immediate linking.ranked graph (fun bb reachable =>
          entered bb (toured.mem_entered_iff.mpr reachable))
          (show blocks.length < fuel by omega) with ⟨visits, visited, tree⟩
        exact ⟨s₃, visits, rfl, visited, tree⟩

theorem loopFunc_fewDominated : loopFunc.FewDominated := by
  intro d list nodup isBelow
  have subset : list ⊆ [0, 1, 2, 3] := fun bb member => loopFunc_blocks bb (isBelow bb member).1
  exact Nat.le_trans (List.subperm_of_subset nodup subset).length_le (by decide)

/-- All blocks of the loop with two ways in are below the entry. -/
theorem loopFunc_dominatorTree : ∃ s₁ s₂ s₃ visits, buildRpo loopFunc 10 initialState = some s₁ ∧
    buildIdom loopFunc 10 s₁ = .ok s₂ ∧ buildDom loopFunc 10 s₂ = some (.ok s₃) ∧
    bbSolvePhiParams s₃ Visits.enter Visits.leave 10 loopFunc.bbs {} = some visits ∧
    loopFunc.DominatorTree [0, 1, 2, 3] s₃ visits := by
  rcases @buildDom_tree loopFunc [0, 1, 2, 3] initialState 10 loopFunc_allReachable
    (initialState_unnumbered loopFunc) (fun _ => rfl) (fun _ => ⟨rfl, rfl⟩) (by decide) with
    ⟨s₁, s₂, result, built, builtIdom, builtDom, -, tree⟩
  rcases tree loopFunc_fewDominated with ⟨s₃, visits, rfl, visited, isTree⟩
  exact ⟨s₁, s₂, s₃, visits, built, builtIdom, builtDom, visited, isTree⟩

end Shecc.Ssa
