import Shecc.Traversal.Route
import Mathlib.Logic.Function.Basic

/-!
# Links to dominators

An iteration for immediate dominators keeps a link for each vertex it has come by. Vertices are
numbered; a link leads to a lower number. The nearest common vertex of two chains is found by
climbing from the one with the higher number. The file says which links can arise and proves
that the new link of a vertex is again of this kind.
-/

namespace Shecc.Traversal

variable {β : Type}

/-- Why a computation does not come to a result: the fuel is used up, or a link that is missing
is followed. -/
inductive Halt
  | running | missing
  deriving DecidableEq

/-- The vertices on the way up from a vertex. -/
def Chain (idom : β → Option β) : β → β → Prop :=
  Relation.ReflTransGen fun b d => idom b = some d

/-- There is a path whose vertices behind the first have at least the number. -/
def Above (edges : β → List β) (number : β → Int) (least : Int) : β → β → Prop :=
  Relation.ReflTransGen fun b c => c ∈ edges b ∧ least ≤ number c

/-! ## The computation -/

section Computation

variable (number : β → Int) (idom : β → Option β)

/-- Climbing while the number is above the limit. -/
def climb (limit : Int) : Nat → β → Except Halt β
  | 0, _ => .error .running
  | fuel + 1, b =>
      if limit < number b then
        match idom b with
        | none => .error .missing
        | some d => climb limit fuel d
      else .ok b

variable [DecidableEq β]

/-- Climbing from two vertices until they are the same. -/
def meet (fuel : Nat) : Nat → β → β → Except Halt β
  | 0, _, _ => .error .running
  | rounds + 1, i, j =>
      if i = j then .ok i
      else do
        let i ← climb number idom (number j) fuel i
        let j ← climb number idom (number i) fuel j
        meet fuel rounds i j

/-- Meeting every vertex of the list that has a link and is not the one come to. -/
def meetAll (fuel : Nat) : List β → β → Except Halt β
  | [], pred => .ok pred
  | p :: rest, pred =>
      if p = pred then meetAll fuel rest pred
      else
        match idom p with
        | none => meetAll fuel rest pred
        | some _ => do
            let pred ← meet number idom fuel fuel p pred
            meetAll fuel rest pred

/-- The vertex a link is to lead to: the first with a link, met with all the others. If there is
none, the variable it would be in was never written. -/
def choose (fuel : Nat) (preds : List β) : Except Halt β :=
  match preds.find? fun p => (idom p).isSome with
  | none => .error .missing
  | some pred => meetAll number idom fuel preds pred

end Computation

/-! ## The graph -/

/-- The numbers of the vertices within reach: no two are the same, the root has the lowest, and
each other vertex has an edge to it from one with a lower number. -/
structure Ranked (edges preds : β → List β) (root : β) (number : β → Int) (bound : Nat) :
    Prop where
  mem_preds : ∀ b p, Reaches edges root b → Reaches edges root p → (p ∈ preds b ↔ b ∈ edges p)
  nonneg : 0 ≤ number root
  bounded : ∀ b, Reaches edges root b → number b ≤ bound
  injective : ∀ b c, Reaches edges root b → Reaches edges root c → number b = number c → b = c
  root_lt : ∀ b, Reaches edges root b → b ≠ root → number root < number b
  parent : ∀ b, Reaches edges root b → b ≠ root →
    ∃ p, Reaches edges root p ∧ b ∈ edges p ∧ number p < number b

/-- The links there may be: to a linked vertex with a lower number, from which there is a path
that does not go below it, and which all strict dominators dominate. -/
structure Linked (edges : β → List β) (root : β) (number : β → Int) (idom : β → Option β) :
    Prop where
  rootLink : idom root = some root
  reaches : ∀ b d, idom b = some d → Reaches edges root b
  closed : ∀ b d, idom b = some d → ∃ e, idom d = some e
  lower : ∀ b d, idom b = some d → b ≠ root → number d < number b
  above : ∀ b d, idom b = some d → b ≠ root → Above edges number (number d) d b
  dominated : ∀ b d, idom b = some d → b ≠ root → ∀ a, StrictlyDominates edges root a b →
    Dominates edges root a d

section Chains

variable {edges preds : β → List β} {root a b c d p i j : β} {number : β → Int} {bound : Nat}
  {idom : β → Option β}

theorem Chain.refl (b : β) : Chain idom b b := Relation.ReflTransGen.refl

theorem Chain.single (link : idom b = some d) : Chain idom b d := Relation.ReflTransGen.single link

theorem Chain.trans (first : Chain idom b c) (second : Chain idom c d) : Chain idom b d :=
  Relation.ReflTransGen.trans first second

theorem Chain.head (link : idom b = some c) (chain : Chain idom c d) : Chain idom b d :=
  Relation.ReflTransGen.head link chain

/-- The way up from a vertex to another begins with its link. -/
theorem Chain.from_link (chain : Chain idom b a) (differ : a ≠ b) (link : idom b = some d) :
    Chain idom d a := by
  rcases Relation.ReflTransGen.cases_head chain with same | ⟨c, linkC, rest⟩
  · exact (differ same.symm).elim
  · cases link.symm.trans linkC
    exact rest

theorem Above.mono {least lower : Int} (above : Above edges number least b c)
    (le : lower ≤ least) : Above edges number lower b c :=
  Relation.ReflTransGen.mono (fun _ _ step => ⟨step.1, Int.le_trans le step.2⟩) _ _ above

/-- A route that avoids a vertex with a lower number goes on along the path and avoids it. -/
theorem Above.route {least : Int} {rest : List β} (above : Above edges number least b c)
    (route : Route edges root (b :: rest)) (avoids : a ∉ b :: rest) (below : number a < least) :
    ∃ rest', Route edges root (c :: rest') ∧ a ∉ c :: rest' := by
  induction above with
  | refl => exact ⟨rest, route, avoids⟩
  | @tail c d _ step inductionHypothesis =>
      rcases inductionHypothesis with ⟨rest', route', avoids'⟩
      refine ⟨c :: rest', route'.step step.1, ?_⟩
      intro member
      rcases List.mem_cons.mp member with rfl | member
      · exact Int.not_lt.mpr step.2 below
      · exact avoids' member

namespace Linked

theorem chain_linked (linked : Linked edges root number idom) (chain : Chain idom b a)
    (link : ∃ d, idom b = some d) : ∃ d, idom a = some d := by
  induction chain with
  | refl => exact link
  | tail _ link _ => exact linked.closed _ _ link

theorem reaches_of_chain (linked : Linked edges root number idom) (chain : Chain idom b a)
    (link : ∃ d, idom b = some d) : Reaches edges root a := by
  rcases linked.chain_linked chain link with ⟨d, link⟩
  exact linked.reaches a d link

/-- Nothing is above the root. -/
theorem chain_root (linked : Linked edges root number idom) (chain : Chain idom root a) :
    a = root := by
  induction chain with
  | refl => rfl
  | tail _ link inductionHypothesis =>
      rw [inductionHypothesis, linked.rootLink] at link
      exact (Option.some.inj link).symm

theorem number_le_of_link (linked : Linked edges root number idom) (link : idom b = some d) :
    number d ≤ number b := by
  by_cases isRoot : b = root
  · have same : d = root := linked.chain_root (isRoot ▸ Chain.single link)
    exact Int.le_of_eq (congrArg number (same.trans isRoot.symm))
  · exact Int.le_of_lt (linked.lower b d link isRoot)

theorem number_le (linked : Linked edges root number idom) (chain : Chain idom b a) :
    number a ≤ number b := by
  induction chain with
  | refl => exact Int.le_refl _
  | tail _ link inductionHypothesis =>
      exact Int.le_trans (linked.number_le_of_link link) inductionHypothesis

/-- A vertex on the way up has a lower number, unless it is the same. -/
theorem number_lt (linked : Linked edges root number idom) (chain : Chain idom b a)
    (differ : a ≠ b) : number a < number b := by
  rcases Relation.ReflTransGen.cases_head chain with same | ⟨c, link, rest⟩
  · exact (differ same.symm).elim
  · have notRoot : b ≠ root := by
      rintro rfl
      exact differ (linked.chain_root chain)
    exact Int.lt_of_le_of_lt (linked.number_le rest) (linked.lower b c link notRoot)

theorem above_of_chain (linked : Linked edges root number idom) (chain : Chain idom b a) :
    Above edges number (number a) a b := by
  induction chain with
  | refl => exact Relation.ReflTransGen.refl
  | @tail c d chain link inductionHypothesis =>
      by_cases isRoot : c = root
      · have same : d = root := linked.chain_root (isRoot ▸ Chain.single link)
        rw [same, ← isRoot]
        exact inductionHypothesis
      · exact (linked.above c d link isRoot).trans
          (inductionHypothesis.mono (linked.number_le_of_link link))

/-- All dominators of a linked vertex are on the way up from it. -/
theorem chain_of_dominates (ranked : Ranked edges preds root number bound)
    (linked : Linked edges root number idom) (link : ∃ d, idom b = some d)
    (dominates : Dominates edges root a b) : Chain idom b a := by
  rcases link with ⟨d, link⟩
  induction isNumber : (number b).toNat using Nat.strongRecOn generalizing b d with
  | ind n inductionHypothesis =>
      subst isNumber
      by_cases same : a = b
      · rw [same]
        exact Chain.refl b
      have notRoot : b ≠ root := by
        rintro rfl
        exact same dominates.eq_root
      have lower := linked.lower b d link notRoot
      have reaches := linked.reaches b d link
      have positive := ranked.root_lt b reaches notRoot
      have nonneg := ranked.nonneg
      rcases linked.closed b d link with ⟨e, linkD⟩
      exact Chain.head link (inductionHypothesis _ (by omega)
        (linked.dominated b d link notRoot a ⟨same, dominates⟩) e linkD rfl)

end Linked

/-! ## Climbing and meeting -/

variable {fuel rounds : Nat}

/-- Climbing ends at a vertex that is not above the limit; no vertex below the limit is passed
by. -/
theorem climb_spec (ranked : Ranked edges preds root number bound)
    (linked : Linked edges root number idom) {limit : Int} (link : ∃ d, idom b = some d)
    (rootBelow : number root ≤ limit) (enough : (number b).toNat < fuel) :
    ∃ c, climb number idom limit fuel b = .ok c ∧ Chain idom b c ∧ number c ≤ limit ∧
      ∀ a, Chain idom b a → number a ≤ limit → Chain idom c a := by
  induction fuel generalizing b with
  | zero => cases enough
  | succ fuel inductionHypothesis =>
      rw [climb]
      by_cases isAbove : limit < number b
      · rcases link with ⟨d, link⟩
        have notRoot : b ≠ root := by
          rintro rfl
          omega
        have lower := linked.lower b d link notRoot
        have positive := ranked.root_lt b (linked.reaches b d link) notRoot
        have nonneg := ranked.nonneg
        rcases inductionHypothesis (linked.closed b d link) (by omega) with
          ⟨c, climbed, chain, isBelow, passes⟩
        refine ⟨c, ?_, Chain.head link chain, isBelow, ?_⟩
        · rw [if_pos isAbove, link]
          exact climbed
        · intro a chainA below
          apply passes a _ below
          apply chainA.from_link _ link
          rintro rfl
          omega
      · exact ⟨b, if_neg isAbove, Chain.refl b, Int.not_lt.mp isAbove, fun a chain _ => chain⟩

variable [DecidableEq β]

/-- Two linked vertices meet at the nearest vertex that is on both ways up. -/
theorem meet_spec (ranked : Ranked edges preds root number bound)
    (linked : Linked edges root number idom) (linkI : ∃ d, idom i = some d)
    (linkJ : ∃ d, idom j = some d) (enough : bound < fuel)
    (enoughRounds : (number i).toNat + (number j).toNat < rounds) :
    ∃ c, meet number idom fuel rounds i j = .ok c ∧ Chain idom i c ∧ Chain idom j c ∧
      ∀ a, Chain idom i a → Chain idom j a → Chain idom c a := by
  induction rounds generalizing i j with
  | zero => cases enoughRounds
  | succ rounds inductionHypothesis =>
      rw [meet]
      by_cases same : i = j
      · subst same
        exact ⟨i, if_pos rfl, Chain.refl i, Chain.refl i, fun a chain _ => chain⟩
      have reachesI := linked.reaches_of_chain (Chain.refl i) linkI
      have reachesJ := linked.reaches_of_chain (Chain.refl j) linkJ
      have boundI := ranked.bounded i reachesI
      have boundJ := ranked.bounded j reachesJ
      have nonneg := ranked.nonneg
      have rootLe : ∀ c, Reaches edges root c → number root ≤ number c := by
        intro c reaches
        by_cases isRoot : c = root
        · exact isRoot ▸ Int.le_refl _
        · exact Int.le_of_lt (ranked.root_lt c reaches isRoot)
      have distinct : number i ≠ number j := fun equal =>
        same (ranked.injective i j reachesI reachesJ equal)
      rcases climb_spec ranked linked linkI (rootLe j reachesJ)
        (show (number i).toNat < fuel by omega) with
        ⟨i', climbedI, chainI, belowI, passesI⟩
      have linkI' := linked.chain_linked chainI linkI
      have reachesI' := linked.reaches_of_chain chainI linkI
      rcases climb_spec ranked linked linkJ (rootLe i' reachesI')
        (show (number j).toNat < fuel by omega) with
        ⟨j', climbedJ, chainJ, belowJ, passesJ⟩
      have linkJ' := linked.chain_linked chainJ linkJ
      have reachesJ' := linked.reaches_of_chain chainJ linkJ
      have lowerI := linked.number_le chainI
      have lowerJ := linked.number_le chainJ
      have := rootLe i' reachesI'
      have := rootLe j' reachesJ'
      have smaller : (number i').toNat + (number j').toNat < (number i).toNat + (number j).toNat := by
        omega
      rcases inductionHypothesis linkI' linkJ' (by omega) with ⟨c, met, toI, toJ, nearest⟩
      refine ⟨c, ?_, chainI.trans toI, chainJ.trans toJ, ?_⟩
      · rw [if_neg same, climbedI]
        show (climb number idom (number i') fuel j >>= _) = _
        rw [climbedJ]
        exact met
      · intro a chainA chainA'
        have below : number a ≤ number j := linked.number_le chainA'
        have toI' := passesI a chainA below
        exact nearest a toI' (passesJ a chainA' (linked.number_le toI'))

/-- The nearest vertex on the way up from all linked vertices of the list. -/
structure Chosen (idom : β → Option β) (preds : List β) (d : β) : Prop where
  common : ∀ p ∈ preds, (∃ e, idom p = some e) → Chain idom p d
  nearest : ∀ a, (∀ p ∈ preds, (∃ e, idom p = some e) → Chain idom p a) → Chain idom d a

theorem meetAll_spec (ranked : Ranked edges preds root number bound)
    (linked : Linked edges root number idom) {list : List β} {pred : β}
    (link : ∃ d, idom pred = some d) (enough : 2 * bound < fuel) :
    ∃ d, meetAll number idom fuel list pred = .ok d ∧ Chain idom pred d ∧
      (∀ p ∈ list, (∃ e, idom p = some e) → Chain idom p d) ∧
      ∀ a, Chain idom pred a → (∀ p ∈ list, (∃ e, idom p = some e) → Chain idom p a) →
        Chain idom d a := by
  induction list generalizing pred with
  | nil =>
      exact ⟨pred, rfl, Chain.refl pred, fun _ member => (List.not_mem_nil member).elim,
        fun a chain _ => chain⟩
  | cons p rest inductionHypothesis =>
      rw [meetAll]
      by_cases same : p = pred
      · subst same
        rcases inductionHypothesis link with ⟨d, met, chain, common, nearest⟩
        refine ⟨d, (if_pos rfl).trans met, chain, ?_, ?_⟩
        · intro q member linkQ
          rcases List.mem_cons.mp member with rfl | member
          · exact chain
          · exact common q member linkQ
        · intro a chainA all
          exact nearest a chainA fun q member => all q (List.mem_cons_of_mem p member)
      · rw [if_neg same]
        cases isLink : idom p with
        | none =>
            rcases inductionHypothesis link with ⟨d, met, chain, common, nearest⟩
            refine ⟨d, met, chain, ?_, ?_⟩
            · intro q member linkQ
              rcases List.mem_cons.mp member with rfl | member
              · rcases linkQ with ⟨e, linkQ⟩
                cases isLink.symm.trans linkQ
              · exact common q member linkQ
            · intro a chainA all
              exact nearest a chainA fun q member => all q (List.mem_cons_of_mem p member)
        | some e =>
            have boundP := ranked.bounded p (linked.reaches p e isLink)
            have boundPred := ranked.bounded pred (linked.reaches_of_chain (Chain.refl pred) link)
            rcases meet_spec ranked linked ⟨e, isLink⟩ link
              (show bound < fuel by omega)
              (show (number p).toNat + (number pred).toNat < fuel by omega) with ⟨m, met, toP, toPred, nearestM⟩
            rcases inductionHypothesis (linked.chain_linked toPred link) with
              ⟨d, metAll, chain, common, nearest⟩
            refine ⟨d, ?_, toPred.trans chain, ?_, ?_⟩
            · show (meet number idom fuel fuel p pred >>= _) = _
              rw [met]
              exact metAll
            · intro q member linkQ
              rcases List.mem_cons.mp member with rfl | member
              · exact toP.trans chain
              · exact common q member linkQ
            · intro a chainA all
              apply nearest a
              · exact nearestM a (all p List.mem_cons_self ⟨e, isLink⟩) chainA
              · exact fun q member => all q (List.mem_cons_of_mem p member)

/-- If a vertex of the list is linked, the link is chosen. -/
theorem choose_spec (ranked : Ranked edges preds root number bound)
    (linked : Linked edges root number idom) {list : List β} (member : p ∈ list)
    (link : ∃ e, idom p = some e) (enough : 2 * bound < fuel) :
    ∃ d, choose number idom fuel list = .ok d ∧ Chosen idom list d := by
  rw [choose]
  cases isFound : list.find? fun p => (idom p).isSome with
  | none =>
      rcases link with ⟨e, link⟩
      exact (List.find?_eq_none.mp isFound p member (by rw [link]; rfl)).elim
  | some pred =>
      have linkPred : ∃ e, idom pred = some e :=
        Option.isSome_iff_exists.mp (@List.find?_some _ (fun p => (idom p).isSome) _ _ isFound)
      rcases meetAll_spec ranked linked linkPred enough with ⟨d, met, chain, common, nearest⟩
      exact ⟨d, met, common, fun a all =>
        nearest a (all pred (List.mem_of_find?_eq_some isFound) linkPred) all⟩

/-- The links are still such as there may be when a vertex has got the chosen one. -/
theorem Linked.update (ranked : Ranked edges preds root number bound)
    (linked : Linked edges root number idom) (reaches : Reaches edges root b) (notRoot : b ≠ root)
    (member : p ∈ preds b) (link : ∃ e, idom p = some e) (lower : number p < number b)
    (chosen : Chosen idom (preds b) d) :
    Linked edges root number (Function.update idom b (some d)) := by
  have chain := chosen.common p member link
  have linkD := linked.chain_linked chain link
  have lowerD : number d < number b := Int.lt_of_le_of_lt (linked.number_le chain) lower
  have reachesOf : ∀ {q}, (∃ e, idom q = some e) → Reaches edges root q := fun link =>
    linked.reaches_of_chain (Chain.refl _) link
  have edge : b ∈ edges p := (ranked.mem_preds b p reaches (reachesOf link)).mp member
  have path : Above edges number (number d) d b :=
    (linked.above_of_chain chain).tail ⟨edge, Int.le_of_lt lowerD⟩
  have isDominated : ∀ a, StrictlyDominates edges root a b → Dominates edges root a d := by
    intro a strictly
    have onAll : Chain idom d a := chosen.nearest a fun q memberQ linkQ =>
      linked.chain_of_dominates ranked linkQ
        (strictly.before ((ranked.mem_preds b q reaches (reachesOf linkQ)).mp memberQ))
    by_cases same : a = d
    · exact same ▸ Dominates.refl a
    intro rest route
    by_contra avoids
    rcases path.route route avoids (linked.number_lt onAll same) with ⟨rest', route', avoids'⟩
    exact avoids' (strictly.2 rest' route')
  have stays : ∀ c e, idom c = some e → ∃ e', Function.update idom b (some d) c = some e' := by
    intro c e link
    by_cases same : c = b
    · exact ⟨d, same ▸ Function.update_self _ _ _⟩
    · exact ⟨e, (Function.update_of_ne same _ _).trans link⟩
  have cases : ∀ c e, Function.update idom b (some d) c = some e → c = b ∧ e = d ∨
      idom c = some e := by
    intro c e link
    by_cases same : c = b
    · subst same
      rw [Function.update_self] at link
      exact Or.inl ⟨rfl, (Option.some.inj link).symm⟩
    · rw [Function.update_of_ne same] at link
      exact Or.inr link
  constructor
  · exact (Function.update_of_ne (Ne.symm notRoot) _ _).trans linked.rootLink
  · intro c e link
    rcases cases c e link with ⟨rfl, rfl⟩ | link
    · exact reaches
    · exact linked.reaches c e link
  · intro c e link
    rcases cases c e link with ⟨rfl, rfl⟩ | link
    · rcases linkD with ⟨e', linkD⟩
      exact stays e e' linkD
    · rcases linked.closed c e link with ⟨e', link'⟩
      exact stays e e' link'
  · intro c e link notRootC
    rcases cases c e link with ⟨rfl, rfl⟩ | link
    · exact lowerD
    · exact linked.lower c e link notRootC
  · intro c e link notRootC
    rcases cases c e link with ⟨rfl, rfl⟩ | link
    · exact path
    · exact linked.above c e link notRootC
  · intro c e link notRootC
    rcases cases c e link with ⟨rfl, rfl⟩ | link
    · exact isDominated
    · exact linked.dominated c e link notRootC

end Chains

end Shecc.Traversal
