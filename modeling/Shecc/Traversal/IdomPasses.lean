import Shecc.Traversal.Idom
import Mathlib.Data.List.Perm.Subperm

/-!
# Passes over the links

A pass goes through the vertices in the order of their numbers and gives each the link chosen
from the links there are. Passes are made until one changes nothing. The file proves that this
happens, however the edges lead back, and that the links are then to the immediate dominators.

The measure is the number of edges that lead back on a route: after as many passes as there are
such edges on a route, and one more, what the route avoids is on no way up from its end.
-/

namespace Shecc.Traversal

variable {β : Type}

/-! ## The computation -/

section Computation

variable [DecidableEq β]

/-- A pass, and whether it has changed a link. -/
def sweep (number : β → Int) (preds : β → List β) (fuel : Nat) :
    List β → (β → Option β) × Bool → Except Halt ((β → Option β) × Bool)
  | [], result => .ok result
  | b :: rest, (idom, changed) => do
      let pred ← choose number idom fuel (preds b)
      if idom b ≠ some pred then
        sweep number preds fuel rest (Function.update idom b (some pred), true)
      else sweep number preds fuel rest (idom, changed)

/-- Passes until one changes nothing. -/
def iterate (number : β → Int) (preds : β → List β) (fuel : Nat) (list : List β) :
    Nat → (β → Option β) → Except Halt (β → Option β)
  | 0, _ => .error .running
  | passes + 1, idom => do
      let (idom, changed) ← sweep number preds fuel list (idom, false)
      if changed then iterate number preds fuel list passes idom else .ok idom

end Computation

/-! ## One pass -/

/-- The links when a pass comes to a vertex: those of lower numbers are new. -/
def mixed (number : β → Int) (idom idom' : β → Option β) (b : β) : β → Option β := fun c =>
  if number c < number b then idom' c else idom c

/-- A pass gives every vertex of the list the link chosen from the links it finds. -/
structure Passed (number : β → Int) (preds : β → List β) (list : List β)
    (idom idom' : β → Option β) : Prop where
  others : ∀ b, b ∉ list → idom' b = idom b
  chosen : ∀ b ∈ list, ∃ d, idom' b = some d ∧ Chosen (mixed number idom idom' b) (preds b) d

section Pass

variable [DecidableEq β] {edges preds : β → List β} {root b : β} {number : β → Int} {bound fuel : Nat}
  {idom idom' : β → Option β} {list : List β}

theorem sweep_cons {d : β} {changed : Bool} (chosen : choose number idom fuel (preds b) = .ok d) :
    sweep number preds fuel (b :: list) (idom, changed) =
      sweep number preds fuel list
        (Function.update idom b (some d), changed || decide (idom b ≠ some d)) := by
  rw [sweep, chosen]
  show (if idom b ≠ some d then _ else _) = _
  by_cases same : idom b = some d
  · have keep : Function.update idom b (some d) = idom := by
      rw [← same]
      exact Function.update_eq_self b idom
    rw [if_neg (not_not.mpr same), keep]
    simp [same]
  · rw [if_pos same]
    simp [same]

/-- The links a pass finds at its first vertex are those it starts from. -/
theorem mixed_first {d : β} (sorted : (b :: list).Pairwise fun c d => number c < number d)
    (others : ∀ c, c ∉ list → idom' c = Function.update idom b (some d) c) :
    mixed number idom idom' b = idom := by
  funext c
  rw [mixed]
  split
  case isFalse => rfl
  case isTrue lower =>
    have notIn : c ∉ list := by
      intro member
      have := (List.pairwise_cons.mp sorted).1 c member
      omega
    have differ : c ≠ b := by
      rintro rfl
      exact Int.lt_irrefl _ lower
    rw [others c notIn, Function.update_of_ne differ]

/-- At a later vertex the first has its new link either way. -/
theorem mixed_rest {c d : β} (lower : number b < number c) (isNew : idom' b = some d) :
    mixed number (Function.update idom b (some d)) idom' c = mixed number idom idom' c := by
  funext e
  rw [mixed, mixed]
  split
  case isTrue => rfl
  case isFalse notLower =>
    apply Function.update_of_ne
    rintro rfl
    exact notLower lower

/-- A pass over the vertices from a number on. -/
theorem sweep_spec (ranked : Ranked edges preds root number bound)
    (linked : Linked edges root number idom) (enough : 2 * bound < fuel)
    (sorted : list.Pairwise fun c d => number c < number d)
    (inside : ∀ b ∈ list, Reaches edges root b ∧ b ≠ root)
    (before : ∀ b, Reaches edges root b → b ∉ list → ∃ d, idom b = some d)
    (upper : ∀ b c, Reaches edges root b → b ∉ list → c ∈ list → number b < number c)
    (changed : Bool) :
    ∃ idom' changed', sweep number preds fuel list (idom, changed) = .ok (idom', changed') ∧
      Linked edges root number idom' ∧ Passed number preds list idom idom' ∧
      (changed' = false ↔ changed = false ∧ idom' = idom) := by
  induction list generalizing idom changed with
  | nil =>
      refine ⟨idom, changed, rfl, linked, ⟨fun _ _ => rfl, ?_⟩, by simp⟩
      exact fun b member => (List.not_mem_nil member).elim
  | cons b rest inductionHypothesis =>
      rcases inside b List.mem_cons_self with ⟨reaches, notRoot⟩
      rcases List.pairwise_cons.mp sorted with ⟨lowest, sortedRest⟩
      have notBehind : b ∉ rest := fun member => Int.lt_irrefl _ (lowest b member)
      -- a predecessor with a lower number has a link
      rcases ranked.parent b reaches notRoot with ⟨p, reachesP, edge, lower⟩
      have memberP : p ∈ preds b := (ranked.mem_preds b p reaches reachesP).mpr edge
      have notInP : p ∉ b :: rest := by
        intro member
        rcases List.mem_cons.mp member with rfl | member
        · exact Int.lt_irrefl _ lower
        · have := lowest p member
          omega
      have linkP := before p reachesP notInP
      rcases choose_spec ranked linked memberP linkP enough with ⟨d, isChosen, chosen⟩
      have linked₁ := linked.update ranked reaches notRoot memberP linkP lower chosen
      rcases inductionHypothesis linked₁ sortedRest
        (fun c member => inside c (List.mem_cons_of_mem b member))
        (by
          intro c reachesC notIn
          by_cases same : c = b
          · exact ⟨d, same ▸ Function.update_self _ _ _⟩
          · rw [Function.update_of_ne same]
            exact before c reachesC (fun member => (List.mem_cons.mp member).elim same notIn))
        (by
          intro c e reachesC notIn member
          by_cases same : c = b
          · exact same ▸ lowest e member
          · exact upper c e reachesC (fun member => (List.mem_cons.mp member).elim same notIn)
              (List.mem_cons_of_mem b member))
        (changed || decide (idom b ≠ some d)) with ⟨idom', changed', swept, linked', passed, same⟩
      have isNew : idom' b = some d :=
        (passed.others b notBehind).trans (Function.update_self _ _ _)
      refine ⟨idom', changed', (sweep_cons isChosen).trans swept, linked', ⟨?_, ?_⟩, ?_⟩
      · intro c notIn
        rcases not_or.mp (fun member => notIn (List.mem_cons.mpr member)) with ⟨differ, notIn⟩
        rw [passed.others c notIn, Function.update_of_ne differ]
      · intro c member
        rcases List.mem_cons.mp member with rfl | member
        · refine ⟨d, isNew, ?_⟩
          rw [mixed_first sorted passed.others]
          exact chosen
        · rcases passed.chosen c member with ⟨e, isNewC, chosenC⟩
          rw [mixed_rest (lowest c member) isNew] at chosenC
          exact ⟨e, isNewC, chosenC⟩
      · rw [same, Bool.or_eq_false_iff, decide_eq_false_iff_not, not_not, and_assoc]
        apply and_congr_right
        intro _
        constructor
        · rintro ⟨kept, unchanged⟩
          rw [unchanged, ← kept]
          exact Function.update_eq_self b idom
        · intro unchanged
          have kept : idom b = some d := by
            rw [← unchanged]
            exact isNew
          refine ⟨kept, unchanged.trans ?_⟩
          rw [← kept]
          exact (Function.update_eq_self b idom).symm

end Pass

/-! ## Routes and ways up -/

section Routes

variable {edges preds : β → List β} {root a b d p : β} {number : β → Int} {bound fuel : Nat}
  {idom idom' : β → Option β} {list : List β}

/-- The vertices of a list are those within reach other than the root, by number. -/
structure Covers (edges : β → List β) (root : β) (number : β → Int) (list : List β) : Prop where
  sorted : list.Pairwise fun c d => number c < number d
  mem_iff : ∀ b, b ∈ list ↔ Reaches edges root b ∧ b ≠ root

/-- Below the number of a vertex all links it finds are new. -/
theorem mixed_chain_below (linked' : Linked edges root number idom')
    (chain : Chain (mixed number idom idom' b) p d) (lower : number p < number b) :
    Chain idom' p d := by
  induction chain using Relation.ReflTransGen.head_induction_on with
  | refl => exact Chain.refl d
  | @head c e link _ inductionHypothesis =>
      rw [mixed, if_pos lower] at link
      exact Chain.head link
        (inductionHypothesis (Int.lt_of_le_of_lt (linked'.number_le_of_link link) lower))

/-- A way up goes along old links to a vertex, and on along new ones. -/
theorem mixed_chain (linked' : Linked edges root number idom')
    (chain : Chain (mixed number idom idom' b) p d) :
    ∃ v, Chain idom p v ∧ Chain idom' v d := by
  induction chain using Relation.ReflTransGen.head_induction_on with
  | refl => exact ⟨d, Chain.refl d, Chain.refl d⟩
  | @head c e link rest inductionHypothesis =>
      by_cases lowerC : number c < number b
      · exact ⟨c, Chain.refl c, mixed_chain_below linked' (Chain.head link rest) lowerC⟩
      · rcases inductionHypothesis with ⟨v, toV, onward⟩
        rw [mixed, if_neg lowerC] at link
        exact ⟨v, Chain.head link toV, onward⟩

/-- The number of edges of a route that do not lead to a higher number. -/
def retreats (number : β → Int) : List β → Nat
  | b :: p :: rest => retreats number (p :: rest) + if number b ≤ number p then 1 else 0
  | _ => 0

theorem retreats_cons_le (b : β) (rest : List β) :
    retreats number rest ≤ retreats number (b :: rest) := by
  cases rest with
  | nil => exact Nat.le_refl 0
  | cons p rest => exact Nat.le_add_right _ _

theorem retreats_suffix_le {rest route : List β} (suffix : rest <:+ route) :
    retreats number rest ≤ retreats number route := by
  rcases suffix with ⟨front, rfl⟩
  induction front with
  | nil => exact Nat.le_refl _
  | cons b front inductionHypothesis =>
      exact Nat.le_trans inductionHypothesis (retreats_cons_le b (front ++ rest))

theorem retreats_lt (b : β) (rest : List β) :
    retreats number (b :: rest) < (b :: rest).length := by
  induction rest generalizing b with
  | nil => exact Nat.zero_lt_one
  | cons p rest inductionHypothesis =>
      have := inductionHypothesis p
      rw [retreats, List.length_cons]
      split <;> omega

/-- The links after a number of passes. -/
inductive Passes (edges preds : β → List β) (root : β) (number : β → Int) (list : List β) :
    Nat → (β → Option β) → Prop
  | start {idom : β → Option β} : Linked edges root number idom →
      Passes edges preds root number list 0 idom
  | pass {k : Nat} {idom idom' : β → Option β} : Passes edges preds root number list k idom →
      Linked edges root number idom' → Passed number preds list idom idom' →
        Passes edges preds root number list (k + 1) idom'

theorem Passes.linked {k : Nat} (passes : Passes edges preds root number list k idom) :
    Linked edges root number idom := by
  cases passes with
  | start linked => exact linked
  | pass _ linked _ => exact linked

/-- A pass leaves a link for every vertex within reach. -/
theorem Passed.link (covers : Covers edges root number list)
    (linked' : Linked edges root number idom') (passed : Passed number preds list idom idom')
    (reaches : Reaches edges root b) : ∃ d, idom' b = some d := by
  by_cases isRoot : b = root
  · exact ⟨root, isRoot ▸ linked'.rootLink⟩
  · rcases passed.chosen b ((covers.mem_iff b).mpr ⟨reaches, isRoot⟩) with ⟨d, link, -⟩
    exact ⟨d, link⟩

/-- Behind the first pass every vertex within reach has a link. -/
theorem Passes.link (covers : Covers edges root number list) {k : Nat}
    (passes : Passes edges preds root number list k idom) (made : 0 < k)
    (reaches : Reaches edges root b) : ∃ d, idom b = some d := by
  cases passes with
  | start => cases made
  | pass _ linked passed => exact passed.link covers linked reaches

/-- What a route avoids is on no way up from its end, if fewer edges of the route lead back than
passes were made. -/
theorem Passes.avoids (ranked : Ranked edges preds root number bound)
    (covers : Covers edges root number list) {k : Nat}
    (passes : Passes edges preds root number list k idom) :
    ∀ (length : Nat) (b : β) (rest : List β), rest.length ≤ length →
      Route edges root (b :: rest) → retreats number (b :: rest) < k → ∀ a, a ∉ b :: rest →
        ¬ Chain idom b a := by
  induction passes with
  | start => exact fun _ _ _ _ _ few => (Nat.not_lt_zero _ few).elim
  | @pass k idom idom' passes linked' passed fromBefore =>
      intro length
      induction length with
      | zero =>
          intro b rest short route _ a avoids chain
          cases List.length_eq_zero_iff.mp (Nat.le_zero.mp short)
          cases route
          exact avoids (List.mem_singleton.mpr (linked'.chain_root chain))
      | succ length onShorter =>
          intro b rest short route few a avoids chain
          have differ : a ≠ b := fun same => avoids (same ▸ List.mem_cons_self)
          cases rest with
          | nil =>
              cases route
              exact differ (linked'.chain_root chain)
          | cons p rest =>
              by_cases isRoot : b = root
              · exact differ ((linked'.chain_root (isRoot ▸ chain)).trans isRoot.symm)
              have routeP := route.tail
              have reaches := route.reaches
              have shortP : rest.length ≤ length := Nat.le_of_succ_le_succ short
              rcases passed.chosen b ((covers.mem_iff b).mpr ⟨reaches, isRoot⟩) with
                ⟨d, link, chosen⟩
              have onward := chain.from_link differ link
              have memberP : p ∈ preds b :=
                (ranked.mem_preds b p reaches routeP.reaches).mpr route.edge
              by_cases lower : number p < number b
              · -- the predecessor has its new link already
                rcases passed.link covers linked' routeP.reaches with ⟨e, linkP⟩
                have toD := chosen.common p memberP ⟨e, (if_pos lower).trans linkP⟩
                apply onShorter p rest shortP routeP
                  (Nat.lt_of_le_of_lt (retreats_cons_le b (p :: rest)) few) a
                  (fun member => avoids (List.mem_cons_of_mem b member))
                exact (mixed_chain_below linked' toD lower).trans onward
              · -- it has the link of the pass before, in which the route counts one edge less
                have fewP : retreats number (p :: rest) < k := by
                  rw [retreats, if_pos (Int.not_lt.mp lower)] at few
                  omega
                have linkP : ∃ e, idom p = some e := by
                  cases passes with
                  | start => exact (Nat.not_lt_zero _ fewP).elim
                  | pass _ linked passed => exact passed.link covers linked routeP.reaches
                rcases linkP with ⟨e, linkP⟩
                have toD := chosen.common p memberP ⟨e, (if_neg lower).trans linkP⟩
                rcases mixed_chain linked' toD with ⟨v, toV, fromV⟩
                have member : v ∈ p :: rest := by
                  by_contra notOn
                  exact fromBefore rest.length p rest (Nat.le_refl _) routeP fewP v notOn toV
                rcases routeP.of_mem member with ⟨rest', routeV, suffix⟩
                have shorter := suffix.length_le
                simp only [List.length_cons] at shorter
                have fewV : retreats number (v :: rest') < k + 1 :=
                  Nat.lt_of_le_of_lt (retreats_suffix_le suffix) (Nat.lt_succ_of_lt fewP)
                exact onShorter v rest' (by omega) routeV fewV a
                  (fun memberA => avoids (List.mem_cons_of_mem b (suffix.subset memberA)))
                  (fromV.trans onward)

/-! ## The end -/

/-- A link to a dominator is a link to the immediate dominator. -/
theorem Linked.immediate (linked : Linked edges root number idom) (link : idom b = some d)
    (notRoot : b ≠ root) (dominates : Dominates edges root d b) :
    ImmediatelyDominates edges root d b := by
  have lower := linked.lower b d link notRoot
  refine ⟨⟨?_, dominates⟩, linked.dominated b d link notRoot⟩
  rintro rfl
  exact Int.lt_irrefl _ lower

variable [DecidableEq β]

/-- After as many passes as there are vertices all links are to immediate dominators. -/
theorem Passes.immediate (ranked : Ranked edges preds root number bound)
    (covers : Covers edges root number list) {k : Nat}
    (passes : Passes edges preds root number list k idom) (many : list.length < k)
    (link : idom b = some d) (notRoot : b ≠ root) : ImmediatelyDominates edges root d b := by
  apply passes.linked.immediate link notRoot
  intro rest route
  by_contra avoids
  rcases route.exists_nodup with ⟨rest', route', nodup, smaller⟩
  have avoids' : d ∉ b :: rest' := fun member => avoids (List.cons_subset_cons b smaller member)
  have short : (b :: rest').length ≤ (root :: list).length := by
    apply (List.subperm_of_subset nodup _).length_le
    intro c member
    rcases route'.of_mem member with ⟨_, routeC, _⟩
    by_cases isRoot : c = root
    · exact isRoot ▸ List.mem_cons_self
    · exact List.mem_cons_of_mem root ((covers.mem_iff c).mpr ⟨routeC.reaches, isRoot⟩)
  have few : retreats number (b :: rest') < _ := retreats_lt b rest'
  simp only [List.length_cons] at short few
  exact passes.avoids ranked covers rest'.length b rest' (Nat.le_refl _) route' (by omega) d
    avoids' (Chain.single link)

/-- A pass that changes nothing leaves links to immediate dominators. -/
theorem Passed.immediate (ranked : Ranked edges preds root number bound)
    (covers : Covers edges root number list) (linked : Linked edges root number idom)
    (passed : Passed number preds list idom idom) (link : idom b = some d) (notRoot : b ≠ root) :
    ImmediatelyDominates edges root d b := by
  have onRoute : ∀ rest c, Route edges root (c :: rest) → ∀ a, Chain idom c a → a ∈ c :: rest := by
    intro rest
    induction rest with
    | nil =>
        intro c route a chain
        cases route
        exact List.mem_singleton.mpr (linked.chain_root chain)
    | cons p rest inductionHypothesis =>
        intro c route a chain
        by_cases same : a = c
        · exact same ▸ List.mem_cons_self
        apply List.mem_cons_of_mem c
        by_cases isRoot : c = root
        · exact (same ((linked.chain_root (isRoot ▸ chain)).trans isRoot.symm)).elim
        rcases passed.chosen c ((covers.mem_iff c).mpr ⟨route.reaches, isRoot⟩) with
          ⟨e, linkC, chosen⟩
        have unmixed : mixed number idom idom c = idom := funext fun _ => ite_self _
        rw [unmixed] at chosen
        have memberP : p ∈ preds c :=
          (ranked.mem_preds c p route.reaches route.tail.reaches).mpr route.edge
        exact inductionHypothesis p route.tail a
          ((chosen.common p memberP (passed.link covers linked route.tail.reaches)).trans
            (chain.from_link same linkC))
  exact linked.immediate link notRoot fun rest route => onRoute rest b route d (Chain.single link)

/-- When all links are to immediate dominators, another pass changes nothing. -/
theorem Passes.same (ranked : Ranked edges preds root number bound)
    (covers : Covers edges root number list) {k : Nat}
    (passes : Passes edges preds root number list k idom) (many : list.length < k)
    (linked' : Linked edges root number idom') (passed : Passed number preds list idom idom') :
    idom' = idom := by
  funext b
  by_cases member : b ∈ list
  · rcases (covers.mem_iff b).mp member with ⟨reaches, notRoot⟩
    rcases passes.link covers (Nat.zero_lt_of_lt many) reaches with ⟨d, link⟩
    rcases passed.link covers linked' reaches with ⟨d', link'⟩
    have isSame : d' = d := ImmediatelyDominates.unique reaches
      ((passes.pass linked' passed).immediate ranked covers (Nat.lt_succ_of_lt many) link' notRoot)
      (passes.immediate ranked covers many link notRoot)
    rw [link, link', isSame]
  · exact passed.others b member

/-- The passes come to an end, with links to the immediate dominators. -/
theorem iterate_spec (ranked : Ranked edges preds root number bound)
    (covers : Covers edges root number list) (enough : 2 * bound < fuel) {rounds k : Nat}
    (passes : Passes edges preds root number list k idom) (few : k ≤ list.length + 1)
    (enoughRounds : list.length + 1 < rounds + k) :
    ∃ idom', iterate number preds fuel list rounds idom = .ok idom' ∧
      Linked edges root number idom' ∧
      ∀ b, Reaches edges root b → b ≠ root →
        ∃ d, idom' b = some d ∧ ImmediatelyDominates edges root d b := by
  induction rounds generalizing k idom with
  | zero => omega
  | succ rounds inductionHypothesis =>
      have isRoot : ∀ b, Reaches edges root b → b ∉ list → b = root := by
        intro b reaches notIn
        by_contra notRoot
        exact notIn ((covers.mem_iff b).mpr ⟨reaches, notRoot⟩)
      rcases sweep_spec ranked passes.linked enough covers.sorted
        (fun b member => (covers.mem_iff b).mp member)
        (fun b reaches notIn => ⟨root, isRoot b reaches notIn ▸ passes.linked.rootLink⟩)
        (fun b c reaches notIn member => isRoot b reaches notIn ▸
          ranked.root_lt c ((covers.mem_iff c).mp member).1 ((covers.mem_iff c).mp member).2)
        false with ⟨idom', changed, swept, linked', passed, same⟩
      rw [iterate, swept]
      show ∃ final, (if changed then _ else _) = _ ∧ _
      by_cases isChanged : changed = true
      · rw [if_pos isChanged]
        have notMany : ¬ list.length < k := by
          intro many
          have unchanged := same.mpr ⟨rfl, passes.same ranked covers many linked' passed⟩
          rw [unchanged] at isChanged
          cases isChanged
        exact inductionHypothesis (passes.pass linked' passed) (by omega) (by omega)
      · rw [if_neg isChanged]
        have unchanged := (same.mp (Bool.not_eq_true _ ▸ isChanged)).2
        subst unchanged
        refine ⟨idom', rfl, linked', ?_⟩
        intro b reaches notRoot
        rcases passed.link covers linked' reaches with ⟨d, link⟩
        exact ⟨d, link, passed.immediate ranked covers linked' link notRoot⟩

end Routes

end Shecc.Traversal
