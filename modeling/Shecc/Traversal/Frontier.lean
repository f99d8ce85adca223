import Mathlib
import Shecc.Traversal.IdomTree

/-!
# Dominance frontiers

A vertex is in the frontier of another if that one dominates a predecessor of it but does not
strictly dominate it. The frontiers are found by runners: from each predecessor of a vertex one
climbs the links up to the link of the vertex, and enters the vertex in the list of each vertex it
comes by. The lists have room for a fixed number of entries.
-/

namespace Shecc.Traversal

variable {β : Type}

/-- Why the runners do not come to an end: the fuel is used up, a missing link is followed, or a
list is full. -/
inductive Fault
  | running | missing | full
  deriving DecidableEq

/-- The second is in the frontier of the first. -/
def Frontier (edges preds : β → List β) (root b x : β) : Prop :=
  ∃ p ∈ preds x, Dominates edges root b p ∧ ¬ StrictlyDominates edges root b x

/-! ## The computation -/

section Computation

variable [DecidableEq β] (capacity : Nat) (idom : β → Option β)

/-- An entry in a list. -/
def enterIn (x c : β) (lists : β → List β) : Except Fault (β → List β) :=
  if capacity ≤ (lists c).length then .error .full
  else .ok (Function.update lists c (lists c ++ [x]))

/-- The runner from a vertex. -/
def runner (x : β) : Nat → Option β → (β → List β) → Except Fault (β → List β)
  | 0, _, _ => .error .running
  | fuel + 1, curr, lists =>
      if curr = idom x then .ok lists
      else
        match curr with
        | none => .error .missing
        | some c => do
            let lists ← enterIn capacity x c lists
            runner x fuel (idom c) lists

/-- The runners from the predecessors. -/
def runners (fuel : Nat) (x : β) : List β → (β → List β) → Except Fault (β → List β)
  | [], lists => .ok lists
  | p :: rest, lists => do
      let lists ← runner capacity idom x fuel (some p) lists
      runners fuel x rest lists

/-- The vertices from one up to, but not with, another. -/
def upTo (stop : Option β) : Nat → β → List β
  | 0, _ => []
  | fuel + 1, c =>
      if some c = stop then []
      else
        match idom c with
        | none => []
        | some d => c :: upTo stop fuel d

/-- Entries in one list after the other. -/
def enterAll (x : β) : List β → (β → List β) → Except Fault (β → List β)
  | [], lists => .ok lists
  | c :: rest, lists => do
      let lists ← enterIn capacity x c lists
      enterAll x rest lists

end Computation

section Runners

variable [DecidableEq β] {capacity fuel : Nat} {edges preds : β → List β} {root b c d p x : β}
  {number : β → Int} {idom : β → Option β} {lists : β → List β} {cs : List β}

/-- Entries go behind those that are there, unless there is not room for them all. -/
theorem enterAll_cases (capacity : Nat) (x : β) (cs : List β) (lists : β → List β) :
    (∃ lists', enterAll capacity x cs lists = .ok lists' ∧
      (∀ c, lists' c = lists c ++ List.replicate (cs.count c) x) ∧
      ∀ c, (lists c).length ≤ capacity → (lists' c).length ≤ capacity) ∨
    (enterAll capacity x cs lists = .error .full ∧
      ∃ c, capacity < (lists c).length + cs.count c) := by
  induction cs generalizing lists with
  | nil =>
      left
      refine ⟨lists, rfl, fun c => ?_, fun c => id⟩
      rw [List.count_nil, List.replicate_zero, List.append_nil]
  | cons c rest inductionHypothesis =>
      rw [enterAll, enterIn]
      by_cases full : capacity ≤ (lists c).length
      · right
        rw [if_pos full]
        refine ⟨rfl, c, ?_⟩
        rw [List.count_cons_self]
        omega
      · rw [if_neg full]
        have behind : ∀ d, (Function.update lists c (lists c ++ [x])) d ++
            List.replicate (rest.count d) x =
              lists d ++ List.replicate ((c :: rest).count d) x := by
          intro d
          by_cases same : d = c
          · subst same
            rw [Function.update_self, List.count_cons_self, List.append_assoc,
              List.singleton_append, List.replicate_succ]
          · rw [Function.update_of_ne same, List.count_cons_of_ne (Ne.symm same)]
        rcases inductionHypothesis (Function.update lists c (lists c ++ [x])) with
          ⟨lists', entered, entries, short⟩ | ⟨failed, d, isOver⟩
        · left
          refine ⟨lists', entered, fun d => (entries d).trans (behind d), ?_⟩
          intro d short'
          apply short d
          by_cases same : d = c
          · subst same
            rw [Function.update_self, List.length_append]
            exact Nat.lt_of_not_le full
          · rw [Function.update_of_ne same]
            exact short'
        · right
          refine ⟨failed, d, ?_⟩
          have lengths := congrArg List.length (behind d)
          simp only [List.length_append, List.length_replicate] at lengths
          omega

theorem enterAll_append (x : β) (first second : List β) (lists : β → List β) :
    enterAll capacity x (first ++ second) lists =
      enterAll capacity x first lists >>= enterAll capacity x second := by
  induction first generalizing lists with
  | nil => rfl
  | cons c rest inductionHypothesis =>
      rw [List.cons_append, enterAll, enterAll]
      cases enterIn capacity x c lists with
      | error why => rfl
      | ok lists' => exact inductionHypothesis lists'

/-- The vertices up to another are those on the way up below it, each once. -/
theorem upTo_spec (linked : Linked edges root number idom) (chain : Chain idom c d)
    (enough : number c - number d < fuel) :
    (∀ b, b ∈ upTo idom (some d) fuel c ↔ Chain idom c b ∧ Chain idom b d ∧ b ≠ d) ∧
      (upTo idom (some d) fuel c).Nodup := by
  induction fuel generalizing c with
  | zero =>
      have := linked.number_le chain
      omega
  | succ fuel inductionHypothesis =>
      rw [upTo]
      by_cases same : c = d
      · subst same
        rw [if_pos rfl]
        refine ⟨fun b => ⟨fun member => (List.not_mem_nil member).elim, ?_⟩, List.nodup_nil⟩
        rintro ⟨up, down, differ⟩
        have := linked.number_lt down (Ne.symm differ)
        have := linked.number_le up
        omega
      · rw [if_neg fun equal => same (Option.some.inj equal)]
        rcases Relation.ReflTransGen.cases_head chain with isD | ⟨e, link, rest⟩
        · exact (same isD).elim
        have notRoot : c ≠ root := by
          rintro rfl
          exact same (linked.chain_root chain).symm
        have lower := linked.lower c e link notRoot
        rcases inductionHypothesis rest (by omega) with ⟨mem_iff, nodup⟩
        simp only [link]
        constructor
        · intro b
          rw [List.mem_cons, mem_iff]
          constructor
          · rintro (rfl | ⟨up, down, differ⟩)
            · exact ⟨Chain.refl b, chain, same⟩
            · exact ⟨Chain.head link up, down, differ⟩
          · rintro ⟨up, down, differ⟩
            by_cases isC : b = c
            · exact Or.inl isC
            · exact Or.inr ⟨up.from_link isC link, down, differ⟩
        · refine List.nodup_cons.mpr ⟨fun member => ?_, nodup⟩
          have := linked.number_le ((mem_iff c).mp member).1
          omega

/-- A runner enters the vertex in the lists of the vertices up to its link. -/
theorem runner_eq_enterAll (linked : Linked edges root number idom) (stop : idom x = some d)
    (chain : Chain idom c d) (enough : number c - number d < fuel) :
    runner capacity idom x fuel (some c) lists =
      enterAll capacity x (upTo idom (some d) fuel c) lists := by
  induction fuel generalizing c lists with
  | zero =>
      have := linked.number_le chain
      omega
  | succ fuel inductionHypothesis =>
      rw [runner, upTo, stop]
      by_cases same : c = d
      · subst same
        rw [if_pos rfl, if_pos rfl]
        rfl
      · rw [if_neg fun equal => same (Option.some.inj equal),
          if_neg fun equal => same (Option.some.inj equal)]
        rcases Relation.ReflTransGen.cases_head chain with isD | ⟨e, link, rest⟩
        · exact (same isD).elim
        have notRoot : c ≠ root := by
          rintro rfl
          exact same (linked.chain_root chain).symm
        have lower := linked.lower c e link notRoot
        simp only [link]
        rw [enterAll]
        cases enterIn capacity x c lists with
        | error why => rfl
        | ok lists' => exact inductionHypothesis rest (by omega)

/-- A runner from a vertex without a link comes to no end. -/
theorem runner_missing (stop : idom x = some d) (noLink : idom c = none) (differ : c ≠ d) :
    ∃ why, runner capacity idom x fuel (some c) lists = .error why := by
  cases fuel with
  | zero => exact ⟨.running, rfl⟩
  | succ fuel =>
      rw [runner, stop, if_neg fun equal => differ (Option.some.inj equal)]
      show ∃ why, (enterIn capacity x c lists >>= _) = Except.error why
      rw [noLink]
      cases enterIn capacity x c lists with
      | error why => exact ⟨why, rfl⟩
      | ok lists' =>
          cases fuel with
          | zero => exact ⟨.running, rfl⟩
          | succ fuel =>
              show ∃ why, runner capacity idom x (fuel + 1) none lists' = _
              rw [runner, stop, if_neg (by simp)]
              exact ⟨.missing, rfl⟩

/-- The runners from linked predecessors. -/
theorem runners_eq_enterAll (linked : Linked edges root number idom) (stop : idom x = some d)
    {list : List β} (chains : ∀ p ∈ list, Chain idom p d)
    (enough : ∀ p ∈ list, number p - number d < fuel) :
    runners capacity idom fuel x list lists =
      enterAll capacity x (list.flatMap (upTo idom (some d) fuel)) lists := by
  induction list generalizing lists with
  | nil => rfl
  | cons p rest inductionHypothesis =>
      rw [runners, List.flatMap_cons, enterAll_append, runner_eq_enterAll linked stop
        (chains p List.mem_cons_self) (enough p List.mem_cons_self)]
      cases enterAll capacity x (upTo idom (some d) fuel p) lists with
      | error why => rfl
      | ok lists' =>
          exact inductionHypothesis (fun q member => chains q (List.mem_cons_of_mem p member))
            fun q member => enough q (List.mem_cons_of_mem p member)

/-- If a predecessor has no link, the runners come to no end. -/
theorem runners_missing (stop : idom x = some d) {list : List β} (member : p ∈ list)
    (noLink : idom p = none) (differ : p ≠ d) :
    ∃ why, runners capacity idom fuel x list lists = .error why := by
  induction list generalizing lists with
  | nil => cases member
  | cons q rest inductionHypothesis =>
      rw [runners]
      rcases List.mem_cons.mp member with rfl | member
      · have failing : ∃ why, runner capacity idom x fuel (some p) lists = .error why :=
          runner_missing stop noLink differ
        rcases failing with ⟨why, failed⟩
        exact ⟨why, by rw [failed]; rfl⟩
      · cases runner capacity idom x fuel (some q) lists with
        | error why => exact ⟨why, rfl⟩
        | ok lists' => exact inductionHypothesis member

end Runners

/-! ## The frontiers -/

section Frontiers

variable [DecidableEq β] {capacity fuel : Nat} {edges preds : β → List β} {root b c d p x : β}
  {number : β → Int} {bound : Nat} {idom : β → Option β} {lists : β → List β}
  {left vertices : List β}

/-- The lists the runners to a vertex come by. -/
def runs (idom : β → Option β) (preds : β → List β) (fuel : Nat) (x : β) : List β :=
  (preds x).flatMap (upTo idom (idom x) fuel)

/-- What is in the lists when the runners to some vertices have come to their ends. -/
structure ListsAt (capacity : Nat) (idom : β → Option β) (preds : β → List β) (fuel : Nat)
    (left : List β) (lists : β → List β) : Prop where
  entries : ∀ c, lists c =
    left.reverse.flatMap fun x => List.replicate ((runs idom preds fuel x).count c) x
  short : ∀ c, (lists c).length ≤ capacity
  links : ∀ x ∈ left, ∀ p ∈ preds x, ∃ e, idom p = some e

/-- There is room for all entries, and all predecessors have links. -/
structure Fits (capacity : Nat) (idom : β → Option β) (preds : β → List β) (fuel : Nat)
    (vertices : List β) : Prop where
  short : ∀ c, (vertices.map fun x => (runs idom preds fuel x).count c).sum ≤ capacity
  links : ∀ x ∈ vertices, ∀ p ∈ preds x, ∃ e, idom p = some e

theorem ListsAt.length_eq (at_ : ListsAt capacity idom preds fuel left lists) (c : β) :
    (lists c).length = (left.map fun x => (runs idom preds fuel x).count c).sum := by
  rw [at_.entries c, List.length_flatMap, List.map_reverse, List.sum_reverse]
  simp only [List.length_replicate]

theorem listsAt_nil (empty : ∀ c, lists c = []) : ListsAt capacity idom preds fuel [] lists where
  entries := empty
  short := fun c => by
    rw [empty c]
    exact Nat.zero_le _
  links := fun _ member => (List.not_mem_nil member).elim

/-- The runners to one more vertex come to their ends, or there is something that does not fit. -/
theorem ListsAt.step (exact : ExactLinks edges root number idom)
    (ranked : Ranked edges preds root number bound) (reaches : Reaches edges root x)
    (edgeOf : ∀ p ∈ preds x, Reaches edges root p → x ∈ edges p)
    (enough : ∀ b, Reaches edges root b → number b - number root < fuel)
    (fresh : x ∉ left) (nodup : left.Nodup) (inside : x :: left ⊆ vertices)
    (at_ : ListsAt capacity idom preds fuel left lists) :
    (∃ lists', runners capacity idom fuel x (preds x) lists = .ok lists' ∧
      ListsAt capacity idom preds fuel (x :: left) lists') ∨
    ((∃ why, runners capacity idom fuel x (preds x) lists = .error why) ∧
      ¬ Fits capacity idom preds fuel vertices) := by
  rcases exact.exists_link reaches with ⟨d, link⟩
  have reachesD : Reaches edges root d :=
    exact.linked.reaches_of_chain (Chain.single link) ⟨d, link⟩
  by_cases allLinked : ∀ p ∈ preds x, ∃ e, idom p = some e
  · have reachesP : ∀ p ∈ preds x, Reaches edges root p := fun p member =>
      exact.linked.reaches_of_chain (Chain.refl p) (allLinked p member)
    have chains : ∀ p ∈ preds x, Chain idom p d := by
      intro p member
      rw [exact.chain_iff ranked (reachesP p member)]
      by_cases isRoot : x = root
      · rw [isRoot, exact.linked.rootLink] at link
        rw [← Option.some.inj link]
        exact root_dominates p
      · exact (exact.link_iff.mp ⟨isRoot, link⟩).2.strictly.before
          (edgeOf p member (reachesP p member))
    have lowest : number root ≤ number d := by
      by_cases isRoot : d = root
      · exact isRoot ▸ Int.le_refl _
      · exact Int.le_of_lt (ranked.root_lt d reachesD isRoot)
    have isAll : runners capacity idom fuel x (preds x) lists =
        enterAll capacity x (runs idom preds fuel x) lists := by
      rw [runs, link]
      apply runners_eq_enterAll exact.linked link chains
      intro p member
      have := enough p (reachesP p member)
      omega
    rcases enterAll_cases capacity x (runs idom preds fuel x) lists with
      ⟨lists', entered, entries, short⟩ | ⟨failed, c, isOver⟩
    · left
      refine ⟨lists', isAll.trans entered, ?_, fun c => short c (at_.short c), ?_⟩
      · intro c
        rw [entries c, at_.entries c, List.reverse_cons, List.flatMap_append]
        simp
      · intro y member
        rcases List.mem_cons.mp member with rfl | member
        · exact allLinked
        · exact at_.links y member
    · right
      refine ⟨⟨.full, isAll.trans failed⟩, ?_⟩
      intro fits
      have subperm : (x :: left).Subperm vertices :=
        List.subperm_of_subset (List.nodup_cons.mpr ⟨fresh, nodup⟩) inside
      rcases subperm with ⟨middle, perm, sublist⟩
      have le : ((x :: left).map fun x => (runs idom preds fuel x).count c).sum ≤ capacity := by
        apply Nat.le_trans _ (fits.short c)
        rw [← (perm.map fun x => (runs idom preds fuel x).count c).sum_eq]
        exact (sublist.map _).sum_le_sum fun _ _ => Nat.zero_le _
      rw [List.map_cons, List.sum_cons, ← at_.length_eq] at le
      omega
  · right
    rcases not_forall.mp allLinked with ⟨p, notLinked⟩
    rcases Classical.not_imp.mp notLinked with ⟨member, notLinked⟩
    have noLink : idom p = none := by
      cases link : idom p with
      | none => rfl
      | some e => exact (notLinked ⟨e, link⟩).elim
    refine ⟨runners_missing link member noLink ?_, ?_⟩
    · rintro rfl
      exact notLinked (exact.linked.closed x p link)
    · intro fits
      exact notLinked (fits.links x (inside List.mem_cons_self) p member)

/-- The runner from a predecessor comes by the lists whose frontiers the vertex is in. -/
theorem mem_upTo_iff (exact : ExactLinks edges root number idom)
    (ranked : Ranked edges preds root number bound) (reaches : Reaches edges root x)
    (notRoot : x ≠ root) (link : idom x = some d) (reachesP : Reaches edges root p)
    (edge : x ∈ edges p) (enough : number p - number d < fuel) :
    b ∈ upTo idom (some d) fuel p ↔
      Dominates edges root b p ∧ ¬ StrictlyDominates edges root b x := by
  have isImmediate := (exact.link_iff.mp ⟨notRoot, link⟩).2
  have toD : Chain idom p d :=
    (exact.chain_iff ranked reachesP).mpr (isImmediate.strictly.before edge)
  have reachesD : Reaches edges root d :=
    exact.linked.reaches_of_chain (Chain.single link) ⟨d, link⟩
  rw [(upTo_spec exact.linked toD enough).1 b]
  constructor
  · rintro ⟨up, down, differ⟩
    refine ⟨(exact.chain_iff ranked reachesP).mp up, ?_⟩
    intro strictly
    have back := (exact.chain_iff ranked reachesD).mpr (isImmediate.nearest b strictly)
    have := exact.linked.number_lt down (Ne.symm differ)
    have := exact.linked.number_le back
    omega
  · rintro ⟨dominates, notStrictly⟩
    have up := (exact.chain_iff ranked reachesP).mpr dominates
    have differ : b ≠ d := by
      rintro rfl
      exact notStrictly isImmediate.strictly
    rcases up.linear toD with down | above
    · exact ⟨up, down, differ⟩
    · have aboveD := (exact.chain_iff ranked reachesD).mp above
      have dominatesX := aboveD.trans isImmediate.strictly.2
      refine (notStrictly ⟨?_, dominatesX⟩).elim
      rintro rfl
      exact isImmediate.strictly.1
        (Dominates.antisymm reachesD isImmediate.strictly.2 aboveD)

open Classical in
/-- How often a runner comes by a vertex: as often as it dominates a predecessor of a vertex that
it does not strictly dominate. -/
noncomputable def frontierCount (edges preds : β → List β) (root : β) (vertices : List β)
    (b : β) : Nat :=
  (vertices.map fun x => (preds x).countP fun p =>
    Dominates edges root b p ∧ ¬ StrictlyDominates edges root b x).sum

/-- The vertices have all their predecessors within reach, the root has none, and there is room for
all entries. -/
structure FrontiersFit (capacity : Nat) (edges preds : β → List β) (root : β)
    (vertices : List β) : Prop where
  noPreds : preds root = []
  reached : ∀ x ∈ vertices, ∀ p ∈ preds x, Reaches edges root p
  short : ∀ b, Reaches edges root b → frontierCount edges preds root vertices b ≤ capacity

/-- The lists are the frontiers. -/
def AreFrontiers (edges preds : β → List β) (root : β) (lists : β → List β) : Prop :=
  ∀ b x, Reaches edges root b → Reaches edges root x →
    (x ∈ lists b ↔ Frontier edges preds root b x)

/-- Where a graph is given, the links are exact and there is fuel. -/
structure Setting (edges preds : β → List β) (root : β) (number : β → Int) (bound : Nat)
    (idom : β → Option β) (fuel : Nat) (vertices : List β) : Prop where
  exact : ExactLinks edges root number idom
  ranked : Ranked edges preds root number bound
  enough : ∀ b, Reaches edges root b → number b - number root < fuel
  spans : Spans edges root vertices

/-- No runner to the root comes by the root. -/
theorem root_notMem_runs (exact : ExactLinks edges root number idom)
    (ranked : Ranked edges preds root number bound)
    (reachesP : ∀ p ∈ preds root, Reaches edges root p)
    (enough : ∀ b, Reaches edges root b → number b - number root < fuel) :
    root ∉ runs idom preds fuel root := by
  intro member
  rw [runs, exact.linked.rootLink] at member
  rcases List.mem_flatMap.mp member with ⟨p, memberP, isIn⟩
  have reaches := reachesP p memberP
  have toRoot : Chain idom p root := (exact.chain_iff ranked reaches).mpr (root_dominates p)
  exact (((upTo_spec exact.linked toRoot (enough p reaches)).1 root).mp isIn).2.2 rfl

/-- When the runners have come to their ends, everything fits. -/
theorem ListsAt.fits (at_ : ListsAt capacity idom preds fuel left lists)
    (perm : left.Perm vertices) : Fits capacity idom preds fuel vertices where
  short := by
    intro c
    rw [← (perm.map _).sum_eq, ← at_.length_eq]
    exact at_.short c
  links := fun x member => at_.links x (perm.mem_iff.mpr member)

namespace Setting

variable (setting : Setting edges preds root number bound idom fuel vertices)
include setting

theorem lowest (reaches : Reaches edges root b) : number root ≤ number b := by
  by_cases isRoot : b = root
  · exact isRoot ▸ Int.le_refl _
  · exact Int.le_of_lt (setting.ranked.root_lt b reaches isRoot)

omit [DecidableEq β] in
theorem linked_iff : (∃ e, idom p = some e) ↔ Reaches edges root p :=
  ⟨fun ⟨e, link⟩ => setting.exact.linked.reaches p e link, setting.exact.exists_link⟩

/-- The runners to a vertex other than the root come by the lists it belongs in, once for each
predecessor. -/
theorem count_runs [DecidablePred fun p =>
      Dominates edges root b p ∧ ¬ StrictlyDominates edges root b x]
    (reaches : Reaches edges root x) (notRoot : x ≠ root)
    (reached : ∀ p ∈ preds x, Reaches edges root p) :
    (runs idom preds fuel x).count b = (preds x).countP fun p =>
      Dominates edges root b p ∧ ¬ StrictlyDominates edges root b x := by
  rcases setting.exact.exists_link reaches with ⟨d, link⟩
  have reachesD : Reaches edges root d :=
    setting.exact.linked.reaches_of_chain (Chain.single link) ⟨d, link⟩
  have isImmediate := (setting.exact.link_iff.mp ⟨notRoot, link⟩).2
  rw [runs, link]
  generalize isList : preds x = list at reached
  have edges_ : ∀ p ∈ list, x ∈ edges p := by
    intro p member
    exact (setting.ranked.mem_preds x p reaches (reached p member)).mp (isList ▸ member)
  clear isList
  induction list with
  | nil => rfl
  | cons p rest inductionHypothesis =>
      have reachesP := reached p List.mem_cons_self
      have edge := edges_ p List.mem_cons_self
      have enough : number p - number d < fuel := by
        have := setting.enough p reachesP
        have := setting.lowest reachesD
        omega
      have toD : Chain idom p d :=
        (setting.exact.chain_iff setting.ranked reachesP).mpr (isImmediate.strictly.before edge)
      have isIn := @mem_upTo_iff _ _ fuel edges preds root b d p x number bound idom setting.exact
        setting.ranked reaches notRoot link reachesP edge enough
      rw [List.flatMap_cons, List.count_append, List.countP_cons,
        inductionHypothesis (fun q member => reached q (List.mem_cons_of_mem p member))
          (fun q member => edges_ q (List.mem_cons_of_mem p member)), Nat.add_comm,
        (upTo_spec setting.exact.linked toD enough).2.count]
      simp only [isIn, decide_eq_true_eq]

/-- If the root has no predecessors, what fits can be read off the graph. -/
theorem fits_iff (noPreds : preds root = []) : Fits capacity idom preds fuel vertices ↔
    FrontiersFit capacity edges preds root vertices := by
  classical
  have reached : (∀ x ∈ vertices, ∀ p ∈ preds x, ∃ e, idom p = some e) ↔
      ∀ x ∈ vertices, ∀ p ∈ preds x, Reaches edges root p := by
    simp only [setting.linked_iff]
  have counts : (∀ x ∈ vertices, ∀ p ∈ preds x, Reaches edges root p) → ∀ b,
      (vertices.map fun x => (runs idom preds fuel x).count b).sum =
        frontierCount edges preds root vertices b := by
    intro reached b
    rw [frontierCount]
    apply congrArg List.sum
    apply List.map_congr_left
    intro x member
    by_cases isRoot : x = root
    · rw [isRoot, runs, noPreds]
      rfl
    · refine (setting.count_runs ((setting.spans.mem_iff x).mp member) isRoot (reached x member)).trans ?_
      congr 1
  constructor
  · intro fits
    have isReached := reached.mp fits.links
    exact ⟨noPreds, isReached, fun b _ => counts isReached b ▸ fits.short b⟩
  · intro fits
    refine ⟨fun c => ?_, reached.mpr fits.reached⟩
    by_cases reaches : Reaches edges root c
    · rw [counts fits.reached]
      exact fits.short c reaches
    · -- what is not within reach is on no way up
      have zero : (vertices.map fun x => (runs idom preds fuel x).count c).sum = 0 := by
        apply List.sum_eq_zero_iff_forall_eq_nat.mpr
        intro n member
        rcases List.mem_map.mp member with ⟨x, memberX, rfl⟩
        apply List.count_eq_zero_of_not_mem
        intro isIn
        rcases List.mem_flatMap.mp isIn with ⟨p, memberP, isUp⟩
        have reachesX := (setting.spans.mem_iff x).mp memberX
        have reachesP := fits.reached x memberX p memberP
        by_cases isRoot : x = root
        · rw [isRoot, noPreds] at memberP
          cases memberP
        rcases setting.exact.exists_link reachesX with ⟨d, link⟩
        have reachesD : Reaches edges root d :=
          setting.exact.linked.reaches_of_chain (Chain.single link) ⟨d, link⟩
        have edge := (setting.ranked.mem_preds x p reachesX reachesP).mp memberP
        have toD : Chain idom p d := (setting.exact.chain_iff setting.ranked reachesP).mpr
          ((setting.exact.link_iff.mp ⟨isRoot, link⟩).2.strictly.before edge)
        have enough : number p - number d < fuel := by
          have := setting.enough p reachesP
          have := setting.lowest reachesD
          omega
        rw [link] at isUp
        exact reaches (setting.exact.linked.reaches_of_chain
          (((upTo_spec setting.exact.linked toD enough).1 c).mp isUp).1
          (setting.exact.exists_link reachesP))
      rw [zero]
      exact Nat.zero_le _

/-- The lists that come out are the frontiers if and only if the root has no predecessors. -/
theorem areFrontiers_iff (at_ : ListsAt capacity idom preds fuel left lists)
    (perm : left.Perm vertices) :
    AreFrontiers edges preds root lists ↔ preds root = [] := by
  classical
  have fits := at_.fits perm
  have reached : ∀ x ∈ vertices, ∀ p ∈ preds x, Reaches edges root p :=
    fun x member p memberP => setting.linked_iff.mp (fits.links x member p memberP)
  have isIn : ∀ b x, Reaches edges root x → (x ∈ lists b ↔ b ∈ runs idom preds fuel x) := by
    intro b x reaches
    rw [at_.entries b, List.mem_flatMap]
    constructor
    · rintro ⟨y, _, member⟩
      rw [List.mem_replicate] at member
      rcases member with ⟨positive, rfl⟩
      exact List.count_pos_iff.mp (Nat.pos_of_ne_zero positive)
    · intro member
      refine ⟨x, List.mem_reverse.mpr (perm.mem_iff.mpr ((setting.spans.mem_iff x).mpr reaches)), ?_⟩
      exact List.mem_replicate.mpr ⟨Nat.ne_of_gt (List.count_pos_iff.mpr member), rfl⟩
  have memRoot := (setting.spans.mem_iff root).mpr (Reaches.refl root)
  constructor
  · intro areFrontiers
    cases isPreds : preds root with
    | nil => rfl
    | cons p rest =>
        have frontier : Frontier edges preds root root root :=
          ⟨p, isPreds ▸ List.mem_cons_self, root_dominates p, fun strictly => strictly.1 rfl⟩
        have member := (areFrontiers root root (Reaches.refl root) (Reaches.refl root)).mpr frontier
        exact (root_notMem_runs setting.exact setting.ranked (reached root memRoot) setting.enough
          ((isIn root root (Reaches.refl root)).mp member)).elim
  · intro noPreds b x _ reaches
    rw [isIn b x reaches]
    by_cases isRoot : x = root
    · subst isRoot
      rw [runs, Frontier, noPreds]
      simp
    · rw [← List.count_pos_iff, setting.count_runs reaches isRoot
        (reached x ((setting.spans.mem_iff x).mpr reaches)), List.countP_pos_iff]
      simp only [decide_eq_true_eq]
      exact Iff.rfl

end Setting

end Frontiers

end Shecc.Traversal
