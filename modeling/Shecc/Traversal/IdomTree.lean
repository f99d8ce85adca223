import Shecc.Traversal.Idom
import Mathlib.Data.List.Nodup

/-!
# The tree of the links

Links to lower numbers are those of a tree to its root. A recursion over lists of children that
are the inverse of the links enters every vertex of the tree once, with the vertices on the way
up from it on the stack.
-/

namespace Shecc.Traversal

variable {β : Type}

/-- The links are to the immediate dominators. -/
structure ExactLinks (edges : β → List β) (root : β) (number : β → Int) (idom : β → Option β) :
    Prop where
  linked : Linked edges root number idom
  link : ∀ b, Reaches edges root b → b ≠ root →
    ∃ d, idom b = some d ∧ ImmediatelyDominates edges root d b

namespace ExactLinks

variable {edges preds : β → List β} {root b d : β} {number : β → Int} {bound : Nat}
  {idom : β → Option β}

theorem link_iff (exact : ExactLinks edges root number idom) : b ≠ root ∧ idom b = some d ↔
    Reaches edges root b ∧ ImmediatelyDominates edges root d b := by
  constructor
  · rintro ⟨differ, link⟩
    have reaches := exact.linked.reaches b d link
    rcases exact.link b reaches differ with ⟨e, link', isImmediate⟩
    cases link.symm.trans link'
    exact ⟨reaches, isImmediate⟩
  · rintro ⟨reaches, isImmediate⟩
    have differ : b ≠ root := by
      rintro rfl
      exact isImmediate.strictly.1 isImmediate.strictly.2.eq_root
    rcases exact.link b reaches differ with ⟨e, link, isImmediate'⟩
    exact ⟨differ, isImmediate.unique reaches isImmediate' ▸ link⟩

theorem exists_link (exact : ExactLinks edges root number idom) (reaches : Reaches edges root b) :
    ∃ d, idom b = some d := by
  by_cases isRoot : b = root
  · exact ⟨root, isRoot ▸ exact.linked.rootLink⟩
  · rcases exact.link b reaches isRoot with ⟨d, link, -⟩
    exact ⟨d, link⟩

/-- What is on the way up from a vertex are its dominators. -/
theorem chain_iff (exact : ExactLinks edges root number idom)
    (ranked : Ranked edges preds root number bound) (reaches : Reaches edges root b) :
    Chain idom b d ↔ Dominates edges root d b := by
  constructor
  · intro chain
    induction chain with
    | refl => exact Dominates.refl b
    | @tail c e _ linkC inductionHypothesis =>
        by_cases isRoot : c = root
        · rw [isRoot, exact.linked.rootLink] at linkC
          rw [← Option.some.inj linkC]
          exact root_dominates b
        · exact ((exact.link_iff.mp ⟨isRoot, linkC⟩).2.strictly.2).trans inductionHypothesis
  · exact exact.linked.chain_of_dominates ranked (exact.exists_link reaches)

end ExactLinks

/-- The lists of children are the inverse of the links. -/
structure Inverse (idom : β → Option β) (root : β) (number : β → Int) (bound : Nat)
    (children : β → List β) : Prop where
  mem_iff : ∀ b c, c ∈ children b ↔ c ≠ root ∧ idom c = some b
  nodup : ∀ b, (children b).Nodup
  lower : ∀ b c, c ∈ children b → number b < number c
  bounded : ∀ b c, c ∈ children b → number c ≤ bound

/-- The vertices a recursion is in, and each vertex it has entered with those it was in then. -/
structure Visits (β : Type) where
  stack : List β := []
  entered : List (β × List β) := []

def Visits.enter (b : β) (v : Visits β) : Option (Visits β) :=
  some ⟨b :: v.stack, (b, v.stack) :: v.entered⟩

def Visits.leave (_ : β) (v : Visits β) : Option (Visits β) := some ⟨v.stack.tail, v.entered⟩

/-- The recursion over the children. -/
def descend {σ : Type} (children : β → List β) (pre post : β → σ → Option σ) :
    Nat → β → σ → Option σ :=
  walk children (fun _ _ => true) pre post

section Descent

variable {idom : β → Option β} {root b c d : β} {number : β → Int} {bound fuel : Nat}
  {children : β → List β} {stack : List β} {entered : List (β × List β)}

/-- What the recursion enters below a vertex: the vertices on whose way up it is, each once and
with those between the two on the stack. -/
structure Below (idom : β → Option β) (stack : List β) (bs : List β)
    (new : List (β × List β)) : Prop where
  nodup : (new.map Prod.fst).Nodup
  mem_iff : ∀ c, c ∈ new.map Prod.fst ↔ ∃ b ∈ bs, Chain idom c b
  onStack : ∀ visit ∈ new, ∀ d, d ∈ visit.1 :: visit.2 ↔
    (∃ b ∈ bs, Chain idom visit.1 d ∧ Chain idom d b) ∨ d ∈ stack

/-- Of two vertices on one way up the first is reached from the second or the other way round. -/
theorem Chain.linear (first : Chain idom b c) (second : Chain idom b d) :
    Chain idom c d ∨ Chain idom d c := by
  induction first with
  | refl => exact Or.inl second
  | tail _ link inductionHypothesis =>
      rcases inductionHypothesis with onward | back
      · rcases Relation.ReflTransGen.cases_head onward with rfl | ⟨e, link', rest⟩
        · exact Or.inr (Chain.single link)
        · cases link.symm.trans link'
          exact Or.inl rest
      · exact Or.inr (back.trans (Chain.single link))

namespace Inverse

/-- Numbers do not rise on the way up, if every link leads to a child's parent or stays. -/
theorem number_le (inverse : Inverse idom root number bound children)
    (rootLink : idom root = some root) (chain : Chain idom b d) : number d ≤ number b := by
  induction chain with
  | refl => exact Int.le_refl _
  | @tail e d _ link inductionHypothesis =>
      by_cases isRoot : e = root
      · rw [isRoot, rootLink] at link
        rw [← Option.some.inj link, ← isRoot]
        exact inductionHypothesis
      · have := inverse.lower d e ((inverse.mem_iff d e).mpr ⟨isRoot, link⟩)
        omega

/-- No vertex is below two children. -/
theorem disjoint (inverse : Inverse idom root number bound children)
    (rootLink : idom root = some root) {p : β} (memberC : c ∈ children p)
    (memberD : d ∈ children p) (differ : c ≠ d) (toC : Chain idom b c) :
    ¬ Chain idom b d := by
  intro toD
  have impossible : ∀ {c d : β}, c ∈ children p → d ∈ children p → c ≠ d → ¬ Chain idom c d := by
    intro c d memberC memberD differ chain
    have onward := chain.from_link (Ne.symm differ) ((inverse.mem_iff p c).mp memberC).2
    have := inverse.number_le rootLink onward
    have := inverse.lower p d memberD
    omega
  rcases toC.linear toD with chain | chain
  · exact impossible memberC memberD differ chain
  · exact impossible memberD memberC (Ne.symm differ) chain

end Inverse

theorem Below.append {bs : List β} {new new' : List (β × List β)}
    (first : Below idom stack [b] new) (others : Below idom stack bs new')
    (apart : ∀ c, Chain idom c b → ∀ d ∈ bs, ¬ Chain idom c d) :
    Below idom stack (b :: bs) (new' ++ new) := by
  have below : ∀ {c}, c ∈ new.map Prod.fst → Chain idom c b := by
    intro c member
    rcases (first.mem_iff c).mp member with ⟨b', isB, chain⟩
    exact List.mem_singleton.mp isB ▸ chain
  constructor
  · rw [List.map_append]
    apply others.nodup.append first.nodup
    intro c member member'
    rcases (others.mem_iff c).mp member with ⟨d, memberD, chain⟩
    exact apart c (below member') d memberD chain
  · intro c
    rw [List.map_append, List.mem_append, others.mem_iff, first.mem_iff]
    simp only [List.mem_cons, List.not_mem_nil, or_false, exists_eq_or_imp, exists_eq_left]
    exact or_comm
  · intro visit member d
    rcases List.mem_append.mp member with isOther | isFirst
    · rw [others.onStack visit isOther d]
      apply or_congr_left
      constructor
      · rintro ⟨e, memberE, chain⟩
        exact ⟨e, List.mem_cons_of_mem b memberE, chain⟩
      · rintro ⟨e, memberE, up, chain⟩
        rcases List.mem_cons.mp memberE with rfl | memberE
        · rcases (others.mem_iff visit.1).mp (List.mem_map_of_mem isOther) with ⟨f, memberF, toF⟩
          exact (apart visit.1 (up.trans chain) f memberF toF).elim
        · exact ⟨e, memberE, up, chain⟩
    · rw [first.onStack visit isFirst d]
      apply or_congr_left
      constructor
      · rintro ⟨e, memberE, chain⟩
        exact ⟨e, List.mem_singleton.mp memberE ▸ List.mem_cons_self, chain⟩
      · rintro ⟨e, memberE, up, chain⟩
        rcases List.mem_cons.mp memberE with rfl | memberE
        · exact ⟨e, List.mem_singleton_self e, up, chain⟩
        · exact (apart visit.1 (below (List.mem_map_of_mem isFirst)) e memberE
            (up.trans chain)).elim

theorem below_nil (idom : β → Option β) (stack : List β) : Below idom stack [] [] where
  nodup := List.nodup_nil
  mem_iff := fun c => by simp
  onStack := fun _ member => (List.not_mem_nil member).elim

/-- The children of a vertex, one behind the other. -/
theorem walkAll_below (inverse : Inverse idom root number bound children)
    (rootLink : idom root = some root) {go : β → Visits β → Option (Visits β)} {bs : List β}
    (subset : ∀ c ∈ bs, c ∈ children b) (nodup : bs.Nodup)
    (going : ∀ c ∈ bs, ∀ entered, ∃ new, go c ⟨stack, entered⟩ = some ⟨stack, new ++ entered⟩ ∧
      Below idom stack [c] new) :
    ∃ new, walkAll go (fun _ _ => true) bs ⟨stack, entered⟩ = some ⟨stack, new ++ entered⟩ ∧
      Below idom stack bs new := by
  induction bs generalizing entered with
  | nil => exact ⟨[], rfl, below_nil idom stack⟩
  | cons c rest inductionHypothesis =>
      rcases List.nodup_cons.mp nodup with ⟨notBehind, nodup⟩
      rcases going c List.mem_cons_self entered with ⟨new, went, below⟩
      rcases @inductionHypothesis (new ++ entered)
        (fun d member => subset d (List.mem_cons_of_mem c member)) nodup
        (fun d member => going d (List.mem_cons_of_mem c member)) with ⟨new', wentAll, others⟩
      refine ⟨new' ++ new, ?_, below.append others ?_⟩
      · rw [List.append_assoc]
        exact walkAll_cons_eq_some_iff.mpr ⟨_, went, wentAll⟩
      · intro e toC d member
        exact inverse.disjoint rootLink (subset c List.mem_cons_self)
          (subset d (List.mem_cons_of_mem c member)) (fun same => notBehind (same ▸ member)) toC

/-- What is below a vertex is the vertex or below a child. -/
theorem Inverse.below_cases (inverse : Inverse idom root number bound children)
    (rootLink : idom root = some root) (chain : Chain idom c b) :
    c = b ∨ ∃ d ∈ children b, Chain idom c d := by
  induction chain with
  | refl => exact Or.inl rfl
  | @tail e b chain link inductionHypothesis =>
      by_cases isRoot : e = root
      · rw [isRoot, rootLink] at link
        rw [← Option.some.inj link, ← isRoot]
        exact inductionHypothesis
      · exact Or.inr ⟨e, (inverse.mem_iff b e).mpr ⟨isRoot, link⟩, chain⟩

theorem Inverse.to_parent (inverse : Inverse idom root number bound children)
    (member : d ∈ children b) (chain : Chain idom c d) : Chain idom c b :=
  chain.trans (Chain.single ((inverse.mem_iff b d).mp member).2)

/-- The vertex itself is below it, with the stack it was entered with. -/
theorem Below.self (inverse : Inverse idom root number bound children)
    (rootLink : idom root = some root) {new : List (β × List β)}
    (below : Below idom (b :: stack) (children b) new) :
    Below idom stack [b] (new ++ [(b, stack)]) := by
  have notAbove : ∀ d ∈ children b, ¬ Chain idom b d := by
    intro d member chain
    have := inverse.number_le rootLink chain
    have := inverse.lower b d member
    omega
  constructor
  · rw [List.map_append]
    apply below.nodup.append (List.nodup_singleton b)
    intro c member member'
    rcases (below.mem_iff c).mp member with ⟨d, memberD, chain⟩
    exact notAbove d memberD (List.mem_singleton.mp member' ▸ chain)
  · intro c
    rw [List.map_append, List.mem_append, below.mem_iff]
    constructor
    · rintro (⟨d, member, chain⟩ | isB)
      · exact ⟨b, List.mem_singleton_self b, inverse.to_parent member chain⟩
      · refine ⟨b, List.mem_singleton_self b, ?_⟩
        rw [List.mem_singleton.mp isB]
        exact Chain.refl b
    · rintro ⟨b', isB, chain⟩
      rw [List.mem_singleton.mp isB] at chain
      rcases inverse.below_cases rootLink chain with rfl | isBelow
      · exact Or.inr (List.mem_singleton_self c)
      · exact Or.inl isBelow
  · intro visit member d
    rcases List.mem_append.mp member with isBelow | isSelf
    · rw [below.onStack visit isBelow d]
      rcases (below.mem_iff visit.1).mp (List.mem_map_of_mem isBelow) with ⟨e, memberE, toE⟩
      constructor
      · rintro (⟨e, memberE, up, chain⟩ | isBefore)
        · exact Or.inl ⟨b, List.mem_singleton_self b, up, inverse.to_parent memberE chain⟩
        · rcases List.mem_cons.mp isBefore with rfl | onStack
          · exact Or.inl ⟨d, List.mem_singleton_self d, inverse.to_parent memberE toE, Chain.refl d⟩
          · exact Or.inr onStack
      · rintro (⟨b', isB, up, chain⟩ | onStack)
        · rw [List.mem_singleton.mp isB] at chain
          rcases inverse.below_cases rootLink chain with rfl | ⟨f, memberF, toF⟩
          · exact Or.inr List.mem_cons_self
          · exact Or.inl ⟨f, memberF, up, toF⟩
        · exact Or.inr (List.mem_cons_of_mem b onStack)
    · rw [List.mem_singleton.mp isSelf, List.mem_cons]
      apply or_congr_left
      constructor
      · rintro rfl
        exact ⟨d, List.mem_singleton_self d, Chain.refl d, Chain.refl d⟩
      · rintro ⟨b', isB, up, chain⟩
        rw [List.mem_singleton.mp isB] at chain
        rcases inverse.below_cases rootLink chain with same | ⟨f, memberF, toF⟩
        · exact same
        · exact (notAbove f memberF (Chain.trans up toF)).elim

/-- The recursion enters what is below a vertex. -/
theorem descend_below (inverse : Inverse idom root number bound children)
    (rootLink : idom root = some root) (enough : (bound : Int) - number b < fuel)
    (inside : number b ≤ bound) :
    ∃ new, descend children Visits.enter Visits.leave fuel b ⟨stack, entered⟩ =
      some ⟨stack, new ++ entered⟩ ∧ Below idom stack [b] new := by
  induction fuel generalizing b stack entered with
  | zero => omega
  | succ fuel inductionHypothesis =>
      have going : ∀ c ∈ children b, ∀ entered, ∃ new,
          descend children Visits.enter Visits.leave fuel c ⟨b :: stack, entered⟩ =
            some ⟨b :: stack, new ++ entered⟩ ∧ Below idom (b :: stack) [c] new := by
        intro c member entered
        have := inverse.lower b c member
        exact inductionHypothesis (by omega) (inverse.bounded b c member)
      have children : ∃ new, walkAll (descend children Visits.enter Visits.leave fuel)
          (fun _ _ => true) (children b) ⟨b :: stack, (b, stack) :: entered⟩ =
            some ⟨b :: stack, new ++ (b, stack) :: entered⟩ ∧
          Below idom (b :: stack) (children b) new :=
        walkAll_below inverse rootLink (fun c member => member) (inverse.nodup b) going
      rcases children with ⟨new, went, below⟩
      refine ⟨new ++ [(b, stack)], ?_, below.self inverse rootLink⟩
      apply walk_succ_eq_some_iff.mpr
      refine ⟨_, rfl, _, went, ?_⟩
      rw [Visits.leave, List.tail_cons, List.append_assoc, List.singleton_append]

end Descent

end Shecc.Traversal
