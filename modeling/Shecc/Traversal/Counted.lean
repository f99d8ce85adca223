import Mathlib
import Shecc.Traversal.Core

/-!
# A walk that counts

A walk that counts visits in the vertices and goes on to a vertex as long as its count is below
a limit enters a vertex as often as it meets it, but not more often than its count is behind. The
file proves this, that the walk ends, and when it enters every vertex within reach once.
-/

namespace Shecc.Traversal

variable {β : Type}

/-- The counts, and the vertices entered and left, the latest first. -/
structure Counted (β : Type) where
  count : β → Nat
  entered : List β := []
  left : List β := []

section Walk

variable [DecidableEq β]

def Counted.enter (b : β) (c : Counted β) : Option (Counted β) :=
  some { c with count := Function.update c.count b (c.count b + 1), entered := b :: c.entered }

def Counted.leave (b : β) (c : Counted β) : Option (Counted β) :=
  some { c with left := b :: c.left }

/-- The walk goes on to a vertex whose count is below the limit. -/
def countedWalk (edges : β → List β) (limit : Nat) : Nat → β → Counted β → Option (Counted β) :=
  walk edges (fun c b => c.count b < limit) Counted.enter Counted.leave

/-- Every vertex was entered as often as it was met, but not more often than it was behind. -/
structure Meets (start : β → Nat) (limit : Nat) (met : List β) (c : Counted β) : Prop where
  count : ∀ b, c.count b = start b + c.entered.count b
  entered : ∀ b, c.entered.count b = min (met.count b) (limit - start b)

/-- How often the vertices of a list can still be entered. -/
def behind (vertices : List β) (limit : Nat) (c : Counted β) : Nat :=
  (vertices.map fun b => limit - c.count b).sum

/-- A walk from one state to another: it has entered and left the new vertices, and met the ends
of all their edges. -/
structure Walked (edges : β → List β) (start : β → Nat) (limit : Nat) (vertices : List β)
    (before met : List β) (c c' : Counted β) (new : List β) : Prop where
  entered : c'.entered = new ++ c.entered
  left : ∃ left, c'.left = left ++ c.left ∧ left.Perm new
  meets : Meets start limit (new.flatMap edges ++ (met ++ before)) c'
  behind_le : behind vertices limit c' ≤ behind vertices limit c

variable {edges : β → List β} {start : β → Nat} {limit fuel : Nat} {vertices before bs : List β}
  {c : Counted β} {root b : β}

theorem walkAll_walked {go : β → Counted β → Option (Counted β)}
    (going : ∀ d ∈ bs, ∀ before c, Meets start limit before c → c.count d < limit →
      behind vertices limit c ≤ fuel →
        ∃ c' new, go d c = some c' ∧ Walked edges start limit vertices before [d] c c' new)
    (meets : Meets start limit before c) (enough : behind vertices limit c ≤ fuel) :
    ∃ c' new, walkAll go (fun c b => c.count b < limit) bs c = some c' ∧
      Walked edges start limit vertices before bs c c' new := by
  induction bs generalizing before c with
  | nil => exact ⟨c, [], rfl, rfl, ⟨[], rfl, List.Perm.refl _⟩, meets, Nat.le_refl _⟩
  | cons d rest inductionHypothesis =>
      have one : ∃ c' new, walkOn go (fun c b => c.count b < limit) d c = some c' ∧
          Walked edges start limit vertices before [d] c c' new := by
        rw [walkOn]
        by_cases isDue : c.count d < limit
        · rw [if_pos (decide_eq_true isDue)]
          exact going d List.mem_cons_self before c meets isDue enough
        · rw [if_neg (by simpa using isDue)]
          refine ⟨c, [], rfl, rfl, ⟨[], rfl, List.Perm.refl _⟩, ⟨meets.count, ?_⟩, Nat.le_refl _⟩
          -- meeting it once more makes no difference
          intro b
          have counted := meets.count b
          have entered := meets.entered b
          rw [List.flatMap_nil, List.nil_append, List.singleton_append, List.count_cons]
          by_cases same : d = b
          · subst same
            simp only [beq_self_eq_true, if_true]
            omega
          · simpa [same] using entered
      rcases one with ⟨c₁, new₁, went, walked₁⟩
      rcases inductionHypothesis
        (fun e member => going e (List.mem_cons_of_mem d member)) walked₁.meets
        (Nat.le_trans walked₁.behind_le enough) with ⟨c₂, new₂, wentAll, walked₂⟩
      rcases walked₁.left with ⟨left₁, isLeft₁, perm₁⟩
      rcases walked₂.left with ⟨left₂, isLeft₂, perm₂⟩
      refine ⟨c₂, new₂ ++ new₁, walkAll_cons_eq_some_iff.mpr ⟨c₁, went, wentAll⟩, ?_,
        ⟨left₂ ++ left₁, ?_, perm₂.append perm₁⟩, ⟨walked₂.meets.count, ?_⟩,
        Nat.le_trans walked₂.behind_le walked₁.behind_le⟩
      · rw [walked₂.entered, walked₁.entered, List.append_assoc]
      · rw [isLeft₂, isLeft₁, List.append_assoc]
      · intro b
        rw [walked₂.meets.entered b]
        simp only [List.flatMap_append, List.count_append, List.count_cons, List.count_nil]
        congr 1
        omega

/-- Entering a vertex takes it one nearer to the limit. -/
theorem behind_enter (member : b ∈ vertices) (isDue : c.count b < limit) :
    behind vertices limit
      { c with count := Function.update c.count b (c.count b + 1), entered := b :: c.entered } <
        behind vertices limit c := by
  apply List.sum_lt_sum
  · intro d _
    by_cases same : d = b
    · subst same
      show limit - Function.update c.count d (c.count d + 1) d ≤ _
      rw [Function.update_self]
      omega
    · show limit - Function.update c.count b (c.count b + 1) d ≤ _
      rw [Function.update_of_ne same]
  · refine ⟨b, member, ?_⟩
    show limit - Function.update c.count b (c.count b + 1) b < _
    rw [Function.update_self]
    omega

/-- The walk ends, and enters what it meets. -/
theorem countedWalk_walked (all : ∀ b, Reaches edges root b → b ∈ vertices)
    (reaches : Reaches edges root b) (meets : Meets start limit before c)
    (isDue : c.count b < limit) (enough : behind vertices limit c ≤ fuel) :
    ∃ c' new, countedWalk edges limit (fuel + 1) b c = some c' ∧
      Walked edges start limit vertices before [b] c c' new := by
  induction fuel generalizing b c before with
  | zero =>
      have := behind_enter (all b reaches) isDue
      omega
  | succ fuel inductionHypothesis =>
      have shorter := behind_enter (all b reaches) isDue
      have meets₁ : Meets start limit (b :: before)
          { c with count := Function.update c.count b (c.count b + 1),
                   entered := b :: c.entered } := by
        constructor
        · intro d
          have counted := meets.count d
          show Function.update c.count b (c.count b + 1) d = start d + (b :: c.entered).count d
          by_cases same : d = b
          · subst same
            rw [Function.update_self, List.count_cons_self]
            omega
          · rw [Function.update_of_ne same, List.count_cons_of_ne (Ne.symm same)]
            exact counted
        · intro d
          have entered := meets.entered d
          show (b :: c.entered).count d = _
          by_cases same : d = b
          · subst same
            have counted := meets.count d
            rw [List.count_cons_self, List.count_cons_self]
            omega
          · rw [List.count_cons_of_ne (Ne.symm same), List.count_cons_of_ne (Ne.symm same)]
            exact entered
      rcases @walkAll_walked _ _ edges start limit fuel vertices (b :: before) (edges b) _
        (countedWalk edges limit (fuel + 1))
        (fun d edge before c meets isDue enough =>
          inductionHypothesis (reaches.tail edge) meets isDue enough) meets₁ (by omega) with
        ⟨c₂, new, wentAll, walked⟩
      rcases walked.left with ⟨left, isLeft, perm⟩
      refine ⟨{ c₂ with left := b :: c₂.left }, new ++ [b], ?_, ?_, ⟨b :: left, ?_, ?_⟩,
        ⟨walked.meets.count, ?_⟩, Nat.le_trans walked.behind_le (Nat.le_of_lt shorter)⟩
      · exact walk_succ_eq_some_iff.mpr ⟨_, rfl, c₂, wentAll, rfl⟩
      · rw [List.append_assoc]
        exact walked.entered
      · rw [List.cons_append]
        exact congrArg (b :: ·) isLeft
      · exact (perm.cons b).trans (List.perm_append_singleton b new).symm
      · intro d
        refine (walked.meets.entered d).trans ?_
        simp only [List.flatMap_append, List.flatMap_cons, List.flatMap_nil, List.count_append,
          List.count_cons, List.count_nil]
        congr 1
        omega

/-- No count goes over the limit. -/
theorem countedWalk_le (below : ∀ d, c.count d ≤ limit) (isDue : c.count b < limit)
    {c' : Counted β} (walked : countedWalk edges limit fuel b c = some c') (d : β) :
    c'.count d ≤ limit := by
  refine @walk_preserves_due _ _ _ _ _ _ _ _ _ _ (fun c => ∀ d, c.count d ≤ limit) ?_ ?_
    ?_ below walked d
  · intro b c c' isDue entered below d
    cases entered
    by_cases same : d = b
    · subst same
      show Function.update c.count d (c.count d + 1) d ≤ limit
      rw [Function.update_self]
      exact of_decide_eq_true isDue
    · show Function.update c.count b (c.count b + 1) d ≤ limit
      rw [Function.update_of_ne same]
      exact below d
  · intro b c c' isLeft below
    cases isLeft
    exact below
  · exact decide_eq_true isDue

/-- Only vertices within reach are entered. -/
theorem countedWalk_inside {c' : Counted β} (inside : ∀ d ∈ c.entered, Reaches edges b d)
    (walked : countedWalk edges limit fuel b c = some c') :
    ∀ d ∈ c'.entered, Reaches edges b d := by
  refine @walk_preserves _ _ _ _ _ _ _ _ _ _ b (fun c => ∀ d ∈ c.entered, Reaches edges b d)
    ?_ ?_ (Reaches.refl b) inside walked
  · intro d c c' reaches entered inside e member
    cases entered
    rcases List.mem_cons.mp member with rfl | member
    · exact reaches
    · exact inside e member
  · intro d c c' _ isLeft inside
    cases isLeft
    exact inside

/-! ## Once -/

/-- How many edges there are to a vertex from the vertices of a list. -/
def edgesTo (edges : β → List β) (vertices : List β) (b : β) : Nat :=
  (vertices.map fun p => (edges p).count b).sum

/-- A vertex is one behind the limit, or will be met only once. -/
def MetOnce (edges : β → List β) (root : β) (vertices : List β) (start : β → Nat) (limit : Nat)
    (b : β) : Prop :=
  start b + 1 = limit ∨ edgesTo edges vertices b + (if b = root then 1 else 0) = 1

/-- If there is one edge to a vertex from the vertices of a list, from a vertex of it, then the
edges from other vertices do not lead to it. -/
theorem edgesTo_eq_one {p : β} (one : edgesTo edges vertices b = 1) (member : p ∈ vertices)
    (edge : b ∈ edges p) :
    (edges p).count b = 1 ∧ ∀ q ∈ vertices, q ≠ p → (edges q).count b = 0 := by
  have positive : 0 < (edges p).count b := List.count_pos_iff.mpr edge
  have perm := List.perm_cons_erase member
  have sum : edgesTo edges vertices b =
      (edges p).count b + edgesTo edges (vertices.erase p) b := by
    rw [edgesTo, (perm.map fun p => (edges p).count b).sum_eq, List.map_cons, List.sum_cons]
    rfl
  have zero : edgesTo edges (vertices.erase p) b = 0 := by omega
  refine ⟨by omega, ?_⟩
  intro q memberQ differ
  exact List.sum_eq_zero_iff_forall_eq_nat.mp zero _
    (List.mem_map_of_mem ((List.mem_erase_of_ne differ).mpr memberQ))

/-- The vertices of a list meet a vertex as often as the only one with an edge to it is in the
list. -/
theorem count_flatMap_of_only {p : β} {list : List β} (one : (edges p).count b = 1)
    (others : ∀ q ∈ list, q ≠ p → (edges q).count b = 0) :
    (list.flatMap edges).count b = list.count p := by
  induction list with
  | nil => rfl
  | cons q rest inductionHypothesis =>
      rw [List.flatMap_cons, List.count_append,
        inductionHypothesis fun r member => others r (List.mem_cons_of_mem q member)]
      by_cases same : q = p
      · subst same
        rw [one, List.count_cons_self, Nat.add_comm]
      · rw [others q List.mem_cons_self same, List.count_cons_of_ne same, Nat.zero_add]

section Once

variable {new : List β} {c' : Counted β}

/-- The vertices entered are those within reach. -/
theorem Meets.within (meets : Meets start limit (new.flatMap edges ++ [root]) c')
    (entered : c'.entered = new) (behindLimit : ∀ b, Reaches edges root b → start b < limit)
    (inside : ∀ b ∈ new, Reaches edges root b) : b ∈ new ↔ Reaches edges root b := by
  refine ⟨inside b, fun reaches => ?_⟩
  have metOf : ∀ d, Reaches edges root d → d ∈ new.flatMap edges ++ [root] → d ∈ new := by
    intro d reaches met
    have count := meets.entered d
    have positive := List.count_pos_iff.mpr met
    have below := behindLimit d reaches
    rw [entered] at count
    exact List.count_pos_iff.mp (by omega)
  induction reaches with
  | refl => exact metOf root (Reaches.refl root) (by simp)
  | @tail p b reachesP edge inductionHypothesis =>
      apply metOf b (Reaches.tail reachesP edge)
      exact List.mem_append_left _ (List.mem_flatMap.mpr ⟨p, inductionHypothesis, edge⟩)

/-- Every vertex within reach is entered once if and only if each is one behind or met once. -/
theorem Meets.once_iff (meets : Meets start limit (new.flatMap edges ++ [root]) c')
    (entered : c'.entered = new) (behindLimit : ∀ b, Reaches edges root b → start b < limit)
    (inside : ∀ b ∈ new, Reaches edges root b) (spans : Spans edges root vertices) :
    (∀ b, Reaches edges root b → new.count b = 1) ↔
      ∀ b, Reaches edges root b → MetOnce edges root vertices start limit b := by
  have count : ∀ b, new.count b =
      min ((new.flatMap edges).count b + if b = root then 1 else 0) (limit - start b) := by
    intro b
    have isMin := meets.entered b
    have single : [root].count b = if b = root then 1 else 0 := by
      by_cases same : b = root
      · rw [if_pos same, same, List.count_singleton_self]
      · rw [if_neg same]
        exact List.count_eq_zero_of_not_mem fun member => same (List.mem_singleton.mp member)
    rw [entered, List.count_append, single] at isMin
    exact isMin
  have subset : ∀ q ∈ new, q ∈ vertices := fun q member => (spans.mem_iff q).mpr (inside q member)
  constructor
  · intro once b reaches
    -- the vertices entered are those of the list
    have perm : new.Perm vertices := by
      apply List.perm_iff_count.mpr
      intro d
      by_cases member : d ∈ vertices
      · rw [once d ((spans.mem_iff d).mp member), spans.nodup.count, if_pos member]
      · rw [List.count_eq_zero_of_not_mem member,
          List.count_eq_zero_of_not_mem fun isNew => member (subset d isNew)]
    have isMin := count b
    rw [once b reaches, List.count_flatMap, (perm.map _).sum_eq] at isMin
    change 1 = min (edgesTo edges vertices b + _) _ at isMin
    rw [MetOnce]
    omega
  · intro metOnce b reaches
    have positive : 0 < new.count b :=
      List.count_pos_iff.mpr ((meets.within entered behindLimit inside).mpr reaches)
    have atMost : new.count b ≤ 1 := by
      clear positive
      induction reaches with
      | refl =>
          have isMin := count root
          rcases metOnce root (Reaches.refl root) with oneBehind | one
          · omega
          · rw [if_pos rfl] at one isMin
            have noEdge : (new.flatMap edges).count root = 0 := by
              apply List.count_eq_zero_of_not_mem
              intro member
              rcases List.mem_flatMap.mp member with ⟨q, memberQ, edge⟩
              have zero := List.sum_eq_zero_iff_forall_eq_nat.mp
                (show edgesTo edges vertices root = 0 by omega) _
                (List.mem_map_of_mem (subset q memberQ))
              exact List.count_eq_zero.mp zero edge
            omega
      | @tail p b reachesP edge inductionHypothesis =>
          have isMin := count b
          have memberP : p ∈ vertices := (spans.mem_iff p).mpr reachesP
          have reaches : Reaches edges root b := Reaches.tail reachesP edge
          rcases metOnce b reaches with oneBehind | one
          · omega
          · have isOne : 1 ≤ edgesTo edges vertices b := by
              apply Nat.le_trans (List.count_pos_iff.mpr edge)
              exact List.single_le_sum (fun _ _ => Nat.zero_le _) _ (List.mem_map_of_mem memberP)
            have notRoot : (if b = root then 1 else 0) = 0 := by omega
            rcases edgesTo_eq_one (show edgesTo edges vertices b = 1 by omega) memberP edge with
              ⟨single, others⟩
            rw [count_flatMap_of_only single fun q member => others q (subset q member)] at isMin
            omega
    omega

end Once

end Walk

/-! ## Walks with the same counts -/

section Project

variable {σ τ : Type} {edges : β → List β} {due : σ → β → Bool} {due' : τ → β → Bool}
  {pre post : β → σ → Option σ} {pre' post' : β → τ → Option τ} {image : σ → τ} {good : σ → Prop}

/-- A walk over a state with more in it does what the walk over its image does, if entering and
leaving do. -/
structure Projects (due : σ → β → Bool) (due' : τ → β → Bool) (pre post : β → σ → Option σ)
    (pre' post' : β → τ → Option τ) (image : σ → τ) (good : σ → Prop) : Prop where
  sameDue : ∀ s b, good s → due s b = due' (image s) b
  samePre : ∀ b s, good s → (pre b s).map image = pre' b (image s)
  samePost : ∀ b s, good s → (post b s).map image = post' b (image s)
  keepsPre : ∀ b s s', good s → pre b s = some s' → good s'
  keepsPost : ∀ b s s', good s → post b s = some s' → good s'

/-- What is and stays so. -/
theorem walk_good (keepsPre : ∀ b s s', good s → pre b s = some s' → good s')
    (keepsPost : ∀ b s s', good s → post b s = some s' → good s') {fuel : Nat} {b : β} {s s' : σ}
    (isGood : good s) (walked : walk edges due pre post fuel b s = some s') : good s' :=
  @walk_preserves β σ edges due pre post fuel b s s' b good
    (fun c s s' _ ran isGood => keepsPre c s s' isGood ran)
    (fun c s s' _ ran isGood => keepsPost c s s' isGood ran) (Reaches.refl b) isGood walked

theorem walkAll_project (projects : Projects due due' pre post pre' post' image good)
    {go : β → σ → Option σ} {go' : β → τ → Option τ}
    (going : ∀ b s, good s → (go b s).map image = go' b (image s))
    (keeps : ∀ b s s', good s → go b s = some s' → good s') (bs : List β) {s : σ}
    (isGood : good s) : (walkAll go due bs s).map image = walkAll go' due' bs (image s) := by
  induction bs generalizing s with
  | nil => rfl
  | cons c rest inductionHypothesis =>
      have one : (walkOn go due c s).map image = walkOn go' due' c (image s) := by
        rw [walkOn, walkOn, projects.sameDue s c isGood]
        by_cases isDue : due' (image s) c = true
        · rw [if_pos isDue, if_pos isDue]
          exact going c s isGood
        · rw [if_neg isDue, if_neg isDue]
          rfl
      show ((walkOn go due c s).bind _).map image = (walkOn go' due' c (image s)).bind _
      rw [← one]
      cases isOn : walkOn go due c s with
      | none => rfl
      | some s' =>
          apply inductionHypothesis
          rw [walkOn] at isOn
          split at isOn
          case isTrue => exact keeps c s s' isGood isOn
          case isFalse =>
            cases isOn
            exact isGood

theorem walk_project (projects : Projects due due' pre post pre' post' image good)
    (fuel : Nat) (b : β) {s : σ} (isGood : good s) :
    (walk edges due pre post fuel b s).map image = walk edges due' pre' post' fuel b (image s) := by
  induction fuel generalizing b s with
  | zero => rfl
  | succ fuel inductionHypothesis =>
      have keeps : ∀ b s s', good s → walk edges due pre post fuel b s = some s' → good s' :=
        fun b s s' isGood walked => walk_good projects.keepsPre projects.keepsPost isGood walked
      show ((pre b s).bind _).map image = (pre' b (image s)).bind _
      rw [← projects.samePre b s isGood]
      cases isPre : pre b s with
      | none => rfl
      | some s₁ =>
          have isGood₁ := projects.keepsPre b s s₁ isGood isPre
          show ((walkAll _ due (edges b) s₁).bind _).map image =
            (walkAll _ due' (edges b) (image s₁)).bind _
          rw [← walkAll_project projects (fun b s => inductionHypothesis b) keeps (edges b) isGood₁]
          cases isAll : walkAll (walk edges due pre post fuel) due (edges b) s₁ with
          | none => rfl
          | some s₂ =>
              exact projects.samePost b s₂ (walkAll_preserves
                (fun c _ s s' isGood went => keeps c s s' isGood went) isGood₁ isAll)

end Project

end Shecc.Traversal
