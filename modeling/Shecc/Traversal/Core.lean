import Mathlib.Logic.Relation
import Mathlib.Data.List.Basic

/-!
# Depth-first traversal

A recursive walk over a graph enters a vertex, walks on to the neighbours that are due, and
leaves the vertex. What is due is decided by the state, which entering and leaving change. A
walk from a state in which every vertex is due enters every vertex that can be reached; it
may enter one more often than once.
-/

namespace Shecc.Traversal

variable {β σ : Type}

/-- The walk goes on to a neighbour if it is due. -/
def walkOn (go : β → σ → Option σ) (due : σ → β → Bool) (b : β) (s : σ) : Option σ :=
  if due s b then go b s else some s

/-- The neighbours, one behind the other. -/
def walkAll (go : β → σ → Option σ) (due : σ → β → Bool) : List β → σ → Option σ
  | [], s => some s
  | b :: rest, s => do
      let s ← walkOn go due b s
      walkAll go due rest s

/-- The walk from a vertex. -/
def walk (edges : β → List β) (due : σ → β → Bool) (pre post : β → σ → Option σ) :
    Nat → β → σ → Option σ
  | 0, _, _ => none
  | fuel + 1, b, s => do
      let s ← pre b s
      let s ← walkAll (walk edges due pre post fuel) due (edges b) s
      post b s

/-- There is a path. -/
def Reaches (edges : β → List β) : β → β → Prop :=
  Relation.ReflTransGen fun b c => c ∈ edges b

/-- The vertices of a list are those within reach, each once. -/
structure Spans (edges : β → List β) (root : β) (vertices : List β) : Prop where
  nodup : vertices.Nodup
  mem_iff : ∀ b, b ∈ vertices ↔ Reaches edges root b

section Walk

variable {edges : β → List β} {due : σ → β → Bool} {pre post : β → σ → Option σ}
  {go : β → σ → Option σ} {fuel : Nat} {b : β} {bs : List β} {s s' : σ}

theorem Reaches.refl (b : β) : Reaches edges b b := Relation.ReflTransGen.refl

theorem Reaches.tail {a : β} {c : β} (reaches : Reaches edges a b) (edge : c ∈ edges b) :
    Reaches edges a c := Relation.ReflTransGen.tail reaches edge

theorem walkAll_cons_eq_some_iff : walkAll go due (b :: bs) s = some s' ↔
    ∃ middle, walkOn go due b s = some middle ∧ walkAll go due bs middle = some s' :=
  Option.bind_eq_some_iff

theorem walk_succ_eq_some_iff : walk edges due pre post (fuel + 1) b s = some s' ↔
    ∃ first, pre b s = some first ∧ ∃ middle,
      walkAll (walk edges due pre post fuel) due (edges b) first = some middle ∧
        post b middle = some s' := by
  rw [walk]
  simp only [bind, Option.bind_eq_some_iff]

/-! ## What every step preserves -/

theorem walkAll_preserves {holds : σ → Prop}
    (going : ∀ b ∈ bs, ∀ s s', holds s → go b s = some s' → holds s') (start : holds s)
    (walked : walkAll go due bs s = some s') : holds s' := by
  induction bs generalizing s with
  | nil =>
      cases walked
      exact start
  | cons b rest inductionHypothesis =>
      rcases walkAll_cons_eq_some_iff.mp walked with ⟨middle, stepped, walked⟩
      apply inductionHypothesis (fun c member => going c (List.mem_cons_of_mem b member)) _ walked
      rw [walkOn] at stepped
      split at stepped
      case isTrue isDue => exact going b List.mem_cons_self s middle start stepped
      case isFalse notDue =>
        cases stepped
        exact start

/-- What entering and leaving a vertex within reach preserves, the walk preserves. -/
theorem walk_preserves {root : β} {holds : σ → Prop}
    (enters : ∀ b s s', Reaches edges root b → pre b s = some s' → holds s → holds s')
    (leaves : ∀ b s s', Reaches edges root b → post b s = some s' → holds s → holds s')
    (reaches : Reaches edges root b) (start : holds s)
    (walked : walk edges due pre post fuel b s = some s') : holds s' := by
  induction fuel generalizing b s s' with
  | zero => cases walked
  | succ fuel inductionHypothesis =>
      rcases walk_succ_eq_some_iff.mp walked with ⟨first, entered, middle, walkedAll, left⟩
      apply leaves b middle s' reaches left
      apply walkAll_preserves _ (enters b s first reaches entered start) walkedAll
      intro c member s₁ s₂ isStart walkedOn
      exact inductionHypothesis (reaches.tail member) isStart walkedOn

theorem walkAll_preserves_due {holds : σ → Prop}
    (going : ∀ b s s', due s b = true → holds s → go b s = some s' → holds s') (start : holds s)
    (walked : walkAll go due bs s = some s') : holds s' := by
  induction bs generalizing s with
  | nil =>
      cases walked
      exact start
  | cons b rest inductionHypothesis =>
      rcases walkAll_cons_eq_some_iff.mp walked with ⟨middle, stepped, walked⟩
      apply inductionHypothesis _ walked
      rw [walkOn] at stepped
      split at stepped
      case isTrue isDue => exact going b s middle isDue start stepped
      case isFalse notDue =>
        cases stepped
        exact start

/-- What entering a vertex that is due and leaving a vertex preserve, the walk from a vertex that is
due preserves. -/
theorem walk_preserves_due {holds : σ → Prop}
    (enters : ∀ b s s', due s b = true → pre b s = some s' → holds s → holds s')
    (leaves : ∀ b s s', post b s = some s' → holds s → holds s')
    (isDue : due s b = true) (start : holds s)
    (walked : walk edges due pre post fuel b s = some s') : holds s' := by
  induction fuel generalizing b s s' with
  | zero => cases walked
  | succ fuel inductionHypothesis =>
      rcases walk_succ_eq_some_iff.mp walked with ⟨first, entered, middle, walkedAll, left⟩
      apply leaves b middle s' left
      exact walkAll_preserves_due (fun c s₁ s₂ isDue start went =>
        inductionHypothesis isDue start went) (enters b s first isDue entered start) walkedAll

/-! ## What is entered -/

/-- A walk in progress: the entered vertices, of which all but those on the stack are left.
The work is done at each of them, and what is not due was entered. -/
structure Progress (edges : β → List β) (due : σ → β → Bool) (done : σ → β → Prop)
    (stack entered : List β) (s : σ) : Prop where
  notDue : ∀ b, due s b = false → b ∈ entered
  closed : ∀ b ∈ entered, b ∈ stack ∨ ∀ c ∈ edges b, c ∈ entered
  done : ∀ b ∈ entered, done s b

/-- Entering a vertex does its work, undoes none and makes no other vertex less due. -/
structure Working (due : σ → β → Bool) (pre post : β → σ → Option σ) (done : σ → β → Prop) :
    Prop where
  enters : ∀ b s s', pre b s = some s' → done s' b
  keepsEnter : ∀ b s s', pre b s = some s' → ∀ c, done s c → done s' c
  keepsLeave : ∀ b s s', post b s = some s' → ∀ c, done s c → done s' c
  dueEnter : ∀ b s s', pre b s = some s' → ∀ c, due s' c = false → c = b ∨ due s c = false
  dueLeave : ∀ b s s', post b s = some s' → ∀ c, due s' c = false → due s c = false

variable {done : σ → β → Prop} {stack entered : List β}

theorem Progress.enter (working : Working due pre post done)
    (ran : pre b s = some s') (progress : Progress edges due done stack entered s) :
    Progress edges due done (b :: stack) (b :: entered) s' := by
  constructor
  · intro c notDue
    rcases working.dueEnter b s s' ran c notDue with rfl | notDue
    · exact List.mem_cons_self
    · exact List.mem_cons_of_mem b (progress.notDue c notDue)
  · intro c member
    rcases List.mem_cons.mp member with rfl | member
    · exact Or.inl List.mem_cons_self
    · rcases progress.closed c member with onStack | closed
      · exact Or.inl (List.mem_cons_of_mem b onStack)
      · exact Or.inr fun d edge => List.mem_cons_of_mem b (closed d edge)
  · intro c member
    rcases List.mem_cons.mp member with rfl | member
    · exact working.enters c s s' ran
    · exact working.keepsEnter b s s' ran c (progress.done c member)

/-- A vertex is left when all its neighbours were entered. -/
theorem Progress.leave (working : Working due pre post done)
    (ran : post b s = some s') (progress : Progress edges due done (b :: stack) entered s)
    (all : ∀ c ∈ edges b, c ∈ entered) : Progress edges due done stack entered s' := by
  constructor
  · intro c notDue
    exact progress.notDue c (working.dueLeave b s s' ran c notDue)
  · intro c member
    rcases progress.closed c member with onStack | closed
    · rcases List.mem_cons.mp onStack with rfl | onStack
      · exact Or.inr all
      · exact Or.inl onStack
    · exact Or.inr closed
  · intro c member
    exact working.keepsLeave b s s' ran c (progress.done c member)

theorem walkAll_progress
    (going : ∀ b entered s s', Progress edges due done stack entered s → go b s = some s' →
      ∃ entered', Progress edges due done stack entered' s' ∧ entered ⊆ entered' ∧ b ∈ entered')
    (progress : Progress edges due done stack entered s)
    (walked : walkAll go due bs s = some s') :
    ∃ entered', Progress edges due done stack entered' s' ∧ entered ⊆ entered' ∧
      bs ⊆ entered' := by
  induction bs generalizing entered s with
  | nil =>
      cases walked
      exact ⟨entered, progress, List.Subset.refl _, List.nil_subset _⟩
  | cons b rest inductionHypothesis =>
      rcases walkAll_cons_eq_some_iff.mp walked with ⟨middle, stepped, walked⟩
      have here : ∃ entered', Progress edges due done stack entered' middle ∧
          entered ⊆ entered' ∧ b ∈ entered' := by
        rw [walkOn] at stepped
        split at stepped
        case isTrue isDue => exact going b entered s middle progress stepped
        case isFalse notDue =>
          cases stepped
          rw [Bool.not_eq_true] at notDue
          exact ⟨entered, progress, List.Subset.refl _, progress.notDue b notDue⟩
      rcases here with ⟨entered₁, progress₁, grows₁, member⟩
      rcases inductionHypothesis progress₁ walked with ⟨entered₂, progress₂, grows₂, all⟩
      exact ⟨entered₂, progress₂, List.Subset.trans grows₁ grows₂,
        List.cons_subset.mpr ⟨grows₂ member, all⟩⟩

theorem walk_progress (working : Working due pre post done)
    (progress : Progress edges due done stack entered s)
    (walked : walk edges due pre post fuel b s = some s') :
    ∃ entered', Progress edges due done stack entered' s' ∧ entered ⊆ entered' ∧
      b ∈ entered' := by
  induction fuel generalizing b stack entered s s' with
  | zero => cases walked
  | succ fuel inductionHypothesis =>
      rcases walk_succ_eq_some_iff.mp walked with ⟨first, ran, middle, walkedAll, left⟩
      rcases walkAll_progress (fun c entered s₁ s₂ progress walkedOn =>
        inductionHypothesis progress walkedOn) (progress.enter working ran) walkedAll with
        ⟨entered', progress', grows, all⟩
      rcases List.cons_subset.mp grows with ⟨member, grows⟩
      exact ⟨entered', progress'.leave working left fun c edge => all edge, grows, member⟩

/-- From a state in which every vertex is due the work is done at every vertex within
reach. -/
theorem walk_done (working : Working due pre post done) (allDue : ∀ c, due s c = true)
    (walked : walk edges due pre post fuel b s = some s') {c : β}
    (reaches : Reaches edges b c) : done s' c := by
  have start : Progress edges due done [] [] s := by
    constructor
    · intro c notDue
      rw [allDue c] at notDue
      cases notDue
    · intro c member
      cases member
    · intro c member
      cases member
  rcases walk_progress working start walked with ⟨entered, progress, -, member⟩
  apply progress.done
  induction reaches with
  | refl => exact member
  | tail _ edge inductionHypothesis =>
      rcases progress.closed _ inductionHypothesis with ⟨⟨⟩⟩ | closed
      exact closed _ edge

end Walk

end Shecc.Traversal
