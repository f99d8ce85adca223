import Mathlib.Data.List.Basic
import Mathlib.Tactic.Cases

/-!
# Computations with a log

A computation on a state may fail, and the state has a log that only grows. Some
entries of the log are regular. As long as all of them are, a computation keeps its
promises; behind the first that is not nothing is promised. A log is a chronicle if
an entry behind regular ones is right exactly if it is regular itself.
-/

namespace Shecc.Trace

variable {σ ε ρ α β : Type}

/-! ## Chronicles -/

section Chronicle

variable (regular right : ρ → Prop)

/-- Behind regular entries the right ones are the regular ones. -/
def Chronicle (entries : List ρ) : Prop :=
  ∀ earlier entry later, entries = earlier ++ entry :: later →
    (∀ one ∈ earlier, regular one) → (right entry ↔ regular entry)

variable {regular right}

theorem chronicle_nil : Chronicle regular right [] := by
  intro earlier entry later split
  cases earlier <;> cases split

theorem chronicle_singleton {entry : ρ} (iff_ : right entry ↔ regular entry) :
    Chronicle regular right [entry] := by
  intro earlier other later split _
  cases earlier with
  | nil =>
      cases split
      exact iff_
  | cons one rest => cases rest <;> cases split

/-- A chronicle goes on as long as its entries are regular. -/
theorem Chronicle.append {first second : List ρ} (chronicle : Chronicle regular right first)
    (more : (∀ entry ∈ first, regular entry) → Chronicle regular right second) :
    Chronicle regular right (first ++ second) := by
  intro earlier entry later split all
  rcases List.append_eq_append_iff.mp split with ⟨between, isEarlier, isSecond⟩ |
    ⟨between, isFirst, isBehind⟩
  · subst isEarlier
    apply more _ between entry later isSecond
    · intro one member
      exact all one (List.mem_append_right _ member)
    · intro one member
      exact all one (List.mem_append_left _ member)
  · cases between with
    | nil =>
        rw [List.append_nil] at isFirst
        rw [List.nil_append] at isBehind
        subst isFirst
        apply more all [] entry later isBehind.symm
        intro one member
        cases member
    | cons other rest =>
        cases isBehind
        exact chronicle earlier entry rest isFirst all

/-- In a chronicle all entries are right exactly if all are regular. -/
theorem Chronicle.forall_iff {entries : List ρ} (chronicle : Chronicle regular right entries) :
    (∀ entry ∈ entries, right entry) ↔ ∀ entry ∈ entries, regular entry := by
  have from_ : ∀ earlier later : List ρ, entries = earlier ++ later →
      (∀ entry ∈ earlier, regular entry) →
        ((∀ entry ∈ later, right entry) ↔ ∀ entry ∈ later, regular entry) := by
    intro earlier later
    induction later generalizing earlier with
    | nil => simp
    | cons entry rest inductionHypothesis =>
        intro split all
        have here := chronicle earlier entry rest split all
        have behind : regular entry →
            ((∀ other ∈ rest, right other) ↔ ∀ other ∈ rest, regular other) := by
          intro isRegular
          apply inductionHypothesis (earlier ++ [entry])
          · rw [split, List.append_assoc]
            rfl
          · intro other member
            rcases List.mem_append.mp member with before | isLast
            · exact all other before
            · cases List.mem_singleton.mp isLast
              exact isRegular
        rw [List.forall_mem_cons, List.forall_mem_cons, here]
        exact and_congr_right behind
  apply from_ [] entries rfl
  intro entry member
  cases member

end Chronicle

/-! ## Computations -/

section Traced

variable (log : σ → List ρ) (regular right : ρ → Prop)

/-- The computation appends a chronicle to the log, and keeps its promise if all of it
is regular. -/
def Traced (step : StateT σ (Except ε) α) (pre : σ → Prop) (post : σ → α → σ → Prop) : Prop :=
  ∀ s value s', step s = .ok (value, s') → ∃ new, log s' = log s ++ new ∧
    (pre s → Chronicle regular right new ∧ ((∀ entry ∈ new, regular entry) → post s value s'))

variable {log regular right}

/-- A computation that does not log. -/
theorem Traced.silent {step : StateT σ (Except ε) α} {pre : σ → Prop} {post : σ → α → σ → Prop}
    (ran : ∀ s value s', step s = .ok (value, s') → log s' = log s ∧ (pre s → post s value s')) :
    Traced log regular right step pre post := by
  intro s value s' isOk
  rcases ran s value s' isOk with ⟨same, promise⟩
  refine ⟨[], by rw [same, List.append_nil], fun isPre => ⟨chronicle_nil, fun _ => ?_⟩⟩
  exact promise isPre

theorem Traced.fail {failure : ε} {pre : σ → Prop} {post : σ → α → σ → Prop} :
    Traced log regular right (fun _ => .error failure) pre post := by
  rintro s value s' ⟨⟩

theorem Traced.pure {value : α} {pre : σ → Prop} {post : σ → α → σ → Prop}
    (promise : ∀ s, pre s → post s value s) :
    Traced log regular right (pure value : StateT σ (Except ε) α) pre post := by
  apply Traced.silent
  rintro s value' s' ⟨⟩
  exact ⟨rfl, promise s⟩

/-- More is assumed, or less promised. -/
theorem Traced.weaken {step : StateT σ (Except ε) α} {pre pre' : σ → Prop}
    {post post' : σ → α → σ → Prop} (traced : Traced log regular right step pre post)
    (assumed : ∀ s, pre' s → pre s)
    (promised : ∀ s value s', pre' s → post s value s' → post' s value s') :
    Traced log regular right step pre' post' := by
  intro s value s' isOk
  rcases traced s value s' isOk with ⟨new, logged, holds⟩
  refine ⟨new, logged, fun isPre => ?_⟩
  rcases holds (assumed s isPre) with ⟨chronicle, promise⟩
  exact ⟨chronicle, fun all => promised s value s' isPre (promise all)⟩

/-- One computation behind another. -/
theorem Traced.bind {step : StateT σ (Except ε) α} {rest : α → StateT σ (Except ε) β}
    {pre : σ → Prop} {mid : σ → α → σ → Prop} {post : σ → β → σ → Prop}
    (first : Traced log regular right step pre mid)
    (second : ∀ s value, Traced log regular right (rest value)
      (fun s' => pre s ∧ mid s value s') fun _ value' s'' => post s value' s'') :
    Traced log regular right (step >>= rest) pre post := by
  intro s value s' isOk
  change (step s).bind (fun result => rest result.1 result.2) = _ at isOk
  cases isFirst : step s with
  | error failure =>
      rw [isFirst] at isOk
      cases isOk
  | ok result =>
      rcases result with ⟨middle, s₁⟩
      rw [isFirst] at isOk
      rcases first s middle s₁ isFirst with ⟨new₁, logged₁, holds₁⟩
      rcases second s middle s₁ value s' isOk with ⟨new₂, logged₂, holds₂⟩
      refine ⟨new₁ ++ new₂, by rw [logged₂, logged₁, List.append_assoc], fun isPre => ?_⟩
      rcases holds₁ isPre with ⟨chronicle₁, promise₁⟩
      constructor
      · apply chronicle₁.append
        intro all
        exact (holds₂ ⟨isPre, promise₁ all⟩).1
      · intro all
        have all₁ := fun entry member => all entry (List.mem_append_left new₂ member)
        have all₂ := fun entry member => all entry (List.mem_append_right new₁ member)
        exact (holds₂ ⟨isPre, promise₁ all₁⟩).2 all₂

/-- What is assumed may be about something that exists. -/
theorem Traced.exists {ι : Type} [Nonempty ι] {step : StateT σ (Except ε) α} {pre : ι → σ → Prop}
    {post : σ → α → σ → Prop} (traced : ∀ i, Traced log regular right step (pre i) post) :
    Traced log regular right step (fun s => ∃ i, pre i s) post := by
  intro s value s' isOk
  have ⟨any⟩ : Nonempty ι := inferInstance
  rcases traced any s value s' isOk with ⟨new, logged, -⟩
  refine ⟨new, logged, ?_⟩
  rintro ⟨i, isPre⟩
  rcases traced i s value s' isOk with ⟨new', logged', holds⟩
  rw [List.append_cancel_left (logged.symm.trans logged')]
  exact holds isPre

theorem Traced.ite {condition : Prop} [Decidable condition] {first second : StateT σ (Except ε) α}
    {pre : σ → Prop} {post : σ → α → σ → Prop}
    (isTrue : condition → Traced log regular right first pre post)
    (isFalse : ¬ condition → Traced log regular right second pre post) :
    Traced log regular right (if condition then first else second) pre post := by
  by_cases holds : condition
  · rw [if_pos holds]
    exact isTrue holds
  · rw [if_neg holds]
    exact isFalse holds

end Traced

end Shecc.Trace
