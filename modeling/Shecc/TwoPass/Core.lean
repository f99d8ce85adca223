import Mathlib

/-!
# Two-pass layout

A first pass adds up the sizes of a list of items, a second pass emits them, each
at the position the output has reached. Positions count bytes and every emitted
unit takes `width` of them. Where the second pass emits what the first one
counted, every item starts where the first pass put it.
-/

namespace Shecc.TwoPass

variable {α β : Type}

/-- One emitted item: where it starts and what was emitted for it. -/
structure Placed (α β : Type) where
  position : Nat
  item : α
  units : List β

/-- Emit the items in order, starting at a position. -/
def place (width : Nat) (emit : Nat → α → Option (List β)) :
    Nat → List α → Option (List (Placed α β))
  | _, [] => some []
  | position, item :: rest => do
      let units ← emit position item
      let placed ← place width emit (position + width * units.length) rest
      return ⟨position, item, units⟩ :: placed

/-- Everything emitted, in order. -/
def output (placed : List (Placed α β)) : List β :=
  placed.flatMap Placed.units

/-- The first pass: the sum of the sizes. -/
def total (size : α → Option Nat) : List α → Option Nat
  | [] => some 0
  | item :: rest => do
      let first ← size item
      let others ← total size rest
      return first + others

/-- What was emitted for the item has the size the first pass counted. -/
def Fits (width : Nat) (size : α → Option Nat) (placed : Placed α β) : Prop :=
  size placed.item = some (width * placed.units.length)

section Place

variable {width : Nat} {emit : Nat → α → Option (List β)} {size : α → Option Nat}

@[simp] theorem output_nil : output ([] : List (Placed α β)) = [] := rfl

@[simp] theorem output_cons (head : Placed α β) (rest : List (Placed α β)) :
    output (head :: rest) = head.units ++ output rest := rfl

@[simp] theorem output_append (first second : List (Placed α β)) :
    output (first ++ second) = output first ++ output second :=
  List.flatMap_append

@[simp] theorem place_nil (position : Nat) : place width emit position [] = some [] := rfl

theorem place_cons {position : Nat} {item : α} {rest : List α} {placed : List (Placed α β)}
    (emitted : place width emit position (item :: rest) = some placed) :
    ∃ units others, emit position item = some units ∧
      place width emit (position + width * units.length) rest = some others ∧
      placed = ⟨position, item, units⟩ :: others := by
  rw [place, Option.bind_eq_bind, Option.bind_eq_some_iff] at emitted
  rcases emitted with ⟨units, unitsEq, emitted⟩
  rw [Option.bind_eq_bind, Option.bind_eq_some_iff] at emitted
  rcases emitted with ⟨others, othersEq, result⟩
  exact ⟨units, others, unitsEq, othersEq, (Option.some.inj result).symm⟩

/-- A list is placed by placing a prefix and then the remainder behind it. -/
theorem place_append {first second : List α} {position : Nat} {placed : List (Placed α β)}
    (emitted : place width emit position (first ++ second) = some placed) :
    ∃ before after, place width emit position first = some before ∧
      place width emit (position + width * (output before).length) second = some after ∧
      placed = before ++ after := by
  induction first generalizing position placed with
  | nil => exact ⟨[], placed, rfl, by simpa using emitted, rfl⟩
  | cons item rest inductionHypothesis =>
      rw [List.cons_append] at emitted
      rcases place_cons emitted with ⟨units, others, unitsEq, othersEq, rfl⟩
      rcases inductionHypothesis othersEq with ⟨before, after, beforeEq, afterEq, rfl⟩
      refine ⟨⟨position, item, units⟩ :: before, after, ?_, ?_, rfl⟩
      · rw [place, unitsEq, Option.bind_eq_bind, Option.bind_some, beforeEq]
        rfl
      · rw [output_cons, List.length_append, Nat.mul_add, ← Nat.add_assoc]
        exact afterEq

/-- What is placed is what was emitted there. -/
theorem emit_of_mem {items : List α} {position : Nat} {placed : List (Placed α β)}
    (emitted : place width emit position items = some placed) {one : Placed α β}
    (present : one ∈ placed) :
    one.item ∈ items ∧ emit one.position one.item = some one.units := by
  induction items generalizing position placed with
  | nil =>
      cases emitted
      cases present
  | cons item rest inductionHypothesis =>
      rcases place_cons emitted with ⟨units, others, unitsEq, othersEq, rfl⟩
      rcases List.mem_cons.mp present with rfl | present
      · exact ⟨List.mem_cons_self, unitsEq⟩
      · rcases inductionHypothesis othersEq present with ⟨inside, same⟩
        exact ⟨List.mem_cons_of_mem _ inside, same⟩

/-- Every item is placed. -/
theorem exists_placed {items : List α} {position : Nat} {placed : List (Placed α β)}
    (emitted : place width emit position items = some placed) {item : α}
    (present : item ∈ items) : ∃ one ∈ placed, one.item = item := by
  induction items generalizing position placed with
  | nil => cases present
  | cons head rest inductionHypothesis =>
      rcases place_cons emitted with ⟨units, others, -, othersEq, rfl⟩
      rcases List.mem_cons.mp present with rfl | present
      · exact ⟨_, List.mem_cons_self, rfl⟩
      · rcases inductionHypothesis othersEq present with ⟨one, inside, same⟩
        exact ⟨one, List.mem_cons_of_mem _ inside, same⟩

/-- Where an item of the list is placed. -/
theorem placed_at {before : List α} {item : α} {after : List α} {position : Nat}
    {placed : List (Placed α β)}
    (emitted : place width emit position (before ++ item :: after) = some placed) :
    ∃ first units others, place width emit position before = some first ∧
      placed = first ++ ⟨position + width * (output first).length, item, units⟩ :: others := by
  rcases place_append emitted with ⟨first, second, firstEq, secondEq, rfl⟩
  rcases place_cons secondEq with ⟨units, others, -, -, rfl⟩
  exact ⟨first, units, others, firstEq, rfl⟩

/-- Every placed item comes from a place in the list. -/
theorem exists_split {items : List α} {position : Nat} {placed : List (Placed α β)}
    (emitted : place width emit position items = some placed) {one : Placed α β}
    (present : one ∈ placed) :
    ∃ before after first others, items = before ++ one.item :: after ∧
      place width emit position before = some first ∧ placed = first ++ one :: others ∧
      one.position = position + width * (output first).length := by
  induction items generalizing position placed with
  | nil =>
      cases emitted
      cases present
  | cons item rest inductionHypothesis =>
      rcases place_cons emitted with ⟨units, others, unitsEq, othersEq, rfl⟩
      rcases List.mem_cons.mp present with rfl | present
      · exact ⟨[], rest, [], others, rfl, rfl, rfl, rfl⟩
      · rcases inductionHypothesis othersEq present with
          ⟨before, after, first, remaining, split, firstEq, rfl, place⟩
        refine ⟨item :: before, after, ⟨position, item, units⟩ :: first, remaining, ?_, ?_, rfl, ?_⟩
        · rw [split, List.cons_append]
        · rw [TwoPass.place, unitsEq, Option.bind_eq_bind, Option.bind_some, firstEq]
          rfl
        · rw [place, output_cons, List.length_append, Nat.mul_add, Nat.add_assoc]

theorem place_length {items : List α} {position : Nat} {placed : List (Placed α β)}
    (emitted : place width emit position items = some placed) :
    placed.length = items.length := by
  induction items generalizing position placed with
  | nil =>
      cases emitted
      rfl
  | cons item rest inductionHypothesis =>
      rcases place_cons emitted with ⟨units, others, -, othersEq, rfl⟩
      rw [List.length_cons, List.length_cons, inductionHypothesis othersEq]

/-- Where every item has the counted size, the whole output has. -/
theorem total_of_fits {items : List α} {position : Nat} {placed : List (Placed α β)}
    (emitted : place width emit position items = some placed)
    (fits : ∀ one ∈ placed, Fits width size one) :
    total size items = some (width * (output placed).length) := by
  induction items generalizing position placed with
  | nil =>
      cases emitted
      rfl
  | cons item rest inductionHypothesis =>
      rcases place_cons emitted with ⟨units, others, -, othersEq, rfl⟩
      have first : size item = some (width * units.length) := fits _ List.mem_cons_self
      have remaining := inductionHypothesis othersEq
        fun one present => fits one (List.mem_cons_of_mem _ present)
      rw [total, first, remaining, output_cons, List.length_append, Nat.mul_add]
      rfl

/-- A bound on each item bounds the output. -/
theorem output_length_le {items : List α} {position bound : Nat} {placed : List (Placed α β)}
    (emitted : place width emit position items = some placed)
    (small : ∀ one ∈ placed, one.units.length ≤ bound) :
    (output placed).length ≤ bound * items.length := by
  induction items generalizing position placed with
  | nil =>
      cases emitted
      simp
  | cons item rest inductionHypothesis =>
      rcases place_cons emitted with ⟨units, others, -, othersEq, rfl⟩
      have first : units.length ≤ bound := small _ List.mem_cons_self
      have remaining := inductionHypothesis othersEq
        fun one present => small one (List.mem_cons_of_mem _ present)
      rw [output_cons, List.length_append, List.length_cons, Nat.mul_add, Nat.mul_one]
      dsimp only
      omega

end Place

theorem total_cons {size : α → Option Nat} {item : α} {rest : List α} {sum : Nat}
    (counted : total size (item :: rest) = some sum) :
    ∃ first others, size item = some first ∧ total size rest = some others ∧
      sum = first + others := by
  rw [total, Option.bind_eq_bind, Option.bind_eq_some_iff] at counted
  rcases counted with ⟨first, firstEq, counted⟩
  rcases Option.bind_eq_some_iff.mp counted with ⟨others, othersEq, result⟩
  exact ⟨first, others, firstEq, othersEq, (Option.some.inj result).symm⟩

theorem total_append {size : α → Option Nat} {first second : List α} {sum : Nat}
    (counted : total size (first ++ second) = some sum) :
    ∃ before after, total size first = some before ∧ total size second = some after ∧
      sum = before + after := by
  induction first generalizing sum with
  | nil => exact ⟨0, sum, rfl, counted, (Nat.zero_add sum).symm⟩
  | cons item rest inductionHypothesis =>
      rcases total_cons counted with ⟨head, others, headEq, othersEq, rfl⟩
      rcases inductionHypothesis othersEq with ⟨before, after, beforeEq, afterEq, rfl⟩
      refine ⟨head + before, after, ?_, afterEq, (Nat.add_assoc _ _ _).symm⟩
      rw [total, headEq, beforeEq]
      rfl

/-- A divisor of every size divides the sum. -/
theorem dvd_total {size : α → Option Nat} {d : Nat}
    (divides : ∀ item n, size item = some n → d ∣ n) {items : List α} {sum : Nat}
    (counted : total size items = some sum) : d ∣ sum := by
  induction items generalizing sum with
  | nil =>
      cases counted
      exact Nat.dvd_zero d
  | cons item rest inductionHypothesis =>
      rcases total_cons counted with ⟨first, others, firstEq, othersEq, rfl⟩
      exact Nat.dvd_add (divides item first firstEq) (inductionHypothesis othersEq)

/-- Every item of a counted list has a size. -/
theorem size_of_mem {size : α → Option Nat} {items : List α} {sum : Nat}
    (counted : total size items = some sum) {item : α} (present : item ∈ items) :
    ∃ n, size item = some n := by
  induction items generalizing sum with
  | nil => cases present
  | cons head rest inductionHypothesis =>
      rcases total_cons counted with ⟨first, others, firstEq, othersEq, -⟩
      rcases List.mem_cons.mp present with rfl | present
      · exact ⟨first, firstEq⟩
      · exact inductionHypothesis othersEq present

end Shecc.TwoPass
