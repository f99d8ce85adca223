import Mathlib

/-!
# Linear indexing

A tuple of indices below the extents of a box leads to the cell that is the sum
of each index times its stride. The cells are the elements of the box when all
are below the product of the extents and no two tuples lead to the same. This is
decided here for two choices of strides: one for every index, and the second
extent for the first index.
-/

namespace Strided

/-- A tuple of indices below the extents. -/
abbrev InBox (indices extents : List Nat) : Prop := List.Forall₂ (· < ·) indices extents

/-- The sum of each index times its stride. -/
def cell : List Nat → List Nat → Nat
  | stride :: strides, index :: indices => stride * index + cell strides indices
  | _, _ => 0

/-- The cells of a box are its elements. -/
structure Enumerates (strides extents : List Nat) : Prop where
  inside : ∀ {indices}, InBox indices extents → cell strides indices < extents.prod
  injective : ∀ {indices others}, InBox indices extents → InBox others extents →
    cell strides indices = cell strides others → indices = others

/-- Two tuples of zeros and ones lead to the same cell. -/
def Collides (strides extents : List Nat) : Prop :=
  ∃ indices others, InBox indices extents ∧ InBox others extents ∧ (∀ i ∈ indices, i < 2) ∧
    (∀ i ∈ others, i < 2) ∧ indices ≠ others ∧ cell strides indices = cell strides others

/-- Every stride is one. -/
def units (extents : List Nat) : List Nat := extents.map fun _ => 1

/-- The second extent is the stride of the first index, every other stride is one. -/
def rows : List Nat → List Nat
  | first :: second :: rest => second :: units (first :: rest)
  | extents => units extents

/-- At most one extent is not one. -/
def Slender (extents : List Nat) : Prop := (extents.filter (· ≠ 1)).length ≤ 1

instance (extents : List Nat) : Decidable (Slender extents) :=
  inferInstanceAs (Decidable (_ ≤ _))

variable {extents rest : List Nat}

theorem units_cons (extent : Nat) (rest : List Nat) : units (extent :: rest) = 1 :: units rest :=
    rfl

@[simp]
theorem slender_one_cons : Slender (1 :: rest) ↔ Slender rest := by
  simp [Slender]

theorem slender_cons {extent : Nat} (wide : extent ≠ 1) :
    Slender (extent :: rest) ↔ ∀ e ∈ rest, e = 1 := by
  simp [Slender, wide]

theorem inBox_cons {extent : Nat} {indices : List Nat} :
    InBox indices (extent :: rest) ↔
      ∃ index behind, index < extent ∧ InBox behind rest ∧ indices = index :: behind :=
  List.forall₂_cons_right_iff

theorem positive_cons {extent : Nat} : 0 ∉ extent :: rest ↔ 0 < extent ∧ 0 ∉ rest := by
  simp [Nat.pos_iff_ne_zero, eq_comm]

/-- With unit strides the cell is the sum of the indices. -/
theorem cell_units {indices : List Nat} (inBox : InBox indices extents) :
    cell (units extents) indices = indices.sum := by
  induction inBox with
  | nil => rfl
  | cons _ _ inductionHypothesis => simp [units_cons, cell, inductionHypothesis]

theorem units_eq_of_length {others : List Nat} (length : extents.length = others.length) :
    units extents = units others := by
  simp [units, length]

/-- The first index counts by the second extent, where there is one. -/
theorem cell_rows {first i : Nat} {indices : List Nat} (inBox : InBox indices rest) :
    cell (rows (first :: rest)) (i :: indices) = rest.headD 1 * i + indices.sum := by
  cases rest with
  | nil =>
      cases inBox
      rfl
  | cons second rest =>
      have sameUnits : units (first :: rest) = units (second :: rest) :=
        units_eq_of_length (by simp)
      rw [rows, cell, sameUnits, cell_units inBox]
      rfl

theorem positive_of_inBox {indices : List Nat} (inBox : InBox indices extents) : 0 ∉ extents := by
  induction inBox with
  | nil => simp
  | cons below _ inductionHypothesis =>
      exact positive_cons.mpr ⟨Nat.zero_lt_of_lt below, inductionHypothesis⟩

/-- The tuple of zeros. -/
def zeros (extents : List Nat) : List Nat := List.replicate extents.length 0

@[simp]
theorem zeros_cons (extent : Nat) (rest : List Nat) : zeros (extent :: rest) = 0 :: zeros rest :=
    rfl

/-- The tuple of zeros is in every box that is not empty. -/
theorem inBox_zeros (positive : 0 ∉ extents) : InBox (zeros extents) extents := by
  induction extents with
  | nil => exact .nil
  | cons extent rest inductionHypothesis =>
      rcases positive_cons.mp positive with ⟨nonzero, positive⟩
      exact .cons nonzero (inductionHypothesis positive)

@[simp]
theorem cell_zeros (strides extents : List Nat) : cell strides (zeros extents) = 0 := by
  induction extents generalizing strides with
  | nil => cases strides <;> rfl
  | cons extent rest inductionHypothesis =>
      cases strides with
      | nil => rfl
      | cons stride strides => simp [cell, inductionHypothesis]

theorem zeros_lt_two (extents : List Nat) : ∀ i ∈ zeros extents, i < 2 := by
  simp [zeros]

/-- Where every extent is one, there is one tuple. -/
theorem eq_zeros_of_ones {indices : List Nat} (ones : ∀ e ∈ extents, e = 1)
    (inBox : InBox indices extents) : indices = zeros extents := by
  induction inBox with
  | nil => rfl
  | @cons index extent _ _ below _ inductionHypothesis =>
      rw [ones extent List.mem_cons_self] at below
      simp [Nat.lt_one_iff.mp below, inductionHypothesis fun e present =>
        ones e (List.mem_cons_of_mem _ present)]

theorem prod_of_ones (ones : ∀ e ∈ extents, e = 1) : extents.prod = 1 := List.prod_eq_one ones

/-- A tuple with a single one, where some extent is not one. -/
theorem exists_unit (positive : 0 ∉ extents) (wide : ∃ e ∈ extents, e ≠ 1) :
    ∃ indices, InBox indices extents ∧ (∀ i ∈ indices, i < 2) ∧
      cell (units extents) indices = 1 := by
  induction extents with
  | nil => simp at wide
  | cons extent rest inductionHypothesis =>
      rcases positive_cons.mp positive with ⟨nonzero, positive⟩
      by_cases one : extent = 1
      · have wide : ∃ e ∈ rest, e ≠ 1 := by simpa [one] using wide
        rcases inductionHypothesis positive wide with ⟨indices, inBox, small, single⟩
        refine ⟨0 :: indices, .cons (by simp [one]) inBox, by simpa using small, ?_⟩
        simp [units_cons, cell, single]
      · refine ⟨1 :: zeros rest, .cons (by omega) (inBox_zeros positive), ?_, ?_⟩
        · simpa using zeros_lt_two rest
        · simp [units_cons, cell]

/-- With unit strides, the cells of a slender box are its elements. -/
theorem enumerates_units (slender : Slender extents) : Enumerates (units extents) extents := by
  induction extents with
  | nil =>
      constructor
      · rintro _ ⟨⟩
        simp [cell]
      · rintro _ _ ⟨⟩ ⟨⟩ _
        rfl
  | cons extent rest inductionHypothesis =>
      by_cases one : extent = 1
      · subst one
        have enumerates := inductionHypothesis (slender_one_cons.mp slender)
        constructor
        · intro indices inBox
          rcases inBox_cons.mp inBox with ⟨index, behind, below, inRest, rfl⟩
          cases Nat.lt_one_iff.mp below
          simpa [units_cons, cell] using enumerates.inside inRest
        · intro indices others inBox inBox' same
          rcases inBox_cons.mp inBox with ⟨index, behind, below, inRest, rfl⟩
          rcases inBox_cons.mp inBox' with ⟨index', behind', below', inRest', rfl⟩
          cases Nat.lt_one_iff.mp below
          cases Nat.lt_one_iff.mp below'
          rw [enumerates.injective inRest inRest' (by simpa [units_cons, cell] using same)]
      · have ones := (slender_cons one).mp slender
        constructor
        · intro indices inBox
          rcases inBox_cons.mp inBox with ⟨index, behind, below, inRest, rfl⟩
          rw [eq_zeros_of_ones ones inRest]
          simpa [units_cons, cell, prod_of_ones ones] using below
        · intro indices others inBox inBox' same
          rcases inBox_cons.mp inBox with ⟨index, behind, below, inRest, rfl⟩
          rcases inBox_cons.mp inBox' with ⟨index', behind', below', inRest', rfl⟩
          rw [eq_zeros_of_ones ones inRest, eq_zeros_of_ones ones inRest'] at same ⊢
          simpa [units_cons, cell] using same

/-- With unit strides, two tuples collide in any other box that is not empty. -/
theorem collides_units (positive : 0 ∉ extents) (wide : ¬Slender extents) :
    Collides (units extents) extents := by
  induction extents with
  | nil => exact absurd (by simp [Slender]) wide
  | cons extent rest inductionHypothesis =>
      rcases positive_cons.mp positive with ⟨nonzero, positiveRest⟩
      by_cases one : extent = 1
      · subst one
        rcases inductionHypothesis positiveRest
          (fun slender => wide (slender_one_cons.mpr slender)) with
          ⟨indices, others, inBox, inBox', small, small', different, same⟩
        refine ⟨0 :: indices, 0 :: others, .cons (by decide) inBox, .cons (by decide) inBox',
          by simpa using small, by simpa using small', by simpa using different, ?_⟩
        simpa [units_cons, cell] using same
      · rw [slender_cons one] at wide
        rcases exists_unit positiveRest (by simpa using wide) with ⟨indices, inBox, small, single⟩
        refine ⟨0 :: indices, 1 :: zeros rest, .cons (by omega) inBox,
          .cons (by omega) (inBox_zeros positiveRest), by simpa using small, ?_, by simp, ?_⟩
        · simpa using zeros_lt_two rest
        · simp [units_cons, cell, single]

/-- A box whose extents behind the second are one, or one of whose extents is not. -/
def RowsFit (extents : List Nat) : Prop := (∀ e ∈ extents.drop 2, e = 1) ∨ Slender extents

instance (extents : List Nat) : Decidable (RowsFit extents) :=
  inferInstanceAs (Decidable (_ ∨ _))

/-- A slender box that has a wide extent behind the second begins with ones. -/
theorem ones_of_slender {first second : Nat} (slender : Slender (first :: second :: rest))
    (wide : ¬∀ e ∈ rest, e = 1) : first = 1 ∧ second = 1 ∧ Slender rest := by
  have firstOne : first = 1 := by
    by_contra other
    exact wide fun e present =>
      (slender_cons other).mp slender e (List.mem_cons_of_mem _ present)
  subst firstOne
  have secondOne : second = 1 := by
    by_contra other
    exact wide ((slender_cons other).mp (slender_one_cons.mp slender))
  subst secondOne
  exact ⟨rfl, rfl, slender_one_cons.mp (slender_one_cons.mp slender)⟩

/-- Two indices below their extents are told apart by the first times the second extent. -/
theorem row_injective {second i j i' j' : Nat} (below : j < second) (below' : j' < second)
    (same : second * i + j = second * i' + j') : i = i' ∧ j = j' := by
  have quotient := congrArg (· / second) same
  have remainder := congrArg (· % second) same
  simp only [Nat.mul_add_div (Nat.zero_lt_of_lt below), Nat.div_eq_of_lt below,
    Nat.div_eq_of_lt below', Nat.add_zero] at quotient
  simp only [Nat.mul_add_mod, Nat.mod_eq_of_lt below, Nat.mod_eq_of_lt below'] at remainder
  exact ⟨quotient, remainder⟩

theorem enumerates_rows (fits : RowsFit extents) : Enumerates (rows extents) extents := by
  match extents with
  | [] => exact enumerates_units (by simp [Slender])
  | [extent] =>
      refine enumerates_units (?_ : Slender [extent])
      by_cases one : extent = 1 <;> simp [Slender, one]
  | first :: second :: rest =>
      by_cases ones : ∀ e ∈ rest, e = 1
      · constructor
        · intro indices inBox
          rcases inBox_cons.mp inBox with ⟨i, behind, belowFirst, inRest, rfl⟩
          rcases inBox_cons.mp inRest with ⟨j, behind, belowSecond, inLast, rfl⟩
          rw [eq_zeros_of_ones ones inLast]
          have row : second * (i + 1) ≤ second * first := Nat.mul_le_mul_left _ belowFirst
          have inRow : second * i + j < second * first :=
            Nat.lt_of_lt_of_le (Nat.add_lt_add_left belowSecond _) row
          simpa [rows, units, cell, prod_of_ones ones, Nat.mul_comm first] using inRow
        · intro indices others inBox inBox' same
          rcases inBox_cons.mp inBox with ⟨i, behind, -, inRest, rfl⟩
          rcases inBox_cons.mp inRest with ⟨j, behind, belowSecond, inLast, rfl⟩
          rcases inBox_cons.mp inBox' with ⟨i', behind', -, inRest', rfl⟩
          rcases inBox_cons.mp inRest' with ⟨j', behind', belowSecond', inLast', rfl⟩
          rw [eq_zeros_of_ones ones inLast, eq_zeros_of_ones ones inLast'] at same ⊢
          have same := row_injective belowSecond belowSecond'
            (by simpa [rows, units, cell] using same)
          rw [same.1, same.2]
      · have slender := fits.resolve_left (by simpa using ones)
        rcases ones_of_slender slender ones with ⟨rfl, rfl, -⟩
        exact enumerates_units slender

theorem collides_rows (positive : 0 ∉ extents) (wide : ¬RowsFit extents) :
    Collides (rows extents) extents := by
  match extents with
  | [] => exact absurd (Or.inl (by simp)) wide
  | [_] => exact absurd (Or.inl (by simp)) wide
  | first :: second :: rest =>
      rcases positive_cons.mp positive with ⟨firstPositive, positiveRest⟩
      rcases positive_cons.mp positiveRest with ⟨secondPositive, positiveRest⟩
      rcases not_or.mp wide with ⟨wideRest, notSlender⟩
      have wideRest : ∃ e ∈ rest, e ≠ 1 := by simpa using wideRest
      rcases exists_unit positiveRest wideRest with ⟨indices, inBox, small, single⟩
      by_cases secondOne : second = 1
      · subst secondOne
        exact collides_units positive notSlender
      · refine ⟨0 :: 0 :: indices, 0 :: 1 :: zeros rest,
          .cons (by omega) (.cons (by omega) inBox),
          .cons (by omega) (.cons (by omega) (inBox_zeros positiveRest)), by simpa using small, ?_,
          by simp, ?_⟩
        · simpa using zeros_lt_two rest
        · simp only [rows, units_cons, cell, single, cell_zeros]

end Strided
