import Mathlib.Tactic.Zify
import Mathlib.Data.Nat.Bitwise
import Shecc.HashMaps.Core

/-!
# Probing

The buckets that a probe passes before it ends. A key stays reachable because every bucket
between the index of its hash and its own is occupied.
-/

namespace Shecc.HashMaps

open Libc (wrap intMax wrap_eq)

variable {K V : Type}

/-- The bucket holds a node. -/
def Occupied (table : List (Option (Node K V))) (index : Nat) : Prop :=
  ∃ node, table[index]? = some (some node)

/-- The bucket holds a key that is not the same. -/
def Passes (table : List (Option (Node K V))) (same : K → Bool) (index : Nat) : Prop :=
  ∃ node, table[index]? = some (some node) ∧ same node.key = false

/-- The bucket so many steps after another. -/
def nth (table : List (Option (Node K V))) (start steps : Nat) : Nat :=
  (start + steps) % table.length

/-- What it means for a probe to end at a slot. -/
def Slot.Ends (table : List (Option (Node K V))) (same : K → Bool) (start : Nat) : Slot → Prop
  | .free index => ∃ steps < table.length, index = nth table start steps ∧
      table[index]? = some none ∧ ∀ earlier < steps, Passes table same (nth table start earlier)
  | .found index => ∃ steps < table.length, index = nth table start steps ∧
      (∃ node, table[index]? = some (some node) ∧ same node.key = true) ∧
      ∀ earlier < steps, Passes table same (nth table start earlier)
  | .full => ∀ steps < table.length, Passes table same (nth table start steps)

section Probe

variable {table : List (Option (Node K V))} {same : K → Bool} {cap : Int} {k start : Nat}

/-- Masking with the capacity goes round the table. -/
theorem nth_succ (isPow : cap = 2 ^ k) (length : (table.length : Int) = cap) (steps : Nat) :
    (nth table start steps + 1) &&& (cap - 1).toNat = nth table start (steps + 1) := by
  have isLength : table.length = 2 ^ k := by
    zify
    rw [length, isPow]
  have isMask : (cap - 1).toNat = 2 ^ k - 1 := by
    rw [← length, isLength]
    omega
  rw [isMask, Nat.and_two_pow_sub_one_eq_mod, nth, nth, isLength, Nat.mod_add_mod, Nat.add_assoc]

/-- The probe comes back to where it started after all buckets. -/
theorem nth_eq_start {steps : Nat} (low : start < table.length) (high : steps < table.length) :
    nth table start (steps + 1) = start ↔ steps + 1 = table.length := by
  constructor
  · intro back
    by_contra notAll
    rw [nth] at back
    rcases Nat.lt_or_ge (start + (steps + 1)) table.length with small | large
    · rw [Nat.mod_eq_of_lt small] at back
      omega
    · rw [Nat.mod_eq_sub_mod large, Nat.mod_eq_of_lt (by omega)] at back
      omega
  · intro all
    rw [nth, all, Nat.add_mod_right, Nat.mod_eq_of_lt low]

/-- Going round meets every bucket. -/
theorem exists_nth {i : Nat} (low : start < table.length) (high : i < table.length) :
    ∃ steps < table.length, i = nth table start steps := by
  refine ⟨(i + table.length - start) % table.length, Nat.mod_lt _ (by omega), ?_⟩
  rw [nth, Nat.add_mod_mod, show start + (i + table.length - start) = i + table.length by omega,
    Nat.add_mod_right, Nat.mod_eq_of_lt high]

theorem probe_from (isPow : cap = 2 ^ k) (length : (table.length : Int) = cap)
    (inTable : start < table.length) {fuel steps : Nat} (rest : steps + fuel = table.length)
    (more : 0 < fuel)
    (passed : ∀ earlier < steps, Passes table same (nth table start earlier)) :
    ∃ slot, probe table cap same start fuel (nth table start steps) = some slot ∧
      slot.Ends table same start := by
  induction fuel generalizing steps with
  | zero => exact absurd more (Nat.lt_irrefl 0)
  | succ fuel inductionHypothesis =>
      have isBucket : nth table start steps < table.length := Nat.mod_lt _ (by omega)
      rw [probe]
      cases bucket : table[nth table start steps]? with
      | none =>
          rw [List.getElem?_eq_none_iff] at bucket
          omega
      | some content =>
          cases content with
          | none => exact ⟨_, rfl, steps, by omega, rfl, bucket, passed⟩
          | some node =>
              by_cases isSame : same node.key = true
              · exact ⟨.found (nth table start steps), by simp only [isSame, if_true],
                  steps, by omega, rfl, ⟨node, bucket, isSame⟩, passed⟩
              · rw [Bool.not_eq_true] at isSame
                have passed' : ∀ earlier < steps + 1,
                    Passes table same (nth table start earlier) := by
                  intro earlier before
                  rcases Nat.lt_succ_iff_lt_or_eq.mp before with isEarlier | rfl
                  · exact passed earlier isEarlier
                  · exact ⟨node, bucket, isSame⟩
                simp only [isSame, Bool.false_eq_true, if_false, nth_succ isPow length]
                split_ifs with isBack
                · rw [nth_eq_start inTable (by omega)] at isBack
                  exact ⟨.full, rfl, fun steps' before => passed' steps' (by omega)⟩
                · rw [nth_eq_start inTable (by omega)] at isBack
                  exact inductionHypothesis (by omega) (by omega) passed'

end Probe

/-- The index of a hash is in the table. -/
theorem hashmapHashIndex_lt {cap : Int} {k : Nat} (isPow : cap = 2 ^ k) (small : k ≤ 30)
    (signedChar : Bool) (key : Str) : (hashmapHashIndex signedChar cap key : Int) < cap := by
  have bound : 2 ^ k ≤ 2 ^ 30 := Nat.pow_le_pow_right (by decide) small
  have positive : 0 < 2 ^ k := Nat.two_pow_pos k
  have isMask : (BitVec.ofInt 32 (cap - 1)).toNat = 2 ^ k - 1 := by
    rw [BitVec.toNat_ofInt, isPow]
    have isCast : (2 : Int) ^ k - 1 = ((2 ^ k - 1 : Nat) : Int) := by
      push_cast [Nat.one_le_two_pow]
      rfl
    rw [isCast]
    omega
  have below : hashmapHashIndex signedChar cap key ≤ 2 ^ k - 1 := by
    rw [hashmapHashIndex]
    simp only [BitVec.toNat_and, isMask]
    exact Nat.and_le_right
  have isCap : cap = ((2 ^ k : Nat) : Int) := by
    rw [isPow]
    norm_cast
  omega

/-! ## Tables that keep their keys reachable -/

/-- What holds of every hash map. -/
structure Inv (signedChar : Bool) (chars : K → Str) (map : HashMap K V) : Prop where
  isPow : ∃ k ≤ 30, map.cap = 2 ^ k
  length : (map.table.length : Int) = map.cap
  size : map.size = map.table.countP Option.isSome
  placed : ∀ i (node : Node K V), map.table[i]? = some (some node) → ∃ steps < map.table.length,
    i = nth map.table (hashmapHashIndex signedChar map.cap (chars node.key)) steps ∧
    ∀ earlier < steps, Occupied map.table
      (nth map.table (hashmapHashIndex signedChar map.cap (chars node.key)) earlier)
  distinct : ∀ (i j : Nat) (node other : Node K V), map.table[i]? = some (some node) →
    map.table[j]? = some (some other) → chars node.key = chars other.key → i = j

namespace Inv

variable {signedChar : Bool} {chars : K → Str} {map : HashMap K V}

/-- A probe ends. -/
theorem probe_ends (inv : Inv signedChar chars map) (same : K → Bool) (key : Str) :
    ∃ slot, map.probe signedChar same key = some slot ∧
      slot.Ends map.table same (hashmapHashIndex signedChar map.cap key) := by
  obtain ⟨k, small, isPow⟩ := inv.isPow
  have length := inv.length
  have inTable := hashmapHashIndex_lt isPow small signedChar key
  rw [HashMap.probe]
  simp only [← length, Int.toNat_natCast]
  have start : hashmapHashIndex signedChar map.cap key =
      nth map.table (hashmapHashIndex signedChar map.cap key) 0 := by
    rw [nth, Nat.add_zero, Nat.mod_eq_of_lt (by omega)]
  have inTable : hashmapHashIndex signedChar map.cap key < map.table.length := by omega
  have ends := @probe_from _ _ _ same _ _ _ isPow length inTable _ 0 (Nat.zero_add _)
    (by omega) (fun earlier before => absurd before (Nat.not_lt_zero earlier))
  rw [← start] at ends
  rw [length]
  exact ends

theorem size_le (inv : Inv signedChar chars map) : map.size ≤ map.cap := by
  rw [inv.size, ← inv.length]
  exact_mod_cast List.countP_le_length

/-- A key that is stored is found. -/
theorem probe_found (inv : Inv signedChar chars map) {i : Nat} {node : Node K V} {key : Str}
    (bucket : map.table[i]? = some (some node)) (isKey : chars node.key = key) :
    map.probe signedChar (fun other => chars other = key) key = some (.found i) := by
  obtain ⟨slot, ended, ends⟩ := inv.probe_ends (fun other => chars other = key) key
  obtain ⟨steps, inTable, rfl, occupied⟩ := inv.placed i node bucket
  rw [isKey] at bucket occupied ⊢
  have notPassed : ¬Passes map.table (fun other => chars other = key)
      (nth map.table (hashmapHashIndex signedChar map.cap key) steps) := by
    rintro ⟨other, isOther, differs⟩
    rw [bucket, Option.some.injEq, Option.some.injEq] at isOther
    subst isOther
    simp [isKey] at differs
  cases slot with
  | free index =>
      obtain ⟨steps', -, rfl, isFree, passed⟩ := ends
      rcases Nat.lt_trichotomy steps steps' with before | rfl | after
      · exact absurd (passed steps before) notPassed
      · rw [bucket] at isFree
        exact absurd isFree (by simp)
      · obtain ⟨other, isOther⟩ := occupied steps' after
        rw [isOther] at isFree
        exact absurd isFree (by simp)
  | found index =>
      obtain ⟨-, -, -, ⟨other, isOther, isSame⟩, -⟩ := ends
      have isSame : chars node.key = chars other.key := by
        rw [isKey]
        exact (of_decide_eq_true isSame).symm
      rw [ended, inv.distinct _ _ node other bucket isOther isSame]
  | full => exact absurd (ends steps inTable) notPassed

/-- A key that is not stored is not found. -/
theorem probe_absent (inv : Inv signedChar chars map) {key : Str}
    (absent : ∀ node, some node ∈ map.table → chars node.key ≠ key) :
    map.probe signedChar (fun other => chars other = key) key = some .full ∨
      ∃ index, map.probe signedChar (fun other => chars other = key) key =
        some (.free index) := by
  obtain ⟨slot, ended, ends⟩ := inv.probe_ends (fun other => chars other = key) key
  cases slot with
  | free index => exact .inr ⟨index, ended⟩
  | found index =>
      obtain ⟨-, -, -, ⟨other, isOther, isSame⟩, -⟩ := ends
      exact absurd (of_decide_eq_true isSame) (absent other (List.mem_of_getElem? isOther))
  | full => exact .inl ended

/-- A table is full only if every bucket is occupied. -/
theorem not_full (inv : Inv signedChar chars map) {same : K → Bool} {key : Str}
    (full : map.probe signedChar same key = some .full) : map.size = map.cap := by
  obtain ⟨k, small, isPow⟩ := inv.isPow
  have inTable := hashmapHashIndex_lt isPow small signedChar key
  have length := inv.length
  obtain ⟨slot, ended, ends⟩ := inv.probe_ends same key
  obtain rfl := Option.some.inj (full.symm.trans ended)
  rw [inv.size, ← length, Int.natCast_inj, List.countP_eq_length]
  intro bucket member
  obtain ⟨i, isBucket, rfl⟩ := List.mem_iff_getElem.mp member
  obtain ⟨steps, inRange, isNth⟩ := exists_nth
    (show hashmapHashIndex signedChar map.cap key < map.table.length by omega) isBucket
  obtain ⟨node, isNode, -⟩ := ends steps inRange
  rw [← isNth, List.getElem?_eq_getElem isBucket, Option.some.injEq] at isNode
  rw [isNode]
  rfl

end Inv

end Shecc.HashMaps
