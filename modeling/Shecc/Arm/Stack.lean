import Shecc.Arm.Machine

/-!
# Saving registers on the stack

A block of registers is stored below the stack pointer and loaded again. Whatever
happened to the registers in between, they hold what they held before, as long as the
stack pointer and the block have been left alone.
-/

namespace Shecc.Arm

/-- Stores behind a word leave it alone. -/
theorem loadWord_storeAll_behind {m : Memory} {a : Word} {words : List Word} {skipped : Nat}
    (positive : 0 < skipped) (fits : 4 * (skipped + words.length) ≤ 2 ^ 32) :
    (storeAll m (a + BitVec.ofNat 32 (4 * skipped)) words).loadWord a = m.loadWord a := by
  induction words generalizing m skipped with
  | nil => rfl
  | cons w rest inductionHypothesis =>
      rw [List.length_cons] at fits
      have next : a + BitVec.ofNat 32 (4 * skipped) + 4#32 =
          a + BitVec.ofNat 32 (4 * (skipped + 1)) := by
        rw [BitVec.add_assoc, BitVec.ofNat_add_ofNat]
        rfl
      have apart : Memory.Apart (a + BitVec.ofNat 32 (4 * skipped)) 4 a 4 := by
        intro x inside insideToo
        have distance : (x - (a + BitVec.ofNat 32 (4 * skipped))).toNat =
            (2 ^ 32 - 4 * skipped + (x - a).toNat) % 2 ^ 32 := by
          have small : 4 * skipped % 2 ^ 32 = 4 * skipped := Nat.mod_eq_of_lt (by omega)
          rw [show x - (a + BitVec.ofNat 32 (4 * skipped)) =
            (x - a) - BitVec.ofNat 32 (4 * skipped) by ring, BitVec.toNat_sub, BitVec.toNat_ofNat,
            small]
        omega
      rw [storeAll, next, inductionHypothesis (by omega) (by omega),
        Memory.loadWord_storeWord_apart w apart]

/-- Every stored word is found again. -/
theorem loadWord_storeAll {m : Memory} {a : Word} {words : List Word} {k : Nat} {w : Word}
    (fits : 4 * words.length ≤ 2 ^ 32) (here : words[k]? = some w) :
    (storeAll m a words).loadWord (a + BitVec.ofNat 32 (4 * k)) = w := by
  induction words generalizing m a k with
  | nil => cases here
  | cons first rest inductionHypothesis =>
      rw [List.length_cons] at fits
      cases k with
      | zero =>
          cases here
          have behind := @loadWord_storeAll_behind (m.storeWord a w) a rest 1 (by decide)
            (by omega)
          rw [Nat.mul_zero, BitVec.add_zero, storeAll]
          exact behind.trans (Memory.loadWord_storeWord_same m a w)
      | succ k =>
          have moved : a + BitVec.ofNat 32 (4 * (k + 1)) =
              a + 4#32 + BitVec.ofNat 32 (4 * k) := by
            rw [BitVec.add_assoc, BitVec.ofNat_add_ofNat]
            congr 2
            omega
          rw [storeAll, moved]
          exact inductionHypothesis (by omega) here

namespace State

theorem loadAll_other {s : State} {a : Word} {list : List Int} {r : Int} (other : r ∉ list) :
    (s.loadAll a list).reg r = s.reg r := by
  induction list generalizing s a with
  | nil => rfl
  | cons first rest inductionHypothesis =>
      rw [List.mem_cons, not_or] at other
      rw [loadAll, inductionHypothesis other.2, setReg_reg_other other.1]

/-- Every register is loaded from its place in the block. -/
theorem loadAll_member {s : State} {a : Word} {list : List Int} {k : Nat} {r : Int}
    (distinct : list.Nodup) (here : list[k]? = some r) :
    (s.loadAll a list).reg r = s.memory.loadWord (a + BitVec.ofNat 32 (4 * k)) := by
  induction list generalizing s a k with
  | nil => cases here
  | cons first rest inductionHypothesis =>
      rw [List.nodup_cons] at distinct
      cases k with
      | zero =>
          cases here
          rw [loadAll, loadAll_other distinct.1, setReg_reg_same, Nat.mul_zero, BitVec.add_zero]
      | succ k =>
          have moved : a + BitVec.ofNat 32 (4 * (k + 1)) =
              a + 4#32 + BitVec.ofNat 32 (4 * k) := by
            rw [BitVec.add_assoc, BitVec.ofNat_add_ofNat]
            congr 2
            omega
          rw [loadAll, inductionHypothesis distinct.2 here, moved]
          rfl

end State

theorem registers_nodup (regList : Int) : (registers regList).Nodup :=
  (List.nodup_range.filter _).map Int.ofNat_injective

theorem registers_length_le (regList : Int) : (registers regList).length ≤ 16 := by
  rw [registers, List.length_map]
  exact (List.length_filter_le _ _).trans (by rw [List.length_range])

/-- The stack pointer behind the saved registers. -/
def pushed (s : State) (regList : Int) : Word :=
  s.reg sp - BitVec.ofNat 32 (4 * (registers regList).length)

/-- A state whose stack holds the registers another one had. -/
structure Saved (regList : Int) (s s' : State) : Prop where
  pointer : s'.reg sp = pushed s regList
  memory : s'.memory = storeAll s.memory (pushed s regList) ((registers regList).map s.reg)

theorem saved_stmdb (s : State) (regList : Int) :
    ∃ s', (Operation.stmdb sp regList).effect s = some s' ∧ Saved regList s s' ∧
      ∀ r, r ≠ sp → s'.reg r = s.reg r := by
  refine ⟨_, rfl, ⟨?_, rfl⟩, ?_⟩
  · change (s.setReg sp (pushed s regList)).reg sp = _
    exact State.setReg_reg_same ..
  · intro r other
    exact State.setReg_reg_other other

/-- Loading the block gives the registers and the stack pointer back. -/
theorem Saved.restored {regList : Int} {s s' : State} (saved : Saved regList s s')
    (notSp : sp ∉ registers regList) :
    ∃ s'', (Operation.ldm sp regList).effect s' = some s'' ∧
      (∀ r, r = sp ∨ r ∈ registers regList → s''.reg r = s.reg r) ∧
        ∀ r, r ≠ sp → r ∉ registers regList → s''.reg r = s'.reg r := by
  have short := registers_length_le regList
  refine ⟨_, rfl, ?_, ?_⟩
  · rintro r (rfl | member)
    · rw [State.loadAll_other notSp, State.setReg_reg_same, saved.pointer, pushed]
      ring
    · rcases List.getElem?_of_mem member with ⟨k, here⟩
      rw [State.loadAll_member (registers_nodup regList) here, State.setReg_memory, saved.memory,
        saved.pointer]
      apply loadWord_storeAll
      · rw [List.length_map]
        omega
      · rw [List.getElem?_map, here]
        rfl
  · intro r other outside
    rw [State.loadAll_other outside, State.setReg_reg_other other]

end Shecc.Arm
