import Mathlib
import Shecc.Word.Core

/-!
# Byte memory

A total memory of bytes over 32-bit addresses that wrap around, little endian.
Words are loaded and one, two or four bytes are stored. Two ranges of addresses
are apart when no address lies in both; a store is invisible to every load that
is apart from it.
-/

namespace Shecc

/-- A byte for every address. -/
abbrev Memory := Word → BitVec 8

namespace Memory

/-- The word whose bytes start at `a`, least significant byte first. -/
def loadWord (m : Memory) (a : Word) : Word :=
  m (a + 3) ++ m (a + 2) ++ m (a + 1) ++ m a

/-- Store the `n` low bytes of `w` from `a` on. -/
def storeBytes (m : Memory) (a : Word) (n : Nat) (w : Word) : Memory :=
  fun x => if (x - a).toNat < n then w.extractLsb' (8 * (x - a).toNat) 8 else m x

/-- Store a whole word. -/
def storeWord (m : Memory) (a : Word) (w : Word) : Memory :=
  m.storeBytes a 4 w

/-- The `n` bytes from `a` on and the `k` bytes from `b` on do not overlap. -/
def Apart (a : Word) (n : Nat) (b : Word) (k : Nat) : Prop :=
  ∀ x : Word, (x - a).toNat < n → ¬(x - b).toNat < k

theorem Apart.symm {a b : Word} {n k : Nat} (apart : Apart a n b k) : Apart b k a n :=
  fun x inSecond inFirst => apart x inFirst inSecond

/-- An address at a small distance from the start of a range. -/
theorem offset_toNat (a : Word) {i : Nat} (small : i < 2 ^ 32) :
    (a + BitVec.ofNat 32 i - a).toNat = i := by
  have cancel : a + BitVec.ofNat 32 i - a = BitVec.ofNat 32 i := add_sub_cancel_left a _
  rw [cancel, BitVec.toNat_ofNat, Nat.mod_eq_of_lt small]

/-- A stored byte is read back. -/
theorem storeBytes_inside (m : Memory) (a : Word) {n i : Nat} (w : Word) (inside : i < n)
    (small : i < 2 ^ 32) :
    m.storeBytes a n w (a + BitVec.ofNat 32 i) = w.extractLsb' (8 * i) 8 := by
  rw [storeBytes, offset_toNat a small, if_pos inside]

/-- Loads see four bytes only. -/
theorem loadWord_congr {m m' : Memory} {a : Word}
    (bytes : ∀ x : Word, (x - a).toNat < 4 → m' x = m x) :
    m'.loadWord a = m.loadWord a := by
  have byte (i : Nat) (small : i < 4) :
      m' (a + BitVec.ofNat 32 i) = m (a + BitVec.ofNat 32 i) :=
    bytes _ (by rw [offset_toNat a (by omega)]; exact small)
  have zero := byte 0 (by omega)
  have one := byte 1 (by omega)
  have two := byte 2 (by omega)
  have three := byte 3 (by omega)
  simp only [BitVec.add_zero] at zero
  unfold loadWord
  rw [zero]
  exact congrArg₂ (fun x y => x ++ y)
    (congrArg₂ (fun x y => x ++ y) (congrArg₂ (fun x y => x ++ y) three two) one) rfl

/-- A word is the concatenation of its bytes. -/
theorem bytes_append (w : Word) :
    (w.extractLsb' 24 8 ++ w.extractLsb' 16 8 ++ w.extractLsb' 8 8 ++ w.extractLsb' 0 8 : Word) =
      w := by
  ext i inside
  simp only [BitVec.getElem_append, BitVec.getElem_extractLsb']
  split
  · simp [BitVec.getLsbD_eq_getElem inside]
  · split
    · rw [show 8 + (i - 8) = i by omega, BitVec.getLsbD_eq_getElem inside]
    · split
      · rw [show 16 + (i - 8 - 8) = i by omega, BitVec.getLsbD_eq_getElem inside]
      · rw [show 24 + (i - 8 - 8 - 8) = i by omega, BitVec.getLsbD_eq_getElem inside]

@[simp] theorem loadWord_storeWord_same (m : Memory) (a w : Word) :
    (m.storeWord a w).loadWord a = w := by
  have byte (i : Nat) (small : i < 4) :
      m.storeWord a w (a + BitVec.ofNat 32 i) = w.extractLsb' (8 * i) 8 :=
    storeBytes_inside m a w small (by omega)
  have zero := byte 0 (by omega)
  have one := byte 1 (by omega)
  have two := byte 2 (by omega)
  have three := byte 3 (by omega)
  simp only [BitVec.add_zero] at zero
  unfold loadWord
  rw [zero]
  refine Eq.trans ?_ (bytes_append w)
  exact congrArg₂ (fun x y => x ++ y)
    (congrArg₂ (fun x y => x ++ y) (congrArg₂ (fun x y => x ++ y) three two) one) rfl

/-- A store apart from a word leaves it alone. -/
theorem loadWord_storeBytes_apart {m : Memory} {a b : Word} {n : Nat} (w : Word)
    (apart : Apart b n a 4) : (m.storeBytes b n w).loadWord a = m.loadWord a := by
  apply loadWord_congr
  intro x inside
  rw [storeBytes, if_neg (apart.symm x inside)]

theorem loadWord_storeWord_apart {m : Memory} {a b : Word} (w : Word)
    (apart : Apart b 4 a 4) : (m.storeWord b w).loadWord a = m.loadWord a :=
  loadWord_storeBytes_apart w apart

/-- A second store to the same word hides the first. -/
theorem storeWord_storeWord_same (m : Memory) (a v w : Word) :
    (m.storeWord a v).storeWord a w = m.storeWord a w := by
  funext x
  unfold storeWord storeBytes
  split_ifs <;> rfl

/-- The bytes of a loaded word. -/
theorem extractLsb'_loadWord (m : Memory) (a : Word) {i : Nat} (small : i < 4) :
    (m.loadWord a).extractLsb' (8 * i) 8 = m (a + BitVec.ofNat 32 i) := by
  unfold loadWord
  interval_cases i <;> ext j inside <;>
    simp only [BitVec.getElem_extractLsb', BitVec.getLsbD_append]
  · rw [if_pos (by omega)]
    simp [BitVec.getLsbD_eq_getElem inside]
  · rw [if_neg (by omega), if_pos (by omega), show 8 * 1 + j - 8 = j by omega,
      BitVec.getLsbD_eq_getElem inside]
    rfl
  · rw [if_neg (by omega), if_neg (by omega), if_pos (by omega),
      show 8 * 2 + j - 8 - 8 = j by omega, BitVec.getLsbD_eq_getElem inside]
    rfl
  · rw [if_neg (by omega), if_neg (by omega), if_neg (by omega),
      show 8 * 3 + j - 8 - 8 - 8 = j by omega, BitVec.getLsbD_eq_getElem inside]
    rfl

/-- Storing back what was loaded changes nothing. -/
theorem storeWord_loadWord (m : Memory) (a : Word) : m.storeWord a (m.loadWord a) = m := by
  funext x
  unfold storeWord storeBytes
  split_ifs with inside
  · rw [extractLsb'_loadWord m a inside, BitVec.ofNat_toNat, BitVec.setWidth_eq,
      add_sub_cancel]
  · rfl

/-- After a store to one address a load from another one may still find anything
else than `w`. -/
theorem exists_loadWord_ne {a b : Word} (different : a ≠ b) (v w : Word) :
    ∃ m : Memory, (m.storeWord a v).loadWord b ≠ w := by
  -- One of the outer bytes of the second word lies outside the first.
  obtain ⟨i, small, outside⟩ : ∃ i, i < 4 ∧ ¬(b + BitVec.ofNat 32 i - a).toNat < 4 := by
    by_cases inside : (b - a).toNat < 4
    · refine ⟨3, by omega, ?_⟩
      have nonzero : (b - a).toNat ≠ 0 := by
        intro zero
        exact different (sub_eq_zero.mp (BitVec.eq_of_toNat_eq zero)).symm
      have shifted : (b + BitVec.ofNat 32 3 - a).toNat = (b - a).toNat + 3 := by
        rw [show b + BitVec.ofNat 32 3 - a = (b - a) + BitVec.ofNat 32 3 by ring,
          BitVec.toNat_add, BitVec.toNat_ofNat]
        omega
      omega
    · refine ⟨0, by omega, ?_⟩
      simpa using inside
  refine ⟨fun _ => w.extractLsb' (8 * i) 8 + 1, fun same => ?_⟩
  have byte := extractLsb'_loadWord (Memory.storeWord (fun _ => w.extractLsb' (8 * i) 8 + 1) a v) b
    small
  rw [same, storeWord, storeBytes, if_neg outside] at byte
  simp at byte

end Memory

end Shecc
