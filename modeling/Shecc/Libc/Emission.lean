import Mathlib.Data.List.Induction
import Shecc.Libc.Digits

/-!
# What the conversions write

Every conversion writes a list of characters one after the other, as if by
`__fmtbuf_write_char`: the buffer takes those that fit before its terminator, and the
length counts them all.
-/

namespace Shecc.Libc

open Function (update update_self update_of_ne)

/-- The state after the characters. -/
def Fmtbuf.emit (fmtbuf : Fmtbuf) (out : List Char) : Fmtbuf :=
  out.foldl fmtbufWriteChar fmtbuf

section Emit

variable {fmtbuf : Fmtbuf} {out : List Char}

@[simp]
theorem Fmtbuf.emit_nil : fmtbuf.emit [] = fmtbuf := rfl

@[simp]
theorem Fmtbuf.emit_cons (ch : Char) :
    fmtbuf.emit (ch :: out) = (fmtbufWriteChar fmtbuf ch).emit out := rfl

theorem Fmtbuf.emit_append (front back : List Char) :
    fmtbuf.emit (front ++ back) = (fmtbuf.emit front).emit back :=
  List.foldl_append

/-- The length is the value of an `int`. -/
def Fmtbuf.IsInt (fmtbuf : Fmtbuf) : Prop := wrap fmtbuf.len = fmtbuf.len

theorem fmtbufWriteChar_isInt (fmtbuf : Fmtbuf) (ch : Char) :
    (fmtbufWriteChar fmtbuf ch).IsInt := by
  have twice : wrap (wrap (fmtbuf.len + 1)) = wrap (fmtbuf.len + 1) := by
    simpa using wrap_wrap_add (fmtbuf.len + 1) 0
  rw [fmtbufWriteChar]
  dsimp only
  split_ifs
  · exact twice
  · exact twice

theorem Fmtbuf.IsInt.emit (isInt : fmtbuf.IsInt) (out : List Char) : (fmtbuf.emit out).IsInt := by
  induction out generalizing fmtbuf with
  | nil => exact isInt
  | cons ch out inductionHypothesis => exact inductionHypothesis (fmtbufWriteChar_isInt fmtbuf ch)

theorem fmtbufWriteStr_nil (isInt : fmtbuf.IsInt) : fmtbufWriteStr fmtbuf [] 0 = fmtbuf := by
  rw [Fmtbuf.IsInt] at isInt
  rw [fmtbufWriteStr, Int.add_zero, isInt]
  dsimp only
  split_ifs with isFull hasRoom
  · rfl
  · simp [strncpy]
  · omega

/-- The first character of a string is written before the others. -/
theorem fmtbufWriteStr_cons {ch : Char} (notNul : ch ≠ '\x00') (l : Nat) :
    fmtbufWriteStr fmtbuf (ch :: out) (l + 1) =
      fmtbufWriteStr (fmtbufWriteChar fmtbuf ch) out l := by
  have isLength : wrap (fmtbuf.len + (l + 1)) = wrap (wrap (fmtbuf.len + 1) + l) := by
    rw [wrap_wrap_add]
    congr 1
    omega
  simp only [fmtbufWriteStr, fmtbufWriteChar]
  by_cases isFull : fmtbuf.n ≤ 1
  · simp only [if_pos isFull, isLength]
  · simp only [if_neg isFull, isLength]
    by_cases isLast : fmtbuf.n - 1 ≤ 1
    · have one : (if (l : Int) + 1 ≤ fmtbuf.n - 1 then (l : Int) + 1 else fmtbuf.n - 1) = 1 := by
        split_ifs <;> omega
      simp only [if_pos isLast, one, Int.toNat_one, strncpy]
    · have more : (if (l : Int) + 1 ≤ fmtbuf.n - 1 then (l : Int) + 1 else fmtbuf.n - 1) =
          (if (l : Int) ≤ fmtbuf.n - 1 - 1 then (l : Int) else fmtbuf.n - 1 - 1) + 1 := by
        split_ifs <;> omega
      have notNegative :
          0 ≤ (if (l : Int) ≤ fmtbuf.n - 1 - 1 then (l : Int) else fmtbuf.n - 1 - 1) := by
        split_ifs <;> omega
      simp only [if_neg isLast, more]
      generalize (if (l : Int) ≤ fmtbuf.n - 1 - 1 then (l : Int) else fmtbuf.n - 1 - 1) = rest at *
      obtain ⟨rest, rfl⟩ := Int.eq_ofNat_of_zero_le notNegative
      simp only [Int.toNat_natCast_add_one, Int.toNat_natCast, strncpy, if_neg notNul,
        Fmtbuf.mk.injEq, true_and, and_true]
      omega

/-- A string is written like its characters. -/
theorem fmtbufWriteStr_eq (isInt : fmtbuf.IsInt) (noNul : '\x00' ∉ out) :
    fmtbufWriteStr fmtbuf out out.length = fmtbuf.emit out := by
  induction out generalizing fmtbuf with
  | nil => exact fmtbufWriteStr_nil isInt
  | cons ch out inductionHypothesis =>
      rw [List.mem_cons, not_or] at noNul
      rw [Fmtbuf.emit_cons, ← inductionHypothesis (fmtbufWriteChar_isInt fmtbuf ch) noNul.2]
      exact fmtbufWriteStr_cons (Ne.symm noNul.1) out.length

theorem pad_eq (ch : Char) (width : Nat) :
    pad ch width fmtbuf = fmtbuf.emit (List.replicate width ch) := by
  induction width generalizing fmtbuf with
  | zero => rfl
  | succ width inductionHypothesis => exact inductionHypothesis

/-- The state after the characters, from an empty buffer on. -/
def Fmtbuf.wrote (n : Int) (out : List Char) : Fmtbuf where
  mem := fun i => (out.take (n - 1).toNat)[i]?
  buf := min (n - 1).toNat out.length
  n := n - min (n - 1).toNat out.length
  len := wrap out.length

theorem emit_start {n : Int} (notNegative : 0 ≤ n) (out : List Char) :
    Fmtbuf.emit ⟨fun _ => none, 0, n, 0⟩ out = Fmtbuf.wrote n out := by
  induction out using List.reverseRecOn with
  | nil => simp [Fmtbuf.wrote, wrap]
  | append_singleton out ch inductionHypothesis =>
      rw [Fmtbuf.emit_append, inductionHypothesis, Fmtbuf.emit_cons, Fmtbuf.emit_nil,
        fmtbufWriteChar, Fmtbuf.wrote, Fmtbuf.wrote]
      simp only [wrap_wrap_add, List.length_append, List.length_singleton, Int.natCast_add,
        Int.natCast_one]
      by_cases isFull : (n - 1).toNat ≤ out.length
      · rw [if_pos (by omega), min_eq_left isFull, min_eq_left (by omega),
          List.take_append_of_le_length isFull]
      · rw [if_neg (by omega), min_eq_right (by omega), min_eq_right (by omega),
          List.take_of_length_le (by omega), List.take_of_length_le (by simp; omega)]
        simp only [Fmtbuf.mk.injEq, true_and, and_true]
        constructor
        · funext i
          by_cases isNext : i = out.length
          · rw [isNext, update_self, List.getElem?_concat_length]
          · rw [update_of_ne isNext, List.getElem?_append]
            split_ifs with isBefore
            · rfl
            · rw [List.getElem?_eq_none (by omega), List.getElem?_eq_none (by simp; omega)]
        · omega

end Emit

end Shecc.Libc
