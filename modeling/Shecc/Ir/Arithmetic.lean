import Shecc.Ir.Core
import Shecc.Word.Division

/-!
# What the operators mean

The arithmetic of the source language on 32-bit words: division truncates
toward zero, the remainder takes the sign of the dividend, comparisons are
signed and produce zero or one. Operand pairs on which the language leaves an
operator undefined have no value here. Addition, subtraction, multiplication and
left shift wrap, as the generated code does.
-/

namespace Shecc

namespace Word

/-- A truth value as a word. -/
def ofBool (b : Bool) : Word := if b then 1 else 0

/-- Whether a word counts as true in a condition. -/
def truth (w : Word) : Bool := w != 0

/-- The least signed word. -/
def intMin : Word := BitVec.intMin 32

/-- Signed division or remainder is defined: the divisor is non-zero and the
quotient fits. -/
def Divides (l r : Word) : Prop := r ≠ 0 ∧ ¬(l = intMin ∧ r = -1)

instance (l r : Word) : Decidable (Divides l r) :=
  inferInstanceAs (Decidable (r ≠ 0 ∧ ¬(l = intMin ∧ r = -1)))

/-- A positive power of two is a legal divisor of every word. -/
theorem divides_pow2 (x : Word) {n : Nat} (small : n < 31) : Divides x (pow2 n) :=
  ⟨pow2_ne_zero small, fun overflow => pow2_ne_neg_one small overflow.2⟩

end Word

namespace Opcode

/-- The value of a binary operator, where the language defines one. -/
def binary : Opcode → Word → Word → Option Word
  | add, l, r => some (l + r)
  | sub, l, r => some (l - r)
  | mul, l, r => some (l * r)
  | div, l, r => if Word.Divides l r then some (l.sdiv r) else none
  | mod, l, r => if Word.Divides l r then some (l.srem r) else none
  | lshift, l, r => if r.toNat < 32 then some (l <<< r.toNat) else none
  | rshift, l, r => if r.toNat < 32 then some (l.sshiftRight r.toNat) else none
  | bitAnd, l, r => some (l &&& r)
  | bitOr, l, r => some (l ||| r)
  | bitXor, l, r => some (l ^^^ r)
  | logAnd, l, r => some (Word.ofBool (l.truth && r.truth))
  | logOr, l, r => some (Word.ofBool (l.truth || r.truth))
  | eq, l, r => some (Word.ofBool (l == r))
  | neq, l, r => some (Word.ofBool (l != r))
  | lt, l, r => some (Word.ofBool (l.slt r))
  | leq, l, r => some (Word.ofBool (l.sle r))
  | gt, l, r => some (Word.ofBool (r.slt l))
  | geq, l, r => some (Word.ofBool (r.sle l))
  | _, _, _ => none

/-- The value of a unary operator. -/
def unary : Opcode → Word → Option Word
  | negate, x => some (-x)
  | bitNot, x => some (~~~x)
  | logNot, x => some (Word.ofBool (!x.truth))
  | _, _ => none

/-- The operators `binary` gives a meaning to. -/
def isBinary : Opcode → Bool
  | add | sub | mul | div | mod | lshift | rshift | bitAnd | bitOr | bitXor
  | logAnd | logOr | eq | neq | lt | leq | gt | geq => true
  | _ => false

/-- The operators `unary` gives a meaning to. -/
def isUnary : Opcode → Bool
  | negate | bitNot | logNot => true
  | _ => false

theorem isBinary_of_binary_eq_some {op : Opcode} {l r w : Word}
    (value : op.binary l r = some w) : op.isBinary = true := by
  cases op <;> first | rfl | cases value

theorem isUnary_of_unary_eq_some {op : Opcode} {x w : Word}
    (value : op.unary x = some w) : op.isUnary = true := by
  cases op <;> first | rfl | cases value

/-- A division that has a value has the truncated one. -/
theorem truncated_of_binary {op : Opcode} {l r w : Word} (isDivision : op = div ∨ op = mod)
    (value : op.binary l r = some w) : r ≠ 0#32 ∧ w = Word.truncated (op == mod) l r := by
  rcases isDivision with rfl | rfl
  · rw [binary, Option.ite_none_right_eq_some] at value
    rcases value with ⟨divides, isQuotient⟩
    exact ⟨divides.1, (Option.some.inj isQuotient).symm.trans (Word.truncated_div l r).symm⟩
  · rw [binary, Option.ite_none_right_eq_some] at value
    rcases value with ⟨divides, isRemainder⟩
    exact ⟨divides.1, (Option.some.inj isRemainder).symm.trans (Word.truncated_mod l r).symm⟩

/-- No operator is both binary and unary. -/
theorem isUnary_of_isBinary {op : Opcode} (binary : op.isBinary = true) :
    op.isUnary = false := by
  cases op <;> first | rfl | cases binary

end Opcode

end Shecc
