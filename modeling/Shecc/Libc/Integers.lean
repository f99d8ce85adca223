import Mathlib.Data.Int.Basic

/-!
# The integers of the runtime library

An `int` has 32 bits and wraps.
-/

namespace Shecc.Libc

/-- The value of an `int`. -/
def wrap (x : Int) : Int := (x + 2147483648) % 4294967296 - 2147483648

/-- `INT_MAX`. -/
def intMax : Int := 2147483647

/-- The bits of an `int` as a number. -/
def unsigned (x : Int) : Nat := (x % 4294967296).toNat

theorem wrap_le (x : Int) : wrap x ≤ intMax := by
  simp only [wrap, intMax]
  omega

theorem wrap_eq {x : Int} (small : -2147483648 ≤ x) (large : x ≤ intMax) : wrap x = x := by
  simp only [wrap, intMax] at large ⊢
  omega

theorem wrap_wrap_add (x y : Int) : wrap (wrap x + y) = wrap (x + y) := by
  simp only [wrap]
  omega

end Shecc.Libc
