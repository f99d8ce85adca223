import Shecc.Ir.Arithmetic
import Shecc.Preprocessor.Token
import Mathlib.Tactic.Ring

/-!
# Conditional expressions in C

The expressions of `#if` and `#elif`, the tokens that spell them and the values C
gives them. The grammar is C's: a tree is grammatical when its operands bind tighter
than its operators, and on the right of an operator strictly tighter.
-/

namespace Shecc.Preprocessor

/-! ## Literals -/

/-- The value of a digit. -/
def digitOf (c : Char) : Nat :=
  if c.isDigit then c.toNat - 48 else (c.toNat ||| 32) - 87

/-- The number some digits denote. -/
def numberOf (radix : Nat) (digits : List Char) : Nat :=
  digits.foldl (fun value c => value * radix + digitOf c) 0

/-- The number an integer literal denotes. -/
inductive Denotes : List Char → Nat → Prop
  | decimal {first : Char} {rest : List Char} : first ≠ '0' →
      (∀ c ∈ first :: rest, c.isDigit = true) →
      Denotes (first :: rest) (numberOf 10 (first :: rest))
  | octal {rest : List Char} : (∀ c ∈ rest, c.isDigit = true ∧ c ≠ '8' ∧ c ≠ '9') →
      Denotes ('0' :: rest) (numberOf 8 rest)
  | hexadecimal {mark : Char} {rest : List Char} : mark = 'x' ∨ mark = 'X' → rest ≠ [] →
      (∀ c ∈ rest, c.isDigit = true ∨ 97 ≤ c.toNat ||| 32 ∧ c.toNat ||| 32 ≤ 102) →
      Denotes ('0' :: mark :: rest) (numberOf 16 rest)
  | binary {mark : Char} {rest : List Char} : mark = 'b' ∨ mark = 'B' → rest ≠ [] →
      (∀ c ∈ rest, c = '0' ∨ c = '1') → Denotes ('0' :: mark :: rest) (numberOf 2 rest)

/-! ## Syntax -/

/-- The unary operators. -/
inductive Unary
  | plus | minus | logNot | bitNot
  deriving DecidableEq

/-- The binary operators. -/
inductive Binary
  | mul | div | add | sub | lshift | rshift | lt | leq | gt | geq | eq | neq
  | bitAnd | bitXor | bitOr | logAnd | logOr
  deriving DecidableEq

/-- An expression of a condition. -/
inductive Expr
  | number (text : String) (value : Nat) (denotes : Denotes text.toList value)
  | defined (name : String)
  | identifier (name : String) (notKeyword : name ≠ "defined")
  | paren (e : Expr)
  | unary (op : Unary) (e : Expr)
  | binary (op : Binary) (l r : Expr)

/-- The token of a unary operator. -/
def Unary.kind : Unary → TokenKind
  | plus => .plus
  | minus => .minus
  | logNot => .logNot
  | bitNot => .bitNot

/-- The token of a binary operator. -/
def Binary.kind : Binary → TokenKind
  | mul => .asterisk
  | div => .divide
  | add => .plus
  | sub => .minus
  | lshift => .lshift
  | rshift => .rshift
  | lt => .lt
  | leq => .le
  | gt => .gt
  | geq => .ge
  | eq => .eq
  | neq => .noteq
  | bitAnd => .ampersand
  | bitXor => .bitXor
  | bitOr => .bitOr
  | logAnd => .logAnd
  | logOr => .logOr

/-- How tight a binary operator binds. -/
def Binary.level : Binary → Nat
  | mul | div => 13
  | add | sub => 12
  | lshift | rshift => 11
  | lt | leq | gt | geq => 10
  | eq | neq => 9
  | bitAnd => 8
  | bitXor => 7
  | bitOr => 6
  | logAnd => 5
  | logOr => 4

/-- How tight an expression is bound. -/
def Expr.level : Expr → Nat
  | unary _ _ => 14
  | binary op _ _ => op.level
  | _ => 15

/-- The operands bind as the grammar demands; binary operators associate to the left. -/
def Expr.Grammatical : Expr → Prop
  | paren e => e.Grammatical
  | unary _ e => 14 ≤ e.level ∧ e.Grammatical
  | binary op l r => op.level ≤ l.level ∧ op.level < r.level ∧ l.Grammatical ∧ r.Grammatical
  | _ => True

/-- The tokens, apart from white space, spell the expression. -/
def Expr.Spells : Expr → List (Nat × Token) → Prop
  | number text _ _, cells => ∃ cell, cells = [cell] ∧ cell.2.kind = .numeric ∧
      cell.2.literal = text
  | defined name, cells => ∃ keyword opening operand closing,
      cells = [keyword, opening, operand, closing] ∧
        (keyword.2.kind = .identifier ∧ keyword.2.literal = "defined") ∧
          opening.2.kind = .openBracket ∧
            (operand.2.kind = .identifier ∧ operand.2.literal = name) ∧
              closing.2.kind = .closeBracket
  | identifier name _, cells => ∃ cell, cells = [cell] ∧ cell.2.kind = .identifier ∧
      cell.2.literal = name
  | paren e, cells => ∃ opening body closing, cells = opening :: (body ++ [closing]) ∧
      opening.2.kind = .openBracket ∧ closing.2.kind = .closeBracket ∧ e.Spells body
  | unary op e, cells => ∃ first rest, cells = first :: rest ∧ first.2.kind = op.kind ∧
      e.Spells rest
  | binary op l r, cells => ∃ left cell right, cells = left ++ cell :: right ∧
      cell.2.kind = op.kind ∧ l.Spells left ∧ r.Spells right

/-- The identifiers that are not operands of `defined`. -/
def Expr.names : Expr → List String
  | identifier name _ => [name]
  | paren e | unary _ e => e.names
  | binary _ l r => l.names ++ r.names
  | _ => []

/-! ## Values -/

/-- A value of `intmax_t`. -/
def intmax (v : Int) : Option Int := if -2 ^ 63 ≤ v ∧ v < 2 ^ 63 then some v else none

/-- The value of a truth value. -/
def ofTruth (b : Bool) : Int := if b then 1 else 0

/-- The value of a unary operator. -/
def Unary.value : Unary → Int → Option Int
  | plus, v => some v
  | minus, v => intmax (-v)
  | logNot, v => some (ofTruth (v = 0))
  | bitNot, v => some (-v - 1)

/-- An operator on the bits of two values. -/
def bitwise (op : BitVec 64 → BitVec 64 → BitVec 64) (l r : Int) : Int :=
  (op (BitVec.ofInt 64 l) (BitVec.ofInt 64 r)).toInt

/-- The value of a binary operator, where C defines one. -/
def Binary.value : Binary → Int → Int → Option Int
  | mul, l, r => intmax (l * r)
  | div, l, r => if r = 0 then none else intmax (l.tdiv r)
  | add, l, r => intmax (l + r)
  | sub, l, r => intmax (l - r)
  | lshift, l, r => if 0 ≤ l ∧ 0 ≤ r ∧ r < 64 then intmax (l * 2 ^ r.toNat) else none
  | rshift, l, r => if 0 ≤ r ∧ r < 64 then some (l / 2 ^ r.toNat) else none
  | lt, l, r => some (ofTruth (l < r))
  | leq, l, r => some (ofTruth (l ≤ r))
  | gt, l, r => some (ofTruth (r < l))
  | geq, l, r => some (ofTruth (r ≤ l))
  | eq, l, r => some (ofTruth (l = r))
  | neq, l, r => some (ofTruth (l ≠ r))
  | bitAnd, l, r => some (bitwise (· &&& ·) l r)
  | bitXor, l, r => some (bitwise (· ^^^ ·) l r)
  | bitOr, l, r => some (bitwise (· ||| ·) l r)
  | logAnd, l, r => some (ofTruth (l ≠ 0 ∧ r ≠ 0))
  | logOr, l, r => some (ofTruth (l ≠ 0 ∨ r ≠ 0))

/-- The value that decides the operator without its right operand. -/
def Binary.decided : Binary → Int → Option Int
  | logAnd, l => if l = 0 then some 0 else none
  | logOr, l => if l = 0 then none else some 1
  | _, _ => none

/-- The value C gives an expression, where it gives one. -/
def Expr.value (isDefined : String → Bool) : Expr → Option Int
  | number _ value _ => intmax value
  | defined name => some (ofTruth (isDefined name))
  | identifier _ _ => some 0
  | paren e => e.value isDefined
  | unary op e => (e.value isDefined).bind op.value
  | binary op l r => (l.value isDefined).bind fun left =>
      match op.decided left with
      | some v => some v
      | none => (r.value isDefined).bind (op.value left)

/-- A value of `int`. -/
def IsInt (v : Int) : Prop := -2 ^ 31 ≤ v ∧ v < 2 ^ 31

/-- The expression has a value of `int`. -/
def Expr.FitsInt (isDefined : String → Bool) (e : Expr) : Prop :=
  ∃ v, e.value isDefined = some v ∧ IsInt v

/-- The expression and all its operands have values of `int`. -/
def Expr.Fits (isDefined : String → Bool) : Expr → Prop
  | paren e => e.Fits isDefined
  | unary op e => (unary op e).FitsInt isDefined ∧ e.Fits isDefined
  | binary op l r => (binary op l r).FitsInt isDefined ∧ l.Fits isDefined ∧ r.Fits isDefined
  | e => e.FitsInt isDefined

end Shecc.Preprocessor
