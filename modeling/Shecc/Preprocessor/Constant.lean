import Shecc.Preprocessor.Expression
import Shecc.Preprocessor.Expansion
import Shecc.Preprocessor.Lookahead

/-!
# Reading a conditional expression

`pp_read_constant_expr` on the tokens of an expression. It reads the operator behind a
right operand to see whether it binds tighter, and where it does not, the operator is
lost: what follows is neither part of the value nor passed. No operator is lost where
each left operand is a single operand and the operators bind tighter from left to right.
-/

namespace Shecc.Preprocessor

open LinkedList

/-! ## Values -/

section Numbers

variable {c : Char} {value : Nat}

theorem digitValue_of_isDigit (isDigit : c.isDigit = true) :
    digitValue c = BitVec.ofNat 32 (digitOf c) := by
  have inside : 48 ≤ c.toNat := by
    simp only [Char.isDigit, Bool.and_eq_true, decide_eq_true_eq] at isDigit
    exact isDigit.1
  rw [digitValue, digitOf, if_pos isDigit]
  have same : ((c.toNat : Int) - 48) = ((c.toNat - 48 : Nat) : Int) := by omega
  rw [same]
  rfl

theorem decimalDigit_ofNat {octal : Bool} (isDigit : c.isDigit = true) :
    decimalDigit octal (BitVec.ofNat 32 value) c =
      BitVec.ofNat 32 (value * (if octal then 8 else 10) + digitOf c) := by
  rw [decimalDigit, digitValue_of_isDigit isDigit]
  cases octal <;> simp [BitVec.ofNat_add, BitVec.ofNat_mul]

theorem shiftLeft_ofNat (count : Nat) :
    BitVec.ofNat 32 value <<< count = BitVec.ofNat 32 (value * 2 ^ count) := by
  apply BitVec.eq_of_toNat_eq
  simp [Nat.shiftLeft_eq]

theorem hexDigit_ofNat (isHex : c.isDigit = true ∨ 97 ≤ c.toNat ||| 32 ∧ c.toNat ||| 32 ≤ 102) :
    hexDigit (BitVec.ofNat 32 value) c = BitVec.ofNat 32 (value * 16 + digitOf c) := by
  rw [hexDigit, shiftLeft_ofNat]
  by_cases isDigit : c.isDigit = true
  · have small : c.toNat ||| 32 < 2 ^ 6 := by
      simp only [Char.isDigit, Bool.and_eq_true, decide_eq_true_eq] at isDigit
      have bound : c.toNat ≤ 57 := isDigit.2
      exact Nat.or_lt_two_pow (by omega) (by decide)
    have notLetter : ¬ (97 ≤ c.toNat ||| 32 ∧ c.toNat ||| 32 ≤ 102) := by omega
    simp only [isDigit, if_true, if_neg notLetter]
    rw [digitValue_of_isDigit isDigit, BitVec.ofNat_add]
    rfl
  · have isLetter := isHex.resolve_left isDigit
    simp only [isDigit, Bool.false_eq_true, if_false, if_pos isLetter]
    rw [digitOf, if_neg isDigit]
    have same : (c.toNat ||| 32) - 87 = ((c.toNat ||| 32) - 97) + 10 := by omega
    rw [same, BitVec.ofNat_add, BitVec.ofNat_add, ← BitVec.add_assoc]
    rfl

theorem binaryDigit_ofNat (isBinary : c = '0' ∨ c = '1') :
    binaryDigit (BitVec.ofNat 32 value) c = BitVec.ofNat 32 (value * 2 + digitOf c) := by
  rw [binaryDigit, shiftLeft_ofNat, BitVec.ofNat_add]
  rcases isBinary with rfl | rfl
  · rfl
  · rfl

/-- A loop over digits, digit by digit. -/
theorem foldl_ofNat {round : Word → Char → Word} {radix : Nat} {digits : List Char}
    (rounds : ∀ value, ∀ c ∈ digits, round (BitVec.ofNat 32 value) c =
      BitVec.ofNat 32 (value * radix + digitOf c)) (value : Nat) :
    digits.foldl round (BitVec.ofNat 32 value) =
      BitVec.ofNat 32 (digits.foldl (fun value c => value * radix + digitOf c) value) := by
  induction digits generalizing value with
  | nil => rfl
  | cons c rest inductionHypothesis =>
      rw [List.foldl_cons, List.foldl_cons, rounds value c List.mem_cons_self]
      exact inductionHypothesis (fun value c inRest =>
        rounds value c (List.mem_cons_of_mem _ inRest)) _

theorem digits_ofNat {digits : List Char} (octal : Bool)
    (areDigits : ∀ c ∈ digits, c.isDigit = true) :
    digits.foldl (decimalDigit octal) 0 =
      BitVec.ofNat 32 (numberOf (if octal then 8 else 10) digits) :=
  foldl_ofNat (fun _ c inDigits => decimalDigit_ofNat (areDigits c inDigits)) 0

/-- A digit is no mark of another radix. -/
theorem mark_of_isDigit (isDigit : c.isDigit = true) :
    c.toNat ||| 32 ≠ 120 ∧ c.toNat ||| 32 ≠ 98 := by
  simp only [Char.isDigit, Bool.and_eq_true, decide_eq_true_eq] at isDigit
  have bound : c.toNat ≤ 57 := isDigit.2
  have small : c.toNat ||| 32 < 2 ^ 6 := Nat.or_lt_two_pow (by omega) (by decide)
  omega

/-- A literal of digits alone. -/
theorem parseNumericConstant_digits {text : String} {first : Char} {rest : List Char}
    (isText : text.toList = first :: rest) (areDigits : ∀ c ∈ first :: rest, c.isDigit = true) :
    parseNumericConstant text =
      BitVec.ofNat 32 (numberOf (if first = '0' then 8 else 10) (first :: rest)) := by
  have digits := digits_ofNat (first = '0') areDigits
  simp only [decide_eq_true_eq] at digits
  rw [parseNumericConstant, isText]
  cases rest with
  | nil => exact digits
  | cons mark behind =>
      have notMark := mark_of_isDigit (areDigits mark (by simp))
      simp only [if_neg notMark.1, if_neg notMark.2]
      exact digits

/-- The value of a literal, modulo the size of a word. -/
theorem parseNumericConstant_denotes {text : String} (denotes : Denotes text.toList value) :
    parseNumericConstant text = BitVec.ofNat 32 value := by
  generalize isText : text.toList = characters at denotes
  cases denotes with
  | @decimal first rest notZero areDigits =>
      rw [parseNumericConstant_digits isText areDigits, if_neg notZero]
  | @octal rest areDigits =>
      have all : ∀ c ∈ '0' :: rest, c.isDigit = true := by
        simpa using fun c inRest => (areDigits c inRest).1
      rw [parseNumericConstant_digits isText all, if_pos rfl]
      rfl
  | @hexadecimal mark rest isMark notEmpty areDigits =>
      have lower : mark.toNat ||| 32 = 120 := by
        rcases isMark with rfl | rfl <;> decide
      rw [parseNumericConstant, isText]
      simp only [if_pos lower]
      exact foldl_ofNat (fun _ c inRest => hexDigit_ofNat (areDigits c inRest)) 0
  | @binary mark rest isMark notEmpty areDigits =>
      have lower : mark.toNat ||| 32 = 98 := by
        rcases isMark with rfl | rfl <;> decide
      rw [parseNumericConstant, isText]
      simp only [lower, if_neg (show ¬ (98 : Nat) = 120 by decide), if_true]
      exact foldl_ofNat (fun _ c inRest => binaryDigit_ofNat (areDigits c inRest)) 0

end Numbers

section Words

variable {l r : Word} {v : Int}

theorem toInt_of_isInt (fits : IsInt v) : (BitVec.ofInt 32 v).toInt = v := by
  rw [BitVec.toInt_ofInt]
  apply Int.bmod_eq_of_le
  · have := fits.1
    norm_num at this ⊢
    exact this
  · have := fits.2
    norm_num at this ⊢
    exact this

theorem bmod_of_isInt (fits : IsInt v) : v.bmod (2 ^ 32) = v := by
  rw [← BitVec.toInt_ofInt]
  exact toInt_of_isInt fits

theorem intmax_eq_some {v' : Int} (value : intmax v = some v') : v' = v := by
  rw [intmax] at value
  split_ifs at value
  exact (Option.some.inj value).symm

theorem toInt_ofBool (b : Bool) : (Word.ofBool b).toInt = ofTruth b := by
  cases b <;> rfl

theorem toInt_bitwise (op : ∀ {n : Nat}, BitVec n → BitVec n → BitVec n)
    (extends_ : (op l r).signExtend 64 = op (l.signExtend 64) (r.signExtend 64)) :
    (op l r).toInt = bitwise op l.toInt r.toInt := by
  have same : ∀ x : Word, BitVec.ofInt 64 x.toInt = x.signExtend 64 := fun x => rfl
  rw [bitwise, same, same, ← extends_, BitVec.toInt_signExtend_of_le (by decide)]

theorem toInt_eq_zero_iff : l.toInt = 0 ↔ l = 0 := by
  constructor
  · intro isZero
    apply BitVec.eq_of_toInt_eq
    rw [isZero]
    rfl
  · rintro rfl
    rfl

/-- The operator in the code. -/
def Binary.opcode : Binary → Opcode
  | mul => .mul
  | div => .div
  | add => .add
  | sub => .sub
  | lshift => .lshift
  | rshift => .rshift
  | lt => .lt
  | leq => .leq
  | gt => .gt
  | geq => .geq
  | eq => .eq
  | neq => .neq
  | bitAnd => .bitAnd
  | bitXor => .bitXor
  | bitOr => .bitOr
  | logAnd => .logAnd
  | logOr => .logOr

/-- The shifts, which have no precedence in the code. -/
def Binary.isShift : Binary → Bool
  | lshift | rshift => true
  | _ => false

/-- On words the code computes what C computes, where the result is an `int`. -/
theorem binary_value {op : Binary} (notShift : op.isShift = false)
    (value : op.value l.toInt r.toInt = some v) (fits : IsInt v) :
    ∃ x, op.opcode.binary l r = some x ∧ x.toInt = v := by
  cases op with
  | mul =>
      refine ⟨l * r, rfl, ?_⟩
      rw [intmax_eq_some value] at fits ⊢
      rw [BitVec.toInt_mul, bmod_of_isInt fits]
  | add =>
      refine ⟨l + r, rfl, ?_⟩
      rw [intmax_eq_some value] at fits ⊢
      rw [BitVec.toInt_add, bmod_of_isInt fits]
  | sub =>
      refine ⟨l - r, rfl, ?_⟩
      rw [intmax_eq_some value] at fits ⊢
      rw [BitVec.toInt_sub, bmod_of_isInt fits]
  | div =>
      rw [Binary.value] at value
      split_ifs at value with isZero
      rw [intmax_eq_some value] at fits ⊢
      have divides : Word.Divides l r := by
        constructor
        · rintro rfl
          exact isZero rfl
        · rintro ⟨rfl, rfl⟩
          exact absurd fits.2 (by decide)
      refine ⟨l.sdiv r, if_pos divides, ?_⟩
      rw [BitVec.toInt_sdiv, bmod_of_isInt fits]
  | lshift => cases notShift
  | rshift => cases notShift
  | lt => exact ⟨_, rfl, by cases value; exact toInt_ofBool _⟩
  | leq => exact ⟨_, rfl, by cases value; exact toInt_ofBool _⟩
  | gt => exact ⟨_, rfl, by cases value; exact toInt_ofBool _⟩
  | geq => exact ⟨_, rfl, by cases value; exact toInt_ofBool _⟩
  | eq =>
      cases value
      refine ⟨_, rfl, ?_⟩
      rw [toInt_ofBool]
      exact congrArg ofTruth (Bool.eq_iff_iff.mpr (by simp [BitVec.toInt_inj]))
  | neq =>
      cases value
      refine ⟨_, rfl, ?_⟩
      rw [toInt_ofBool]
      exact congrArg ofTruth (Bool.eq_iff_iff.mpr (by simp [BitVec.toInt_inj]))
  | bitAnd =>
      cases value
      exact ⟨_, rfl, toInt_bitwise (· &&& ·) BitVec.signExtend_and⟩
  | bitXor =>
      cases value
      exact ⟨_, rfl, toInt_bitwise (· ^^^ ·) BitVec.signExtend_xor⟩
  | bitOr =>
      cases value
      exact ⟨_, rfl, toInt_bitwise (· ||| ·) BitVec.signExtend_or⟩
  | logAnd =>
      cases value
      refine ⟨_, rfl, ?_⟩
      rw [toInt_ofBool]
      exact congrArg ofTruth (Bool.eq_iff_iff.mpr (by simp [Word.truth, toInt_eq_zero_iff]))
  | logOr =>
      cases value
      refine ⟨_, rfl, ?_⟩
      rw [toInt_ofBool]
      exact congrArg ofTruth (Bool.eq_iff_iff.mpr (by simp [Word.truth, toInt_eq_zero_iff]))

end Words

/-! ## What is read and what is lost -/

/-- The signs, the only unary operators the code knows. -/
def Unary.isSign : Unary → Bool
  | plus | minus => true
  | _ => false

/-- A single operand: brackets may only stand around another one. -/
def Expr.isPlain : Expr → Bool
  | paren e => e.isPlain
  | unary _ _ | binary _ _ _ => false
  | _ => true

/-- No operator is lost. -/
def Expr.isKept : Expr → Bool
  | unary op e => op.isSign && e.isKept
  | binary op l r => l.isPlain && !op.isShift && r.isKept
  | e => e.isPlain

/-- A diagnostic comes before any operator is lost. -/
def Expr.isRefused : Expr → Bool
  | paren e => !e.isPlain
  | unary op e => !op.isSign || e.isRefused
  | binary op l r => l.isRefused || (l.isPlain && !op.isShift && r.isRefused)
  | _ => false

/-- The first token is a sign. -/
def Expr.startsWithSign : Expr → Bool
  | unary op _ => op.isSign
  | binary _ l _ => l.startsWithSign
  | _ => false

/-- No sign stands right behind a binary operator. -/
def Expr.isUnsigned : Expr → Bool
  | unary _ e => e.isUnsigned
  | binary _ l r => l.isUnsigned && r.isUnsigned && !r.startsWithSign
  | _ => true

/-- The names a condition takes for defined. -/
def World.isDefined (w : World) (name : String) : Bool := (w.macros.inText name).isSome

/-- A diagnostic. -/
def Refused {α : Type} (result : Except Failure α) : Prop :=
  ∃ msg location, result = .error (.errorAt msg location)

/-- The value of the expression is read, up to the cells that are ahead then. -/
def Reads (w : World) (e : Expr) (rest : List (Nat × Token))
    (result : Except Failure ((Ptr × Word) × World)) : Prop :=
  ∃ tk value, result = .ok ((tk, value), w) ∧ Ahead w tk rest ∧
    e.value w.isDefined = some value.toInt

section Operators

theorem Binary.operator (op : Binary) : op.kind.operator = some op.opcode := by
  cases op <;> rfl

theorem Binary.prio (op : Binary) :
    ppGetOperatorPrio op.opcode = if op.isShift then 0 else op.level := by
  cases op <;> rfl

theorem Binary.level_le (op : Binary) : op.level ≤ 13 := by
  cases op <;> decide

theorem Expr.level_pos (e : Expr) : 0 < e.level := by
  cases e with
  | binary op l r => cases op <;> simp [Expr.level, Binary.level]
  | number | defined | identifier | paren | unary => simp [Expr.level]

theorem Binary.isBinary (op : Binary) : op.opcode.isBinary = true ∧ op.opcode ≠ .mod := by
  cases op <;> exact ⟨rfl, Opcode.noConfusion⟩

theorem ppGetOperatorPrio_le (op : Opcode) : ppGetOperatorPrio op ≤ 13 := by
  cases op <;> decide

end Operators

section Fits

variable {isDefined : String → Bool} {e : Expr}

/-- A binary operator whose operands have values is applied to them. -/
theorem value_binary {op : Binary} {l r : Expr} {a b v : Int} (left : l.value isDefined = some a)
    (right : r.value isDefined = some b) (value : (Expr.binary op l r).value isDefined = some v) :
    op.value a b = some v := by
  rw [Expr.value, left, Option.bind_some] at value
  cases decided : op.decided a with
  | none =>
      rw [decided, right] at value
      exact value
  | some v' =>
      rw [decided] at value
      cases value
      cases op <;> simp only [Binary.decided, reduceCtorEq] at decided
      · split_ifs at decided with isZero
        cases decided
        simp [Binary.value, isZero, ofTruth]
      · split_ifs at decided with isZero
        cases decided
        simp [Binary.value, isZero, ofTruth]

end Fits

/-! ## Operands -/

section Operand

variable {expand : Expand} {w : World} {p : Ptr} {cell : Nat × Token}
  {cells rest : List (Nat × Token)} {fuel : Nat} {e : Expr}

theorem operand_number (bounded : w.heap.Bounded) (ahead : Ahead w p (cell :: rest))
    (isKind : cell.2.kind = .numeric) : ppReadConstantExprOperand expand (fuel + 1) p w =
      .ok ((.cell cell.1, parseNumericConstant cell.2.literal), w) := by
  rcases ppLexNextToken_ahead bounded ahead with ⟨isNext, -, isToken⟩
  rw [ppReadConstantExprOperand, Run.bind_ok (ppLexPeekToken_ahead bounded ahead _), isKind]
  simp only [beq_self_eq_true, if_true]
  exact (Run.bind_ok isNext).trans (Run.bind_ok isToken)

theorem operand_bracket (bounded : w.heap.Bounded) (ahead : Ahead w p (cell :: rest))
    (isKind : cell.2.kind = .openBracket) : ppReadConstantExprOperand expand (fuel + 1) p w =
      (ppReadConstantExprOperand expand fuel (.cell cell.1) >>= fun result => do
        let tk ← ppLexExpectToken result.1 .closeBracket true
        pure (tk, result.2)) w := by
  rcases ppLexNextToken_ahead bounded ahead with ⟨isNext, -, isToken⟩
  rw [ppReadConstantExprOperand, Run.bind_ok (ppLexPeekToken_ahead bounded ahead _), isKind,
    show (TokenKind.openBracket == TokenKind.numeric) = false from rfl,
    if_neg Bool.false_ne_true, Run.bind_ok (ppLexPeekToken_ahead bounded ahead _), isKind]
  simp only [beq_self_eq_true, if_true]
  rw [Run.bind_ok isNext]

/-- An operand that begins with an identifier. -/
theorem operand_identifier (bounded : w.heap.Bounded) (ahead : Ahead w p (cell :: rest))
    (isKind : cell.2.kind = .identifier) : ppReadConstantExprOperand expand (fuel + 1) p w =
      (if cell.2.literal = "defined" then definedOperand (.cell cell.1)
      else do
        let record ← getMacro cell.2.literal
        match record.filter fun record => !record.isFunctionLike with
        | some _ => do
            expandOperand expand (.cell cell.1) cell.2.literal
            ppReadConstantExprOperand expand fuel (.cell cell.1)
        | none => pure (.cell cell.1, 0)) w := by
  rcases ppLexNextToken_ahead bounded ahead with ⟨isNext, -, isToken⟩
  rw [ppReadConstantExprOperand, Run.bind_ok (ppLexPeekToken_ahead bounded ahead _), isKind,
    show (TokenKind.identifier == TokenKind.numeric) = false from rfl,
    if_neg Bool.false_ne_true, Run.bind_ok (ppLexPeekToken_ahead bounded ahead _), isKind,
    show (TokenKind.identifier == TokenKind.openBracket) = false from rfl,
    if_neg Bool.false_ne_true, Run.bind_ok (ppLexPeekToken_ahead bounded ahead _), isKind]
  simp only [beq_self_eq_true, if_true]
  exact (Run.bind_ok isNext).trans (Run.bind_ok isToken)

/-- Nothing else is an operand. -/
theorem operand_refused (bounded : w.heap.Bounded) (ahead : Ahead w p (cell :: rest))
    (notNumeric : cell.2.kind ≠ .numeric) (notBracket : cell.2.kind ≠ .openBracket)
    (notIdentifier : cell.2.kind ≠ .identifier) :
    Refused (ppReadConstantExprOperand expand (fuel + 1) p w) := by
  rcases ppLexNextToken_ahead bounded ahead with ⟨isNext, -, isToken⟩
  rw [ppReadConstantExprOperand, Run.bind_ok (ppLexPeekToken_ahead bounded ahead _),
    beq_eq_false_iff_ne.mpr notNumeric, if_neg Bool.false_ne_true,
    Run.bind_ok (ppLexPeekToken_ahead bounded ahead _), beq_eq_false_iff_ne.mpr notBracket,
    if_neg Bool.false_ne_true, Run.bind_ok (ppLexPeekToken_ahead bounded ahead _),
    beq_eq_false_iff_ne.mpr notIdentifier, if_neg Bool.false_ne_true, Run.bind_ok isNext,
    errorAt_ahead isToken]
  exact ⟨_, _, rfl⟩

/-- The identifiers of the expression have left no record a condition is expanded with. -/
def Expr.Known (w : World) (e : Expr) : Prop :=
  ∀ name ∈ e.names, w.macros.inCondition name = none

/-- A single operand is read. -/
theorem operand_plain (bounded : w.heap.Bounded) (known : e.Known w) (fits : e.Fits w.isDefined)
    (plain : e.isPlain = true) (spells : e.Spells cells) (ahead : Ahead w p (cells ++ rest))
    (enough : cells.length ≤ fuel) :
    Reads w e rest (ppReadConstantExprOperand expand fuel p w) := by
  induction e generalizing p cells rest fuel with
  | number text value denotes =>
      rcases spells with ⟨cell, rfl, isKind, isText⟩
      cases fuel with
      | zero => cases enough
      | succ fuel =>
          rcases fits with ⟨v, isValue, isInt⟩
          rcases ppLexNextToken_ahead bounded ahead with ⟨-, ahead', -⟩
          refine ⟨_, _, operand_number bounded ahead isKind, ahead', ?_⟩
          rw [isText, parseNumericConstant_denotes denotes, isValue]
          rw [Expr.value] at isValue
          rw [intmax_eq_some isValue] at isInt ⊢
          rw [← BitVec.ofInt_natCast, toInt_of_isInt isInt]
  | defined name =>
      rcases spells with ⟨keyword, opening, operand, closing, rfl, ⟨isKind, isKeyword⟩, isOpening,
        ⟨isOperand, isName⟩, isClosing⟩
      cases fuel with
      | zero => cases enough
      | succ fuel =>
          rcases ppLexNextToken_ahead bounded ahead with ⟨-, aheadOpening, -⟩
          rcases ppLexNextToken_ahead bounded aheadOpening with ⟨-, aheadOperand, -⟩
          rcases ppLexNextToken_ahead bounded aheadOperand with ⟨-, aheadClosing, isToken⟩
          rcases ppLexNextToken_ahead bounded aheadClosing with ⟨-, aheadRest, -⟩
          have isDefined : isMacroDefined operand.2.literal w = .ok (w.isDefined name, w) := by
            rw [isName]
            rfl
          refine ⟨.cell closing.1, Word.ofBool (w.isDefined name), ?_, aheadRest, ?_⟩
          · rw [operand_identifier bounded ahead isKind, if_pos isKeyword, definedOperand,
              Run.bind_ok (ppLexExpectToken_ahead bounded aheadOpening isOpening),
              Run.bind_ok (ppLexExpectToken_ahead bounded aheadOperand isOperand),
              Run.bind_ok isToken, Run.bind_ok isDefined,
              Run.bind_ok (ppLexExpectToken_ahead bounded aheadClosing isClosing)]
            rfl
          · rw [Expr.value, toInt_ofBool]
  | identifier name notKeyword =>
      rcases spells with ⟨cell, rfl, isKind, isName⟩
      cases fuel with
      | zero => cases enough
      | succ fuel =>
          rcases ppLexNextToken_ahead bounded ahead with ⟨-, ahead', -⟩
          refine ⟨.cell cell.1, 0, ?_, ahead', rfl⟩
          have isRecord : getMacro name w = .ok (w.macros name, w) := rfl
          have notExpanded : (w.macros name).filter (fun record => !record.isFunctionLike) = none :=
            known name List.mem_cons_self
          rw [operand_identifier bounded ahead isKind, isName, if_neg notKeyword,
            Run.bind_ok isRecord, notExpanded]
          rfl
  | paren e inductionHypothesis =>
      rcases spells with ⟨opening, body, closing, rfl, isOpening, isClosing, spells⟩
      cases fuel with
      | zero => cases enough
      | succ fuel =>
          rw [List.cons_append, List.append_assoc] at ahead
          have aheadBody := (ppLexNextToken_ahead bounded ahead).2.1
          have shorter : body.length ≤ fuel := by
            simp only [List.length_cons, List.length_append, List.length_nil] at enough
            omega
          rcases inductionHypothesis known fits plain spells aheadBody shorter with
            ⟨tk, value, ran, aheadClosing, isValue⟩
          refine ⟨.cell closing.1, value, ?_, (ppLexNextToken_ahead bounded aheadClosing).2.1,
            isValue⟩
          rw [operand_bracket bounded ahead isOpening, Run.bind_ok ran,
            Run.bind_ok (ppLexExpectToken_ahead bounded aheadClosing isClosing)]
          rfl
  | unary op e => cases plain
  | binary op l r => cases plain

/-- Brackets around what is refused, or around what leaves something over, are refused. -/
theorem bracket_refused (bounded : w.heap.Bounded) (ahead : Ahead w p (cell :: rest))
    (isKind : cell.2.kind = .openBracket)
    (inside : Refused (ppReadConstantExprOperand expand fuel (.cell cell.1) w) ∨
      ∃ tk value next behind, ppReadConstantExprOperand expand fuel (.cell cell.1) w =
        .ok ((tk, value), w) ∧ Ahead w tk (next :: behind) ∧ next.2.kind ≠ .closeBracket) :
    Refused (ppReadConstantExprOperand expand (fuel + 1) p w) := by
  rw [operand_bracket bounded ahead isKind]
  rcases inside with ⟨msg, location, failed⟩ | ⟨tk, value, next, behind, ran, ahead', notClosing⟩
  · rw [Run.bind_error failed]
    exact ⟨_, _, rfl⟩
  · rw [Run.bind_ok ran, Run.bind_error (ppLexExpectToken_other bounded ahead' notClosing)]
    exact ⟨_, _, rfl⟩

/-- What is no single operand is not read as one up to a closing bracket. -/
theorem operand_notPlain (bounded : w.heap.Bounded) (known : e.Known w)
    (fits : e.Fits w.isDefined) (notPlain : e.isPlain = false) (spells : e.Spells cells)
    (ahead : Ahead w p (cells ++ rest)) (enough : cells.length ≤ fuel) :
    Refused (ppReadConstantExprOperand expand fuel p w) ∨
      ∃ tk value next behind, ppReadConstantExprOperand expand fuel p w = .ok ((tk, value), w) ∧
        Ahead w tk (next :: behind) ∧ next.2.kind ≠ .closeBracket := by
  induction e generalizing p cells rest fuel with
  | number text value denotes => cases notPlain
  | defined name => cases notPlain
  | identifier name notKeyword => cases notPlain
  | paren e inductionHypothesis =>
      rcases spells with ⟨opening, body, closing, rfl, isOpening, isClosing, spells⟩
      cases fuel with
      | zero => cases enough
      | succ fuel =>
          rw [List.cons_append, List.append_assoc] at ahead
          have shorter : body.length ≤ fuel := by
            simp only [List.length_cons, List.length_append, List.length_nil] at enough
            omega
          exact .inl (bracket_refused bounded ahead isOpening
            (inductionHypothesis known fits notPlain spells
              (ppLexNextToken_ahead bounded ahead).2.1 shorter))
  | unary op e inductionHypothesis =>
      rcases spells with ⟨first, body, rfl, isFirst, spells⟩
      cases fuel with
      | zero => cases enough
      | succ fuel =>
          left
          apply operand_refused bounded ahead
          all_goals rw [isFirst]; cases op <;> exact TokenKind.noConfusion
  | binary op l r left right =>
      rcases spells with ⟨before, symbol, behind, rfl, isSymbol, spellsLeft, spellsRight⟩
      rw [List.append_assoc, List.cons_append] at ahead
      have shorter : before.length ≤ fuel := by
        rw [List.length_append] at enough
        omega
      have knownLeft : l.Known w := fun name member =>
        known name (List.mem_append_left _ member)
      cases plain : l.isPlain with
      | true =>
          rcases operand_plain bounded knownLeft fits.2.1 plain spellsLeft ahead shorter with
            ⟨tk, value, ran, ahead', -⟩
          refine .inr ⟨tk, value, _, _, ran, ahead', ?_⟩
          rw [isSymbol]
          cases op <;> exact TokenKind.noConfusion
      | false => exact left knownLeft fits.2.1 plain spellsLeft ahead shorter

end Operand

/-! ## The loop over the operators -/

section Loop

variable {readInfix : Nat → Ptr → Run (Ptr × Word)} {w : World} {p : Ptr} {cell : Nat × Token}
  {rest : List (Nat × Token)} {precedence fuel : Nat} {lhs : Word}

/-- The loop ends in front of a token that is no operator. -/
theorem infixLoop_ends (bounded : w.heap.Bounded) (ahead : Ahead w p (cell :: rest))
    (isOperand : cell.2.kind.operator = none) :
    ∃ q, infixLoop readInfix precedence (fuel + 1) p lhs w = .ok ((q, lhs), w) ∧
      Ahead w q (cell :: rest) := by
  rcases ppGetOperator_operand bounded ahead isOperand with ⟨q, ran, ahead'⟩
  refine ⟨q, ?_, ahead'⟩
  rw [infixLoop, Run.bind_ok ran]
  rfl

/-- An operator that does not bind tighter is read and lost. -/
theorem infixLoop_loses (bounded : w.heap.Bounded) (ahead : Ahead w p (cell :: rest))
    {op : Opcode} (isOperator : cell.2.kind.operator = some op)
    (lost : ppGetOperatorPrio op = 0 ∨ ppGetOperatorPrio op ≤ precedence) :
    infixLoop readInfix precedence (fuel + 1) p lhs w = .ok ((.cell cell.1, lhs), w) := by
  rw [infixLoop, Run.bind_ok (ppGetOperator_ahead bounded ahead isOperator)]
  simp only [if_pos lost]
  rfl

/-- An operator that binds tighter is applied to what is read behind it; the operator
behind that is read and lost. -/
theorem infixLoop_takes (bounded : w.heap.Bounded) (ahead : Ahead w p (cell :: rest))
    {op : Opcode} (isOperator : cell.2.kind.operator = some op)
    (tighter : ¬ (ppGetOperatorPrio op = 0 ∨ ppGetOperatorPrio op ≤ precedence)) :
    infixLoop readInfix precedence (fuel + 1) p lhs w =
      (readInfix (ppGetOperatorPrio op) (.cell cell.1) >>= fun result => do
        let lhs ← infixValue result.1 op lhs result.2
        let behind ← ppGetOperator result.1
        infixLoop readInfix precedence fuel behind.1 lhs) w := by
  rw [infixLoop, Run.bind_ok (ppGetOperator_ahead bounded ahead isOperator)]
  simp only [if_neg tighter]

end Loop

/-! ## Expressions -/

/-- The first token of an expression. Only a sign is taken for an operator. -/
theorem Expr.Spells.first {e : Expr} {cells : List (Nat × Token)} (spells : e.Spells cells) :
    ∃ cell rest, cells = cell :: rest ∧ cell.2.kind ≠ .newline ∧
      (e.startsWithSign = false → cell.2.kind.operator = none) := by
  induction e generalizing cells with
  | number text value denotes =>
      rcases spells with ⟨cell, rfl, isKind, -⟩
      exact ⟨cell, [], rfl, by rw [isKind]; exact TokenKind.noConfusion,
        fun _ => by rw [isKind]; rfl⟩
  | defined name =>
      rcases spells with ⟨keyword, opening, operand, closing, rfl, ⟨isKind, -⟩, -⟩
      exact ⟨keyword, _, rfl, by rw [isKind]; exact TokenKind.noConfusion,
        fun _ => by rw [isKind]; rfl⟩
  | identifier name notKeyword =>
      rcases spells with ⟨cell, rfl, isKind, -⟩
      exact ⟨cell, [], rfl, by rw [isKind]; exact TokenKind.noConfusion,
        fun _ => by rw [isKind]; rfl⟩
  | paren e inductionHypothesis =>
      rcases spells with ⟨opening, body, closing, rfl, isKind, -⟩
      exact ⟨opening, _, rfl, by rw [isKind]; exact TokenKind.noConfusion,
        fun _ => by rw [isKind]; rfl⟩
  | unary op e inductionHypothesis =>
      rcases spells with ⟨first, body, rfl, isKind, -⟩
      refine ⟨first, body, rfl, ?_, ?_⟩
      · rw [isKind]
        cases op <;> exact TokenKind.noConfusion
      · intro notSign
        rw [isKind]
        cases op <;> first | rfl | cases notSign
  | binary op l r left right =>
      rcases spells with ⟨before, symbol, behind, rfl, isSymbol, spellsLeft, -⟩
      rcases left spellsLeft with ⟨cell, rest, rfl, notNewline, isOperand⟩
      exact ⟨cell, _, rfl, notNewline, isOperand⟩

theorem Expr.startsWithSign_of_isPlain {e : Expr} (plain : e.isPlain = true) :
    e.startsWithSign = false := by
  cases e <;> first | rfl | cases plain

/-- The sign in the code. -/
def Unary.opcode : Unary → Opcode
  | plus => .add
  | minus => .sub
  | logNot => .logNot
  | bitNot => .bitNot

section Infix

variable {expand : Expand} {w : World} {p : Ptr} {cell : Nat × Token}
  {cells rest rest' : List (Nat × Token)} {precedence fuel : Nat} {e : Expr}

/-- An expression that does not begin with a sign begins with an operand. -/
theorem infix_operand (bounded : w.heap.Bounded) (ahead : Ahead w p (cell :: rest))
    (isOperand : cell.2.kind.operator = none) : ∃ q, Ahead w q (cell :: rest) ∧
      ppReadConstantInfixExpr expand (fuel + 1) precedence p w =
        (ppReadConstantExprOperand expand fuel q >>= fun result =>
          infixLoop (ppReadConstantInfixExpr expand fuel) precedence fuel result.1 result.2) w := by
  rcases ppGetOperator_operand bounded ahead isOperand with ⟨q, ran, ahead'⟩
  refine ⟨q, ahead', ?_⟩
  rw [ppReadConstantInfixExpr, Run.bind_ok ran]
  rfl

/-- A sign stands before an expression that is read with its precedence. -/
theorem infix_sign (bounded : w.heap.Bounded) (ahead : Ahead w p (cell :: rest)) {op : Unary}
    (isSign : op.isSign = true) (isKind : cell.2.kind = op.kind) (below : precedence ≤ 14) :
    ppReadConstantInfixExpr expand (fuel + 1) precedence p w =
      (ppReadConstantInfixExpr expand fuel 14 (.cell cell.1) >>= fun result => do
        let lhs ← unaryValue result.1 op.opcode result.2
        infixLoop (ppReadConstantInfixExpr expand fuel) precedence fuel result.1 lhs) w := by
  have isOperator : cell.2.kind.operator = some op.opcode := by
    rw [isKind]
    cases op <;> first | rfl | cases isSign
  have prio : ppGetUnaryOperatorPrio op.opcode = 14 := by cases op <;> rfl
  rw [ppReadConstantInfixExpr, Run.bind_ok (ppGetOperator_ahead bounded ahead isOperator)]
  simp only [prio]
  rw [if_pos ⟨by decide, below⟩]

/-- The precedence an expression is read with lets its operators through. -/
def Below (precedence : Nat) (e : Expr) : Prop :=
  precedence ≤ 14 ∧ (e.level < 14 → precedence < e.level)

/-- The left operand of a binary operator is read with the precedence of the expression. -/
theorem Below.left {op : Binary} {l r : Expr} (below : Below precedence (.binary op l r))
    (looser : op.level ≤ l.level) : Below precedence l :=
  ⟨below.1, fun _ => (below.2 (Nat.lt_succ_of_le op.level_le)).trans_le looser⟩

theorem Below.right {op : Binary} {r : Expr} (tighter : op.level < r.level) :
    Below op.level r :=
  ⟨op.level_le.trans (by decide), fun _ => tighter⟩

theorem Below.sign (grammatical : 14 ≤ e.level) : Below 14 e :=
  ⟨Nat.le_refl _, fun low => absurd grammatical (Nat.not_le_of_lt low)⟩

/-- What is ahead when an expression has been read, and what is ahead behind an operator
that is lost then. -/
inductive After (precedence : Nat) (e : Expr) :
    List (Nat × Token) → List (Nat × Token) → Prop
  | operand {cell : Nat × Token} {rest : List (Nat × Token)} :
      cell.2.kind.operator = none → After precedence e (cell :: rest) (cell :: rest)
  | lost {cell next : Nat × Token} {rest : List (Nat × Token)} {op : Opcode} :
      cell.2.kind.operator = some op →
      (ppGetOperatorPrio op = 0 ∨ ppGetOperatorPrio op ≤ precedence) ∨
        e.isPlain = false ∧ ppGetOperatorPrio op ≤ e.level →
      next.2.kind.operator = none → After precedence e (cell :: next :: rest) (next :: rest)

theorem After.next (after : After precedence e rest rest') :
    ∃ next behind, rest' = next :: behind ∧ next.2.kind.operator = none := by
  cases after with
  | operand isOperand => exact ⟨_, _, rfl, isOperand⟩
  | lost _ _ isOperand => exact ⟨_, _, rfl, isOperand⟩

/-- Behind a part of the expression that is read with its own precedence. -/
theorem After.part {precedence' : Nat} {e' : Expr} (after : After precedence e rest rest')
    (weaker : precedence ≤ precedence') (level : e.isPlain = false → e.level ≤ precedence' ∨
      14 ≤ precedence') : After precedence' e' rest rest' := by
  cases after with
  | operand isOperand => exact .operand isOperand
  | lost isOperator lost isOperand =>
      refine .lost isOperator (.inl ?_) isOperand
      rcases lost with (none_ | inside) | ⟨notPlain, inside⟩
      · exact .inl none_
      · exact .inr (inside.trans weaker)
      · rcases level notPlain with level | high
        · exact .inr (inside.trans level)
        · exact .inr ((ppGetOperatorPrio_le _).trans (by omega))

/-- An expression that begins with a single operand goes on in the loop behind it. -/
theorem infix_plain (bounded : w.heap.Bounded) (known : e.Known w) (fits : e.Fits w.isDefined)
    (plain : e.isPlain = true) (spells : e.Spells cells) (ahead : Ahead w p (cells ++ rest))
    (enough : cells.length ≤ fuel) : ∃ tk value, Ahead w tk rest ∧
      e.value w.isDefined = some value.toInt ∧
        ppReadConstantInfixExpr expand (fuel + 1) precedence p w =
          infixLoop (ppReadConstantInfixExpr expand fuel) precedence fuel tk value w := by
  rcases spells.first with ⟨cell, others, rfl, -, isOperand⟩
  rcases infix_operand bounded ahead (isOperand (Expr.startsWithSign_of_isPlain plain)) with
    ⟨q, ahead', entered⟩
  rcases operand_plain bounded known fits plain spells ahead' enough with
    ⟨tk, value, ran, aheadRest, isValue⟩
  refine ⟨tk, value, aheadRest, isValue, ?_⟩
  rw [entered, Run.bind_ok ran]

/-- The loop behind an expression that is read. -/
theorem infixLoop_after {readInfix : Nat → Ptr → Run (Ptr × Word)} {lhs : Word}
    (bounded : w.heap.Bounded) (ahead : Ahead w p rest) (after : After precedence e rest rest')
    (plain : e.isPlain = true) :
    ∃ q, infixLoop readInfix precedence (fuel + 1) p lhs w = .ok ((q, lhs), w) ∧
      Ahead w q rest' := by
  cases after with
  | operand isOperand => exact infixLoop_ends bounded ahead isOperand
  | lost isOperator lost isOperand =>
      rcases lost with lost | ⟨notPlain, -⟩
      · exact ⟨_, infixLoop_loses bounded ahead isOperator lost,
          (ppLexNextToken_ahead bounded ahead).2.1⟩
      · rw [plain] at notPlain
        cases notPlain

/-- The value of a sign. -/
theorem unaryValue_sign {op : Unary} {value : Word} {tk : Ptr} (isSign : op.isSign = true)
    (fits : (Expr.unary op e).FitsInt w.isDefined)
    (isValue : e.value w.isDefined = some value.toInt) :
    ∃ value', unaryValue tk op.opcode value w = .ok (value', w) ∧
      (Expr.unary op e).value w.isDefined = some value'.toInt := by
  rcases fits with ⟨v, isResult, isInt⟩
  have applied : op.value value.toInt = some v := by
    rw [Expr.value, isValue] at isResult
    exact isResult
  cases op with
  | plus =>
      cases applied
      exact ⟨value, rfl, isResult⟩
  | minus =>
      rw [intmax_eq_some applied] at isResult isInt
      refine ⟨-value, rfl, ?_⟩
      rw [isResult, BitVec.toInt_neg, bmod_of_isInt isInt]
  | logNot => cases isSign
  | bitNot => cases isSign

/-- The value of a binary operator. -/
theorem infixValue_binary {op : Binary} {l r : Expr} {x y : Word} {tk : Ptr}
    (notShift : op.isShift = false) (fits : (Expr.binary op l r).FitsInt w.isDefined)
    (left : l.value w.isDefined = some x.toInt) (right : r.value w.isDefined = some y.toInt) :
    ∃ value, infixValue tk op.opcode x y w = .ok (value, w) ∧
      (Expr.binary op l r).value w.isDefined = some value.toInt := by
  rcases fits with ⟨v, isResult, isInt⟩
  rcases binary_value notShift (value_binary left right isResult) isInt with ⟨value, ran, rfl⟩
  refine ⟨value, ?_, isResult⟩
  have isInfix : (op.opcode.isBinary && op.opcode != .mod) = true := by
    rw [op.isBinary.1, Bool.true_and]
    exact bne_iff_ne.mpr op.isBinary.2
  rw [infixValue, if_pos isInfix, ran]
  rfl

theorem infix_kept_plain (bounded : w.heap.Bounded) (known : e.Known w)
    (fits : e.Fits w.isDefined) (plain : e.isPlain = true) (spells : e.Spells cells)
    (ahead : Ahead w p (cells ++ rest)) (after : After precedence e rest rest')
    (enough : cells.length ≤ fuel) :
    Reads w e rest' (ppReadConstantInfixExpr expand (fuel + 2) precedence p w) := by
  rcases @infix_plain expand w p cells rest precedence (fuel + 1) e bounded known fits plain
    spells ahead (by omega) with ⟨tk, value, aheadRest, isValue, entered⟩
  rcases infixLoop_after bounded aheadRest after plain with ⟨q, ran, aheadAfter⟩
  exact ⟨q, value, entered.trans ran, aheadAfter, isValue⟩

/-- An expression no operator of which is lost is read, and an operator behind it that
does not bind tighter is lost. By induction on the expression: a right operand is read
with the precedence of its operator. -/
theorem infix_kept (bounded : w.heap.Bounded) (known : e.Known w) (fits : e.Fits w.isDefined)
    (grammatical : e.Grammatical) (kept : e.isKept = true) (below : Below precedence e)
    (spells : e.Spells cells) (ahead : Ahead w p (cells ++ rest))
    (after : After precedence e rest rest') (enough : cells.length ≤ fuel) :
    Reads w e rest' (ppReadConstantInfixExpr expand (fuel + 2) precedence p w) := by
  induction e generalizing p cells rest precedence fuel with
  | number | defined | identifier =>
      exact infix_kept_plain bounded known fits rfl spells ahead after enough
  | paren e => exact infix_kept_plain bounded known fits kept spells ahead after enough
  | unary op e inductionHypothesis =>
      rcases spells with ⟨first, body, rfl, isFirst, spells⟩
      rw [Expr.isKept, Bool.and_eq_true] at kept
      have aheadBody := (ppLexNextToken_ahead bounded ahead).2.1
      have inner : After 14 e rest rest' := after.part below.1 fun _ => .inr (Nat.le_refl _)
      obtain ⟨fuel, rfl⟩ : ∃ more, fuel = more + 1 := ⟨fuel - 1, by simp at enough; omega⟩
      rcases inductionHypothesis known fits.2 grammatical.2 kept.2 (Below.sign grammatical.1) spells
        aheadBody inner
        (Nat.le_of_succ_le_succ enough) with ⟨tk, value, ran, aheadAfter, isValue⟩
      rcases @unaryValue_sign w e op value tk kept.1 fits.1 isValue with
        ⟨value', applied, isResult⟩
      rcases after.next with ⟨next, behind, rfl, isOperand⟩
      rcases @infixLoop_ends (ppReadConstantInfixExpr expand (fuel + 2)) w tk next behind precedence
        (fuel + 1) value' bounded aheadAfter isOperand with ⟨q, ended, aheadEnd⟩
      refine ⟨q, value', ?_, aheadEnd, isResult⟩
      rw [infix_sign bounded ahead kept.1 isFirst below.1, Run.bind_ok ran, Run.bind_ok applied,
        ended]
  | binary op l r left right =>
      rcases spells with ⟨before, symbol, behind, rfl, isSymbol, spellsLeft, spellsRight⟩
      rw [List.append_assoc, List.cons_append] at ahead
      simp only [Expr.isKept, Bool.and_eq_true, Bool.not_eq_true'] at kept
      rcases kept with ⟨⟨plain, notShift⟩, kept⟩
      rcases grammatical with ⟨-, tighter, -, grammatical⟩
      have isOperator : symbol.2.kind.operator = some op.opcode := by rw [isSymbol, op.operator]
      have prio : ppGetOperatorPrio op.opcode = op.level := by rw [op.prio, notShift]; rfl
      have above : precedence < op.level := below.2 (Nat.lt_succ_of_le op.level_le)
      have lengths := enough
      rw [List.length_append, List.length_cons] at lengths
      have knownLeft : l.Known w := fun name member => known name (List.mem_append_left _ member)
      have knownRight : r.Known w := fun name member => known name (List.mem_append_right _ member)
      rcases @infix_plain expand w p before (symbol :: (behind ++ rest)) precedence (fuel + 1) l
        bounded knownLeft fits.2.1 plain spellsLeft ahead (by omega) with
          ⟨tk, x, aheadSymbol, isLeft, entered⟩
      have aheadRight := (ppLexNextToken_ahead bounded aheadSymbol).2.1
      obtain ⟨fuel, rfl⟩ : ∃ more, fuel = more + 1 := ⟨fuel - 1, by omega⟩
      have inner : After op.level r rest rest' :=
        after.part (Nat.le_of_lt above) fun _ => .inl (Nat.le_refl _)
      rcases right knownRight fits.2.2 grammatical kept (Below.right tighter) spellsRight
        aheadRight inner (by omega : behind.length ≤ fuel) with ⟨tk', y, ran, aheadAfter, isRight⟩
      rcases @infixValue_binary w op l r x y tk' notShift fits.1 isLeft isRight with
        ⟨value, applied, isResult⟩
      rcases after.next with ⟨next, others, rfl, isOperand⟩
      rcases ppGetOperator_operand bounded aheadAfter isOperand with ⟨q, looked, aheadNext⟩
      rcases @infixLoop_ends (ppReadConstantInfixExpr expand (fuel + 2)) w q next others precedence
        fuel value bounded aheadNext isOperand with ⟨q', ended, aheadEnd⟩
      refine ⟨q', value, ?_, aheadEnd, isResult⟩
      rw [entered, infixLoop_takes bounded aheadSymbol isOperator (by omega), prio,
        Run.bind_ok ran, Run.bind_ok applied, Run.bind_ok looked, ended]

/-- An expression that is refused is refused whatever stands behind it. By induction on
the expression. -/
theorem infix_refused (bounded : w.heap.Bounded) (known : e.Known w) (fits : e.Fits w.isDefined)
    (grammatical : e.Grammatical) (refused : e.isRefused = true) (below : Below precedence e)
    (spells : e.Spells cells) (ahead : Ahead w p (cells ++ rest))
    (enough : cells.length ≤ fuel) :
    Refused (ppReadConstantInfixExpr expand (fuel + 2) precedence p w) := by
  induction e generalizing p cells rest precedence fuel with
  | number | defined | identifier => cases refused
  | paren e =>
      rcases spells with ⟨opening, body, closing, rfl, isOpening, isClosing, spells⟩
      have notPlain : e.isPlain = false := by simpa [Expr.isRefused] using refused
      have knownInner : e.Known w := known
      rw [List.cons_append, List.append_assoc] at ahead
      rcases infix_operand bounded ahead (by rw [isOpening]; rfl) with ⟨q, aheadQ, entered⟩
      have shorter : body.length ≤ fuel := by
        simp only [List.length_cons, List.length_append, List.length_nil] at enough
        omega
      rcases bracket_refused bounded aheadQ isOpening (operand_notPlain bounded knownInner fits
        notPlain spells (ppLexNextToken_ahead bounded aheadQ).2.1 shorter) with
        ⟨msg, location, failed⟩
      rw [entered, Run.bind_error failed]
      exact ⟨_, _, rfl⟩
  | unary op e inductionHypothesis =>
      rcases spells with ⟨first, body, rfl, isFirst, spells⟩
      cases isSign : op.isSign with
      | false =>
          have isOperand : first.2.kind.operator = none := by
            rw [isFirst]
            cases op <;> first | rfl | cases isSign
          rcases infix_operand bounded ahead isOperand with ⟨q, aheadQ, entered⟩
          have refusedHere : Refused (ppReadConstantExprOperand expand (fuel + 1) q w) := by
            apply operand_refused bounded aheadQ
            all_goals rw [isFirst]; cases op <;> exact TokenKind.noConfusion
          rcases refusedHere with ⟨msg, location, failed⟩
          rw [entered, Run.bind_error failed]
          exact ⟨_, _, rfl⟩
      | true =>
          rw [Expr.isRefused, isSign] at refused
          have aheadBody := (ppLexNextToken_ahead bounded ahead).2.1
          obtain ⟨fuel, rfl⟩ : ∃ more, fuel = more + 1 := ⟨fuel - 1, by simp at enough; omega⟩
          rcases inductionHypothesis known fits.2 grammatical.2 refused (Below.sign grammatical.1)
            spells aheadBody (Nat.le_of_succ_le_succ enough) with ⟨msg, location, failed⟩
          rw [infix_sign bounded ahead isSign isFirst below.1, Run.bind_error failed]
          exact ⟨_, _, rfl⟩
  | binary op l r left right =>
      rcases spells with ⟨before, symbol, behind, rfl, isSymbol, spellsLeft, spellsRight⟩
      rw [List.append_assoc, List.cons_append] at ahead
      rcases grammatical with ⟨looser, tighter, grammaticalLeft, grammaticalRight⟩
      have lengths := enough
      rw [List.length_append, List.length_cons] at lengths
      have knownLeft : l.Known w := fun name member => known name (List.mem_append_left _ member)
      have knownRight : r.Known w := fun name member => known name (List.mem_append_right _ member)
      rw [Expr.isRefused, Bool.or_eq_true] at refused
      rcases refused with refused | refused
      · exact left knownLeft fits.2.1 grammaticalLeft refused (below.left looser) spellsLeft ahead
          (by omega)
      · simp only [Bool.and_eq_true, Bool.not_eq_true'] at refused
        rcases refused with ⟨⟨plain, notShift⟩, refused⟩
        have isOperator : symbol.2.kind.operator = some op.opcode := by rw [isSymbol, op.operator]
        have prio : ppGetOperatorPrio op.opcode = op.level := by rw [op.prio, notShift]; rfl
        have above : precedence < op.level := below.2 (Nat.lt_succ_of_le op.level_le)
        rcases @infix_plain expand w p before (symbol :: (behind ++ rest)) precedence (fuel + 1) l
          bounded knownLeft fits.2.1 plain spellsLeft ahead (by omega) with
            ⟨tk, x, aheadSymbol, -, entered⟩
        have aheadRight := (ppLexNextToken_ahead bounded aheadSymbol).2.1
        obtain ⟨fuel, rfl⟩ : ∃ more, fuel = more + 1 := ⟨fuel - 1, by omega⟩
        rcases right knownRight fits.2.2 grammaticalRight refused (Below.right tighter) spellsRight
          aheadRight (by omega : behind.length ≤ fuel) with ⟨msg, location, failed⟩
        rw [entered, infixLoop_takes bounded aheadSymbol isOperator (by omega), prio,
          Run.bind_error failed]
        exact ⟨_, _, rfl⟩

/-- What binds as tight as a unary operator loses nothing. -/
theorem kept_or_refused (grammatical : e.Grammatical) (tight : 14 ≤ e.level) :
    e.isKept = true ∨ e.isRefused = true := by
  induction e with
  | number | defined | identifier => exact .inl rfl
  | paren e =>
      cases plain : e.isPlain with
      | true => exact .inl plain
      | false => exact .inr (by rw [Expr.isRefused, plain]; rfl)
  | unary op e inductionHypothesis =>
      cases isSign : op.isSign with
      | false => exact .inr (by rw [Expr.isRefused, isSign]; rfl)
      | true =>
          rcases inductionHypothesis grammatical.2 grammatical.1 with kept | refused
          · exact .inl (by rw [Expr.isKept, isSign, kept]; rfl)
          · exact .inr (by rw [Expr.isRefused, isSign, refused]; rfl)
  | binary op l r => exact absurd tight (by have := op.level_le; simp only [Expr.level]; omega)

/-- An operator has been lost: what is ahead is an operand that is not part of the value. -/
def Leaks (w : World) (result : Except Failure ((Ptr × Word) × World)) : Prop :=
  ∃ tk value next behind, result = .ok ((tk, value), w) ∧ Ahead w tk (next :: behind) ∧
    next.2.kind.operator = none ∧ next.2.kind ≠ .newline

theorem infixValue_total {op : Binary} {x y : Word} {tk : Ptr} (notShift : op.isShift = false)
    (loose : op.level < 13) : ∃ value, infixValue tk op.opcode x y w = .ok (value, w) := by
  have isInfix : (op.opcode.isBinary && op.opcode != .mod) = true := by
    rw [op.isBinary.1, Bool.true_and]
    exact bne_iff_ne.mpr op.isBinary.2
  rw [infixValue, if_pos isInfix]
  cases op <;> first | exact ⟨_, rfl⟩ | exact absurd loose (by decide) | cases notShift

/-- An expression that is neither read nor refused loses an operator, and what is behind
that leaks. By induction on the expression; the leak is passed on by every loop. -/
theorem infix_leaks (bounded : w.heap.Bounded) (known : e.Known w) (fits : e.Fits w.isDefined)
    (grammatical : e.Grammatical) (unsigned : e.isUnsigned = true) (notKept : e.isKept = false)
    (notRefused : e.isRefused = false) (below : Below precedence e) (spells : e.Spells cells)
    (ahead : Ahead w p (cells ++ rest)) (enough : cells.length ≤ fuel) :
    Leaks w (ppReadConstantInfixExpr expand (fuel + 2) precedence p w) := by
  induction e generalizing p cells rest precedence fuel with
  | number | defined | identifier => cases notKept
  | paren e =>
      rw [Expr.isRefused, show e.isPlain = false from notKept] at notRefused
      cases notRefused
  | unary op e =>
      rcases kept_or_refused grammatical (Nat.le_refl _) with kept | refused
      · rw [kept] at notKept
        cases notKept
      · rw [refused] at notRefused
        cases notRefused
  | binary op l r left right =>
      rcases spells with ⟨before, symbol, behind, rfl, isSymbol, spellsLeft, spellsRight⟩
      rw [List.append_assoc, List.cons_append] at ahead
      rcases grammatical with ⟨looser, tighter, grammaticalLeft, grammaticalRight⟩
      have lengths := enough
      rw [List.length_append, List.length_cons] at lengths
      have knownLeft : l.Known w := fun name member => known name (List.mem_append_left _ member)
      have knownRight : r.Known w := fun name member => known name (List.mem_append_right _ member)
      have isOperator : symbol.2.kind.operator = some op.opcode := by rw [isSymbol, op.operator]
      simp only [Expr.isUnsigned, Bool.and_eq_true, Bool.not_eq_true'] at unsigned
      rcases unsigned with ⟨⟨unsignedLeft, unsignedRight⟩, noSign⟩
      rcases spellsRight.first with ⟨next, others, isBehind, notNewline, isOperand⟩
      rw [Expr.isRefused, Bool.or_eq_false_iff] at notRefused
      cases plain : l.isPlain with
      | true =>
          rw [Expr.isKept, plain, Bool.true_and] at notKept
          rw [plain, Bool.true_and] at notRefused
          rcases @infix_plain expand w p before (symbol :: (behind ++ rest)) precedence (fuel + 1) l
            bounded knownLeft fits.2.1 plain spellsLeft ahead (by omega) with
              ⟨tk, x, aheadSymbol, -, entered⟩
          have aheadRight := (ppLexNextToken_ahead bounded aheadSymbol).2.1
          cases notShift : op.isShift with
          | true =>
              have lost : ppGetOperatorPrio op.opcode = 0 := by rw [op.prio, notShift]; rfl
              refine ⟨.cell symbol.1, x, next, others ++ rest, ?_, ?_, isOperand noSign,
                notNewline⟩
              · rw [entered, infixLoop_loses bounded aheadSymbol isOperator (.inl lost)]
              · rw [isBehind] at aheadRight
                exact aheadRight
          | false =>
              rw [notShift, Bool.not_false, Bool.true_and] at notKept notRefused
              have prio : ppGetOperatorPrio op.opcode = op.level := by
                rw [op.prio, notShift]
                rfl
              have above : precedence < op.level := below.2 (Nat.lt_succ_of_le op.level_le)
              obtain ⟨fuel, rfl⟩ : ∃ more, fuel = more + 1 := ⟨fuel - 1, by omega⟩
              rcases right knownRight fits.2.2 grammaticalRight unsignedRight notKept notRefused.2
                (Below.right tighter) spellsRight aheadRight (by omega : behind.length ≤ fuel) with
                  ⟨tk', y, leaked, later, ran, aheadLeak, leakOperand, leakLine⟩
              have loose : op.level < 13 := by
                by_contra high
                rcases kept_or_refused grammaticalRight (by omega) with kept | refused
                · rw [kept] at notKept
                  cases notKept
                · rw [refused] at notRefused
                  cases notRefused.2
              rcases @infixValue_total w op x y tk' notShift loose with ⟨value, applied⟩
              rcases ppGetOperator_operand bounded aheadLeak leakOperand with ⟨q, looked, aheadNext⟩
              rcases @infixLoop_ends (ppReadConstantInfixExpr expand (fuel + 2)) w q leaked later
                precedence fuel value bounded aheadNext leakOperand with ⟨q', ended, aheadEnd⟩
              refine ⟨q', value, leaked, later, ?_, aheadEnd, leakOperand, leakLine⟩
              rw [entered, infixLoop_takes bounded aheadSymbol isOperator (by omega), prio,
                Run.bind_ok ran, Run.bind_ok applied, Run.bind_ok looked, ended]
      | false =>
          cases kept : l.isKept with
          | true =>
              rw [isBehind] at ahead
              have level : ppGetOperatorPrio op.opcode ≤ l.level := by
                rw [op.prio]
                split_ifs
                · exact Nat.zero_le _
                · exact looser
              have after : After precedence l (symbol :: next :: (others ++ rest))
                  (next :: (others ++ rest)) :=
                .lost isOperator (.inr ⟨plain, level⟩) (isOperand noSign)
              rcases infix_kept bounded knownLeft fits.2.1 grammaticalLeft kept (below.left looser)
                spellsLeft ahead after (by omega : before.length ≤ fuel) with
                  ⟨tk, value, ran, aheadAfter, -⟩
              exact ⟨tk, value, next, _, ran, aheadAfter, isOperand noSign, notNewline⟩
          | false =>
              exact left knownLeft fits.2.1 grammaticalLeft unsignedLeft kept notRefused.1
                (below.left looser) spellsLeft ahead (by omega)

end Infix

/-! ## The whole expression -/

section Whole

variable {expand : Expand} {w : World} {p : Ptr} {newline : Nat × Token}
  {cells behind : List (Nat × Token)} {fuel : Nat} {e : Expr}

/-- The cells ahead are live. -/
theorem Ahead.readToken {cell : Nat × Token} (ahead : Ahead w p cells) (member : cell ∈ cells) :
    readToken (.cell cell.1) w = .ok (cell.2, w) := by
  rcases ahead with ⟨all, ⟨address, token, next, rfl, found, linked⟩, rfl⟩
  rcases linked.live cell (List.mem_of_mem_filter member) with ⟨behind, isLive⟩
  exact readToken_live isLive

/-- A diagnostic, or the value C gives the expression and the cursor at the newline. -/
def Right (w : World) (e : Expr) (newline : Nat × Token)
    (result : Except Failure ((Ptr × Word) × World)) : Prop :=
  Refused result ∨ ∃ value w', result = .ok ((.cell newline.1, value), w') ∧
    e.value w.isDefined = some value.toInt

/-- A conditional expression whose identifiers have left no record and whose operands have
values of `int` is read right when no operator is lost before a diagnostic; and where no
sign stands right behind a binary operator, only then. -/
theorem ppReadConstantExpr_right_iff (bounded : w.heap.Bounded) (known : e.Known w)
    (fits : e.Fits w.isDefined) (grammatical : e.Grammatical) (spells : e.Spells cells)
    (ahead : Ahead w p (cells ++ newline :: behind)) (isNewline : newline.2.kind = .newline)
    (enough : cells.length ≤ fuel) :
    (e.isKept = true ∨ e.isRefused = true →
        Right w e newline (ppReadConstantExpr expand (fuel + 2) p w)) ∧
      (e.isUnsigned = true → Right w e newline (ppReadConstantExpr expand (fuel + 2) p w) →
        e.isKept = true ∨ e.isRefused = true) := by
  have below : Below 0 e := ⟨by decide, fun _ => e.level_pos⟩
  constructor
  · rintro (kept | refused)
    · have after : After 0 e (newline :: behind) (newline :: behind) :=
        .operand (by rw [isNewline]; rfl)
      rcases infix_kept bounded known fits grammatical kept below spells ahead after enough with
        ⟨tk, value, ran, aheadLine, isValue⟩
      refine .inr ⟨value, w, ?_, isValue⟩
      rw [ppReadConstantExpr, Run.bind_ok ran]
      dsimp only
      rw [Run.bind_ok (ppLexNextToken_ahead bounded aheadLine).1]
      rfl
    · rcases infix_refused bounded known fits grammatical refused below spells ahead enough with
        ⟨msg, location, failed⟩
      refine .inl ⟨msg, location, ?_⟩
      rw [ppReadConstantExpr, Run.bind_error failed]
  · intro unsigned right
    by_contra lost
    rw [not_or, Bool.not_eq_true, Bool.not_eq_true] at lost
    rcases infix_leaks bounded known fits grammatical unsigned lost.1 lost.2 below spells ahead
      enough with ⟨tk, value, next, others, ran, aheadLeak, -, notLine⟩
    rcases ppLexNextToken_ahead bounded aheadLeak with ⟨isNext, -, isLeak⟩
    rw [ppReadConstantExpr, Run.bind_ok ran] at right
    dsimp only at right
    rw [Run.bind_ok isNext] at right
    rcases right with ⟨msg, location, failed⟩ | ⟨value', w', returned, -⟩
    · cases failed
    · rw [Run.pure_eq, Except.ok.injEq, Prod.mk.injEq, Prod.mk.injEq] at returned
      have isLine := ahead.readToken (List.mem_append_right cells List.mem_cons_self)
      rw [← returned.1.1, isLeak, Except.ok.injEq, Prod.mk.injEq] at isLine
      rw [isLine.1] at notLine
      exact notLine isNewline

end Whole

/-! ## Two conditions -/

/-- A literal of one digit other than zero. -/
def digit (text : String) (c : Char) (isText : text.toList = [c])
    (isDigit : c ≠ '0' ∧ c.isDigit = true) : Expr :=
  .number text (digitOf c) (by
    rw [isText]
    have denotes := @Denotes.decimal c [] isDigit.1 (by simpa using isDigit.2)
    simpa [numberOf] using denotes)

/-- `1 + 2 * 3` -/
def ascendingExpr : Expr :=
  .binary .add (digit "1" '1' rfl (by decide))
    (.binary .mul (digit "2" '2' rfl (by decide)) (digit "3" '3' rfl (by decide)))

/-- `1 + 2 + 3` -/
def levelExpr : Expr :=
  .binary .add (.binary .add (digit "1" '1' rfl (by decide)) (digit "2" '2' rfl (by decide)))
    (digit "3" '3' rfl (by decide))

/-- The line `#if 1 + 2 * 3`, or with the given token in place of the product sign. -/
def conditionText (kind : TokenKind) : List Token :=
  [lineToken .cppdIf "", lineToken .numeric "1", lineToken .plus "", lineToken .numeric "2",
    lineToken kind "", lineToken .numeric "3", lineToken .newline "", lineToken .eof ""]

/-- The tokens of the expression. -/
def conditionCells (kind : TokenKind) : List (Nat × Token) :=
  [(1, lineToken .numeric "1"), (2, lineToken .plus ""), (3, lineToken .numeric "2"),
    (4, lineToken kind ""), (5, lineToken .numeric "3")]

theorem conditionText_ahead {kind : TokenKind} (isOperator : kind = .asterisk ∨ kind = .plus) :
    Ahead (textWorld (conditionText kind)) (.cell 0)
      (conditionCells kind ++ [(6, lineToken .newline ""), (7, lineToken .eof "")]) := by
  rcases linked_ofList (lineToken .cppdIf "") (conditionText kind).tail with
    ⟨isFirst, next, found, linked⟩
  refine ⟨_, ⟨0, lineToken .cppdIf "", next, isFirst, found, linked⟩, ?_⟩
  rcases isOperator with rfl | rfl
  · rfl
  · rfl

/-- The condition `1 + 2 * 3` is read right. -/
theorem ascendingExpr_right :
    Right (textWorld (conditionText .asterisk)) ascendingExpr (6, lineToken .newline "")
      (ppReadConstantExpr (fun _ _ => Run.fail .outOfFuel) 7 (.cell 0)
        (textWorld (conditionText .asterisk))) := by
  have small : ∀ v : Int, 0 ≤ v → v < 8 → IsInt v := fun v low high => ⟨by omega, by omega⟩
  exact (@ppReadConstantExpr_right_iff _ (textWorld (conditionText .asterisk)) (.cell 0)
    (6, lineToken .newline "") (conditionCells .asterisk) [(7, lineToken .eof "")] 5 ascendingExpr
    (Heap.ofList_bounded _) (by rintro name ⟨⟩)
    ⟨⟨7, by decide +kernel, small 7 (by decide) (by decide)⟩,
    ⟨1, by decide +kernel, small 1 (by decide) (by decide)⟩,
      ⟨6, by decide +kernel, small 6 (by decide) (by decide)⟩,
      ⟨2, by decide +kernel, small 2 (by decide) (by decide)⟩,
      ⟨3, by decide +kernel, small 3 (by decide) (by decide)⟩⟩
    ⟨by decide, by decide, trivial, by decide, by decide, trivial, trivial⟩
    ⟨[(1, lineToken .numeric "1")], (2, lineToken .plus ""), _, rfl, rfl, ⟨_, rfl, rfl, rfl⟩,
      [(3, lineToken .numeric "2")], (4, lineToken .asterisk ""), _, rfl, rfl, ⟨_, rfl, rfl, rfl⟩,
      ⟨_, rfl, rfl, rfl⟩⟩
    (conditionText_ahead (.inl rfl)) rfl (Nat.le_refl 5)).1 (.inl rfl)

/-- The condition `1 + 2 + 3` is read as 3, and the last operand is left over. -/
theorem levelExpr_leaks :
    ¬ ∀ (expand : Expand) (w : World) (p : Ptr) (cells behind : List (Nat × Token))
      (newline : Nat × Token) (e : Expr) (fuel : Nat), w.heap.Bounded →
      (∀ name ∈ e.names, w.isDefined name = false) → e.Grammatical →
      (∃ v, e.value w.isDefined = some v) → e.Spells cells →
      Ahead w p (cells ++ newline :: behind) → newline.2.kind = .newline →
      cells.length ≤ fuel → Right w e newline (ppReadConstantExpr expand (fuel + 2) p w) := by
  intro claimed
  have right := claimed (fun _ _ => Run.fail .outOfFuel) (textWorld (conditionText .plus))
    (.cell 0) (conditionCells .plus) [(7, lineToken .eof "")] (6, lineToken .newline "") levelExpr 5
    (Heap.ofList_bounded _) (by rintro name ⟨⟩)
    ⟨by decide, by decide, ⟨by decide, by decide, trivial, trivial⟩, trivial⟩ ⟨6, by decide +kernel⟩
    ⟨[(1, lineToken .numeric "1"), (2, lineToken .plus ""), (3, lineToken .numeric "2")],
      (4, lineToken .plus ""), _, rfl, rfl,
      ⟨[(1, lineToken .numeric "1")], (2, lineToken .plus ""), _, rfl, rfl, ⟨_, rfl, rfl, rfl⟩,
        ⟨_, rfl, rfl, rfl⟩⟩, ⟨_, rfl, rfl, rfl⟩⟩
    (conditionText_ahead (.inr rfl)) rfl (Nat.le_refl 5)
  have read : ppReadConstantExpr (fun _ _ => Run.fail .outOfFuel) 7 (.cell 0)
      (textWorld (conditionText .plus)) =
        .ok ((.cell 5, 3), textWorld (conditionText .plus)) := rfl
  rw [read] at right
  rcases right with ⟨msg, location, failed⟩ | ⟨value, w', returned, -⟩
  · cases failed
  · cases returned

end Shecc.Preprocessor
