import Shecc.Optimize.Fold
import Shecc.Arm.Arithmetic
import Shecc.RiscV.Arithmetic

/-!
# Folding and running

What the compiler computes for an operator on constants against what the code of both back
ends computes for it. They agree where the compiler's own arithmetic is defined, except for
a quotient of a number by itself: the emulated division of ARM may have both in one
register.
-/

namespace Shecc.Optimize

/-- The operators `read_expr` folds. -/
def foldedByParser : Opcode → Bool
  | .add | .sub | .mul | .div | .mod | .bitAnd | .bitOr | .bitXor | .lshift | .rshift
  | .eq | .neq | .lt | .leq | .gt | .geq => true
  | _ => false

variable (undefined : Opcode → Word → Word → Word)

/-- The folding of `read_expr`, on the values of its operands. A zero counts as no
constant, so that the divisor is tested once more for nothing. -/
def readExprFold (op : Opcode) (l r : Word) : Option Word :=
  if l ≠ 0 ∧ r ≠ 0 then
    if foldedByParser op = false then none
    else if (op = .div ∨ op = .mod) ∧ r = 0 then none
    else some ((op.binary l r).getD (undefined op l r))
  else none

/-- Where the compiler evaluates an operator. -/
inductive Evaluator
  | evalConstArithmetic
  | evalConstUnary
  | readExpr

/-- What an evaluator makes of an operator, if it folds it. A unary operator has one
operand only. -/
def Evaluator.fold : Evaluator → Opcode → Word → Word → Option Word
  | evalConstArithmetic, op, l, r => foldBinary undefined op l r
  | evalConstUnary, op, x, _ => op.unary x
  | readExpr, op, l, r => readExprFold undefined op l r

/-- The arithmetic of the compiler is defined for the operator. It wraps, as the compiler
is built that way. -/
def HostDefined (op : Opcode) (l r : Word) : Prop :=
  (op.binary l r).isSome ∨ (op.unary l).isSome

/-- The compiler may compute the result, and both back ends compute the same one,
wherever the code is and in whatever registers the operands are. -/
structure Agrees (hardMulDiv : Bool) (op : Opcode) (l r res : Word) : Prop where
  isDefined : HostDefined op l r
  arm : ∀ site : Arm.Site hardMulDiv op l r, site.Yields res
  riscV : ∀ site : RiscV.Site hardMulDiv op l r, site.Yields res

/-- A shift is by less than the bits of a word, a division does not overflow, and without
the instruction for it no negative number but the smallest is divided by itself. -/
structure Ordinary (hardMulDiv : Bool) (op : Opcode) (l r : Word) : Prop where
  shift : op = .lshift ∨ op = .rshift → r.toNat < 32
  division : op = .div ∨ op = .mod → ¬(l = Word.intMin ∧ r = -1)
  self : hardMulDiv = false → op = .div → l = r → 0 ≤ l.toInt ∨ l = Word.intMin

variable {undefined} {evaluator : Evaluator} {op : Opcode} {l r res : Word} {hardMulDiv : Bool}

theorem foldedByParser_isBinary (folded : foldedByParser op = true) : op.isBinary = true := by
  cases op <;> first | rfl | cases folded

/-- Every evaluator computes the operator where its arithmetic is defined, and divides by no
zero. -/
theorem Evaluator.fold_cases (folded : evaluator.fold undefined op l r = some res) :
    (op.isBinary = true ∧ (op = .div ∨ op = .mod → r ≠ 0) ∧
      res = (op.binary l r).getD (undefined op l r)) ∨ op.unary l = some res := by
  cases evaluator with
  | evalConstUnary => exact .inr folded
  | evalConstArithmetic =>
      left
      change foldBinary undefined op l r = some res at folded
      rw [foldBinary] at folded
      split at folded
      · cases folded
      · rename_i binary
        split at folded
        · cases folded
        · rename_i noZero
          exact ⟨by simpa using binary, fun isDivision isZero => noZero ⟨isDivision, isZero⟩,
            (Option.some.inj folded).symm⟩
  | readExpr =>
      left
      change readExprFold undefined op l r = some res at folded
      rw [readExprFold, Option.ite_none_right_eq_some] at folded
      rcases folded with ⟨nonzero, folded⟩
      split at folded
      · cases folded
      · rename_i foldable
        split at folded
        · cases folded
        · exact ⟨foldedByParser_isBinary (by simpa using foldable), fun _ => nonzero.2,
            (Option.some.inj folded).symm⟩

/-- An ordinary binary operator has a value. -/
theorem Ordinary.isSome (ordinary : Ordinary hardMulDiv op l r) (isBinary : op.isBinary = true)
    (noZero : op = .div ∨ op = .mod → r ≠ 0) : (op.binary l r).isSome = true := by
  have shift := ordinary.shift
  have division := ordinary.division
  cases op <;> first
    | exact absurd isBinary (by decide)
    | rfl
    | skip
  case div =>
    rw [Opcode.binary, if_pos ⟨noZero (.inl rfl), division (.inl rfl)⟩]
    rfl
  case mod =>
    rw [Opcode.binary, if_pos ⟨noZero (.inr rfl), division (.inr rfl)⟩]
    rfl
  case lshift =>
    rw [Opcode.binary, if_pos (shift (.inl rfl))]
    rfl
  case rshift =>
    rw [Opcode.binary, if_pos (shift (.inr rfl))]
    rfl

/-- An operator that has no value is not ordinary. -/
theorem ordinary_of_isSome (isSome : (op.binary l r).isSome = true) :
    (op = .lshift ∨ op = .rshift → r.toNat < 32) ∧
      (op = .div ∨ op = .mod → ¬(l = Word.intMin ∧ r = -1)) := by
  constructor
  · rintro (rfl | rfl)
    all_goals
      rw [Opcode.binary, Option.isSome_ite] at isSome
      exact isSome
  · rintro (rfl | rfl)
    all_goals
      rw [Opcode.binary, Option.isSome_ite] at isSome
      exact isSome.2

/-- The emulated division of ARM on a register and itself. -/
def selfDivision (l : Word) : Arm.Site false .div l l where
  env := Arm.smallEnv
  p := Arm.plainProgram
  elfOffset := fun _ => 0
  size := 0
  ir := { op := .div }
  insns := Arm.softDiv true 0 0 0
  fetch := Execution.store Arm.Insn.encode 0#32 (Arm.softDiv true 0 0 0)
  base := 0#32
  state := { Arm.clearState with reg := fun _ => l }
  option := rfl
  operator := rfl
  emitted := rfl
  loaded := Arm.loaded_of_valid 0#32 (by decide)
    (Arm.softDiv_valid (by decide) (by decide) (by decide))
  dest := by decide
  src0 := by decide
  left := rfl
  src1 := fun _ => by decide
  right := fun _ => rfl

/-- Without the instruction for it, what is divided by itself on ARM must not be negative,
but for the smallest number. -/
theorem selfDivision_yields (nonzero : l ≠ 0#32)
    (yields : (selfDivision l).Yields (Word.truncated false l l)) :
    0 ≤ l.toInt ∨ l = Word.intMin := by
  have isAllocated : Arm.IsAllocated 0 := by decide
  rcases yields with ⟨s', ran, isQuotient⟩
  rcases @Arm.softDiv_reaches _ _ _ _ isAllocated isAllocated isAllocated _ _
    (selfDivision l).loaded (selfDivision l).state nonzero with
    ⟨s'', result, -, only, -, isResult, value⟩
  rw [only s' ran] at isQuotient
  exact (Arm.SoftDiv.result_eq_iff nonzero (fun _ => rfl) value).mp
    (isResult.symm.trans isQuotient) rfl rfl

/-- What the compiler computes for an operator on constants is what the code of both back
ends computes, exactly for ordinary operands. -/
theorem folding_agrees_iff (folded : evaluator.fold undefined op l r = some res) :
    Agrees hardMulDiv op l r res ↔ Ordinary hardMulDiv op l r := by
  rcases Evaluator.fold_cases folded with ⟨isBinary, noZero, isRes⟩ | isUnary
  · constructor
    · intro agrees
      have isSome : (op.binary l r).isSome = true := by
        rcases agrees.isDefined with isSome | isUnary
        · exact isSome
        · have notUnary := Opcode.isUnary_of_isBinary isBinary
          rcases Option.isSome_iff_exists.mp isUnary with ⟨w, value⟩
          rw [Opcode.isUnary_of_unary_eq_some value] at notUnary
          cases notUnary
      rcases ordinary_of_isSome isSome with ⟨shift, division⟩
      refine ⟨shift, division, ?_⟩
      rintro rfl rfl rfl
      apply selfDivision_yields (noZero (.inl rfl))
      rcases Option.isSome_iff_exists.mp isSome with ⟨w, value⟩
      rw [value, Option.getD_some] at isRes
      have isQuotient := (Opcode.truncated_of_binary (.inl rfl) value).2
      have yields := agrees.arm (selfDivision l)
      rwa [isRes, isQuotient] at yields
    · intro ordinary
      have isSome := ordinary.isSome isBinary noZero
      rcases Option.isSome_iff_exists.mp isSome with ⟨w, value⟩
      rw [value, Option.getD_some] at isRes
      rw [← isRes] at value
      refine ⟨.inl isSome, ?_, fun site => site.yields_binary value⟩
      intro site
      apply site.yields_binary value
      intro soft isDiv same
      apply ordinary.self soft isDiv
      exact site.left.symm.trans ((congrArg site.state.reg same).trans (site.right isBinary))
  · have isUnaryOp := Opcode.isUnary_of_unary_eq_some isUnary
    refine iff_of_true ⟨.inr (by rw [isUnary]; rfl), fun site => site.yields_unary isUnary,
      fun site => site.yields_unary isUnary⟩ ⟨?_, ?_, ?_⟩
    · rintro (rfl | rfl) <;> cases isUnaryOp
    · rintro (rfl | rfl) <;> cases isUnaryOp
    · rintro - rfl
      cases isUnaryOp

/-- The smallest number modulo seven. -/
theorem intMin_agrees :
    Agrees false .mod Word.intMin 7#32 (Word.intMin.srem 7#32) :=
  (@folding_agrees_iff (fun _ _ _ => 0) .evalConstArithmetic .mod Word.intMin 7#32 _ false
    (by decide)).mpr ⟨by decide, by decide, by decide⟩

/-- A shift by 32 on ARM. -/
def armShift : Arm.Site false .lshift 1#32 32#32 where
  env := Arm.smallEnv
  p := Arm.plainProgram
  elfOffset := fun _ => 0
  size := 0
  ir := { op := .lshift, src1 := 1 }
  insns := [.sll .al 0 0 1]
  fetch := Execution.store Arm.Insn.encode 0#32 [.sll .al 0 0 1]
  base := 0#32
  state := { Arm.clearState with reg := fun r => if r = 0 then 1#32 else 32#32 }
  option := rfl
  operator := rfl
  emitted := rfl
  loaded := Arm.loaded_of_valid 0#32 (by decide) (by simp [Arm.Insn.Valid]; decide)
  dest := by decide
  src0 := by decide
  left := rfl
  src1 := fun _ => by decide
  right := fun _ => rfl

/-- A shift by 32 on RISC-V. -/
def riscVShift : RiscV.Site false .lshift 1#32 32#32 where
  env := RiscV.smallEnv
  p := RiscV.branchingProgram
  elfOffset := fun _ => 0
  size := 0
  ir := { op := .lshift, src1 := 1 }
  insns := [.sll 10 10 11]
  fetch := Execution.store RiscV.Insn.encode 0#32 [.sll 10 10 11]
  base := 0#32
  regs := fun r => if r = 10 then 1#32 else 32#32
  option := rfl
  operator := rfl
  emitted := rfl
  loaded := RiscV.loaded_of_valid 0#32 (by decide)
    (by simp [RiscV.Insn.Valid, RiscV.Op.isa]; decide)
  dest := by decide
  src0 := by decide
  left := rfl
  src1 := fun _ => by decide
  right := fun _ => rfl

theorem armShift_yields : armShift.Yields 0#32 := by
  have valid : (Arm.Insn.sll .al 0 0 1).Valid := by
    simp [Arm.Insn.Valid]
    decide
  exact Arm.Site.yields_operation rfl valid rfl (by decide) (Arm.effect_sll ..)

theorem riscVShift_yields : riscVShift.Yields 1#32 :=
  RiscV.Site.yields_alu rfl rfl (by decide) (by decide) rfl

/-- The back ends shift by 32 differently, whatever the compiler computes. -/
theorem shift_differs {w : Word} (arm : armShift.Yields w) : ¬riscVShift.Yields w := by
  intro riscV
  rcases arm with ⟨s, ran, isResult⟩
  rcases armShift_yields with ⟨s', ran', isZero⟩
  cases Execution.Processor.Reaches.unique (by decide) ran ran'
  rcases riscV with ⟨h, ran, isResult'⟩
  rcases riscVShift_yields with ⟨h', ran', isOne⟩
  cases Execution.Processor.Reaches.unique (by decide) ran ran'
  have same : (0#32 : Word) = 1#32 := (isZero.symm.trans isResult).trans
    (isResult'.symm.trans isOne)
  exact absurd same (by decide)

/-- The parser folds the shift all the same. -/
theorem shift_disagrees :
    ¬∀ (undefined : Opcode → Word → Word → Word) (evaluator : Evaluator) (hardMulDiv : Bool)
      (op : Opcode) (l r res : Word), evaluator.fold undefined op l r = some res →
        Agrees hardMulDiv op l r res := by
  intro claimed
  have agrees := claimed (fun _ _ _ => 0) .readExpr false .lshift 1#32 32#32 0 (by decide)
  exact shift_differs (agrees.arm armShift) (agrees.riscV riscVShift)

end Shecc.Optimize
