import Shecc.Peephole.Fusion

/-!
# Simplifications

`algebraic_simplification` and `comparison_optimization` rewrite an instruction whose
operands are one register, `bitwise_optimization` a pair. On a loaded constant the last
rewrites the second instruction of the pair and then unlinks it, so that its destination
keeps what the first leaves there.
-/

namespace Shecc.Peephole

/-- The instruction as the load of a constant. -/
def toConstant (ir : Ph2Ir) (value : Int) : Ph2Ir :=
  { ir with op := .loadConstant, src0 := value, src1 := 0 }

/-- The instruction as a copy of its first operand. -/
def toCopy (ir : Ph2Ir) : Ph2Ir :=
  { ir with op := .assign, src1 := 0 }

/-- `algebraic_simplification`. -/
def algebraicSimplification (ir : Ph2Ir) : Option Ph2Ir :=
  if ir.op = .sub ∧ ir.src0 = ir.src1 then some (toConstant ir 0)
  else if ir.op = .bitXor ∧ ir.src0 = ir.src1 then some (toConstant ir 0)
  else if ir.op = .bitOr ∧ ir.src0 = ir.src1 then some (toCopy ir)
  else if ir.op = .bitAnd ∧ ir.src0 = ir.src1 then some (toCopy ir)
  else none

/-- `comparison_optimization`. -/
def comparisonOptimization (ir : Ph2Ir) : Option Ph2Ir :=
  if ir.op = .neq ∧ ir.src0 = ir.src1 then some (toConstant ir 0)
  else if ir.op = .eq ∧ ir.src0 = ir.src1 then some (toConstant ir 1)
  else if ir.op = .lt ∧ ir.src0 = ir.src1 then some (toConstant ir 0)
  else if ir.op = .gt ∧ ir.src0 = ir.src1 then some (toConstant ir 0)
  else if ir.op = .leq ∧ ir.src0 = ir.src1 then some (toConstant ir 1)
  else if ir.op = .geq ∧ ir.src0 = ir.src1 then some (toConstant ir 1)
  else none

/-- The two instructions of a pattern after it is applied. -/
structure Rewritten where
  ir : Ph2Ir
  next : Ph2Ir
  unlinksNext : Bool

/-- The instructions that are left in the list. -/
def Rewritten.left (rewritten : Rewritten) : List Ph2Ir :=
  if rewritten.unlinksNext then [rewritten.ir] else [rewritten.ir, rewritten.next]

/-- `bitwise_optimization`. -/
def bitwiseOptimization (ir next : Ph2Ir) : Option Rewritten :=
  if ir.op = .negate ∧ next.op = .negate ∧ next.src0 = ir.dest then
    some ⟨{ ir with op := .assign, dest := next.dest }, next, true⟩
  else if ir.op = .loadConstant ∧ ir.src0 = -1 ∧ next.op = .bitAnd ∧ next.src1 = ir.dest then
    some ⟨ir, toCopy next, true⟩
  else if ir.op = .loadConstant ∧ ir.src0 = 0 ∧ next.op = .bitOr ∧ next.src1 = ir.dest then
    some ⟨ir, toCopy next, true⟩
  else if ir.op = .loadConstant ∧ ir.src0 = 0 ∧ next.op = .bitXor ∧ next.src1 = ir.dest then
    some ⟨ir, toCopy next, true⟩
  else if ir.op = .loadConstant ∧ ir.src0 = 0 ∧ next.op = .bitAnd ∧
      (next.src0 = ir.dest ∨ next.src1 = ir.dest) then
    some ⟨ir, toConstant next 0, true⟩
  else if ir.op = .loadConstant ∧ ir.src0 = -1 ∧ next.op = .bitOr ∧
      (next.src0 = ir.dest ∨ next.src1 = ir.dest) then
    some ⟨ir, toConstant next (-1), true⟩
  else if ir.op = .loadConstant ∧ ir.src0 = 0 ∧ (next.op = .lshift ∨ next.op = .rshift) ∧
      next.src1 = ir.dest then
    some ⟨ir, toCopy next, true⟩
  else
    none

/-- A pattern of one instruction. -/
def singleRule (pattern : Ph2Ir → Option Ph2Ir) : Rule
  | ir :: _ => (pattern ir).map fun ir' => ⟨1, [ir']⟩
  | _ => none

/-- The optimisations of this file. -/
def simplifications : List Rule :=
  [singleRule comparisonOptimization, singleRule algebraicSimplification,
    pairRule fun ir next => (bitwiseOptimization ir next).map Rewritten.left]

/-! ## What the patterns are -/

/-- The instructions whose operands are one register: an operation that has the same value for
all words, and one that keeps the word. -/
inductive Selfwise (ir : Ph2Ir) : Ph2Ir → Prop where
  | constant {value : Int} (same : ir.src0 = ir.src1)
      (constant : ∀ x, ir.op.binary x x = some (BitVec.ofInt 32 value)) :
      Selfwise ir (toConstant ir value)
  | copy (same : ir.src0 = ir.src1) (idempotent : ∀ x, ir.op.binary x x = some x) :
      Selfwise ir (toCopy ir)

/-- The operation with the constant is the constant, whatever the other operand is. -/
def Absorbs (ir next : Ph2Ir) : Prop :=
  ir.src0 = 0 ∧ next.op = .bitAnd ∨ ir.src0 = -1 ∧ next.op = .bitOr

/-- The pairs: two negations, an operation for which the constant is neutral, and one that the
constant absorbs. -/
inductive Bitwise (ir next : Ph2Ir) : Rewritten → Prop where
  | double (isNegate : ir.op = .negate) (isNegate' : next.op = .negate)
      (operand : next.src0 = ir.dest) :
      Bitwise ir next ⟨{ ir with op := .assign, dest := next.dest }, next, true⟩
  | neutral (isConstant : ir.op = .loadConstant) (second : next.src1 = ir.dest)
      (neutral : ∀ x, next.op.binary x ir.imm = some x) (notAbsorbing : ¬Absorbs ir next) :
      Bitwise ir next ⟨ir, toCopy next, true⟩
  | absorbing (isConstant : ir.op = .loadConstant)
      (operand : next.src0 = ir.dest ∨ next.src1 = ir.dest)
      (absorbing : ∀ x, next.op.binary x ir.imm = some ir.imm ∧
        next.op.binary ir.imm x = some ir.imm) (absorbs : Absorbs ir next) :
      Bitwise ir next ⟨ir, toConstant next ir.src0, true⟩

variable {P : Platform} {ir ir' next : Ph2Ir} {rest code : List Ph2Ir} {rewritten : Rewritten}
  {rule : Rule} {rewrite : Rewrite}

theorem bitwiseOptimization_bitwise (applied : bitwiseOptimization ir next = some rewritten) :
    Bitwise ir next rewritten := by
  have zero (isZero : ir.src0 = 0) : ir.imm = 0 := by rw [Ph2Ir.imm, isZero]; rfl
  have ones (isOnes : ir.src0 = -1) : ir.imm = BitVec.allOnes 32 := by
    rw [Ph2Ir.imm, isOnes]
    decide
  unfold bitwiseOptimization at applied
  split_ifs at applied with double maskAnd zeroOr zeroXor zeroAnd onesOr shift
  all_goals obtain rfl := Option.some.inj applied
  · exact .double double.1 double.2.1 double.2.2
  · rcases maskAnd with ⟨isConstant, isOnes, isAnd, second⟩
    refine .neutral isConstant second (fun x => ?_) ?_
    · rw [ones isOnes, isAnd, Opcode.binary, BitVec.and_allOnes]
    · simp [Absorbs, isOnes, isAnd]
  · rcases zeroOr with ⟨isConstant, isZero, isOr, second⟩
    refine .neutral isConstant second (fun x => ?_) ?_
    · simp [zero isZero, isOr, Opcode.binary]
    · simp [Absorbs, isZero, isOr]
  · rcases zeroXor with ⟨isConstant, isZero, isXor, second⟩
    refine .neutral isConstant second (fun x => ?_) ?_
    · simp [zero isZero, isXor, Opcode.binary]
    · simp [Absorbs, isXor]
  · rcases zeroAnd with ⟨isConstant, isZero, isAnd, operand⟩
    rw [← isZero]
    refine .absorbing isConstant operand (fun x => ?_) (.inl ⟨isZero, isAnd⟩)
    simp [zero isZero, isAnd, Opcode.binary]
  · rcases onesOr with ⟨isConstant, isOnes, isOr, operand⟩
    rw [← isOnes]
    refine .absorbing isConstant operand (fun x => ?_) (.inr ⟨isOnes, isOr⟩)
    rw [ones isOnes, isOr, Opcode.binary, Opcode.binary, BitVec.or_allOnes, BitVec.allOnes_or]
    exact ⟨rfl, rfl⟩
  · rcases shift with ⟨isConstant, isZero, isShift, second⟩
    refine .neutral isConstant second (fun x => ?_) ?_
    · rcases isShift with isLeft | isRight
      · simp [zero isZero, isLeft, Opcode.binary]
      · simp [zero isZero, isRight, Opcode.binary]
    · rcases isShift with isLeft | isRight
      · simp [Absorbs, isLeft]
      · simp [Absorbs, isRight]

theorem algebraicSimplification_selfwise (simplified : algebraicSimplification ir = some ir') :
    Selfwise ir ir' := by
  unfold algebraicSimplification at simplified
  split_ifs at simplified with isSub isXor isOr isAnd
  all_goals obtain rfl := Option.some.inj simplified
  · exact .constant isSub.2 fun x => by simp [isSub.1, Opcode.binary]
  · exact .constant isXor.2 fun x => by simp [isXor.1, Opcode.binary]
  · exact .copy isOr.2 fun x => by simp [isOr.1, Opcode.binary]
  · exact .copy isAnd.2 fun x => by simp [isAnd.1, Opcode.binary]

theorem comparisonOptimization_selfwise (compared : comparisonOptimization ir = some ir') :
    Selfwise ir ir' := by
  unfold comparisonOptimization at compared
  split_ifs at compared with isNeq isEq isLt isGt isLeq isGeq
  all_goals obtain rfl := Option.some.inj compared
  · exact .constant isNeq.2 fun x => by simp [isNeq.1, Opcode.binary, Word.ofBool]
  · exact .constant isEq.2 fun x => by simp [isEq.1, Opcode.binary, Word.ofBool]
  · exact .constant isLt.2 fun x => by simp [isLt.1, Opcode.binary, Word.ofBool, BitVec.slt]
  · exact .constant isGt.2 fun x => by simp [isGt.1, Opcode.binary, Word.ofBool, BitVec.slt]
  · exact .constant isLeq.2 fun x => by simp [isLeq.1, Opcode.binary, Word.ofBool, BitVec.sle]
  · exact .constant isGeq.2 fun x => by simp [isGeq.1, Opcode.binary, Word.ofBool, BitVec.sle]

theorem givesValue_of_binary {op : Opcode} {x y w : Word} (value : op.binary x y = some w) :
    op.givesValue = true ∧ op ≠ .loadConstant := by
  have isBinary := Opcode.isBinary_of_binary_eq_some value
  revert isBinary
  cases op <;> simp [Opcode.isBinary, Opcode.givesValue]

/-! ## What the destination holds -/

/-- From every state at the position, the destination of the last instruction of the pattern
gets the value it got in the original list. -/
def KeepsDest (P : Platform) (code : List Ph2Ir) (rewrite : Rewrite) : Prop :=
  ∀ s last, s.outcome = none → (code.take rewrite.count).getLast? = some last →
    (P.run rewrite.left s).reg last.dest = (P.run (code.take rewrite.count) s).reg last.dest

/-- The instruction that was rewritten at this position is unlinked. -/
def UnlinksRewritten : List Ph2Ir → Prop
  | ir :: next :: _ => ∃ rewritten, bitwiseOptimization ir next = some rewritten ∧
      rewritten.next ≠ next ∧ rewritten.unlinksNext = true
  | _ => False

/-- A constant is loaded here. -/
def LoadsConstant : List Ph2Ir → Prop
  | ir :: _ => ir.op = .loadConstant
  | [] => False

/-- The destination is the register of a constant that is the value, or the operand that is
the value. -/
def DestHolds : List Ph2Ir → Prop
  | ir :: next :: _ => ir.op = .loadConstant →
      (Absorbs ir next → next.dest = ir.dest) ∧ (¬Absorbs ir next → next.dest = next.src0)
  | _ => True

theorem Selfwise.keepsDest (selfwise : Selfwise ir ir') : KeepsDest P (ir :: rest) ⟨1, [ir']⟩ := by
  intro s last running isLast
  obtain rfl : ir = last := by simpa using isLast
  have same : ir'.op.givesValue = true ∧ ir'.dest = ir.dest ∧ P.value s ir' = P.value s ir ∧
      ir.op.givesValue = true := by
    cases selfwise with
    | constant same constant =>
        refine ⟨rfl, rfl, ?_, (givesValue_of_binary (constant 0)).1⟩
        have value := constant (s.reg ir.src0)
        exact (value_of_binary (same ▸ value)).symm
    | copy same idempotent =>
        refine ⟨rfl, rfl, ?_, (givesValue_of_binary (idempotent 0)).1⟩
        have value := idempotent (s.reg ir.src0)
        exact (value_of_binary (same ▸ value)).symm
  rcases same with ⟨gives', sameDest, value, gives⟩
  simp only [List.take_succ_cons, List.take_zero, Platform.run_cons, Platform.run_nil,
    Platform.step_of_givesValue running gives', Platform.step_of_givesValue running gives,
    sameDest, value]

theorem Selfwise.notConstant (selfwise : Selfwise ir ir') : ir.op ≠ .loadConstant := by
  cases selfwise with
  | constant same constant => exact (givesValue_of_binary (constant 0)).2
  | copy same idempotent => exact (givesValue_of_binary (idempotent 0)).2

/-- Two negations cancel. -/
theorem double_keepsDest (isNegate : ir.op = .negate) (isNegate' : next.op = .negate)
    (operand : next.src0 = ir.dest) :
    KeepsDest P (ir :: next :: rest) ⟨2, [{ ir with op := .assign, dest := next.dest }]⟩ := by
  intro s last running isLast
  obtain rfl : next = last := by simpa using isLast
  have gives : ir.op.givesValue = true := by rw [isNegate]; rfl
  have gives' : next.op.givesValue = true := by rw [isNegate']; rfl
  have value : P.value s ir = -s.reg ir.src0 := by rw [Platform.value, isNegate]; rfl
  have value' (t : Machine) : P.value t next = -t.reg ir.dest := by
    rw [Platform.value, isNegate', ← operand]
    rfl
  have still : (s.setReg ir.dest (P.value s ir)).outcome = none := running
  simp only [List.take_succ_cons, List.take_zero, Platform.run_cons, Platform.run_nil]
  rw [Platform.step_of_givesValue running rfl, Platform.step_of_givesValue running gives,
    Platform.step_of_givesValue still gives', value', value]
  simp [Platform.value]

/-- The value of the pair is what the second operand's register or the first's holds. -/
theorem loaded_keepsDest_iff {w : Machine → Word} (isConstant : ir.op = .loadConstant)
    (value : ∀ s, next.op.binary ((s.setReg ir.dest ir.imm).reg next.src0)
      ((s.setReg ir.dest ir.imm).reg next.src1) = some (w s)) :
    KeepsDest P (ir :: next :: rest) ⟨2, [ir]⟩ ↔
      ∀ s, s.outcome = none → (s.setReg ir.dest ir.imm).reg next.dest = w s := by
  have loads (s : Machine) (running : s.outcome = none) :
      P.run [ir] s = s.setReg ir.dest ir.imm := by
    rw [Platform.run_cons, Platform.run_nil, Platform.step_of_givesValue running]
    · rw [Platform.value, isConstant]
    · rw [isConstant]
      rfl
  have pair (s : Machine) (running : s.outcome = none) :
      P.run [ir, next] s = (s.setReg ir.dest ir.imm).setReg next.dest (w s) :=
    run_constant isConstant (givesValue_of_binary (value s)).1 running (value_of_binary (value s))
  constructor
  · intro keeps s running
    have same := keeps s next running (by simp)
    simp only [List.take_succ_cons, List.take_zero] at same
    rwa [loads s running, pair s running, Machine.setReg_same] at same
  · intro holds s last running isLast
    obtain rfl : next = last := by simpa using isLast
    simp only [List.take_succ_cons, List.take_zero]
    rw [loads s running, pair s running, Machine.setReg_same, holds s running]

/-- A copied operand is in the destination if it is the destination. -/
theorem neutral_keepsDest_iff (isConstant : ir.op = .loadConstant) (second : next.src1 = ir.dest)
    (neutral : ∀ x, next.op.binary x ir.imm = some x) :
    KeepsDest P (ir :: next :: rest) ⟨2, [ir]⟩ ↔ next.dest = next.src0 := by
  rw [loaded_keepsDest_iff isConstant (fun s => by
    rw [second, Machine.setReg_same]
    exact neutral _)]
  constructor
  · intro holds
    by_contra differs
    by_cases isDest : next.dest = ir.dest
    · have same := holds (machineWith fun _ => ir.imm + 1) rfl
      rw [isDest, Machine.setReg_same,
        Machine.setReg_ne _ _ (isDest ▸ Ne.symm differs)] at same
      exact add_one_ne _ same
    · have same := holds (machineWith fun r => if r = next.dest then ir.imm + 1 else ir.imm) rfl
      have other : Machine.reg (Machine.setReg
          (machineWith fun r => if r = next.dest then ir.imm + 1 else ir.imm) ir.dest ir.imm)
          next.src0 = ir.imm := by
        by_cases isFirst : next.src0 = ir.dest
        · rw [isFirst, Machine.setReg_same]
        · rw [Machine.setReg_ne _ _ isFirst]
          exact if_neg (Ne.symm differs)
      rw [other, Machine.setReg_ne _ _ isDest] at same
      simp [machineWith] at same
  · intro isFirst s running
    rw [isFirst]

/-- An absorbing constant is in the destination if it was loaded there. -/
theorem absorbing_keepsDest_iff (isConstant : ir.op = .loadConstant)
    (operand : next.src0 = ir.dest ∨ next.src1 = ir.dest)
    (absorbing : ∀ x, next.op.binary x ir.imm = some ir.imm ∧
      next.op.binary ir.imm x = some ir.imm) :
    KeepsDest P (ir :: next :: rest) ⟨2, [ir]⟩ ↔ next.dest = ir.dest := by
  rw [@loaded_keepsDest_iff P ir next rest (fun _ => ir.imm) isConstant (fun s => by
    rcases operand with first | second
    · rw [first, Machine.setReg_same]
      exact (absorbing _).2
    · rw [second, Machine.setReg_same]
      exact (absorbing _).1)]
  constructor
  · intro holds
    by_contra differs
    have same := holds (machineWith fun _ => ir.imm + 1) rfl
    rw [Machine.setReg_ne _ _ differs] at same
    exact add_one_ne _ same.symm
  · intro isDest s running
    rw [isDest, Machine.setReg_same]

/-! ## The optimisations -/

theorem bitwiseOptimization_none (notConstant : ir.op ≠ .loadConstant)
    (notNegate : ir.op ≠ .negate) : bitwiseOptimization ir next = none := by
  simp [bitwiseOptimization, notConstant, notNegate]

/-- A rewritten instruction whose operands are one register is right. -/
theorem selfwise_keeps_iff (selfwise : Selfwise ir ir') :
    (KeepsDest P (ir :: rest) ⟨1, [ir']⟩ ∧ ¬UnlinksRewritten (ir :: rest) ↔
        ¬LoadsConstant (ir :: rest)) ∧
      (KeepsDest P (ir :: rest) ⟨1, [ir']⟩ ↔ DestHolds (ir :: rest)) := by
  have keeps : KeepsDest P (ir :: rest) ⟨1, [ir']⟩ := selfwise.keepsDest
  have notConstant := selfwise.notConstant
  have notNegate : ir.op ≠ .negate := by
    intro isNegate
    cases selfwise with
    | constant same constant =>
        rw [isNegate] at constant
        cases constant 0
    | copy same idempotent =>
        rw [isNegate] at idempotent
        cases idempotent 0
  have notUnlinked : ¬UnlinksRewritten (ir :: rest) := by
    rcases rest with _ | ⟨next, rest⟩
    · exact id
    · rintro ⟨rewritten, applied, -⟩
      rw [bitwiseOptimization_none notConstant notNegate] at applied
      cases applied
  constructor
  · exact iff_of_true ⟨keeps, notUnlinked⟩ notConstant
  · apply iff_of_true keeps
    rcases rest with _ | ⟨next, rest⟩
    · trivial
    · exact fun isConstant => absurd isConstant notConstant

/-- A rewritten pair is right if it does not load a constant. -/
theorem bitwise_keeps_iff (applied : bitwiseOptimization ir next = some rewritten) :
    (KeepsDest P (ir :: next :: rest) ⟨2, rewritten.left⟩ ∧ ¬UnlinksRewritten (ir :: next :: rest) ↔
        ¬LoadsConstant (ir :: next :: rest)) ∧
      (KeepsDest P (ir :: next :: rest) ⟨2, rewritten.left⟩ ↔ DestHolds (ir :: next :: rest)) := by
  have unlinks : UnlinksRewritten (ir :: next :: rest) ↔
      rewritten.next ≠ next ∧ rewritten.unlinksNext = true := by
    constructor
    · rintro ⟨other, applied', unlinked⟩
      rw [applied, Option.some_inj] at applied'
      rwa [applied']
    · intro unlinked
      exact ⟨rewritten, applied, unlinked⟩
  rw [unlinks]
  cases bitwiseOptimization_bitwise applied with
  | double isNegate isNegate' operand =>
      have notConstant : ¬LoadsConstant (ir :: next :: rest) := by
        rw [LoadsConstant, isNegate]
        decide
      constructor
      · exact iff_of_true ⟨double_keepsDest isNegate isNegate' operand, fun both => both.1 rfl⟩
          notConstant
      · exact iff_of_true (double_keepsDest isNegate isNegate' operand)
          fun isConstant => absurd isConstant notConstant
  | neutral isConstant second neutral notAbsorbing =>
      have changed : toCopy next ≠ next := by
        intro same
        have isAssign : next.op = .assign := by rw [← same]; rfl
        have none_ := neutral 0
        rw [isAssign] at none_
        cases none_
      constructor
      · exact iff_of_false (fun keeps => keeps.2 ⟨changed, rfl⟩) (not_not_intro isConstant)
      · have keeps := @neutral_keepsDest_iff P ir next rest isConstant second neutral
        rw [DestHolds, forall_prop_of_true isConstant]
        rw [and_iff_right fun absorbs => absurd absorbs notAbsorbing,
          forall_prop_of_true notAbsorbing]
        exact keeps
  | absorbing isConstant operand absorbing absorbs =>
      have changed : toConstant next ir.src0 ≠ next := by
        intro same
        have isLoad : next.op = .loadConstant := by rw [← same]; rfl
        have none_ := (absorbing 0).1
        rw [isLoad] at none_
        cases none_
      constructor
      · exact iff_of_false (fun keeps => keeps.2 ⟨changed, rfl⟩) (not_not_intro isConstant)
      · have keeps := @absorbing_keepsDest_iff P ir next rest isConstant operand absorbing
        rw [DestHolds, forall_prop_of_true isConstant]
        rw [and_iff_left fun notAbsorbing => absurd absorbs notAbsorbing,
          forall_prop_of_true absorbs]
        exact keeps

/-- A rewriting keeps the value of the destination and the instruction that it rewrites exactly
where no constant is loaded. The value alone is kept where the destination is the register
that holds it without the second instruction. -/
theorem simplification_keeps_iff (P : Platform) (isRule : rule ∈ simplifications)
    (applied : rule code = some rewrite) :
    (KeepsDest P code rewrite ∧ ¬UnlinksRewritten code ↔ ¬LoadsConstant code) ∧
      (KeepsDest P code rewrite ↔ DestHolds code) := by
  have single {pattern : Ph2Ir → Option Ph2Ir} (isSingle : rule = singleRule pattern)
      (selfwise : ∀ ir ir', pattern ir = some ir' → Selfwise ir ir') :
      (KeepsDest P code rewrite ∧ ¬UnlinksRewritten code ↔ ¬LoadsConstant code) ∧
        (KeepsDest P code rewrite ↔ DestHolds code) := by
    subst isSingle
    rcases code with _ | ⟨ir, rest⟩
    · cases applied
    · rcases Option.map_eq_some_iff.mp applied with ⟨ir', matched, rfl⟩
      exact selfwise_keeps_iff (selfwise ir ir' matched)
  simp only [simplifications, List.mem_cons, List.not_mem_nil, or_false] at isRule
  rcases isRule with isComparison | isAlgebraic | rfl
  · exact single isComparison fun ir ir' => comparisonOptimization_selfwise
  · exact single isAlgebraic fun ir ir' => algebraicSimplification_selfwise
  · rcases code with _ | ⟨ir, _ | ⟨next, rest⟩⟩
    · cases applied
    · cases applied
    · rcases Option.map_eq_some_iff.mp applied with ⟨left, matched, rfl⟩
      rcases Option.map_eq_some_iff.mp matched with ⟨rewritten, matched', rfl⟩
      exact bitwise_keeps_iff matched'

/-- The code of `x - x`. -/
def selfDifference : List Ph2Ir := [{ op := .sub, src0 := 1, src1 := 1, dest := 0 }]

theorem selfDifference_keeps_iff :
    (KeepsDest plainPlatform selfDifference ⟨1, [{ op := .loadConstant, dest := 0 }]⟩ ∧
        ¬UnlinksRewritten selfDifference ↔ ¬LoadsConstant selfDifference) ∧
      (KeepsDest plainPlatform selfDifference ⟨1, [{ op := .loadConstant, dest := 0 }]⟩ ↔
        DestHolds selfDifference) :=
  @simplification_keeps_iff selfDifference (singleRule algebraicSimplification) _ plainPlatform
    (by simp [simplifications]) rfl

/-- The code of `x & 0`. -/
def maskedByZero : List Ph2Ir :=
  [{ op := .loadConstant, src0 := 0, dest := 1 },
    { op := .bitAnd, src0 := 2, src1 := 1, dest := 0 }]

/-- The zero is not put into the destination of the mask. -/
theorem maskedByZero_not_kept :
    ¬∀ (P : Platform) (rule : Rule) (code : List Ph2Ir) (rewrite : Rewrite),
      rule ∈ simplifications → rule code = some rewrite →
      KeepsDest P code rewrite ∧ ¬UnlinksRewritten code := by
  intro all
  have keeps := (all plainPlatform
    (pairRule fun ir next => (bitwiseOptimization ir next).map Rewritten.left) maskedByZero _
    (by simp [simplifications]) rfl).1
  have same := keeps (machineWith fun _ => 1) _ rfl rfl
  exact absurd same (by decide)

end Shecc.Peephole
