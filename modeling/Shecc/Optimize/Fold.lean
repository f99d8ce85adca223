import Shecc.Ir.Value

/-!
# Constant folding

`mark_const`, `eval_const_arithmetic`, `eval_const_unary` and `const_folding`.
Each takes the variable records and the instruction under the cursor and returns
whether it rewrote the instruction, with the new records and the new
instruction.

The compiler evaluates an operator with the C arithmetic of the machine it runs
on. Where that arithmetic is undefined the result is whatever its build does; the
parameter `undefined` stands for it.
-/

namespace Shecc.Optimize

/-- Whether a folding function returned `true`, with the records and the
instruction it leaves. -/
structure Folded where
  changed : Bool
  vars : Vars
  insn : Insn

/-- Turn an instruction into a load of `value` into `rd`. -/
def toLoadConstant (vars : Vars) (insn : Insn) (rd : VarId) (value : Word) : Vars × Insn :=
  (vars.setConst rd value, { insn with opcode := .loadConstant, rs1 := none, rs2 := none })

/-- Turn an instruction into a copy of its first operand. -/
def toAssign (insn : Insn) : Insn :=
  { insn with opcode := .assign, rs2 := none }

/-- `mark_const`, with `insn->prev` as an extra argument. -/
def markConst (vars : Vars) (prev : Option Insn) (insn : Insn) : Folded :=
  match insn.opcode, insn.rd, insn.rs1 with
  | .loadConstant, some rd, _ =>
      ⟨false, vars.set rd { vars rd with isConst := true }, insn⟩
  | .assign, some rd, some rs1 =>
      -- A global is unique and has no subscripts in this SSA form.
      if (vars rd).isGlobal then
        ⟨false, vars, insn⟩
      else if (vars rs1).isConst ||
          prev.any (fun p => p.opcode == .loadConstant && p.rd == some rs1) then
        ⟨true, vars.setConst rd (vars rs1).initVal,
          { insn with opcode := .loadConstant, rs1 := none }⟩
      else
        ⟨false, vars, insn⟩
  | _, _, _ => ⟨false, vars, insn⟩

variable (undefined : Opcode → Word → Word → Word)

/-- The result the compiler computes for a foldable operator; `none` where
`eval_const_arithmetic` returns early. -/
def foldBinary (op : Opcode) (l r : Word) : Option Word :=
  if op.isBinary = false then none
  else if (op = .div ∨ op = .mod) ∧ r = 0 then none
  else some ((op.binary l r).getD (undefined op l r))

/-- `eval_const_arithmetic`. -/
def evalConstArithmetic (vars : Vars) (insn : Insn) : Folded :=
  match insn.rd, insn.rs1, insn.rs2 with
  | some rd, some rs1, some rs2 =>
      if (vars rs1).isConst && (vars rs2).isConst then
        match foldBinary undefined insn.opcode (vars rs1).initVal (vars rs2).initVal with
        | some res =>
            let (vars', insn') := toLoadConstant vars insn rd res
            ⟨true, vars', insn'⟩
        | none => ⟨false, vars, insn⟩
      else
        ⟨false, vars, insn⟩
  | _, _, _ => ⟨false, vars, insn⟩

/-- `eval_const_unary`. -/
def evalConstUnary (vars : Vars) (insn : Insn) : Folded :=
  match insn.rd, insn.rs1 with
  | some rd, some rs1 =>
      if (vars rs1).isConst then
        match insn.opcode.unary (vars rs1).initVal with
        | some res =>
            ⟨true, vars.setConst rd res, { insn with opcode := .loadConstant, rs1 := none }⟩
        | none => ⟨false, vars, insn⟩
      else
        ⟨false, vars, insn⟩
  | _, _ => ⟨false, vars, insn⟩

/-- `const_folding`: the three functions in order, stopping at the first that
rewrites the instruction. -/
def constFolding (vars : Vars) (prev : Option Insn) (insn : Insn) : Folded :=
  let marked := markConst vars prev insn
  if marked.changed then marked
  else
    let arithmetic := evalConstArithmetic undefined marked.vars marked.insn
    if arithmetic.changed then arithmetic
    else evalConstUnary arithmetic.vars arithmetic.insn

/-- One instruction may replace another: wherever the first has a value, the
second computes the same one. -/
def Computes (env : Env) (source target : Vars × Insn) : Prop :=
  ∀ w, computes source.1 env source.2 = some w → computes target.1 env target.2 = some w

theorem Computes.refl (env : Env) (site : Vars × Insn) : Computes env site site :=
  fun _ value => value

theorem Computes.trans {env : Env} {first second third : Vars × Insn}
    (left : Computes env first second) (right : Computes env second third) :
    Computes env first third :=
  fun w value => right w (left w value)

theorem toLoadConstant_computes {vars : Vars} {env : Env} {insn : Insn} {rd : VarId}
    {value : Word} (destination : insn.rd = some rd)
    (only : ∀ w, computes vars env insn = some w → w = value) :
    Computes env (vars, insn) (toLoadConstant vars insn rd value) := by
  intro w computed
  rcases insn with ⟨op, rd', rs1, rs2, sz, str, useful, idx⟩
  cases destination
  simp [toLoadConstant, only w computed]

/-- What a rewrite that touches no operand does: nothing, flag the constant an
instruction loads, make the instruction load a constant, or make it a copy, a
negation or a no-op. -/
inductive Benign (vars : Vars) (insn : Insn) : Vars → Insn → Prop where
  | same : Benign vars insn vars insn
  | flag {rd : VarId} (isLoad : insn.opcode = .loadConstant) (rdEq : insn.rd = some rd) :
      Benign vars insn (vars.setConst rd (vars rd).initVal) insn
  | constant {rd : VarId} {k : Word} {left : Insn} (rdEq : insn.rd = some rd)
      (rdEq' : left.rd = some rd) (isLoad : left.opcode = .loadConstant)
      (source : (insn.opcode = .assign ∧ (vars rd).isGlobal = false) ∨
        insn.opcode.isBinary = true ∨ insn.opcode.isUnary = true) :
      Benign vars insn (vars.setConst rd k) left
  | move {left : Insn} (rdEq : left.rd = insn.rd)
      (isMove : left.opcode = .assign ∨ left.opcode = .negate ∧ left.rs1 = insn.rs1)
      (source : insn.opcode.isBinary = true) : Benign vars insn vars left
  | drop {left : Insn} (rdEq : left.rd = none) (isAssign : left.opcode = .assign)
      (source : insn.opcode = .assign) : Benign vars insn vars left

/-! ## What folding does to a binary instruction -/

theorem markConst_binary {op : Opcode} (binary : op.isBinary = true) (vars : Vars)
    (prev : Option Insn) (rd rs1 rs2 : VarId) :
    markConst vars prev (Insn.binary op rd rs1 rs2) =
      ⟨false, vars, Insn.binary op rd rs1 rs2⟩ := by
  cases op <;> first | rfl | cases binary

theorem evalConstUnary_binary {op : Opcode} (binary : op.isBinary = true) (vars : Vars)
    (rd rs1 rs2 : VarId) :
    evalConstUnary vars (Insn.binary op rd rs1 rs2) =
      ⟨false, vars, Insn.binary op rd rs1 rs2⟩ := by
  have noUnary (x : Word) : op.unary x = none := by
    cases op <;> first | rfl | cases binary
  simp [evalConstUnary, noUnary]

/-- Where the language defines the operator, folding computes its value. -/
theorem foldBinary_of_defined {op : Opcode} {l r w : Word} (value : op.binary l r = some w) :
    foldBinary undefined op l r = some w := by
  have binary : op.isBinary = true := Opcode.isBinary_of_binary_eq_some value
  have nonzero : ¬((op = .div ∨ op = .mod) ∧ r = 0) := by
    rintro ⟨rfl | rfl, rfl⟩ <;> simp [Opcode.binary, Word.Divides] at value
  rw [foldBinary, if_neg (by simp [binary]), if_neg nonzero, value, Option.getD_some]

/-- A binary instruction is folded exactly when both operands are constants the
evaluator accepts. -/
theorem constFolding_binary {op : Opcode} (binary : op.isBinary = true) (vars : Vars)
    (prev : Option Insn) (rd rs1 rs2 : VarId) :
    constFolding undefined vars prev (Insn.binary op rd rs1 rs2) =
      evalConstArithmetic undefined vars (Insn.binary op rd rs1 rs2) := by
  rw [constFolding, markConst_binary binary]
  simp only [Bool.false_eq_true, if_false]
  split
  · rfl
  · rename_i unchanged
    have same : evalConstArithmetic undefined vars (Insn.binary op rd rs1 rs2) =
        ⟨false, vars, Insn.binary op rd rs1 rs2⟩ := by
      revert unchanged
      simp only [evalConstArithmetic]
      split
      · split <;> simp
      · simp
    rw [same, evalConstUnary_binary binary]

/-! ## Folding computes what it replaces -/

theorem markConst_computes {vars : Vars} {prev : Option Insn} {insn : Insn} (env : Env)
    (loaded : ∀ p ∈ prev, p.opcode = .loadConstant → ∀ v ∈ p.rd, (vars v).isConst = true) :
    Computes env (vars, insn)
      ((markConst vars prev insn).vars, (markConst vars prev insn).insn) := by
  unfold markConst
  split
  · rename_i opcodeEq rdEq
    intro w computed
    rw [computes] at computed ⊢
    simp only [opcodeEq, rdEq] at computed ⊢
    simpa using computed
  · rename_i rd rs1 opcodeEq rdEq rs1Eq
    split
    · exact Computes.refl env _
    · split
      · rename_i constant
        have flagged : (vars rs1).isConst = true := by
          rcases Bool.or_eq_true_iff.mp constant with flagged | previous
          · exact flagged
          · cases prevEq : prev with
            | none =>
                rw [prevEq] at previous
                cases previous
            | some p =>
                rw [prevEq, Option.any_some, Bool.and_eq_true, beq_iff_eq, beq_iff_eq] at previous
                exact loaded p prevEq previous.1 rs1 previous.2
        intro w computed
        rw [computes] at computed ⊢
        simp only [opcodeEq, rdEq, rs1Eq, operand_of_const env flagged] at computed ⊢
        simpa using computed
      · exact Computes.refl env _
  · exact Computes.refl env _

theorem evalConstArithmetic_computes (vars : Vars) (env : Env) (insn : Insn) :
    Computes env (vars, insn)
      ((evalConstArithmetic undefined vars insn).vars,
        (evalConstArithmetic undefined vars insn).insn) := by
  unfold evalConstArithmetic
  split
  · rename_i rd rs1 rs2 rdEq rs1Eq rs2Eq
    split
    · rename_i constants
      rw [Bool.and_eq_true] at constants
      split
      · rename_i res folded
        refine toLoadConstant_computes rdEq ?_
        intro w computed
        have binary : insn.opcode.isBinary = true := by
          by_contra other
          rw [foldBinary, if_pos (by simpa using other)] at folded
          cases folded
        rw [computes_binary rfl rdEq rs1Eq rs2Eq binary, operand_of_const env constants.1,
          operand_of_const env constants.2] at computed
        rw [foldBinary_of_defined undefined computed] at folded
        exact Option.some.inj folded
      · exact Computes.refl env _
    · exact Computes.refl env _
  · exact Computes.refl env _

theorem evalConstUnary_computes (vars : Vars) (env : Env) (insn : Insn) :
    Computes env (vars, insn)
      ((evalConstUnary vars insn).vars, (evalConstUnary vars insn).insn) := by
  unfold evalConstUnary
  split
  · rename_i rd rs1 rdEq rs1Eq
    split
    · rename_i constant
      split
      · rename_i res value
        intro w computed
        have isUnary := Opcode.isUnary_of_unary_eq_some value
        have same := unary_of_computes rs1Eq isUnary computed
        rw [operand_of_const env constant, value] at same
        rw [computes]
        simpa [rdEq] using same
      · exact Computes.refl env _
    · exact Computes.refl env _
  · exact Computes.refl env _

/-- Folding keeps the value of the instruction, provided a constant loaded just
before it is flagged. -/
theorem constFolding_computes {vars : Vars} {prev : Option Insn} {insn : Insn} (env : Env)
    (loaded : ∀ p ∈ prev, p.opcode = .loadConstant → ∀ v ∈ p.rd, (vars v).isConst = true) :
    Computes env (vars, insn)
      ((constFolding undefined vars prev insn).vars,
        (constFolding undefined vars prev insn).insn) := by
  have marked : Computes env (vars, insn)
      ((markConst vars prev insn).vars, (markConst vars prev insn).insn) :=
    markConst_computes env loaded
  have arithmetic := evalConstArithmetic_computes undefined
    (markConst vars prev insn).vars env (markConst vars prev insn).insn
  unfold constFolding
  simp only
  split
  · exact marked
  · split
    · exact marked.trans arithmetic
    · exact (marked.trans arithmetic).trans (evalConstUnary_computes _ env _)

theorem evalConstArithmetic_binary {vars : Vars} {op : Opcode} {rd x y : VarId} (env : Env)
    (changed : (evalConstArithmetic undefined vars (Insn.binary op rd x y)).changed = true) :
    Computes env (vars, Insn.binary op rd x y)
        ((evalConstArithmetic undefined vars (Insn.binary op rd x y)).vars,
          (evalConstArithmetic undefined vars (Insn.binary op rd x y)).insn) ∧
      (vars x).isConst = true := by
  refine ⟨evalConstArithmetic_computes undefined vars env _, ?_⟩
  simp only [evalConstArithmetic] at changed
  split at changed
  · rename_i constants
    exact (Bool.and_eq_true_iff.mp constants).1
  · cases changed

/-! ## What folding touches -/

theorem markConst_cases (vars : Vars) (prev : Option Insn) (insn : Insn) :
    markConst vars prev insn = ⟨false, vars, insn⟩ ∨
      (∃ rd, insn.opcode = .loadConstant ∧ insn.rd = some rd ∧
        markConst vars prev insn = ⟨false, vars.setConst rd (vars rd).initVal, insn⟩) ∨
      (insn.opcode = .assign ∧ (markConst vars prev insn).changed = true ∧
        Benign vars insn (markConst vars prev insn).vars (markConst vars prev insn).insn) := by
  unfold markConst
  split
  · rename_i rd opcodeEq rdEq
    exact Or.inr (Or.inl ⟨rd, opcodeEq, rdEq, rfl⟩)
  · rename_i rd rs1 opcodeEq rdEq rs1Eq
    split
    · exact Or.inl rfl
    · rename_i notGlobal
      split
      · exact Or.inr (Or.inr ⟨opcodeEq, rfl,
          .constant rdEq rdEq rfl (Or.inl ⟨opcodeEq, by simpa using notGlobal⟩)⟩)
      · exact Or.inl rfl
  · exact Or.inl rfl

theorem evalConstArithmetic_cases (vars : Vars) (insn : Insn) :
    evalConstArithmetic undefined vars insn = ⟨false, vars, insn⟩ ∨
      (insn.opcode.isBinary = true ∧ (evalConstArithmetic undefined vars insn).changed = true ∧
        Benign vars insn (evalConstArithmetic undefined vars insn).vars
          (evalConstArithmetic undefined vars insn).insn) := by
  unfold evalConstArithmetic
  split
  · rename_i rd rs1 rs2 rdEq rs1Eq rs2Eq
    split
    · split
      · rename_i res folded
        have binary : insn.opcode.isBinary = true := by
          by_contra other
          rw [foldBinary, if_pos (by simpa using other)] at folded
          cases folded
        exact Or.inr ⟨binary, rfl, .constant rdEq rdEq rfl (Or.inr (Or.inl binary))⟩
      · exact Or.inl rfl
    · exact Or.inl rfl
  · exact Or.inl rfl

theorem evalConstUnary_cases (vars : Vars) (insn : Insn) :
    evalConstUnary vars insn = ⟨false, vars, insn⟩ ∨
      (insn.opcode.isUnary = true ∧ (evalConstUnary vars insn).changed = true ∧
        Benign vars insn (evalConstUnary vars insn).vars (evalConstUnary vars insn).insn) := by
  unfold evalConstUnary
  split
  · rename_i rd rs1 rdEq rs1Eq
    split
    · split
      · rename_i res value
        have unary := Opcode.isUnary_of_unary_eq_some value
        exact Or.inr ⟨unary, rfl, .constant rdEq rdEq rfl (Or.inr (Or.inr unary))⟩
      · exact Or.inl rfl
    · exact Or.inl rfl
  · exact Or.inl rfl

/-- Folding either leaves the site alone, flags the constant being loaded, or
makes the instruction load a constant. -/
theorem constFolding_cases (vars : Vars) (prev : Option Insn) (insn : Insn) :
    constFolding undefined vars prev insn = ⟨false, vars, insn⟩ ∨
      (∃ rd, insn.opcode = .loadConstant ∧ insn.rd = some rd ∧
        constFolding undefined vars prev insn =
          ⟨false, vars.setConst rd (vars rd).initVal, insn⟩) ∨
      ((constFolding undefined vars prev insn).changed = true ∧
        (insn.opcode = .assign ∨ insn.opcode.isBinary = true ∨ insn.opcode.isUnary = true) ∧
        Benign vars insn (constFolding undefined vars prev insn).vars
          (constFolding undefined vars prev insn).insn) := by
  unfold constFolding
  rcases markConst_cases vars prev insn with unmarked | ⟨rd, isLoad, rdEq, flagged⟩ |
      ⟨isAssign, changed, benign⟩
  · rw [unmarked]
    simp only [Bool.false_eq_true, if_false]
    rcases evalConstArithmetic_cases undefined vars insn with same | ⟨binary, changed, benign⟩
    · rw [same]
      simp only [Bool.false_eq_true, if_false]
      rcases evalConstUnary_cases vars insn with same | ⟨unary, changed, benign⟩
      · exact Or.inl same
      · exact Or.inr (Or.inr ⟨changed, Or.inr (Or.inr unary), benign⟩)
    · rw [if_pos changed]
      exact Or.inr (Or.inr ⟨changed, Or.inr (Or.inl binary), benign⟩)
  · rw [flagged]
    simp only [Bool.false_eq_true, if_false]
    rcases evalConstArithmetic_cases undefined (vars.setConst rd (vars rd).initVal) insn with
      same | ⟨binary, -⟩
    · rw [same]
      simp only [Bool.false_eq_true, if_false]
      rcases evalConstUnary_cases (vars.setConst rd (vars rd).initVal) insn with
        same | ⟨unary, -⟩
      · exact Or.inr (Or.inl ⟨rd, isLoad, rdEq, same⟩)
      · rw [isLoad] at unary
        cases unary
    · rw [isLoad] at binary
      cases binary
  · rw [if_pos changed]
    exact Or.inr (Or.inr ⟨changed, Or.inl isAssign, benign⟩)

end Shecc.Optimize
