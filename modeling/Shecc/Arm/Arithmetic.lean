import Shecc.Arm.Divide
import Shecc.Ir.Arithmetic

/-!
# Operators on ARM

The code of an operator computes its value where it has one. The order of two numbers is
read off the flags of their difference, and a register that holds the count shifts by its
lowest byte.
-/

namespace Shecc.Arm

open Execution Codegen Word

/-! ## Comparisons -/

namespace State

variable (s : State) (x y : Word)

theorem compared_n : (s.compared x y).n = decide ((x - y).toInt < 0) := by
  change (addWithCarry x (~~~y) true).1.msb = _
  rw [addWithCarry_sub, BitVec.msb_eq_toInt]

theorem compared_v :
    (s.compared x y).v = decide (x.toInt - y.toInt ≠ (x - y).toInt) := by
  have complement : (~~~y).toInt = -y.toInt - 1 := by
    have bound := y.isLt
    rw [BitVec.toInt_eq_toNat_cond, BitVec.toInt_eq_toNat_cond, BitVec.toNat_not]
    split <;> split <;> omega
  have sum : x.toInt + (~~~y).toInt + (true.toNat : Int) = x.toInt - y.toInt := by
    rw [complement, Bool.toNat_true]
    omega
  change decide (x.toInt + (~~~y).toInt + (true.toNat : Int) ≠
    (addWithCarry x (~~~y) true).1.toInt) = _
  rw [addWithCarry_sub, sum]

/-- The sign of the difference and its overflow tell the order. -/
theorem compared_n_v : ((s.compared x y).n != (s.compared x y).v) = x.slt y := by
  have difference : (x - y).toInt = (x.toInt - y.toInt).bmod (2 ^ 32) := BitVec.toInt_sub
  have lowX := BitVec.le_toInt x
  have lowY := BitVec.le_toInt y
  have highX := BitVec.toInt_lt (x := x)
  have highY := BitVec.toInt_lt (x := y)
  norm_num at lowX lowY highX highY
  rw [Int.bmod_def] at difference
  rw [compared_n, compared_v, BitVec.slt_eq_decide, Bool.eq_iff_iff]
  simp only [bne_iff_ne, ne_eq, decide_eq_decide, decide_eq_true_iff]
  split at difference <;> omega

end State

/-- The condition of a comparison is its value. -/
theorem holds_compared {op : Opcode} {x y w : Word} (isComparison : getCond op ≠ .al)
    (value : op.binary x y = some w) (s : State) :
    w = Word.ofBool ((getCond op).holds (s.compared x y)) := by
  have order := State.compared_n_v s x y
  have equal := State.compared_z s x y
  have sameOrder : ((s.compared x y).n == (s.compared x y).v) = !x.slt y := by
    rw [← order, bne, Bool.not_not]
  have same : x = y ↔ x.toInt = y.toInt := BitVec.toInt_inj.symm
  cases op <;> first | exact absurd rfl isComparison | cases value
  case eq =>
    change Word.ofBool (x == y) = Word.ofBool (s.compared x y).z
    rw [equal]
    rfl
  case neq =>
    change Word.ofBool (x != y) = Word.ofBool !(s.compared x y).z
    rw [equal]
    rfl
  case lt =>
    change _ = Word.ofBool ((s.compared x y).n != (s.compared x y).v)
    rw [order]
  case leq =>
    change _ = Word.ofBool ((s.compared x y).z || (s.compared x y).n != (s.compared x y).v)
    rw [order, equal, BitVec.sle_eq_decide, BitVec.slt_eq_decide, ← Bool.decide_or]
    congr 2
    rw [same, le_iff_eq_or_lt]
  case gt =>
    change _ = Word.ofBool (!(s.compared x y).z && (s.compared x y).n == (s.compared x y).v)
    rw [sameOrder, equal, BitVec.slt_eq_decide, BitVec.slt_eq_decide, ← decide_not, ← decide_not,
      ← Bool.decide_and]
    congr 2
    rw [same]
    exact propext (by omega)
  case geq =>
    change _ = Word.ofBool ((s.compared x y).n == (s.compared x y).v)
    rw [sameOrder, BitVec.sle_eq_not_slt]

/-! ## Operations -/

section Effects

variable (s : State) (rd rn rm rs : Int)

theorem effect_andR :
    (Operation.data .and false rn rd (.shifted rm .logicLs 0)).effect s =
      some (s.setReg rd (s.reg rn &&& s.reg rm)) := rfl

theorem effect_orR :
    (Operation.data .orr false rn rd (.shifted rm .logicLs 0)).effect s =
      some (s.setReg rd (s.reg rn ||| s.reg rm)) := rfl

theorem effect_mvnR :
    (Operation.data .mvn false rn rd (.shifted rm .logicLs 0)).effect s =
      some (s.setReg rd (~~~s.reg rm)) := rfl

theorem effect_sll :
    (Operation.data .mov false rn rd (.shiftedBy rm .logicLs rs)).effect s =
      some (s.setReg rd (s.reg rm <<< ((s.reg rs).toNat % 256))) := by
  change some (s.setReg rd (Shift.apply .logicLs _ _ _).1) = _
  rw [Shift.apply]
  split
  · rename_i isZero
    rw [isZero, BitVec.shiftLeft_zero]
  · rfl

theorem effect_sra :
    (Operation.data .mov false rn rd (.shiftedBy rm .arithRs rs)).effect s =
      some (s.setReg rd ((s.reg rm).sshiftRight ((s.reg rs).toNat % 256))) := by
  change some (s.setReg rd (Shift.apply .arithRs _ _ _).1) = _
  rw [Shift.apply]
  split
  · rename_i isZero
    rw [isZero, BitVec.sshiftRight_zero]
  · rfl

theorem effect_mul :
    (Operation.mul rd rn rm).effect s = some (s.setReg rd (s.reg rn * s.reg rm)) := rfl

theorem effect_sdiv :
    (Operation.sdiv rd rn rm).effect s = some (s.setReg rd ((s.reg rn).sdiv (s.reg rm))) := rfl

end Effects

/-- Writing a register changes no condition. -/
theorem Cond.holds_setReg (cond : Cond) (s : State) (r : Int) (w : Word) :
    cond.holds (s.setReg r w) = cond.holds s := by
  cases cond <;> rfl

section Code

variable {fetch : Word → Option Word} {base : Word} {rd rn rm : Int} {s s' : State}

/-- The code is one instruction. -/
theorem reaches_operation {insn : Insn} {operation : Operation}
    (loaded : Loaded Insn.encode fetch base [insn]) (valid : insn.Valid)
    (meant : insn.decoded = ⟨.al, operation⟩) (noPc : 15 ∉ operation.names)
    (effect : operation.effect s = some s') :
    processor.Reaches fetch base 1 (s, slot base 0) (s', slot base 1) := by
  apply reaches_line loaded (List.forall_mem_singleton.mpr valid) [operation] ?_
    (List.forall_mem_singleton.mpr noPc) (effects_cons_some effect)
  rw [List.map_singleton, List.map_singleton, meant]

/-- A constant moved on a condition. -/
theorem runs_movI {code : List Decoded} {placed : Placed processor code} {i : Nat} {cond : Cond}
    {imm : Int} (here : code[i]? = some ⟨cond, .data .mov false 0 rd (.imm imm 0)⟩)
    (isRd : IsAllocated rd) :
    placed.Runs (i, s)
      (i + 1, if cond.holds s then s.setReg rd (BitVec.ofInt 32 imm) else s) := by
  have notPc : 15 ∉ (Operation.data .mov false 0 rd (.imm imm 0)).names := by
    have different : 15 ≠ rd := (isRd.ne (by decide)).symm
    simp [Operation.names, Operand.names, different]
  split
  · rename_i holds
    exact runs_effect here notPc holds (effect_movI ..)
  · rename_i fails
    exact runs_skip here notPc (Bool.eq_false_iff.mpr fails)

/-- A comparison leaves one or zero. -/
theorem reaches_comparison {cond : Cond} (isRd : IsAllocated rd) (isRn : IsAllocated rn)
    (isRm : IsAllocated rm)
    (loaded : Loaded Insn.encode fetch base [.cmpR .al rn rm, .zero rd, .movI cond rd 1])
    (s : State) :
    ∃ s', processor.Reaches fetch base 3 (s, slot base 0) (s', slot base 3) ∧
      s'.reg rd = Word.ofBool (cond.holds (s.compared (s.reg rn) (s.reg rm))) := by
  have valid : ∀ insn ∈ [.cmpR .al rn rm, .zero rd, .movI cond rd 1], Insn.Valid insn := by
    have regRd := isRd.isReg
    have regRn := isRn.isReg
    have regRm := isRm.isReg
    simp [Insn.Valid, regRd, regRn, regRm]
    decide
  let placed := loaded.placed (means_decoded valid)
  let s₁ := s.compared (s.reg rn) (s.reg rm)
  have compared : placed.Runs (0, s) (1, s₁) := by
    apply runs_effect rfl ?_ rfl (effect_cmpR s 0 rn rm)
    have notRn : 15 ≠ rn := (isRn.ne (by decide)).symm
    have notRm : 15 ≠ rm := (isRm.ne (by decide)).symm
    simp [Operation.names, Operand.names, notRn, notRm]
  have cleared : placed.Runs (1, s₁) (2, s₁.setReg rd 0#32) :=
    @runs_movI rd s₁ _ placed 1 .al 0 rfl isRd
  have moved := @runs_movI rd (s₁.setReg rd 0#32) _ placed 2 cond 1 rfl isRd
  refine ⟨_, (compared.trans cleared).trans moved, ?_⟩
  rw [Cond.holds_setReg]
  cases cond.holds s₁ with
  | true => exact State.setReg_reg_same ..
  | false => exact State.setReg_reg_same ..

/-- A negation leaves one or zero. -/
theorem reaches_logNot (isRd : IsAllocated rd) (isRn : IsAllocated rn)
    (loaded : Loaded Insn.encode fetch base [.cmpI .al rn 0, .movI .ne rd 0, .movI .eq rd 1])
    (s : State) :
    ∃ s', processor.Reaches fetch base 3 (s, slot base 0) (s', slot base 3) ∧
      s'.reg rd = Word.ofBool (!(s.reg rn).truth) := by
  have valid : ∀ insn ∈ [.cmpI .al rn 0, .movI .ne rd 0, .movI .eq rd 1], Insn.Valid insn := by
    have regRd := isRd.isReg
    have regRn := isRn.isReg
    simp [Insn.Valid, regRd, regRn]
    decide
  let placed := loaded.placed (means_decoded valid)
  let s₁ := s.compared (s.reg rn) (BitVec.ofInt 32 0)
  have compared : placed.Runs (0, s) (1, s₁) := by
    apply runs_effect rfl ?_ rfl (effect_cmpI s 0 rn 0)
    have notRn : 15 ≠ rn := (isRn.ne (by decide)).symm
    simp [Operation.names, Operand.names, notRn]
  have first := @runs_movI rd s₁ _ placed 1 .ne 0 rfl isRd
  have isZero : s₁.z = decide (s.reg rn = 0#32) := State.compared_z ..
  by_cases zero : s.reg rn = 0#32
  · rw [if_neg (by simp [Cond.holds, isZero, zero])] at first
    have second := @runs_movI rd s₁ _ placed 2 .eq 1 rfl isRd
    rw [if_pos (by simp [Cond.holds, isZero, zero])] at second
    refine ⟨_, (compared.trans first).trans second, ?_⟩
    rw [State.setReg_reg_same, zero]
    rfl
  · rw [if_pos (by simp [Cond.holds, isZero, zero])] at first
    have second := @runs_movI rd (s₁.setReg rd (BitVec.ofInt 32 0)) _ placed 2 .eq 1 rfl isRd
    rw [Cond.holds_setReg, if_neg (by simp [Cond.holds, isZero, zero])] at second
    refine ⟨_, (compared.trans first).trans second, ?_⟩
    have isTrue : (s.reg rn).truth = true := by simpa [Word.truth] using zero
    rw [State.setReg_reg_same, isTrue]
    rfl

end Code

/-! ## Where an operator is computed -/

/-- Code of an operator in memory, about to run on operands. The second one is read by
binary operators only. -/
structure Site (hardMulDiv : Bool) (op : Opcode) (l r : Word) where
  env : Env
  p : Program
  elfOffset : BlockId → Nat
  size : Nat
  ir : Ph2Ir
  insns : List Insn
  fetch : Word → Option Word
  base : Word
  state : State
  option : env.hardMulDiv = hardMulDiv
  operator : ir.op = op
  emitted : instructions env p elfOffset size ir = some insns
  loaded : Loaded Insn.encode fetch base insns
  dest : IsAllocated ir.dest
  src0 : IsAllocated ir.src0
  left : state.reg ir.src0 = l
  src1 : op.isBinary = true → IsAllocated ir.src1
  right : op.isBinary = true → state.reg ir.src1 = r

/-- The code runs to its end with the result in its destination. -/
def Site.Yields {hardMulDiv : Bool} {op : Opcode} {l r : Word} (site : Site hardMulDiv op l r)
    (w : Word) : Prop :=
  ∃ s', processor.Reaches site.fetch site.base site.insns.length (site.state, slot site.base 0)
      (s', slot site.base site.insns.length) ∧
    s'.reg site.ir.dest = w

section Yields

variable {hardMulDiv : Bool} {op : Opcode} {l r w : Word} {site : Site hardMulDiv op l r}

/-- The code is one instruction, which writes the result. -/
theorem Site.yields_operation {insn : Insn} {operation : Operation}
    (isCode : site.insns = [insn]) (valid : insn.Valid)
    (meant : insn.decoded = ⟨.al, operation⟩) (noPc : 15 ∉ operation.names)
    (effect : operation.effect site.state = some (site.state.setReg site.ir.dest w)) :
    site.Yields w := by
  have loaded := site.loaded
  rw [isCode] at loaded
  refine ⟨site.state.setReg site.ir.dest w, ?_, State.setReg_reg_same ..⟩
  rw [isCode]
  exact reaches_operation loaded valid meant noPc effect

/-- A unary operator is computed. -/
theorem Site.yields_unary (site : Site hardMulDiv op l r) (value : op.unary l = some w) :
    site.Yields w := by
  have regRd := site.dest.isReg
  have regRn := site.src0.isReg
  have notRd : 15 ≠ site.ir.dest := (site.dest.ne (by decide)).symm
  have notRn : 15 ≠ site.ir.src0 := (site.src0.ne (by decide)).symm
  have left := site.left
  have emitted := site.emitted
  simp only [instructions, site.operator] at emitted
  cases op <;> cases value
  case negate =>
    apply Site.yields_operation (Option.some.inj emitted).symm ⟨regRd, by decide, regRn⟩ rfl
    · simp [Operation.names, Operand.names, notRd, notRn]
    · rw [effect_rsbI, left]
      exact congrArg (fun v => some (site.state.setReg site.ir.dest v)) (BitVec.zero_sub l)
  case bitNot =>
    apply Site.yields_operation (Option.some.inj emitted).symm ⟨regRd, regRn⟩ rfl
    · simp [Operation.names, Operand.names, notRd, notRn]
    · rw [effect_mvnR, left]
  case logNot =>
    have isCode := Option.some.inj emitted
    have loaded := site.loaded
    rw [← isCode] at loaded
    rcases reaches_logNot site.dest site.src0 loaded site.state with ⟨s', ran, isResult⟩
    rw [left] at isResult
    rw [Site.Yields, ← isCode]
    exact ⟨s', ran, isResult⟩

/-- A division is computed, save for a quotient of a register by itself that the emulated
division gets wrong. -/
theorem Site.yields_division (site : Site hardMulDiv op l r) (isDivision : op = .div ∨ op = .mod)
    (nonzero : r ≠ 0#32)
    (notSelf : hardMulDiv = false → op = .div → site.ir.src0 = site.ir.src1 →
      0 ≤ l.toInt ∨ l = 0x80000000#32) : site.Yields (truncated (op == .mod) l r) := by
  have isBinary : op.isBinary = true := by
    rcases isDivision with rfl | rfl <;> rfl
  have left := site.left
  have right := site.right isBinary
  have emitted := site.emitted
  have operator := site.operator
  by_cases hard : hardMulDiv = false
  · have isCode := softDiv_of_emitted (by rwa [operator]) (site.option.trans hard) emitted
    have loaded := site.loaded
    rw [isCode] at loaded
    rw [← right] at nonzero
    rcases softDiv_reaches site.dest site.src0 (site.src1 isBinary) loaded nonzero with
      ⟨s', result, ran, -, -, isResult, value⟩
    have isRight := (SoftDiv.result_eq_iff nonzero (fun same => congrArg site.state.reg same)
      value).mpr
    rw [← isResult, left, right, operator] at isRight
    rw [Site.Yields, isCode]
    refine ⟨s', ran, ?_⟩
    have isMod : (op == .mod) = !(op == .div) := by
      rcases isDivision with rfl | rfl <;> rfl
    rw [isMod]
    exact isRight fun same isDiv => notSelf hard (by simpa using isDiv) same
  · rw [Bool.not_eq_false] at hard
    have regRd := site.dest.isReg
    have regRn := site.src0.isReg
    have regRm := (site.src1 isBinary).isReg
    have notRd : 15 ≠ site.ir.dest := (site.dest.ne (by decide)).symm
    have notRn : 15 ≠ site.ir.src0 := (site.src0.ne (by decide)).symm
    have notRm : 15 ≠ site.ir.src1 := ((site.src1 isBinary).ne (by decide)).symm
    simp only [instructions, operator] at emitted
    rcases isDivision with rfl | rfl
    · simp only [site.option.trans hard, if_true] at emitted
      apply Site.yields_operation (Option.some.inj emitted).symm ⟨regRd, regRm, regRn⟩ rfl
      · simp [Operation.names, notRd, notRn, notRm]
      · rw [effect_sdiv, left, right, ← truncated_div]
        rfl
    · simp only [site.option.trans hard, if_true] at emitted
      have isCode := Option.some.inj emitted
      have loaded := site.loaded
      rw [← isCode] at loaded
      rw [Site.Yields, ← isCode]
      have ends : effects [.sdiv r8 site.ir.src0 site.ir.src1, .mul r8 r8 site.ir.src1,
          .data .sub false site.ir.src0 site.ir.dest (.shifted r8 .logicLs 0)] site.state =
        some (((site.state.setReg r8 (l.sdiv r)).setReg r8 (l.sdiv r * r)).setReg site.ir.dest
          (truncated true l r)) := by
        have other : site.ir.src0 ≠ r8 := site.src0.ne (by decide)
        have other' : site.ir.src1 ≠ r8 := (site.src1 isBinary).ne (by decide)
        rw [effects_cons_some (effect_sdiv ..), effects_cons_some (effect_mul ..),
          effects_cons_some (effect_subR ..), effects_nil]
        simp only [State.setReg_reg_same, State.setReg_reg_other other,
          State.setReg_reg_other other', left, right]
        rw [sub_mul_sdiv, truncated_mod]
      refine ⟨_, reaches_line loaded ?_ _ rfl ?_ ends, State.setReg_reg_same ..⟩
      · simp [Insn.Valid, regRd, regRn, regRm]
        decide
      · simp [Operation.names, Operand.names, notRd, notRn, notRm]

/-- A comparison is computed. -/
theorem Site.yields_comparison (site : Site hardMulDiv op l r) (isComparison : getCond op ≠ .al)
    (value : op.binary l r = some w) : site.Yields w := by
  have isBinary := Opcode.isBinary_of_binary_eq_some value
  have emitted := site.emitted
  simp only [instructions, site.operator] at emitted
  have isCode : [.cmpR .al site.ir.src0 site.ir.src1, .zero site.ir.dest,
      .movI (getCond op) site.ir.dest 1] = site.insns := by
    cases op <;> first | exact absurd rfl isComparison | exact Option.some.inj emitted
  have loaded := site.loaded
  rw [← isCode] at loaded
  rcases reaches_comparison site.dest site.src0 (site.src1 isBinary) loaded site.state with
    ⟨s', ran, isResult⟩
  rw [site.left, site.right isBinary, ← holds_compared isComparison value] at isResult
  rw [Site.Yields, ← isCode]
  exact ⟨s', ran, isResult⟩

/-- A binary operator is computed, save for a quotient of a register by itself that the
emulated division gets wrong. -/
theorem Site.yields_binary (site : Site hardMulDiv op l r) (value : op.binary l r = some w)
    (notSelf : hardMulDiv = false → op = .div → site.ir.src0 = site.ir.src1 →
      0 ≤ l.toInt ∨ l = 0x80000000#32) : site.Yields w := by
  have isBinary := Opcode.isBinary_of_binary_eq_some value
  by_cases isDivision : op = .div ∨ op = .mod
  · rcases Opcode.truncated_of_binary isDivision value with ⟨nonzero, rfl⟩
    exact site.yields_division isDivision nonzero notSelf
  by_cases isComparison : getCond op = .al
  case neg => exact site.yields_comparison isComparison value
  have regRd := site.dest.isReg
  have regRn := site.src0.isReg
  have regRm := (site.src1 isBinary).isReg
  have notRd : 15 ≠ site.ir.dest := (site.dest.ne (by decide)).symm
  have notRn : 15 ≠ site.ir.src0 := (site.src0.ne (by decide)).symm
  have notRm : 15 ≠ site.ir.src1 := ((site.src1 isBinary).ne (by decide)).symm
  have left := site.left
  have right := site.right isBinary
  have emitted := site.emitted
  simp only [instructions, site.operator] at emitted
  cases op <;> first
    | exact absurd isBinary (by decide)
    | exact absurd isComparison (by decide)
    | cases emitted
    | skip
  case div => exact absurd (Or.inl rfl) isDivision
  case mod => exact absurd (Or.inr rfl) isDivision
  case add =>
    cases value
    apply Site.yields_operation (Option.some.inj emitted).symm ⟨regRd, regRn, regRm⟩ rfl
    · simp [Operation.names, Operand.names, notRd, notRn, notRm]
    · rw [effect_addR, left, right]
  case sub =>
    cases value
    apply Site.yields_operation (Option.some.inj emitted).symm ⟨regRd, regRn, regRm⟩ rfl
    · simp [Operation.names, Operand.names, notRd, notRn, notRm]
    · rw [effect_subR, left, right]
  case mul =>
    cases value
    apply Site.yields_operation (Option.some.inj emitted).symm ⟨regRd, regRn, regRm⟩ rfl
    · simp [Operation.names, notRd, notRn, notRm]
    · rw [effect_mul, left, right, mul_comm]
  case bitAnd =>
    cases value
    apply Site.yields_operation (Option.some.inj emitted).symm ⟨regRd, regRn, regRm⟩ rfl
    · simp [Operation.names, Operand.names, notRd, notRn, notRm]
    · rw [effect_andR, left, right]
  case bitOr =>
    cases value
    apply Site.yields_operation (Option.some.inj emitted).symm ⟨regRd, regRn, regRm⟩ rfl
    · simp [Operation.names, Operand.names, notRd, notRn, notRm]
    · rw [effect_orR, left, right]
  case bitXor =>
    cases value
    apply Site.yields_operation (Option.some.inj emitted).symm ⟨regRd, regRn, regRm⟩ rfl
    · simp [Operation.names, Operand.names, notRd, notRn, notRm]
    · rw [effect_eorR, left, right]
  case lshift =>
    rw [Opcode.binary, Option.ite_none_right_eq_some] at value
    rcases value with ⟨small, isShift⟩
    cases isShift
    apply Site.yields_operation (Option.some.inj emitted).symm ⟨regRd, regRn, regRm⟩ rfl
    · simp [Operation.names, Operand.names, notRd, notRn, notRm]
    · rw [effect_sll, left, right, Nat.mod_eq_of_lt (by omega)]
  case rshift =>
    rw [Opcode.binary, Option.ite_none_right_eq_some] at value
    rcases value with ⟨small, isShift⟩
    cases isShift
    apply Site.yields_operation (Option.some.inj emitted).symm ⟨regRd, regRn, regRm⟩ rfl
    · simp [Operation.names, Operand.names, notRd, notRn, notRm]
    · rw [effect_sra, left, right, Nat.mod_eq_of_lt (by omega)]

end Yields

end Shecc.Arm
