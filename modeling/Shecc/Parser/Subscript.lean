import Shecc.Parser.Placed
import Shecc.Parser.Computes

/-!
# Subscripts

What `read_lvalue` does for one subscript around its index: an element named
before is read if it is a pointer, and behind the index the address moves by the
index times a stride.
-/

namespace Shecc.Parser

open Shecc.Preprocessor (Token TokenKind SourceLocation Cursor)

/-! ## The steps of a subscript -/

/-- An element that was named before is a pointer. -/
def Suffix.Loads (s : Suffix) : Prop :=
  s.lvalue.isReference ∧ s.lvalue.ptrLevel ≠ 0 ∧ s.isMember

instance (s : Suffix) : Decidable s.Loads := inferInstanceAs (Decidable (_ ∧ _ ∧ _))

/-- A pointer that was named before is read. -/
def resolveElement (ctx : Context) (s : Suffix) : Parse Unit := do
  if s.Loads then unaryTemp ctx .read 4

/-- Only pointers and arrays have elements. -/
def requireElements (ctx : Context) (s : Suffix) : Parse Unit := do
  if s.var.ptrLevel = 0 ∧ s.var.arraySize = 0 ∧ !isTypedefPointer ctx s.var then
    errorAtCur "Cannot apply square operator to non-pointer"

/-- The stride of the subscript, for elements of a size. -/
def Suffix.multiplier (s : Suffix) (size : Int) : Int :=
  if !s.isAddressGot ∧ s.var.arrayDim2 > 0 then s.var.arrayDim2 * size else size

/-- The address on the operand stack moves by the index times the stride. -/
def addIndex (ctx : Context) (multiplier : Int) : Parse Unit := do
  if multiplier ≠ 1 then
    pushConstant ctx (BitVec.ofInt 32 multiplier)
    binaryTemp ctx .mul
  binaryTemp ctx .add

/-- What is known behind a subscript. -/
def Suffix.indexed (s : Suffix) (size : Int) : Suffix :=
  { s with
    lvalue := { s.lvalue with size := size, isReference := true }
    isAddressGot := true
    isMember := true }

theorem bind_ite {α β : Type} {condition : Prop} [Decidable condition] (step other : Parse α)
    (rest : α → Parse β) : (if condition then step else other) >>= rest =
      if condition then step >>= rest else other >>= rest := by
  split <;> rfl

theorem readSubscript_eq (self : Readers) (ctx : Context) (s : Suffix) :
    readSubscript self ctx s = (do
      resolveElement ctx s
      requireElements ctx s
      let size ← elementSize ctx s
      self.readExpr
      addIndex ctx (s.multiplier size)
      lexExpect .closeSquare
      pure (s.indexed size)) := by
  simp only [readSubscript, resolveElement, requireElements, addIndex, bind_ite, bind_assoc,
    pure_bind]
  rfl

/-! ## Code that is emitted -/

/-- The instructions that were added to the block the parser was in. -/
def emitted (p p' : Parsing) : List Insn :=
  (p'.block p.bb).insns.drop (p.block p.bb).insns.length

/-- Instructions were added to the block the parser is in. -/
structure Emits (code : List Insn) (p p' : Parsing) : Prop where
  bb : p'.bb = p.bb
  length : p'.blocks.length = p.blocks.length
  insns : (p'.block p.bb).insns = (p.block p.bb).insns ++ code

namespace Emits

variable {code others : List Insn} {p q r : Parsing}

theorem emitted_eq (emits : Emits code p q) : emitted p q = code := by
  rw [emitted, emits.insns, List.drop_left]

theorem trans (first : Emits code p q) (second : Emits others q r) :
    Emits (code ++ others) p r where
  bb := second.bb.trans first.bb
  length := second.length.trans first.length
  insns := by rw [← first.bb, second.insns, first.bb, first.insns, List.append_assoc]

theorem of_same (blocks : q.blocks = p.blocks) (bb : q.bb = p.bb) : Emits [] p q where
  bb := bb
  length := by rw [blocks]
  insns := by simp [Parsing.block, blocks]

theorem compute (inside : p.bb < p.blocks.length) (record : VarRecord) (insn : Insn)
    (rest : List VarId) : Emits [insn] p (p.compute record insn rest) := by
  refine ⟨rfl, by simp, ?_⟩
  unfold Parsing.compute Parsing.append
  rw [Parsing.block_modifyBlock, if_pos ⟨rfl, by simpa using inside⟩]
  rfl

end Emits

/-- The records of the variables made between two states are those of the second. -/
def Settled (vars : Vars) (p p' : Parsing) : Prop :=
  ∀ v, p.vars.length ≤ v → v < p'.vars.length → vars v = p'.irVars v

/-- Code was added that computes a result into a new variable, which is pushed. -/
structure Pushes (q q' : Parsing) (rest : List VarId) (result : VarId)
    (value : World → Vars → State → Word) : Prop where
  stack : q'.operandStack = result :: rest
  known : result < q'.vars.length
  less : q.vars.length ≤ q'.vars.length
  old : ∀ v < q.vars.length, q'.var v = q.var v
  emits : Emits (emitted q q') q q'
  computes : ∀ {world : World} {vars : Vars}, Settled vars q q' →
    Computes world vars (emitted q q') q.vars.length result (value world vars)

theorem Settled.before {vars : Vars} {q middle q' : Parsing} (settled : Settled vars q q')
    (less : middle.vars.length ≤ q'.vars.length)
    (same : ∀ v < middle.vars.length, q'.var v = middle.var v) : Settled vars q middle := by
  intro v new made
  rw [settled v new (Nat.lt_of_lt_of_le made less), Parsing.irVars, Parsing.irVars, same v made]

theorem Settled.behind {vars : Vars} {q middle q' : Parsing} (settled : Settled vars q q')
    (less : q.vars.length ≤ middle.vars.length) : Settled vars middle q' :=
  fun v new made => settled v (less.trans new) made

/-- One result and then another, which may be computed from it. -/
theorem Pushes.andThen {q middle q' : Parsing} {others rest : List VarId} {first result : VarId}
    {value value' value'' : World → Vars → State → Word}
    (before : Pushes q middle others first value)
    (behind : Pushes middle q' rest result value')
    (valueEq : ∀ {world vars t s},
      Delivers world vars q.vars.length first (value world vars t) t s →
      value' world vars s = value'' world vars t) : Pushes q q' rest result value'' := by
  have emits := before.emits.trans behind.emits
  refine ⟨behind.stack, behind.known, before.less.trans behind.less, ?_, ?_, ?_⟩
  · intro v old
    rw [behind.old v (Nat.lt_of_lt_of_le old before.less), before.old v old]
  · rw [emits.emitted_eq]
    exact emits
  · intro world vars settled
    rw [emits.emitted_eq]
    have first := @Pushes.computes _ _ _ _ _ before world _ (settled.before behind.less behind.old)
    have second := @Pushes.computes _ _ _ _ _ behind world _ (settled.behind before.less)
    exact first.andThen (second.mono before.less) valueEq

/-- What one instruction computes into a new variable. -/
theorem pushes_compute {q : Parsing} {record : VarRecord} {insn : Insn} {rest : List VarId}
    {value : World → Vars → State → Word} (inside : q.bb < q.blocks.length)
    (noGlobal : record.isGlobal = false) (noAddress : record.addressTaken = false)
    (exec : ∀ {world vars}, (vars q.vars.length).initVal = record.initVal → ∀ t s,
      Exec world vars insn t s ↔
        s = t.assign world vars q.vars.length (value world vars t)) :
    Pushes q (q.compute record insn rest) rest q.vars.length value := by
  have emits := Emits.compute inside record insn rest
  refine ⟨rfl, by simp, by simp, fun v old => q.var_compute_old _ _ _ old,
    emits.emitted_eq ▸ emits, fun {world vars} settled => ?_⟩
  have isRecord := settled q.vars.length le_rfl (by simp)
  have notResident : resident vars q.vars.length = false := by
    simp [resident, isRecord, Parsing.irVars, Parsing.var_compute, noGlobal, noAddress]
  have constant : (vars q.vars.length).initVal = record.initVal := by
    simp [isRecord, Parsing.irVars, Parsing.var_compute]
  exact emits.emitted_eq ▸ computes_of_exec notResident le_rfl (exec constant)

section Steps

variable {ctx : Context} {q q' : Parsing} {address index rs1 rs2 : VarId} {rest : List VarId}

theorem pushes_pushConstant {value : Word} (inside : q.bb < q.blocks.length)
    (ran : pushConstant ctx value q = .ok ((), q')) :
    Pushes q q' q.operandStack q.vars.length fun _ _ _ => value := by
  rw [pushConstant_eq_ok ran]
  refine pushes_compute inside rfl rfl fun constant t s => ?_
  rw [exec_loadConstant_iff, constant]

theorem pushes_mul (inside : q.bb < q.blocks.length)
    (ran : binaryTemp ctx .mul q = .ok ((), q')) (stackEq : q.operandStack = rs2 :: rs1 :: rest) :
    Pushes q q' rest q.vars.length fun world vars s =>
      s.value world vars rs1 * s.value world vars rs2 := by
  rcases binaryTemp_eq_ok (by decide) (by decide) ran with ⟨_, _, _, stackEq', rfl⟩
  cases stackEq.symm.trans stackEq'
  exact pushes_compute inside rfl rfl fun _ _ _ => exec_mul_iff

theorem pushes_add (inside : q.bb < q.blocks.length)
    (ran : binaryTemp ctx .add q = .ok ((), q')) (stackEq : q.operandStack = rs2 :: rs1 :: rest) :
    Pushes q q' rest q.vars.length fun world vars s =>
      s.value world vars rs1 + s.value world vars rs2 := by
  rcases binaryTemp_eq_ok (by decide) (by decide) ran with ⟨_, _, _, stackEq', rfl⟩
  cases stackEq.symm.trans stackEq'
  exact pushes_compute inside rfl rfl fun _ _ _ => exec_add_iff

/-- The code that reads an element that is a pointer. -/
theorem pushes_read (inside : q.bb < q.blocks.length)
    (ran : unaryTemp ctx .read 4 q = .ok ((), q')) (stackEq : q.operandStack = address :: rest) :
    Pushes q q' rest q.vars.length fun world vars s =>
      world.arch.load s.memory (s.value world vars address) 4 := by
  rcases unaryTemp_eq_ok (by decide) (by decide) ran with ⟨_, _, stackEq', rfl⟩
  cases stackEq.symm.trans stackEq'
  exact pushes_compute inside rfl rfl fun _ _ _ => exec_read_iff

/-- The code of a subscript behind the index. -/
theorem pushes_addIndex {multiplier : Int} (inside : q.bb < q.blocks.length)
    (ran : addIndex ctx multiplier q = .ok ((), q'))
    (stackEq : q.operandStack = index :: address :: rest) (indexKnown : index < q.vars.length)
    (addressKnown : address < q.vars.length) :
    ∃ result, Pushes q q' rest result fun world vars s =>
      s.value world vars address + s.value world vars index * BitVec.ofInt 32 multiplier := by
  unfold addIndex at ran
  by_cases one : multiplier = 1
  · rw [if_neg (not_not.mpr one)] at ran
    refine ⟨q.vars.length, ?_⟩
    simpa [one] using pushes_add inside ran stackEq
  · rw [if_pos one] at ran
    rcases Parse.bind_eq_ok_iff.mp ran with ⟨⟨⟩, loaded, ranConstant, ran⟩
    rcases Parse.bind_eq_ok_iff.mp ran with ⟨⟨⟩, scaled, ranMul, ranAdd⟩
    have constant := pushes_pushConstant inside ranConstant
    have inside : loaded.bb < loaded.blocks.length := by
      rwa [constant.emits.bb, constant.emits.length]
    have product := pushes_mul inside ranMul (constant.stack.trans (by rw [stackEq]))
    have inside : scaled.bb < scaled.blocks.length := by
      rwa [product.emits.bb, product.emits.length]
    have sum := pushes_add inside ranAdd product.stack
    have offset : Pushes q scaled (address :: rest) loaded.vars.length fun world vars s =>
        s.value world vars index * BitVec.ofInt 32 multiplier := by
      refine constant.andThen product fun delivers => ?_
      rw [delivers.value, delivers.value_eq indexKnown]
    refine ⟨_, offset.andThen sum fun delivers => ?_⟩
    rw [delivers.value, delivers.value_eq addressKnown]

end Steps

end Shecc.Parser
