import Shecc.Ir.Exec
import Shecc.Optimize.Invariant

/-!
# Compile-time constants

A variable is a compile-time constant when its definition can only give it one
value, given the compile-time constants it reads. This is a notion about the
function before optimisation. Along every run in which no pointer store and no
callee changes such a variable in memory, it holds that value from its definition
on.
-/

namespace Shecc.Optimize

/-- The instructions whose value is determined by their operands. -/
def Determined (insn : Insn) : Prop :=
  insn.opcode = .assign ∨ insn.opcode.isBinary = true ∨ insn.opcode.isUnary = true

/-- `v` is a compile-time constant with value `k`. In the last case `table` flags
the operands already known, and the definition computes `k` whatever the values
of the others. -/
inductive CompileTime (vars : Vars) (insns : List Insn) : VarId → Word → Prop where
  | load {insn : Insn} {v : VarId} (present : insn ∈ insns)
      (isLoad : insn.opcode = .loadConstant) (rdEq : insn.rd = some v) :
      CompileTime vars insns v (vars v).initVal
  | trunc {insn : Insn} {u v : VarId} {c k : Word} (present : insn ∈ insns)
      (isTrunc : insn.opcode = .trunc) (rdEq : insn.rd = some v) (rs1Eq : insn.rs1 = some u)
      (isLocal : (vars v).isGlobal = false) (source : CompileTime vars insns u c)
      (truncated : truncateWord insn.sz c = some k) : CompileTime vars insns v k
  | forced {insn : Insn} {v : VarId} {k : Word} (table : Vars) (present : insn ∈ insns)
      (determined : Determined insn) (rdEq : insn.rd = some v)
      (isLocal : (vars v).isGlobal = false)
      (known : ∀ x ∈ uses insn, (table x).isConst = true →
        CompileTime vars insns x (table x).initVal)
      (agree : ∀ env w, computes table env insn = some w → w = k) :
      CompileTime vars insns v k

/-- What the definition of a compile-time constant looks like. -/
def Forces (vars : Vars) (insns : List Insn) (insn : Insn) (v : VarId) (k : Word) : Prop :=
  (insn.opcode = .loadConstant ∧ k = (vars v).initVal) ∨
    (insn.opcode = .trunc ∧ ∃ u c, insn.rs1 = some u ∧ CompileTime vars insns u c ∧
      truncateWord insn.sz c = some k) ∨
    (Determined insn ∧ ∃ table : Vars,
      (∀ x ∈ uses insn, (table x).isConst = true →
        CompileTime vars insns x (table x).initVal) ∧
      ∀ env w, computes table env insn = some w → w = k)

namespace CompileTime

variable {vars : Vars} {insns : List Insn} {v : VarId} {k : Word}

/-- A compile-time constant has a definition that forces its value. -/
theorem definition (constant : CompileTime vars insns v k)
    (ssa : InSsaForm vars insns) :
    ∃ insn ∈ insns, insn.rd = some v ∧ (vars v).isGlobal = false ∧
      Forces vars insns insn v k := by
  cases constant with
  | @load insn _ present isLoad rdEq =>
      obtain ⟨rd, rdEq', isLocal⟩ := (ssa.shaped insn present).load isLoad
      obtain rfl := Option.some.inj (rdEq.symm.trans rdEq')
      exact ⟨insn, present, rdEq, isLocal, Or.inl ⟨isLoad, rfl⟩⟩
  | @trunc insn u _ c _ present isTrunc rdEq rs1Eq isLocal source truncated =>
      exact ⟨insn, present, rdEq, isLocal,
        Or.inr (Or.inl ⟨isTrunc, u, c, rs1Eq, source, truncated⟩)⟩
  | @forced insn _ _ table present determined rdEq isLocal known agree =>
      exact ⟨insn, present, rdEq, isLocal, Or.inr (Or.inr ⟨determined, table, known, agree⟩)⟩

/-- Every instruction that defines a compile-time constant forces its value. -/
theorem forces (constant : CompileTime vars insns v k) (ssa : InSsaForm vars insns)
    {insn : Insn} (present : insn ∈ insns) (rdEq : insn.rd = some v) :
    Forces vars insns insn v k := by
  obtain ⟨other, otherPresent, otherEq, isLocal, otherForces⟩ := constant.definition ssa
  by_cases same : insn = other
  · rw [same]
    exact otherForces
  · have single := ssa.single.forall present otherPresent same
    rcases single v rdEq otherEq with isGlobal | ⟨-, isPhi⟩ | ⟨isLoad, isLoad'⟩
    · rw [isLocal] at isGlobal
      cases isGlobal
    · rcases otherForces with ⟨isLoad, -⟩ | ⟨isTrunc, -⟩ | ⟨determined, -⟩
      · rw [isPhi] at isLoad
        cases isLoad
      · rw [isPhi] at isTrunc
        cases isTrunc
      · rw [Determined, isPhi] at determined
        rcases determined with impossible | impossible | impossible <;> cases impossible
    · rcases otherForces with ⟨-, value⟩ | ⟨isTrunc, -⟩ | ⟨determined, -⟩
      · exact Or.inl ⟨isLoad, value⟩
      · rw [isLoad'] at isTrunc
        cases isTrunc
      · rw [Determined, isLoad'] at determined
        rcases determined with impossible | impossible | impossible <;> cases impossible

end CompileTime

/-! ## Along a run -/

/-- The step leaves every address-taken compile-time constant in memory as it
is: the pointer it stores through, or the callee, does not change one. -/
def KeepsConstants (world : World) (vars : Vars) (insns : List Insn) (insn : Insn)
    (s s' : State) : Prop :=
  (insn.opcode = .write ∨ insn.opcode = .call ∨ insn.opcode = .indirect) →
    ∀ v k, CompileTime vars insns v k → (vars v).addressTaken = true →
      s.memory.loadWord (world.home v) = k → s'.memory.loadWord (world.home v) = k

/-- A determined instruction evaluates to what it computes from the values of
its operands. -/
theorem computes_of_evaluate {world : World} {vars table : Vars} {s : State} {insn : Insn}
    {rd : VarId} {w : Word} (determined : Determined insn) (rdEq : insn.rd = some rd)
    (known : ∀ x ∈ uses insn, (table x).isConst = true →
      s.value world vars x = (table x).initVal)
    (value : evaluate world vars s insn = some w) :
    computes table (s.value world vars) insn = some w := by
  have read (x : VarId) (used : x ∈ uses insn) :
      operand table (s.value world vars) x = s.value world vars x := by
    unfold operand
    split
    · rename_i flagged
      exact (known x used flagged).symm
    · rfl
  rcases insn with ⟨op, rd', rs1, rs2, sz, str, useful, idx⟩
  cases rdEq
  have first (x : VarId) (isFirst : rs1 = some x) := read x (by simp [uses, isFirst])
  have second (x : VarId) (isSecond : rs2 = some x) := read x (by simp [uses, isSecond])
  rcases determined with isAssign | binary | unary
  · cases isAssign
    cases rs1 with
    | none => cases value
    | some x =>
        rw [computes_assign, first x rfl]
        exact value
  · cases rs1 with
    | none => cases op <;> cases binary <;> cases value
    | some x =>
        cases rs2 with
        | none => cases op <;> cases binary <;> cases value
        | some y =>
            rw [computes_binary rfl rfl rfl rfl binary, first x rfl, second y rfl]
            cases op <;> cases binary <;> exact value
  · cases rs1 with
    | none => cases op <;> cases unary <;> cases value
    | some x =>
        have readX := first x rfl
        cases rs2 with
        | none =>
            rw [computes_unary rfl rfl rfl rfl unary, readX]
            cases op <;> cases unary <;> exact value
        | some y => cases op <;> cases unary <;> cases value

variable {world : World} {vars : Vars} {f : Func} {start : State}

/-- The value a forcing definition evaluates to. -/
theorem forced_value {s : State} {insn : Insn} {v : VarId} {k w : Word}
    (forces : Forces vars f.insns insn v k) (rdEq : insn.rd = some v)
    (known : ∀ x ∈ uses insn, ∀ c, CompileTime vars f.insns x c → s.value world vars x = c)
    (value : evaluate world vars s insn = some w) : w = k := by
  rcases forces with ⟨isLoad, same⟩ | ⟨isTrunc, u, c, rs1Eq, source, truncated⟩ |
    ⟨determined, table, operands, agree⟩
  · rw [evaluate, isLoad, rdEq] at value
    exact (Option.some.inj value).symm.trans same.symm
  · have read := known u (by simp [uses, rs1Eq]) c source
    rw [evaluate, isTrunc, rs1Eq] at value
    simp only [Option.bind_some, read, truncated] at value
    exact (Option.some.inj value).symm
  · exact agree _ w (computes_of_evaluate determined rdEq
      (fun x used flagged => known x used _ (operands x used flagged)) value)

/-- Only an assignment executes an instruction that forces its destination. -/
theorem exec_forces {insns : List Insn} {s s' : State} {insn : Insn} {v : VarId} {k : Word}
    (forces : Forces vars insns insn v k) (rdEq : insn.rd = some v)
    (step : Exec world vars insn s s') :
    ∃ w, evaluate world vars s insn = some w ∧ s' = s.assign world vars v w := by
  have opcodes : insn.opcode ≠ .allocat ∧ insn.opcode ≠ .write ∧ insn.opcode ≠ .push ∧
      insn.opcode ≠ .call ∧ insn.opcode ≠ .indirect := by
    rcases forces with ⟨isLoad, -⟩ | ⟨isTrunc, -⟩ | ⟨isAssign | binary | unary, -⟩
    · rw [isLoad]
      decide
    · rw [isTrunc]
      decide
    · rw [isAssign]
      decide
    · refine ⟨?_, ?_, ?_, ?_, ?_⟩ <;> intro opcodeEq <;> rw [opcodeEq] at binary <;> cases binary
    · refine ⟨?_, ?_, ?_, ?_, ?_⟩ <;> intro opcodeEq <;> rw [opcodeEq] at unary <;> cases unary
  cases step with
  | @assigns rd w rdEq' value =>
      obtain rfl := Option.some.inj (rdEq.symm.trans rdEq')
      exact ⟨w, value, rfl⟩
  | declares isAllocat => exact absurd isAllocat opcodes.1
  | writes isWrite => exact absurd isWrite opcodes.2.1
  | pushes isPush => exact absurd isPush opcodes.2.2.1
  | calls isCall => exact absurd isCall opcodes.2.2.2.1
  | callsIndirect isIndirect => exact absurd isIndirect opcodes.2.2.2.2

/-- A step that does not define `v` and keeps the constants keeps the value of
the compile-time constant `v`. -/
theorem exec_keeps {insns : List Insn} {s s' : State} {insn : Insn} {v : VarId} {k : Word}
    (ssa : InSsaForm vars insns) (separated : world.Separated vars)
    (constant : CompileTime vars insns v k) (other : insn.rd ≠ some v)
    (step : Exec world vars insn s s') (keeps : KeepsConstants world vars insns insn s s')
    (value : s.value world vars v = k) : s'.value world vars v = k := by
  obtain ⟨-, -, -, isLocal, -⟩ := constant.definition ssa
  -- Outside memory the environment decides, in memory the step keeps the constant.
  have memoryOnly {m : Memory} {args : List Word} {ret : Word}
      (after : s' = { s with memory := m, args := args, ret := ret })
      (touches : insn.opcode = .write ∨ insn.opcode = .call ∨ insn.opcode = .indirect) :
      s'.value world vars v = k := by
    have inMemory := keeps touches v k constant
    subst after
    unfold State.value at value ⊢
    unfold resident at value ⊢
    rw [isLocal, Bool.false_or] at value ⊢
    by_cases taken : (vars v).addressTaken = true
    · rw [if_pos taken] at value ⊢
      exact inMemory taken value
    · rw [if_neg taken] at value ⊢
      exact value
  cases step with
  | @assigns rd w rdEq' _ =>
      have different : v ≠ rd := by
        rintro rfl
        exact other rdEq'
      rw [State.value_assign_ne separated s w different]
      exact value
  | declares => exact value
  | writes isWrite => exact memoryOnly rfl (Or.inl isWrite)
  | pushes => exact value
  | calls isCall => exact memoryOnly rfl (Or.inr (Or.inl isCall))
  | callsIndirect isIndirect => exact memoryOnly rfl (Or.inr (Or.inr isIndirect))

/-- Along every run that keeps the constants, a compile-time constant holds its
value from its definition on. -/
theorem run_constant (ssa : InSsaForm vars f.insns) (strict : f.Strict)
    (separated : world.Separated vars) {trace : List Insn} {bb : BlockId} {rest : List Insn}
    {s : State} (run : Run world vars f (KeepsConstants world vars f.insns) start trace bb rest s)
    {v : VarId} {k : Word} (constant : CompileTime vars f.insns v k)
    (defined : ∃ definition ∈ trace, definition.rd = some v) : s.value world vars v = k := by
  induction run generalizing v k with
  | start =>
      obtain ⟨_, impossible, -⟩ := defined
      cases impossible
  | @exec trace bb insn rest s s' before step meets inductionHypothesis =>
      have inside : insn ∈ f.insns := before.path.inside.2.1 insn List.mem_cons_self
      by_cases rdEq : insn.rd = some v
      · have forces := constant.forces ssa inside rdEq
        obtain ⟨w, value, rfl⟩ := exec_forces forces rdEq step
        rw [State.value_assign_same]
        refine forced_value forces rdEq (fun x used c source => ?_) value
        refine inductionHypothesis source (strict before.path x used ?_)
        obtain ⟨definition, present, definitionEq, -⟩ := source.definition ssa
        exact ⟨definition, present, definitionEq⟩
      · refine exec_keeps ssa separated constant rdEq step meets (inductionHypothesis constant ?_)
        obtain ⟨definition, present, definitionEq⟩ := defined
        rcases List.mem_cons.mp present with rfl | present
        · exact absurd definitionEq rdEq
        · exact ⟨definition, present, definitionEq⟩
  | jump _ _ inductionHypothesis => exact inductionHypothesis constant defined
  | @branch trace bb succ insn _ rest s before isBranch _ _ inductionHypothesis =>
      refine inductionHypothesis constant ?_
      obtain ⟨definition, present, definitionEq⟩ := defined
      rcases List.mem_cons.mp present with rfl | present
      · have inside : definition ∈ f.insns := before.path.inside.2.1 _ List.mem_cons_self
        rcases constant.forces ssa inside definitionEq with ⟨isLoad, -⟩ | ⟨isTrunc, -⟩ |
          ⟨isAssign | binary | unary, -⟩
        · rw [isBranch] at isLoad
          cases isLoad
        · rw [isBranch] at isTrunc
          cases isTrunc
        · rw [isBranch] at isAssign
          cases isAssign
        · rw [isBranch] at binary
          cases binary
        · rw [isBranch] at unary
          cases unary
      · exact ⟨definition, present, definitionEq⟩

/-- The instruction that defines a compile-time constant produces its value. -/
theorem run_produces (ssa : InSsaForm vars f.insns) (strict : f.Strict)
    (separated : world.Separated vars) {trace : List Insn} {bb : BlockId} {insn : Insn}
    {rest : List Insn} {s s' : State}
    (run : Run world vars f (KeepsConstants world vars f.insns) start trace bb (insn :: rest) s)
    (step : Exec world vars insn s s') {v : VarId} {k : Word} (rdEq : insn.rd = some v)
    (constant : CompileTime vars f.insns v k) : s'.value world vars v = k := by
  have inside : insn ∈ f.insns := run.path.inside.2.1 insn List.mem_cons_self
  have forces := constant.forces ssa inside rdEq
  obtain ⟨w, value, rfl⟩ := exec_forces forces rdEq step
  rw [State.value_assign_same]
  refine forced_value forces rdEq (fun x used c source => ?_) value
  refine run_constant ssa strict separated run source (strict run.path x used ?_)
  obtain ⟨definition, present, definitionEq, -⟩ := source.definition ssa
  exact ⟨definition, present, definitionEq⟩

end Shecc.Optimize
