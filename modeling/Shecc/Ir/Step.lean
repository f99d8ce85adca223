import Shecc.Ir.Exec
import Mathlib.Logic.Relation

/-!
# Executing code that is being built

A graph of blocks is executed from any position in it: a position is a block and
the number of its instructions that are done. Code without branches runs
straight through its block, and on into the successor.
-/

namespace Shecc

/-- A position in a graph: a block and the instructions of it that are done. -/
structure Position where
  bb : BlockId
  index : Nat

/-- One step of control through a graph. -/
inductive Step (world : World) (vars : Vars) (graph : BlockId → Block) :
    Position × State → Position × State → Prop where
  | exec {bb : BlockId} {index : Nat} {insn : Insn} {s s' : State}
      (insnEq : (graph bb).insns[index]? = some insn) (step : Exec world vars insn s s') :
      Step world vars graph (⟨bb, index⟩, s) (⟨bb, index + 1⟩, s')
  | jump {bb succ : BlockId} {s : State} (edge : (graph bb).next = some succ) :
      Step world vars graph (⟨bb, (graph bb).insns.length⟩, s) (⟨succ, 0⟩, s)
  | branch {bb succ : BlockId} {index : Nat} {insn : Insn} {rs1 : VarId} {s : State}
      (insnEq : (graph bb).insns[index]? = some insn) (isBranch : insn.opcode = .branch)
      (rs1Eq : insn.rs1 = some rs1)
      (edge : (if (s.value world vars rs1).truth then (graph bb).then_
        else (graph bb).else_) = some succ) :
      Step world vars graph (⟨bb, index⟩, s) (⟨succ, 0⟩, s)

/-- Steps of control, as many as it takes. -/
abbrev Reaches (world : World) (vars : Vars) (graph : BlockId → Block) :
    Position × State → Position × State → Prop :=
  Relation.ReflTransGen (Step world vars graph)

/-- Instructions are executed one after the other. -/
inductive Executes (world : World) (vars : Vars) : List Insn → State → State → Prop where
  | nil (s : State) : Executes world vars [] s s
  | cons {insn : Insn} {rest : List Insn} {s s' s'' : State} (step : Exec world vars insn s s')
      (behind : Executes world vars rest s' s'') : Executes world vars (insn :: rest) s s''

variable {world : World} {vars : Vars} {graph : BlockId → Block}

namespace Executes

@[simp]
theorem nil_iff {s s' : State} : Executes world vars [] s s' ↔ s' = s := by
  constructor
  · intro executes
    cases executes
    rfl
  · rintro rfl
    exact .nil _

@[simp]
theorem cons_iff {insn : Insn} {rest : List Insn} {s s'' : State} :
    Executes world vars (insn :: rest) s s'' ↔
      ∃ s', Exec world vars insn s s' ∧ Executes world vars rest s' s'' := by
  constructor
  · intro executes
    cases executes with
    | cons step behind => exact ⟨_, step, behind⟩
  · rintro ⟨s', step, behind⟩
    exact .cons step behind

theorem append_iff {code others : List Insn} {s s'' : State} :
    Executes world vars (code ++ others) s s'' ↔
      ∃ s', Executes world vars code s s' ∧ Executes world vars others s' s'' := by
  induction code generalizing s with
  | nil => simp
  | cons insn rest inductionHypothesis =>
      simp only [List.cons_append, cons_iff, inductionHypothesis]
      constructor
      · rintro ⟨s₁, step, s₂, before, behind⟩
        exact ⟨s₂, ⟨s₁, step, before⟩, behind⟩
      · rintro ⟨s₂, ⟨s₁, step, before⟩, behind⟩
        exact ⟨s₁, step, s₂, before, behind⟩

end Executes

/-- The opcodes of instructions that do more than give their destination a value. -/
def acting : List Opcode := [.allocat, .write, .push, .call, .indirect]

/-- Any other instruction with a destination gives it a value. -/
theorem exec_iff_of_not_acting {insn : Insn} {rd : VarId} {s s' : State}
    (computes : insn.opcode ∉ acting) (rdEq : insn.rd = some rd) :
    Exec world vars insn s s' ↔
      ∃ w, evaluate world vars s insn = some w ∧ s' = s.assign world vars rd w := by
  constructor
  · intro step
    cases step with
    | assigns rdEq' value =>
        cases rdEq.symm.trans rdEq'
        exact ⟨_, value, rfl⟩
    | declares isAllocat _ _ => simp [acting, isAllocat] at computes
    | writes isWrite _ _ => simp [acting, isWrite] at computes
    | pushes isPush _ => simp [acting, isPush] at computes
    | calls isCall _ => simp [acting, isCall] at computes
    | callsIndirect isIndirect _ _ => simp [acting, isIndirect] at computes
  · rintro ⟨w, value, rfl⟩
    exact .assigns rdEq value

theorem exec_assign_iff {rd rs1 : VarId} {s s' : State} :
    Exec world vars { opcode := .assign, rd := some rd, rs1 := some rs1 } s s' ↔
      s' = s.assign world vars rd (s.value world vars rs1) := by
  rw [exec_iff_of_not_acting (by simp [acting]) rfl]
  simp [evaluate]

theorem exec_read_iff {rd rs1 : VarId} {sz : Int} {s s' : State} :
    Exec world vars { opcode := .read, rd := some rd, rs1 := some rs1, sz := sz } s s' ↔
      s' = s.assign world vars rd (world.arch.load s.memory (s.value world vars rs1) sz) := by
  rw [exec_iff_of_not_acting (by simp [acting]) rfl]
  simp [evaluate]

theorem exec_loadConstant_iff {rd : VarId} {s s' : State} :
    Exec world vars { opcode := .loadConstant, rd := some rd } s s' ↔
      s' = s.assign world vars rd (vars rd).initVal := by
  rw [exec_iff_of_not_acting (by simp [acting]) rfl]
  simp [evaluate]

theorem exec_add_iff {rd rs1 rs2 : VarId} {s s' : State} :
    Exec world vars { opcode := .add, rd := some rd, rs1 := some rs1, rs2 := some rs2 } s s' ↔
      s' = s.assign world vars rd (s.value world vars rs1 + s.value world vars rs2) := by
  rw [exec_iff_of_not_acting (by simp [acting]) rfl]
  simp [evaluate, Opcode.binary]

theorem exec_mul_iff {rd rs1 rs2 : VarId} {s s' : State} :
    Exec world vars { opcode := .mul, rd := some rd, rs1 := some rs1, rs2 := some rs2 } s s' ↔
      s' = s.assign world vars rd (s.value world vars rs1 * s.value world vars rs2) := by
  rw [exec_iff_of_not_acting (by simp [acting]) rfl]
  simp [evaluate, Opcode.binary]

/-- A branch gives no variable a value. -/
theorem not_exec_of_branch {insn : Insn} {s s' : State} (isBranch : insn.opcode = .branch)
    (noRd : insn.rd = none) : ¬Exec world vars insn s s' := by
  intro step
  cases step with
  | assigns rdEq _ => cases noRd.symm.trans rdEq
  | declares isAllocat _ _ => cases isBranch.symm.trans isAllocat
  | writes isWrite _ _ => cases isBranch.symm.trans isWrite
  | pushes isPush _ => cases isBranch.symm.trans isPush
  | calls isCall _ => cases isBranch.symm.trans isCall
  | callsIndirect isIndirect _ _ => cases isBranch.symm.trans isIndirect

/-- The steps from a branch that both ways are known of. -/
theorem step_branch_iff {bb trueBb falseBb : BlockId} {index : Nat} {insn : Insn} {rs1 : VarId}
    {s : State} {next : Position × State} (insnEq : (graph bb).insns[index]? = some insn)
    (isBranch : insn.opcode = .branch) (noRd : insn.rd = none) (rs1Eq : insn.rs1 = some rs1)
    (thenEq : (graph bb).then_ = some trueBb) (elseEq : (graph bb).else_ = some falseBb) :
    Step world vars graph (⟨bb, index⟩, s) next ↔
      next = (⟨if (s.value world vars rs1).truth then trueBb else falseBb, 0⟩, s) := by
  constructor
  · intro step
    cases step with
    | exec insnEq' step =>
        cases insnEq.symm.trans insnEq'
        exact absurd step (not_exec_of_branch isBranch noRd)
    | jump edge => simp at insnEq
    | branch insnEq' _ rs1Eq' edge =>
        cases insnEq.symm.trans insnEq'
        cases rs1Eq.symm.trans rs1Eq'
        rw [thenEq, elseEq] at edge
        split at edge <;> cases edge <;> simp_all
  · rintro rfl
    refine .branch insnEq isBranch rs1Eq ?_
    rw [thenEq, elseEq]
    split <;> rfl

/-- Nothing is left to do, and there is no way on. -/
theorem reaches_of_end {bb : BlockId} {s : State} {last : Position × State}
    (noNext : (graph bb).next = none)
    (reaches : Reaches world vars graph (⟨bb, (graph bb).insns.length⟩, s) last) :
    last = (⟨bb, (graph bb).insns.length⟩, s) := by
  rcases Relation.ReflTransGen.cases_head reaches with same | ⟨middle, step, -⟩
  · exact same.symm
  · generalize start : ((⟨bb, (graph bb).insns.length⟩, s) : Position × State) = first at step
    cases step with
    | exec insnEq _ =>
        cases start
        simp at insnEq
    | jump edge =>
        cases start
        cases noNext.symm.trans edge
    | branch insnEq _ _ _ =>
        cases start
        simp at insnEq

/-- A block that control only leaves at its end. -/
structure Block.Straight (block : Block) : Prop where
  then_ : block.then_ = none
  else_ : block.else_ = none

/-- The code of a straight block is executed from any position in it to any later one. -/
theorem reaches_of_executes {bb : BlockId} {before code behind : List Insn} {s s' : State}
    (insnsEq : (graph bb).insns = before ++ code ++ behind)
    (executes : Executes world vars code s s') :
    Reaches world vars graph (⟨bb, before.length⟩, s) (⟨bb, before.length + code.length⟩, s') := by
  induction executes generalizing before with
  | nil s => exact .refl
  | @cons insn rest s s' s'' step _ inductionHypothesis =>
      have insnEq : (graph bb).insns[before.length]? = some insn := by
        rw [insnsEq, List.append_assoc]
        simp
      have insnsEq' : (graph bb).insns = (before ++ [insn]) ++ rest ++ behind := by
        simpa using insnsEq
      have onward := inductionHypothesis insnsEq'
      refine .head (.exec insnEq step) ?_
      simpa [Nat.add_assoc, Nat.add_comm 1] using onward

/-- Where control is after steps from a position in a straight block: in it, or behind it. -/
theorem executes_of_reaches {bb : BlockId} {index : Nat} {s s' : State} {last : Position}
    (straight : (graph bb).Straight)
    (reaches : Reaches world vars graph (⟨bb, index⟩, s) (last, s')) :
    (last.bb = bb ∧ ∃ code behind, (graph bb).insns.drop index = code ++ behind ∧
        last.index = index + code.length ∧ Executes world vars code s s') ∨
      ∃ succ middle, (graph bb).next = some succ ∧
        Executes world vars ((graph bb).insns.drop index) s middle ∧
        Reaches world vars graph (⟨succ, 0⟩, middle) (last, s') := by
  generalize start : ((⟨bb, index⟩, s) : Position × State) = first at reaches
  induction reaches using Relation.ReflTransGen.head_induction_on generalizing index s with
  | refl =>
      cases start
      exact .inl ⟨rfl, [], _, rfl, rfl, .nil _⟩
  | head step onward inductionHypothesis =>
      cases step with
      | @exec _ _ insn _ middle insnEq step =>
          cases start
          have drop : (graph bb).insns.drop index =
              insn :: (graph bb).insns.drop (index + 1) := by
            rcases List.getElem?_eq_some_iff.mp insnEq with ⟨inside, rfl⟩
            exact List.drop_eq_getElem_cons inside
          rw [drop]
          rcases inductionHypothesis rfl with ⟨same, code, behind, split_, indexEq, executes⟩ |
            behind
          · refine .inl ⟨same, insn :: code, behind, by rw [split_]; rfl, ?_, .cons step executes⟩
            simp only [indexEq, List.length_cons]
            omega
          · rcases behind with ⟨succ, after, edge, executes, onward⟩
            exact .inr ⟨succ, after, edge, .cons step executes, onward⟩
      | jump edge =>
          cases start
          exact .inr ⟨_, _, edge, by simp, onward⟩
      | branch insnEq isBranch rs1Eq edge =>
          cases start
          rw [straight.then_, straight.else_] at edge
          split at edge <;> cases edge

end Shecc
