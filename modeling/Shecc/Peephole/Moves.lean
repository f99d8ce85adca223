import Shecc.Arm.Codegen
import Shecc.Peephole.LoadStore

/-!
# Redundant moves

`redundant_move_elim` drops an instruction whose destination the next one overwrites. It
copies the opcode and the operands of the second instruction into the first, but not the
flag that says what a slot is counted from. This file proves exactly when the surviving
instruction leaves what both did.
-/

namespace Shecc.Peephole

/-- The instruction loads a slot. -/
def isLoad (ir : Ph2Ir) : Bool := ir.op == .load || ir.op == .globalLoad

/-- `redundant_move_elim`. -/
def redundantMoveElim (ir next : Ph2Ir) : Option (List Ph2Ir) :=
  if ir.op = .assign ∧ next.op = .assign ∧ ir.dest = next.dest then
    some [{ ir with src0 := next.src0 }]
  else if isLoad ir ∧ next.op = .assign ∧ ir.dest = next.dest then
    some [{ ir with op := .assign, src0 := next.src0, src1 := 0 }]
  else if ir.op = .loadConstant ∧ next.op = .assign ∧ ir.dest = next.dest then
    some [{ ir with op := .assign, src0 := next.src0 }]
  else if isLoad ir ∧ isLoad next ∧ ir.dest = next.dest then
    some [{ ir with op := next.op, src0 := next.src0, src1 := next.src1 }]
  else if ir.op = .loadConstant ∧ next.op = .loadConstant ∧ ir.dest = next.dest then
    some [{ ir with src0 := next.src0 }]
  else if ir.op = .assign ∧ isLoad next ∧ ir.dest = next.dest then
    some [{ ir with op := next.op, src0 := next.src0, src1 := next.src1 }]
  else if ir.op = .assign ∧ next.op = .loadConstant ∧ ir.dest = next.dest then
    some [{ ir with op := .loadConstant, src0 := next.src0, src1 := 0 }]
  else
    none

/-- The surviving instruction leaves the machine as both instructions do. -/
def KeepsBoth (P : Platform) (ir next : Ph2Ir) (left : List Ph2Ir) : Prop :=
  ∀ s : Machine, s.outcome = none → P.run left s = P.run [ir, next] s

/-- The condition: a load from the frame counts its slot from where the first instruction
says, and a move does not read the register both write, unless both are moves of it to
itself. -/
def MoveSafe (ir next : Ph2Ir) : Prop :=
  (next.op = .load → ir.ofsBasedOnStackTop = next.ofsBasedOnStackTop) ∧
    (next.op = .assign → next.src0 = next.dest → ir.op = .assign ∧ ir.src0 = ir.dest)

variable {P : Platform} {ir next merged : Ph2Ir} {left : List Ph2Ir}

/-! ## What is merged -/

/-- Moves, loads and constants only give their destination a value. -/
inductive Overwrites : Opcode → Prop
  | assign : Overwrites .assign
  | load : Overwrites .load
  | globalLoad : Overwrites .globalLoad
  | loadConstant : Overwrites .loadConstant

theorem Overwrites.givesValue {op : Opcode} (overwrites : Overwrites op) :
    op.givesValue = true := by
  cases overwrites <;> rfl

theorem overwrites_of_isLoad (loads : isLoad ir = true) : Overwrites ir.op := by
  simp only [isLoad, Bool.or_eq_true, beq_iff_eq] at loads
  rcases loads with isLoad | isLoad
  · exact isLoad ▸ .load
  · exact isLoad ▸ .globalLoad

/-- One instruction is left: with the opcode, the first operand and the destination of the
second, and the flag of the first. -/
theorem merged_fields (eliminated : redundantMoveElim ir next = some left) :
    ∃ merged, left = [merged] ∧ merged.op = next.op ∧ merged.src0 = next.src0 ∧
      merged.dest = next.dest ∧ merged.ofsBasedOnStackTop = ir.ofsBasedOnStackTop ∧
        ir.dest = next.dest ∧ Overwrites ir.op ∧ Overwrites next.op := by
  rw [redundantMoveElim] at eliminated
  split_ifs at eliminated with moves loadMove constantMove loads constants moveLoad moveConstant
  · rcases moves with ⟨isMove, isMove', same⟩
    exact ⟨_, (Option.some.inj eliminated).symm, isMove.trans isMove'.symm, rfl, same, rfl, same,
      isMove ▸ .assign, isMove' ▸ .assign⟩
  · rcases loadMove with ⟨loads, isMove, same⟩
    exact ⟨_, (Option.some.inj eliminated).symm, isMove.symm, rfl, same, rfl, same,
      overwrites_of_isLoad loads, isMove ▸ .assign⟩
  · rcases constantMove with ⟨isConstant, isMove, same⟩
    exact ⟨_, (Option.some.inj eliminated).symm, isMove.symm, rfl, same, rfl, same,
      isConstant ▸ .loadConstant, isMove ▸ .assign⟩
  · rcases loads with ⟨loads, loads', same⟩
    exact ⟨_, (Option.some.inj eliminated).symm, rfl, rfl, same, rfl, same,
      overwrites_of_isLoad loads, overwrites_of_isLoad loads'⟩
  · rcases constants with ⟨isConstant, isConstant', same⟩
    exact ⟨_, (Option.some.inj eliminated).symm, isConstant.trans isConstant'.symm, rfl, same, rfl,
      same, isConstant ▸ .loadConstant, isConstant' ▸ .loadConstant⟩
  · rcases moveLoad with ⟨isMove, loads, same⟩
    exact ⟨_, (Option.some.inj eliminated).symm, rfl, rfl, same, rfl, same, isMove ▸ .assign,
      overwrites_of_isLoad loads⟩
  · rcases moveConstant with ⟨isMove, isConstant, same⟩
    exact ⟨_, (Option.some.inj eliminated).symm, isConstant.symm, rfl, same, rfl, same,
      isMove ▸ .assign, isConstant ▸ .loadConstant⟩

/-! ## What is left behind -/

theorem setReg_setReg (s : Machine) (r : Int) (w w' : Word) :
    (s.setReg r w).setReg r w' = s.setReg r w' := by
  rw [Machine.setReg, Machine.setReg, Machine.setReg, Function.update_idem]

/-- Both instructions leave the value of the second one. -/
theorem run_both {s : Machine} (running : s.outcome = none) (first : Overwrites ir.op)
    (second : Overwrites next.op) (same : ir.dest = next.dest) :
    P.run [ir, next] s =
      s.setReg next.dest (P.value (s.setReg next.dest (P.value s ir)) next) := by
  rw [Platform.run_cons, Platform.step_of_givesValue running first.givesValue, same,
    Platform.run_cons, Platform.run_nil,
    Platform.step_of_givesValue (show (s.setReg _ _).outcome = none from running)
      second.givesValue, setReg_setReg]

/-- Values are what decides. -/
theorem keepsBoth_iff (first : Overwrites ir.op) (second : Overwrites next.op)
    (same : ir.dest = next.dest) (sameOp : merged.op = next.op)
    (sameDest : merged.dest = next.dest) :
    KeepsBoth P ir next [merged] ↔ ∀ s : Machine, s.outcome = none →
      P.value s merged = P.value (s.setReg next.dest (P.value s ir)) next := by
  apply forall₂_congr
  intro s running
  have gives : merged.op.givesValue = true := sameOp ▸ second.givesValue
  rw [run_both running first second same, Platform.run_cons, Platform.run_nil,
    Platform.step_of_givesValue running gives, sameDest]
  constructor
  · intro equal
    have values := congrArg (fun t => t.reg next.dest) equal
    simpa using values
  · intro equal
    rw [equal]

/-- What a register is overwritten with differs from what it held, in some state, unless
the register is moved to itself. -/
theorem value_eq_reg_iff (first : Overwrites ir.op) (r : Int) :
    (∀ s : Machine, s.outcome = none → s.reg r = P.value s ir) ↔
      ir.op = .assign ∧ ir.src0 = r := by
  constructor
  · intro equal
    -- A state where the register holds another word than the instruction gives.
    have other (held : P.value (framed 0 (fun _ => 0) fun _ => 0) ir =
        P.value (framed 0 (fun _ => P.value (framed 0 (fun _ => 0) fun _ => 0) ir + 1)
          fun _ => 0) ir) : False := by
      have same := equal (framed 0 (fun _ => P.value (framed 0 (fun _ => 0) fun _ => 0) ir + 1)
        fun _ => 0) rfl
      rw [← held] at same
      simp [framed] at same
    cases isOp : ir.op with
    | assign =>
        by_contra different
        have unequal : ir.src0 ≠ r := fun same => different ⟨rfl, same⟩
        have same := equal (framed 0 (fun x => if x = r then 1 else 0) fun _ => 0) rfl
        rw [Platform.value, isOp] at same
        simp [framed, unequal] at same
    | load =>
        refine (other ?_).elim
        rw [Platform.value, Platform.value, isOp]
        rfl
    | globalLoad =>
        refine (other ?_).elim
        rw [Platform.value, Platform.value, isOp]
        rfl
    | loadConstant =>
        refine (other ?_).elim
        rw [Platform.value, Platform.value, isOp]
    | _ => rw [isOp] at first; cases first
  · rintro ⟨isMove, rfl⟩ s _
    rw [Platform.value, isMove]

/-- The surviving instruction keeps what both leave exactly under the condition. -/
theorem merged_iff (eliminated : redundantMoveElim ir next = some left) :
    KeepsBoth P ir next left ↔ MoveSafe ir next := by
  rcases merged_fields eliminated with
    ⟨merged, rfl, sameOp, sameSource, sameDest, sameFlag, same, first, second⟩
  rw [keepsBoth_iff first second same sameOp sameDest]
  cases isOp : next.op with
  | assign =>
      have value (s : Machine) : P.value s merged = s.reg next.src0 := by
        rw [Platform.value, sameOp, isOp, sameSource]
      have moveValue (s : Machine) : P.value s next = s.reg next.src0 := by
        rw [Platform.value, isOp]
      simp only [MoveSafe, isOp, reduceCtorEq, false_implies, true_implies, true_and, value,
        moveValue, same]
      by_cases reads : next.src0 = next.dest
      · simp only [reads, Machine.setReg_same, true_implies]
        exact value_eq_reg_iff first next.dest
      · simp only [Machine.setReg_ne _ _ reads, reads, false_implies, implies_true]
  | load =>
      have value (s : Machine) : P.value s merged =
          s.memory.loadWord (s.slot ir.ofsBasedOnStackTop next.src0) := by
        rw [Platform.value, sameOp, isOp, sameSource, sameFlag]
      have loadValue (s : Machine) : P.value s next =
          s.memory.loadWord (s.slot next.ofsBasedOnStackTop next.src0) := by
        rw [Platform.value, isOp]
      simp only [MoveSafe, isOp, reduceCtorEq, false_implies, true_implies, and_true, value,
        loadValue, Machine.setReg_memory, Machine.setReg_slot]
      rw [loads_iff, and_iff_left rfl]
      exact eq_comm
  | globalLoad =>
      have value (s : Machine) : P.value s merged = P.value s next := by
        rw [Platform.value, Platform.value, sameOp, isOp, Ph2Ir.imm, Ph2Ir.imm, sameSource]
      have kept (s : Machine) (r : Int) (w : Word) :
          P.value (s.setReg r w) next = P.value s next := by
        rw [Platform.value, Platform.value, isOp]
        rfl
      simp only [MoveSafe, isOp, reduceCtorEq, false_implies, and_self, value, kept, implies_true]
  | loadConstant =>
      have value (s : Machine) : P.value s merged = P.value s next := by
        rw [Platform.value, Platform.value, sameOp, isOp, Ph2Ir.imm, Ph2Ir.imm, sameSource]
      have kept (s : Machine) (r : Int) (w : Word) :
          P.value (s.setReg r w) next = P.value s next := by
        rw [Platform.value, Platform.value, isOp]
      simp only [MoveSafe, isOp, reduceCtorEq, false_implies, and_self, value, kept, implies_true]
  | _ => rw [isOp] at second; cases second

/-! ## Slots in the laid out code -/

/-- Where `cfg_flatten` moves a load from the frame: with the prologue's distance between
the stack pointer and the top of the frame, both forms address the same slot. -/
theorem slot_adjust {s : Machine} (f : Codegen.CodeFunc) (isLoad : ir.op = .load)
    (height : s.stackTop = s.sp + BitVec.ofInt 32 (Arm.alignUp f.stackSize + 40)) :
    s.slot false (Arm.adjust f ir).src0 = s.slot ir.ofsBasedOnStackTop ir.src0 := by
  have notReturn : ir.op ≠ .return_ := by
    rw [isLoad]
    simp
  rw [Arm.adjust, if_neg notReturn]
  cases flag : ir.ofsBasedOnStackTop with
  | false => rw [if_neg Bool.false_ne_true]
  | true =>
      rw [if_pos rfl, isLoad]
      simp only [Machine.slot, Bool.false_eq_true, if_false, if_true]
      rw [height, BitVec.ofInt_add, BitVec.add_comm (BitVec.ofInt 32 ir.src0), BitVec.add_assoc]

/-- The surviving instruction of every merged pair leaves what both instructions leave
exactly when it counts a slot of the frame from where the second one does, and the second
is not a move of the register that the first one fills. -/
theorem redundantMoveElim_iff (P : Platform) (ir next : Ph2Ir) (left : List Ph2Ir)
    (eliminated : redundantMoveElim ir next = some left) :
    KeepsBoth P ir next left ↔ MoveSafe ir next :=
  merged_iff eliminated

/-- A copy overwritten by a load of a local is dropped. -/
theorem redundantMoveElim_copy :
    KeepsBoth plainPlatform { op := .assign, src0 := 1, dest := 2 }
      { op := .load, src0 := 20, dest := 2 } [{ op := .load, src0 := 20, dest := 2 }] :=
  (redundantMoveElim_iff plainPlatform _ _ _ rfl).mpr ⟨fun _ => rfl, fun isMove => nomatch isMove⟩

/-- A local overwritten by the fifth argument, which the caller left on the stack: the
load that survives reads the local at the argument's offset. -/
theorem fifthArgument_lost :
    ¬∀ (P : Platform) (ir next : Ph2Ir) (left : List Ph2Ir),
      redundantMoveElim ir next = some left → KeepsBoth P ir next left := by
  intro keeps
  have same := keeps plainPlatform { op := .load, src0 := 16, dest := 2 }
    { op := .load, src0 := 0, dest := 2, ofsBasedOnStackTop := true } _ rfl
    (framed 64 (fun _ => 0) fun a => if a = 64 then 7 else 0) rfl
  exact absurd (congrArg (fun t => t.reg 2) same) (by decide)

end Shecc.Peephole
