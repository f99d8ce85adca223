import Shecc.Ir.Arithmetic
import Shecc.Target.Core

/-!
# Executing phase-two code

What a list of phase-two instructions does to the machine: registers, memory and
the end of the block. Local slots are addressed from the stack pointer, the
slots the caller filled from the top of the frame, globals from the global
pointer. A callee sees the registers that pass its arguments and the memory, and
may overwrite every register.
-/

namespace Shecc

/-- The constant an instruction carries. -/
def Ph2Ir.imm (ir : Ph2Ir) : Word := BitVec.ofInt 32 ir.src0

/-- What a callee leaves behind. -/
structure Effect where
  reg : Int → Word
  memory : Memory

/-- What phase-two code runs on: the architecture, its answer where an operator
is undefined, the sections and the functions of the program, which registers a
call passes, and what callees do. -/
structure Platform where
  arch : Arch
  undefined : Opcode → Word → Word → Word
  dataStart : Word
  rodataStart : Word
  funcAddress : String → Word
  passed : Ph2Ir → List Int
  callee : String → List Word → Memory → Effect
  calleeAt : Word → List Word → Memory → Effect

/-- How a block ends. -/
inductive Outcome where
  | branched (taken : Bool)
  | returned (value : Option Word)
  deriving DecidableEq, Repr

/-- The machine between two instructions. `callTarget` is the register that
`OP_load_func` fills for `OP_indirect`. -/
structure Machine where
  reg : Int → Word
  memory : Memory
  callTarget : Word
  sp : Word
  stackTop : Word
  gp : Word
  outcome : Option Outcome

namespace Machine

/-- The address of a slot in the frame. -/
def slot (s : Machine) (ofsBasedOnStackTop : Bool) (ofs : Int) : Word :=
  (if ofsBasedOnStackTop then s.stackTop else s.sp) + BitVec.ofInt 32 ofs

/-- Write a register. -/
def setReg (s : Machine) (r : Int) (w : Word) : Machine :=
  { s with reg := Function.update s.reg r w }

/-- Write memory. -/
def setMemory (s : Machine) (m : Memory) : Machine :=
  { s with memory := m }

@[simp] theorem setReg_same (s : Machine) (r : Int) (w : Word) : (s.setReg r w).reg r = w := by
  simp [setReg]

@[simp] theorem setReg_ne (s : Machine) {r r' : Int} (w : Word) (different : r' ≠ r) :
    (s.setReg r w).reg r' = s.reg r' := by
  simp [setReg, different]

@[simp] theorem setReg_memory (s : Machine) (r : Int) (w : Word) :
    (s.setReg r w).memory = s.memory := rfl

@[simp] theorem setReg_callTarget (s : Machine) (r : Int) (w : Word) :
    (s.setReg r w).callTarget = s.callTarget := rfl

@[simp] theorem setReg_outcome (s : Machine) (r : Int) (w : Word) :
    (s.setReg r w).outcome = s.outcome := rfl

@[simp] theorem setReg_gp (s : Machine) (r : Int) (w : Word) : (s.setReg r w).gp = s.gp := rfl

@[simp] theorem setReg_slot (s : Machine) (r : Int) (w : Word) (onTop : Bool) (ofs : Int) :
    (s.setReg r w).slot onTop ofs = s.slot onTop ofs := rfl

@[simp] theorem setReg_self (s : Machine) (r : Int) : s.setReg r (s.reg r) = s := by
  simp [setReg]

@[simp] theorem setMemory_reg (s : Machine) (m : Memory) : (s.setMemory m).reg = s.reg := rfl

@[simp] theorem setMemory_memory (s : Machine) (m : Memory) : (s.setMemory m).memory = m := rfl

@[simp] theorem setMemory_outcome (s : Machine) (m : Memory) :
    (s.setMemory m).outcome = s.outcome := rfl

@[simp] theorem setMemory_slot (s : Machine) (m : Memory) (onTop : Bool) (ofs : Int) :
    (s.setMemory m).slot onTop ofs = s.slot onTop ofs := rfl

end Machine

/-- The opcodes that give their destination register a value. -/
def Opcode.givesValue : Opcode → Bool
  | loadConstant | loadDataAddress | loadRodataAddress | addressOf | globalAddressOf | assign
  | cast | load | globalLoad | read | trunc | signExt => true
  | op => op.isBinary || op.isUnary

namespace Platform

variable (P : Platform)

/-- The value an instruction gives its destination register. -/
def value (s : Machine) (ir : Ph2Ir) : Word :=
  match ir.op with
  | .loadConstant => ir.imm
  | .loadDataAddress => P.dataStart + ir.imm
  | .loadRodataAddress => P.rodataStart + ir.imm
  | .addressOf => s.slot ir.ofsBasedOnStackTop ir.src0
  | .globalAddressOf => s.gp + ir.imm
  | .assign | .cast => s.reg ir.src0
  | .load => s.memory.loadWord (s.slot ir.ofsBasedOnStackTop ir.src0)
  | .globalLoad => s.memory.loadWord (s.gp + ir.imm)
  | .read => P.arch.load s.memory (s.reg ir.src0) ir.src1
  | .trunc => (truncateWord ir.src1 (s.reg ir.src0)).getD (P.undefined .trunc (s.reg ir.src0) 0)
  | .signExt => P.arch.signExtend ir.src1 (s.reg ir.src0)
  | op =>
      if op.isBinary then
        (op.binary (s.reg ir.src0) (s.reg ir.src1)).getD
          (P.undefined op (s.reg ir.src0) (s.reg ir.src1))
      else
        (op.unary (s.reg ir.src0)).getD 0

/-- Execute one instruction. -/
def exec (s : Machine) (ir : Ph2Ir) : Machine :=
  if ir.op.givesValue then
    s.setReg ir.dest (P.value s ir)
  else
    match ir.op with
    | .store =>
        s.setMemory (s.memory.storeWord (s.slot ir.ofsBasedOnStackTop ir.src1) (s.reg ir.src0))
    | .globalStore =>
        s.setMemory (s.memory.storeWord (s.gp + BitVec.ofInt 32 ir.src1) (s.reg ir.src0))
    | .write =>
        s.setMemory (s.memory.storeBytes (s.reg ir.src0) ir.dest.toNat (s.reg ir.src1))
    | .addressOfFunc =>
        s.setMemory (s.memory.storeWord (s.reg ir.src0) (P.funcAddress ir.funcName))
    | .loadFunc => { s with callTarget := s.reg ir.src0 }
    | .call =>
        let effect := P.callee ir.funcName ((P.passed ir).map s.reg) s.memory
        { s with reg := effect.reg, memory := effect.memory }
    | .indirect =>
        let effect := P.calleeAt s.callTarget ((P.passed ir).map s.reg) s.memory
        { s with reg := effect.reg, memory := effect.memory }
    | .branch => { s with outcome := some (.branched (s.reg ir.src0).truth) }
    | .return_ =>
        { s with
          outcome := some (.returned (if ir.src0 = -1 then none else some (s.reg ir.src0))) }
    | _ => s

/-- Execute one instruction unless the block has ended. -/
def step (s : Machine) (ir : Ph2Ir) : Machine :=
  if s.outcome.isSome then s else P.exec s ir

/-- Execute a list of instructions. -/
def run (code : List Ph2Ir) (s : Machine) : Machine :=
  code.foldl P.step s

/-- The registers an instruction reads. -/
def reads (ir : Ph2Ir) : List Int :=
  match ir.op with
  | .loadConstant | .loadDataAddress | .loadRodataAddress | .addressOf | .globalAddressOf
  | .load | .globalLoad => []
  | .assign | .cast | .read | .trunc | .signExt | .store | .globalStore | .addressOfFunc
  | .loadFunc | .branch => [ir.src0]
  | .return_ => if ir.src0 = -1 then [] else [ir.src0]
  | .write => [ir.src0, ir.src1]
  | .call | .indirect => P.passed ir
  | op => if op.isBinary then [ir.src0, ir.src1] else if op.isUnary then [ir.src0] else []

end Platform

/-- The instruction gives register `r` a new content. -/
def Ph2Ir.overwrites (ir : Ph2Ir) (r : Int) : Bool :=
  if ir.op.givesValue then ir.dest == r else ir.op == .call || ir.op == .indirect

/-- Some instruction of the list reads register `r` before one overwrites it. -/
def Platform.live (P : Platform) : List Ph2Ir → Int → Bool
  | [], _ => false
  | ir :: rest, r => (P.reads ir).contains r || (!ir.overwrites r && P.live rest r)

/-- Two machines agree on everything the instructions still to come can see. -/
structure Platform.Agree (P : Platform) (rest : List Ph2Ir) (s t : Machine) : Prop where
  memory : s.memory = t.memory
  callTarget : s.callTarget = t.callTarget
  sp : s.sp = t.sp
  stackTop : s.stackTop = t.stackTop
  gp : s.gp = t.gp
  outcome : s.outcome = t.outcome
  reg : s.outcome = none → ∀ r, P.live rest r = true → s.reg r = t.reg r

namespace Platform

variable {P : Platform}

@[simp] theorem run_nil (s : Machine) : P.run [] s = s := rfl

@[simp] theorem run_cons (ir : Ph2Ir) (rest : List Ph2Ir) (s : Machine) :
    P.run (ir :: rest) s = P.run rest (P.step s ir) := rfl

theorem run_append (first second : List Ph2Ir) (s : Machine) :
    P.run (first ++ second) s = P.run second (P.run first s) :=
  List.foldl_append

theorem step_of_ended {s : Machine} (ended : s.outcome.isSome = true) (ir : Ph2Ir) :
    P.step s ir = s := by
  rw [step, if_pos ended]

/-- After its end a block does nothing. -/
theorem run_of_ended {s : Machine} (ended : s.outcome.isSome = true) (code : List Ph2Ir) :
    P.run code s = s := by
  induction code with
  | nil => rfl
  | cons ir rest inductionHypothesis => rw [run_cons, step_of_ended ended, inductionHypothesis]

theorem step_of_running {s : Machine} (running : s.outcome = none) (ir : Ph2Ir) :
    P.step s ir = P.exec s ir := by
  rw [step, running]
  rfl

/-- An instruction that gives its destination a value does nothing else. -/
theorem step_of_givesValue {s : Machine} {ir : Ph2Ir} (running : s.outcome = none)
    (gives : ir.op.givesValue = true) : P.step s ir = s.setReg ir.dest (P.value s ir) := by
  rw [step_of_running running, exec, if_pos gives]

theorem live_cons_of_reads {ir : Ph2Ir} {rest : List Ph2Ir} {r : Int} (read : r ∈ P.reads ir) :
    P.live (ir :: rest) r = true := by
  rw [live, List.contains_iff_mem.mpr read, Bool.true_or]

theorem live_cons_of_live {ir : Ph2Ir} {rest : List Ph2Ir} {r : Int}
    (kept : ir.overwrites r = false) (later : P.live rest r = true) :
    P.live (ir :: rest) r = true := by
  rw [live, kept, later, Bool.not_false, Bool.and_self, Bool.or_true]

namespace Agree

variable {rest : List Ph2Ir} {s t u : Machine}

theorem refl (rest : List Ph2Ir) (s : Machine) : P.Agree rest s s :=
  ⟨rfl, rfl, rfl, rfl, rfl, rfl, fun _ _ _ => rfl⟩

theorem trans (first : P.Agree rest s t) (second : P.Agree rest t u) : P.Agree rest s u where
  memory := first.memory.trans second.memory
  callTarget := first.callTarget.trans second.callTarget
  sp := first.sp.trans second.sp
  stackTop := first.stackTop.trans second.stackTop
  gp := first.gp.trans second.gp
  outcome := first.outcome.trans second.outcome
  reg running r isLive :=
    (first.reg running r isLive).trans (second.reg (first.outcome ▸ running) r isLive)

/-- Agreement on what an instruction reads and on what comes after it is what the
instruction needs. -/
theorem read_eq {ir : Ph2Ir} (agree : P.Agree (ir :: rest) s t) (running : s.outcome = none)
    {r : Int} (isRead : r ∈ P.reads ir) : s.reg r = t.reg r :=
  agree.reg running r (live_cons_of_reads isRead)

theorem slot_eq {code : List Ph2Ir} (agree : P.Agree code s t) (onTop : Bool) (ofs : Int) :
    s.slot onTop ofs = t.slot onTop ofs := by
  rw [Machine.slot, Machine.slot, agree.sp, agree.stackTop]

/-- Agreeing machines give an instruction the same value. -/
theorem value_eq {ir : Ph2Ir} (agree : P.Agree (ir :: rest) s t) (running : s.outcome = none)
    (gives : ir.op.givesValue = true) : P.value s ir = P.value t ir := by
  have read {r : Int} := agree.read_eq running (r := r)
  have sameSlot := agree.slot_eq
  have memory := agree.memory
  have gp := agree.gp
  rcases ir with ⟨op, src0, src1, dest⟩
  have first (isRead : src0 ∈ P.reads ⟨op, src0, src1, dest, _, _, _, _, _, _⟩) := read isRead
  have second (isRead : src1 ∈ P.reads ⟨op, src0, src1, dest, _, _, _, _, _, _⟩) := read isRead
  unfold value
  cases op <;> cases gives <;>
    simp only [memory, gp, sameSlot, Opcode.isBinary, if_true, Bool.false_eq_true, if_false] <;>
    first
      | rfl
      | rw [first List.mem_cons_self, second (List.mem_cons_of_mem _ List.mem_cons_self)]
      | rw [first List.mem_cons_self]

/-- One step keeps agreement: its value is written, or its effect is the same on
both machines. -/
theorem step {ir : Ph2Ir} (agree : P.Agree (ir :: rest) s t) :
    P.Agree rest (P.step s ir) (P.step t ir) := by
  by_cases ended : s.outcome.isSome = true
  · rw [step_of_ended ended, step_of_ended (agree.outcome ▸ ended)]
    refine ⟨agree.memory, agree.callTarget, agree.sp, agree.stackTop, agree.gp, agree.outcome, ?_⟩
    intro running
    rw [running] at ended
    cases ended
  · have running : s.outcome = none := by simpa using ended
    rw [step_of_running running, step_of_running (agree.outcome ▸ running)]
    have read {r : Int} (isRead : r ∈ P.reads ir) := agree.read_eq running isRead
    have kept {r : Int} (notOver : ir.overwrites r = false) (isLive : P.live rest r = true) :
        s.reg r = t.reg r := agree.reg running r (live_cons_of_live notOver isLive)
    unfold exec
    by_cases gives : ir.op.givesValue = true
    · rw [if_pos gives, if_pos gives, agree.value_eq running gives]
      refine ⟨agree.memory, agree.callTarget, agree.sp, agree.stackTop, agree.gp, agree.outcome, ?_⟩
      intro _ r isLive
      by_cases same : r = ir.dest
      · rw [same, Machine.setReg_same, Machine.setReg_same]
      · rw [Machine.setReg_ne _ _ same, Machine.setReg_ne _ _ same]
        refine kept ?_ isLive
        rw [Ph2Ir.overwrites, if_pos gives]
        simpa using Ne.symm same
    · rw [if_neg gives, if_neg gives]
      have sameSlot := agree.slot_eq
      obtain ⟨memory, callTarget, sp, stackTop, gp, outcome, -⟩ := agree
      have stores {m m' : Memory} (stored : m = m')
          (notOver : ∀ r, ir.overwrites r = false) :
          P.Agree rest (s.setMemory m) (t.setMemory m') :=
        ⟨stored, callTarget, sp, stackTop, gp, outcome, fun _ r => kept (notOver r)⟩
      have passed : (P.reads ir).map s.reg = (P.reads ir).map t.reg :=
        List.map_congr_left fun r isRead => read isRead
      rcases ir with ⟨op, src0, src1, dest⟩
      cases op with
      | store =>
          refine stores ?_ fun _ => rfl
          rw [memory, sameSlot, read List.mem_cons_self]
      | globalStore =>
          refine stores ?_ fun _ => rfl
          rw [memory, gp, read List.mem_cons_self]
      | write =>
          refine stores ?_ fun _ => rfl
          rw [memory, read List.mem_cons_self, read (List.mem_cons_of_mem _ List.mem_cons_self)]
      | addressOfFunc =>
          refine stores ?_ fun _ => rfl
          rw [memory, read List.mem_cons_self]
      | loadFunc =>
          exact ⟨memory, read List.mem_cons_self, sp, stackTop, gp, outcome, fun _ r => kept rfl⟩
      | call =>
          simp only [reads] at passed
          simp only [passed, memory]
          exact ⟨rfl, callTarget, sp, stackTop, gp, outcome, fun _ _ _ => rfl⟩
      | indirect =>
          simp only [reads] at passed
          simp only [passed, memory, callTarget]
          exact ⟨rfl, rfl, sp, stackTop, gp, outcome, fun _ _ _ => rfl⟩
      | branch =>
          refine ⟨memory, callTarget, sp, stackTop, gp, ?_, fun _ r => kept rfl⟩
          simp only [read List.mem_cons_self]
      | return_ =>
          refine ⟨memory, callTarget, sp, stackTop, gp, ?_, fun _ r => kept rfl⟩
          by_cases nothing : src0 = -1
          · simp only [nothing, if_true]
          · have returned : s.reg src0 = t.reg src0 := read (by simp [reads, nothing])
            simp only [nothing, if_false, returned]
      | _ =>
          first
            | exact absurd rfl gives
            | exact ⟨memory, callTarget, sp, stackTop, gp, outcome, fun _ r => kept rfl⟩

/-- Machines that agree before a list of instructions agree after it. -/
theorem run {code : List Ph2Ir} (agree : P.Agree (code ++ rest) s t) :
    P.Agree rest (P.run code s) (P.run code t) := by
  induction code generalizing s t with
  | nil => exact agree
  | cons ir code inductionHypothesis => exact inductionHypothesis agree.step

end Agree

end Platform

end Shecc
