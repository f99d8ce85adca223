import Shecc.Ir.Value
import Shecc.Target.Core

/-!
# Executing a function

The meaning of a function before optimisation. A variable that is global or
whose address is taken lives in memory, at a home the layout gives it; any other
variable lives in the environment. Instructions that give their destination a
value are evaluated, the others act on memory, on the pushed arguments or on
control. What a callee does to memory and what it returns is left open.
-/

namespace Shecc

/-- A basic block: its instructions and its successors. -/
structure Block where
  insns : List Insn
  next : Option BlockId := none
  then_ : Option BlockId := none
  else_ : Option BlockId := none

/-- The blocks control may enter from `b`. -/
def Block.successors (b : Block) : List BlockId :=
  b.next.toList ++ b.then_.toList ++ b.else_.toList

/-- A function: its blocks in reverse post order, closed under successors and
starting at the entry. -/
structure Func where
  entry : BlockId
  block : BlockId → Block
  rest : List BlockId
  closed : ∀ bb ∈ entry :: rest, ∀ succ ∈ (block bb).successors, succ ∈ entry :: rest

namespace Func

/-- The blocks along `rpo_next`. -/
def order (f : Func) : List BlockId := f.entry :: f.rest

/-- The instructions of the function, in that order. -/
def insns (f : Func) : List Insn :=
  f.order.flatMap fun bb => (f.block bb).insns

theorem mem_insns {f : Func} {bb : BlockId} {insn : Insn} (inOrder : bb ∈ f.order)
    (present : insn ∈ (f.block bb).insns) : insn ∈ f.insns :=
  List.mem_flatMap.mpr ⟨bb, inOrder, present⟩

end Func

/-- The variables an instruction reads. -/
def uses (insn : Insn) : List VarId :=
  insn.rs1.toList ++ insn.rs2.toList

/-- What the function is executed in: where variables live, where the data
sections and the functions are, the architecture, and what callees may do. -/
structure World where
  home : VarId → Word
  region : VarId → Option Word
  dataAddress : Word → Word
  rodataAddress : Word → Word
  funcAddress : VarId → Word
  arch : Arch
  callee : String → List Word → Memory → Memory → Word → Prop
  calleeAt : Word → List Word → Memory → Memory → Word → Prop

/-- The state between two instructions. -/
structure State where
  env : Env
  memory : Memory
  args : List Word
  ret : Word

/-- The variable lives in memory. -/
def resident (vars : Vars) (v : VarId) : Bool :=
  (vars v).isGlobal || (vars v).addressTaken

/-- The homes of distinct variables in memory do not overlap. -/
def World.Separated (world : World) (vars : Vars) : Prop :=
  ∀ u v, resident vars u = true → resident vars v = true → u ≠ v →
    Memory.Apart (world.home u) 4 (world.home v) 4

/-- The value of a variable. -/
def State.value (world : World) (vars : Vars) (s : State) (v : VarId) : Word :=
  if resident vars v then s.memory.loadWord (world.home v) else s.env v

/-- Give a variable a value. -/
def State.assign (world : World) (vars : Vars) (s : State) (v : VarId) (w : Word) : State :=
  if resident vars v then
    { s with memory := s.memory.storeWord (world.home v) w }
  else
    { s with env := Function.update s.env v w }

@[simp] theorem State.value_assign_same (world : World) (vars : Vars) (s : State) (v : VarId)
    (w : Word) : (s.assign world vars v w).value world vars v = w := by
  unfold assign value
  by_cases inMemory : resident vars v = true <;> simp [inMemory]

theorem State.value_assign_ne {world : World} {vars : Vars} (separated : world.Separated vars)
    (s : State) {u v : VarId} (w : Word) (different : u ≠ v) :
    (s.assign world vars v w).value world vars u = s.value world vars u := by
  unfold assign value
  by_cases inMemory : resident vars v = true
  · by_cases other : resident vars u = true
    · simp only [inMemory, other, if_true]
      rw [Memory.loadWord_storeWord_apart w (separated v u inMemory other (Ne.symm different))]
    · simp [inMemory, other]
  · simp [inMemory, different]

/-- The word an instruction gives its destination in a state. -/
def evaluate (world : World) (vars : Vars) (s : State) (insn : Insn) : Option Word :=
  match insn.opcode with
  | .loadConstant => insn.rd.map fun rd => (vars rd).initVal
  | .loadDataAddress => insn.rd.map fun rd => world.dataAddress (vars rd).initVal
  | .loadRodataAddress => insn.rd.map fun rd => world.rodataAddress (vars rd).initVal
  | .allocat => insn.rd.bind world.region
  | .funcRet => some s.ret
  | .addressOf | .globalAddressOf => insn.rs1.map world.home
  | .assign | .unwoundPhi | .cast => insn.rs1.map (s.value world vars)
  | .trunc => insn.rs1.bind fun rs1 => truncateWord insn.sz (s.value world vars rs1)
  | .signExt => insn.rs1.bind fun rs1 =>
      some (world.arch.signExtend insn.sz (s.value world vars rs1))
  | .read => insn.rs1.map fun rs1 => world.arch.load s.memory (s.value world vars rs1) insn.sz
  | op =>
      match insn.rs1, insn.rs2 with
      | some rs1, some rs2 => op.binary (s.value world vars rs1) (s.value world vars rs2)
      | some rs1, none => op.unary (s.value world vars rs1)
      | none, _ => none

/-- The word an `OP_write` stores: a function's address or a value. -/
def State.stored (world : World) (vars : Vars) (s : State) (rs2 : VarId) : Word :=
  if (vars rs2).isFunc then world.funcAddress rs2 else s.value world vars rs2

/-- One instruction, other than a branch, takes one state to the next. -/
inductive Exec (world : World) (vars : Vars) : Insn → State → State → Prop where
  | assigns {insn : Insn} {s : State} {rd : VarId} {w : Word} (rdEq : insn.rd = some rd)
      (value : evaluate world vars s insn = some w) :
      Exec world vars insn s (s.assign world vars rd w)
  | declares {insn : Insn} {s : State} {rd : VarId} (isAllocat : insn.opcode = .allocat)
      (rdEq : insn.rd = some rd) (scalar : world.region rd = none) : Exec world vars insn s s
  | writes {insn : Insn} {s : State} {rs1 rs2 : VarId} (isWrite : insn.opcode = .write)
      (rs1Eq : insn.rs1 = some rs1) (rs2Eq : insn.rs2 = some rs2) :
      Exec world vars insn s
        { s with
          memory := s.memory.storeBytes (s.value world vars rs1) insn.sz.toNat
            (s.stored world vars rs2) }
  | pushes {insn : Insn} {s : State} {rs1 : VarId} (isPush : insn.opcode = .push)
      (rs1Eq : insn.rs1 = some rs1) :
      Exec world vars insn s { s with args := s.args ++ [s.value world vars rs1] }
  | calls {insn : Insn} {s : State} {memory : Memory} {ret : Word}
      (isCall : insn.opcode = .call)
      (effect : world.callee insn.str s.args s.memory memory ret) :
      Exec world vars insn s { s with memory := memory, args := [], ret := ret }
  | callsIndirect {insn : Insn} {s : State} {rs1 : VarId} {memory : Memory} {ret : Word}
      (isIndirect : insn.opcode = .indirect) (rs1Eq : insn.rs1 = some rs1)
      (effect : world.calleeAt (s.value world vars rs1) s.args s.memory memory ret) :
      Exec world vars insn s { s with memory := memory, args := [], ret := ret }

/-- Where control is: the current block and the instructions left in it. The
trace lists the instructions passed on the way, latest first. -/
inductive Path (f : Func) : List Insn → BlockId → List Insn → Prop where
  | start : Path f [] f.entry (f.block f.entry).insns
  | pass {trace : List Insn} {bb : BlockId} {insn : Insn} {rest : List Insn}
      (before : Path f trace bb (insn :: rest)) : Path f (insn :: trace) bb rest
  | enter {trace : List Insn} {bb succ : BlockId} (before : Path f trace bb [])
      (edge : succ ∈ (f.block bb).successors) : Path f trace succ (f.block succ).insns
  | leave {trace : List Insn} {bb succ : BlockId} {insn : Insn} {rest : List Insn}
      (before : Path f trace bb (insn :: rest)) (isBranch : insn.opcode = .branch)
      (edge : succ ∈ (f.block bb).successors) :
      Path f (insn :: trace) succ (f.block succ).insns

/-- A run of the function from `start`, every step of which meets `ok`. -/
inductive Run (world : World) (vars : Vars) (f : Func) (ok : Insn → State → State → Prop)
    (start : State) : List Insn → BlockId → List Insn → State → Prop where
  | start : Run world vars f ok start [] f.entry (f.block f.entry).insns start
  | exec {trace : List Insn} {bb : BlockId} {insn : Insn} {rest : List Insn} {s s' : State}
      (before : Run world vars f ok start trace bb (insn :: rest) s)
      (step : Exec world vars insn s s') (meets : ok insn s s') :
      Run world vars f ok start (insn :: trace) bb rest s'
  | jump {trace : List Insn} {bb succ : BlockId} {s : State}
      (before : Run world vars f ok start trace bb [] s)
      (edge : (f.block bb).next = some succ) :
      Run world vars f ok start trace succ (f.block succ).insns s
  | branch {trace : List Insn} {bb succ : BlockId} {insn : Insn} {rs1 : VarId}
      {rest : List Insn} {s : State}
      (before : Run world vars f ok start trace bb (insn :: rest) s)
      (isBranch : insn.opcode = .branch) (rs1Eq : insn.rs1 = some rs1)
      (edge : (if (s.value world vars rs1).truth then (f.block bb).then_
        else (f.block bb).else_) = some succ) :
      Run world vars f ok start (insn :: trace) succ (f.block succ).insns s

namespace Path

variable {f : Func}

/-- Control stays inside the function. -/
theorem inside {trace : List Insn} {bb : BlockId} {rest : List Insn}
    (path : Path f trace bb rest) :
    bb ∈ f.order ∧ (∀ insn ∈ rest, insn ∈ f.insns) ∧ ∀ insn ∈ trace, insn ∈ f.insns := by
  induction path with
  | start =>
      have inOrder : f.entry ∈ f.order := List.mem_cons_self
      exact ⟨inOrder, fun insn present => Func.mem_insns inOrder present, by simp⟩
  | pass before inductionHypothesis =>
      obtain ⟨inOrder, ahead, behind⟩ := inductionHypothesis
      refine ⟨inOrder, fun i present => ahead i (List.mem_cons_of_mem _ present), ?_⟩
      intro i present
      rcases List.mem_cons.mp present with rfl | present
      · exact ahead _ List.mem_cons_self
      · exact behind i present
  | enter before edge inductionHypothesis =>
      obtain ⟨inOrder, -, behind⟩ := inductionHypothesis
      have inOrder' := f.closed _ inOrder _ edge
      exact ⟨inOrder', fun insn present => Func.mem_insns inOrder' present, behind⟩
  | leave before isBranch edge inductionHypothesis =>
      obtain ⟨inOrder, ahead, behind⟩ := inductionHypothesis
      have inOrder' := f.closed _ inOrder _ edge
      refine ⟨inOrder', fun insn present => Func.mem_insns inOrder' present, ?_⟩
      intro i present
      rcases List.mem_cons.mp present with rfl | present
      · exact ahead _ List.mem_cons_self
      · exact behind i present

end Path

/-- Runs follow paths. -/
theorem Run.path {world : World} {vars : Vars} {f : Func} {ok : Insn → State → State → Prop}
    {start s : State} {trace : List Insn} {bb : BlockId} {rest : List Insn}
    (run : Run world vars f ok start trace bb rest s) : Path f trace bb rest := by
  induction run with
  | start => exact .start
  | exec _ _ _ inductionHypothesis => exact .pass inductionHypothesis
  | jump _ edge inductionHypothesis =>
      exact .enter inductionHypothesis (by simp [Block.successors, edge])
  | branch _ isBranch _ edge inductionHypothesis =>
      refine .leave inductionHypothesis isBranch ?_
      split at edge <;> simp [Block.successors, edge]

/-- Every definition of a used variable is passed before the use, as SSA
construction places them. -/
def Func.Strict (f : Func) : Prop :=
  ∀ {trace : List Insn} {bb : BlockId} {insn : Insn} {rest : List Insn},
    Path f trace bb (insn :: rest) → ∀ x ∈ uses insn,
      (∃ definition ∈ f.insns, definition.rd = some x) →
        ∃ definition ∈ trace, definition.rd = some x

end Shecc
