import Shecc.RegAlloc.Layout
import Shecc.Arm.Address
import Shecc.Arm.Stack

/-!
# Arguments on the stack

The caller stores the arguments that do not go in registers at the bottom of its frame. The
callee counts them from the top of its own frame until the size of the frame is known; what
flattening adds to their offsets is what the prologue takes off the stack pointer.
-/

namespace Shecc.Arm

open Execution Codegen

/-- The registers a prologue saves: `r4` to `r11` and `lr`. -/
theorem registers_prologue : (registers 0x4FF0).length = 9 := by decide

theorem effects_append {first second : List Operation} {s s' s'' : State}
    (ends : effects first s = some s') (endsToo : effects second s' = some s'') :
    effects (first ++ second) s = some s'' :=
  (effects_append_some ends).trans endsToo

/-- What the prologue takes off the stack pointer, `cfg_flatten` adds to an offset. -/
theorem prologue_reaches {env : Env} {p : Program} {elfOffset : BlockId → Nat} {size : Nat}
    {f : CodeFunc} {insns : List Insn}
    (emitted : instructions env p elfOffset size (defineIr f) = some insns)
    {fetch : Word → Option Word} {base : Word} (loaded : Loaded Insn.encode fetch base insns)
    (s : State) :
    ∃ s', processor.Reaches fetch base insns.length (s, slot base 0)
        (s', slot base insns.length) ∧
      s'.reg sp + BitVec.ofInt 32 (alignUp f.stackSize + 40) = s.reg sp := by
  cases emitted
  rcases saved_stmdb s 0x4FF0 with ⟨saved, saving, isSaved, others⟩
  let constant : State := saved.setReg r8 (BitVec.ofInt 32 env.elfDataStart)
  let loadedGlobals : State := constant.setReg r12
    (constant.memory.loadWord (constant.reg r8 + BitVec.ofInt 32 0))
  let sized : State := loadedGlobals.setReg r8 (BitVec.ofInt 32 (alignUp f.stackSize + 4))
  let line : List Operation := [.stmdb sp 0x4FF0] ++ moveHalves r8 env.elfDataStart ++
    [.ldr r12 r8 0] ++ moveHalves r8 (alignUp f.stackSize + 4) ++
    [.data .sub false sp sp (.shifted r8 .logicLs 0)]
  have ends : effects line s = some (sized.setReg sp (sized.reg sp - sized.reg r8)) :=
    effects_append (effects_append (effects_append (effects_append (effects_cons_some saving)
      (effects_moveHalves ..)) (effects_cons_some (effect_ldr ..))) (effects_moveHalves ..))
        (effects_cons_some (effect_subR ..))
  refine ⟨_, reaches_line loaded (by simp [Insn.Valid]; decide) line rfl ?_ ends, ?_⟩
  · intro operation member
    simp only [line, moveHalves, List.mem_append, List.mem_cons, List.not_mem_nil,
      or_false] at member
    rcases member with ((((rfl | rfl | rfl) | rfl) | rfl | rfl) | rfl) <;>
      simp only [Operation.names, Operand.names] <;> decide
  · have pointer : sized.reg sp = saved.reg sp := by
      simp only [sized, loadedGlobals, constant]
      rw [State.setReg_reg_other (by decide), State.setReg_reg_other (by decide),
        State.setReg_reg_other (by decide)]
    rw [State.setReg_reg_same, pointer, isSaved.pointer, pushed, registers_prologue]
    change s.reg sp - _ - (State.setReg _ _ _).reg _ + _ = _
    have isSum : alignUp f.stackSize + 40 = alignUp f.stackSize + 4 + 36 := by ring
    have isConstant : BitVec.ofNat 32 (4 * 9) = BitVec.ofInt 32 36 := by decide
    rw [State.setReg_reg_same, isSum, isConstant]
    simp only [BitVec.ofInt_add]
    ring

/-- The offset of a slot in an instruction that accesses one. -/
def slotOffset (ir : Ph2Ir) : Int := if ir.op = .store then ir.src1 else ir.src0

/-- Flattening moves an access that counts from the top of the stack by the distance between
the top and the stack pointer. -/
theorem slotOffset_adjust (f : CodeFunc) {ir : Ph2Ir}
    (isAccess : ir.op = .load ∨ ir.op = .addressOf ∨ ir.op = .store) :
    slotOffset (adjust f ir) = slotOffset ir +
      if ir.ofsBasedOnStackTop then alignUp f.stackSize + 40 else 0 := by
  rcases isAccess with isOp | isOp | isOp <;> cases flag : ir.ofsBasedOnStackTop <;>
    simp [slotOffset, adjust, isOp, flag]

end Shecc.Arm

namespace Shecc.RegAlloc

open Alloc
open Execution (Loaded slot)

/-! ## The caller -/

/-- The instructions that store an argument at an offset. -/
def storedArgument (env : Env) (r : Var) (ofs : Int) : List Ph2Ir :=
  [loadIr r (maxArgsInReg env.arch - 1),
    { op := .store, src0 := maxArgsInReg env.arch - 1, src1 := ofs }]

section Caller

variable {env : Env} {bb : BasicBlock}

/-- Loading a variable emits one instruction and changes nothing another load depends on. -/
theorem loadVar_code {var : VarId} {idx : Int} {s s' : State}
    (ran : loadVar bb var idx s = .ok ((), s')) :
    s'.code bb.id = s.code bb.id ++ [loadIr (s.vars var) idx] ∧
      ∀ w i, loadIr (s'.vars w) i = loadIr (s.vars w) i := by
  rcases bind_eq_ok_iff.mp ran with ⟨r, loaded, before, ran⟩
  cases before
  rcases bind_eq_ok_iff.mp ran with ⟨⟨⟩, emitted, before, ran⟩
  cases before
  rcases bind_eq_ok_iff.mp ran with ⟨⟨⟩, held, before, ran⟩
  rcases setReg_sameFrame before with ⟨vars, -, -, code⟩
  cases ran
  constructor
  · change held.code bb.id = _
    rw [code]
    exact Function.update_self ..
  · intro w i
    by_cases same : w = var
    · subst same
      change loadIr (held.vars.set w _ w) i = _
      rw [Vars.set_same, vars]
      rfl
    · change loadIr (held.vars.set var _ w) i = _
      rw [Vars.set_ne _ _ same, vars]

/-- One argument is loaded and stored. -/
theorem storeStackArgs_cons {insn : Insn} {rest : List Insn} {s s' : State}
    (ran : storeStackArgs env bb (insn :: rest) s = .ok ((), s')) :
    ∃ var middle, insn.rs1 = some var ∧ storeStackArgs env bb rest middle = .ok ((), s') ∧
      middle.code bb.id = s.code bb.id ++ storedArgument env (s.vars var) (rest.length * 4) ∧
      ∀ w i, loadIr (middle.vars w) i = loadIr (s.vars w) i := by
  rcases bind_eq_ok_iff.mp ran with ⟨var, start, before, ran⟩
  cases isVar : insn.rs1 with
  | none =>
      rw [isVar] at before
      cases before
  | some v =>
      rw [isVar] at before
      cases before
      rcases bind_eq_ok_iff.mp ran with ⟨⟨⟩, loaded, before, ran⟩
      rcases loadVar_code before with ⟨code, vars⟩
      rcases bind_eq_ok_iff.mp ran with ⟨⟨⟩, stored, before, ran⟩
      cases before
      refine ⟨var, _, rfl, ran, ?_, vars⟩
      change Function.update _ _ _ _ = _
      rw [Function.update_self, code, List.append_assoc]
      rfl

theorem storeStackArgs_append {insns : List Insn} {s s' : State}
    (ran : storeStackArgs env bb insns s = .ok ((), s')) :
    ∃ after, s'.code bb.id = s.code bb.id ++ after := by
  induction insns generalizing s with
  | nil =>
      cases ran
      exact ⟨[], (List.append_nil _).symm⟩
  | cons insn rest inductionHypothesis =>
      rcases storeStackArgs_cons ran with ⟨var, middle, -, behind, code, -⟩
      rcases inductionHypothesis behind with ⟨after, isCode⟩
      rw [code, List.append_assoc] at isCode
      exact ⟨_, isCode⟩

/-- The pushed arguments are stored from the last to the first. -/
theorem storeStackArgs_code {insns : List Insn} {s s' : State}
    (ran : storeStackArgs env bb insns s = .ok ((), s')) {k : Nat} {insn : Insn}
    (here : insns[k]? = some insn) :
    ∃ var before after, insn.rs1 = some var ∧ s'.code bb.id = s.code bb.id ++ before ++
      storedArgument env (s.vars var) ((insns.length - 1 - k : Nat) * 4) ++ after := by
  induction insns generalizing s k with
  | nil => cases here
  | cons first rest inductionHypothesis =>
      rcases storeStackArgs_cons ran with ⟨var, middle, isVar, behind, code, vars⟩
      cases k with
      | zero =>
          cases here
          rcases storeStackArgs_append behind with ⟨after, isCode⟩
          refine ⟨var, [], after, isVar, ?_⟩
          rw [isCode, code, List.append_nil]
          rfl
      | succ k =>
          rcases inductionHypothesis behind here with ⟨other, before, after, isOther, isCode⟩
          have behindFirst : (first :: rest).length - 1 - (k + 1) = rest.length - 1 - k := by
            rw [List.length_cons]
            omega
          refine ⟨other, storedArgument env (s.vars var) (rest.length * 4) ++ before, after,
            isOther, ?_⟩
          rw [isCode, code, behindFirst, ← List.append_assoc (s.code bb.id)]
          simp only [storedArgument, vars]

/-- A call with more arguments than registers stores the argument `i` as many words above the
stack pointer as there are arguments on the stack in front of it. -/
theorem abiLowerCallArgs_code {insns : List Insn} {s s' : State}
    (ran : abiLowerCallArgs env bb insns s = .ok (true, s')) {i : Nat} {insn : Insn}
    (onStack : maxArgsInReg env.arch ≤ i)
    (here : (insns.takeWhile (·.opcode = .push))[i]? = some insn) :
    ∃ var before after, insn.rs1 = some var ∧ s'.code bb.id = s.code bb.id ++ before ++
      storedArgument env (s.vars var) (4 * (i - maxArgsInReg env.arch)) ++ after := by
  unfold abiLowerCallArgs at ran
  split at ran
  · cases ran
  · split at ran
    · cases ran
    · rename_i many ends
      rcases bind_eq_ok_iff.mp ran with ⟨⟨⟩, stored, before, ran⟩
      have sameCode : s'.code = stored.code := by
        rcases bind_eq_ok_iff.mp ran with ⟨⟨⟩, forgotten, emptied, ran⟩
        cases ran
        exact (forget_sameFrame emptied).2.2.2
      have registers : ((maxArgsInReg env.arch).toNat : Int) = maxArgsInReg env.arch := by
        cases env.arch <;> rfl
      have inside := (List.getElem?_eq_some_iff.mp here).1
      -- the argument's place among those on the stack, counted from the last one
      let onStackArgs := (insns.takeWhile (·.opcode = .push)).drop (maxArgsInReg env.arch).toNat
      have length : onStackArgs.length =
          (insns.takeWhile (·.opcode = .push)).length - (maxArgsInReg env.arch).toNat :=
        List.length_drop ..
      let k := onStackArgs.length - 1 - (i - (maxArgsInReg env.arch).toNat)
      have isPlace : onStackArgs.length - 1 - k = i - (maxArgsInReg env.arch).toNat := by omega
      have found : onStackArgs.reverse[k]? = some insn := by
        rw [List.getElem?_reverse (by omega), isPlace, List.getElem?_drop]
        rw [show (maxArgsInReg env.arch).toNat + (i - (maxArgsInReg env.arch).toNat) = i by omega]
        exact here
      rcases storeStackArgs_code before found with ⟨var, earlier, later, isVar, code⟩
      refine ⟨var, earlier, later, isVar, ?_⟩
      have isOffset : ((i - (maxArgsInReg env.arch).toNat : Nat) : Int) * 4 =
          4 * (i - maxArgsInReg env.arch) := by omega
      rw [List.length_reverse, isPlace, isOffset] at code
      rw [sameCode, code]

end Caller

/-! ## The callee -/

/-- The function as the code generator gets it. -/
def Func.codeFunc (f : Func) (s : State) : Codegen.CodeFunc where
  name := f.name
  stackSize := s.stackSize
  entry := ⟨f.bbs.id, s.code f.bbs.id⟩
  rest := f.rest.map fun bb => ⟨bb.id, s.code bb.id⟩

/-- Behind the prologue, the slot of an instruction is the word at an offset from where the
stack pointer of the caller was. -/
def Resolves (f : Codegen.CodeFunc) (ir : Ph2Ir) (ofs : Int) : Prop :=
  ∀ (env : Arm.Env) (p : Codegen.Program) (elfOffset : BlockId → Nat) (size : Nat)
    (insns : List Arm.Insn),
    Arm.instructions env p elfOffset size (Codegen.defineIr f) = some insns →
    ∀ (fetch : Word → Option Word) (base : Word), Loaded Arm.Insn.encode fetch base insns →
      ∀ caller : Arm.State, ∃ callee,
        Arm.processor.Reaches fetch base insns.length (caller, slot base 0)
          (callee, slot base insns.length) ∧
        callee.reg Arm.sp + BitVec.ofInt 32 (Arm.slotOffset (Arm.adjust f ir)) =
          caller.reg Arm.sp + BitVec.ofInt 32 ofs

/-- The frame of a function is laid out whenever the allocator has extended it, the variables
are where the frame has them, and what counts from the top of the stack is a word above the
stack pointer of the caller, who stores the argument there. -/
structure FrameHolds (env : Env) (f : Func) (s : State) : Prop where
  laidOut : ∀ earlier, earlier <+: s.requests → ((Frame.entry env f).after earlier).LaidOut env f
  stackSize : s.stackSize = (s.frame env f).stackSize
  place : ∀ v, ((s.frame env f).place v).IsOf (s.vars v)
  resolves : ∀ bb, ∀ ir ∈ s.code bb, ir.ofsBasedOnStackTop = true →
    ∃ i, Accesses env ir i ∧ Resolves (f.codeFunc s) ir (4 * (i - maxArgsInReg env.arch))
  stored : ∀ (bb : BasicBlock) (insns : List Insn) (t t' : State),
    abiLowerCallArgs env bb insns t = .ok (true, t') → ∀ (i : Nat) (insn : Insn),
    maxArgsInReg env.arch ≤ i → (insns.takeWhile (·.opcode = .push))[i]? = some insn →
      ∃ var before after, insn.rs1 = some var ∧ t'.code bb.id = t.code bb.id ++ before ++
        storedArgument env (t.vars var) (4 * (i - maxArgsInReg env.arch)) ++ after

/-- What counts from the top of the stack resolves to the word the caller stored. -/
theorem Accesses.resolves {env : Env} {ir : Ph2Ir} {i : Int} (f : Codegen.CodeFunc)
    (accesses : Accesses env ir i) (flagged : ir.ofsBasedOnStackTop = true) :
    Resolves f ir (4 * (i - maxArgsInReg env.arch)) := by
  intro armEnv p elfOffset size insns emitted fetch base loaded caller
  rcases Arm.prologue_reaches emitted loaded caller with ⟨callee, reaches, pointer⟩
  refine ⟨callee, reaches, ?_⟩
  have isOffset : Arm.slotOffset ir = 4 * (i - maxArgsInReg env.arch) ∧
      (ir.op = .load ∨ ir.op = .addressOf ∨ ir.op = .store) := by
    rw [Arm.slotOffset]
    rcases accesses.2.2 with ⟨isOp | isOp, offset⟩ | ⟨isOp, offset⟩ <;> simp [isOp, offset]
  rw [Arm.slotOffset_adjust f isOffset.2, if_pos flagged, isOffset.1, ← pointer, BitVec.ofInt_add]
  ring

/-- The frame holds exactly if every request of the allocator fits when it is made. -/
theorem frameHolds_iff (env : Env) (f : Func) (regs : Int → Reg) (visited : BlockId → Nat)
    (mainBb : Option BlockId) (used : List String) (s : State)
    (ran : regAlloc env f (.initial env f regs visited mainBb used) = .ok ((), s)) :
    FrameHolds env f s ↔ ∀ earlier request, earlier ++ [request] <+: s.requests →
      ((Frame.entry env f).after earlier).Fits request := by
  have follows := regAlloc_follows ran
  rw [← laidOut_iff follows.own]
  constructor
  · exact FrameHolds.laidOut
  · intro laidOut
    refine ⟨laidOut, follows.stackSize, follows.place, ?_, ?_⟩
    · intro bb ir member flagged
      rcases follows.code bb ir member flagged with ⟨i, accesses⟩
      exact ⟨i, accesses, accesses.resolves _ flagged⟩
    · intro bb insns t t' lowered i insn onStack here
      exact abiLowerCallArgs_code lowered onStack here

/-- `void f(char *fmt, ...)`, which declares an array of integers: `fmt` is the variable 0, the
array is the variable 1. -/
def variadicFunc (arraySize : Nat) : Func where
  name := "f"
  returnsVoid := true
  vaArgs := true
  paramDefs := [0]
  bbs :=
    { id := 0
      insns := [{ opcode := .allocat, rd := some 1 }]
      next := some 1
      liveOut := []
      liveKill := [] }
  rest := []
  exit := 1
  exitPrev := []
  rpo := fun bb => bb
  visited := 0
  vars := fun v => if v = 1 then { arraySize := arraySize } else { ptrLevel := 1 }
  type := fun v => if v = 1 then some .int else some .char
  varName := fun v => if v = 1 then "a" else "fmt"
  fewParams := by decide
  distinct := List.nodup_singleton 0
  localParams := by simp
  placed v := by split <;> rfl
  unflagged v := by split <;> rfl
  declares := by simp
  globalAddresses := by simp

/-- The ARM target, before the first function. -/
def armEnv : Env := ⟨.arm, false, fun _ => none⟩

/-- A function comes with an array of `arraySize` integers to free registers. -/
def variadicState (arraySize : Nat) : State :=
  .initial armEnv (variadicFunc arraySize) (fun _ => ⟨none, false⟩) (fun _ => 0) none []

/-- A run that makes some requests. -/
theorem exists_run {r : Except Stop (Unit × State)} {requests : List Request}
    (made : (r.toOption.map fun result => result.2.requests) = some requests) :
    ∃ s, r = .ok ((), s) ∧ s.requests = requests := by
  cases r with
  | error stop => cases made
  | ok result => exact ⟨result.2, rfl, Option.some.inj made⟩

/-- The bytes an array of integers is to have. -/
theorem variadicFunc_run : ∀ arraySize ∈ [10, 1073741824],
    ∃ s, regAlloc armEnv (variadicFunc arraySize) (variadicState arraySize) = .ok ((), s) ∧
      s.requests = [⟨1, some (arraySize * 4)⟩] := by
  intro arraySize member
  apply exists_run
  revert arraySize
  decide +kernel

/-- Ten integers have their room behind the arguments. -/
theorem frameHolds_array :
    ∃ s, regAlloc armEnv (variadicFunc 10) (variadicState 10) = .ok ((), s) ∧
      FrameHolds armEnv (variadicFunc 10) s := by
  rcases variadicFunc_run 10 (by decide) with ⟨s, ran, requests⟩
  refine ⟨s, ran, (frameHolds_iff _ _ _ _ _ _ _ ran).mpr fun earlier request isPrefix => ?_⟩
  rw [requests] at isPrefix
  have isAll := isPrefix.eq_of_length_le (by simp)
  rcases List.append_eq_singleton_iff.mp isAll with ⟨rfl, isRequest⟩ | ⟨-, isEmpty⟩
  · cases isRequest
    constructor
    · rintro _ ⟨⟩
      decide
    · decide
  · cases isEmpty

/-- The bytes of 2³⁰ integers are counted as none, and the array does not end in the frame. -/
theorem largeArray_overlaps :
    ¬∀ (env : Env) (f : Func) (regs : Int → Reg) (visited : BlockId → Nat)
      (mainBb : Option BlockId) (used : List String) (s : State),
      regAlloc env f (.initial env f regs visited mainBb used) = .ok ((), s) →
        FrameHolds env f s := by
  intro holds
  rcases variadicFunc_run 1073741824 (by decide) with ⟨s, ran, requests⟩
  have laidOut := (holds _ _ _ _ _ _ s ran).laidOut _ (List.prefix_refl _)
  rw [requests] at laidOut
  have inside := @laidOut.packed.inside 1 4294967000 ⟨rfl, rfl, rfl, .inr ⟨_, rfl, by decide⟩⟩
  exact absurd inside.2 (by decide)

end Shecc.RegAlloc
