import Shecc.RegAlloc.Frame

/-!
# The allocator lays out the frame

Every step of the allocator either leaves the places of the variables alone or grants a
request of a local variable. So the frame it ends with is the one its requests lead to, and
an instruction that counts from the top of the stack accesses an argument the caller stored.
-/

namespace Shecc.RegAlloc

open Libc (wrap)
open Alloc

variable (env : Env) (f : Func)

/-- The instruction accesses the argument `i` where the caller stored it, counted from the top
of the frame. -/
def Accesses (ir : Ph2Ir) (i : Int) : Prop :=
  maxArgsInReg env.arch ≤ i ∧ i < maxParams ∧
    (((ir.op = .load ∨ ir.op = .addressOf) ∧ ir.src0 = 4 * (i - maxArgsInReg env.arch)) ∨
      (ir.op = .store ∧ ir.src1 = 4 * (i - maxArgsInReg env.arch)))

/-- A variable counted from the top of the stack is a parameter the caller stored. -/
def Fair (r : Var) : Prop :=
  r.ofsBasedOnStackTop = true → r.isGlobal = false ∧
    ∃ i, maxArgsInReg env.arch ≤ i ∧ i < maxParams ∧ r.offset = 4 * (i - maxArgsInReg env.arch)

/-- The frame the requests of a state lead to. -/
def State.frame (s : State) : Frame := (Frame.entry env f).after s.requests

/-- The record of a variable and its place in the frame agree. -/
structure Place.IsOf (place : Place) (r : Var) : Prop where
  offset : r.offset = place.offset
  spaceIsAllocated : r.spaceIsAllocated = place.spaceIsAllocated
  ofsBasedOnStackTop : r.ofsBasedOnStackTop = place.ofsBasedOnStackTop

/-- The allocator is where its requests have led it. -/
structure Follows (s : State) : Prop where
  isGlobal : ∀ v, (s.vars v).isGlobal = (f.vars v).isGlobal
  stackSize : s.stackSize = (s.frame env f).stackSize
  place : ∀ v, ((s.frame env f).place v).IsOf (s.vars v)
  own : ∀ request ∈ s.requests, request.Own env f
  code : ∀ bb, ∀ ir ∈ s.code bb, ir.ofsBasedOnStackTop = true → ∃ i, Accesses env ir i

/-! ## Places that stay -/

section Places

variable {env} {f} {s : State} {v : VarId} {requests : List Request}

/-- What the caller stored is counted from the top of the stack. -/
theorem entry_flagged (flagged : ((Frame.entry env f).place v).ofsBasedOnStackTop = true) :
    v ∈ f.paramDefs ∧ maxArgsInReg env.arch ≤ f.paramDefs.idxOf v ∧
      (Frame.entry env f).place v =
        { offset := 4 * (f.paramDefs.idxOf v - maxArgsInReg env.arch)
          spaceIsAllocated := true
          ofsBasedOnStackTop := true
          object := none } := by
  have unflagged := f.unflagged v
  by_cases isParam : v ∈ f.paramDefs
  · simp only [Frame.entry, if_pos isParam, Place.ofParam] at flagged ⊢
    split_ifs at flagged ⊢ with variadic inReg onStack
    · exact absurd (unflagged.symm.trans flagged) Bool.false_ne_true
    · exact absurd (unflagged.symm.trans flagged) Bool.false_ne_true
    · refine ⟨isParam, onStack, ?_⟩
      rw [mul_comm]
      rfl
    · exact absurd (unflagged.symm.trans flagged) Bool.false_ne_true
  · simp only [Frame.entry, if_neg isParam] at flagged
    exact absurd (unflagged.symm.trans flagged) Bool.false_ne_true

/-- A place that is handed out already stays where it is. -/
theorem after_place_of_flag (own : ∀ request ∈ requests, request.Own env f)
    (flagged : ((Frame.entry env f).place v).ofsBasedOnStackTop = true) :
    ((Frame.entry env f).after requests).place v = (Frame.entry env f).place v := by
  induction requests using List.reverseRecOn with
  | nil => rfl
  | append_singleton earlier request inductionHypothesis =>
      rw [Frame.after_concat, grant_place_ne]
      · exact inductionHypothesis fun other member => own other (by simp [member])
      · rintro rfl
        have unflagged := (own request (by simp)).2
        exact absurd (unflagged.symm.trans flagged) Bool.false_ne_true

/-- A variable that has a place keeps having one. -/
theorem after_allocated (frame : Frame)
    (allocated : (frame.place v).spaceIsAllocated = true) :
    ((frame.after requests).place v).spaceIsAllocated = true := by
  induction requests generalizing frame with
  | nil => exact allocated
  | cons request rest inductionHypothesis =>
      apply inductionHypothesis
      by_cases same : v = request.owner
      · subst same
        rw [grant_place_owner]
      · rw [grant_place_ne same]
        exact allocated

theorem Follows.fair (follows : Follows env f s) (v : VarId) : Fair env (s.vars v) := by
  intro flagged
  have place := follows.place v
  rw [place.ofsBasedOnStackTop, State.frame, after_place_flag] at flagged
  have stays := after_place_of_flag follows.own flagged
  rcases entry_flagged flagged with ⟨isParam, onStack, isPlace⟩
  have inside := List.idxOf_lt_length_of_mem isParam
  have few := f.fewParams
  refine ⟨(follows.isGlobal v).trans (f.localParams v isParam), _, onStack, by omega, ?_⟩
  rw [place.offset, State.frame, stays, isPlace]

/-- Only parameters are counted from the top of the stack. -/
theorem Follows.plain (follows : Follows env f s) (notParam : v ∉ f.paramDefs) :
    (s.vars v).ofsBasedOnStackTop = false := by
  rw [(follows.place v).ofsBasedOnStackTop, State.frame, after_place_flag, Bool.eq_false_iff]
  exact fun flagged => notParam (entry_flagged flagged).1

/-- A variable without a place may ask for one. -/
theorem Follows.mayAsk (follows : Follows env f s)
    (unplaced : (s.vars v).spaceIsAllocated = false) (bytes : Option Int) :
    (Request.mk v bytes).Own env f := by
  have notYet : ((Frame.entry env f).place v).spaceIsAllocated = false := by
    rw [Bool.eq_false_iff]
    intro allocated
    have later := @after_allocated v s.requests _ allocated
    rw [(follows.place v).spaceIsAllocated, State.frame, later] at unplaced
    cases unplaced
  constructor
  · by_contra isGlobal
    rw [Bool.not_eq_false] at isGlobal
    have isPlaced : (f.vars v).spaceIsAllocated = true := (f.placed v).trans isGlobal
    have notParam : v ∉ f.paramDefs := fun isParam =>
      absurd ((f.localParams v isParam).symm.trans isGlobal) Bool.false_ne_true
    simp only [Frame.entry, if_neg notParam, Place.ofVar] at notYet
    exact absurd (notYet.symm.trans isPlaced) Bool.false_ne_true
  · by_contra flagged
    rw [Bool.not_eq_false] at flagged
    rw [(entry_flagged flagged).2.2] at notYet
    cases notYet

/-- A request is granted. -/
theorem Follows.grant {s' : State} {request : Request} (follows : Follows env f s)
    (own : request.Own env f) (requests : s'.requests = s.requests ++ [request])
    (vars : s'.vars = s.vars.set request.owner { s.vars request.owner with
      offset := s.stackSize, spaceIsAllocated := true })
    (stackSize : s'.stackSize = wrap (s.stackSize + 4 + request.reserved))
    (code : s'.code = s.code) : Follows env f s' := by
  have frame : s'.frame env f = (s.frame env f).grant request := by
    rw [State.frame, requests, Frame.after_concat]
    rfl
  constructor
  · intro v
    rw [vars]
    by_cases same : v = request.owner
    · subst same
      rw [Vars.set_same]
      exact follows.isGlobal _
    · rw [Vars.set_ne _ _ same]
      exact follows.isGlobal v
  · rw [stackSize, frame, grant_stackSize_eq, follows.stackSize]
  · intro v
    rw [vars, frame]
    by_cases same : v = request.owner
    · subst same
      rw [Vars.set_same, grant_place_owner]
      exact ⟨follows.stackSize, rfl, (follows.place _).ofsBasedOnStackTop⟩
    · rw [Vars.set_ne _ _ same, grant_place_ne same]
      exact follows.place v
  · intro other member
    rw [requests, List.mem_append, List.mem_singleton] at member
    rcases member with earlier | rfl
    · exact follows.own other earlier
    · exact own
  · rw [code]
    exact follows.code

end Places

/-! ## Steps -/

/-- A computation that follows the frame. -/
class Keeps {α : Type} (step : Alloc α) : Prop where
  keeps : ∀ {s s' : State} {value : α}, step s = .ok (value, s') →
    Follows env f s → Follows env f s'

namespace Keeps

variable {env} {f} {α β : Type}

instance pure (value : α) : Keeps env f (Pure.pure value : Alloc α) where
  keeps ran follows := by
    cases ran
    exact follows

instance bind {step : Alloc α} {rest : α → Alloc β} [first : Keeps env f step]
    [second : ∀ value, Keeps env f (rest value)] : Keeps env f (step >>= rest) where
  keeps ran follows := by
    rcases bind_eq_ok_iff.mp ran with ⟨value, middle, before, behind⟩
    exact (second value).keeps behind (first.keeps before follows)

/-- The rule for a computation whose rest is split into cases. -/
theorem andThen {step : Alloc α} {rest : α → Alloc β} (first : Keeps env f step)
    (second : ∀ value, Keeps env f (rest value)) : Keeps env f (step >>= rest) := inferInstance

instance ite {condition : Prop} [Decidable condition] {step other : Alloc α}
    [first : Keeps env f step] [second : Keeps env f other] :
    Keeps env f (if condition then step else other) := by
  split <;> assumption

instance fail (stop : Stop) : Keeps env f (Alloc.fail stop : Alloc α) where
  keeps ran := nomatch ran

instance deref (value : Option α) : Keeps env f (Alloc.deref value) := by
  cases value
  · exact fail _
  · exact pure _

/-- The rule for a pointer about whose target something is known. -/
theorem derefThen {value : Option α} {rest : α → Alloc β}
    (each : ∀ x ∈ value, Keeps env f (rest x)) : Keeps env f (Alloc.deref value >>= rest) := by
  cases value with
  | none => exact ⟨fun ran => nomatch ran⟩
  | some x => exact ⟨(each x rfl).keeps⟩

instance get : Keeps env f (get : Alloc State) where
  keeps ran follows := by
    cases ran
    exact follows

/-- A change that the frame and the code do not notice. -/
theorem unnoticed {change : State → State} (vars : ∀ s v, (change s).vars v = s.vars v)
    (stackSize : ∀ s, (change s).stackSize = s.stackSize)
    (requests : ∀ s, (change s).requests = s.requests)
    (code : ∀ s, (change s).code = s.code) :
    Keeps env f (modify change : Alloc Unit) where
  keeps {s _ _} ran follows := by
    cases ran
    have frame : (change s).frame env f = s.frame env f :=
      congrArg (Frame.entry env f).after (requests s)
    constructor
    · intro v
      rw [vars]
      exact follows.isGlobal v
    · rw [stackSize, frame]
      exact follows.stackSize
    · intro v
      rw [vars, frame]
      exact follows.place v
    · rw [requests]
      exact follows.own
    · rw [code]
      exact follows.code

/-- A change of a record that the frame does not notice. -/
theorem modifyVar (var : VarId) {change : Var → Var}
    (same : ∀ r, (change r).isGlobal = r.isGlobal ∧ Place.ofVar (change r) = Place.ofVar r) :
    Keeps env f (RegAlloc.modifyVar var change) where
  keeps {s _ _} ran follows := by
    cases ran
    have unchanged : ∀ v, (s.vars.set var (change (s.vars var)) v).isGlobal =
        (s.vars v).isGlobal ∧
        Place.ofVar (s.vars.set var (change (s.vars var)) v) = Place.ofVar (s.vars v) := by
      intro v
      by_cases isVar : v = var
      · subst isVar
        rw [Vars.set_same]
        exact same _
      · rw [Vars.set_ne _ _ isVar]
        exact ⟨rfl, rfl⟩
    constructor
    · intro v
      exact (unchanged v).1.trans (follows.isGlobal v)
    · exact follows.stackSize
    · intro v
      have place := follows.place v
      have samePlace := (unchanged v).2
      simp only [Place.ofVar, Place.mk.injEq] at samePlace
      exact ⟨samePlace.1.trans place.offset, samePlace.2.1.trans place.spaceIsAllocated,
        samePlace.2.2.1.trans place.ofsBasedOnStackTop⟩
    · exact follows.own
    · exact follows.code

/-- What is done with a record, when the frame has been followed so far. -/
theorem record {var : VarId} {rest : Var → Alloc β}
    (each : ∀ s, Follows env f s → Keeps env f (rest (s.vars var))) :
    Keeps env f (RegAlloc.record var >>= rest) where
  keeps {s _ _} ran follows := (each s follows).keeps ran follows

instance recordAlone (var : VarId) : Keeps env f (RegAlloc.record var) where
  keeps ran follows := by
    cases ran
    exact follows

instance reg (i : Int) : Keeps env f (RegAlloc.reg i) := by
  unfold RegAlloc.reg
  infer_instance

instance setReg (i : Int) (content : Reg) : Keeps env f (RegAlloc.setReg i content) := by
  unfold RegAlloc.setReg
  have changed : Keeps env f (modify fun s : State =>
      { s with regs := Function.update s.regs i content } : Alloc Unit) :=
    unnoticed (fun _ _ => rfl) (fun _ => rfl) (fun _ => rfl) (fun _ => rfl)
  infer_instance

/-- The registers one after the other. -/
theorem forM {list : List α} {step : α → Alloc Unit} (each : ∀ x, Keeps env f (step x)) :
    Keeps env f (list.forM step) := by
  induction list with
  | nil => exact pure ()
  | cons x rest inductionHypothesis => exact andThen (each x) fun _ => inductionHypothesis

/-- An instruction counted from the top of the stack accesses an argument. -/
theorem emit (bb : BasicBlock) {ir : Ph2Ir}
    (fair : ir.ofsBasedOnStackTop = true → ∃ i, Accesses env ir i) :
    Keeps env f (bbAddPh2Ir bb ir) where
  keeps {s _ _} ran follows := by
    cases ran
    refine ⟨follows.isGlobal, follows.stackSize, follows.place, follows.own, ?_⟩
    intro b other member flagged
    dsimp only at member
    by_cases same : b = bb.id
    · subst same
      rw [Function.update_self, List.mem_append, List.mem_singleton] at member
      rcases member with earlier | rfl
      · exact follows.code _ _ earlier flagged
      · exact fair flagged
    · rw [Function.update_of_ne same] at member
      exact follows.code _ _ member flagged

/-- An instruction that does not count from the top of the stack. -/
instance emitPlain (bb : BasicBlock) (op : Opcode) (src0 src1 dest : Int) (funcName : String)
    (nextBb thenBb elseBb : Option BlockId) (isBranchDetached : Bool) :
    Keeps env f (bbAddPh2Ir bb
      ⟨op, src0, src1, dest, funcName, nextBb, thenBb, elseBb, isBranchDetached, false⟩) :=
  emit bb fun flagged => nomatch flagged

instance vregMapToPhys (var : Option VarId) (physReg : Int) :
    Keeps env f (RegAlloc.vregMapToPhys var physReg) := by
  cases var with
  | none => exact pure ()
  | some var =>
      unfold RegAlloc.vregMapToPhys
      exact modifyVar var fun _ => ⟨rfl, rfl⟩

instance vregClearPhys (var : Option VarId) : Keeps env f (RegAlloc.vregClearPhys var) :=
  vregMapToPhys var (-1)

instance vregGetPhys (var : Option VarId) : Keeps env f (RegAlloc.vregGetPhys var) := by
  cases var with
  | none => exact pure (-1)
  | some var => exact andThen (recordAlone var) fun _ => pure _

instance trackVarUse (var : Option VarId) (insnIdx : Int) :
    Keeps env f (RegAlloc.trackVarUse var insnIdx) := by
  cases var with
  | none => exact pure ()
  | some var =>
      unfold RegAlloc.trackVarUse
      exact modifyVar var fun _ => ⟨rfl, rfl⟩

instance forget (i : Int) : Keeps env f (RegAlloc.forget i) := by
  unfold RegAlloc.forget
  infer_instance

instance release (i : Int) (var : VarId) : Keeps env f (RegAlloc.release i var) := by
  unfold RegAlloc.release
  infer_instance

/-- What is done with the variable in a register, if there is one. -/
theorem held {i : Int} {step : VarId → Alloc Unit} (each : ∀ var, Keeps env f (step var)) :
    Keeps env f (do
      match (← RegAlloc.reg i).var with
      | none => Pure.pure ()
      | some var => step var) := by
  refine andThen (reg i) fun content => ?_
  cases content.var with
  | none => exact pure ()
  | some var => exact each var

instance refresh (bb : BasicBlock) (insn : Insn) : Keeps env f (RegAlloc.refresh bb insn) := by
  unfold RegAlloc.refresh
  exact forM fun i => held fun var => inferInstance

instance takeSlotOnce (var : VarId) : Keeps env f (RegAlloc.takeSlotOnce var) where
  keeps {s s' _} ran follows := by
    change (if (s.vars var).spaceIsAllocated = true then Pure.pure ()
      else takeSlot var : Alloc Unit) s = _ at ran
    split at ran
    · cases ran
      exact follows
    · rename_i unplaced
      cases ran
      rw [Bool.not_eq_true] at unplaced
      refine follows.grant (follows.mayAsk unplaced none) ?_ ?_ ?_ ?_
      · rfl
      · rfl
      · change wrap (s.stackSize + 4) = wrap (s.stackSize + 4 + 0)
        rw [add_zero]
      · rfl

theorem elementSize_same {r : Var} {var : VarId} {s s' : State} {sz : Int}
    (ran : RegAlloc.elementSize f r var s = .ok (sz, s')) : s' = s := by
  unfold RegAlloc.elementSize at ran
  split at ran
  · cases ran
    rfl
  · cases isType : f.type var with
    | none =>
        rw [isType] at ran
        cases ran
    | some type =>
        rw [isType] at ran
        cases ran
        rfl

/-- What `OP_allocat` declares may ask for room. -/
theorem takeObject {var : VarId} (notParam : var ∉ f.paramDefs)
    (isLocal : (f.vars var).isGlobal = false) : Keeps env f (RegAlloc.takeObject f var) where
  keeps {s s' _} ran follows := by
    rcases bind_eq_ok_iff.mp ran with ⟨r, middle, before, behind⟩
    cases before
    rcases bind_eq_ok_iff.mp behind with ⟨sz, middle, before, behind⟩
    cases elementSize_same before
    cases behind
    have own : (Request.mk var (some (objectBytes (s.vars var) sz))).Own env f := by
      refine ⟨isLocal, ?_⟩
      rw [Bool.eq_false_iff]
      exact fun flagged => notParam (entry_flagged flagged).1
    refine follows.grant own ?_ ?_ ?_ ?_
    · rfl
    · rfl
    · exact Libc.wrap_wrap_add _ _
    · rfl

instance spillVar (bb : BasicBlock) (var : VarId) (idx : Int) :
    Keeps env f (RegAlloc.spillVar bb var idx) := by
  unfold RegAlloc.spillVar
  refine andThen inferInstance fun content => ?_
  split
  · refine andThen inferInstance fun _ => record fun s follows =>
      andThen (emit bb fun flagged => ?_) fun _ => inferInstance
    rcases follows.fair var flagged with ⟨isLocal, i, onStack, inside, isOffset⟩
    refine ⟨i, onStack, inside, .inr ⟨?_, isOffset⟩⟩
    rw [isLocal]
    rfl
  · infer_instance

theorem loadIr_accesses {r : Var} (fair : Fair env r) {idx : Int}
    (flagged : (loadIr r idx).ofsBasedOnStackTop = true) :
    ∃ i, Accesses env (loadIr r idx) i := by
  rw [loadIr] at flagged ⊢
  split at flagged
  · cases flagged
  · rename_i notConst
    rw [if_neg notConst]
    rcases fair flagged with ⟨isLocal, i, onStack, inside, isOffset⟩
    refine ⟨i, onStack, inside, .inl ⟨.inl ?_, isOffset⟩⟩
    rw [isLocal]
    rfl

instance loadVar (bb : BasicBlock) (var : VarId) (idx : Int) :
    Keeps env f (RegAlloc.loadVar bb var idx) := by
  unfold RegAlloc.loadVar
  exact record fun s follows => andThen (emit bb (loadIr_accesses (follows.fair var)))
    fun _ => inferInstance

instance spillBest (bb : BasicBlock) (avoidReg1 avoidReg2 : Int) :
    Keeps env f (RegAlloc.spillBest bb avoidReg1 avoidReg2) := by
  unfold RegAlloc.spillBest
  infer_instance

instance prepareOperand (bb : BasicBlock) (var : Option VarId) (operand0 : Int) :
    Keeps env f (RegAlloc.prepareOperand bb var operand0) := by
  unfold RegAlloc.prepareOperand
  infer_instance

instance prepareDest (bb : BasicBlock) (var : Option VarId) (operand0 operand1 : Int) :
    Keeps env f (RegAlloc.prepareDest bb var operand0 operand1) := by
  unfold RegAlloc.prepareDest
  infer_instance

instance spillAlive (bb : BasicBlock) (insn : Insn) :
    Keeps env f (RegAlloc.spillAlive bb insn) := by
  unfold RegAlloc.spillAlive
  exact forM fun i => held fun var => inferInstance

instance spillLiveOut (bb : BasicBlock) : Keeps env f (RegAlloc.spillLiveOut bb) := by
  unfold RegAlloc.spillLiveOut
  exact forM fun i => held fun var => inferInstance

instance extendLiveness (bb : BasicBlock) (insn : Insn) (var : Option VarId) (offset : Int) :
    Keeps env f (RegAlloc.extendLiveness bb insn var offset) := by
  unfold RegAlloc.extendLiveness
  refine andThen inferInstance fun var => ?_
  split
  · infer_instance
  · apply modifyVar
    exact fun _ => ⟨rfl, rfl⟩

instance storeStackArgs (bb : BasicBlock) (insns : List Insn) :
    Keeps env f (RegAlloc.storeStackArgs env bb insns) := by
  induction insns with
  | nil => exact pure ()
  | cons insn rest inductionHypothesis =>
      exact andThen inferInstance fun var => andThen inferInstance fun _ =>
        andThen inferInstance fun _ => inductionHypothesis

instance abiLowerCallArgs (bb : BasicBlock) (insns : List Insn) :
    Keeps env f (RegAlloc.abiLowerCallArgs env bb insns) := by
  unfold RegAlloc.abiLowerCallArgs
  infer_instance

/-! ## Instructions -/

/-- A store to where a variable is kept. -/
theorem emitStore (bb : BasicBlock) (src0 : Int) {r : Var} (fair : Fair env r) :
    Keeps env f (bbAddPh2Ir bb
      { op := .store
        src0 := src0
        src1 := r.offset
        ofsBasedOnStackTop := r.ofsBasedOnStackTop }) := by
  refine emit bb fun flagged => ?_
  rcases fair flagged with ⟨-, i, onStack, inside, isOffset⟩
  exact ⟨i, onStack, inside, .inr ⟨rfl, isOffset⟩⟩

instance storeGlobal (bb : BasicBlock) (rd : VarId) (dest : Int) :
    Keeps env f (RegAlloc.storeGlobal bb rd dest) := by
  unfold RegAlloc.storeGlobal
  infer_instance

instance storeCached (bb : BasicBlock) (var : VarId) :
    Keeps env f (RegAlloc.storeCached bb var) := by
  unfold RegAlloc.storeCached
  refine forM fun i => andThen inferInstance fun content => ?_
  split
  · exact record fun s follows => andThen (emitStore bb i (follows.fair var)) fun _ => inferInstance
  · exact pure ()

instance allocUnwoundPhi (bb : BasicBlock) (insn : Insn) :
    Keeps env f (RegAlloc.allocUnwoundPhi bb insn) := by
  unfold RegAlloc.allocUnwoundPhi
  exact andThen inferInstance fun _ => andThen inferInstance fun src0 =>
    andThen inferInstance fun rd => andThen inferInstance fun _ => record fun s follows =>
      emitStore bb src0 (follows.fair rd)

theorem allocAllocat (bb : BasicBlock) {insn : Insn}
    (declares : ∀ v ∈ insn.rd, v ∉ f.paramDefs ∧ (f.vars v).isGlobal = false) :
    Keeps env f (RegAlloc.allocAllocat f bb insn) := by
  unfold RegAlloc.allocAllocat
  refine derefThen fun rd isRd => andThen inferInstance fun r => ?_
  rcases declares rd isRd with ⟨notParam, isLocal⟩
  split
  · infer_instance
  · refine andThen (takeObject notParam isLocal) fun src0 => andThen inferInstance fun dest =>
      record fun s follows => ?_
    rw [follows.plain notParam]
    infer_instance

instance allocLoadConstant (bb : BasicBlock) (insn : Insn) :
    Keeps env f (RegAlloc.allocLoadConstant bb insn) := by
  unfold RegAlloc.allocLoadConstant
  infer_instance

theorem allocAddressOf (bb : BasicBlock) {insn : Insn}
    (globalAddresses : insn.opcode = .globalAddressOf →
      ∀ v ∈ insn.rs1, (f.vars v).isGlobal = true) :
    Keeps env f (RegAlloc.allocAddressOf bb insn) := by
  have emitted : ∀ rs1 ∈ insn.rs1, ∀ dest, Keeps env f (do
      let r ← RegAlloc.record rs1
      bbAddPh2Ir bb
        { op := if r.isGlobal ∨ insn.opcode = .globalAddressOf then .globalAddressOf else .addressOf
          src0 := r.offset
          dest := dest
          ofsBasedOnStackTop := r.ofsBasedOnStackTop }) := by
    intro rs1 isRs1 dest
    refine record fun s follows => emit bb fun flagged => ?_
    rcases follows.fair rs1 flagged with ⟨isLocal, i, onStack, inside, isOffset⟩
    have notGlobal : ¬((s.vars rs1).isGlobal = true ∨ insn.opcode = .globalAddressOf) := by
      rintro (isGlobal | isOp)
      · exact absurd (isLocal.symm.trans isGlobal) Bool.false_ne_true
      · have isGlobal := globalAddresses isOp rs1 isRs1
        rw [follows.isGlobal rs1] at isLocal
        exact absurd (isLocal.symm.trans isGlobal) Bool.false_ne_true
    refine ⟨i, onStack, inside, .inl ⟨.inr ?_, isOffset⟩⟩
    dsimp only
    rw [if_neg notGlobal]
  unfold RegAlloc.allocAddressOf
  refine derefThen fun rs1 isRs1 => andThen (modifyVar rs1 fun _ => ⟨rfl, rfl⟩) fun _ =>
    andThen inferInstance fun r => andThen inferInstance fun _ => ?_
  dsimp only
  split
  · exact andThen inferInstance fun dest => emitted rs1 isRs1 dest
  · exact andThen inferInstance fun _ => andThen inferInstance fun dest => emitted rs1 isRs1 dest

instance allocAssign (bb : BasicBlock) (insn : Insn) :
    Keeps env f (RegAlloc.allocAssign bb insn) := by
  unfold RegAlloc.allocAssign
  refine andThen inferInstance fun rd => andThen inferInstance fun r => ?_
  split
  · exact pure ()
  · refine andThen inferInstance fun _ => andThen inferInstance fun s => ?_
    dsimp only
    split <;> exact andThen inferInstance fun src0 => andThen inferInstance fun dest =>
      andThen inferInstance fun _ => inferInstance

/-- The function is used. -/
instance use (name : String) :
    Keeps env f (modify fun s : State => { s with used := s.used ++ [name] } : Alloc Unit) :=
  unnoticed (fun _ _ => rfl) (fun _ => rfl) (fun _ => rfl) (fun _ => rfl)

instance allocWrite (bb : BasicBlock) (insn : Insn) :
    Keeps env f (RegAlloc.allocWrite env f bb insn) := by
  unfold RegAlloc.allocWrite
  infer_instance

instance allocBranch (bb : BasicBlock) (insn : Insn) :
    Keeps env f (RegAlloc.allocBranch bb insn) := by
  unfold RegAlloc.allocBranch
  infer_instance

instance allocPush (bb : BasicBlock) (insn : Insn) (behind : List Insn) (p : Pushing) :
    Keeps env f (RegAlloc.allocPush env bb insn behind p) := by
  have placed : ∀ argsOnStack : Bool, Keeps env f
      (if argsOnStack ∧ p.args ≥ maxArgsInReg env.arch then
        Pure.pure ⟨true, true, argsOnStack, p.args⟩
      else do
        let src0 ← RegAlloc.prepareOperand bb insn.rs1 (-1)
        bbAddPh2Ir bb { op := .assign, src0 := src0, dest := p.args }
        RegAlloc.setReg p.args { var := insn.rs1, polluted := false }
        Pure.pure ⟨true, true, argsOnStack, p.args + 1⟩ : Alloc Pushing) := fun _ => inferInstance
  unfold RegAlloc.allocPush
  refine andThen inferInstance fun _ => ?_
  dsimp only
  split <;> split
  · exact andThen inferInstance placed
  · exact andThen inferInstance placed
  · exact andThen inferInstance fun _ => andThen inferInstance placed
  · exact andThen inferInstance fun _ => andThen inferInstance placed

instance forgetAll : Keeps env f (registers.forM RegAlloc.forget) :=
  forM fun _ => inferInstance

instance allocCall (bb : BasicBlock) (insn : Insn) (p : Pushing) :
    Keeps env f (RegAlloc.allocCall env bb insn p) := by
  unfold RegAlloc.allocCall
  infer_instance

instance allocIndirect (bb : BasicBlock) (insn : Insn) (p : Pushing) :
    Keeps env f (RegAlloc.allocIndirect bb insn p) := by
  unfold RegAlloc.allocIndirect
  infer_instance

instance allocFuncRet (bb : BasicBlock) (insn : Insn) :
    Keeps env f (RegAlloc.allocFuncRet bb insn) := by
  unfold RegAlloc.allocFuncRet
  infer_instance

instance allocReturn (bb : BasicBlock) (insn : Insn) :
    Keeps env f (RegAlloc.allocReturn bb insn) := by
  unfold RegAlloc.allocReturn
  infer_instance

instance allocBinary (bb : BasicBlock) (insn : Insn) :
    Keeps env f (RegAlloc.allocBinary bb insn) := by
  unfold RegAlloc.allocBinary
  infer_instance

instance allocUnary (bb : BasicBlock) (insn : Insn) (src1 : Int) :
    Keeps env f (RegAlloc.allocUnary bb insn src1) := by
  unfold RegAlloc.allocUnary
  infer_instance

theorem allocInsn (bb : BasicBlock) {insn : Insn} (behind : List Insn) (p : Pushing)
    (declares : insn.opcode = .allocat →
      ∀ v ∈ insn.rd, v ∉ f.paramDefs ∧ (f.vars v).isGlobal = false)
    (globalAddresses : insn.opcode = .globalAddressOf →
      ∀ v ∈ insn.rs1, (f.vars v).isGlobal = true) :
    Keeps env f (RegAlloc.allocInsn env f bb insn behind p) := by
  unfold RegAlloc.allocInsn
  refine andThen inferInstance fun _ => ?_
  split
  case h_2 isOp => exact andThen (allocAllocat bb (declares isOp)) fun _ => inferInstance
  case h_6 isOp => exact andThen (allocAddressOf bb globalAddresses) fun _ => inferInstance
  case h_7 isOp => exact andThen (allocAddressOf bb globalAddresses) fun _ => inferInstance
  all_goals infer_instance

/-- The instructions of a block, or the last ones of them. -/
theorem allocInsns {bb : BasicBlock} (inFunc : bb ∈ f.bbs :: f.rest) {insns : List Insn}
    (inBlock : insns ⊆ bb.insns) (p : Pushing) :
    Keeps env f (RegAlloc.allocInsns env f bb insns p) := by
  induction insns generalizing p with
  | nil => exact pure ()
  | cons insn behind inductionHypothesis =>
      rw [List.cons_subset] at inBlock
      exact andThen (allocInsn bb behind p (f.declares bb inFunc insn inBlock.1)
        (f.globalAddresses bb inFunc insn inBlock.1)) fun p' => inductionHypothesis inBlock.2 p'

/-- The jump at the end of a block. -/
theorem blockJump (bb : BasicBlock) :
    Keeps env f
      (match bb.next with
      | none => Pure.pure ()
      | some next => do
          let s ← MonadState.get
          if bb.id = f.exit ∨ next = f.exit then Pure.pure ()
          else if s.visited next = f.visited + 1 ∨ f.rpo next ≠ f.rpo bb.id + 1 then
            bbAddPh2Ir bb { op := .jump, nextBb := next }
          else Pure.pure () : Alloc Unit) := by
  cases bb.next <;> infer_instance

theorem allocBlock {bb : BasicBlock} (inFunc : bb ∈ f.bbs :: f.rest) :
    Keeps env f (RegAlloc.allocBlock env f bb) := by
  unfold RegAlloc.allocBlock
  refine andThen (unnoticed (fun _ _ => rfl) (fun _ => rfl) (fun _ => rfl) fun _ => rfl) fun _ =>
    andThen (allocInsns inFunc (List.Subset.refl _) {}) fun _ => ?_
  dsimp only
  split
  · exact andThen inferInstance fun _ => blockJump bb
  · exact blockJump bb

instance implicitReturn (bb : BasicBlock) : Keeps env f (RegAlloc.implicitReturn f bb) := by
  unfold RegAlloc.implicitReturn
  infer_instance

/-- The blocks one after the other. -/
theorem allocBlocks {blocks : List BasicBlock} (inFunc : blocks ⊆ f.bbs :: f.rest) :
    Keeps env f (blocks.forM (RegAlloc.allocBlock env f)) := by
  induction blocks with
  | nil => exact pure ()
  | cons bb rest inductionHypothesis =>
      rw [List.cons_subset] at inFunc
      exact andThen (allocBlock inFunc.1) fun _ => inductionHypothesis inFunc.2

end Keeps

/-! ## Parameters -/

/-- The record of a variable before the first instruction. -/
def Func.entered (v : VarId) : Var :=
  let place := (Frame.entry env f).place v
  { f.vars v with
    offset := place.offset
    spaceIsAllocated := place.spaceIsAllocated
    ofsBasedOnStackTop := place.ofsBasedOnStackTop }

/-- The first `k` parameters have their places. -/
structure Entered (k : Int) (s : State) : Prop where
  requests : s.requests = []
  stackSize : s.stackSize = argumentArea env.arch + if f.vaArgs then 4 * k else 0
  vars : ∀ v, s.vars v =
    if v ∈ f.paramDefs ∧ f.paramDefs.idxOf v < k then f.entered env v else f.vars v
  code : ∀ bb, ∀ ir ∈ s.code bb, ir.ofsBasedOnStackTop = true → ∃ i, Accesses env ir i

section Parameters

variable {env} {f} {s s' : State} {k : Int}

theorem Entered.follows (entered : Entered env f maxParams s) : Follows env f s := by
  have few := f.fewParams
  have frame : s.frame env f = Frame.entry env f := by
    rw [State.frame, entered.requests]
    rfl
  have place : ∀ v, s.vars v = f.entered env v := by
    intro v
    rw [entered.vars]
    split
    · rfl
    · rename_i outside
      have notParam : v ∉ f.paramDefs := by
        intro isParam
        have inside := List.idxOf_lt_length_of_mem isParam
        exact outside ⟨isParam, by omega⟩
      simp only [Func.entered, Frame.entry, if_neg notParam, Place.ofVar]
  constructor
  · intro v
    rw [place]
    rfl
  · rw [frame, entered.stackSize]
    rfl
  · intro v
    rw [place, frame]
    exact ⟨rfl, rfl, rfl⟩
  · rw [entered.requests]
    exact fun _ member => absurd member List.not_mem_nil
  · exact entered.code

/-- The parameter `k` is where it is found. -/
theorem idxOf_param {v : VarId} (nonneg : 0 ≤ k) (isParam : f.param k = some v) :
    v ∈ f.paramDefs ∧ (f.paramDefs.idxOf v : Int) = k := by
  rw [Func.param, if_pos nonneg] at isParam
  rcases List.getElem?_eq_some_iff.mp isParam with ⟨inside, rfl⟩
  refine ⟨List.getElem_mem inside, ?_⟩
  rw [f.distinct.idxOf_getElem]
  omega

/-- What one more parameter changes, when it is a parameter of the function. -/
theorem Entered.vars_update {v : VarId} {r : Var} (entered : Entered env f k s) (nonneg : 0 ≤ k)
    (isParam : f.param k = some v) (isRecord : r = f.entered env v) (w : VarId) :
    s.vars.set v r w =
      if w ∈ f.paramDefs ∧ f.paramDefs.idxOf w < k + 1 then f.entered env w else f.vars w := by
  rcases idxOf_param nonneg isParam with ⟨member, place⟩
  by_cases same : w = v
  · subst same
    rw [Vars.set_same, if_pos ⟨member, by omega⟩, isRecord]
  · rw [Vars.set_ne _ _ same, entered.vars]
    have otherPlace : w ∈ f.paramDefs → (f.paramDefs.idxOf w : Int) ≠ k := by
      intro isOther samePlace
      have equal : f.paramDefs.idxOf w = f.paramDefs.idxOf v := by omega
      exact same ((List.idxOf_inj isOther).mp equal)
    by_cases isOther : w ∈ f.paramDefs
    · have := otherPlace isOther
      have iff : (f.paramDefs.idxOf w : Int) < k ↔ (f.paramDefs.idxOf w : Int) < k + 1 := by omega
      simp only [iff]
    · rw [if_neg fun both => isOther both.1, if_neg fun both => isOther both.1]

/-- One more parameter that gets no place, if there is one. -/
theorem Entered.vars_same (entered : Entered env f k s)
    (unplaced : ∀ v ∈ f.paramDefs, (f.paramDefs.idxOf v : Int) = k → f.entered env v = f.vars v)
    (w : VarId) :
    s.vars w =
      if w ∈ f.paramDefs ∧ f.paramDefs.idxOf w < k + 1 then f.entered env w else f.vars w := by
  rw [entered.vars]
  by_cases isParam : w ∈ f.paramDefs
  · by_cases here : (f.paramDefs.idxOf w : Int) = k
    · rw [if_neg (by omega), if_pos ⟨isParam, by omega⟩, unplaced w isParam here]
    · have iff : (f.paramDefs.idxOf w : Int) < k ↔ (f.paramDefs.idxOf w : Int) < k + 1 := by omega
      simp only [iff]
  · rw [if_neg fun both => isParam both.1, if_neg fun both => isParam both.1]

/-- A parameter in a register of a function that is not variadic, or on the stack of one that
is, has no place. -/
theorem entered_unplaced {v : VarId} (isParam : v ∈ f.paramDefs)
    (unplaced : if f.vaArgs then maxArgsInReg env.arch ≤ f.paramDefs.idxOf v
      else (f.paramDefs.idxOf v : Int) < maxArgsInReg env.arch) :
    f.entered env v = f.vars v := by
  simp only [Func.entered, Frame.entry, if_pos isParam, Place.ofParam]
  split at unplaced
  · rename_i variadic
    rw [if_pos variadic, if_neg (by omega)]
    rfl
  · rename_i fixed
    rw [if_neg fixed, if_neg (by omega)]
    rfl

/-- `argsInReg` counts the parameters in registers. -/
theorem lt_argsInReg_iff :
    k < argsInReg env f ↔ k < f.paramDefs.length ∧ k < maxArgsInReg env.arch := lt_min_iff

theorem Entered.emit {ir : Ph2Ir} (entered : Entered env f k s)
    (fair : ir.ofsBasedOnStackTop = true → ∃ i, Accesses env ir i) (bb b : BlockId) :
    ∀ other ∈ Function.update s.code bb (s.code bb ++ [ir]) b,
      other.ofsBasedOnStackTop = true → ∃ i, Accesses env other i := by
  intro other member flagged
  by_cases same : b = bb
  · subst same
    rw [Function.update_self, List.mem_append, List.mem_singleton] at member
    rcases member with earlier | rfl
    · exact entered.code _ _ earlier flagged
    · exact fair flagged
  · rw [Function.update_of_ne same] at member
    exact entered.code _ _ member flagged

theorem Entered.fetchArgument (entered : Entered env f k s) (inside : k < maxParams)
    (ran : fetchArgument env f k s = .ok ((), s')) : Entered env f k s' := by
  unfold RegAlloc.fetchArgument at ran
  split at ran
  · rename_i onStack
    cases ran
    have fair : ∃ i, Accesses env
        { op := .load
          src0 := (k - maxArgsInReg env.arch) * 4
          dest := maxArgsInReg env.arch
          ofsBasedOnStackTop := true } i :=
      ⟨k, onStack, inside, .inl ⟨.inl rfl, mul_comm _ _⟩⟩
    exact ⟨entered.requests, entered.stackSize, entered.vars, entered.emit (fun _ => fair) _⟩
  · cases ran
    exact entered

/-- The parameter gets the next slot. -/
theorem Entered.placeArgument (entered : Entered env f k s) (nonneg : 0 ≤ k)
    (variadic : f.vaArgs = true) (ran : placeArgument env f k s = .ok ((), s')) :
    s'.requests = [] ∧ s'.stackSize = s.stackSize ∧ s'.code = s.code ∧ ∀ v, s'.vars v =
      if v ∈ f.paramDefs ∧ f.paramDefs.idxOf v < k + 1 then f.entered env v else f.vars v := by
  have stackSize := entered.stackSize
  rw [if_pos variadic] at stackSize
  unfold RegAlloc.placeArgument at ran
  split at ran
  · rename_i inReg
    rw [lt_argsInReg_iff] at inReg
    rcases bind_eq_ok_iff.mp ran with ⟨v, middle, found, ran⟩
    cases isParam : f.param k with
    | none =>
        rw [isParam] at found
        cases found
    | some w =>
        rw [isParam] at found
        cases found
        cases ran
        rcases idxOf_param nonneg isParam with ⟨member, place⟩
        have isRecord : { s.vars v with offset := s.stackSize, spaceIsAllocated := true } =
            f.entered env v := by
          rw [entered.vars, if_neg (by omega)]
          simp only [Func.entered, Frame.entry, if_pos member, Place.ofParam, if_pos variadic,
            place,
            if_pos inReg.2, stackSize]
          rfl
        exact ⟨entered.requests, rfl, rfl, entered.vars_update nonneg isParam isRecord⟩
  · rename_i absent
    rw [lt_argsInReg_iff] at absent
    cases ran
    refine ⟨entered.requests, rfl, rfl, entered.vars_same ?_⟩
    intro v isParam here
    have := List.idxOf_lt_length_of_mem isParam
    apply entered_unplaced isParam
    rw [if_pos variadic]
    omega

theorem Entered.copyArgument (entered : Entered env f k s) (nonneg : 0 ≤ k) (inside : k < maxParams)
    (variadic : f.vaArgs = true) (ran : copyArgument env f k s = .ok ((), s')) :
    Entered env f (k + 1) s' := by
  have bottom := argumentArea_bounds env
  rcases bind_eq_ok_iff.mp ran with ⟨⟨⟩, fetched, before, ran⟩
  have entered := entered.fetchArgument inside before
  rcases bind_eq_ok_iff.mp ran with ⟨⟨⟩, placed, before, ran⟩
  rcases entered.placeArgument nonneg variadic before with ⟨requests, stackSize, code, vars⟩
  cases ran
  refine ⟨requests, ?_, vars, ?_⟩
  · change wrap (placed.stackSize + 4) = _
    rw [stackSize, entered.stackSize, if_pos variadic, if_pos variadic]
    rw [maxParams] at inside
    rw [Libc.wrap_eq]
    · omega
    · omega
    · rw [Libc.intMax]
      omega
  · change ∀ bb, ∀ ir ∈ Function.update placed.code f.bbs.id (placed.code f.bbs.id ++ [_]) bb, _
    rw [code]
    exact entered.emit (fun flagged => absurd flagged Bool.false_ne_true) _

theorem Entered.leaveArgument (entered : Entered env f k s) (nonneg : 0 ≤ k)
    (fixed : f.vaArgs = false) (ran : leaveArgument env f k s = .ok ((), s')) :
    Entered env f (k + 1) s' := by
  unfold RegAlloc.leaveArgument at ran
  split at ran
  · rename_i onStack
    rcases bind_eq_ok_iff.mp ran with ⟨v, middle, found, ran⟩
    cases isParam : f.param k with
    | none =>
        rw [isParam] at found
        cases found
    | some w =>
        rw [isParam] at found
        cases found
        cases ran
        rcases idxOf_param nonneg isParam with ⟨member, place⟩
        have isRecord : { s.vars v with
            offset := (k - maxArgsInReg env.arch) * 4
            spaceIsAllocated := true
            ofsBasedOnStackTop := true } = f.entered env v := by
          rw [entered.vars, if_neg (by omega)]
          simp only [Func.entered, Frame.entry, if_pos member, Place.ofParam, fixed, place,
            if_pos onStack.1, Bool.false_eq_true, if_false]
        refine ⟨entered.requests, ?_, entered.vars_update nonneg isParam isRecord, entered.code⟩
        rw [fixed]
        exact entered.stackSize.trans (by rw [fixed]; rfl)
  · rename_i absent
    cases ran
    refine ⟨entered.requests, ?_, entered.vars_same ?_, entered.code⟩
    · rw [fixed]
      exact entered.stackSize.trans (by rw [fixed]; rfl)
    · intro v isParam here
      have := List.idxOf_lt_length_of_mem isParam
      apply entered_unplaced isParam
      rw [fixed, if_neg Bool.false_ne_true]
      omega

/-- The same frame, whatever the registers hold. -/
def SameFrame (s s' : State) : Prop :=
  s'.vars = s.vars ∧ s'.stackSize = s.stackSize ∧ s'.requests = s.requests ∧ s'.code = s.code

theorem setReg_sameFrame {i : Int} {content : Reg} {value : Unit}
    (ran : setReg i content s = .ok (value, s')) : SameFrame s s' := by
  unfold RegAlloc.setReg at ran
  split at ran
  · cases ran
    exact ⟨rfl, rfl, rfl, rfl⟩
  · cases ran

theorem forget_sameFrame {i : Int} {value : Unit} (ran : forget i s = .ok (value, s')) :
    SameFrame s s' := by
  rcases bind_eq_ok_iff.mp ran with ⟨content, middle, before, behind⟩
  unfold RegAlloc.reg at before
  split at before
  · cases before
    exact setReg_sameFrame behind
  · cases before

/-- What each number takes to the next one, all of them take from the first to behind the
last. -/
theorem forM_chain {P : Int → State → Prop} {step : Int → Alloc Unit} {list : List Int}
    {first last : Int} (chain : (first :: list).IsChain fun i j => j = i + 1)
    (isLast : (first :: list).getLast? = some last)
    (each : ∀ k ∈ first :: list, ∀ s s', step k s = .ok ((), s') → P k s → P (k + 1) s')
    (ran : (first :: list).forM step s = .ok ((), s')) (start : P first s) : P (last + 1) s' := by
  induction list generalizing first s with
  | nil =>
      cases isLast
      rcases bind_eq_ok_iff.mp ran with ⟨⟨⟩, middle, before, behind⟩
      cases behind
      exact each _ List.mem_cons_self _ _ before start
  | cons next rest inductionHypothesis =>
      rcases bind_eq_ok_iff.mp ran with ⟨⟨⟩, middle, before, behind⟩
      rw [List.isChain_cons_cons] at chain
      rcases chain with ⟨rfl, chain⟩
      exact inductionHypothesis chain (by rwa [List.getLast?_cons_cons] at isLast)
        (fun k member => each k (.tail _ member)) behind
        (each first List.mem_cons_self _ _ before start)

/-- Steps that leave the frame alone. -/
theorem forM_sameFrame {step : Int → Alloc Unit} {list : List Int}
    (each : ∀ k s s', step k s = .ok ((), s') → SameFrame s s')
    (ran : list.forM step s = .ok ((), s')) : SameFrame s s' := by
  induction list generalizing s with
  | nil =>
      cases ran
      exact ⟨rfl, rfl, rfl, rfl⟩
  | cons k rest inductionHypothesis =>
      rcases bind_eq_ok_iff.mp ran with ⟨⟨⟩, middle, before, behind⟩
      rcases each k _ _ before with ⟨vars, stackSize, requests, code⟩
      rcases inductionHypothesis behind with ⟨vars', stackSize', requests', code'⟩
      exact ⟨vars'.trans vars, stackSize'.trans stackSize, requests'.trans requests,
        code'.trans code⟩

theorem SameFrame.trans {t : State} (first : SameFrame s s') (second : SameFrame s' t) :
    SameFrame s t :=
  ⟨second.1.trans first.1, second.2.1.trans first.2.1, second.2.2.1.trans first.2.2.1,
    second.2.2.2.trans first.2.2.2⟩

/-- Behind the parameters the allocator follows the frame. -/
theorem placeParameters_follows (vars : s.vars = f.vars)
    (stackSize : s.stackSize = argumentArea env.arch) (requests : s.requests = [])
    (code : s.code = fun _ => []) (ran : placeParameters env f s = .ok ((), s')) :
    Follows env f s' := by
  rcases bind_eq_ok_iff.mp ran with ⟨⟨⟩, emptied, before, ran⟩
  have forgotten := forM_sameFrame (fun _ _ _ => forget_sameFrame) before
  rcases bind_eq_ok_iff.mp ran with ⟨⟨⟩, held, before, ran⟩
  have same := forgotten.trans <| forM_sameFrame (fun k t t' ran => by
    split at ran
    · exact setReg_sameFrame ran
    · cases ran
      exact ⟨rfl, rfl, rfl, rfl⟩) before
  rcases same with ⟨sameVars, sameSize, sameRequests, sameCode⟩
  have start : Entered env f 0 held := by
    refine ⟨sameRequests.trans requests, ?_, ?_, ?_⟩
    · rw [sameSize, stackSize]
      split <;> simp
    · intro v
      rw [sameVars, vars, if_neg (by omega)]
    · rw [sameCode, code]
      exact fun _ _ member => nomatch member
  have bounds : ∀ k ∈ ([0, 1, 2, 3, 4, 5, 6, 7] : List Int), 0 ≤ k ∧ k < maxParams := by decide
  apply Entered.follows
  split at ran
  · rename_i variadic
    refine forM_chain (P := Entered env f) (by decide) rfl ?_ ran start
    intro k member t t' ran entered
    exact entered.copyArgument (bounds k member).1 (bounds k member).2 variadic ran
  · rename_i fixed
    refine forM_chain (P := Entered env f) (by decide) rfl ?_ ran start
    intro k member t t' ran entered
    exact entered.leaveArgument (bounds k member).1 (Bool.eq_false_iff.mpr fixed) ran

end Parameters

/-- The allocator follows the frame to the end of the function. -/
theorem regAlloc_follows {env : Env} {f : Func} {regs : Int → Reg} {visited : BlockId → Nat}
    {mainBb : Option BlockId} {used : List String} {s : State}
    (ran : regAlloc env f (.initial env f regs visited mainBb used) = .ok ((), s)) :
    Follows env f s := by
  have behind : ∀ {t : State}, t.vars = f.vars → t.stackSize = argumentArea env.arch →
      t.requests = [] → t.code = (fun _ => []) →
      (do
        placeParameters env f
        (f.bbs :: f.rest).forM (allocBlock env f)
        f.exitPrev.forM (implicitReturn f)) t = .ok ((), s) → Follows env f s := by
    intro t vars stackSize requests code ran
    rcases bind_eq_ok_iff.mp ran with ⟨⟨⟩, placed, before, ran⟩
    have follows := placeParameters_follows vars stackSize requests code before
    have blocks : Keeps env f (do
        (f.bbs :: f.rest).forM (allocBlock env f)
        f.exitPrev.forM (implicitReturn f)) :=
      Keeps.andThen (Keeps.allocBlocks (List.Subset.refl _)) fun _ =>
        Keeps.forM fun bb => inferInstance
    exact blocks.keeps ran follows
  unfold regAlloc at ran
  split at ran
  · exact behind rfl rfl rfl rfl ran
  · exact behind rfl rfl rfl rfl ran

end Shecc.RegAlloc
