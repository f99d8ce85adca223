import Shecc.Dataflow.Core
import Shecc.Ssa.Core

/-!
# Liveness analysis

What a block reads before it writes it and what it writes are collected in a forward
traversal. The live variables are then computed along the reverse post order from the exit,
from the live variables of the successors, until nothing changes. The union of the
successors' variables is collected in an array of limited size.
-/

namespace Shecc.Ssa

open Traversal Dataflow

/-- `MAX_ANALYSIS_STACK_SIZE`. -/
def maxAnalysisStackSize : Nat := 800

/-! ## Local sets -/

/-- `var_check_killed`. -/
def State.varCheckKilled (s : State) (var : VarId) (bb : BlockId) : Bool :=
  decide (var ∈ s.liveKill bb)

/-- `bb_add_killed_var`. -/
def State.bbAddKilledVar (s : State) (bb : BlockId) (var : VarId) : State :=
  { s with liveKill := Function.update s.liveKill bb (varListAddVar (s.liveKill bb) var) }

/-- `add_live_gen`. -/
def State.addLiveGen (s : State) (bb : BlockId) (var : VarId) : State :=
  if (s.vars var).isGlobal then s
  else { s with liveGen := Function.update s.liveGen bb (varListAddVar (s.liveGen bb) var) }

/-- `update_consumed`, for an instruction with the index. -/
def State.updateConsumed (s : State) (idx : Int) (var : VarId) : State :=
  if idx > (s.vars var).consumed then
    { s with vars := s.vars.set var { s.vars var with consumed := idx } }
  else s

/-- What `bb_reset_and_solve_locals` does for `rs1` and for `rs2`. -/
def State.solveOperand (s : State) (bb : BlockId) (idx : Int) : Option VarId → State
  | none => s
  | some var =>
      let s := if s.varCheckKilled var bb then s else s.addLiveGen bb var
      s.updateConsumed idx var

/-- What it does for an instruction. -/
def State.solveInsn (s : State) (bb : BlockId) (idx : Int) (insn : Insn) : State :=
  let s := (s.solveOperand bb idx insn.rs1).solveOperand bb idx insn.rs2
  match insn.rd with
  | none => s
  | some rd => if insn.opcode = .unwoundPhi then s else s.bbAddKilledVar bb rd

/-- The loop over the instructions. -/
def State.solveInsns (bb : BlockId) : Nat → List Insn → State → State
  | _, [], s => s
  | idx, insn :: rest, s => solveInsns bb (idx + 1) rest (s.solveInsn bb idx insn)

/-- `bb_reset_and_solve_locals`. -/
def bbResetAndSolveLocals (f : Func) : Callback := fun bb s =>
  some (State.solveInsns bb 0 (f.block bb).insns
    { s with liveKill := Function.update s.liveKill bb [] })

/-! ## Global sets -/

/-- `compute_live_in`. -/
def State.computeLiveIn (s : State) (bb : BlockId) : State :=
  let liveIn := ((s.liveOut bb).filter fun var => !s.varCheckKilled var bb).foldl varListAddVar []
  { s with liveIn := Function.update s.liveIn bb ((s.liveGen bb).foldl varListAddVar liveIn) }

/-- The linear search from an index on. It takes at most a round for each element. -/
def searchFrom (liveOut : List VarId) (var : VarId) : Nat → Nat → Bool
  | 0, _ => false
  | fuel + 1, j =>
      if j < liveOut.length then
        if liveOut[j]? = some var then true else searchFrom liveOut var fuel (j + 1)
      else false

/-- The search in four elements at a time, and in the remaining ones. -/
def searchUnrolled (liveOut : List VarId) (var : VarId) : Nat → Nat → Bool
  | 0, _ => false
  | fuel + 1, j =>
      if j + 3 < liveOut.length then
        if liveOut[j]? = some var ∨ liveOut[j + 1]? = some var ∨ liveOut[j + 2]? = some var ∨
            liveOut[j + 3]? = some var then true
        else searchUnrolled liveOut var fuel (j + 4)
      else searchFrom liveOut var (liveOut.length + 1) j

/-- An element of `live_in`, which is appended if it was not found and there is room. -/
def appendUnlessFound (search : List VarId → VarId → Bool) (liveOut : List VarId) (var : VarId) :
    List VarId :=
  if !search liveOut var ∧ liveOut.length < maxAnalysisStackSize then liveOut ++ [var]
  else liveOut

/-- `merge_live_in`. -/
def State.mergeLiveIn (s : State) (liveOut : List VarId) (bb : BlockId) : List VarId :=
  if (s.liveIn bb).length = 0 then liveOut
  else if liveOut.length < 16 then
    (s.liveIn bb).foldl (appendUnlessFound fun liveOut var =>
      searchFrom liveOut var (liveOut.length + 1) 0) liveOut
  else
    (s.liveIn bb).foldl (appendUnlessFound fun liveOut var =>
      searchUnrolled liveOut var (liveOut.length + 1) 0) liveOut

/-- The union with the live variables of a successor. -/
def State.mergeSuccessor : State × List VarId → Option BlockId → State × List VarId
  | (s, liveOut), none => (s, liveOut)
  | (s, liveOut), some bb =>
      let s := s.computeLiveIn bb
      (s, s.mergeLiveIn liveOut bb)

/-- `var_list_assign_array(&bb->live_out, live_out, live_out_idx)`. -/
def State.assignLiveOut (s : State) (bb : BlockId) (liveOut : List VarId) : State :=
  { s with liveOut := Function.update s.liveOut bb liveOut }

/-- `recompute_live_out`. -/
def recomputeLiveOut (f : Func) (bb : BlockId) (s : State) : State × Bool :=
  let merged := State.mergeSuccessor (s, []) (f.block bb).next
  let merged := State.mergeSuccessor merged (f.block bb).then_
  let (s, liveOut) := State.mergeSuccessor merged (f.block bb).else_
  if (s.liveOut bb).length ≠ liveOut.length then (s.assignLiveOut bb liveOut, true)
  else if liveOut.head?.any fun var => var ∉ s.liveOut bb then (s.assignLiveOut bb liveOut, true)
  else if liveOut.any fun var => var ∉ s.liveOut bb then (s.assignLiveOut bb liveOut, true)
  else (s, false)

/-- `for (bb = func->exit; bb; bb = bb->rpo_r_next) changed |= recompute_live_out(bb)`. -/
def sweep (f : Func) : Nat → Option BlockId → State × Bool → Option (State × Bool)
  | _, none, result => some result
  | 0, some _, _ => none
  | fuel + 1, some bb, (s, changed) =>
      let (s, here) := recomputeLiveOut f bb s
      sweep f fuel (s.rpoRNext bb) (s, changed || here)

/-- `do ... while (changed)`. -/
def iterate (f : Func) (fuel : Nat) : Nat → State → Option State
  | 0, _ => none
  | rounds + 1, s => do
      let (s, changed) ← sweep f fuel (some f.exit) (s, false)
      if changed then iterate f fuel rounds s else some s

/-- The parameters count as killed in the entry. -/
def addParams (f : Func) (s : State) : State :=
  f.paramDefs.foldl (fun s var => s.bbAddKilledVar f.bbs var) s

/-- `liveness_analysis` for a function. -/
def livenessAnalysis (f : Func) (fuel : Nat) (s : State) : Option State := do
  let s ← bbForwardTraversal f (bbResetAndSolveLocals f) noCallback fuel f.bbs s.nextPass
  iterate f fuel fuel (addParams f s)

/-! ## What is live -/

/-- The variables an instruction redefines. -/
def defines (insn : Insn) : List VarId :=
  if insn.opcode = .unwoundPhi then [] else insn.rd.toList

/-- The variable is read before it is redefined. -/
def Exposed (var : VarId) : List Insn → Prop
  | [] => False
  | insn :: rest => var ∈ uses insn ∨ var ∉ defines insn ∧ Exposed var rest

/-- The variable is local and read in the block before it is redefined. -/
def Func.Gen (f : Func) (vars : Vars) (bb : BlockId) (var : VarId) : Prop :=
  (vars var).isGlobal = false ∧ Exposed var (f.block bb).insns

/-- The variable is redefined in the block; the entry defines the parameters. -/
def Func.Kill (f : Func) (bb : BlockId) (var : VarId) : Prop :=
  (∃ insn ∈ (f.block bb).insns, var ∈ defines insn) ∨ bb = f.bbs ∧ var ∈ f.paramDefs

/-- The variable is read on a path from the end of the block before it is redefined. -/
def Func.LiveOut (f : Func) (vars : Vars) : BlockId → VarId → Prop :=
  LiveAtEnd f.successors (f.Gen vars) f.Kill

/-- The variable is read on a path from the beginning of the block before it is redefined. -/
def Func.LiveIn (f : Func) (vars : Vars) : BlockId → VarId → Prop :=
  LiveAtStart f.successors (f.Gen vars) f.Kill

/-! ## Solving the local sets -/

/-- Only the local sets of a block and the use of variables differ. -/
structure Local (bb : BlockId) (s s' : State) : Prop where
  gen : ∀ other, other ≠ bb → s'.liveGen other = s.liveGen other
  kill : ∀ other, other ≠ bb → s'.liveKill other = s.liveKill other
  liveIn : s'.liveIn = s.liveIn
  liveOut : s'.liveOut = s.liveOut
  visited : s'.visited = s.visited
  funcVisited : s'.funcVisited = s.funcVisited
  rpoRNext : s'.rpoRNext = s.rpoRNext
  isGlobal : ∀ v, (s'.vars v).isGlobal = (s.vars v).isGlobal

section Local

variable {bb : BlockId} {s s' s₁ : State} {idx : Nat} {v : VarId}

theorem Local.refl (bb : BlockId) (s : State) : Local bb s s :=
  ⟨fun _ _ => rfl, fun _ _ => rfl, rfl, rfl, rfl, rfl, rfl, fun _ => rfl⟩

theorem Local.trans (first : Local bb s s₁) (second : Local bb s₁ s') : Local bb s s' where
  gen := fun other different => (second.gen other different).trans (first.gen other different)
  kill := fun other different => (second.kill other different).trans (first.kill other different)
  liveIn := second.liveIn.trans first.liveIn
  liveOut := second.liveOut.trans first.liveOut
  visited := second.visited.trans first.visited
  funcVisited := second.funcVisited.trans first.funcVisited
  rpoRNext := second.rpoRNext.trans first.rpoRNext
  isGlobal := fun v => (second.isGlobal v).trans (first.isGlobal v)

theorem addLiveGen_local (var : VarId) : Local bb s (s.addLiveGen bb var) := by
  rw [State.addLiveGen]
  split
  case isTrue isGlobal => exact Local.refl bb s
  case isFalse notGlobal =>
    exact { Local.refl bb s with gen := fun _ different => Function.update_of_ne different _ _ }

theorem mem_addLiveGen {var : VarId} : v ∈ (s.addLiveGen bb var).liveGen bb ↔
    v ∈ s.liveGen bb ∨ v = var ∧ (s.vars v).isGlobal = false := by
  rw [State.addLiveGen]
  split
  case isTrue isGlobal =>
    constructor
    · exact Or.inl
    · rintro (member | ⟨rfl, notGlobal⟩)
      · exact member
      · rw [isGlobal] at notGlobal
        cases notGlobal
  case isFalse notGlobal =>
    rw [Bool.not_eq_true] at notGlobal
    simp only [Function.update_self, mem_varListAddVar]
    constructor
    · rintro (member | rfl)
      · exact Or.inl member
      · exact Or.inr ⟨rfl, notGlobal⟩
    · rintro (member | ⟨rfl, -⟩)
      · exact Or.inl member
      · exact Or.inr rfl

theorem bbAddKilledVar_local (var : VarId) : Local bb s (s.bbAddKilledVar bb var) :=
  { Local.refl bb s with kill := fun _ different => Function.update_of_ne different _ _ }

theorem mem_bbAddKilledVar {var : VarId} :
    v ∈ (s.bbAddKilledVar bb var).liveKill bb ↔ v ∈ s.liveKill bb ∨ v = var := by
  simp only [State.bbAddKilledVar, Function.update_self, mem_varListAddVar]

theorem updateConsumed_local (index : Int) (var : VarId) :
    Local bb s (s.updateConsumed index var) := by
  rw [State.updateConsumed]
  split
  case isTrue later =>
    refine { Local.refl bb s with isGlobal := fun v => ?_ }
    by_cases same : v = var
    · subst same
      simp
    · simp [same]
  case isFalse earlier => exact Local.refl bb s

/-- The sets are left alone where the use of a variable is noted. -/
theorem updateConsumed_sets (index : Int) (var : VarId) :
    (s.updateConsumed index var).liveGen = s.liveGen ∧
      (s.updateConsumed index var).liveKill = s.liveKill := by
  rw [State.updateConsumed]
  split
  case isTrue later => exact ⟨rfl, rfl⟩
  case isFalse earlier => exact ⟨rfl, rfl⟩

/-- An operand is read: what was killed before is not exposed. -/
structure Reads (bb : BlockId) (operands : List VarId) (s s' : State) : Prop where
  isLocal : Local bb s s'
  kill : s'.liveKill = s.liveKill
  gen : ∀ v, v ∈ s'.liveGen bb ↔ v ∈ s.liveGen bb ∨
    v ∈ operands ∧ v ∉ s.liveKill bb ∧ (s.vars v).isGlobal = false

theorem Reads.trans {first second : List VarId} (reads : Reads bb first s s₁)
    (others : Reads bb second s₁ s') : Reads bb (first ++ second) s s' := by
  refine ⟨reads.isLocal.trans others.isLocal, others.kill.trans reads.kill, fun v => ?_⟩
  rw [others.gen, reads.gen, reads.kill, reads.isLocal.isGlobal, List.mem_append, or_and_right,
    or_assoc]

theorem solveOperand_reads (operand : Option VarId) :
    Reads bb operand.toList s (s.solveOperand bb idx operand) := by
  cases operand with
  | none =>
      refine ⟨Local.refl bb s, rfl, fun v => ?_⟩
      simp [State.solveOperand]
  | some var =>
      rw [State.solveOperand]
      split
      case isTrue killed =>
        rw [State.varCheckKilled, decide_eq_true_iff] at killed
        refine ⟨updateConsumed_local idx var, (updateConsumed_sets idx var).2, fun v => ?_⟩
        rw [(updateConsumed_sets _ var).1]
        constructor
        · exact Or.inl
        · rintro (member | ⟨isVar, spared, -⟩)
          · exact member
          · cases List.mem_singleton.mp isVar
            exact absurd killed spared
      case isFalse spared =>
        rw [State.varCheckKilled, decide_eq_true_iff] at spared
        have sameKill : (s.addLiveGen bb var).liveKill = s.liveKill := by
          rw [State.addLiveGen]
          split <;> rfl
        refine ⟨(addLiveGen_local var).trans (updateConsumed_local idx var),
          (updateConsumed_sets idx var).2.trans sameKill, fun v => ?_⟩
        rw [(updateConsumed_sets _ var).1, mem_addLiveGen, Option.toList_some,
          List.mem_singleton]
        constructor
        · rintro (member | ⟨rfl, notGlobal⟩)
          · exact Or.inl member
          · exact Or.inr ⟨rfl, spared, notGlobal⟩
        · rintro (member | ⟨rfl, -, notGlobal⟩)
          · exact Or.inl member
          · exact Or.inr ⟨rfl, notGlobal⟩

/-- Instructions are solved: the exposed variables are added to those read, and the
redefined ones to those killed. -/
structure SolvesLocals (bb : BlockId) (insns : List Insn) (s s' : State) : Prop where
  isLocal : Local bb s s'
  kill : ∀ v, v ∈ s'.liveKill bb ↔ v ∈ s.liveKill bb ∨ ∃ insn ∈ insns, v ∈ defines insn
  gen : ∀ v, v ∈ s'.liveGen bb ↔ v ∈ s.liveGen bb ∨
    v ∉ s.liveKill bb ∧ (s.vars v).isGlobal = false ∧ Exposed v insns

theorem solveInsn_spec (insn : Insn) :
    Local bb s (s.solveInsn bb idx insn) ∧
      (∀ v, v ∈ (s.solveInsn bb idx insn).liveKill bb ↔ v ∈ s.liveKill bb ∨ v ∈ defines insn) ∧
        ∀ v, v ∈ (s.solveInsn bb idx insn).liveGen bb ↔ v ∈ s.liveGen bb ∨
          v ∈ uses insn ∧ v ∉ s.liveKill bb ∧ (s.vars v).isGlobal = false := by
  have reads : Reads bb (uses insn) s _ :=
    (@solveOperand_reads bb s idx insn.rs1).trans (@solveOperand_reads bb _ idx insn.rs2)
  have unkilled : Local bb s ((s.solveOperand bb idx insn.rs1).solveOperand bb idx insn.rs2) ∧
      (∀ v, v ∈ ((s.solveOperand bb idx insn.rs1).solveOperand bb idx insn.rs2).liveKill bb ↔
        v ∈ s.liveKill bb) ∧ _ := ⟨reads.isLocal, fun v => by rw [reads.kill], reads.gen⟩
  rw [State.solveInsn, defines]
  cases isRd : insn.rd with
  | none => simpa using unkilled
  | some rd =>
      by_cases unwound : insn.opcode = .unwoundPhi
      · simpa [unwound] using unkilled
      · simp only [if_neg unwound]
        refine ⟨reads.isLocal.trans (bbAddKilledVar_local rd), fun v => ?_, reads.gen⟩
        rw [mem_bbAddKilledVar, reads.kill, Option.toList_some, List.mem_singleton]

theorem solveInsns_solves (insns : List Insn) :
    SolvesLocals bb insns s (State.solveInsns bb idx insns s) := by
  induction insns generalizing idx s with
  | nil =>
      refine ⟨Local.refl bb s, fun v => ?_, fun v => ?_⟩
      · simp [State.solveInsns]
      · simp [State.solveInsns, Exposed]
  | cons insn rest inductionHypothesis =>
      rcases @solveInsn_spec bb s idx insn with ⟨isLocal, kill, gen⟩
      have solves := @inductionHypothesis (s.solveInsn bb idx insn) (idx + 1)
      refine ⟨isLocal.trans solves.isLocal, fun v => ?_, fun v => ?_⟩
      · rw [State.solveInsns, solves.kill, kill, or_assoc, List.exists_mem_cons_iff]
      · rw [State.solveInsns, solves.gen, gen, kill, isLocal.isGlobal, Exposed]
        tauto

end Local

/-! ## The forward traversal -/

/-- Before the analysis: no list but that of the killed variables was written, and no pass
is under way. -/
structure State.Fresh (s : State) : Prop where
  settled : s.Settled
  liveGen : ∀ bb, s.liveGen bb = []
  liveIn : ∀ bb, s.liveIn bb = []
  liveOut : ∀ bb, s.liveOut bb = []

/-- The exposed variables of the block are in its list, and the redefined ones are those in
the other. -/
def Func.Solved (f : Func) (s : State) (bb : BlockId) : Prop :=
  (∀ v, f.Gen s.vars bb v → v ∈ s.liveGen bb) ∧
    ∀ v, v ∈ s.liveKill bb ↔ ∃ insn ∈ (f.block bb).insns, v ∈ defines insn

/-- What the traversal leaves alone, and that it adds exposed variables only. -/
structure Func.Kept (f : Func) (s s' : State) : Prop where
  liveIn : s'.liveIn = s.liveIn
  liveOut : s'.liveOut = s.liveOut
  rpoRNext : s'.rpoRNext = s.rpoRNext
  isGlobal : ∀ v, (s'.vars v).isGlobal = (s.vars v).isGlobal
  exposed : ∀ bb v, v ∈ s'.liveGen bb → f.Gen s.vars bb v

section Forward

variable {f : Func} {fuel : Nat} {s s' s₀ : State} {bb : BlockId}

/-- The callback of the traversal at a block. -/
theorem solve_spec (entered : bbResetAndSolveLocals f bb (s.visit bb) = some s') :
    (∀ c, c ≠ bb → s'.liveGen c = s.liveGen c ∧ s'.liveKill c = s.liveKill c) ∧
      (∀ v, v ∈ s'.liveGen bb ↔ v ∈ s.liveGen bb ∨ f.Gen s.vars bb v) ∧
        (∀ v, v ∈ s'.liveKill bb ↔ ∃ insn ∈ (f.block bb).insns, v ∈ defines insn) ∧
          s'.visited = (s.visit bb).visited ∧ s'.funcVisited = s.funcVisited ∧
            s'.liveIn = s.liveIn ∧ s'.liveOut = s.liveOut ∧ s'.rpoRNext = s.rpoRNext ∧
              ∀ v, (s'.vars v).isGlobal = (s.vars v).isGlobal := by
  cases entered
  have solves := @solveInsns_solves bb
    { s.visit bb with liveKill := Function.update s.liveKill bb [] } 0 (f.block bb).insns
  have isLocal := solves.isLocal
  refine ⟨fun c different => ⟨isLocal.gen c different, ?_⟩, fun v => ?_, fun v => ?_,
    isLocal.visited, isLocal.funcVisited, isLocal.liveIn, isLocal.liveOut, isLocal.rpoRNext,
    isLocal.isGlobal⟩
  · rw [State.visit] at isLocal ⊢
    exact (isLocal.kill c different).trans (Function.update_of_ne different _ _)
  · refine (solves.gen v).trans ?_
    simp [Func.Gen, State.visit]
  · refine (solves.kill v).trans ?_
    simp

/-- The traversal solves a block when it enters it. -/
theorem solve_working (f : Func) : Working State.isDue
    (fun bb s => bbResetAndSolveLocals f bb (s.visit bb)) noCallback f.Solved := by
  constructor
  · intro bb s s' entered
    rcases solve_spec entered with ⟨-, gen, kill, -, -, -, -, -, isGlobal⟩
    refine ⟨fun v exposed => (gen v).mpr (Or.inr ?_), kill⟩
    rw [Func.Gen, isGlobal] at exposed
    exact exposed
  · rintro bb s s' entered c ⟨exposed, redefined⟩
    rcases solve_spec entered with ⟨others, gen, kill, -, -, -, -, -, isGlobal⟩
    have exposed' : ∀ v, f.Gen s'.vars c v → v ∈ s.liveGen c := by
      intro v isExposed
      rw [Func.Gen, isGlobal] at isExposed
      exact exposed v isExposed
    by_cases same : c = bb
    · subst same
      exact ⟨fun v isExposed => (gen v).mpr (Or.inl (exposed' v isExposed)), kill⟩
    · refine ⟨fun v isExposed => ?_, fun v => ?_⟩
      · rw [(others c same).1]
        exact exposed' v isExposed
      · rw [(others c same).2]
        exact redefined v
  · intro bb s s' left c solved
    cases left
    exact solved
  · intro bb s s' entered c notDue
    rcases solve_spec entered with ⟨-, -, -, visited, funcVisited, -⟩
    by_cases same : c = bb
    · exact Or.inl same
    · right
      rw [State.isDue, visited, funcVisited, State.visit] at notDue
      simp only [Function.update_of_ne same] at notDue
      exact notDue
  · intro bb s s' left c notDue
    cases left
    exact notDue

theorem Func.Kept.solve (kept : f.Kept s₀ s)
    (entered : bbResetAndSolveLocals f bb (s.visit bb) = some s') : f.Kept s₀ s' := by
  rcases solve_spec entered with ⟨others, gen, -, -, -, liveIn, liveOut, rpoRNext, isGlobal⟩
  refine ⟨liveIn.trans kept.liveIn, liveOut.trans kept.liveOut, rpoRNext.trans kept.rpoRNext,
    fun v => (isGlobal v).trans (kept.isGlobal v), fun c v member => ?_⟩
  by_cases same : c = bb
  · subst same
    rcases (gen v).mp member with member | exposed
    · exact kept.exposed c v member
    · rw [Func.Gen, kept.isGlobal] at exposed
      exact exposed
  · rw [(others c same).1] at member
    exact kept.exposed c v member

/-- Behind the local part the lists of every block that can be reached are the exposed and
the redefined variables, and nothing else was computed. -/
structure Prepared (f : Func) (vars : Vars) (s : State) : Prop where
  gen : ∀ bb, f.Reachable bb → ∀ v, v ∈ s.liveGen bb ↔ f.Gen vars bb v
  kill : ∀ bb, f.Reachable bb → ∀ v, v ∈ s.liveKill bb ↔ f.Kill bb v
  liveIn : ∀ bb, s.liveIn bb = []
  liveOut : ∀ bb, s.liveOut bb = []

theorem mem_addParams {v : VarId} : v ∈ (addParams f s).liveKill bb ↔
    v ∈ s.liveKill bb ∨ bb = f.bbs ∧ v ∈ f.paramDefs := by
  rw [addParams]
  generalize f.paramDefs = params
  induction params generalizing s with
  | nil => simp
  | cons var rest inductionHypothesis =>
      rw [List.foldl_cons, inductionHypothesis, List.mem_cons]
      by_cases isEntry : bb = f.bbs
      · rw [← isEntry, mem_bbAddKilledVar]
        tauto
      · rw [(bbAddKilledVar_local var).kill bb isEntry]
        tauto

/-- The parameters are added to one list only. -/
theorem addParams_local : Local f.bbs s (addParams f s) ∧
    (addParams f s).liveGen = s.liveGen := by
  rw [addParams]
  generalize f.paramDefs = params
  induction params generalizing s with
  | nil => exact ⟨Local.refl f.bbs s, rfl⟩
  | cons var rest inductionHypothesis =>
      rw [List.foldl_cons]
      rcases @inductionHypothesis (s.bbAddKilledVar f.bbs var) with ⟨isLocal, sameGen⟩
      exact ⟨(bbAddKilledVar_local var).trans isLocal, sameGen⟩

theorem forward_prepared (fresh : s.Fresh)
    (walked : bbForwardTraversal f (bbResetAndSolveLocals f) noCallback fuel f.bbs s.nextPass =
      some s') :
    Prepared f s.vars (addParams f s') ∧ (addParams f s').rpoRNext = s.rpoRNext := by
  have kept : f.Kept s s' := by
    apply walk_preserves _ _ (Traversal.Reaches.refl f.bbs) _ walked
    · exact fun bb s₁ s₂ _ entered kept => kept.solve entered
    · intro bb s₁ s₂ _ left kept
      cases left
      exact kept
    · refine ⟨rfl, rfl, rfl, fun _ => rfl, fun bb v member => ?_⟩
      rw [State.nextPass, fresh.liveGen bb] at member
      cases member
  have solved : ∀ bb, f.Reachable bb → f.Solved s' bb := fun bb reachable =>
    walk_done (solve_working f) fresh.settled.nextPass walked reachable
  rcases @addParams_local f s' with ⟨isLocal, sameGen⟩
  refine ⟨⟨fun bb reachable v => ?_, fun bb reachable v => ?_, fun bb => ?_, fun bb => ?_⟩,
    isLocal.rpoRNext.trans kept.rpoRNext⟩
  · rw [sameGen]
    constructor
    · exact kept.exposed bb v
    · intro exposed
      apply (solved bb reachable).1 v
      rw [Func.Gen, kept.isGlobal]
      exact exposed
  · rw [mem_addParams, (solved bb reachable).2, Func.Kill]
  · rw [isLocal.liveIn, kept.liveIn, fresh.liveIn]
  · rw [isLocal.liveOut, kept.liveOut, fresh.liveOut]

end Forward

end Shecc.Ssa
