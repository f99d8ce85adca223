import Shecc.Ssa.Frontier
import Shecc.Ssa.Rename
import Shecc.Traversal.Counted
import Shecc.Traversal.Descent

/-!
# The arrays of renaming

Over a whole dominator tree the stack of a variable is as high as the names that the dominators of
a block make, and it is back at its height when the blocks below a block are done. The arrays are
large enough exactly when these heights and the number of all names are within their bounds.
-/

namespace Shecc.Ssa

open Traversal

/-! ## A run with the heights of the stacks -/

/-- How high the stack of each variable is. -/
def Renaming.heights (s : Renaming) (v : VarId) : Nat := (s.names v).stack.length

/-- A call of `bb_solve_phi_params` that has ended, with the heights before and behind it. -/
structure RenameCall where
  bb : BlockId
  before : VarId → Nat
  behind : VarId → Nat

/-- What a run has come to, the heights before the calls it is in, and the calls that have ended. -/
structure RenameRun where
  result : Except RenameFault Renaming
  pending : List (VarId → Nat) := []
  calls : List RenameCall := []

def heightsOf : Except RenameFault Renaming → VarId → Nat
  | .ok s => s.heights
  | .error _ => fun _ => 0

/-- A call begins. -/
def RenameRun.enter (f : Func) (bb : BlockId) (run : RenameRun) : Option RenameRun :=
  some {
    result := run.result >>= renameBlock f bb
    pending := heightsOf run.result :: run.pending
    calls := run.calls }

/-- A call ends. -/
def RenameRun.leave (bb : BlockId) (run : RenameRun) : Option RenameRun :=
  let result := run.result >>= popBlock bb
  some {
    result := result
    pending := run.pending.tail
    calls := ⟨bb, run.pending.headD fun _ => 0, heightsOf result⟩ :: run.calls }

/-- `solve_phi_params`, with the heights of the stacks. -/
def recordPhiParams (f : Func) (params : List VarId) (s : State) (fuel : Nat) (r : Renaming) :
    Option RenameRun :=
  match renameParams params r with
  | .error why => some { result := .error why }
  | .ok r => bbSolvePhiParams s (RenameRun.enter f) RenameRun.leave fuel f.bbs { result := .ok r }

/-- Recording the heights changes nothing. -/
theorem recordPhiParams_result (f : Func) (params : List VarId) (s : State) (fuel : Nat)
    (r : Renaming) : (recordPhiParams f params s fuel r).map RenameRun.result =
      solvePhiParams f params s fuel r := by
  rw [recordPhiParams, solvePhiParams]
  cases renameParams params r with
  | error why => rfl
  | ok r =>
      apply @walk_project _ _ _ _ _ _ _ _ _ _ RenameRun.result (fun _ => True) _ fuel f.bbs _ trivial
      exact ⟨fun _ _ _ => rfl, fun _ _ _ => rfl, fun _ _ _ => rfl, fun _ _ _ _ _ => trivial,
        fun _ _ _ _ _ => trivial⟩

/-- The run has not gone outside an array, and after each call the stacks of the variables of the
parser are as high as before; or the compiler has stopped with a message. -/
def RenameRun.Within (first : VarId) (run : RenameRun) : Prop :=
  (∃ message, run.result = .error (.fatal message)) ∨
  ((∃ s, run.result = .ok s) ∧ ∀ call ∈ run.calls, ∀ v < first, call.behind v = call.before v)

/-! ## A block -/

/-- What the instructions of the blocks are: those of the parser, or renamed. -/
structure BlocksRenamed (first : VarId) (glob : VarId → Bool) (f : Func) (s : Renaming)
    (entered : List BlockId) : Prop where
  fresh : ∀ bb, bb ∉ entered → (s.insns bb).map PhiInsn.toInsn = (f.block bb).insns
  renamed : ∀ bb ∈ entered, List.Forall₂ (Renamed first glob s) (f.block bb).insns
    ((s.insns bb).map PhiInsn.toInsn)

section Block

variable {first : VarId} {glob : VarId → Bool} {f : Func} {s s' : Renaming} {bb : BlockId}
  {entered : List BlockId}

/-- The names a block of a function makes. -/
def Func.namesMade (f : Func) (glob : VarId → Bool) (v : VarId) (bb : BlockId) : Nat :=
  Ssa.namesMade glob (f.block bb).insns v

theorem Good.withInsns (good : Good first glob s) (insns : BlockId → List PhiInsn) :
    Good first glob { s with insns := insns } :=
  ⟨good.first_le, good.isGlobal, good.base, good.made, good.found, good.range, good.shortStack,
    good.shortSubscripts⟩

theorem forall₂_withInsns {insns insns' : List Insn} (others : BlockId → List PhiInsn)
    (renamed : List.Forall₂ (Renamed first glob s) insns insns') :
    List.Forall₂ (Renamed first glob { s with insns := others }) insns insns' :=
  renamed.imp fun _ _ isRenamed => ⟨isRenamed.opcode, isRenamed.none, isRenamed.some⟩

/-- Operands of φs do not count. -/
theorem BlocksRenamed.withInsns (blocks : BlocksRenamed first glob f s entered)
    {insns : BlockId → List PhiInsn}
    (same : ∀ b, (insns b).map PhiInsn.toInsn = (s.insns b).map PhiInsn.toInsn) :
    BlocksRenamed first glob f { s with insns := insns } entered where
  fresh := fun b outside => (same b).trans (blocks.fresh b outside)
  renamed := by
    intro b inside
    show List.Forall₂ _ _ ((insns b).map PhiInsn.toInsn)
    rw [same]
    exact forall₂_withInsns insns (blocks.renamed b inside)

theorem BlocksRenamed.phisKnown (blocks : BlocksRenamed first glob f s entered)
    (operands : ∀ bb, ∀ insn ∈ (f.block bb).insns, Operands first glob insn) (bb : BlockId) :
    PhisKnown first glob s ((s.insns bb).map PhiInsn.toInsn) := by
  by_cases inside : bb ∈ entered
  · have renamed := blocks.renamed bb inside
    have known : ∀ {insns insns' : List Insn}, (∀ insn ∈ insns, Operands first glob insn) →
        List.Forall₂ (Renamed first glob s) insns insns' → PhisKnown first glob s insns' := by
      intro insns insns' operands renamed
      induction renamed with
      | nil => exact fun _ member => (List.not_mem_nil member).elim
      | @cons insn insn' rest rest' isRenamed _ inductionHypothesis =>
          have operands' := operands insn List.mem_cons_self
          intro i member isPhi
          rcases List.mem_cons.mp member with rfl | member
          · rcases operands'.phi (isRenamed.opcode.symm.trans isPhi) with ⟨v, isV, isLocal⟩
            rcases isRenamed.some v isV with ⟨u, isU, nameOf⟩
            exact ⟨u, v, isU, operands'.rd v isV, isLocal, Or.inr nameOf⟩
          · exact inductionHypothesis
              (fun i member => operands i (List.mem_cons_of_mem insn member)) i member isPhi
    exact known (operands bb) renamed
  · rw [blocks.fresh bb inside]
    intro insn member isPhi
    rcases (operands bb insn member).phi isPhi with ⟨v, isV, isLocal⟩
    have inside := (operands bb insn member).rd v isV
    exact ⟨v, v, isV, inside, isLocal, Or.inl ⟨rfl, inside⟩⟩

/-- What a block does before the blocks below it. -/
theorem renameBlock_spec (good : Good first glob s)
    (blocks : BlocksRenamed first glob f s entered) (fresh : bb ∉ entered)
    (operands : ∀ bb, ∀ insn ∈ (f.block bb).insns, Operands first glob insn) :
    (∃ s', renameBlock f bb s = .ok s' ∧ Good first glob s' ∧
      BlocksRenamed first glob f s' (bb :: entered) ∧
      ∀ v < first,
        (s'.names v).stack.length = (s.names v).stack.length + f.namesMade glob v bb ∧
        (s'.names v).subscripts.length =
          (s.names v).subscripts.length + f.namesMade glob v bb) ∨
    (renameBlock f bb s = .error .overrun ∧
      Lacks first (fun v => f.namesMade glob v bb) s) := by
  have isFresh := blocks.fresh bb fresh
  have operands' : ∀ insn ∈ s.insns bb, Operands first glob insn.toInsn := by
    intro insn member
    apply operands bb
    rw [← isFresh]
    exact List.mem_map_of_mem member
  have isCount : namesMade glob ((s.insns bb).map PhiInsn.toInsn) =
      fun v => f.namesMade glob v bb := by
    rw [isFresh]
    rfl
  rw [renameBlock]
  rcases renameInsns_spec good operands' with
    ⟨insns', s₁, ran, good₁, grown, renamed⟩ | ⟨failed, lacks⟩
  · rw [isCount] at grown
    rw [isFresh] at renamed
    rw [ran]
    simp only [bind, Except.bind]
    have blocks₂ : BlocksRenamed first glob f
        { s₁ with insns := Function.update s₁.insns bb insns' } (bb :: entered) := by
      constructor
      · intro b outside
        rcases not_or.mp (fun member => outside (List.mem_cons.mpr member)) with ⟨differ, outside⟩
        show (Function.update s₁.insns bb insns' b).map PhiInsn.toInsn = _
        rw [Function.update_of_ne differ, grown.insns]
        exact blocks.fresh b outside
      · intro b inside
        apply forall₂_withInsns
        show List.Forall₂ _ _ ((Function.update s₁.insns bb insns' b).map PhiInsn.toInsn)
        by_cases same : b = bb
        · subst same
          rw [Function.update_self]
          exact renamed
        · rw [Function.update_of_ne same, grown.insns]
          exact (blocks.renamed b ((List.mem_cons.mp inside).resolve_left same)).imp
            fun _ _ isRenamed => isRenamed.grown grown
    rcases @appendTo_spec _ _ _ (f.successors bb) bb (good₁.withInsns _)
      (blocks₂.phisKnown operands) with ⟨insns'', appended, same⟩
    left
    refine ⟨_, appended, good₁.withInsns _, blocks₂.withInsns same, ?_⟩
    exact fun v inside => ⟨grown.length inside, grown.subscripts v inside⟩
  · right
    rw [failed]
    refine ⟨rfl, ?_⟩
    rw [isCount] at lacks
    exact lacks

/-- What a block does behind the blocks below it. -/
theorem popBlock_spec (good : Good first glob s)
    (blocks : BlocksRenamed first glob f s entered) (inside : bb ∈ entered)
    (operands : ∀ bb, ∀ insn ∈ (f.block bb).insns, Operands first glob insn)
    (high : ∀ v < first, f.namesMade glob v bb ≤ (s.names v).stack.length) :
    ∃ s', popBlock bb s = .ok s' ∧ Good first glob s' ∧
      BlocksRenamed first glob f s' entered ∧
      ∀ v < first,
        (s'.names v).stack.length = (s.names v).stack.length - f.namesMade glob v bb ∧
        (s'.names v).subscripts.length = (s.names v).subscripts.length := by
  rcases popInsns_spec good (operands bb) (blocks.renamed bb inside) high with
    ⟨s', ran, good', popped⟩
  refine ⟨s', ran, good', ⟨?_, ?_⟩, ?_⟩
  · intro b outside
    rw [popped.insns]
    exact blocks.fresh b outside
  · intro b inside
    rw [popped.insns]
    exact (blocks.renamed b inside).imp fun _ _ isRenamed => isRenamed.popped popped
  · intro v insideV
    rw [popped.stack v insideV, popped.subscripts v insideV, List.length_drop]
    exact ⟨rfl, rfl⟩

end Block

/-! ## A run along the visits -/

/-- The names the blocks of a list make. -/
def Func.namesOf (f : Func) (glob : VarId → Bool) (v : VarId) (bbs : List BlockId) : Nat :=
  (bbs.map (f.namesMade glob v)).sum

/-- The heights before the calls a run is in. -/
def PendingHeights (first : VarId) (height : VarId → List BlockId → Nat) :
    List (VarId → Nat) → List BlockId → Prop
  | [], [] => True
  | h :: hs, _ :: bbs => (∀ v < first, h v = height v bbs) ∧ PendingHeights first height hs bbs
  | _, _ => False

/-- What holds along the visits, from heights `start`: the stacks are as high as the names of the
blocks the run is in, and the names are those of the blocks entered; or there was no room. -/
structure RenameVisits (first : VarId) (glob : VarId → Bool) (f : Func) (start : VarId → Nat)
    (s : Renaming) (run : RenameRun) (visits : Visits BlockId) : Prop where
  good : Good first glob s
  blocks : BlocksRenamed first glob f s (visits.entered.map Prod.fst)
  inside : ∀ b ∈ visits.stack, b ∈ visits.entered.map Prod.fst
  stack : ∀ v < first, (s.names v).stack.length = start v + f.namesOf glob v visits.stack
  subscripts : ∀ v < first, (s.names v).subscripts.length =
    start v + f.namesOf glob v (visits.entered.map Prod.fst)
  room : ∀ visit ∈ visits.entered, ∀ v < first,
    start v + f.namesOf glob v (visit.1 :: visit.2) ≤ maxStack
  pending : PendingHeights first (fun v bbs => start v + f.namesOf glob v bbs) run.pending
    visits.stack
  calls : ∀ call ∈ run.calls, ∀ v < first, call.behind v = call.before v

/-- There is no room for the names of the blocks entered. -/
def NoRoom (first : VarId) (glob : VarId → Bool) (f : Func) (start : VarId → Nat)
    (visits : Visits BlockId) : Prop :=
  ∃ v < first, (∃ visit ∈ visits.entered,
      maxStack < start v + f.namesOf glob v (visit.1 :: visit.2)) ∨
    maxSubscripts < start v + f.namesOf glob v (visits.entered.map Prod.fst)

/-- What holds of a run. -/
def RenameHolds (first : VarId) (glob : VarId → Bool) (f : Func) (start : VarId → Nat)
    (run : RenameRun) (visits : Visits BlockId) : Prop :=
  (∃ s, run.result = .ok s ∧ RenameVisits first glob f start s run visits) ∨
  (run.result = .error .overrun ∧ NoRoom first glob f start visits)

section Visits

variable {first : VarId} {glob : VarId → Bool} {f : Func} {start : VarId → Nat}

theorem namesOf_cons (f : Func) (glob : VarId → Bool) (v : VarId) (bb : BlockId)
    (bbs : List BlockId) :
    f.namesOf glob v (bb :: bbs) = f.namesMade glob v bb + f.namesOf glob v bbs := by
  rw [Func.namesOf, List.map_cons, List.sum_cons]
  rfl

/-- The calls keep what holds. -/
theorem renameHolds_keeping
    (operands : ∀ bb, ∀ insn ∈ (f.block bb).insns, Operands first glob insn) :
    Keeping (RenameRun.enter f) RenameRun.leave (RenameHolds first glob f start) := by
  constructor
  · intro bb run visits fresh holds
    refine ⟨_, rfl, ?_⟩
    rcases holds with ⟨s, isOk, at_⟩ | ⟨isError, v, inside, full⟩
    · have heights : ∀ v < first, (s.names v).stack.length + f.namesMade glob v bb =
          start v + f.namesOf glob v (bb :: visits.stack) := by
        intro v inside
        rw [at_.stack v inside, namesOf_cons]
        omega
      have numbers : ∀ v < first, (s.names v).subscripts.length + f.namesMade glob v bb =
          start v + f.namesOf glob v (bb :: visits.entered.map Prod.fst) := by
        intro v inside
        rw [at_.subscripts v inside, namesOf_cons]
        omega
      rcases renameBlock_spec at_.good at_.blocks fresh operands with
        ⟨s', ran, good, blocks, lengths⟩ | ⟨failed, v, inside, full⟩
      · left
        refine ⟨s', ?_, good, blocks, ?_, ?_, ?_, ?_, ⟨?_, at_.pending⟩, at_.calls⟩
        · rw [isOk]
          exact ran
        · intro b member
          rcases List.mem_cons.mp member with rfl | member
          · exact List.mem_cons_self
          · exact List.mem_cons_of_mem bb (at_.inside b member)
        · exact fun v inside => (lengths v inside).1.trans (heights v inside)
        · exact fun v inside => (lengths v inside).2.trans (numbers v inside)
        · intro visit member v inside
          rcases List.mem_cons.mp member with rfl | member
          · rw [← heights v inside, ← (lengths v inside).1]
            exact good.shortStack v inside
          · exact at_.room visit member v inside
        · intro v inside
          rw [isOk]
          exact at_.stack v inside
      · right
        refine ⟨?_, v, inside, ?_⟩
        · rw [isOk]
          exact failed
        · rcases full with full | full
          · rw [heights v inside] at full
            exact Or.inl ⟨_, List.mem_cons_self, full⟩
          · rw [numbers v inside] at full
            exact Or.inr full
    · right
      refine ⟨?_, v, inside, ?_⟩
      · rw [isError]
        rfl
      · rcases full with ⟨visit, member, full⟩ | full
        · exact Or.inl ⟨visit, List.mem_cons_of_mem _ member, full⟩
        · right
          apply Nat.lt_of_lt_of_le full
          rw [List.map_cons, namesOf_cons]
          omega
  · intro bb stack entered run holds
    refine ⟨_, rfl, ?_⟩
    rcases holds with ⟨s, isOk, at_⟩ | ⟨isError, noRoom⟩
    · have high : ∀ v < first, (s.names v).stack.length =
          start v + (f.namesMade glob v bb + f.namesOf glob v stack) := by
        intro v inside
        rw [at_.stack v inside]
        exact congrArg (start v + ·) (namesOf_cons f glob v bb stack)
      rcases popBlock_spec at_.good at_.blocks (at_.inside bb List.mem_cons_self) operands (by
        intro v inside
        rw [high v inside]
        omega) with ⟨s', ran, good, blocks, lengths⟩
      have back : ∀ v < first, (s'.names v).stack.length = start v + f.namesOf glob v stack := by
        intro v inside
        rw [(lengths v inside).1, high v inside]
        omega
      left
      have isRun : (run.result >>= popBlock bb) = .ok s' := by
        rw [isOk]
        exact ran
      have pending := at_.pending
      cases isPending : run.pending with
      | nil =>
          rw [isPending] at pending
          exact pending.elim
      | cons h hs =>
          rw [isPending] at pending
          refine ⟨s', isRun, good, blocks, ?_, back, ?_, at_.room, ?_, ?_⟩
          · exact fun b member => at_.inside b (List.mem_cons_of_mem bb member)
          · exact fun v inside => (lengths v inside).2.trans (at_.subscripts v inside)
          · exact pending.2
          · intro call member v inside
            rcases List.mem_cons.mp member with rfl | member
            · show heightsOf (run.result >>= popBlock bb) v = h v
              rw [isRun]
              exact (back v inside).trans (pending.1 v inside).symm
            · exact at_.calls call member v inside
    · right
      refine ⟨?_, noRoom⟩
      rw [isError]
      rfl

end Visits

/-! ## The parameters -/

/-- What the parser and the insertion of φs have left: the variables have no names yet, and the
instructions are those of the function. -/
structure Unrenamed (first : VarId) (glob : VarId → Bool) (f : Func) (params : List VarId)
    (r : Renaming) : Prop where
  next : r.next = first
  isGlobal : ∀ v < first, (r.names v).isGlobal = glob v
  base : ∀ v < first, glob v = false → (r.names v).base = some v
  noNames : ∀ v < first, (r.names v).stack = [] ∧ (r.names v).subscripts = [] ∧
    (r.names v).counter = 0
  insns : ∀ bb, (r.insns bb).map PhiInsn.toInsn = (f.block bb).insns
  operands : ∀ bb, ∀ insn ∈ (f.block bb).insns, Operands first glob insn
  parameters : ∀ v ∈ params, v < first ∧ glob v = false
  distinct : params.Nodup

section Params

variable {first : VarId} {glob : VarId → Bool} {f : Func} {params : List VarId}
  {r s : Renaming}

theorem Unrenamed.good (unrenamed : Unrenamed first glob f params r) : Good first glob r where
  first_le := Nat.le_of_eq unrenamed.next.symm
  isGlobal := unrenamed.isGlobal
  base := unrenamed.base
  made := fun u made inside =>
    (Nat.lt_irrefl _ (Nat.lt_of_le_of_lt made (unrenamed.next ▸ inside))).elim
  found := by
    intro v inside _ i member
    rw [(unrenamed.noNames v inside).1] at member
    exact (List.not_mem_nil member).elim
  range := by
    intro v inside u member
    rw [(unrenamed.noNames v inside).2.1] at member
    exact (List.not_mem_nil member).elim
  shortStack := by
    intro v inside
    rw [(unrenamed.noNames v inside).1]
    exact Nat.zero_le _
  shortSubscripts := by
    intro v inside
    rw [(unrenamed.noNames v inside).2.1]
    exact Nat.zero_le _

/-- Each parameter gets a name. -/
theorem renameParams_spec (good : Good first glob s)
    (noNames : ∀ v ∈ params, (s.names v).stack = [] ∧ (s.names v).subscripts = [] ∧
      (s.names v).counter = 0)
    (inside : ∀ v ∈ params, v < first ∧ glob v = false) (distinct : params.Nodup) :
    ∃ s', renameParams params s = .ok s' ∧ Good first glob s' ∧ s'.insns = s.insns ∧
      ∀ v < first,
        (s'.names v).stack.length = (s.names v).stack.length + params.count v ∧
        (s'.names v).subscripts.length = (s.names v).subscripts.length + params.count v := by
  induction params generalizing s with
  | nil => exact ⟨s, rfl, good, rfl, fun _ _ => ⟨rfl, rfl⟩⟩
  | cons base rest inductionHypothesis =>
      rcases inside base List.mem_cons_self with ⟨insideBase, isLocal⟩
      rcases noNames base List.mem_cons_self with ⟨noStack, noSubscripts, isZero⟩
      rcases List.nodup_cons.mp distinct with ⟨notBehind, distinct⟩
      have older : base ≠ s.next := Nat.ne_of_lt (Nat.lt_of_lt_of_le insideBase good.first_le)
      have recordOf : RecordOf s base { s.names base with base := some base, subscript := 0 } :=
        ⟨rfl, (good.isGlobal base insideBase).trans isLocal, isZero.symm⟩
      have good₁ := good.named insideBase isLocal recordOf (by rw [noStack]; decide)
        (by rw [noSubscripts]; decide)
      have grown := @Grown.named first glob s base
        { s.names base with base := some base, subscript := 0 } good insideBase isLocal
      have step : renameParams (base :: rest) s = renameParams rest
          (s.named base { s.names base with base := some base, subscript := 0 }) := by
        rw [renameParams]
        simp only [Renaming.push, Renaming.addSubscript, Renaming.update, Function.update_self,
          Function.update_of_ne older, Function.update_idem, noStack, noSubscripts,
          List.length_nil, bind, Except.bind]
        rw [if_neg (by decide)]
        simp only [Function.update_self, List.length_nil]
        rw [if_neg (by decide)]
        simp only
        apply congrArg
        rw [Renaming.named]
        congr 1
        funext w
        by_cases isNext : w = s.next
        · subst isNext
          simp [Function.update, Ne.symm older]
        · by_cases isBase : w = base
          · subst isBase
            simp [Function.update, isNext, noStack, noSubscripts, isZero]
          · simp [Function.update, isNext, isBase]
      rcases inductionHypothesis good₁ (by
          intro v member
          have differ : v ≠ base := fun same => notBehind (same ▸ member)
          rw [Renaming.named_other s _ (Nat.ne_of_lt (Nat.lt_of_lt_of_le
            (inside v (List.mem_cons_of_mem base member)).1 good.first_le)) differ]
          exact noNames v (List.mem_cons_of_mem base member))
        (fun v member => inside v (List.mem_cons_of_mem base member)) distinct with
        ⟨s', ran, good', same, lengths⟩
      refine ⟨s', step.trans ran, good', same, ?_⟩
      intro v insideV
      have isCount : (if glob v then 0 else if base = v then 1 else 0) + rest.count v =
          (base :: rest).count v := by
        rw [List.count_cons]
        by_cases isBase : base = v
        · subst isBase
          simp only [isLocal, beq_self_eq_true, if_true, Bool.false_eq_true, if_false]
          omega
        · simp [isBase]
      rw [(lengths v insideV).1, (lengths v insideV).2, grown.length insideV,
        grown.subscripts v insideV, Nat.add_assoc, Nat.add_assoc, isCount]
      exact ⟨rfl, rfl⟩

end Params

/-! ## The whole run -/

open Classical in
/-- The arrays are large enough: for the names that the dominators of a block make, and for all
names. -/
structure Func.RenamesFit (f : Func) (blocks : List BlockId) (first : VarId)
    (glob : VarId → Bool) (params : List VarId) : Prop where
  stack : ∀ v < first, ∀ bb ∈ blocks,
    params.count v + f.namesOf glob v
      (blocks.filter fun d => Traversal.Dominates f.successors f.bbs d bb) ≤ maxStack
  subscripts : ∀ v < first, params.count v + f.namesOf glob v blocks ≤ maxSubscripts

section Run

variable {f : Func} {blocks : List BlockId} {s s₃ : State} {fuel : Nat} {first : VarId}
  {glob : VarId → Bool} {params : List VarId} {r : Renaming} {visits : Visits BlockId}

theorem namesOf_perm {bbs bbs' : List BlockId} (perm : bbs.Perm bbs') (v : VarId) :
    f.namesOf glob v bbs = f.namesOf glob v bbs' := (perm.map _).sum_eq

/-- Along the visits to the dominator tree the run is within the arrays exactly if they are large
enough. -/
theorem recordPhiParams_visits
    (visited : bbSolvePhiParams s₃ Visits.enter Visits.leave fuel f.bbs {} = some visits)
    (tree : f.DominatorTree blocks s₃ visits) (graph : f.AllReachable blocks)
    (nodup : blocks.Nodup)
    (unrenamed : Unrenamed first glob f params r) :
    ∃ run, recordPhiParams f params s₃ fuel r = some run ∧
      (run.Within first ↔ f.RenamesFit blocks first glob params) := by
  classical
  rcases renameParams_spec unrenamed.good
    (fun v member => unrenamed.noNames v (unrenamed.parameters v member).1) unrenamed.parameters
    unrenamed.distinct with ⟨s', ran, good, same, lengths⟩
  have start : RenameHolds first glob f params.count { result := .ok s' } {} := by
    left
    refine ⟨s', rfl, good, ⟨?_, ?_⟩, ?_, ?_, ?_, ?_, trivial, ?_⟩
    · intro b _
      rw [same]
      exact unrenamed.insns b
    · exact fun b member => (List.not_mem_nil member).elim
    · exact fun b member => (List.not_mem_nil member).elim
    · intro v inside
      rw [(lengths v inside).1, (unrenamed.noNames v inside).1]
      exact Nat.zero_add _
    · intro v inside
      rw [(lengths v inside).2, (unrenamed.noNames v inside).2.1]
      exact Nat.zero_add _
    · exact fun visit member => (List.not_mem_nil member).elim
    · exact fun call member => (List.not_mem_nil member).elim
  rcases descend_keeping (renameHolds_keeping unrenamed.operands) visited tree.nodup start with
    ⟨run, recorded, holds⟩
  have upright := descend_upright visited tree.nodup
    ⟨fun b member => (List.not_mem_nil member).elim, List.nodup_nil,
      fun visit member => (List.not_mem_nil member).elim⟩
  have all : (visits.entered.map Prod.fst).Perm blocks := by
    rw [List.perm_ext_iff_of_nodup tree.nodup nodup]
    exact tree.mem_iff
  have dominators : ∀ visit ∈ visits.entered,
      (visit.1 :: visit.2).Perm
        (blocks.filter fun d => Traversal.Dominates f.successors f.bbs d visit.1) := by
    intro visit member
    rw [List.perm_ext_iff_of_nodup (upright.entered visit member) (nodup.filter _)]
    intro d
    rw [List.mem_filter, tree.onStack visit member d, decide_eq_true_iff]
    have reachable := (graph.mem_iff visit.1).mp ((tree.mem_iff _).mp (List.mem_map_of_mem member))
    constructor
    · intro dominates
      refine ⟨?_, dominates⟩
      rw [graph.mem_iff]
      by_cases same : d = visit.1
      · exact same ▸ reachable
      · exact StrictlyDominates.reaches ⟨same, dominates⟩ reachable
    · exact And.right
  refine ⟨run, ?_, ?_⟩
  · rw [recordPhiParams, ran]
    exact recorded
  have fits_iff : f.RenamesFit blocks first glob params ↔
      ¬ NoRoom first glob f params.count visits := by
    constructor
    · rintro fit ⟨v, inside, ⟨visit, member, full⟩ | full⟩
      · rw [namesOf_perm (dominators visit member)] at full
        have isIn := (tree.mem_iff visit.1).mp (List.mem_map_of_mem member)
        exact absurd full (Nat.not_lt.mpr (fit.stack v inside visit.1 isIn))
      · rw [namesOf_perm all] at full
        exact absurd full (Nat.not_lt.mpr (fit.subscripts v inside))
    · intro room
      constructor
      · intro v inside bb member
        apply Nat.not_lt.mp
        intro full
        rcases List.mem_map.mp ((tree.mem_iff bb).mpr member) with ⟨visit, memberVisit, rfl⟩
        rw [← namesOf_perm (dominators visit memberVisit)] at full
        exact room ⟨v, inside, Or.inl ⟨visit, memberVisit, full⟩⟩
      · intro v inside
        apply Nat.not_lt.mp
        intro full
        rw [← namesOf_perm all] at full
        exact room ⟨v, inside, Or.inr full⟩
  rw [fits_iff]
  rcases holds with ⟨s'', isOk, at_⟩ | ⟨isError, noRoom⟩
  · constructor
    · rintro - ⟨v, inside, ⟨visit, member, full⟩ | full⟩
      · exact absurd full (Nat.not_lt.mpr (at_.room visit member v inside))
      · rw [← at_.subscripts v inside] at full
        exact absurd full (Nat.not_lt.mpr (at_.good.shortSubscripts v inside))
    · exact fun _ => Or.inr ⟨⟨s'', isOk⟩, at_.calls⟩
  · constructor
    · rintro (⟨message, isFatal⟩ | ⟨⟨s'', isOk⟩, _⟩)
      · cases isError.symm.trans isFatal
      · cases isError.symm.trans isOk
    · exact fun room => (room noRoom).elim

/-- The tree that `build_dom` has built. -/
theorem Building.tree {s₁ : State} {idom : BlockId → Option BlockId} {t : Tour BlockId}
    (linking : Linking f blocks fuel s s₁ idom) (graph : f.AllReachable blocks)
    (building : Building f idom { s₁ with idom := idom } (.ok s₃) t)
    (toured : Toured f.successors f.bbs t) (enough : blocks.length < fuel) :
    ∃ visits, bbSolvePhiParams s₃ Visits.enter Visits.leave fuel f.bbs {} = some visits ∧
      f.DominatorTree blocks s₃ visits := by
  rcases building with ⟨_, connected, _, entered, _⟩
  have sameIdom := connected.idom_eq
  subst sameIdom
  exact connected.dominatorTree linking.exact linking.ranked graph
    (fun bb reachable => entered bb (toured.mem_entered_iff.mpr reachable)) enough

end Run

/-- When the compiler has built the dominator tree, renaming comes to an end. It stays within the
arrays, with the stacks behind each call as high as before it, if and only if for each variable the
dominators of each block make no more names than the stack has room for, and all blocks no more
than there is room for. -/
theorem solvePhiParams_within_iff {f : Func} {blocks : List BlockId} {s : State} {fuel : Nat}
    {first : VarId} {glob : VarId → Bool} {params : List VarId} {r : Renaming}
    (graph : f.AllReachable blocks) (nodup : blocks.Nodup) (before : s.BeforeSsa f)
    (unrenamed : Unrenamed first glob f params r) (enough : 2 * blocks.length + 1 < fuel) :
    ∃ s₁ s₂ result, buildRpo f fuel s = some s₁ ∧ buildIdom f fuel s₁ = .ok s₂ ∧
      buildDom f fuel s₂ = some result ∧
      ∀ s₃, result = .ok s₃ → ∃ run, recordPhiParams f params s₃ fuel r = some run ∧
        solvePhiParams f params s₃ fuel r = some run.result ∧
        (run.Within first ↔ f.RenamesFit blocks first glob params) := by
  rcases exists_linking graph.toMirrored graph.finite before.unnumbered before.idom enough with
    ⟨s₁, idom, linking⟩
  rcases linking.buildDom graph.finite before.domTree (show blocks.length < fuel by omega) with
    ⟨t, result, builtDom, building, toured⟩
  refine ⟨s₁, _, result, linking.built, linking.builtIdom, builtDom, ?_⟩
  rintro s₃ rfl
  rcases Building.tree linking graph building toured (by omega) with ⟨visits, visited, tree⟩
  rcases recordPhiParams_visits visited tree graph nodup unrenamed with ⟨run, recorded, within⟩
  refine ⟨run, recorded, ?_, within⟩
  rw [← recordPhiParams_result, recorded]
  rfl

/-! ## Many statements -/

/-- `int x = 0; x = x + 0; x = x + 1;` and so on, up to `x = x + 63;`. -/
def longStatements : Func where
  bbs := 0
  exit := 1
  block
    | 0 =>
        { insns := [{ opcode := .allocat, rd := some 0 },
            { opcode := .loadConstant, rd := some 1 },
            { opcode := .assign, rd := some 0, rs1 := some 1 }] ++
            (List.range 64).flatMap fun k =>
              [{ opcode := .loadConstant, rd := some (2 * k + 2) },
               { opcode := .add, rd := some (2 * k + 3), rs1 := some 0, rs2 := some (2 * k + 2) },
               { opcode := .assign, rd := some 0, rs1 := some (2 * k + 3) }]
          next := some 1 }
    | 1 => { insns := [], prev := [0] }
    | _ => { insns := [] }

/-- Its variables, before renaming. -/
def longNames : Renaming where
  names v := { base := some v }
  next := 130
  insns bb := (longStatements.block bb).insns.map fun insn => { insn with phiOps := [] }

theorem longStatements_allReachable : longStatements.AllReachable [0, 1] := by
  have entry := longStatements.reachable_entry
  have exit : longStatements.Reachable 1 := entry.successor List.mem_cons_self
  constructor
  · intro bb
    constructor
    · intro member
      rcases List.mem_pair.mp member with rfl | rfl
      · exact entry
      · exact exit
    · intro reachable
      have closed : ∀ bb ∈ [0, 1], ∀ succ ∈ longStatements.successors bb, succ ∈ [0, 1] := by
        decide
      induction reachable with
      | refl => decide
      | tail _ edge inductionHypothesis => exact closed _ inductionHypothesis _ edge
  · intro bb member p
    have inList : ∀ bb ∈ [0, 1], ∀ p ∈ longStatements.predecessors bb,
        p ∈ [0, 1] ∧ bb ∈ longStatements.successors p := by decide
    have inPrev : ∀ bb ∈ [0, 1], ∀ p ∈ [0, 1], bb ∈ longStatements.successors p →
        p ∈ longStatements.predecessors bb := by decide
    exact ⟨inList bb member p, fun both => inPrev bb member p both.1 both.2⟩

theorem longStatements_operands : ∀ insn ∈ (longStatements.block 0).insns,
    (insn.rd.all (· < 130) && insn.rs1.all (· < 130) && insn.rs2.all (· < 130) &&
      insn.opcode != .phi) = true := by
  decide +kernel

theorem longNames_unrenamed :
    Unrenamed 130 (fun _ => false) longStatements [] longNames where
  next := rfl
  isGlobal := fun _ _ => rfl
  base := fun _ _ _ => rfl
  noNames := fun _ _ => ⟨rfl, rfl, rfl⟩
  insns := by
    intro bb
    show ((longStatements.block bb).insns.map _).map _ = _
    rw [List.map_map]
    exact List.map_id _
  operands := by
    intro bb insn member
    have inEntry : insn ∈ (longStatements.block 0).insns := by
      rcases bb with _ | _ | bb
      · exact member
      · exact (List.not_mem_nil member).elim
      · exact (List.not_mem_nil member).elim
    have checked := longStatements_operands insn inEntry
    simp only [Bool.and_eq_true, bne_iff_ne] at checked
    rcases checked with ⟨⟨⟨rd, rs1⟩, rs2⟩, notPhi⟩
    have small : ∀ {operand : Option VarId} {v}, operand.all (· < 130) = true →
        operand = some v → v < 130 := by
      rintro operand v all rfl
      exact of_decide_eq_true all
    exact ⟨fun v => small rd, fun v => small rs1, fun v => small rs2,
      fun isPhi => (notPhi isPhi).elim⟩
  parameters := fun v member => (List.not_mem_nil member).elim
  distinct := List.nodup_nil

/-- Renaming many statements. -/
theorem longStatements_within_iff : ∃ s₁ s₂ result,
    buildRpo longStatements 6 initialState = some s₁ ∧ buildIdom longStatements 6 s₁ = .ok s₂ ∧
    buildDom longStatements 6 s₂ = some result ∧
    ∀ s₃, result = .ok s₃ → ∃ run, recordPhiParams longStatements [] s₃ 6 longNames = some run ∧
      solvePhiParams longStatements [] s₃ 6 longNames = some run.result ∧
      (run.Within 130 ↔ longStatements.RenamesFit [0, 1] 130 (fun _ => false) []) :=
  solvePhiParams_within_iff longStatements_allReachable (by decide)
    (initialState_beforeSsa longStatements) longNames_unrenamed (by decide)

theorem longStatements_fewDominated : longStatements.FewDominated := by
  intro d list nodup isBelow
  have inside : list ⊆ [0, 1] := fun bb member =>
    longStatements_allReachable.finite bb (isBelow bb member).1
  exact Nat.le_trans (List.subperm_of_subset nodup inside).length_le (show 2 ≤ 64 by decide)

/-- There are more names of one variable than there is room for. -/
theorem longStatements_notFit :
    ¬ longStatements.RenamesFit [0, 1] 130 (fun _ => false) [] := by
  classical
  intro fit
  have short := fit.stack 0 (by decide) 0 (by decide)
  have many : 66 ≤ longStatements.namesOf (fun _ => false) 0 ([0, 1].filter fun d =>
      Traversal.Dominates longStatements.successors longStatements.bbs d 0) := by
    have member : 0 ∈ [0, 1].filter fun d =>
        Traversal.Dominates longStatements.successors longStatements.bbs d 0 :=
      List.mem_filter.mpr ⟨by decide, decide_eq_true (Traversal.Dominates.refl 0)⟩
    have made : longStatements.namesMade (fun _ => false) 0 0 = 66 := by decide +kernel
    rw [← made, Func.namesOf]
    exact List.single_le_sum (fun _ _ => Nat.zero_le _) _ (List.mem_map_of_mem member)
  exact absurd (Nat.le_trans many (Nat.le_trans (Nat.le_add_left _ _) short)) (by decide)

/-- Renaming many statements in a row goes outside an array. -/
theorem longStatements_notWithin : ¬ ∀ (f : Func) (blocks : List BlockId) (s : State) (fuel : Nat)
    (first : VarId) (glob : VarId → Bool) (params : List VarId) (r : Renaming),
    f.AllReachable blocks → blocks.Nodup → s.BeforeSsa f → Unrenamed first glob f params r →
    2 * blocks.length + 1 < fuel → ∀ s₁ s₂ s₃, buildRpo f fuel s = some s₁ →
      buildIdom f fuel s₁ = .ok s₂ → buildDom f fuel s₂ = some (.ok s₃) →
        ∃ run, recordPhiParams f params s₃ fuel r = some run ∧ run.Within first := by
  intro claimed
  have graph := longStatements_allReachable
  have before := initialState_beforeSsa longStatements
  rcases @exists_linking longStatements [0, 1] initialState 6 graph.toMirrored graph.finite
    before.unnumbered before.idom (by decide) with ⟨s₁, idom, linking⟩
  rcases linking.buildDom graph.finite before.domTree (by decide) with
    ⟨t, result, builtDom, building, toured⟩
  cases result with
  | error why =>
      exact building.2 ((fewLinks_iff linking.exact).mpr longStatements_fewDominated)
  | ok s₃ =>
      rcases claimed longStatements [0, 1] initialState 6 130 (fun _ => false) [] longNames graph
        (by decide) before longNames_unrenamed (by decide) s₁ _ s₃ linking.built linking.builtIdom
        builtDom with ⟨run, recorded, within⟩
      rcases Building.tree linking graph building toured (by decide) with ⟨visits, visited, tree⟩
      rcases recordPhiParams_visits visited tree graph (by decide) longNames_unrenamed with
        ⟨run', recorded', within_iff⟩
      cases recorded.symm.trans recorded'
      exact longStatements_notFit (within_iff.mp within)

end Shecc.Ssa
