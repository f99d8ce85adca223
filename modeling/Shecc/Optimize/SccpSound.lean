import Shecc.Optimize.CseSound
import Shecc.Optimize.Sccp

/-!
# What constant propagation preserves

A flag is truthful when the variable holds its constant from its definition on in
every execution of the function. `simple_sccp` keeps every instruction, every flag
and every link of the graph as they should be exactly if it flags nothing that
lives in memory and folds no branch: an assignment is folded without a look at
its destination, and folding a branch leaves the block among the predecessors of
the successor it drops.
-/

namespace Shecc.Optimize

open Shecc.Parser (Connection)

/-! ## The flags of the pass -/

/-- The instruction becomes a load of a constant into `rd`, given the variables
that are constant. -/
def folds (vars : Vars) (constant : VarId → Bool) (insn : Insn) (rd : VarId) : Bool :=
  match insn.opcode, insn.rs1, insn.rs2 with
  | .assign, some x, _ => constant x
  | .trunc, some x, _ =>
      constant x && (truncateConstant insn.sz 0).isSome && !(vars rd).isGlobal
  | op, some x, some y => foldedBySccp op && constant x && constant y && !(vars rd).isGlobal
  | _, _, _ => false

/-- The variables that are constant behind the instructions `passed`, latest
first. -/
def constantAfter (vars : Vars) : List Insn → VarId → Bool
  | [], v => (vars v).isConst
  | insn :: earlier, v =>
      constantAfter vars earlier v ||
        (insn.rd == some v && folds vars (constantAfter vars earlier) insn v)

/-- The opcodes `simple_sccp` may turn into a load. -/
def foldable (op : Opcode) : Bool :=
  op == .assign || op == .trunc || foldedBySccp op

/-- The instruction evaluates to `k` wherever the flagged variables hold their
constants. -/
def Produces (table : Vars) (insn : Insn) (k : Word) : Prop :=
  ∀ (world : World) (vars : Vars) (s : State),
    (∀ x ∈ uses insn, (table x).isConst = true → s.value world vars x = (table x).initVal) →
      evaluate world vars s insn = some k

/-- The instruction was turned into a load. -/
structure FoldedTo (table : Vars) (insn left : Insn) (rd : VarId) (k : Word) : Prop where
  rdEq : insn.rd = some rd
  op : foldable insn.opcode = true
  isLoad : left.opcode = .loadConstant
  leftEq : left.rd = some rd
  produces : Produces table insn k
  target : (table rd).isConst = false ∨ (table rd).isGlobal = false

/-- The size of a sign extension holds the size of its source, which is not empty,
in the upper half. -/
def Encoded (insn : Insn) : Prop := insn.opcode = .signExt → 2 ^ 16 ≤ insn.sz

theorem truncateConstant_isSome (sz : Int) (value value' : Word) :
    (truncateConstant sz value).isSome = (truncateConstant sz value').isSome := by
  unfold truncateConstant
  split
  · rfl
  · split
    · rfl
    · split <;> rfl

/-- A round folds the instruction, or leaves everything as it is and has nothing
to flag. -/
def Rounds (table : Vars) (insn : Insn) : Prop :=
  (sccpInsn table insn = ⟨false, table, insn⟩ ∧
      ∀ rd, insn.rd = some rd → folds table (fun v => (table v).isConst) insn rd = true →
        (table rd).isConst = true) ∨
    ∃ rd k left, sccpInsn table insn = ⟨true, table.setConst rd k, left⟩ ∧
      folds table (fun v => (table v).isConst) insn rd = true ∧ FoldedTo table insn left rd k

section Round

variable {table : Vars} {insn : Insn} {rd x y : VarId}

/-- The round on a binary operation. -/
theorem rounds_binary (isFolded : foldedBySccp insn.opcode = true) (rdEq : insn.rd = some rd)
    (rs1Eq : insn.rs1 = some x) (rs2Eq : insn.rs2 = some y) : Rounds table insn := by
  have binary : insn.opcode.isBinary = true := by
    generalize insn.opcode = op at isFolded
    cases op <;> first | rfl | cases isFolded
  have foldsEq : folds table (fun v => (table v).isConst) insn rd =
      ((table x).isConst && (table y).isConst && !(table rd).isGlobal) := by
    rcases insn with ⟨op, _, _, _, sz, str, useful, idx⟩
    cases rs1Eq
    cases rs2Eq
    cases op <;> first | rfl | cases isFolded
  have value : ∃ k, insn.opcode.binary (table x).initVal (table y).initVal = some k := by
    generalize insn.opcode = op at isFolded
    cases op <;> first | exact ⟨_, rfl⟩ | cases isFolded
  rcases value with ⟨k, value⟩
  have shape : sccpInsn table insn =
      if (table x).isConst && (table y).isConst && !(table rd).isGlobal then
        ⟨true, table.setConst rd k, { insn with opcode := .loadConstant, rs1 := none, rs2 := none }⟩
      else ⟨false, table, insn⟩ := by
    rcases insn with ⟨op, _, _, _, sz, str, useful, idx⟩
    cases rdEq
    cases rs1Eq
    cases rs2Eq
    cases op <;> first
      | (cases isFolded; done)
      | (cases value
         simp only [sccpInsn, foldedBySccp, Bool.true_and, Opcode.binary])
  rw [Rounds, shape]
  by_cases constant : ((table x).isConst && (table y).isConst && !(table rd).isGlobal) = true
  · rw [if_pos constant]
    refine Or.inr ⟨rd, k, _, rfl, foldsEq.trans constant, ?_⟩
    simp only [Bool.and_eq_true, Bool.not_eq_true'] at constant
    rcases constant with ⟨⟨constantX, constantY⟩, isLocal⟩
    exact
      { rdEq := rdEq
        op := by simp [foldable, isFolded]
        isLoad := rfl
        leftEq := rdEq
        produces := by
          intro world vars s holds
          rw [evaluate_binary binary rs1Eq rs2Eq, holds x (by simp [uses, rs1Eq]) constantX,
            holds y (by simp [uses, rs2Eq]) constantY]
          exact value
        target := Or.inr isLocal }
  · rw [if_neg constant]
    refine Or.inl ⟨rfl, fun rd' rdEq' isFold => ?_⟩
    obtain rfl := Option.some.inj (rdEq.symm.trans rdEq')
    exact absurd (foldsEq.symm.trans isFold) constant

/-- The round on an assignment. -/
theorem rounds_assign (isAssign : insn.opcode = .assign) (rdEq : insn.rd = some rd)
    (rs1Eq : insn.rs1 = some x) : Rounds table insn := by
  have foldsEq : folds table (fun v => (table v).isConst) insn rd = (table x).isConst := by
    simp only [folds, isAssign, rs1Eq]
  have shape : sccpInsn table insn =
      if (table x).isConst && !(table rd).isConst then
        ⟨true, table.setConst rd (table x).initVal,
          { insn with opcode := .loadConstant, rs1 := none }⟩
      else ⟨false, table, insn⟩ := by
    simp only [sccpInsn, isAssign, rdEq, rs1Eq]
  rw [Rounds, shape]
  by_cases fresh : ((table x).isConst && !(table rd).isConst) = true
  · rw [if_pos fresh]
    simp only [Bool.and_eq_true, Bool.not_eq_true'] at fresh
    refine Or.inr ⟨rd, (table x).initVal, _, rfl, foldsEq.trans fresh.1, ?_⟩
    exact
      { rdEq := rdEq
        op := by simp [foldable, isAssign]
        isLoad := rfl
        leftEq := rdEq
        produces := by
          intro world vars s holds
          have value := holds x (by simp [uses, rs1Eq]) fresh.1
          simp [evaluate, isAssign, rs1Eq, value]
        target := Or.inl fresh.2 }
  · rw [if_neg fresh]
    refine Or.inl ⟨rfl, fun rd' rdEq' isFold => ?_⟩
    obtain rfl := Option.some.inj (rdEq.symm.trans rdEq')
    simpa [foldsEq.symm.trans isFold] using fresh

/-- The round on a truncation. -/
theorem sccpInsn_trunc (isTrunc : insn.opcode = .trunc) (rdEq : insn.rd = some rd)
    (rs1Eq : insn.rs1 = some x) :
    sccpInsn table insn =
      if (table x).isConst && !(table rd).isGlobal then
        match truncateConstant insn.sz (table x).initVal with
        | some result =>
            ⟨true, table.setConst rd result,
              { insn with opcode := .loadConstant, rs1 := none, sz := 0 }⟩
        | none => ⟨false, table, insn⟩
      else ⟨false, table, insn⟩ := by
  rcases insn with ⟨op, _, _, rs2, sz, str, useful, idx⟩
  cases isTrunc
  cases rdEq
  cases rs1Eq
  rfl

theorem rounds_trunc (isTrunc : insn.opcode = .trunc) (rdEq : insn.rd = some rd)
    (rs1Eq : insn.rs1 = some x) : Rounds table insn := by
  have foldsEq : folds table (fun v => (table v).isConst) insn rd =
      ((table x).isConst && (truncateConstant insn.sz (table x).initVal).isSome &&
        !(table rd).isGlobal) := by
    rw [truncateConstant_isSome insn.sz (table x).initVal 0]
    simp only [folds, isTrunc, rs1Eq]
  rw [Rounds, sccpInsn_trunc isTrunc rdEq rs1Eq]
  by_cases constant : ((table x).isConst && !(table rd).isGlobal) = true
  · rw [if_pos constant]
    simp only [Bool.and_eq_true, Bool.not_eq_true'] at constant
    cases result : truncateConstant insn.sz (table x).initVal with
    | some k =>
        refine Or.inr ⟨rd, k, _, rfl, by simp [foldsEq, constant, result], ?_⟩
        exact
          { rdEq := rdEq
            op := by simp [foldable, isTrunc]
            isLoad := rfl
            leftEq := rdEq
            produces := by
              intro world vars s holds
              have value := holds x (by simp [uses, rs1Eq]) constant.1
              simp only [evaluate, isTrunc, rs1Eq, Option.bind_some, value]
              exact result
            target := Or.inr constant.2 }
    | none =>
        refine Or.inl ⟨rfl, fun rd' rdEq' isFold => ?_⟩
        obtain rfl := Option.some.inj (rdEq.symm.trans rdEq')
        simp [foldsEq, result] at isFold
  · rw [if_neg constant]
    refine Or.inl ⟨rfl, fun rd' rdEq' isFold => ?_⟩
    obtain rfl := Option.some.inj (rdEq.symm.trans rdEq')
    simp only [foldsEq, Bool.and_eq_true, Bool.not_eq_true'] at isFold
    simp [isFold] at constant

/-- The round on any other instruction. -/
theorem rounds_other (encoded : Encoded insn) (notAssign : insn.opcode ≠ .assign)
    (notTrunc : insn.opcode ≠ .trunc)
    (notBinary : foldedBySccp insn.opcode = false ∨ insn.rs1 = none ∨ insn.rs2 = none) :
    Rounds table insn := by
  have nothing (rd : VarId) : folds table (fun v => (table v).isConst) insn rd = false := by
    rcases insn with ⟨op, _, rs1, rs2, sz, str, useful, idx⟩
    cases op <;> cases rs1 <;> cases rs2 <;> simp_all [folds, foldedBySccp]
  have same : sccpInsn table insn = ⟨false, table, insn⟩ := by
    by_cases isExt : insn.opcode = .signExt
    · have sized := encoded isExt
      have skipped (value : Word) : signExtendConstant insn.sz value = none := by
        unfold signExtendConstant
        rw [if_neg (by omega), if_neg (by omega), if_neg (by omega)]
      rcases insn with ⟨op, rd, rs1, rs2, sz, str, useful, idx⟩
      cases isExt
      cases rd <;> cases rs1 <;> simp_all [sccpInsn]
    · rcases insn with ⟨op, rd, rs1, rs2, sz, str, useful, idx⟩
      cases rd <;> cases rs1 <;> cases rs2 <;> cases op <;>
        simp_all [sccpInsn, foldedBySccp]
  refine Or.inl ⟨same, fun rd _ isFold => ?_⟩
  rw [nothing] at isFold
  cases isFold

theorem rounds (encoded : Encoded insn) : Rounds table insn := by
  cases rdEq : insn.rd with
  | none =>
      refine Or.inl ⟨by simp only [sccpInsn, rdEq], fun rd rdEq' => ?_⟩
      rw [rdEq] at rdEq'
      cases rdEq'
  | some rd =>
      by_cases isFolded : foldedBySccp insn.opcode = true
      · have notAssign : insn.opcode ≠ .assign := by
          intro isAssign
          rw [isAssign] at isFolded
          cases isFolded
        have notTrunc : insn.opcode ≠ .trunc := by
          intro isTrunc
          rw [isTrunc] at isFolded
          cases isFolded
        cases rs1Eq : insn.rs1 with
        | none => exact rounds_other encoded notAssign notTrunc (Or.inr (Or.inl rs1Eq))
        | some x =>
            cases rs2Eq : insn.rs2 with
            | none => exact rounds_other encoded notAssign notTrunc (Or.inr (Or.inr rs2Eq))
            | some y => exact rounds_binary isFolded rdEq rs1Eq rs2Eq
      · by_cases isAssign : insn.opcode = .assign
        · cases rs1Eq : insn.rs1 with
          | none =>
              exact Or.inl ⟨by simp only [sccpInsn, rdEq, isAssign, rs1Eq],
                fun rd _ isFold => by simp [folds, isAssign, rs1Eq] at isFold⟩
          | some x => exact rounds_assign isAssign rdEq rs1Eq
        · by_cases isTrunc : insn.opcode = .trunc
          · cases rs1Eq : insn.rs1 with
            | none =>
                exact Or.inl ⟨by simp only [sccpInsn, rdEq, isTrunc, rs1Eq],
                  fun rd _ isFold => by simp [folds, isTrunc, rs1Eq] at isFold⟩
            | some x => exact rounds_trunc isTrunc rdEq rs1Eq
          · exact rounds_other encoded isAssign isTrunc (Or.inl (by simpa using isFolded))

end Round

/-- The flags do not depend on more than the operands' flags and the kind of the
destination. -/
theorem folds_congr {vars vars' : Vars} {constant constant' : VarId → Bool} {insn : Insn}
    {rd : VarId} (sameGlobals : (vars' rd).isGlobal = (vars rd).isGlobal)
    (sameFlags : ∀ v, constant' v = constant v) :
    folds vars' constant' insn rd = folds vars constant insn rd := by
  obtain rfl : constant' = constant := funext sameFlags
  unfold folds
  rw [sameGlobals]

/-- Flags are never cleared. -/
theorem constantAfter_append {vars : Vars} {earlier : List Insn} (later : List Insn) {v : VarId}
    (constant : constantAfter vars earlier v = true) :
    constantAfter vars (later ++ earlier) v = true := by
  induction later with
  | nil => exact constant
  | cons insn rest inductionHypothesis =>
      rw [List.cons_append, constantAfter, inductionHypothesis, Bool.true_or]

/-- What is flagged was flagged before the pass, or some instruction folds. -/
theorem constantAfter_cases {vars : Vars} {passed : List Insn} {v : VarId}
    (constant : constantAfter vars passed v = true) :
    (vars v).isConst = true ∨ ∃ later insn earlier, passed = later ++ insn :: earlier ∧
      insn.rd = some v ∧ folds vars (constantAfter vars earlier) insn v = true := by
  induction passed with
  | nil => exact Or.inl constant
  | cons insn earlier inductionHypothesis =>
      rw [constantAfter, Bool.or_eq_true, Bool.and_eq_true, beq_iff_eq] at constant
      rcases constant with before | ⟨rdEq, isFold⟩
      · rcases inductionHypothesis before with flagged | ⟨later, other, rest, rfl, found⟩
        · exact Or.inl flagged
        · exact Or.inr ⟨insn :: later, other, rest, rfl, found⟩
      · exact Or.inr ⟨[], insn, earlier, rfl, rdEq, isFold⟩

/-! ## Functions and truthful flags -/

/-- The successor of a block along one kind of edge. -/
def along (block : Block) : Connection → Option BlockId
  | .next => block.next
  | .then_ => block.then_
  | .else_ => block.else_

/-- Every successor has the block among its predecessors, and the other way
round. -/
def Symmetric (prev : BlockId → List (BlockId × Connection)) (blocks : List (BlockId × Block)) :
    Prop :=
  ∀ entry ∈ blocks, ∀ kind succ, along entry.2 kind = some succ ↔ (entry.1, kind) ∈ prev succ

/-- A function as `optimize` passes it to `simple_sccp`: in SSA form, with
symmetric links, a successor for the false outcome of every branch and the size
of the source in every sign extension. -/
structure LinkedFunc extends Func where
  vars : Vars
  prev : BlockId → List (BlockId × Connection)
  ssa : InSsaForm vars toFunc.insns
  strict : toFunc.Strict
  encoded : ∀ insn ∈ toFunc.insns, Encoded insn
  linked : Symmetric prev (toFunc.order.map fun bb => (bb, toFunc.block bb))
  branches : ∀ bb ∈ toFunc.order, ∀ last, (toFunc.block bb).insns.getLast? = some last →
    last.opcode = .branch → (toFunc.block bb).else_.isSome

namespace LinkedFunc

variable (f : LinkedFunc) (world : World)

/-- The blocks in reverse post order. -/
def blocks : List (BlockId × Block) := f.order.map fun bb => (bb, f.block bb)

/-- The instructions of the blocks `bbs`. -/
def codeOf (bbs : List BlockId) : List Insn := bbs.flatMap fun bb => (f.block bb).insns

/-- What `simple_sccp` makes of the function. -/
def result : Sccp (List (BlockId × Block)) := simpleSccp f.vars f.blocks

/-- An execution of the function. -/
abbrev Execution (start : State) (trace : List Insn) (bb : BlockId) (rest : List Insn)
    (s : State) : Prop :=
  Run world f.vars f.toFunc (fun _ _ _ => True) start trace bb rest s

/-- The variable holds `k` from its definition on in every execution. -/
def Holds (v : VarId) (k : Word) : Prop :=
  ∀ {start trace bb rest s}, f.Execution world start trace bb rest s →
    ((∃ definition ∈ f.toFunc.insns, definition.rd = some v) →
      ∃ definition ∈ trace, definition.rd = some v) →
    s.value world f.vars v = k

/-- The flagged variables hold their constants. -/
def Truthful (table : Vars) : Prop :=
  ∀ v, (table v).isConst = true → f.Holds world v (table v).initVal

/-- Wherever an execution of the function gets to `insn` in `bb`, `left` does what
`insn` does. -/
def SameStep (bb : BlockId) (insn left : Insn) : Prop :=
  ∀ {start trace rest s}, f.Execution world start trace bb (insn :: rest) s →
    ∀ s', Exec world f.result.vars left s s' ↔ Exec world f.vars insn s s'

/-- A folded branch leaves the one successor that the branch would have gone to. -/
def Follows (source target : BlockId × Block) : Prop :=
  ∀ last left, source.2.insns.getLast? = some last → target.2.insns.getLast? = some left →
    last.opcode = .branch → left.opcode = .jump →
      ∀ x, last.rs1 = some x → ∀ {start trace s}, f.Execution world start trace source.1 [last] s →
        ∀ succ, (if (s.value world f.vars x).truth then source.2.then_ else source.2.else_) =
          some succ → target.2.successors = [succ]

/-- `simple_sccp` preserves the meaning of the function: every instruction does
what it did, every variable newly flagged holds its constant and is none that
memory or a callee can change, and the graph is linked and goes the way of the
folded branches. -/
structure Preserves : Prop where
  values : List.Forall₂ (fun source target => target.1 = source.1 ∧
    List.Forall₂ (f.SameStep world source.1) source.2.insns target.2.insns)
      f.blocks f.result.left
  truthful : ∀ v, (f.result.vars v).isConst = true → (f.vars v).isConst = false →
    f.Holds world v (f.result.vars v).initVal ∧ resident f.vars v = false
  symmetric : Symmetric f.prev f.result.left
  follows : List.Forall₂ (f.Follows world) f.blocks f.result.left

/-- The pass finds nothing to fold that it should not: no constant goes to a
variable in memory, and no branch is on a constant. -/
structure Harmless : Prop where
  outside : ∀ earlier insn later, f.toFunc.insns = earlier ++ insn :: later →
    ∀ rd, insn.rd = some rd → folds f.vars (constantAfter f.vars earlier.reverse) insn rd = true →
      (f.vars rd).isConst = true ∨ resident f.vars rd = false
  unbranched : ∀ before bb after, f.order = before ++ bb :: after →
    ∀ last x, (f.block bb).insns.getLast? = some last → last.opcode = .branch →
      last.rs1 = some x →
        constantAfter f.vars (f.codeOf (before ++ [bb])).reverse x = false

/-! ## The pass and its flags -/

/-- The records when the pass is behind `passed`. -/
structure Tracks (table : Vars) (passed : List Insn) : Prop where
  flags : ∀ v, (table v).isConst = constantAfter f.vars passed.reverse v
  globals : ∀ v, (table v).isGlobal = (f.vars v).isGlobal
  resident : ∀ v, resident table v = resident f.vars v
  functions : ∀ v, (table v).isFunc = (f.vars v).isFunc

variable {f world}

theorem tracks_start : f.Tracks f.vars [] where
  flags _ := rfl
  globals _ := rfl
  resident _ := rfl
  functions _ := rfl

theorem setConst_isFunc (vars : Vars) (u v : VarId) (k : Word) :
    (vars.setConst u k v).isFunc = (vars v).isFunc := by
  by_cases same : v = u
  · subst same
    simp
  · simp [same]

variable {table : Vars} {passed : List Insn}

/-- Whether the instruction folds can be told from the flags alone. -/
theorem Tracks.folds_eq (tracks : f.Tracks table passed) (insn : Insn) (rd : VarId) :
    folds table (fun v => (table v).isConst) insn rd =
      folds f.vars (constantAfter f.vars passed.reverse) insn rd :=
  folds_congr (tracks.globals rd) tracks.flags

theorem Tracks.insn (tracks : f.Tracks table passed) {insn : Insn} (encoded : Encoded insn) :
    f.Tracks (sccpInsn table insn).vars (passed ++ [insn]) := by
  have flagsEq (v : VarId) : constantAfter f.vars (passed ++ [insn]).reverse v =
      ((table v).isConst || (insn.rd == some v &&
        folds table (fun v => (table v).isConst) insn v)) := by
    rw [List.reverse_append, List.reverse_singleton, List.singleton_append, constantAfter,
      tracks.folds_eq, tracks.flags]
  rcases @rounds table insn encoded with ⟨same, nothing⟩ | ⟨rd, k, left, same, isFold, folded⟩
  · rw [same]
    refine ⟨fun v => ?_, tracks.globals, tracks.resident, tracks.functions⟩
    rw [flagsEq]
    cases flagged : (table v).isConst with
    | true => rfl
    | false =>
        rw [Bool.false_or, eq_comm, Bool.and_eq_false_iff]
        by_cases rdEq : insn.rd = some v
        · right
          by_contra isFold
          rw [nothing v rdEq (by simpa using isFold)] at flagged
          cases flagged
        · left
          simpa using rdEq
  · rw [same]
    refine ⟨fun v => ?_, fun v => ?_, fun v => ?_, fun v => ?_⟩
    · rw [flagsEq]
      by_cases target : v = rd
      · subst target
        simp [folded.rdEq, isFold]
      · have other : (insn.rd == some v) = false := by
          rw [folded.rdEq]
          simpa using Ne.symm target
        simp [target, other]
    · exact (Vars.setConst_isGlobal table v rd k).trans (tracks.globals v)
    · exact (resident_setConst table rd v k).trans (tracks.resident v)
    · exact (setConst_isFunc table rd v k).trans (tracks.functions v)

theorem Tracks.insns (tracks : f.Tracks table passed) {insns : List Insn}
    (encoded : ∀ insn ∈ insns, Encoded insn) :
    f.Tracks (sccpInsns table insns).vars (passed ++ insns) := by
  induction insns generalizing table passed with
  | nil =>
      rw [List.append_nil]
      exact tracks
  | cons insn rest inductionHypothesis =>
      have onward := inductionHypothesis (tracks.insn (encoded insn List.mem_cons_self))
        fun insn present => encoded insn (List.mem_cons_of_mem _ present)
      rw [List.append_assoc, List.singleton_append] at onward
      exact onward

@[simp]
theorem foldBranch_vars (table : Vars) (block : Block) :
    (foldBranch table block).vars = table := by
  unfold foldBranch
  split
  · rfl
  · split
    · split
      · simp only
        split <;> rfl
      · rfl
    · rfl

theorem Tracks.block (tracks : f.Tracks table passed) {block : Block}
    (encoded : ∀ insn ∈ block.insns, Encoded insn) :
    f.Tracks (sccpBlock table block).vars (passed ++ block.insns) := by
  rw [sccpBlock, foldBranch_vars]
  exact tracks.insns encoded

theorem Tracks.blocks (tracks : f.Tracks table passed) {bbs : List BlockId}
    (encoded : ∀ insn ∈ f.codeOf bbs, Encoded insn) :
    f.Tracks (simpleSccp table (bbs.map fun bb => (bb, f.block bb))).vars
      (passed ++ f.codeOf bbs) := by
  induction bbs generalizing table passed with
  | nil =>
      rw [codeOf, List.flatMap_nil, List.append_nil]
      exact tracks
  | cons bb rest inductionHypothesis =>
      rw [codeOf, List.flatMap_cons] at encoded
      have onward := inductionHypothesis
        (tracks.block fun insn present => encoded insn (List.mem_append_left _ present))
        fun insn present => encoded insn (List.mem_append_right _ present)
      rw [List.append_assoc] at onward
      exact onward

theorem encoded_of_order {bbs : List BlockId} (inside : ∀ bb ∈ bbs, bb ∈ f.order) :
    ∀ insn ∈ f.codeOf bbs, Encoded insn := by
  intro insn present
  obtain ⟨bb, inBbs, inBlock⟩ := List.mem_flatMap.mp present
  exact f.encoded insn (Func.mem_insns (inside bb inBbs) inBlock)

/-- The records behind the blocks `before`. -/
theorem tracks_before {before after : List BlockId} (split : f.order = before ++ after) :
    f.Tracks (simpleSccp f.vars (before.map fun bb => (bb, f.block bb))).vars
      (f.codeOf before) := by
  have inside : ∀ bb ∈ before, bb ∈ f.order := by
    intro bb present
    rw [split]
    exact List.mem_append_left _ present
  have tracks := f.tracks_start.blocks (encoded_of_order inside)
  rwa [List.nil_append] at tracks

theorem tracks_result : f.Tracks f.result.vars f.toFunc.insns := by
  have split : f.order = f.order ++ [] := (List.append_nil _).symm
  exact tracks_before split

theorem simpleSccp_append (table : Vars) (first second : List (BlockId × Block)) :
    (simpleSccp table (first ++ second)).left =
        (simpleSccp table first).left ++ (simpleSccp (simpleSccp table first).vars second).left ∧
      (simpleSccp table (first ++ second)).vars =
        (simpleSccp (simpleSccp table first).vars second).vars := by
  induction first generalizing table with
  | nil => exact ⟨rfl, rfl⟩
  | cons entry rest inductionHypothesis =>
      obtain ⟨left, vars⟩ := inductionHypothesis (sccpBlock table entry.2).vars
      exact ⟨congrArg ((entry.1, (sccpBlock table entry.2).left) :: ·) left, vars⟩

theorem sccpInsns_append (table : Vars) (first second : List Insn) :
    (sccpInsns table (first ++ second)).left =
        (sccpInsns table first).left ++ (sccpInsns (sccpInsns table first).vars second).left ∧
      (sccpInsns table (first ++ second)).vars =
        (sccpInsns (sccpInsns table first).vars second).vars := by
  induction first generalizing table with
  | nil => exact ⟨rfl, rfl⟩
  | cons insn rest inductionHypothesis =>
      obtain ⟨left, vars⟩ := inductionHypothesis (sccpInsn table insn).vars
      exact ⟨congrArg ((sccpInsn table insn).left :: ·) left, vars⟩

/-- What the pass makes of a block of the function. -/
theorem block_of_result {before after : List BlockId} {bb : BlockId}
    (split : f.order = before ++ bb :: after) :
    (bb, (sccpBlock (simpleSccp f.vars (before.map fun bb => (bb, f.block bb))).vars
      (f.block bb)).left) ∈ f.result.left := by
  rw [result, blocks, split, List.map_append, (simpleSccp_append _ _ _).1]
  exact List.mem_append_right _ List.mem_cons_self

/-- The loop over the instructions of a block leaves a branch at the end of it as
it is, and makes none. -/
theorem getLast_sccpInsns {insns : List Insn} {last : Insn} (table : Vars)
    (encoded : ∀ insn ∈ insns, Encoded insn) (isBranch : last.opcode = .branch) :
    (sccpInsns table insns).left.getLast? = some last ↔ insns.getLast? = some last := by
  rcases List.eq_nil_or_concat insns with rfl | ⟨earlier, insn, rfl⟩
  · rfl
  · rw [List.concat_eq_append] at encoded ⊢
    rw [(sccpInsns_append table earlier [insn]).1]
    rcases @rounds (sccpInsns table earlier).vars insn (encoded insn (by simp)) with
      ⟨same, -⟩ | ⟨rd, k, left, same, -, folded⟩
    · simp [sccpInsns, same]
    · have op := folded.op
      have isLoad := folded.isLoad
      simp only [sccpInsns, same, List.getLast?_append, List.getLast?_singleton,
        Option.some_or, Option.some.injEq]
      constructor
      · rintro rfl
        rw [isBranch] at isLoad
        cases isLoad
      · rintro rfl
        rw [isBranch] at op
        cases op

/-- A branch on a constant loses its second successor. -/
theorem foldBranch_folds {table : Vars} {block : Block} {last : Insn} {x : VarId}
    (isLast : block.insns.getLast? = some last) (isBranch : last.opcode = .branch)
    (rs1Eq : last.rs1 = some x) (constant : (table x).isConst = true) :
    (foldBranch table block).left.else_ = none := by
  simp only [foldBranch, isLast, isBranch, rs1Eq, constant, if_true]
  split <;> rfl

/-- Any other block is left alone. -/
theorem foldBranch_keeps {table : Vars} {block : Block}
    (unbranched : ∀ last x, block.insns.getLast? = some last → last.opcode = .branch →
      last.rs1 = some x → (table x).isConst = false) :
    (foldBranch table block).left = block := by
  unfold foldBranch
  split
  · rfl
  · rename_i last isLast
    split
    · rename_i x isBranch rs1Eq
      rw [if_neg (by rw [unbranched last x isLast isBranch rs1Eq]; decide)]
    · rfl

/-- The pass only does what it should if it finds nothing it should not fold. -/
theorem Preserves.harmless (preserves : f.Preserves world) : f.Harmless where
  outside := by
    intro earlier insn later split rd rdEq isFold
    by_cases flagged : (f.vars rd).isConst = true
    · exact Or.inl flagged
    · have constant : constantAfter f.vars f.toFunc.insns.reverse rd = true := by
        rw [split, List.reverse_append, List.reverse_cons, List.append_assoc,
          List.singleton_append]
        apply constantAfter_append
        rw [constantAfter, isFold, rdEq]
        simp
      exact Or.inr (preserves.truthful rd ((f.tracks_result.flags rd).trans constant)
        (by simpa using flagged)).2
  unbranched := by
    intro before bb after split last x isLast isBranch rs1Eq
    by_contra constant
    have inOrder : bb ∈ f.order := by
      rw [split]
      simp
    obtain ⟨succ, elseEq⟩ :=
      Option.isSome_iff_exists.mp (f.branches bb inOrder last isLast isBranch)
    have linked := (f.linked (bb, f.block bb) (List.mem_map.mpr ⟨bb, inOrder, rfl⟩)
      .else_ succ).mp elseEq
    have kept := (preserves.symmetric _ (block_of_result split) .else_ succ).mpr linked
    have encoded : ∀ insn ∈ (f.block bb).insns, Encoded insn := fun insn present =>
      f.encoded insn (Func.mem_insns inOrder present)
    have tracks := (tracks_before split).insns encoded
    have code : f.codeOf (before ++ [bb]) = f.codeOf before ++ (f.block bb).insns := by
      simp [codeOf]
    rw [← code] at tracks
    have flagged := (tracks.flags x).trans (Bool.of_not_eq_false constant)
    have isLast' := (getLast_sccpInsns
      (simpleSccp f.vars (before.map fun bb => (bb, f.block bb))).vars encoded isBranch).mpr isLast
    have dropped := @foldBranch_folds _ { f.block bb with insns := _ } _ _ isLast' isBranch rs1Eq
      flagged
    rw [along, sccpBlock, dropped] at kept
    cases kept

/-! ## Folded instructions -/

section Folding

variable {insn left : Insn} {rd : VarId} {k : Word}

/-- A folded instruction is the only definition of its destination. -/
theorem definition_unique {other : Insn} (present : insn ∈ f.toFunc.insns)
    (otherPresent : other ∈ f.toFunc.insns) (rdEq : insn.rd = some rd)
    (otherEq : other.rd = some rd) (op : foldable insn.opcode = true)
    (isLocal : (f.vars rd).isGlobal = false) : other = insn := by
  by_contra different
  rcases f.ssa.single.forall present otherPresent (Ne.symm different) rd rdEq otherEq with
    isGlobal | ⟨isPhi, -⟩ | ⟨isLoad, -⟩
  · rw [isLocal] at isGlobal
    cases isGlobal
  · rw [isPhi] at op
    cases op
  · rw [isLoad] at op
    cases op

/-- The value of a folded instruction. -/
theorem Truthful.evaluates (truthful : f.Truthful world table) (produces : Produces table insn k)
    {start s : State} {trace rest : List Insn} {bb : BlockId}
    (run : f.Execution world start trace bb (insn :: rest) s) :
    evaluate world f.vars s insn = some k :=
  produces world f.vars s fun x used flagged =>
    truthful x flagged run (f.strict run.path x used)

/-- Only an assignment executes a folded instruction. -/
theorem exec_foldable {vars : Vars} {s s' : State} (op : foldable insn.opcode = true)
    (rdEq : insn.rd = some rd) (value : evaluate world vars s insn = some k) :
    Exec world vars insn s s' ↔ s' = s.assign world vars rd k := by
  have computes : insn.opcode ∉ acting := by
    intro isActing
    simp only [acting, List.mem_cons, List.not_mem_nil, or_false] at isActing
    rcases isActing with same | same | same | same | same <;> rw [same] at op <;> cases op
  rw [exec_iff_of_not_acting computes rdEq, value]
  simp

/-- An instruction that an execution has passed was executed. -/
theorem executed {start s : State} {trace rest : List Insn} {bb : BlockId}
    (run : f.Execution world start trace bb rest s) (passed : insn ∈ trace)
    (notBranch : insn.opcode ≠ .branch) :
    ∃ trace' bb' rest' s' s'', f.Execution world start trace' bb' (insn :: rest') s' ∧
      Exec world f.vars insn s' s'' := by
  induction run with
  | start => cases passed
  | exec before step _ inductionHypothesis =>
      rcases List.mem_cons.mp passed with rfl | passed
      · exact ⟨_, _, _, _, _, before, step⟩
      · exact inductionHypothesis passed
  | jump _ _ inductionHypothesis => exact inductionHypothesis passed
  | branch _ isBranch _ _ inductionHypothesis =>
      rcases List.mem_cons.mp passed with rfl | passed
      · exact absurd isBranch notBranch
      · exact inductionHypothesis passed

variable (truthful : f.Truthful world table) (folded : FoldedTo table insn left rd k)
  (present : insn ∈ f.toFunc.insns)

include truthful folded present

/-- The destination of a folded instruction holds the constant if nothing else
can change it. -/
theorem holds_outside (outside : resident f.vars rd = false) : f.Holds world rd k := by
  have isLocal : (f.vars rd).isGlobal = false := by
    rw [resident, Bool.or_eq_false_iff] at outside
    exact outside.1
  have unique {other : Insn} (inside : other ∈ f.toFunc.insns) (otherEq : other.rd = some rd) :
      other = insn :=
    definition_unique present inside folded.rdEq otherEq folded.op isLocal
  intro start trace bb rest s run defined
  replace defined := defined ⟨insn, present, folded.rdEq⟩
  induction run with
  | start =>
      obtain ⟨_, impossible, -⟩ := defined
      cases impossible
  | @exec trace bb other rest s s' before step _ inductionHypothesis =>
      have inside : other ∈ f.toFunc.insns := before.path.inside.2.1 other List.mem_cons_self
      by_cases rdEq : other.rd = some rd
      · obtain rfl := unique inside rdEq
        have value := truthful.evaluates folded.produces before
        obtain rfl := (exec_foldable folded.op rdEq value).mp step
        exact State.value_assign_same world f.vars s rd k
      · rw [exec_value step rdEq outside]
        apply inductionHypothesis
        obtain ⟨definition, passed, definitionEq⟩ := defined
        rcases List.mem_cons.mp passed with rfl | passed
        · exact absurd definitionEq rdEq
        · exact ⟨definition, passed, definitionEq⟩
  | jump _ _ inductionHypothesis => exact inductionHypothesis defined
  | @branch trace bb succ other _ rest s before isBranch _ _ inductionHypothesis =>
      apply inductionHypothesis
      obtain ⟨definition, passed, definitionEq⟩ := defined
      rcases List.mem_cons.mp passed with rfl | passed
      · have inside := before.path.inside.2.1 definition List.mem_cons_self
        have op := folded.op
        rw [← unique inside definitionEq, isBranch] at op
        cases op
      · exact ⟨definition, passed, definitionEq⟩

/-- Folding again into a variable that was flagged all along changes nothing. -/
theorem holds_again (flagged : (table rd).isConst = true)
    (isLocal : (f.vars rd).isGlobal = false) : f.Holds world rd k := by
  intro start trace bb rest s run defined
  obtain ⟨definition, passed, definitionEq⟩ := defined ⟨insn, present, folded.rdEq⟩
  have inside := run.path.inside.2.2 definition passed
  obtain rfl := definition_unique present inside folded.rdEq definitionEq folded.op isLocal
  have notBranch : definition.opcode ≠ .branch := by
    intro isBranch
    have op := folded.op
    rw [isBranch] at op
    cases op
  obtain ⟨trace', bb', rest', s', s'', before, step⟩ := executed run passed notBranch
  have value := truthful.evaluates folded.produces before
  have behind := truthful rd flagged (.exec before step trivial)
    fun _ => ⟨definition, List.mem_cons_self, definitionEq⟩
  obtain rfl := (exec_foldable folded.op definitionEq value).mp step
  rw [State.value_assign_same] at behind
  rw [behind]
  exact truthful rd flagged run defined

end Folding

/-! ## A pass that finds nothing it should not fold -/

/-- The records, when every flag so far is truthful. -/
structure Keeps (f : LinkedFunc) (world : World) (table : Vars) (passed : List Insn) : Prop
    extends f.Tracks table passed where
  truthful : f.Truthful world table
  records : ∀ v, (table v).initVal = (f.vars v).initVal ∨
    ∃ p ∈ passed, p.rd = some v ∧ foldable p.opcode = true ∧ (f.vars v).isGlobal = false

/-- What the pass makes of an instruction: the instruction itself, or a load of
the constant it evaluates to in every execution. -/
def Turned (f : LinkedFunc) (world : World) (insn left : Insn) : Prop :=
  left = insn ∨ ∃ earlier later rd k, f.toFunc.insns = earlier ++ insn :: later ∧
    folds f.vars (constantAfter f.vars earlier.reverse) insn rd = true ∧ insn.rd = some rd ∧
      foldable insn.opcode = true ∧ left.opcode = .loadConstant ∧ left.rd = some rd ∧
        ∀ {start trace bb rest s}, f.Execution world start trace bb (insn :: rest) s →
          evaluate world f.vars s insn = some k

theorem Keeps.insn {insn : Insn} {later : List Insn} (harmless : f.Harmless)
    (keeps : f.Keeps world table passed) (split : f.toFunc.insns = passed ++ insn :: later) :
    f.Keeps world (sccpInsn table insn).vars (passed ++ [insn]) ∧
      f.Turned world insn (sccpInsn table insn).left := by
  have present : insn ∈ f.toFunc.insns := by
    rw [split]
    simp
  have encoded := f.encoded insn present
  have tracks := keeps.toTracks.insn encoded
  rcases @rounds table insn encoded with ⟨same, -⟩ | ⟨rd, k, left, same, isFold, folded⟩
  · rw [same] at tracks ⊢
    refine ⟨⟨tracks, keeps.truthful, fun v => ?_⟩, Or.inl rfl⟩
    rcases keeps.records v with unchanged | ⟨p, inPassed, rest⟩
    · exact Or.inl unchanged
    · exact Or.inr ⟨p, List.mem_append_left _ inPassed, rest⟩
  · rw [same] at tracks ⊢
    dsimp only at tracks ⊢
    rw [keeps.toTracks.folds_eq] at isFold
    have outside := harmless.outside passed insn later split rd folded.rdEq isFold
    have flaggedAll (flagged : (f.vars rd).isConst = true) : (table rd).isConst = true := by
      rw [keeps.flags, ← List.append_nil passed.reverse]
      exact constantAfter_append _ flagged
    have isLocal : (f.vars rd).isGlobal = false := by
      rcases outside with flagged | outside
      · rcases folded.target with fresh | isLocal
        · rw [flaggedAll flagged] at fresh
          cases fresh
        · exact (keeps.globals rd).symm.trans isLocal
      · rw [resident, Bool.or_eq_false_iff] at outside
        exact outside.1
    have holds : f.Holds world rd k := by
      rcases outside with flagged | outside
      · exact holds_again keeps.truthful folded present (flaggedAll flagged) isLocal
      · exact holds_outside keeps.truthful folded present outside
    refine ⟨⟨tracks, fun v flagged => ?_, fun v => ?_⟩, Or.inr ⟨passed, later, rd, k, split, isFold,
      folded.rdEq, folded.op, folded.isLoad, folded.leftEq, fun run =>
        keeps.truthful.evaluates folded.produces run⟩⟩
    · by_cases target : v = rd
      · subst target
        rw [Vars.setConst_same]
        exact holds
      · rw [Vars.setConst_ne _ _ target] at flagged ⊢
        exact keeps.truthful v flagged
    · by_cases target : v = rd
      · subst target
        exact Or.inr ⟨insn, by simp, folded.rdEq, folded.op, isLocal⟩
      · rw [Vars.setConst_ne _ _ target]
        rcases keeps.records v with unchanged | ⟨p, inPassed, rest⟩
        · exact Or.inl unchanged
        · exact Or.inr ⟨p, List.mem_append_left _ inPassed, rest⟩

theorem Keeps.insns {insns later : List Insn} (harmless : f.Harmless)
    (keeps : f.Keeps world table passed) (split : f.toFunc.insns = passed ++ (insns ++ later)) :
    f.Keeps world (sccpInsns table insns).vars (passed ++ insns) ∧
      List.Forall₂ (f.Turned world) insns (sccpInsns table insns).left := by
  induction insns generalizing table passed with
  | nil =>
      rw [List.append_nil]
      exact ⟨keeps, .nil⟩
  | cons insn rest inductionHypothesis =>
      obtain ⟨onward, turned⟩ := keeps.insn harmless split
      have split' : f.toFunc.insns = (passed ++ [insn]) ++ (rest ++ later) := by
        rw [split]
        simp
      obtain ⟨after, behind⟩ := inductionHypothesis onward split'
      rw [List.append_assoc, List.singleton_append] at after
      exact ⟨after, .cons turned behind⟩

/-- What the pass makes of a block: only its instructions change. -/
def TurnedBlock (f : LinkedFunc) (world : World) (source target : BlockId × Block) : Prop :=
  ∃ insns, target = (source.1, { source.2 with insns := insns }) ∧
    List.Forall₂ (f.Turned world) source.2.insns insns ∧
      ∀ last, source.2.insns.getLast? = some last → last.opcode = .branch →
        insns.getLast? = some last

theorem Keeps.blocks {before bbs : List BlockId} (harmless : f.Harmless)
    (keeps : f.Keeps world table (f.codeOf before)) (split : f.order = before ++ bbs) :
    f.Keeps world (simpleSccp table (bbs.map fun bb => (bb, f.block bb))).vars
        (f.codeOf (before ++ bbs)) ∧
      List.Forall₂ (f.TurnedBlock world) (bbs.map fun bb => (bb, f.block bb))
        (simpleSccp table (bbs.map fun bb => (bb, f.block bb))).left := by
  induction bbs generalizing table before with
  | nil =>
      rw [List.append_nil]
      exact ⟨keeps, .nil⟩
  | cons bb rest inductionHypothesis =>
      have code : f.toFunc.insns = f.codeOf before ++ ((f.block bb).insns ++ f.codeOf rest) := by
        rw [Func.insns, split]
        simp [codeOf]
      obtain ⟨onward, turned⟩ := keeps.insns harmless code
      have through : f.codeOf before ++ (f.block bb).insns = f.codeOf (before ++ [bb]) := by
        simp [codeOf]
      rw [through] at onward
      have encoded : ∀ insn ∈ (f.block bb).insns, Encoded insn := by
        intro insn present
        apply f.encoded insn
        rw [code]
        simp [present]
      have unfolded := @foldBranch_keeps (sccpInsns table (f.block bb).insns).vars
        { f.block bb with insns := (sccpInsns table (f.block bb).insns).left }
      have whole : (sccpBlock table (f.block bb)).left =
          { f.block bb with insns := (sccpInsns table (f.block bb).insns).left } := by
        apply unfolded
        intro last x isLast isBranch rs1Eq
        rw [onward.flags]
        exact harmless.unbranched before bb rest split last x
          ((getLast_sccpInsns table encoded isBranch).mp isLast) isBranch rs1Eq
      have vars : (sccpBlock table (f.block bb)).vars =
          (sccpInsns table (f.block bb).insns).vars := by
        rw [sccpBlock, foldBranch_vars]
      rw [← vars] at onward
      have split' : f.order = (before ++ [bb]) ++ rest := by
        rw [split]
        simp
      obtain ⟨after, behind⟩ := inductionHypothesis onward split'
      rw [List.append_assoc, List.singleton_append] at after
      refine ⟨after, .cons ⟨_, congrArg (Prod.mk bb) whole, turned, ?_⟩ behind⟩
      intro last isLast isBranch
      exact (getLast_sccpInsns table encoded isBranch).mpr isLast

/-! ## Meaning preservation -/

section Congruence

variable {vars vars' : Vars} (sameHomes : ∀ v, resident vars' v = resident vars v)

include sameHomes

theorem value_congr (s : State) (v : VarId) :
    s.value world vars' v = s.value world vars v := by
  unfold State.value
  rw [sameHomes]

theorem assign_congr (s : State) (v : VarId) (w : Word) :
    s.assign world vars' v w = s.assign world vars v w := by
  unfold State.assign
  rw [sameHomes]

/-- An instruction does the same under records that agree on what it looks at. -/
theorem exec_congr {insn : Insn} (sameFunctions : ∀ v, (vars' v).isFunc = (vars v).isFunc)
    (sameLoads : insn.opcode = .loadConstant ∨ insn.opcode = .loadDataAddress ∨
      insn.opcode = .loadRodataAddress →
        ∀ rd, insn.rd = some rd → (vars' rd).initVal = (vars rd).initVal) {s s' : State}
    (step : Exec world vars insn s s') : Exec world vars' insn s s' := by
  have values : s.value world vars' = s.value world vars :=
    funext fun v => value_congr sameHomes s v
  have same : evaluate world vars' s insn = evaluate world vars s insn := by
    rcases insn with ⟨op, rd, rs1, rs2, sz, str, useful, idx⟩
    cases rd with
    | none => cases op <;> simp only [evaluate, values, Option.map_none]
    | some rd =>
        have record := fun loads => sameLoads loads rd rfl
        cases op <;> first
          | (simp only [evaluate, values]; done)
          | simp [evaluate, record]
  cases step with
  | assigns rdEq value =>
      rw [← assign_congr sameHomes]
      exact .assigns rdEq (same.trans value)
  | declares isAllocat rdEq scalar => exact .declares isAllocat rdEq scalar
  | @writes rs1 rs2 isWrite rs1Eq rs2Eq =>
      have stored : s.stored world vars rs2 = s.stored world vars' rs2 := by
        unfold State.stored
        rw [sameFunctions, values]
      rw [stored, ← values]
      exact .writes isWrite rs1Eq rs2Eq
  | pushes isPush rs1Eq =>
      rw [← values]
      exact .pushes isPush rs1Eq
  | calls isCall effect => exact .calls isCall effect
  | callsIndirect isIndirect rs1Eq effect =>
      rw [← values] at effect
      exact .callsIndirect isIndirect rs1Eq effect

end Congruence

/-- A turned instruction does what the instruction does. -/
theorem Keeps.sameStep (keeps : f.Keeps world f.result.vars f.toFunc.insns) {insn left : Insn}
    {bb : BlockId} (turned : f.Turned world insn left) : f.SameStep world bb insn left := by
  intro start trace rest s run s'
  have inside := run.path.inside.2.1 insn List.mem_cons_self
  rcases turned with rfl | ⟨earlier, later, rd, k, split, isFold, rdEq, op, isLoad, leftEq, value⟩
  · -- The records of what it loads have not changed: nothing folded defines it too.
    have sameLoads (loads : left.opcode = .loadConstant ∨ left.opcode = .loadDataAddress ∨
        left.opcode = .loadRodataAddress) (rd : VarId) (rdEq : left.rd = some rd) :
        (f.result.vars rd).initVal = (f.vars rd).initVal := by
      rcases keeps.records rd with same | ⟨p, present, pEq, op, isLocal⟩
      · exact same
      · obtain rfl := definition_unique present inside pEq rdEq op isLocal
        rcases loads with same | same | same <;> rw [same] at op <;> cases op
    constructor
    · exact exec_congr (fun v => (keeps.resident v).symm) (fun v => (keeps.functions v).symm)
        fun loads rd rdEq => (sameLoads loads rd rdEq).symm
    · exact exec_congr keeps.resident keeps.functions sameLoads
  · have evaluates := value run
    have flagged : (f.result.vars rd).isConst = true := by
      rw [keeps.flags, split, List.reverse_append, List.reverse_cons, List.append_assoc,
        List.singleton_append]
      apply constantAfter_append
      rw [constantAfter, isFold, rdEq]
      simp
    have constant : k = (f.result.vars rd).initVal := by
      have behind := keeps.truthful rd flagged
        (.exec run ((exec_foldable op rdEq evaluates).mpr rfl) trivial)
        fun _ => ⟨insn, List.mem_cons_self, rdEq⟩
      rwa [State.value_assign_same] at behind
    rw [exec_foldable op rdEq evaluates, constant]
    rw [exec_iff_of_not_acting (by simp [acting, isLoad]) leftEq]
    simp [evaluate, isLoad, leftEq, assign_congr keeps.resident]

theorem exists_of_forall₂ {α β : Type} {R : α → β → Prop} {sources : List α} {targets : List β}
    (related : List.Forall₂ R sources targets) {target : β} (present : target ∈ targets) :
    ∃ source ∈ sources, R source target := by
  induction related with
  | nil => cases present
  | cons head _ inductionHypothesis =>
      rcases List.mem_cons.mp present with rfl | present
      · exact ⟨_, List.mem_cons_self, head⟩
      · obtain ⟨source, found, rest⟩ := inductionHypothesis present
        exact ⟨source, List.mem_cons_of_mem _ found, rest⟩

/-- A pass that finds nothing it should not fold preserves the meaning. -/
theorem Harmless.preserves (harmless : f.Harmless) (truthful : f.Truthful world f.vars) :
    f.Preserves world := by
  have start : f.Keeps world f.vars (f.codeOf []) :=
    ⟨f.tracks_start, truthful, fun _ => Or.inl rfl⟩
  obtain ⟨after, turned⟩ := @Keeps.blocks f world f.vars [] f.order harmless start rfl
  have keeps : f.Keeps world f.result.vars f.toFunc.insns := after
  refine ⟨turned.imp ?_, fun v flagged fresh => ⟨keeps.truthful v flagged, ?_⟩, ?_, turned.imp ?_⟩
  · rintro source _ ⟨insns, rfl, each, -⟩
    refine ⟨rfl, each.imp ?_⟩
    intro insn left turned
    exact keeps.sameStep turned
  · rw [keeps.flags] at flagged
    rcases constantAfter_cases flagged with old | ⟨later, insn, earlier, split, rdEq, isFold⟩
    · rw [old] at fresh
      cases fresh
    · have split' : f.toFunc.insns = earlier.reverse ++ insn :: later.reverse := by
        have reversed := congrArg List.reverse split
        simpa [Func.insns, codeOf] using reversed
      rw [← List.reverse_reverse earlier] at isFold
      rcases harmless.outside _ insn _ split' v rdEq isFold with old | outside
      · rw [old] at fresh
        cases fresh
      · exact outside
  · intro entry present kind succ
    obtain ⟨source, inBlocks, insns, rfl, -⟩ := exists_of_forall₂ turned present
    have linked := f.linked source inBlocks kind succ
    rw [← linked]
    cases kind <;> rfl
  · rintro source _ ⟨insns, rfl, -, kept⟩ last left isLast isLeft isBranch isJump
    rw [kept last isLast isBranch] at isLeft
    obtain rfl := Option.some.inj isLeft
    rw [isBranch] at isJump
    cases isJump

/-- Where the flags are truthful, `simple_sccp` preserves the meaning of a function
exactly if it gives no constant to a variable in memory and finds no branch on a
constant. -/
theorem sccp_preserves_iff (truthful : f.Truthful world f.vars) :
    f.Preserves world ↔ f.Harmless :=
  ⟨fun preserves => preserves.harmless, fun harmless => harmless.preserves truthful⟩

/-- The function of one block that assigns the constant five to variable `2`. -/
def assignsFive (isGlobal : Bool) : LinkedFunc where
  entry := 0
  block _ := { insns := [{ opcode := .loadConstant, rd := some 1 },
    { opcode := .assign, rd := some 2, rs1 := some 1 }] }
  rest := []
  closed := by
    intro bb _ succ edge
    simp [Block.successors] at edge
  vars v :=
    if v = 1 then { isConst := true, initVal := 5 }
    else if v = 2 then { isGlobal := isGlobal }
    else {}
  prev _ := []
  ssa :=
    { single := by simp [Func.insns, Func.order, SingleAssignment]
      shaped := by
        intro insn present
        simp only [Func.insns, Func.order, List.flatMap_cons, List.flatMap_nil, List.append_nil,
          List.mem_cons, List.not_mem_nil, or_false] at present
        rcases present with rfl | rfl
        · exact Shaped.load_of rfl rfl rfl
        · exact Shaped.assign rfl }
  strict := SsaFunc.strict_of_straight rfl rfl
    (by simp [uses])
    (by simp [uses])
  encoded := by
    intro insn present
    simp only [Func.insns, Func.order, List.flatMap_cons, List.flatMap_nil, List.append_nil,
      List.mem_cons, List.not_mem_nil, or_false] at present
    rcases present with rfl | rfl <;> exact nofun
  linked := by
    intro entry present kind succ
    simp only [Func.order, List.map_cons, List.map_nil, List.mem_singleton] at present
    subst present
    cases kind <;> simp [along]
  branches := by
    intro bb _ last isLast isBranch
    simp only [List.getLast?_cons_cons, List.getLast?_singleton, Option.some.injEq] at isLast
    subst isLast
    cases isBranch

theorem assignsFive_truthful (isGlobal : Bool) (world : World) :
    (assignsFive isGlobal).Truthful world (assignsFive isGlobal).vars := by
  intro v flagged
  have isFirst : v = 1 := by
    by_contra other
    simp only [assignsFive, if_neg other] at flagged
    split at flagged <;> cases flagged
  subst isFirst
  intro start trace bb rest s run defined
  replace defined := defined ⟨_, List.mem_cons_self, rfl⟩
  induction run with
  | start =>
      obtain ⟨_, impossible, -⟩ := defined
      cases impossible
  | @exec trace bb insn rest s s' before step _ inductionHypothesis =>
      have inside := before.path.inside.2.1 insn List.mem_cons_self
      simp only [assignsFive, Func.insns, Func.order, List.flatMap_cons, List.flatMap_nil,
        List.append_nil, List.mem_cons, List.not_mem_nil, or_false] at inside
      rcases inside with rfl | rfl
      · rw [exec_loadConstant_iff.mp step]
        exact State.value_assign_same _ _ _ _ _
      · rw [@exec_value world (assignsFive isGlobal).vars _ s s' 1 step (by decide) rfl]
        apply inductionHypothesis
        obtain ⟨definition, passed, definitionEq⟩ := defined
        rcases List.mem_cons.mp passed with rfl | passed
        · cases definitionEq
        · exact ⟨definition, passed, definitionEq⟩
  | jump _ _ inductionHypothesis => exact inductionHypothesis defined
  | @branch trace bb succ insn _ rest s before isBranch _ _ _ =>
      have inside := before.path.inside.2.1 insn List.mem_cons_self
      simp only [assignsFive, Func.insns, Func.order, List.flatMap_cons, List.flatMap_nil,
        List.append_nil, List.mem_cons, List.not_mem_nil, or_false] at inside
      rcases inside with rfl | rfl <;> cases isBranch

/-- The assignment to a local variable is as good as the load it becomes. -/
theorem assignsFive_iff :
    (assignsFive false).Preserves SsaFunc.plainWorld ↔ (assignsFive false).Harmless :=
  sccp_preserves_iff (assignsFive_truthful false SsaFunc.plainWorld)

/-- The global keeps the flag although memory and callees may change it. -/
theorem assignsFive_not_preserved :
    ¬∀ (f : LinkedFunc) (world : World), f.Truthful world f.vars → f.Preserves world := by
  intro preserved
  have preserves := preserved _ SsaFunc.plainWorld (assignsFive_truthful true _)
  have inMemory := (preserves.truthful 2 rfl rfl).2
  cases inMemory

end LinkedFunc

end Shecc.Optimize
