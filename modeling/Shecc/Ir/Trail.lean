import Shecc.Ir.Exec

/-!
# Trails through a function

A trail leads from one point of control to a later one and lists the instructions
it passes; a path is a trail from the entry. Trails can be cut at an instruction
they pass and joined at a common point, which is how dominance is used: a point
that every path to a target passes cannot be bypassed by joining two trails.
-/

namespace Shecc

/-- A point of control: a block and the instructions left in it. -/
structure Point where
  bb : BlockId
  rest : List Insn

/-- The point at the head of a block. -/
def Func.head (f : Func) (bb : BlockId) : Point := ⟨bb, (f.block bb).insns⟩

/-- Control can get from `source` to the point, passing the instructions of the
trace, latest first. -/
inductive Trail (f : Func) (source : Point) : List Insn → Point → Prop where
  | here : Trail f source [] source
  | pass {trace : List Insn} {bb : BlockId} {insn : Insn} {rest : List Insn}
      (before : Trail f source trace ⟨bb, insn :: rest⟩) :
      Trail f source (insn :: trace) ⟨bb, rest⟩
  | enter {trace : List Insn} {bb succ : BlockId} (before : Trail f source trace ⟨bb, []⟩)
      (edge : succ ∈ (f.block bb).successors) : Trail f source trace (f.head succ)
  | leave {trace : List Insn} {bb succ : BlockId} {insn : Insn} {rest : List Insn}
      (before : Trail f source trace ⟨bb, insn :: rest⟩) (isBranch : insn.opcode = .branch)
      (edge : succ ∈ (f.block bb).successors) :
      Trail f source (insn :: trace) (f.head succ)

namespace Trail

variable {f : Func} {source middle target : Point} {trace trace' : List Insn}

theorem append (first : Trail f source trace middle) (second : Trail f middle trace' target) :
    Trail f source (trace' ++ trace) target := by
  induction second with
  | here => exact first
  | pass _ inductionHypothesis => exact .pass inductionHypothesis
  | enter _ edge inductionHypothesis => exact .enter inductionHypothesis edge
  | leave _ isBranch edge inductionHypothesis => exact .leave inductionHypothesis isBranch edge

/-- A trail can be cut in front of an instruction it passes. -/
theorem cut {insn : Insn} (trail : Trail f source trace target) (passed : insn ∈ trace) :
    ∃ bb rest before behind, trace = behind ++ before ∧
      Trail f source before ⟨bb, insn :: rest⟩ ∧ Trail f ⟨bb, insn :: rest⟩ behind target ∧
        behind ≠ [] := by
  induction trail with
  | here => cases passed
  | @pass trace bb other rest before inductionHypothesis =>
      by_cases same : insn = other
      · subst same
        exact ⟨bb, rest, trace, [insn], rfl, before, .pass .here, nofun⟩
      · obtain ⟨bb', rest', front, behind, rfl, first, second, -⟩ :=
          inductionHypothesis ((List.mem_cons.mp passed).resolve_left same)
        exact ⟨bb', rest', front, other :: behind, rfl, first, .pass second, nofun⟩
  | enter _ edge inductionHypothesis =>
      obtain ⟨bb', rest', front, behind, rfl, first, second, nonempty⟩ :=
        inductionHypothesis passed
      exact ⟨bb', rest', front, behind, rfl, first, .enter second edge, nonempty⟩
  | @leave trace bb succ other rest before isBranch edge inductionHypothesis =>
      by_cases same : insn = other
      · subst same
        exact ⟨bb, rest, trace, [insn], rfl, before, .leave .here isBranch edge, nofun⟩
      · obtain ⟨bb', rest', front, behind, rfl, first, second, -⟩ :=
          inductionHypothesis ((List.mem_cons.mp passed).resolve_left same)
        exact ⟨bb', rest', front, other :: behind, rfl, first, .leave second isBranch edge,
          nofun⟩

end Trail

section Path

variable {f : Func} {trace : List Insn} {bb : BlockId} {rest : List Insn}

theorem path_iff_trail : Path f trace bb rest ↔ Trail f (f.head f.entry) trace ⟨bb, rest⟩ := by
  constructor
  · intro path
    induction path with
    | start => exact .here
    | pass _ inductionHypothesis => exact .pass inductionHypothesis
    | enter _ edge inductionHypothesis => exact .enter inductionHypothesis edge
    | leave _ isBranch edge inductionHypothesis => exact .leave inductionHypothesis isBranch edge
  · intro trail
    generalize atEq : (⟨bb, rest⟩ : Point) = target at trail
    induction trail generalizing bb rest with
    | here =>
        cases atEq
        exact .start
    | pass _ inductionHypothesis =>
        cases atEq
        exact .pass (inductionHypothesis rfl)
    | enter _ edge inductionHypothesis =>
        cases atEq
        exact .enter (inductionHypothesis rfl) edge
    | leave _ isBranch edge inductionHypothesis =>
        cases atEq
        exact .leave (inductionHypothesis rfl) isBranch edge

/-- A path followed by a trail is a path. -/
theorem Path.append {trace' : List Insn} {bb' : BlockId} {rest' : List Insn}
    (path : Path f trace bb rest) (trail : Trail f ⟨bb, rest⟩ trace' ⟨bb', rest'⟩) :
    Path f (trace' ++ trace) bb' rest' :=
  path_iff_trail.mpr ((path_iff_trail.mp path).append trail)

/-- The instructions of the block before the point have been passed. -/
theorem Path.passed (path : Path f trace bb rest) :
    ∃ done, (f.block bb).insns = done ++ rest ∧ ∀ insn ∈ done, insn ∈ trace := by
  induction path with
  | start => exact ⟨[], rfl, by simp⟩
  | @pass trace bb insn rest _ inductionHypothesis =>
      obtain ⟨done, split, passed⟩ := inductionHypothesis
      refine ⟨done ++ [insn], by simp [split], fun other present => ?_⟩
      rcases List.mem_append.mp present with present | present
      · exact List.mem_cons_of_mem _ (passed other present)
      · exact List.mem_cons.mpr (Or.inl (List.mem_singleton.mp present))
  | enter => exact ⟨[], rfl, by simp⟩
  | leave => exact ⟨[], rfl, by simp⟩

/-- The first time a path gets to an instruction it has not passed it yet. -/
theorem Path.first {insn : Insn} (path : Path f trace bb (insn :: rest)) :
    ∃ trace' bb' rest', Path f trace' bb' (insn :: rest') ∧ insn ∉ trace' := by
  generalize size : trace.length = length
  induction length using Nat.strong_induction_on generalizing trace bb rest with
  | _ length inductionHypothesis =>
      by_cases passed : insn ∈ trace
      · obtain ⟨bb', rest', before, behind, rfl, first, -, nonempty⟩ :=
          (path_iff_trail.mp path).cut passed
        have shorter : before.length < length := by
          have positive := List.length_pos_iff.mpr nonempty
          rw [← size, List.length_append]
          omega
        exact inductionHypothesis _ shorter (path_iff_trail.mpr first) rfl
      · exact ⟨trace, bb, rest, path, passed⟩

end Path

/-! ## Dominance -/

/-- A walk from the entry along the edges, latest block first. -/
inductive Walk (f : Func) : List BlockId → Prop where
  | start : Walk f [f.entry]
  | step {bb succ : BlockId} {earlier : List BlockId} (before : Walk f (bb :: earlier))
      (edge : succ ∈ (f.block bb).successors) : Walk f (succ :: bb :: earlier)

/-- Every walk to `b` comes through `a`. -/
def Dominates (f : Func) (a b : BlockId) : Prop :=
  ∀ earlier, Walk f (b :: earlier) → a ∈ b :: earlier

/-- Branches stand at the end of their blocks. -/
def Func.BranchLast (f : Func) : Prop :=
  ∀ bb before insn behind, (f.block bb).insns = before ++ insn :: behind →
    insn.opcode = .branch → behind = []

section Dominance

variable {f : Func}

theorem Walk.suffix {later earlier : List BlockId} {bb : BlockId}
    (walk : Walk f (later ++ bb :: earlier)) : Walk f (bb :: earlier) := by
  induction later with
  | nil => exact walk
  | cons first rest inductionHypothesis =>
      apply inductionHypothesis
      cases rest with
      | nil =>
          cases walk with
          | step before _ => exact before
      | cons second rest =>
          cases walk with
          | step before _ => exact before

theorem Dominates.refl (f : Func) (bb : BlockId) : Dominates f bb bb :=
  fun _ _ => List.mem_cons_self

theorem Dominates.trans {a b c : BlockId} (first : Dominates f a b) (second : Dominates f b c) :
    Dominates f a c := by
  intro earlier walk
  obtain ⟨later, rest, split⟩ := List.append_of_mem (second earlier walk)
  rw [split] at walk ⊢
  exact List.mem_append_right _ (first rest walk.suffix)

/-- The blocks a path has left have been passed as a whole. -/
theorem Path.walk (branchLast : f.BranchLast) {trace : List Insn} {bb : BlockId}
    {rest : List Insn} (path : Path f trace bb rest) :
    ∃ earlier, Walk f (bb :: earlier) ∧
      ∀ block ∈ earlier, ∀ insn ∈ (f.block block).insns, insn ∈ trace := by
  induction path with
  | start => exact ⟨[], .start, by simp⟩
  | pass _ inductionHypothesis =>
      obtain ⟨earlier, walk, passed⟩ := inductionHypothesis
      exact ⟨earlier, walk, fun block present insn inside =>
        List.mem_cons_of_mem _ (passed block present insn inside)⟩
  | @enter trace bb succ before edge inductionHypothesis =>
      obtain ⟨earlier, walk, passed⟩ := inductionHypothesis
      obtain ⟨done, split, through⟩ := before.passed
      refine ⟨bb :: earlier, .step walk edge, fun block present insn inside => ?_⟩
      rcases List.mem_cons.mp present with rfl | present
      · rw [split, List.append_nil] at inside
        exact through insn inside
      · exact passed block present insn inside
  | @leave trace bb succ last rest before isBranch edge inductionHypothesis =>
      obtain ⟨earlier, walk, passed⟩ := inductionHypothesis
      obtain ⟨done, split, through⟩ := before.passed
      refine ⟨bb :: earlier, .step walk edge, fun block present insn inside => ?_⟩
      rcases List.mem_cons.mp present with rfl | present
      · rw [split, branchLast block done last rest split isBranch] at inside
        rcases List.mem_append.mp inside with inside | inside
        · exact List.mem_cons_of_mem _ (through insn inside)
        · exact List.mem_cons.mpr (Or.inl (List.mem_singleton.mp inside))
      · exact List.mem_cons_of_mem _ (passed block present insn inside)

/-- A path to a block passes the whole of every other block that dominates it. -/
theorem Dominates.passed (branchLast : f.BranchLast) {a b : BlockId} (dominates : Dominates f a b)
    (different : a ≠ b) {trace rest : List Insn} (path : Path f trace b rest) :
    ∀ insn ∈ (f.block a).insns, insn ∈ trace := by
  obtain ⟨earlier, walk, passed⟩ := path.walk branchLast
  exact passed a ((List.mem_cons.mp (dominates earlier walk)).resolve_left different)

end Dominance

/-! ## Executions between two points -/

/-- An instruction as it was passed: the state before it and behind it. -/
structure Passage where
  insn : Insn
  before : State
  after : State

/-- An execution from `source` in state `start` to a later point. The log lists
what it passed, latest first. -/
inductive Logged (world : World) (vars : Vars) (f : Func) (source : Point) (start : State) :
    List Passage → Point → State → Prop where
  | here : Logged world vars f source start [] source start
  | exec {log : List Passage} {bb : BlockId} {insn : Insn} {rest : List Insn} {s s' : State}
      (earlier : Logged world vars f source start log ⟨bb, insn :: rest⟩ s)
      (step : Exec world vars insn s s') :
      Logged world vars f source start (⟨insn, s, s'⟩ :: log) ⟨bb, rest⟩ s'
  | jump {log : List Passage} {bb succ : BlockId} {s : State}
      (earlier : Logged world vars f source start log ⟨bb, []⟩ s)
      (edge : (f.block bb).next = some succ) :
      Logged world vars f source start log (f.head succ) s
  | branch {log : List Passage} {bb succ : BlockId} {insn : Insn} {rs1 : VarId}
      {rest : List Insn} {s : State}
      (earlier : Logged world vars f source start log ⟨bb, insn :: rest⟩ s)
      (isBranch : insn.opcode = .branch) (rs1Eq : insn.rs1 = some rs1)
      (edge : (if (s.value world vars rs1).truth then (f.block bb).then_
        else (f.block bb).else_) = some succ) :
      Logged world vars f source start (⟨insn, s, s⟩ :: log) (f.head succ) s

namespace Logged

variable {world : World} {vars : Vars} {f : Func} {source target : Point} {start s : State}
  {log : List Passage}

/-- Executions follow trails. -/
theorem trail (logged : Logged world vars f source start log target s) :
    Trail f source (log.map Passage.insn) target := by
  induction logged with
  | here => exact .here
  | exec _ _ inductionHypothesis => exact .pass inductionHypothesis
  | jump _ edge inductionHypothesis =>
      exact .enter inductionHypothesis (by simp [Block.successors, edge])
  | branch _ isBranch _ edge inductionHypothesis =>
      refine .leave inductionHypothesis isBranch ?_
      split at edge <;> simp [Block.successors, edge]

/-- What is in the log was executed, or was a branch that changed nothing. -/
theorem passed (logged : Logged world vars f source start log target s) {p : Passage}
    (present : p ∈ log) :
    Exec world vars p.insn p.before p.after ∨ (p.insn.opcode = .branch ∧ p.after = p.before) := by
  induction logged with
  | here => cases present
  | exec _ step inductionHypothesis =>
      rcases List.mem_cons.mp present with rfl | present
      · exact Or.inl step
      · exact inductionHypothesis present
  | jump _ _ inductionHypothesis => exact inductionHypothesis present
  | branch _ isBranch _ _ inductionHypothesis =>
      rcases List.mem_cons.mp present with rfl | present
      · exact Or.inr ⟨isBranch, rfl⟩
      · exact inductionHypothesis present

/-- What every step keeps is kept. -/
theorem kept {α : Type} {g : State → α} (logged : Logged world vars f source start log target s)
    (each : ∀ p ∈ log, g p.after = g p.before) : g s = g start := by
  induction logged with
  | here => rfl
  | exec _ step inductionHypothesis =>
      have last := each _ List.mem_cons_self
      exact last.trans (inductionHypothesis fun p present =>
        each p (List.mem_cons_of_mem _ present))
  | jump _ _ inductionHypothesis => exact inductionHypothesis each
  | branch _ _ _ _ inductionHypothesis =>
      exact inductionHypothesis fun p present => each p (List.mem_cons_of_mem _ present)

/-- An execution can be cut at an instruction it passed, other than a branch. -/
theorem cut {since earlier : List Passage} {p : Passage}
    (logged : Logged world vars f source start log target s)
    (split : log = since ++ p :: earlier) (notBranch : p.insn.opcode ≠ .branch) :
    ∃ bb rest, Logged world vars f source start earlier ⟨bb, p.insn :: rest⟩ p.before ∧
      Exec world vars p.insn p.before p.after ∧
        Logged world vars f ⟨bb, rest⟩ p.after since target s := by
  induction logged generalizing since with
  | here => simp at split
  | exec before step inductionHypothesis =>
      cases since with
      | nil =>
          obtain ⟨rfl, rfl⟩ := List.cons.inj split
          exact ⟨_, _, before, step, .here⟩
      | cons first since =>
          obtain ⟨rfl, behind⟩ := List.cons.inj split
          obtain ⟨bb, rest, up, executed, onward⟩ := inductionHypothesis behind
          exact ⟨bb, rest, up, executed, .exec onward step⟩
  | jump _ edge inductionHypothesis =>
      obtain ⟨bb, rest, up, executed, onward⟩ := inductionHypothesis split
      exact ⟨bb, rest, up, executed, .jump onward edge⟩
  | branch before isBranch rs1Eq edge inductionHypothesis =>
      cases since with
      | nil =>
          obtain ⟨rfl, rfl⟩ := List.cons.inj split
          exact absurd isBranch notBranch
      | cons first since =>
          obtain ⟨rfl, behind⟩ := List.cons.inj split
          obtain ⟨bb, rest, up, executed, onward⟩ := inductionHypothesis behind
          exact ⟨bb, rest, up, executed, .branch onward isBranch rs1Eq edge⟩

end Logged

/-- An execution of the function, from its start. -/
abbrev Func.Runs (f : Func) (world : World) (vars : Vars) (start : State) (log : List Passage)
    (bb : BlockId) (rest : List Insn) (s : State) : Prop :=
  Logged world vars f (f.head f.entry) start log ⟨bb, rest⟩ s

namespace Func.Runs

variable {f : Func} {world : World} {vars : Vars} {start s : State} {log : List Passage}
  {bb : BlockId} {rest : List Insn}

theorem path (runs : f.Runs world vars start log bb rest s) :
    Path f (log.map Passage.insn) bb rest :=
  path_iff_trail.mpr runs.trail

/-- In the middle of a block the instruction before the point has just been
executed. -/
theorem last {done : List Insn} {insn : Insn} (runs : f.Runs world vars start log bb rest s)
    (block : (f.block bb).insns = done ++ insn :: rest) :
    ∃ log' s', log = ⟨insn, s', s⟩ :: log' ∧ f.Runs world vars start log' bb (insn :: rest) s' ∧
      Exec world vars insn s' s := by
  have inside : (f.block bb).insns ≠ rest := by
    intro whole
    have lengths := congrArg List.length (block.symm.trans whole)
    simp only [List.length_append, List.length_cons] at lengths
    omega
  generalize atEq : (⟨bb, rest⟩ : Point) = target at runs
  cases runs with
  | here =>
      cases atEq
      exact absurd rfl inside
  | exec earlier step =>
      cases atEq
      obtain ⟨done', split, -⟩ := Path.passed (path earlier)
      obtain ⟨-, same⟩ := List.append_inj' (block.symm.trans split) (by simp)
      obtain ⟨rfl, -⟩ := List.cons.inj same
      exact ⟨_, _, rfl, earlier, step⟩
  | jump _ _ =>
      cases atEq
      exact absurd rfl inside
  | branch _ _ _ _ =>
      cases atEq
      exact absurd rfl inside

end Func.Runs

end Shecc
