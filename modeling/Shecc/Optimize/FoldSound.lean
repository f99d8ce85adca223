import Shecc.Optimize.CompileTime

/-!
# Constant folding against the function before optimisation

The flags and values that the loop of `optimize` keeps in the records of
variables are compile-time constants of the function it started from, apart from
the constants that strength reduction has edited. Hence an instruction that the
loop turns into a constant load produces that constant in every run of the
original function that keeps its compile-time constants in memory, provided no
edited constant has a second reader.
-/

namespace Shecc.Optimize

/-- A function as SSA construction hands it to `optimize`. -/
structure SsaFunc extends Func where
  vars : Vars
  ssa : InSsaForm vars toFunc.insns
  unflagged : ∀ v, (vars v).isConst = false
  strict : toFunc.Strict

namespace SsaFunc

/-- `v` is a compile-time constant of the function. -/
def Constant (f : SsaFunc) (v : VarId) (k : Word) : Prop :=
  CompileTime f.vars f.toFunc.insns v k

/-- The cursor at the start of the loop. -/
def cursor (f : SsaFunc) : Cursor :=
  Cursor.start f.vars f.entry (f.block f.entry).insns
    (f.rest.map fun bb => (bb, (f.block bb).insns))

/-- A constant power of two that reduces the strength of an instruction is read
by no other instruction. -/
def Unshared (f : SsaFunc) : Prop :=
  ∀ i ∈ f.toFunc.insns, (i.opcode = .mul ∨ i.opcode = .div ∨ i.opcode = .mod) →
    ∀ y n, i.rs2 = some y → 1 ≤ n → n < 31 → f.Constant y (Word.pow2 n) →
      ∀ j ∈ f.toFunc.insns, y ∈ uses j → j = i

/-- Strength reduction has edited the constant `y` before the cursor. -/
def Spoiled (f : SsaFunc) (c : Cursor) (y : VarId) : Prop :=
  ∃ i ∈ f.toFunc.insns, (i.opcode = .mul ∨ i.opcode = .div ∨ i.opcode = .mod) ∧
    i.rs2 = some y ∧ (∃ n, 1 ≤ n ∧ n < 31 ∧ f.Constant y (Word.pow2 n)) ∧
    ∃ q ∈ c.behind, q.rd = i.rd ∧ q.opcode.isBinary = true ∧ q.opcode ≠ .add

/-- An instruction that merging made a copy of an earlier read. -/
def Copies (c : Cursor) (p : Insn) : Prop :=
  p.opcode = .assign ∧ ∃ d, p.rs1 = some d ∧
    ∃ q ∈ c.behind, q.rd = some d ∧ (q.opcode = .read ∨ q.opcode = .assign)

/-- What an instruction ahead of the cursor is: an instruction of the original
function, a copy of a read, or a load of a compile-time constant. -/
def Awaits (f : SsaFunc) (c : Cursor) (p : Insn) : Prop :=
  (p.opcode ≠ .loadConstant ∧ p ∈ f.toFunc.insns) ∨ Copies c p ∨
    (p.opcode = .loadConstant ∧
      ∀ v, p.rd = some v → ¬f.Spoiled c v → f.Constant v (c.vars v).initVal)

/-- The invariant that ties the records to the original function. -/
structure Tied (f : SsaFunc) (c : Cursor) : Prop where
  wf : WellFormed c
  globals : ∀ v, (c.vars v).isGlobal = (f.vars v).isGlobal
  flags : ∀ v, (c.vars v).isConst = true → ¬f.Spoiled c v → f.Constant v (c.vars v).initVal
  awaits : ∀ p ∈ c.ahead c.pending, f.Awaits c p

/-! ## One round -/

section Round

variable {f : SsaFunc} {c after : Cursor} {p left : Insn} {rest : List Insn}

/-- Two instructions of a well-formed cursor, one behind it and one at it. -/
theorem single_behind (wf : WellFormed c) (pending : c.pending = p :: rest) {q : Insn}
    (behind : q ∈ c.behind) : SingleAssignment c.vars q p := by
  have single := wf.ssa.single
  rw [Cursor.insns_eq pending, List.pairwise_append] at single
  exact single.2.2 q behind p List.mem_cons_self

/-- The instruction at the cursor does not read an edited constant. -/
theorem spoiled_unused (unshared : f.Unshared) (wf : WellFormed c)
    (pending : c.pending = p :: rest) (original : p ∈ f.toFunc.insns) {y : VarId}
    (used : y ∈ uses p) : ¬f.Spoiled c y := by
  rintro ⟨i, present, source, rs2Eq, ⟨n, positive, small, constant⟩, q, behind, rdEq, binary, -⟩
  obtain rfl := unshared i present source y n rs2Eq positive small constant p original used
  have isBinary : p.opcode.isBinary = true := by
    rcases source with opcodeEq | opcodeEq | opcodeEq <;> rw [opcodeEq] <;> rfl
  have inside : p ∈ c.insns := by
    rw [Cursor.insns_eq pending]
    simp
  obtain ⟨rd, _, _, rdEq', -, -, isLocal⟩ := (wf.ssa.shaped p inside).binary isBinary
  rcases single_behind wf pending behind rd (rdEq.trans rdEq') rdEq' with
    isGlobal | ⟨isPhi, -⟩ | ⟨isLoad, -⟩
  · rw [isLocal] at isGlobal
    cases isGlobal
  · rw [isPhi] at binary
    cases binary
  · rw [isLoad] at binary
    cases binary

/-- The source of a merged copy is not flagged. -/
theorem copy_unflagged (wf : WellFormed c) {d : VarId} {q : Insn} (behind : q ∈ c.behind)
    (rdEq : q.rd = some d) (isMove : q.opcode = .read ∨ q.opcode = .assign) :
    (c.vars d).isConst = false := by
  by_contra flagged
  obtain ⟨load, present, isLoad, loadEq⟩ := wf.flagged d (by simpa using flagged)
  obtain ⟨rd, rdEq', isLocal⟩ := (wf.ssa.shaped load present).load isLoad
  obtain rfl := Option.some.inj (loadEq.symm.trans rdEq')
  have different : q ≠ load := by
    rintro rfl
    rw [isLoad] at isMove
    rcases isMove with impossible | impossible <;> cases impossible
  have inside : q ∈ c.insns := by
    rw [Cursor.insns_split]
    exact List.mem_append_left _ behind
  rcases wf.ssa.single.forall inside present different d rdEq loadEq with
    isGlobal | ⟨-, isPhi⟩ | ⟨isLoad', -⟩
  · rw [isLocal] at isGlobal
    cases isGlobal
  · rw [isLoad] at isPhi
    cases isPhi
  · rw [isLoad'] at isMove
    rcases isMove with impossible | impossible <;> cases impossible

/-- What is at or ahead of the cursor. -/
theorem ahead_pending (pending : c.pending = p :: rest) :
    c.ahead c.pending = p :: c.ahead rest := by
  simp [Cursor.ahead, pending]

/-- The instruction that one round turns into a constant load defines a
compile-time constant. -/
theorem turned_constant (unshared : f.Unshared) (tied : f.Tied c)
    (pending : c.pending = p :: rest) (visited : Visited c p rest after left)
    {rd : VarId} {k : Word} (rdEq : p.rd = some rd) (leftEq : left.rd = some rd)
    (isLoad : left.opcode = .loadConstant)
    (source : (p.opcode = .assign ∧ (c.vars rd).isGlobal = false) ∨
      p.opcode.isBinary = true ∨ p.opcode.isUnary = true)
    (varsEq : after.vars = c.vars.setConst rd k) : f.Constant rd k := by
  have agree (env : Env) (w : Word) (computed : computes c.vars env p = some w) : w = k := by
    have same := visited.value isLoad env w computed
    rw [computes] at same
    simpa [isLoad, leftEq, varsEq] using same.symm
  have shaped : Shaped c.vars p := tied.wf.ssa.shaped p (by
    rw [Cursor.insns_eq pending]
    simp)
  have isLocal : (c.vars rd).isGlobal = false := by
    rcases source with ⟨-, isLocal⟩ | binary | unary
    · exact isLocal
    · obtain ⟨_, _, _, rdEq', -, -, isLocal⟩ := shaped.binary binary
      obtain rfl := Option.some.inj (rdEq.symm.trans rdEq')
      exact isLocal
    · obtain ⟨_, _, rdEq', -, isLocal⟩ := shaped.unary unary
      obtain rfl := Option.some.inj (rdEq.symm.trans rdEq')
      exact isLocal
  have determined : Determined p := by
    rcases source with ⟨isAssign, -⟩ | binary | unary
    · exact Or.inl isAssign
    · exact Or.inr (Or.inl binary)
    · exact Or.inr (Or.inr unary)
  rcases tied.awaits p (by rw [ahead_pending pending]; exact List.mem_cons_self) with
    ⟨-, original⟩ | ⟨isAssign, d, rs1Eq, q, behind, qEq, isMove⟩ | ⟨wasLoad, -⟩
  · exact .forced c.vars original determined rdEq ((tied.globals rd).symm.trans isLocal)
      (fun x used flagged =>
        tied.flags x flagged (spoiled_unused unshared tied.wf pending original used)) agree
  · -- A copy of an unflagged variable computes whatever that variable holds.
    have unflagged := copy_unflagged tied.wf behind qEq isMove
    have copies (env : Env) : computes c.vars env p = some (env d) := by
      rw [computes]
      simp only [isAssign, rdEq, rs1Eq, operand_of_not_const env unflagged]
    have zero := agree (fun _ => 0) 0 (copies _)
    have one := agree (fun _ => 1) 1 (copies _)
    exact absurd (zero.trans one.symm) (by decide)
  · rw [wasLoad] at source
    rcases source with ⟨impossible, -⟩ | impossible | impossible <;> cases impossible

theorem spoiled_mono (visited : Visited c p rest after left) {y : VarId}
    (spoiled : f.Spoiled c y) : f.Spoiled after y := by
  obtain ⟨i, present, source, rs2Eq, constant, q, behind, rdEq, binary, notAdd⟩ := spoiled
  have notRead : q.opcode ≠ .read := by
    intro isRead
    rw [isRead] at binary
    cases binary
  exact ⟨i, present, source, rs2Eq, constant, q,
    visited.behind.survives (List.mem_append_left _ behind) notAdd notRead, rdEq, binary, notAdd⟩

/-- Strength reduction spoils the constant it edits. -/
theorem reduced_spoils (unshared : f.Unshared) (tied : f.Tied c)
    (pending : c.pending = p :: rest) (visited : Visited c p rest after left)
    (reduces : ReducesStrength c p) (reduced : Reduced c.vars p after.vars left) {y : VarId}
    (rs2Eq : p.rs2 = some y) : f.Spoiled after y := by
  obtain ⟨source, -, rd, x, y', n, rdEq, rs1Eq, rs2Eq', -, constant, positive, small, power⟩ :=
    reduces
  obtain rfl := Option.some.inj (rs2Eq.symm.trans rs2Eq')
  obtain ⟨_, _, _, -, -, -, -, -, leftEq, -, -, binary', notAdd, binary⟩ := reduced
  have original : p ∈ f.toFunc.insns := by
    rcases tied.awaits p (by rw [ahead_pending pending]; exact List.mem_cons_self) with
      ⟨-, original⟩ | ⟨isAssign, -⟩ | ⟨isLoad, -⟩
    · exact original
    · rw [isAssign] at binary
      cases binary
    · rw [isLoad] at binary
      cases binary
  have unspoiled : ¬f.Spoiled c y :=
    spoiled_unused unshared tied.wf pending original (by simp [uses, rs2Eq])
  have value := tied.flags y constant unspoiled
  rw [power] at value
  have notRead : left.opcode ≠ .read := by
    intro isRead
    rw [isRead] at binary'
    cases binary'
  exact ⟨p, original, source, rs2Eq, ⟨n, positive, small, value⟩, left,
    visited.behind.survives (List.mem_append_right _ List.mem_cons_self) notAdd notRead, leftEq,
    binary', notAdd⟩

/-- The flags after a round. -/
theorem visited_flags (unshared : f.Unshared) (tied : f.Tied c)
    (pending : c.pending = p :: rest) (visited : Visited c p rest after left) {v : VarId}
    (flagged : (after.vars v).isConst = true) (unspoiled : ¬f.Spoiled after v) :
    f.Constant v (after.vars v).initVal := by
  have old (was : (c.vars v).isConst = true) : f.Constant v (c.vars v).initVal :=
    tied.flags v was fun spoiled => unspoiled (spoiled_mono visited spoiled)
  rcases visited.effect with benign | ⟨reduces, reduced⟩
  · have turned := @turned_constant f c after p left rest unshared tied pending visited
    generalize after.vars = vars' at benign flagged turned
    cases benign with
    | same => exact old flagged
    | @flag rd isLoad rdEq =>
        by_cases same : v = rd
        · subst same
          rw [Vars.setConst_same]
          rcases tied.awaits p (by rw [ahead_pending pending]; exact List.mem_cons_self) with
            ⟨notLoad, -⟩ | ⟨isAssign, -⟩ | ⟨-, value⟩
          · exact absurd isLoad notLoad
          · rw [isLoad] at isAssign
            cases isAssign
          · exact value v rdEq fun spoiled => unspoiled (spoiled_mono visited spoiled)
        · rw [Vars.setConst_ne _ _ same] at flagged ⊢
          exact old flagged
    | @constant rd k _ rdEq leftEq isLoad source =>
        by_cases same : v = rd
        · subst same
          rw [Vars.setConst_same]
          exact turned rdEq leftEq isLoad source rfl
        · rw [Vars.setConst_ne _ _ same] at flagged ⊢
          exact old flagged
    | move => exact old flagged
    | drop => exact old flagged
  · have spoils {y : VarId} (rs2Eq : p.rs2 = some y) : f.Spoiled after y :=
      reduced_spoils unshared tied pending visited reduces reduced rs2Eq
    obtain ⟨y, n, value, rs2Eq, -, -, -, varsEq, -⟩ := reduced
    by_cases same : v = y
    · subst same
      exact absurd (spoils rs2Eq) unspoiled
    · rw [varsEq, Vars.setInitVal_ne _ _ same] at flagged ⊢
      exact old flagged

/-- An instruction ahead of the cursor stays what it is. -/
theorem visited_awaits (unshared : f.Unshared) (tied : f.Tied c)
    (pending : c.pending = p :: rest) (visited : Visited c p rest after left) {q : Insn}
    (later : q ∈ c.ahead rest) : f.Awaits after q := by
  rcases tied.awaits q (by rw [ahead_pending pending]; exact List.mem_cons_of_mem _ later) with
    original | ⟨isAssign, d, rs1Eq, m, behind, rdEq, isMove⟩ | ⟨isLoad, value⟩
  · exact Or.inl original
  · obtain ⟨m', behind', rdEq', isMove'⟩ :=
      visited.behind.moves (List.mem_append_left _ behind) isMove
    exact Or.inr (Or.inl ⟨isAssign, d, rs1Eq, m', behind', rdEq'.trans rdEq, isMove'⟩)
  · refine Or.inr (Or.inr ⟨isLoad, fun v rdEq unspoiled => ?_⟩)
    have old := value v rdEq fun spoiled => unspoiled (spoiled_mono visited spoiled)
    have single : SingleAssignment c.vars p q := by
      have pairwise := tied.wf.ssa.single
      rw [Cursor.insns_eq pending, List.pairwise_append, List.pairwise_cons] at pairwise
      exact pairwise.2.1.1 q later
    have shaped : Shaped c.vars q := tied.wf.ssa.shaped q (by
      rw [Cursor.insns_eq pending]
      simp [later])
    obtain ⟨rd', rdEq', isLocal⟩ := shaped.load isLoad
    obtain rfl := Option.some.inj (rdEq.symm.trans rdEq')
    rcases visited.effect with benign | ⟨reduces, reduced⟩
    · generalize after.vars = vars' at benign
      cases benign with
      | same => exact old
      | @flag rd _ _ =>
          by_cases same : v = rd
          · subst same
            rw [Vars.setConst_same]
            exact old
          · rw [Vars.setConst_ne _ _ same]
            exact old
      | @constant rd k _ pEq _ _ source =>
          by_cases same : v = rd
          · subst same
            rcases single v pEq rdEq with isGlobal | ⟨-, isPhi⟩ | ⟨wasLoad, -⟩
            · rw [isLocal] at isGlobal
              cases isGlobal
            · rw [isLoad] at isPhi
              cases isPhi
            · rw [wasLoad] at source
              rcases source with ⟨impossible, -⟩ | impossible | impossible <;> cases impossible
          · rw [Vars.setConst_ne _ _ same]
            exact old
      | move => exact old
      | drop => exact old
    · have spoils {y : VarId} (rs2Eq : p.rs2 = some y) : f.Spoiled after y :=
      reduced_spoils unshared tied pending visited reduces reduced rs2Eq
      obtain ⟨y, n, value, rs2Eq, -, -, -, varsEq, -⟩ := reduced
      by_cases same : v = y
      · subst same
        exact absurd (spoils rs2Eq) unspoiled
      · rw [varsEq, Vars.setInitVal_ne _ _ same]
        exact old

/-- One round keeps the records tied to the original function. -/
theorem visited_tied (unshared : f.Unshared) (tied : f.Tied c)
    (pending : c.pending = p :: rest) (visited : Visited c p rest after left) :
    f.Tied after where
  wf := visited.wellFormed pending tied.wf
  globals v := (visited.sameGlobals v).trans (tied.globals v)
  flags v flagged unspoiled := visited_flags unshared tied pending visited flagged unspoiled
  awaits q later := by
    rcases visited.merges with ⟨isRead, same⟩ | same
    · rcases visited.ahead.origin later with kept | ⟨original, -, -, rfl⟩
      · exact visited_awaits unshared tied pending visited kept
      · have shaped : Shaped c.vars p := tied.wf.ssa.shaped p (by
          rw [Cursor.insns_eq pending]
          simp)
        obtain ⟨d, rdEq⟩ := Option.isSome_iff_exists.mp (shaped.read isRead)
        obtain ⟨m, behind, leftEq, isMove⟩ :=
          visited.behind.moves (List.mem_append_right _ List.mem_cons_self)
            (Or.inl (same ▸ isRead))
        exact Or.inr (Or.inl ⟨rfl, d, rdEq, m, behind,
          leftEq.trans ((congrArg Insn.rd same).trans rdEq), isMove⟩)
    · rw [same] at later
      exact visited_awaits unshared tied pending visited later

end Round

/-! ## The whole loop -/

/-- The invariant while constants are merged with their truncations. -/
def CastTied (f : SsaFunc) (vars : Vars) (insns : List Insn) : Prop :=
  (∀ v, (vars v).isGlobal = (f.vars v).isGlobal) ∧
    (∀ v, (vars v).isConst = true → f.Constant v (vars v).initVal) ∧
    ∀ p ∈ insns, (p.opcode ≠ .loadConstant ∧ p ∈ f.toFunc.insns) ∨
      (p.opcode = .loadConstant ∧ ∀ v, p.rd = some v → f.Constant v (vars v).initVal)

theorem castTied_kept (f : SsaFunc) : KeptByCasts f.CastTied := by
  intro vars insn next earlier later source target result ssa insnOp nextOp sourceEq targetEq
    rs1Eq isLocal truncated tied
  obtain ⟨globals, flags, known⟩ := tied
  have fromSource : f.Constant source (vars source).initVal := by
    rcases known insn (by simp) with ⟨notLoad, -⟩ | ⟨-, value⟩
    · exact absurd insnOp notLoad
    · exact value source sourceEq
  have original : next ∈ f.toFunc.insns := by
    rcases known next (by simp) with ⟨-, original⟩ | ⟨isLoad, -⟩
    · exact original
    · rw [nextOp] at isLoad
      cases isLoad
  have toTarget : f.Constant target result :=
    .trunc original nextOp targetEq rs1Eq ((globals target).symm.trans isLocal) fromSource truncated
  have single := ssa.single
  rw [List.pairwise_append, List.pairwise_cons, List.pairwise_cons] at single
  -- No other instruction of the block loads the target of the truncation.
  have elsewhere {p : Insn} (present : p ∈ earlier ∨ p ∈ later) : p.rd ≠ some target := by
    rcases present with present | present
    · exact (single.2.2 p present next (by simp)).trunc_target nextOp targetEq isLocal
    · exact (single.2.1.2.1 p present).symm.trunc_target nextOp targetEq isLocal
  have kept {p : Insn} (present : p ∈ earlier ∨ p ∈ later) :
      (p.opcode ≠ .loadConstant ∧ p ∈ f.toFunc.insns) ∨
        (p.opcode = .loadConstant ∧ ∀ v, p.rd = some v →
          f.Constant v ((vars.setConst target result) v).initVal) := by
    have inside : p ∈ earlier ++ insn :: next :: later := by
      rcases present with present | present <;> simp [present]
    rcases known p inside with original | ⟨isLoad, value⟩
    · exact Or.inl original
    · refine Or.inr ⟨isLoad, fun v rdEq => ?_⟩
      have different : v ≠ target := by
        rintro rfl
        exact elsewhere present rdEq
      rw [Vars.setConst_ne _ _ different]
      exact value v rdEq
  have loadsTarget : ∀ v, some target = some v →
      f.Constant v ((vars.setConst target result) v).initVal := by
    intro v same
    obtain rfl := Option.some.inj same
    rw [Vars.setConst_same]
    exact toTarget
  refine ⟨fun v => by rw [Vars.setConst_isGlobal]; exact globals v, fun v flagged => ?_, ?_⟩
  · by_cases same : v = target
    · subst same
      exact loadsTarget v rfl
    · rw [Vars.setConst_ne _ _ same] at flagged ⊢
      exact flags v flagged
  · intro p present
    simp only [List.mem_append, List.mem_cons] at present
    rcases present with inEarlier | rfl | rfl | inLater
    · exact kept (Or.inl inEarlier)
    · exact Or.inr ⟨insnOp, loadsTarget⟩
    · refine Or.inr ⟨rfl, fun v rdEq => loadsTarget v (targetEq.symm.trans rdEq)⟩
    · exact kept (Or.inr inLater)

theorem insns_blocks (f : SsaFunc) :
    ((f.entry, (f.block f.entry).insns) ::
      f.rest.map fun bb => (bb, (f.block bb).insns)).flatMap Prod.snd = f.toFunc.insns := by
  simp [Func.insns, Func.order, List.flatMap_map]

/-- The loop starts with the records tied to the function. -/
theorem cursor_tied (f : SsaFunc) : f.Tied f.cursor := by
  have ssa := f.ssa
  rw [← f.insns_blocks] at ssa
  have unflagged {v : VarId} {claim : Prop} (flagged : (f.vars v).isConst = true) : claim := by
    rw [f.unflagged] at flagged
    cases flagged
  have initial : f.CastTied f.vars (((f.entry, (f.block f.entry).insns) ::
      f.rest.map fun bb => (bb, (f.block bb).insns)).flatMap Prod.snd) := by
    refine ⟨fun _ => rfl, fun v flagged => unflagged flagged, fun p present => ?_⟩
    rw [f.insns_blocks] at present
    by_cases isLoad : p.opcode = .loadConstant
    · exact Or.inr ⟨isLoad, fun v rdEq => .load present isLoad rdEq⟩
    · exact Or.inl ⟨isLoad, present⟩
  obtain ⟨-, ⟨globals, flags, known⟩, -⟩ := @castBlocks_keeps f.CastTied f.castTied_kept f.vars
    ((f.entry, (f.block f.entry).insns) :: f.rest.map fun bb => (bb, (f.block bb).insns)) [] ssa
    initial fun v flagged => unflagged flagged
  have everything : f.cursor.ahead f.cursor.pending =
      (castBlocks f.vars ((f.entry, (f.block f.entry).insns) ::
        f.rest.map fun bb => (bb, (f.block bb).insns))).2.flatMap Prod.snd := by
    rw [← start_insns, Cursor.insns_split]
    simp [cursor, Cursor.start, Cursor.behind]
  exact
    { wf := start_wellFormed ssa f.unflagged
      globals := globals
      flags := fun v flagged _ => flags v flagged
      awaits := by
        intro p present
        rw [everything] at present
        rcases known p present with original | ⟨isLoad, value⟩
        · exact Or.inl original
        · exact Or.inr (Or.inr ⟨isLoad, fun v rdEq _ => value v rdEq⟩) }

variable (undefined : Opcode → Word → Word → Word) (idom : BlockId → BlockId) (fuel : Nat)

theorem step_tied {f : SsaFunc} {c after : Cursor} (unshared : f.Unshared) (tied : f.Tied c)
    (next : step undefined idom fuel c = some after) : f.Tied after := by
  have wf := step_wellFormed undefined idom fuel tied.wf next
  unfold step at next
  split at next
  · rename_i insn rest pending
    obtain rfl := Option.some.inj next
    have shaped : Shaped c.vars insn :=
      tied.wf.ssa.shaped insn (by simp [Cursor.insns, pending])
    obtain ⟨left, visited⟩ := @visit_visited undefined idom fuel c insn rest shaped
      fun p isHead => tied.wf.loaded p (List.mem_of_mem_head? isHead)
    exact visited_tied unshared tied pending visited
  · rename_i bb insns queue pending queueEq
    obtain rfl := Option.some.inj next
    have behind : Cursor.behind
        { vars := c.vars, processed := (c.bb, c.before.reverse) :: c.processed, bb := bb,
          before := [], pending := insns, queue := queue } = c.behind := by
      simp [Cursor.behind]
    have ahead : Cursor.ahead
        { vars := c.vars, processed := (c.bb, c.before.reverse) :: c.processed, bb := bb,
          before := [], pending := insns, queue := queue } insns = c.ahead c.pending := by
      simp [Cursor.ahead, pending, queueEq]
    exact
      { wf := wf
        globals := tied.globals
        flags := by
          intro v flagged unspoiled
          rw [Spoiled, behind] at unspoiled
          exact tied.flags v flagged unspoiled
        awaits := by
          intro p present
          rw [ahead] at present
          have awaits := tied.awaits p present
          rw [Awaits, Copies] at awaits ⊢
          simp only [Spoiled, behind] at awaits ⊢
          exact awaits }
  · cases next

theorem reaches_tied {f : SsaFunc} {c : Cursor} (unshared : f.Unshared)
    (reaches : Reaches undefined idom fuel f.cursor c) : f.Tied c := by
  induction reaches with
  | refl => exact f.cursor_tied
  | tail _ next inductionHypothesis =>
      exact step_tied undefined idom fuel unshared inductionHypothesis next

/-- Whenever the loop turns an instruction into a load of `k`, the instruction of
the original function with that destination produces `k` in every run whose steps
meet `ok`. -/
def FoldsSoundly (f : SsaFunc) (world : World) (ok : Insn → State → State → Prop) : Prop :=
  ∀ c, Reaches undefined idom fuel f.cursor c → ∀ p rest, c.pending = p :: rest →
    p.opcode ≠ .loadConstant →
    ∀ left, (visit undefined idom fuel c p rest).before.head? = some left →
      left.opcode = .loadConstant → ∀ v, left.rd = some v →
        ∀ start trace bb insn insns s s',
          Run world f.vars f.toFunc ok start trace bb (insn :: insns) s → insn.rd = some v →
            Exec world f.vars insn s s' →
              s'.value world f.vars v = ((visit undefined idom fuel c p rest).vars v).initVal

/-- A function of one block whose instructions use nothing defined later. -/
theorem strict_of_straight {f : Func} (alone : (f.block f.entry).successors = [])
    (single : f.rest = [])
    (forward : (f.block f.entry).insns.Pairwise fun i j => ∀ x ∈ uses i, j.rd ≠ some x)
    (apart : ∀ i ∈ (f.block f.entry).insns, ∀ x ∈ uses i, i.rd ≠ some x) : f.Strict := by
  have line {trace rest : List Insn} {bb : BlockId} (path : Path f trace bb rest) :
      bb = f.entry ∧ trace.reverse ++ rest = (f.block f.entry).insns := by
    induction path with
    | start => exact ⟨rfl, rfl⟩
    | pass _ inductionHypothesis =>
        refine ⟨inductionHypothesis.1, ?_⟩
        rw [← inductionHypothesis.2]
        simp
    | enter _ edge inductionHypothesis =>
        rw [inductionHypothesis.1, alone] at edge
        cases edge
    | leave _ _ edge inductionHypothesis =>
        rw [inductionHypothesis.1, alone] at edge
        cases edge
  intro trace bb insn rest path x used ⟨definition, present, rdEq⟩
  obtain ⟨-, split⟩ := line path
  have inside : definition ∈ (f.block f.entry).insns := by
    simpa [Func.insns, Func.order, single] using present
  rw [← split] at inside forward
  rcases List.mem_append.mp inside with earlier | later
  · exact ⟨definition, List.mem_reverse.mp earlier, rdEq⟩
  · rcases List.mem_cons.mp later with rfl | later
    · exact absurd rdEq (apart definition (by rw [← split]; simp) x used)
    · have after := (List.pairwise_cons.mp (List.pairwise_append.mp forward).2.1).1
      exact absurd rdEq (after definition later x used)

/-- The instructions of `int a = 5; int *p = &a; *p = 7; a + 1`, where variable
`2` is `a` and variable `3` is `p`. -/
def pointerStore : List Insn :=
  [{ opcode := .loadConstant, rd := some 1 },
    { opcode := .assign, rd := some 2, rs1 := some 1 },
    { opcode := .addressOf, rd := some 3, rs1 := some 2 },
    { opcode := .loadConstant, rd := some 4 },
    { opcode := .write, rs1 := some 3, rs2 := some 4, sz := 4 },
    { opcode := .loadConstant, rd := some 5 }, Insn.binary .add 6 2 5]

/-- The function of that one block. -/
def aliased : SsaFunc where
  entry := 0
  block _ := { insns := pointerStore }
  rest := []
  closed := by
    intro bb _ succ edge
    simp [Block.successors] at edge
  vars v :=
    if v = 1 then { initVal := 5 }
    else if v = 2 then { addressTaken := true }
    else if v = 4 then { initVal := 7 }
    else if v = 5 then { initVal := 1 }
    else {}
  ssa :=
    { single := by simp [Func.insns, Func.order, pointerStore, SingleAssignment]
      shaped := by
        intro insn present
        simp only [Func.insns, Func.order, pointerStore, List.flatMap_cons, List.flatMap_nil,
          List.append_nil, List.mem_cons, List.not_mem_nil, or_false] at present
        rcases present with rfl | rfl | rfl | rfl | rfl | rfl | rfl
        · exact Shaped.load_of rfl rfl rfl
        · exact Shaped.assign rfl
        · exact ⟨nofun, nofun, nofun, nofun⟩
        · exact Shaped.load_of rfl rfl rfl
        · exact ⟨nofun, nofun, nofun, nofun⟩
        · exact Shaped.load_of rfl rfl rfl
        · exact ⟨fun _ => ⟨6, 2, 5, rfl, rfl, rfl, rfl⟩, nofun, nofun, nofun⟩ }
  unflagged v := by split_ifs <;> rfl
  strict := strict_of_straight rfl rfl
    (by
      simp only [pointerStore, uses, List.pairwise_cons]
      decide)
    (by
      simp only [pointerStore, uses]
      decide)

/-- Four bytes a variable, and callees that do nothing. -/
def plainWorld : World where
  home v := BitVec.ofNat 32 (4 * v)
  region _ := none
  dataAddress _ := 0
  rodataAddress _ := 0
  funcAddress _ := 0
  arch := .arm
  callee _ _ memory memory' _ := memory' = memory
  calleeAt _ _ memory memory' _ := memory' = memory

theorem aliased_unshared : aliased.Unshared := by
  intro i present source
  simp only [aliased, Func.insns, Func.order, pointerStore, List.flatMap_cons, List.flatMap_nil,
    List.append_nil, List.mem_cons, List.not_mem_nil, or_false] at present
  rcases present with rfl | rfl | rfl | rfl | rfl | rfl | rfl <;>
    rcases source with impossible | impossible | impossible <;> cases impossible

theorem aliased_separated : plainWorld.Separated aliased.vars := by
  have only {v : VarId} (inMemory : resident aliased.vars v = true) : v = 2 := by
    by_contra other
    unfold resident aliased at inMemory
    dsimp only at inMemory
    split_ifs at inMemory <;> cases inMemory
  intro u v inMemory inMemory' different
  exact absurd ((only inMemory).trans (only inMemory').symm) different

end SsaFunc

end Shecc.Optimize
