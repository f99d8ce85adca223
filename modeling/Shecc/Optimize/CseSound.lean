import Shecc.Ir.Step
import Shecc.Optimize.FoldSound

/-!
# Eliminated operations

`cse` turns a binary operation into a copy of the result of an earlier operation
of the block with the same operands. The operands are the same variables, and
SSA form keeps the block from redefining them, but a variable whose address is
taken may be written through a pointer in between. The copy has the value of the
operation in every execution of the block, as rewritten so far, that leaves the
operands and the result of the earlier operation alone where they live in memory.
-/

namespace Shecc.Optimize

/-! ## The order of a block -/

/-- An instruction `j` behind `i` defines no operand of the operation `i`. Globals
are exempt, and so are the unwound phis, which no operation follows. -/
structure Precedes (vars : Vars) (i j : Insn) : Prop where
  operands : i.opcode.isBinary = true → ∀ x ∈ uses i, j.rd = some x →
    (vars x).isGlobal = true ∨ j.opcode = .unwoundPhi
  phis : i.opcode = .unwoundPhi → j.opcode.isBinary = false

/-- A block as SSA construction orders it: what an operation reads is defined
before it. -/
structure Ordered (vars : Vars) (insns : List Insn) : Prop where
  precedes : insns.Pairwise (Precedes vars)
  apart : ∀ i ∈ insns, i.opcode.isBinary = true → ∀ x ∈ uses i, i.rd ≠ some x

/-- `left` may stand where `insn` stood. -/
structure Replaces (insn left : Insn) : Prop where
  rd : ∀ v, left.rd = some v → insn.rd = some v
  binary : left.opcode.isBinary = true →
    insn.opcode.isBinary = true ∧ left.rs1 = insn.rs1 ∧ left.rs2 = insn.rs2
  phi : left.opcode = .unwoundPhi ↔ insn.opcode = .unwoundPhi

namespace Precedes

variable {vars vars' : Vars} {i j : Insn}

theorem mono (sameGlobals : ∀ v, (vars' v).isGlobal = (vars v).isGlobal)
    (precedes : Precedes vars i j) : Precedes vars' i j where
  operands := by
    intro binary x used rdEq
    rw [sameGlobals]
    exact precedes.operands binary x used rdEq
  phis := precedes.phis

/-- Nothing is asked of what follows an instruction of another kind. -/
theorem of_plain (notBinary : i.opcode.isBinary = false) (notPhi : i.opcode ≠ .unwoundPhi) :
    Precedes vars i j where
  operands := by
    intro binary
    rw [notBinary] at binary
    cases binary
  phis := fun isPhi => absurd isPhi notPhi

/-- Replacing the later instruction. -/
theorem replace_right {left : Insn} (replaces : Replaces j left)
    (precedes : Precedes vars i j) : Precedes vars i left where
  operands := by
    intro binary x used rdEq
    rcases precedes.operands binary x used (replaces.rd x rdEq) with isGlobal | isPhi
    · exact Or.inl isGlobal
    · exact Or.inr (replaces.phi.mpr isPhi)
  phis := by
    intro isPhi
    by_contra binary
    have wasBinary := (replaces.binary (by simpa using binary)).1
    rw [precedes.phis isPhi] at wasBinary
    cases wasBinary

/-- Replacing the earlier instruction. -/
theorem replace_left {left : Insn} (replaces : Replaces i left)
    (precedes : Precedes vars i j) : Precedes vars left j where
  operands := by
    intro binary x used rdEq
    obtain ⟨wasBinary, rs1Eq, rs2Eq⟩ := replaces.binary binary
    rw [uses, rs1Eq, rs2Eq] at used
    exact precedes.operands wasBinary x used rdEq
  phis := fun isPhi => precedes.phis (replaces.phi.mp isPhi)

end Precedes

namespace Replaces

theorem refl (insn : Insn) : Replaces insn insn where
  rd := fun _ rdEq => rdEq
  binary := fun binary => ⟨binary, rfl, rfl⟩
  phi := Iff.rfl

/-- An instruction that is no operation and no phi may replace another with that
destination or none. -/
theorem of_plain {insn left : Insn} (rd : ∀ v, left.rd = some v → insn.rd = some v)
    (notBinary : left.opcode.isBinary = false) (notPhi : left.opcode ≠ .unwoundPhi)
    (wasNotPhi : insn.opcode ≠ .unwoundPhi) : Replaces insn left where
  rd := rd
  binary := by
    intro binary
    rw [notBinary] at binary
    cases binary
  phi := ⟨fun isPhi => absurd isPhi notPhi, fun isPhi => absurd isPhi wasNotPhi⟩

/-- A read and its copy. -/
theorem of_read {insn : Insn} (definition : Option VarId) (isRead : insn.opcode = .read) :
    Replaces insn { insn with opcode := .assign, rs1 := definition } :=
  of_plain (fun _ rdEq => rdEq) rfl nofun (by rw [isRead]; nofun)

end Replaces

/-- What a round puts in the place of an instruction. -/
theorem Visited.replaces {c after : Cursor} {insn left : Insn} {rest : List Insn}
    (visited : Visited c insn rest after left) : Replaces insn left := by
  have notPhi {op : Opcode} (binary : op.isBinary = true) : op ≠ .unwoundPhi := by
    rintro rfl
    cases binary
  rcases visited.rewrites with same | ⟨destination, wasNotPhi, -⟩
  · rw [same]
    exact .refl insn
  · rcases visited.effect with benign |
      ⟨-, y, n, value, -, -, -, -, -, rdEq, rs1Eq, rs2Eq, binary', -, binary⟩
    · generalize after.vars = vars' at benign
      cases benign with
      | same => exact .refl insn
      | flag => exact .refl insn
      | constant _ _ isLoad _ =>
          exact .of_plain destination (by rw [isLoad]; rfl) (by rw [isLoad]; nofun) wasNotPhi
      | move _ isMove _ =>
          rcases isMove with isAssign | ⟨isNegate, -⟩
          · exact .of_plain destination (by rw [isAssign]; rfl) (by rw [isAssign]; nofun) wasNotPhi
          · exact .of_plain destination (by rw [isNegate]; rfl) (by rw [isNegate]; nofun) wasNotPhi
      | drop _ isAssign _ =>
          exact .of_plain destination (by rw [isAssign]; rfl) (by rw [isAssign]; nofun) wasNotPhi
    · exact
        { rd := destination
          binary := fun _ => ⟨binary, rs1Eq, rs2Eq⟩
          phi := ⟨fun isPhi => absurd isPhi (notPhi binary'),
            fun isPhi => absurd isPhi wasNotPhi⟩ }

namespace Ordered

variable {vars vars' : Vars} {insns : List Insn}

theorem mono (sameGlobals : ∀ v, (vars' v).isGlobal = (vars v).isGlobal)
    (ordered : Ordered vars insns) : Ordered vars' insns where
  precedes := ordered.precedes.imp fun precedes => precedes.mono sameGlobals
  apart := ordered.apart

/-- Merging array reads keeps the order. -/
theorem merged {target : List Insn} {definition : Option VarId}
    (merged : Merged definition insns target) (ordered : Ordered vars insns) :
    Ordered vars target where
  precedes := by
    apply merged.pairwise _ _ ordered.precedes
    · intro a b isRead precedes
      exact precedes.replace_left (.of_read definition isRead)
    · intro a b isRead precedes
      exact precedes.replace_right (.of_read definition isRead)
  apart := by
    intro i present binary
    rcases merged.origin present with kept | ⟨original, -, -, rfl⟩
    · exact ordered.apart i kept binary
    · cases binary

/-- Rewriting one instruction keeps the order. -/
theorem replace {earlier later : List Insn} {insn left : Insn} (replaces : Replaces insn left)
    (ordered : Ordered vars (earlier ++ insn :: later)) :
    Ordered vars (earlier ++ left :: later) where
  precedes := by
    have precedes := ordered.precedes
    rw [List.pairwise_append, List.pairwise_cons] at precedes ⊢
    rcases precedes with ⟨before, ⟨across, behind⟩, between⟩
    refine ⟨before, ⟨fun j present => (across j present).replace_left replaces, behind⟩, ?_⟩
    intro i present j inLater
    rcases List.mem_cons.mp inLater with rfl | inLater
    · exact (between i present insn List.mem_cons_self).replace_right replaces
    · exact between i present j (List.mem_cons_of_mem _ inLater)
  apart := by
    intro i present binary x used rdEq
    rcases List.mem_append.mp present with inEarlier | present
    · exact ordered.apart i (List.mem_append_left _ inEarlier) binary x used rdEq
    · rcases List.mem_cons.mp present with rfl | inLater
      · obtain ⟨wasBinary, rs1Eq, rs2Eq⟩ := replaces.binary binary
        rw [uses, rs1Eq, rs2Eq] at used
        exact ordered.apart insn (by simp) wasBinary x used (replaces.rd x rdEq)
      · exact ordered.apart i (by simp [inLater]) binary x used rdEq

end Ordered

/-! ## Constant casts keep the order -/

/-- An instruction behind the pass over constant casts was there before, or loads
a constant into the destination of a truncation. -/
theorem constantCasts_origin {table : Vars} {insn j : Insn} {rest : List Insn}
    (present : j ∈ (constantCasts table insn rest).2) :
    j ∈ insn :: rest ∨
      (j.opcode = .loadConstant ∧ ∃ t ∈ insn :: rest, t.opcode = .trunc ∧ j.rd = t.rd) := by
  induction rest generalizing table insn with
  | nil => exact Or.inl present
  | cons next rest inductionHypothesis =>
      have move (present : j ∈ insn :: (constantCasts table next rest).2) :
          j ∈ insn :: next :: rest ∨ (j.opcode = .loadConstant ∧
            ∃ t ∈ insn :: next :: rest, t.opcode = .trunc ∧ j.rd = t.rd) := by
        rcases List.mem_cons.mp present with rfl | present
        · exact Or.inl List.mem_cons_self
        · rcases inductionHypothesis present with kept | ⟨isLoad, t, inRest, isTrunc⟩
          · exact Or.inl (List.mem_cons_of_mem _ kept)
          · exact Or.inr ⟨isLoad, t, List.mem_cons_of_mem _ inRest, isTrunc⟩
      simp only [constantCasts] at present
      split at present
      · rename_i source target insnOp nextOp sourceEq targetEq
        split at present
        · split at present
          · rcases List.mem_cons.mp present with rfl | present
            · exact Or.inr ⟨insnOp, next, by simp, nextOp, targetEq.symm⟩
            · rcases inductionHypothesis present with kept | ⟨isLoad, t, inRest, isTrunc⟩
              · rcases List.mem_cons.mp kept with rfl | kept
                · exact Or.inr ⟨rfl, next, by simp, nextOp, rfl⟩
                · exact Or.inl (by simp [kept])
              · rcases List.mem_cons.mp inRest with rfl | inRest
                · cases isTrunc.1
                · exact Or.inr ⟨isLoad, t, by simp [inRest], isTrunc⟩
          · exact move present
        · exact move present
      · exact move present

/-- Merging constants with truncations keeps the order. -/
theorem constantCasts_ordered {vars table : Vars} {insn : Insn} {rest : List Insn}
    (ordered : Ordered vars (insn :: rest)) : Ordered vars (constantCasts table insn rest).2 := by
  induction rest generalizing table insn with
  | nil => exact ordered
  | cons next rest inductionHypothesis =>
      obtain ⟨across, behind⟩ := List.pairwise_cons.mp ordered.precedes
      have tail : Ordered vars (next :: rest) :=
        ⟨behind, fun i present => ordered.apart i (List.mem_cons_of_mem _ present)⟩
      have move : Ordered vars (insn :: (constantCasts table next rest).2) := by
        have onward := @inductionHypothesis table next tail
        constructor
        · refine List.pairwise_cons.mpr ⟨fun j present => ?_, onward.precedes⟩
          rcases constantCasts_origin present with kept | ⟨isLoad, t, inRest, isTrunc, rdEq⟩
          · exact across j kept
          · have precedes := across t inRest
            constructor
            · intro binary x used jEq
              rcases precedes.operands binary x used (rdEq.symm.trans jEq) with isGlobal | isPhi
              · exact Or.inl isGlobal
              · cases isTrunc.symm.trans isPhi
            · intro _
              rw [isLoad]
              rfl
        · intro i present
          rcases List.mem_cons.mp present with rfl | present
          · exact ordered.apart i List.mem_cons_self
          · exact onward.apart i present
      -- Two loads ask nothing of what follows them.
      have merge {target : VarId} {vars' : Vars} (insnOp : insn.opcode = .loadConstant) :
          Ordered vars ({ insn with rd := some target } ::
            (constantCasts vars' { next with opcode := .loadConstant, rs1 := none, sz := 0 }
              rest).2) := by
        have onward := @inductionHypothesis vars'
          { next with opcode := .loadConstant, rs1 := none, sz := 0 }
          { precedes := List.pairwise_cons.mpr
              ⟨fun j _ => .of_plain rfl nofun, (List.pairwise_cons.mp behind).2⟩
            apart := by
              intro i present binary
              rcases List.mem_cons.mp present with rfl | present
              · cases binary
              · exact ordered.apart i (by simp [present]) binary }
        constructor
        · refine List.pairwise_cons.mpr ⟨fun j _ => ?_, onward.precedes⟩
          exact .of_plain (by simp only [insnOp]; rfl) (by simp [insnOp])
        · intro i present binary
          rcases List.mem_cons.mp present with rfl | present
          · simp only [insnOp] at binary
            cases binary
          · exact onward.apart i present binary
      simp only [constantCasts]
      split
      · rename_i source target insnOp nextOp sourceEq targetEq
        split
        · split
          · exact merge insnOp
          · exact move
        · exact move
      · exact move

theorem castBlocks_ordered {vars table : Vars} {blocks : List (BlockId × List Insn)}
    (ordered : ∀ block ∈ blocks, Ordered vars block.2) :
    ∀ block ∈ (castBlocks table blocks).2, Ordered vars block.2 := by
  induction blocks generalizing table with
  | nil => exact ordered
  | cons block rest inductionHypothesis =>
      obtain ⟨bb, insns⟩ := block
      intro block present
      rw [castBlocks] at present
      rcases List.mem_cons.mp present with rfl | present
      · have head := ordered (bb, insns) List.mem_cons_self
        cases insns with
        | nil => exact head
        | cons insn tail => exact constantCasts_ordered head
      · exact inductionHypothesis (fun block found => ordered block (List.mem_cons_of_mem _ found))
          block present

/-! ## The loop keeps the order -/

/-- Every block at or behind the queue of the cursor is ordered, and the loop has
not moved a variable into or out of memory. -/
structure Arranged (vars : Vars) (c : Cursor) : Prop where
  current : Ordered vars (c.before.reverse ++ c.pending)
  queue : ∀ block ∈ c.queue, Ordered vars block.2
  globals : ∀ v, (c.vars v).isGlobal = (vars v).isGlobal
  resident : ∀ v, resident c.vars v = resident vars v

theorem resident_setConst (vars : Vars) (rd v : VarId) (k : Word) :
    resident (vars.setConst rd k) v = resident vars v := by
  unfold resident
  by_cases same : v = rd
  · subst same
    simp
  · simp [same]

theorem resident_setInitVal (vars : Vars) (y v : VarId) (k : Word) :
    resident (vars.setInitVal y k) v = resident vars v := by
  unfold resident
  by_cases same : v = y
  · subst same
    simp
  · simp [same]

theorem Visited.resident {c after : Cursor} {insn left : Insn} {rest : List Insn}
    (visited : Visited c insn rest after left) (v : VarId) :
    resident after.vars v = resident c.vars v := by
  rcases visited.effect with benign | ⟨-, y, n, value, -, -, -, -, varsEq, -⟩
  · generalize after.vars = vars' at benign
    cases benign <;> first | rfl | exact resident_setConst _ _ _ _
  · rw [varsEq]
    exact resident_setInitVal _ _ _ _

section Loop

variable (undefined : Opcode → Word → Word → Word) (idom : BlockId → BlockId) (fuel : Nat)

/-- A round replaces the instruction under the cursor, or merges the reads around
it as well. -/
theorem visit_shape (c : Cursor) (insn : Insn) (rest : List Insn) :
    (∃ vars left, visit undefined idom fuel c insn rest =
      { c with vars := vars, before := left :: c.before, pending := rest }) ∨
    ∃ vars base idx definition left, visit undefined idom fuel c insn rest =
      { vars := vars
        processed := c.processed.map (mergeBlock idom fuel c.bb base idx definition)
        bb := c.bb
        before := left :: (c.before.take 1 ++
          (mergeReads base idx definition (c.before.drop 1).reverse).reverse)
        pending := mergeReads base idx definition rest
        queue := c.queue.map (mergeBlock idom fuel c.bb base idx definition) } := by
  unfold visit
  simp only
  split
  · exact Or.inl ⟨_, _, rfl⟩
  · split
    · exact Or.inr ⟨_, _, _, _, _, rfl⟩
    · split
      · exact Or.inl ⟨_, _, rfl⟩
      · exact Or.inl ⟨_, _, rfl⟩

/-- The blocks after a round. -/
theorem visit_ordered {vars : Vars} {c : Cursor} {insn left : Insn} {rest : List Insn}
    (pending : c.pending = insn :: rest)
    (visited : Visited c insn rest (visit undefined idom fuel c insn rest) left)
    (arranged : Arranged vars c) : Arranged vars (visit undefined idom fuel c insn rest) := by
  have current := arranged.current
  rw [pending] at current
  have replaced := current.replace visited.replaces
  have head := visited.head
  refine ⟨?_, ?_, fun v => (visited.sameGlobals v).trans (arranged.globals v),
    fun v => (visited.resident v).trans (arranged.resident v)⟩
  · rcases visit_shape undefined idom fuel c insn rest with
      ⟨vars', left', same⟩ | ⟨vars', base, idx, definition, left', same⟩
    · rw [same] at head ⊢
      obtain rfl := Option.some.inj head
      simpa using replaced
    · rw [same] at head ⊢
      obtain rfl := Option.some.inj head
      have split : c.before.reverse = (c.before.drop 1).reverse ++ (c.before.take 1).reverse := by
        rw [← List.reverse_append, List.take_append_drop]
      rw [split] at replaced
      have merged := ((mergeReads_merged base idx definition (c.before.drop 1).reverse).append
        (Merged.refl ((c.before.take 1).reverse ++ [left']))).append
          (mergeReads_merged base idx definition rest)
      have onward := Ordered.merged (by simpa using merged) replaced
      simpa using onward
  · rcases visit_shape undefined idom fuel c insn rest with
      ⟨vars', left', same⟩ | ⟨vars', base, idx, definition, left', same⟩
    · rw [same]
      exact arranged.queue
    · rw [same]
      intro block present
      obtain ⟨source, found, rfl⟩ := List.mem_map.mp present
      exact (arranged.queue source found).merged
        (mergeBlock_merged idom fuel c.bb base idx definition source)

theorem step_arranged {vars : Vars} {c after : Cursor} (wf : WellFormed c)
    (arranged : Arranged vars c) (next : step undefined idom fuel c = some after) :
    Arranged vars after := by
  unfold step at next
  split at next
  · rename_i insn rest pending
    obtain rfl := Option.some.inj next
    have shaped : Shaped c.vars insn := wf.ssa.shaped insn (by simp [Cursor.insns, pending])
    obtain ⟨left, visited⟩ := @visit_visited undefined idom fuel c insn rest shaped
      fun p isHead => wf.loaded p (List.mem_of_mem_head? isHead)
    exact visit_ordered undefined idom fuel pending visited arranged
  · rename_i bb insns queue pending queueEq
    obtain rfl := Option.some.inj next
    have queued := arranged.queue
    rw [queueEq] at queued
    exact
      { current := queued (bb, insns) List.mem_cons_self
        queue := fun block present => queued block (List.mem_cons_of_mem _ present)
        globals := arranged.globals
        resident := arranged.resident }
  · cases next

end Loop

/-! ## The value of the copy -/

/-- Instructions are executed one after the other, and every step meets `ok`. -/
inductive ExecutesMeeting (world : World) (vars : Vars) (ok : Insn → State → State → Prop) :
    List Insn → State → State → Prop where
  | nil (s : State) : ExecutesMeeting world vars ok [] s s
  | cons {insn : Insn} {rest : List Insn} {s s' s'' : State} (step : Exec world vars insn s s')
      (meets : ok insn s s') (behind : ExecutesMeeting world vars ok rest s' s'') :
      ExecutesMeeting world vars ok (insn :: rest) s s''

/-- A step leaves the operands and the result of `other` alone where they live in
memory. -/
def Spares (world : World) (vars : Vars) (other _insn : Insn) (s s' : State) : Prop :=
  ∀ v, v ∈ uses other ∨ other.rd = some v → resident vars v = true →
    s'.value world vars v = s.value world vars v

section Value

variable {world : World} {vars : Vars}

/-- A variable outside memory changes only where it is defined. -/
theorem exec_value {insn : Insn} {s s' : State} {v : VarId} (step : Exec world vars insn s s')
    (other : insn.rd ≠ some v) (outside : resident vars v = false) :
    s'.value world vars v = s.value world vars v := by
  simp only [State.value, outside, Bool.false_eq_true, if_false]
  cases step with
  | @assigns rd w rdEq _ =>
      have different : v ≠ rd := by
        rintro rfl
        exact other rdEq
      unfold State.assign
      split
      · rfl
      · simp [different]
  | declares => rfl
  | writes => rfl
  | pushes => rfl
  | calls => rfl
  | callsIndirect => rfl

/-- Code that defines none of the variables of `other` and spares them in memory
keeps their values. -/
theorem ExecutesMeeting.value {other : Insn} {code : List Insn} {s s' : State} {v : VarId}
    (executes : ExecutesMeeting world vars (Spares world vars other) code s s')
    (watched : v ∈ uses other ∨ other.rd = some v) (fresh : ∀ j ∈ code, j.rd ≠ some v) :
    s'.value world vars v = s.value world vars v := by
  induction executes with
  | nil => rfl
  | @cons insn rest s s' s'' step meets _ inductionHypothesis =>
      have onward := inductionHypothesis fun j present => fresh j (List.mem_cons_of_mem _ present)
      rw [onward]
      by_cases inMemory : resident vars v = true
      · exact meets v watched inMemory
      · exact exec_value step (fresh insn List.mem_cons_self) (by simpa using inMemory)

theorem evaluate_binary {s : State} {insn : Insn} {x y : VarId}
    (binary : insn.opcode.isBinary = true) (rs1Eq : insn.rs1 = some x)
    (rs2Eq : insn.rs2 = some y) :
    evaluate world vars s insn =
      insn.opcode.binary (s.value world vars x) (s.value world vars y) := by
  rcases insn with ⟨op, rd, rs1, rs2, sz, str, useful, idx⟩
  cases rs1Eq
  cases rs2Eq
  cases op <;> first | rfl | cases binary

/-- The operators whose operands `cse` swaps are commutative. -/
theorem binary_comm {op : Opcode} (commutes : isCommutative op = true) (l r : Word) :
    op.binary l r = op.binary r l := by
  cases op <;> simp only [isCommutative, Bool.false_eq_true] at commutes <;>
    simp only [Opcode.binary, Option.some.injEq]
  case add => exact BitVec.add_comm l r
  case mul => exact BitVec.mul_comm l r
  case bitAnd => exact BitVec.and_comm l r
  case bitOr => exact BitVec.or_comm l r
  case bitXor => exact BitVec.xor_comm l r
  case eq => rw [Bool.beq_comm]
  case neq => rw [bne_comm]
  case logAnd => rw [Bool.and_comm]
  case logOr => rw [Bool.or_comm]

/-- What the match says of an operation and the earlier one. -/
structure Matches (insn other : Insn) : Prop where
  opcode : other.opcode = insn.opcode
  operands : (other.rs1 = insn.rs1 ∧ other.rs2 = insn.rs2) ∨
    (isCommutative insn.opcode = true ∧ other.rs1 = insn.rs2 ∧ other.rs2 = insn.rs1)

theorem matches_of_operandsMatch {insn other : Insn} (found : operandsMatch insn other = true) :
    Matches insn other := by
  simp only [operandsMatch, Bool.and_eq_true, Bool.or_eq_true, beq_iff_eq] at found
  rcases found with ⟨⟨⟨⟨opcode, -⟩, -⟩, -⟩, operands⟩
  constructor
  · exact opcode
  · rcases operands with straight | ⟨⟨commutes, rs1Eq⟩, rs2Eq⟩
    · exact Or.inl straight
    · exact Or.inr ⟨commutes, rs1Eq, rs2Eq⟩

/-- Matching operations have the same value in one state. -/
theorem Matches.evaluate {insn other : Insn} (found : Matches insn other) {s : State}
    {x y : VarId} (binary : insn.opcode.isBinary = true) (rs1Eq : insn.rs1 = some x)
    (rs2Eq : insn.rs2 = some y) :
    evaluate world vars s other = evaluate world vars s insn := by
  have otherBinary : other.opcode.isBinary = true := by
    rw [found.opcode]
    exact binary
  rw [evaluate_binary binary rs1Eq rs2Eq]
  rcases found.operands with ⟨first, second⟩ | ⟨commutes, first, second⟩
  · rw [evaluate_binary otherBinary (first.trans rs1Eq) (second.trans rs2Eq), found.opcode]
  · rw [evaluate_binary otherBinary (first.trans rs2Eq) (second.trans rs1Eq), found.opcode]
    exact binary_comm commutes _ _

/-- Behind the earlier operation and code that keeps its operands and its result,
the result is the value the later operation has. -/
theorem Matches.kept {insn other : Insn} (found : Matches insn other)
    (separated : world.Separated vars) {x y z : VarId} (binary : insn.opcode.isBinary = true)
    (rs1Eq : insn.rs1 = some x) (rs2Eq : insn.rs2 = some y) (rdEq : other.rd = some z)
    (apart : ∀ v ∈ uses other, v ≠ z) {later : List Insn}
    (fresh : ∀ v, v ∈ uses other ∨ other.rd = some v → ∀ j ∈ later, j.rd ≠ some v)
    {s₁ s₂ s₃ : State} (step : Exec world vars other s₁ s₂)
    (executes : ExecutesMeeting world vars (Spares world vars other) later s₂ s₃) :
    some (s₃.value world vars z) = Shecc.evaluate world vars s₃ insn := by
  have otherBinary : other.opcode.isBinary = true := by
    rw [found.opcode]
    exact binary
  have computes : other.opcode ∉ acting := by
    intro isActing
    simp only [acting, List.mem_cons, List.not_mem_nil, or_false] at isActing
    rcases isActing with same | same | same | same | same <;> rw [same] at otherBinary <;>
      cases otherBinary
  obtain ⟨w, value, rfl⟩ := (exec_iff_of_not_acting computes rdEq).mp step
  have result : s₃.value world vars z = w := by
    rw [executes.value (Or.inr rdEq) (fresh z (Or.inr rdEq))]
    exact State.value_assign_same world vars s₁ z w
  have operand {v : VarId} (used : v ∈ uses other) :
      s₃.value world vars v = s₁.value world vars v := by
    rw [executes.value (Or.inl used) (fresh v (Or.inl used))]
    exact State.value_assign_ne separated s₁ w (apart v used)
  have both : x ∈ uses other ∧ y ∈ uses other := by
    rcases found.operands with ⟨first, second⟩ | ⟨-, first, second⟩ <;>
      simp [uses, first, second, rs1Eq, rs2Eq]
  rw [found.evaluate binary rs1Eq rs2Eq, evaluate_binary binary rs1Eq rs2Eq] at value
  rw [result, evaluate_binary binary rs1Eq rs2Eq, operand both.1, operand both.2, value]

end Value

namespace SsaFunc

/-- The blocks of the function are ordered. -/
def Orderly (f : SsaFunc) : Prop :=
  ∀ bb ∈ f.order, Ordered f.vars (f.block bb).insns

theorem cursor_arranged {f : SsaFunc} (orderly : f.Orderly) : Arranged f.vars f.cursor := by
  have blocks : ∀ block ∈ (castBlocks f.vars ((f.entry, (f.block f.entry).insns) ::
      f.rest.map fun bb => (bb, (f.block bb).insns))).2, Ordered f.vars block.2 := by
    apply castBlocks_ordered
    intro block present
    rcases List.mem_cons.mp present with rfl | present
    · exact orderly f.entry List.mem_cons_self
    · obtain ⟨bb, inRest, rfl⟩ := List.mem_map.mp present
      exact orderly bb (List.mem_cons_of_mem _ inRest)
  have homes : KeptByCasts fun vars _ => ∀ v, resident vars v = resident f.vars v := by
    intro vars _ _ _ _ _ target result _ _ _ _ _ _ _ _ same v
    exact (resident_setConst vars target v result).trans (same v)
  have ssa := f.ssa
  rw [← f.insns_blocks] at ssa
  obtain ⟨-, kept, -⟩ := @castBlocks_keeps
    (fun vars _ => ∀ v, resident vars v = resident f.vars v) homes f.vars
    ((f.entry, (f.block f.entry).insns) :: f.rest.map fun bb => (bb, (f.block bb).insns)) [] ssa
    (fun _ => rfl) (fun v flagged => by
      rw [f.unflagged] at flagged
      cases flagged)
  have tied := f.cursor_tied
  exact
    { current := blocks _ List.mem_cons_self
      queue := fun block present => blocks block (List.mem_cons_of_mem _ present)
      globals := tied.globals
      resident := kept }

theorem reaches_arranged {f : SsaFunc} (orderly : f.Orderly)
    {undefined : Opcode → Word → Word → Word} {idom : BlockId → BlockId} {fuel : Nat} {c : Cursor}
    (reaches : Reaches undefined idom fuel f.cursor c) : Arranged f.vars c := by
  induction reaches with
  | refl => exact cursor_arranged orderly
  | tail before next inductionHypothesis =>
      have wf := reaches_wellFormed undefined idom fuel before f.cursor_tied.wf
      exact step_arranged undefined idom fuel wf inductionHypothesis next

/-- Whenever the loop turns an operation into a copy, the copy is of the result of
the first operation of the block, as rewritten so far, that matches, and has the
value of the operation in every execution of the block whose steps from that one
on meet `ok`. -/
def EliminatesSoundly (undefined : Opcode → Word → Word → Word) (idom : BlockId → BlockId)
    (fuel : Nat) (f : SsaFunc) (world : World) (ok : Vars → Insn → Insn → State → State → Prop) :
    Prop :=
  ∀ c, Reaches undefined idom fuel f.cursor c → ∀ insn rest, c.pending = insn :: rest →
    ∀ copy, cseBinary c.vars c.before.reverse insn = some copy →
      (visit undefined idom fuel c insn rest).before.head? = some copy →
        ∃ earlier other later, c.before.reverse = earlier ++ other :: later ∧
          (∀ i ∈ earlier, operandsMatch insn i = false) ∧ operandsMatch insn other = true ∧
            copy.rs1 = other.rd ∧
              ∀ s₀ s₁ s₂ s₃, Executes world c.vars earlier s₀ s₁ →
                Exec world c.vars other s₁ s₂ →
                  ExecutesMeeting world c.vars (ok c.vars other) later s₂ s₃ →
                    evaluate world c.vars s₃ copy = evaluate world c.vars s₃ insn

/-- An operation of a block and an earlier one with its operands. -/
theorem matched {vars : Vars} {earlier : List Insn} {insn copy : Insn}
    (found : cseBinary vars earlier insn = some copy) :
    ∃ before other behind x y, earlier = before ++ other :: behind ∧
      (∀ i ∈ before, operandsMatch insn i = false) ∧ operandsMatch insn other = true ∧
        insn.opcode.isBinary = true ∧ insn.rs1 = some x ∧ insn.rs2 = some y ∧
          (vars x).isGlobal = false ∧ (vars y).isGlobal = false ∧
            copy = { insn with opcode := .assign, rs1 := other.rd, rs2 := none } := by
  unfold cseBinary at found
  split at found
  · rename_i rd x y rdEq rs1Eq rs2Eq
    split at found
    · rename_i candidate
      simp only [Bool.and_eq_true, Bool.not_eq_true'] at candidate
      rcases candidate with ⟨⟨candidate, localX⟩, localY⟩
      obtain ⟨other, isFirst, rfl⟩ := Option.map_eq_some_iff.mp found
      obtain ⟨isMatch, before, behind, split, first⟩ := List.find?_eq_some_iff_append.mp isFirst
      exact ⟨before, other, behind, x, y, split, fun i present => by simpa using first i present,
        isMatch, isBinary_of_isCseCandidate candidate, rs1Eq, rs2Eq, localX, localY, rfl⟩
    · cases found
  · cases found

/-- The copy has the value of the operation it replaces in every execution of the
block in which no step between the two changes an operand or the result of the
earlier operation in memory. -/
theorem cse_sound {f : SsaFunc} (orderly : f.Orderly) {world : World}
    (separated : world.Separated f.vars) (undefined : Opcode → Word → Word → Word)
    (idom : BlockId → BlockId) (fuel : Nat) :
    EliminatesSoundly undefined idom fuel f world (Spares world) := by
  intro c reaches insn rest pending copy found _
  obtain ⟨earlier, other, later, x, y, split, first, isMatch, binary, rs1Eq, rs2Eq, localX, localY,
    rfl⟩ := matched found
  have wf := reaches_wellFormed undefined idom fuel reaches f.cursor_tied.wf
  have arranged := reaches_arranged orderly reaches
  have sameOperation := matches_of_operandsMatch isMatch
  have otherBinary : other.opcode.isBinary = true := by
    rw [sameOperation.opcode]
    exact binary
  have block := arranged.current
  rw [pending, split, List.append_assoc, List.cons_append] at block
  obtain ⟨across, behind⟩ := List.pairwise_cons.mp (List.pairwise_append.mp block.precedes).2.1
  have toInsn := (List.pairwise_append.mp behind).2.2
  have inside : earlier ++ other :: later ⊆ c.insns := by
    intro i present
    rw [← split] at present
    simp [Cursor.insns, List.mem_reverse.mp present]
  obtain ⟨z, -, -, rdEq, -, -, localZ⟩ :=
    (wf.ssa.shaped other (inside (by simp))).binary otherBinary
  have locals {v : VarId} (used : v ∈ uses other) : (f.vars v).isGlobal = false := by
    rw [← arranged.globals]
    have either : v = x ∨ v = y := by
      rcases sameOperation.operands with ⟨first, second⟩ | ⟨-, first, second⟩ <;>
        rw [uses, first, second, rs1Eq, rs2Eq] at used <;> simp at used <;> tauto
    rcases either with rfl | rfl
    · exact localX
    · exact localY
  have single : (earlier ++ other :: later).Pairwise (SingleAssignment c.vars) := by
    have whole := wf.ssa.single
    rw [Cursor.insns, split] at whole
    exact (List.pairwise_append.mp (List.pairwise_append.mp
      (List.pairwise_append.mp whole).1).1).2.1
  have fresh (v : VarId) (watched : v ∈ uses other ∨ other.rd = some v) :
      ∀ j ∈ later, j.rd ≠ some v := by
    intro j present defines
    rcases watched with used | destination
    · rcases (across j (by simp [present])).operands otherBinary v used defines with
        isGlobal | isPhi
      · rw [locals used] at isGlobal
        cases isGlobal
      · have notBinary := (toInsn j present insn List.mem_cons_self).phis isPhi
        rw [binary] at notBinary
        cases notBinary
    · obtain rfl := Option.some.inj (rdEq.symm.trans destination)
      rcases (List.pairwise_cons.mp (List.pairwise_append.mp single).2.1).1 j present z
        destination defines with isGlobal | ⟨isPhi, -⟩ | ⟨isLoad, -⟩
      · rw [localZ] at isGlobal
        cases isGlobal
      · rw [isPhi] at otherBinary
        cases otherBinary
      · rw [isLoad] at otherBinary
        cases otherBinary
  refine ⟨earlier, other, later, split, first, isMatch, rfl, ?_⟩
  intro s₀ s₁ s₂ s₃ _ step executes
  have apart : ∀ v ∈ uses other, v ≠ z := by
    rintro v used rfl
    exact block.apart other (by simp) otherBinary v used rdEq
  have separated' : world.Separated c.vars := by
    intro u v inMemory inMemory'
    rw [arranged.resident] at inMemory inMemory'
    exact separated u v inMemory inMemory'
  rw [← sameOperation.kept separated' binary rs1Eq rs2Eq rdEq apart fresh step executes]
  simp [evaluate, rdEq]

/-- The instructions of `int *p = &a; t = a + b; *p = 7; u = a + b`, where the
parameters `a` and `b` are the variables `1` and `2`. -/
def sumTwice : List Insn :=
  [{ opcode := .addressOf, rd := some 3, rs1 := some 1 }, Insn.binary .add 4 1 2,
    { opcode := .loadConstant, rd := some 5 },
    { opcode := .write, rs1 := some 3, rs2 := some 5, sz := 4 }, Insn.binary .add 6 1 2]

/-- The function of that one block. -/
def storedBetween : SsaFunc where
  entry := 0
  block _ := { insns := sumTwice }
  rest := []
  closed := by
    intro bb _ succ edge
    simp [Block.successors] at edge
  vars v :=
    if v = 1 then { addressTaken := true }
    else if v = 5 then { initVal := 7 }
    else {}
  ssa :=
    { single := by simp [Func.insns, Func.order, sumTwice, SingleAssignment]
      shaped := by
        intro insn present
        simp only [Func.insns, Func.order, sumTwice, List.flatMap_cons, List.flatMap_nil,
          List.append_nil, List.mem_cons, List.not_mem_nil, or_false] at present
        rcases present with rfl | rfl | rfl | rfl | rfl
        · exact ⟨nofun, nofun, nofun, nofun⟩
        · exact ⟨fun _ => ⟨4, 1, 2, rfl, rfl, rfl, rfl⟩, nofun, nofun, nofun⟩
        · exact Shaped.load_of rfl rfl rfl
        · exact ⟨nofun, nofun, nofun, nofun⟩
        · exact ⟨fun _ => ⟨6, 1, 2, rfl, rfl, rfl, rfl⟩, nofun, nofun, nofun⟩ }
  unflagged v := by split_ifs <;> rfl
  strict := strict_of_straight rfl rfl
    (by
      simp only [sumTwice, uses, List.pairwise_cons]
      decide)
    (by
      simp only [sumTwice, uses]
      decide)

theorem storedBetween_orderly : storedBetween.Orderly := by
  intro bb _
  constructor
  · simp only [storedBetween, sumTwice, List.pairwise_cons]
    refine ⟨fun j _ => .of_plain rfl (by rintro ⟨⟩), fun j present => ?_,
      fun j _ => .of_plain rfl (by rintro ⟨⟩), fun j _ => .of_plain rfl (by rintro ⟨⟩),
      fun j member => absurd member List.not_mem_nil, .nil⟩
    simp only [List.mem_cons, List.not_mem_nil, or_false] at present
    rcases present with rfl | rfl | rfl <;> exact ⟨by simp [uses], by rintro ⟨⟩⟩
  · simp only [storedBetween, sumTwice, uses]
    decide

theorem storedBetween_separated : plainWorld.Separated storedBetween.vars := by
  have only {v : VarId} (inMemory : resident storedBetween.vars v = true) : v = 1 := by
    by_contra other
    unfold resident storedBetween at inMemory
    dsimp only at inMemory
    split_ifs at inMemory <;> cases inMemory
  intro u v inMemory inMemory' different
  exact absurd ((only inMemory).trans (only inMemory').symm) different

/-- The second sum of that function is right where the store spares `a`. -/
theorem storedBetween_sound :
    EliminatesSoundly (fun _ _ _ => 0) id 1 storedBetween plainWorld (Spares plainWorld) :=
  cse_sound storedBetween_orderly storedBetween_separated (fun _ _ _ => 0) id 1

/-- In the execution that stores seven through `p` the second sum is not the first. -/
theorem storedBetween_not_sound :
    ¬∀ (f : SsaFunc) (world : World), f.Orderly → world.Separated f.vars →
      EliminatesSoundly (fun _ _ _ => 0) id 1 f world fun _ _ _ _ _ => True := by
  intro sound
  obtain ⟨earlier, other, later, split, first, isMatch, -, agree⟩ :=
    sound storedBetween plainWorld storedBetween_orderly storedBetween_separated _
      (.tail (.tail (.tail (.single rfl) rfl) rfl) rfl) (Insn.binary .add 6 1 2) [] rfl _ rfl rfl
  change [sumTwice[0], sumTwice[1], sumTwice[2], sumTwice[3]] = earlier ++ other :: later at split
  rcases earlier with _ | ⟨i, _ | ⟨j, earlier⟩⟩
  · obtain ⟨rfl, -⟩ := List.cons.inj split
    exact absurd isMatch (by decide)
  · simp only [List.cons_append, List.nil_append, List.cons.injEq] at split
    obtain ⟨rfl, rfl, rfl⟩ := split
    have differs := agree ⟨fun _ => 0, fun _ => 0, [], 0⟩ _ _ _
      (.cons (.assigns rfl rfl) (.nil _)) (.assigns rfl rfl)
      (.cons (.assigns rfl rfl) trivial (.cons (.writes rfl rfl rfl) trivial (.nil _)))
    exact absurd differs (by decide)
  · simp only [List.cons_append, List.cons.injEq] at split
    obtain ⟨-, rfl, -⟩ := split
    exact absurd (first sumTwice[1] (by simp)) (by decide)

end SsaFunc

end Shecc.Optimize
