import Shecc.Optimize.Fold

/-!
# Common subexpressions

`is_cse_candidate` and the two halves of `cse`: the search of a block for an
earlier binary instruction with the same operands, and the merging of later
`add`/`read` pairs that access the same array element. The merged `add` is
unlinked and the merged `read` becomes a copy of the earlier result.

The use chain that the source walks holds every instruction reading the base, so
here the walk goes over the instructions themselves.
-/

namespace Shecc.Optimize

/-- `is_cse_candidate`. -/
def isCseCandidate (insn : Insn) : Bool :=
  match insn.opcode with
  | .add | .sub | .mul | .div | .mod | .lshift | .rshift | .bitAnd | .bitOr | .bitXor
  | .logAnd | .logOr | .eq | .neq | .lt | .leq | .gt | .geq => true
  | _ => false

/-- The operators whose operands may be swapped. -/
def isCommutative : Opcode → Bool
  | .add | .mul | .bitAnd | .bitOr | .bitXor | .logAnd | .logOr | .eq | .neq => true
  | _ => false

/-- Whether `other` computes what `insn` computes. -/
def operandsMatch (insn other : Insn) : Bool :=
  other.opcode == insn.opcode && other.rd.isSome && other.rs1.isSome && other.rs2.isSome &&
    ((other.rs1 == insn.rs1 && other.rs2 == insn.rs2) ||
      (isCommutative insn.opcode && other.rs1 == insn.rs2 && other.rs2 == insn.rs1))

/-- The second half of `cse`: `earlier` holds the instructions of the block
before `insn`, first to last. -/
def cseBinary (vars : Vars) (earlier : List Insn) (insn : Insn) : Option Insn :=
  match insn.rd, insn.rs1, insn.rs2 with
  | some _, some rs1, some rs2 =>
      if isCseCandidate insn && !(vars rs1).isGlobal && !(vars rs2).isGlobal then
        (earlier.find? (operandsMatch insn)).map fun other =>
          { insn with opcode := .assign, rs1 := other.rd, rs2 := none }
      else
        none
  | _, _, _ => none

/-- Merge every `add`/`read` pair on the same base and index: the `add` is
unlinked and the `read` becomes a copy of `definition`. -/
def mergeReads (base idx : VarId) (definition : Option VarId) : List Insn → List Insn
  | [] => []
  | insn :: rest =>
      match rest with
      | [] => [insn]
      | next :: tail =>
          if insn.opcode = .add ∧ next.opcode = .read ∧ insn.rs1 = some base ∧
              insn.rs2 = some idx then
            { next with opcode := .assign, rs1 := definition } ::
              mergeReads base idx definition tail
          else
            insn :: mergeReads base idx definition (next :: tail)

/-- The walk up the dominator tree that `cse` uses to test dominance, over at
most `fuel` blocks. -/
def checkDom (idom : BlockId → BlockId) (bb : BlockId) : Nat → BlockId → Bool
  | 0, _ => false
  | fuel + 1, i =>
      if i = bb then true
      else if i = idom i then false
      else checkDom idom bb fuel (idom i)

/-- The base and the index of the array access that `insn` reads through the
preceding instruction, when `cse` looks at it. -/
def arrayAccess (vars : Vars) (prev : Option Insn) (insn : Insn) : Option (VarId × VarId) :=
  match prev with
  | some prev =>
      if insn.opcode = .read ∧ prev.opcode = .add ∧ prev.rd = insn.rs1 then
        match prev.rs1, prev.rs2 with
        | some base, some idx =>
            if (vars base).isGlobal || (vars idx).isGlobal then none else some (base, idx)
        | _, _ => none
      else
        none
  | none => none

/-! ## What merging leaves -/

/-- `target` is `source` with some additions unlinked and some reads turned into
copies of `definition`. -/
inductive Merged (definition : Option VarId) : List Insn → List Insn → Prop where
  | nil : Merged definition [] []
  | keep (insn : Insn) {source target : List Insn} (rest : Merged definition source target) :
      Merged definition (insn :: source) (insn :: target)
  | unlink {insn : Insn} {source target : List Insn} (isAdd : insn.opcode = .add)
      (rest : Merged definition source target) : Merged definition (insn :: source) target
  | copy {insn : Insn} {source target : List Insn} (isRead : insn.opcode = .read)
      (rest : Merged definition source target) :
      Merged definition (insn :: source)
        ({ insn with opcode := .assign, rs1 := definition } :: target)

namespace Merged

variable {definition : Option VarId}

theorem refl (insns : List Insn) : Merged definition insns insns := by
  induction insns with
  | nil => exact .nil
  | cons insn rest inductionHypothesis => exact .keep insn inductionHypothesis

theorem append {source target source' target' : List Insn}
    (left : Merged definition source target) (right : Merged definition source' target') :
    Merged definition (source ++ source') (target ++ target') := by
  induction left with
  | nil => exact right
  | keep insn _ inductionHypothesis => exact .keep insn inductionHypothesis
  | unlink isAdd _ inductionHypothesis => exact .unlink isAdd inductionHypothesis
  | copy isRead _ inductionHypothesis => exact .copy isRead inductionHypothesis

/-- Merging block by block merges the concatenation. -/
theorem flatMap {blocks : List (BlockId × List Insn)}
    {merge : BlockId × List Insn → BlockId × List Insn}
    (each : ∀ block, Merged definition block.2 (merge block).2) :
    Merged definition (blocks.flatMap Prod.snd) ((blocks.map merge).flatMap Prod.snd) := by
  induction blocks with
  | nil => exact .nil
  | cons block rest inductionHypothesis =>
      simp only [List.map_cons, List.flatMap_cons]
      exact (each block).append inductionHypothesis

/-- Every instruction left was there before, or is a copy made from a read. -/
theorem origin {source target : List Insn} (merged : Merged definition source target)
    {insn : Insn} (found : insn ∈ target) :
    insn ∈ source ∨ ∃ original ∈ source, original.opcode = .read ∧
      insn = { original with opcode := .assign, rs1 := definition } := by
  induction merged with
  | nil => cases found
  | keep kept _ inductionHypothesis =>
      rcases List.mem_cons.mp found with rfl | found
      · exact Or.inl List.mem_cons_self
      · rcases inductionHypothesis found with present | ⟨original, present, isRead, same⟩
        · exact Or.inl (List.mem_cons_of_mem _ present)
        · exact Or.inr ⟨original, List.mem_cons_of_mem _ present, isRead, same⟩
  | unlink _ _ inductionHypothesis =>
      rcases inductionHypothesis found with present | ⟨original, present, isRead, same⟩
      · exact Or.inl (List.mem_cons_of_mem _ present)
      · exact Or.inr ⟨original, List.mem_cons_of_mem _ present, isRead, same⟩
  | @copy read _ _ isRead _ inductionHypothesis =>
      rcases List.mem_cons.mp found with same | found
      · exact Or.inr ⟨read, List.mem_cons_self, isRead, same⟩
      · rcases inductionHypothesis found with present | ⟨original, present, isRead', same⟩
        · exact Or.inl (List.mem_cons_of_mem _ present)
        · exact Or.inr ⟨original, List.mem_cons_of_mem _ present, isRead', same⟩

/-- Only additions are unlinked and only reads change. -/
theorem survives {source target : List Insn} (merged : Merged definition source target)
    {insn : Insn} (present : insn ∈ source) (notAdd : insn.opcode ≠ .add)
    (notRead : insn.opcode ≠ .read) : insn ∈ target := by
  induction merged with
  | nil => cases present
  | keep kept _ inductionHypothesis =>
      rcases List.mem_cons.mp present with rfl | present
      · exact List.mem_cons_self
      · exact List.mem_cons_of_mem _ (inductionHypothesis present)
  | unlink isAdd _ inductionHypothesis =>
      rcases List.mem_cons.mp present with rfl | present
      · exact absurd isAdd notAdd
      · exact inductionHypothesis present
  | copy isRead _ inductionHypothesis =>
      rcases List.mem_cons.mp present with rfl | present
      · exact absurd isRead notRead
      · exact List.mem_cons_of_mem _ (inductionHypothesis present)

/-- A read or a copy is still there, as a read or a copy. -/
theorem moves {source target : List Insn} (merged : Merged definition source target)
    {insn : Insn} (present : insn ∈ source)
    (isMove : insn.opcode = .read ∨ insn.opcode = .assign) :
    ∃ left ∈ target, left.rd = insn.rd ∧ (left.opcode = .read ∨ left.opcode = .assign) := by
  induction merged with
  | nil => cases present
  | keep kept _ inductionHypothesis =>
      rcases List.mem_cons.mp present with rfl | present
      · exact ⟨insn, List.mem_cons_self, rfl, isMove⟩
      · obtain ⟨left, found, same⟩ := inductionHypothesis present
        exact ⟨left, List.mem_cons_of_mem _ found, same⟩
  | unlink isAdd _ inductionHypothesis =>
      rcases List.mem_cons.mp present with rfl | present
      · rw [isAdd] at isMove
        rcases isMove with impossible | impossible <;> cases impossible
      · exact inductionHypothesis present
  | copy isRead _ inductionHypothesis =>
      rcases List.mem_cons.mp present with rfl | present
      · exact ⟨_, List.mem_cons_self, rfl, Or.inr rfl⟩
      · obtain ⟨left, found, same⟩ := inductionHypothesis present
        exact ⟨left, List.mem_cons_of_mem _ found, same⟩

/-- A relation that does not tell a read from its copy survives merging. -/
theorem pairwise {source target : List Insn} {R : Insn → Insn → Prop}
    (merged : Merged definition source target)
    (left : ∀ a b : Insn, a.opcode = .read → R a b →
      R { a with opcode := .assign, rs1 := definition } b)
    (right : ∀ a b : Insn, b.opcode = .read → R a b →
      R a { b with opcode := .assign, rs1 := definition })
    (before : source.Pairwise R) : target.Pairwise R := by
  induction merged with
  | nil => exact before
  | keep kept rest inductionHypothesis =>
      obtain ⟨first, later⟩ := List.pairwise_cons.mp before
      refine List.Pairwise.cons ?_ (inductionHypothesis later)
      intro insn found
      rcases rest.origin found with present | ⟨original, present, isRead, rfl⟩
      · exact first insn present
      · exact right _ _ isRead (first original present)
  | unlink _ _ inductionHypothesis =>
      exact inductionHypothesis (List.pairwise_cons.mp before).2
  | copy isRead rest inductionHypothesis =>
      obtain ⟨first, later⟩ := List.pairwise_cons.mp before
      refine List.Pairwise.cons ?_ (inductionHypothesis later)
      intro insn found
      rcases rest.origin found with present | ⟨original, present, isRead', rfl⟩
      · exact left _ _ isRead (first insn present)
      · exact right _ _ isRead' (left _ _ isRead (first original present))

end Merged

theorem mergeReads_merged (base idx : VarId) (definition : Option VarId)
    (insns : List Insn) :
    Merged definition insns (mergeReads base idx definition insns) := by
  induction insns using mergeReads.induct base idx with
  | case1 => exact .nil
  | case2 insn => exact Merged.refl [insn]
  | case3 insn next tail pattern inductionHypothesis =>
      rw [mergeReads, if_pos pattern]
      exact .unlink pattern.1 (.copy pattern.2.1 inductionHypothesis)
  | case4 insn next tail pattern inductionHypothesis =>
      rw [mergeReads, if_neg pattern]
      exact .keep insn inductionHypothesis

end Shecc.Optimize
