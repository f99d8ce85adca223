import Shecc.Ir.Trail
import Shecc.Optimize.CseSound

/-!
# Merged array reads

For a read through the addition before it `cse` looks for later additions of the
same base and index with a read behind them. It unlinks the addition and makes
the read a copy of the earlier result, and asks only that the block of the earlier
read dominates the block of the later one. SSA form then keeps the base and the
index the same, so the two reads agree in every execution in which nothing since
the earlier read has changed the element.
-/

namespace Shecc.Optimize

/-- A function in SSA form, the dominators of its blocks and the variables that
its reads fill, which are temporaries. -/
structure SsaTree (f : Func) (vars : Vars) (idom : BlockId → BlockId) : Prop where
  ssa : InSsaForm vars f.insns
  strict : ∀ {trace : List Insn} {bb : BlockId} {insn : Insn} {rest : List Insn},
    Path f trace bb (insn :: rest) → ∀ x ∈ uses insn, (vars x).isGlobal = false →
      (∃ definition ∈ f.insns, definition.rd = some x) →
        ∃ definition ∈ trace, definition.rd = some x
  branchLast : f.BranchLast
  tree : ∀ bb, Dominates f (idom bb) bb
  temporary : ∀ insn ∈ f.insns, insn.opcode = .read → ∀ rd, insn.rd = some rd →
    resident vars rd = false

/-- An addition and the read behind it. -/
structure Access (f : Func) where
  bb : BlockId
  inOrder : bb ∈ f.order
  before : List Insn
  add : Insn
  read : Insn
  behind : List Insn
  insnsEq : (f.block bb).insns = before ++ add :: read :: behind

/-- What the block holds in the place of a merged read. -/
def copyOf (definition : Option VarId) (read : Insn) : Insn :=
  { read with opcode := .assign, rs1 := definition }

/-- `cse` merges the second access with the first. -/
structure Merges {f : Func} (vars : Vars) (idom : BlockId → BlockId) (fuel : Nat)
    (first second : Access f) (base idx : VarId) : Prop where
  isAccess : arrayAccess vars (some first.add) first.read = some (base, idx)
  isAdd : second.add.opcode = .add
  isRead : second.read.opcode = .read
  rs1 : second.add.rs1 = some base
  rs2 : second.add.rs2 = some idx
  dominated : checkDom idom first.bb fuel second.bb = true
  other : first.bb = second.bb → first.before.length ≠ second.before.length

/-- The blocks after `cse` has looked at the first access. -/
def mergeAccesses {f : Func} (idom : BlockId → BlockId) (fuel : Nat) (first : Access f)
    (base idx : VarId) (bb : BlockId) : List Insn :=
  let merge := mergeReads base idx first.read.rd
  if bb = first.bb then
    merge first.before ++ first.add :: first.read :: merge first.behind
  else
    (mergeBlock idom fuel first.bb base idx first.read.rd (bb, (f.block bb).insns)).2

/-- In the place of a merged access stands the copy. -/
theorem mergeReads_append {base idx : VarId} {definition : Option VarId} {add read : Insn}
    (isAdd : add.opcode = .add) (isRead : read.opcode = .read) (rs1Eq : add.rs1 = some base)
    (rs2Eq : add.rs2 = some idx) (before behind : List Insn) :
    mergeReads base idx definition (before ++ add :: read :: behind) =
      mergeReads base idx definition before ++
        copyOf definition read :: mergeReads base idx definition behind := by
  have here : mergeReads base idx definition (add :: read :: behind) =
      copyOf definition read :: mergeReads base idx definition behind := by
    rw [mergeReads, if_pos ⟨isAdd, isRead, rs1Eq, rs2Eq⟩]
    rfl
  induction before using mergeReads.induct base idx with
  | case1 => exact here
  | case2 insn =>
      have notPair : ¬(insn.opcode = .add ∧ add.opcode = .read ∧ insn.rs1 = some base ∧
          insn.rs2 = some idx) := by
        rw [isAdd]
        rintro ⟨-, impossible, -⟩
        cases impossible
      have skip : mergeReads base idx definition (insn :: add :: read :: behind) =
          insn :: mergeReads base idx definition (add :: read :: behind) := by
        rw [mergeReads, if_neg notPair]
      rw [List.singleton_append, skip, here]
      rfl
  | case3 insn next tail pattern inductionHypothesis =>
      have pair (rest : List Insn) : mergeReads base idx definition (insn :: next :: rest) =
          copyOf definition next :: mergeReads base idx definition rest := by
        rw [mergeReads, if_pos pattern]
        rfl
      rw [List.cons_append, List.cons_append, pair, pair, inductionHypothesis]
      rfl
  | case4 insn next tail pattern inductionHypothesis =>
      have skip (rest : List Insn) : mergeReads base idx definition (insn :: next :: rest) =
          insn :: mergeReads base idx definition (next :: rest) := by
        rw [mergeReads, if_neg pattern]
      rw [List.cons_append, List.cons_append, skip, skip, ← List.cons_append, inductionHypothesis]
      rfl

/-! ## Places -/

section Places

variable {f : Func} {vars : Vars}

theorem single_of_ne {insns : List Insn} (ssa : InSsaForm vars insns) {a b : Insn}
    (inA : a ∈ insns) (inB : b ∈ insns) (different : a ≠ b) : SingleAssignment vars a b :=
  ssa.single.forall inA inB different

/-- The instruction has a destination that nothing else may define. -/
structure Sole (vars : Vars) (insn : Insn) (v : VarId) : Prop where
  rd : insn.rd = some v
  isLocal : (vars v).isGlobal = false
  notPhi : insn.opcode ≠ .unwoundPhi
  notLoad : insn.opcode ≠ .loadConstant

/-- A read fills its own temporary. -/
theorem sole_of_read {insn : Insn} {v : VarId} (isRead : insn.opcode = .read)
    (rdEq : insn.rd = some v) (outside : resident vars v = false) : Sole vars insn v where
  rd := rdEq
  isLocal := by
    simp only [resident, Bool.or_eq_false_iff] at outside
    exact outside.1
  notPhi := by
    rw [isRead]
    nofun
  notLoad := by
    rw [isRead]
    nofun

theorem Sole.not_single {insn other : Insn} {v : VarId} (sole : Sole vars insn v)
    (rdEq : other.rd = some v) : ¬SingleAssignment vars insn other := by
  intro single
  rcases single v sole.rd rdEq with isGlobal | ⟨isPhi, -⟩ | ⟨isLoad, -⟩
  · rw [sole.isLocal] at isGlobal
    cases isGlobal
  · exact sole.notPhi isPhi
  · exact sole.notLoad isLoad

/-- Nothing else defines the destination. -/
theorem Sole.eq {insns : List Insn} (ssa : InSsaForm vars insns) {insn other : Insn} {v : VarId}
    (sole : Sole vars insn v) (inside : insn ∈ insns) (inside' : other ∈ insns)
    (rdEq : other.rd = some v) : other = insn := by
  by_contra different
  exact sole.not_single rdEq (single_of_ne ssa inside inside' (Ne.symm different))

theorem Sole.unique_in {insns before behind : List Insn} (ssa : InSsaForm vars insns)
    {insn : Insn} {v : VarId} (sole : Sole vars insn v) (split : insns = before ++ insn :: behind) :
    insn ∉ before ∧ insn ∉ behind := by
  have single := ssa.single
  rw [split, List.pairwise_append, List.pairwise_cons] at single
  rcases single with ⟨-, ⟨later, -⟩, between⟩
  constructor
  · intro present
    exact sole.not_single sole.rd (between insn present insn List.mem_cons_self)
  · intro present
    exact sole.not_single sole.rd (later insn present)

theorem cons_split_unique {α : Type} {x : α} {before before' behind behind' : List α}
    (split : before ++ x :: behind = before' ++ x :: behind') (fresh : x ∉ before)
    (fresh' : x ∉ before') : before = before' ∧ behind = behind' := by
  rcases List.append_eq_append_iff.mp split with ⟨as, rfl, tail⟩ | ⟨as, rfl, tail⟩ <;>
    cases as with
    | nil => simp_all
    | cons a as => simp_all

/-- Such an instruction stands once in its block, and in no other. -/
theorem Sole.once {insn : Insn} {v : VarId} (ssa : InSsaForm vars f.insns)
    (sole : Sole vars insn v) {bb : BlockId} (inOrder : bb ∈ f.order) {done rest : List Insn}
    (block : (f.block bb).insns = done ++ insn :: rest) :
    insn ∉ done ∧ insn ∉ rest ∧ ∀ bb' ∈ f.order, insn ∈ (f.block bb').insns → bb = bb' := by
  obtain ⟨earlier, later, order⟩ := List.append_of_mem inOrder
  have whole : f.insns = (earlier.flatMap fun bb => (f.block bb).insns) ++ done ++
      insn :: (rest ++ later.flatMap fun bb => (f.block bb).insns) := by
    simp [Func.insns, order, block]
  obtain ⟨before, behind⟩ := sole.unique_in ssa whole
  refine ⟨fun present => before (List.mem_append_right _ present),
    fun present => behind (List.mem_append_left _ present), fun bb' inOrder' present => ?_⟩
  by_contra different
  rw [order] at inOrder'
  rcases List.mem_append.mp inOrder' with inEarlier | inLater
  · exact before (List.mem_append_left _ (List.mem_flatMap.mpr ⟨bb', inEarlier, present⟩))
  · have inLater := (List.mem_cons.mp inLater).resolve_left (Ne.symm different)
    exact behind (List.mem_append_right _ (List.mem_flatMap.mpr ⟨bb', inLater, present⟩))

/-- It has one place in the function. -/
theorem Sole.place {insn : Insn} {v : VarId} (ssa : InSsaForm vars f.insns)
    (sole : Sole vars insn v) {bb bb' : BlockId} (inOrder : bb ∈ f.order)
    (inOrder' : bb' ∈ f.order) {done done' rest rest' : List Insn}
    (block : (f.block bb).insns = done ++ insn :: rest)
    (block' : (f.block bb').insns = done' ++ insn :: rest') : bb = bb' ∧ done = done' ∧
      rest = rest' := by
  obtain ⟨fresh, -, only⟩ := sole.once ssa inOrder block
  obtain rfl := only bb' inOrder' (by rw [block']; simp)
  obtain ⟨fresh', -, -⟩ := sole.once ssa inOrder block'
  exact ⟨rfl, cons_split_unique (block.symm.trans block') fresh fresh'⟩

end Places

/-! ## No redefinition in between -/

namespace Access

variable {f : Func} {vars : Vars} (first : Access f)

/-- The access as an instruction list ahead. -/
def point : List Insn :=
  first.add :: first.read :: first.behind

theorem add_mem : first.add ∈ f.insns :=
  Func.mem_insns first.inOrder (by rw [first.insnsEq]; simp)

theorem read_mem : first.read ∈ f.insns :=
  Func.mem_insns first.inOrder (by rw [first.insnsEq]; simp)

theorem behind_mem {insn : Insn} (present : insn ∈ first.behind) : insn ∈ f.insns :=
  Func.mem_insns first.inOrder (by rw [first.insnsEq]; simp [present])

end Access

/-- The access is one that `cse` may merge others with. -/
structure Accesses {f : Func} (vars : Vars) (first : Access f) (base idx address result : VarId) :
    Prop where
  isAdd : first.add.opcode = .add
  isRead : first.read.opcode = .read
  rs1 : first.add.rs1 = some base
  rs2 : first.add.rs2 = some idx
  localBase : (vars base).isGlobal = false
  localIdx : (vars idx).isGlobal = false
  add : Sole vars first.add address
  reads : first.read.rs1 = some address
  read : Sole vars first.read result
  outside : resident vars result = false

section Between

variable {f : Func} {vars : Vars} {idom : BlockId → BlockId} {first second : Access f}
  {base idx address result : VarId}

theorem accesses_of_arrayAccess (ssa : SsaTree f vars idom)
    (isAccess : arrayAccess vars (some first.add) first.read = some (base, idx)) :
    ∃ address result, Accesses vars first base idx address result := by
  unfold arrayAccess at isAccess
  simp only at isAccess
  split at isAccess
  · rename_i pattern
    rcases pattern with ⟨isRead, isAdd, rdEq⟩
    split at isAccess
    · rename_i x y rs1 rs2
      split at isAccess
      · cases isAccess
      · rename_i localBoth
        simp only [Bool.or_eq_true, not_or, Bool.not_eq_true] at localBoth
        simp only [Option.some.injEq, Prod.mk.injEq] at isAccess
        obtain ⟨rfl, rfl⟩ := isAccess
        obtain ⟨address, -, -, addRd, -, -, localAddress⟩ :=
          (ssa.ssa.shaped first.add first.add_mem).binary (by rw [isAdd]; rfl)
        obtain ⟨result, readRd⟩ := Option.isSome_iff_exists.mp
          ((ssa.ssa.shaped first.read first.read_mem).read isRead)
        have outside := ssa.temporary first.read first.read_mem isRead result readRd
        exact ⟨address, result,
          { isAdd := isAdd
            isRead := isRead
            rs1 := rs1
            rs2 := rs2
            localBase := localBoth.1
            localIdx := localBoth.2
            add := ⟨addRd, localAddress, by rw [isAdd]; nofun, by rw [isAdd]; nofun⟩
            reads := rdEq.symm.trans addRd
            read := sole_of_read isRead readRd outside
            outside := outside }⟩
    · cases isAccess
  · cases isAccess

namespace Accesses

variable (accesses : Accesses vars first base idx address result)

include accesses

theorem add_ne_read : first.add ≠ first.read := by
  intro same
  have opcodes := congrArg Insn.opcode same
  rw [accesses.isAdd, accesses.isRead] at opcodes
  cases opcodes

theorem uses_add : uses first.add = [base, idx] := by
  simp [uses, accesses.rs1, accesses.rs2]

theorem operand_local {v : VarId} (used : v ∈ uses first.add) : (vars v).isGlobal = false := by
  rw [accesses.uses_add] at used
  rcases List.mem_cons.mp used with rfl | used
  · exact accesses.localBase
  · rw [List.mem_singleton.mp used]
    exact accesses.localIdx

/-- A path in front of the read has come past the addition. -/
theorem add_passed (ssa : SsaTree f vars idom) {trace rest : List Insn} {bb : BlockId}
    (path : Path f trace bb (first.read :: rest)) :
    bb = first.bb ∧ rest = first.behind ∧ first.add ∈ trace := by
  obtain ⟨done, split, passed⟩ := path.passed
  have block : (f.block first.bb).insns = (first.before ++ [first.add]) ++
      first.read :: first.behind := by
    simp [first.insnsEq]
  obtain ⟨rfl, rfl, rfl⟩ :=
    accesses.read.place ssa.ssa path.inside.1 first.inOrder split block
  exact ⟨rfl, rfl, passed first.add (by simp)⟩

/-- Past the read, a path is past every definition SSA form asks for. -/
theorem operand_defined (ssa : SsaTree f vars idom) {trace rest : List Insn} {bb : BlockId}
    (path : Path f trace bb (first.add :: rest)) {v : VarId} (used : v ∈ uses first.add)
    {d : Insn} (inside : d ∈ f.insns) (rdEq : d.rd = some v) :
    ∃ d' ∈ trace, d'.rd = some v :=
  ssa.strict path v used (accesses.operand_local used) ⟨d, inside, rdEq⟩

/-- A path that has passed the read has passed a definition of every operand of
the addition that is defined at all. -/
theorem defined_of_read (ssa : SsaTree f vars idom) {trace rest : List Insn} {bb : BlockId}
    (path : Path f trace bb rest) (passed : first.read ∈ trace) {v : VarId}
    (used : v ∈ uses first.add) {d : Insn} (inside : d ∈ f.insns) (rdEq : d.rd = some v) :
    ∃ d' ∈ trace, d'.rd = some v := by
  obtain ⟨bb₁, rest₁, before₁, behind₁, rfl, toRead, -⟩ := (path_iff_trail.mp path).cut passed
  obtain ⟨-, -, addPassed⟩ := accesses.add_passed ssa (path_iff_trail.mpr toRead)
  obtain ⟨bb₂, rest₂, before₂, behind₂, rfl, toAdd, -⟩ := toRead.cut addPassed
  obtain ⟨d', present, rdEq'⟩ :=
    accesses.operand_defined ssa (path_iff_trail.mpr toAdd) used inside rdEq
  exact ⟨d', by simp [present], rdEq'⟩

/-- Neither the addition nor the read defines an operand of the addition. -/
theorem apart (ssa : SsaTree f vars idom) {trace rest : List Insn} {bb : BlockId}
    (path : Path f trace bb (first.add :: rest)) {v : VarId} (used : v ∈ uses first.add) :
    v ≠ address ∧ v ≠ result := by
  obtain ⟨trace', bb', rest', toAdd, fresh⟩ := path.first
  have readFresh : first.read ∉ trace' := by
    intro passed
    obtain ⟨bb₁, rest₁, before, behind, rfl, toRead, -⟩ := (path_iff_trail.mp toAdd).cut passed
    obtain ⟨-, -, addPassed⟩ := accesses.add_passed ssa (path_iff_trail.mpr toRead)
    exact fresh (List.mem_append_right _ addPassed)
  have never {insn : Insn} (sole : Sole vars insn v) (inside : insn ∈ f.insns)
      (notPassed : insn ∉ trace') : False := by
    obtain ⟨d, present, rdEq⟩ := accesses.operand_defined ssa toAdd used inside sole.rd
    rw [sole.eq ssa.ssa inside (toAdd.inside.2.2 d present) rdEq] at present
    exact notPassed present
  constructor
  · rintro rfl
    exact never accesses.add first.add_mem fresh
  · rintro rfl
    exact never accesses.read first.read_mem readFresh

/-- On a trail from the read to a point that no path reaches without the read,
nothing defines an operand of the addition again, phis and constants apart. -/
theorem not_redefined (ssa : SsaTree f vars idom) {earlier since rest : List Insn} {bb : BlockId}
    (path : Path f earlier first.bb first.point)
    (trail : Trail f ⟨first.bb, first.behind⟩ since ⟨bb, rest⟩) (avoids : first.read ∉ since)
    (passes : ∀ {trace : List Insn}, Path f trace bb rest → first.read ∈ trace) {v : VarId}
    (used : v ∈ uses first.add) {d : Insn} (present : d ∈ since) (rdEq : d.rd = some v) :
    d.opcode = .unwoundPhi ∨ d.opcode = .loadConstant := by
  by_contra plain
  simp only [not_or] at plain
  have sole : Sole vars d v := ⟨rdEq, accesses.operand_local used, plain.1, plain.2⟩
  obtain ⟨bb₁, rest₁, front, back, rfl, toD, onward, -⟩ := trail.cut present
  have path₁ : Path f (front ++ first.read :: first.add :: earlier) bb₁ (d :: rest₁) :=
    path.pass.pass.append toD
  have inside : d ∈ f.insns := path₁.inside.2.1 d List.mem_cons_self
  -- The first time `d` is reached joins the rest of the trail.
  obtain ⟨trace, bb₂, rest₂, path₂, fresh⟩ := path₁.first
  obtain ⟨done₁, split₁, -⟩ := path₁.passed
  obtain ⟨done₂, split₂, -⟩ := path₂.passed
  obtain ⟨rfl, -, rfl⟩ := sole.place ssa.ssa path₁.inside.1 path₂.inside.1 split₁ split₂
  rcases List.mem_append.mp (passes (path₂.append onward)) with inBack | inTrace
  · exact avoids (List.mem_append_left _ inBack)
  · obtain ⟨d', passed, rdEq'⟩ := accesses.defined_of_read ssa path₂ inTrace used inside rdEq
    rw [sole.eq ssa.ssa inside (path₂.inside.2.2 d' passed) rdEq'] at passed
    exact fresh passed

end Accesses

/-- The second addition is not the first read. -/
theorem Merges.add_ne_read {fuel : Nat} {base' idx' : VarId}
    (merges : Merges vars idom fuel first second base' idx')
    (accesses : Accesses vars first base idx address result) : second.add ≠ first.read := by
  intro equal
  have isRead := accesses.isRead
  rw [← equal, merges.isAdd] at isRead
  cases isRead

/-- The links of the tree lead to dominators. -/
theorem dominates_of_checkDom {fuel : Nat} {bb i : BlockId} (tree : ∀ b, Dominates f (idom b) b)
    (found : checkDom idom bb fuel i = true) : Dominates f bb i := by
  induction fuel generalizing i with
  | zero => cases found
  | succ fuel inductionHypothesis =>
      rw [checkDom] at found
      split at found
      · rename_i same
        rw [same]
        exact Dominates.refl f bb
      · split at found
        · cases found
        · exact (inductionHypothesis found).trans (tree i)

/-- The second access of a block stands behind the first. -/
theorem Access.behind_of_lt (same : first.bb = second.bb)
    (ahead : first.before.length < second.before.length)
    (different : second.add ≠ first.read) :
    ∃ between, second.before = first.before ++ first.add :: first.read :: between := by
  have blocks := second.insnsEq
  rw [← same, first.insnsEq] at blocks
  rcases List.append_eq_append_iff.mp blocks with ⟨as, beforeEq, tail⟩ | ⟨as, beforeEq, -⟩
  · rcases as with _ | ⟨a, _ | ⟨b, between⟩⟩
    · simp [beforeEq] at ahead
    · simp only [List.cons_append, List.nil_append, List.cons.injEq] at tail
      exact absurd tail.2.1.symm different
    · simp only [List.cons_append, List.cons.injEq] at tail
      obtain ⟨rfl, rfl, -⟩ := tail
      exact ⟨between, beforeEq⟩
  · rw [beforeEq] at ahead
    simp at ahead

/-- No path reaches the second access without passing the first. -/
theorem Merges.passed {fuel : Nat} (merges : Merges vars idom fuel first second base idx)
    (accesses : Accesses vars first base idx address result) (ssa : SsaTree f vars idom)
    (ahead : first.bb = second.bb → first.before.length < second.before.length)
    {trace : List Insn} (path : Path f trace second.bb second.point) : first.read ∈ trace := by
  by_cases same : first.bb = second.bb
  · obtain ⟨between, beforeEq⟩ :=
      Access.behind_of_lt same (ahead same) (merges.add_ne_read accesses)
    obtain ⟨done, split, passed⟩ := path.passed
    rw [second.insnsEq] at split
    obtain rfl := List.append_cancel_right split
    exact passed first.read (by simp [beforeEq])
  · have dominates := dominates_of_checkDom ssa.tree merges.dominated
    exact dominates.passed ssa.branchLast same path first.read (by rw [first.insnsEq]; simp)

end Between

/-! ## The values of the two reads -/

section Value

variable {f : Func} {vars : Vars} {idom : BlockId → BlockId} {world : World}

/-- A variable that only constants are loaded into holds its constant once it is
defined. -/
theorem value_of_loads {source target : Point} {start s : State} {log : List Passage} {v : VarId}
    (logged : Logged world vars f source start log target s)
    (inside : ∀ p ∈ log, p.insn ∈ f.insns)
    (loads : ∀ d ∈ f.insns, d.rd = some v → d.opcode = .loadConstant)
    (outside : resident vars v = false) (defined : ∃ p ∈ log, p.insn.rd = some v) :
    s.value world vars v = (vars v).initVal := by
  induction logged with
  | here =>
      obtain ⟨p, present, -⟩ := defined
      cases present
  | @exec log bb insn rest s s' _ step inductionHypothesis =>
      by_cases rdEq : insn.rd = some v
      · have isLoad := loads insn (inside _ List.mem_cons_self) rdEq
        obtain ⟨w, value, rfl⟩ := (exec_iff_of_not_acting (by simp [acting, isLoad]) rdEq).mp step
        rw [State.value_assign_same]
        simp only [evaluate, isLoad, rdEq, Option.map_some, Option.some.injEq] at value
        exact value.symm
      · rw [exec_value step rdEq outside]
        obtain ⟨p, present, defines⟩ := defined
        rcases List.mem_cons.mp present with rfl | present
        · exact absurd defines rdEq
        · exact inductionHypothesis (fun q found => inside q (List.mem_cons_of_mem _ found))
            ⟨p, present, defines⟩
  | jump _ _ inductionHypothesis => exact inductionHypothesis inside defined
  | branch _ isBranch _ _ inductionHypothesis =>
      obtain ⟨p, present, defines⟩ := defined
      rcases List.mem_cons.mp present with rfl | present
      · have isLoad := loads _ (inside _ List.mem_cons_self) defines
        cases isBranch.symm.trans isLoad
      · exact inductionHypothesis (fun q found => inside q (List.mem_cons_of_mem _ found))
          ⟨p, present, defines⟩

/-- A variable keeps its value where nothing defines it, as long as the steps
leave it alone in memory. -/
theorem value_of_untouched {source target : Point} {start s : State} {log : List Passage}
    {v : VarId} (logged : Logged world vars f source start log target s)
    (untouched : ∀ p ∈ log, p.insn.rd ≠ some v)
    (spared : resident vars v = true → ∀ p ∈ log,
      p.after.value world vars v = p.before.value world vars v) :
    s.value world vars v = start.value world vars v := by
  apply logged.kept
  intro p present
  by_cases inMemory : resident vars v = true
  · exact spared inMemory p present
  · rcases logged.passed present with step | ⟨-, same⟩
    · exact exec_value step (untouched p present) (by simpa using inMemory)
    · rw [same]

/-- Since the first access was read, the passage has left the element alone, and
the operands of the addition where they live in memory or merge the values of a
phi. -/
structure ElementSpared (world : World) (vars : Vars) (first : Access f) (reading p : Passage) :
    Prop where
  element : ∀ address ∈ first.read.rs1,
    world.arch.load p.after.memory (reading.before.value world vars address) first.read.sz =
      world.arch.load p.before.memory (reading.before.value world vars address) first.read.sz
  operands : ∀ v ∈ uses first.add, resident vars v = true →
    p.after.value world vars v = p.before.value world vars v
  phis : p.insn.opcode = .unwoundPhi → ∀ v ∈ uses first.add, p.insn.rd ≠ some v

/-- The operands of the addition have since kept their values. -/
theorem Accesses.operand_kept {first : Access f} {base idx address result : VarId}
    (accesses : Accesses vars first base idx address result) (ssa : SsaTree f vars idom)
    {start s s' : State} {log earlier since : List Passage} {reading : Passage} {bb : BlockId}
    {rest : List Insn} (runs : f.Runs world vars start earlier first.bb first.point s)
    (onward : Logged world vars f ⟨first.bb, first.behind⟩ reading.after since ⟨bb, rest⟩ s')
    (whole : f.Runs world vars start log bb rest s') (sublog : earlier ⊆ log)
    (avoids : ∀ p ∈ since, p.insn ≠ first.read)
    (passes : ∀ {trace : List Insn}, Path f trace bb rest → first.read ∈ trace)
    (undisturbed : ∀ p ∈ since, ElementSpared world vars first reading p) {v : VarId}
    (used : v ∈ uses first.add) (same : reading.after.value world vars v = s.value world vars v) :
    s'.value world vars v = s.value world vars v := by
  by_cases redefined : resident vars v = false ∧ ∃ p ∈ since, p.insn.rd = some v
  · obtain ⟨outside, p, present, rdEq⟩ := redefined
    have avoids' : first.read ∉ since.map Passage.insn := by
      intro found
      obtain ⟨q, inSince, isRead⟩ := List.mem_map.mp found
      exact avoids q inSince isRead
    have isLoad : p.insn.opcode = .loadConstant := by
      rcases accesses.not_redefined ssa runs.path onward.trail avoids' passes used
        (List.mem_map_of_mem present) rdEq with isPhi | isLoad
      · exact absurd rdEq ((undisturbed p present).phis isPhi v used)
      · exact isLoad
    have inside : p.insn ∈ f.insns := by
      have path := (runs.path.pass.pass).append onward.trail
      exact path.inside.2.2 _ (List.mem_append_left _ (List.mem_map_of_mem present))
    have loads : ∀ d ∈ f.insns, d.rd = some v → d.opcode = .loadConstant := by
      intro d inside' defines
      by_cases equal : p.insn = d
      · rw [← equal]
        exact isLoad
      · rcases single_of_ne ssa.ssa inside inside' equal v rdEq defines with
          isGlobal | ⟨isPhi, -⟩ | ⟨-, isLoad'⟩
        · rw [accesses.operand_local used] at isGlobal
          cases isGlobal
        · cases isPhi.symm.trans isLoad
        · exact isLoad'
    obtain ⟨d, passed, defines⟩ := accesses.operand_defined ssa runs.path used inside rdEq
    obtain ⟨q, inEarlier, rfl⟩ := List.mem_map.mp passed
    have insideWhole : ∀ p ∈ log, p.insn ∈ f.insns := fun p found =>
      whole.path.inside.2.2 _ (List.mem_map_of_mem found)
    rw [value_of_loads whole insideWhole loads outside ⟨q, sublog inEarlier, defines⟩,
      value_of_loads runs (fun p found => insideWhole p (sublog found)) loads outside
        ⟨q, inEarlier, defines⟩]
  · rw [not_and_or, Bool.not_eq_false, not_exists] at redefined
    have kept : s'.value world vars v = reading.after.value world vars v := by
      rcases redefined with inMemory | untouched
      · exact onward.kept (g := fun s => s.value world vars v) fun p present =>
          (undisturbed p present).operands v used inMemory
      · exact value_of_untouched onward (fun p present rdEq => untouched p ⟨present, rdEq⟩)
          fun inMemory p present => (undisturbed p present).operands v used inMemory
    rw [kept, same]

/-- What makes merging the second access right, apart from the memory: it reads
through its own addition, as many bytes, behind the first access, and nothing else
reads the sum. -/
structure Repeats {f : Func} (first second : Access f) : Prop where
  through : second.read.rs1 = second.add.rd
  width : second.read.sz = first.read.sz
  ahead : first.bb = second.bb → first.before.length < second.before.length
  alone : ∀ insn ∈ f.insns, ∀ x ∈ second.add.rd, x ∈ uses insn →
    insn = second.read ∧ insn.rs2 = none

/-- In every run that is in front of the second read the first has been passed,
and if every step since meets `ok` both reads and the copy have one value. No
instruction left uses the sum that was unlinked. -/
structure MergesSoundly {f : Func} (vars : Vars) (idom : BlockId → BlockId) (fuel : Nat)
    (world : World) (ok : Passage → Passage → Prop) (first second : Access f)
    (base idx : VarId) : Prop where
  reads : ∀ {start : State} {log : List Passage} {s : State},
    f.Runs world vars start log second.bb (second.read :: second.behind) s →
      ∃ since reading earlier, log = since ++ reading :: earlier ∧ reading.insn = first.read ∧
        (∀ p ∈ since, p.insn ≠ first.read) ∧
          ((∀ p ∈ since, ok reading p) →
            evaluate world vars s second.read = evaluate world vars reading.before first.read ∧
              evaluate world vars s (copyOf first.read.rd second.read) =
                evaluate world vars reading.before first.read)
  kept : ∀ bb ∈ f.order, ∀ insn ∈ mergeAccesses idom fuel first base idx bb,
    ∀ x ∈ second.add.rd, x ∉ uses insn

theorem evaluate_read {insn : Insn} {address : VarId} {s : State} (isRead : insn.opcode = .read)
    (rs1Eq : insn.rs1 = some address) :
    evaluate world vars s insn =
      some (world.arch.load s.memory (s.value world vars address) insn.sz) := by
  rcases insn with ⟨op, rd, rs1, rs2, sz, str, useful, idx⟩
  cases isRead
  cases rs1Eq
  rfl

/-- What an addition leaves. -/
theorem exec_add {insn : Insn} {s s' : State} {rd x y : VarId} (isAdd : insn.opcode = .add)
    (rdEq : insn.rd = some rd) (rs1Eq : insn.rs1 = some x) (rs2Eq : insn.rs2 = some y)
    (step : Exec world vars insn s s') :
    s' = s.assign world vars rd (s.value world vars x + s.value world vars y) := by
  obtain ⟨w, value, rfl⟩ := (exec_iff_of_not_acting (by simp [acting, isAdd]) rdEq).mp step
  rw [evaluate_binary (by rw [isAdd]; rfl) rs1Eq rs2Eq, isAdd] at value
  simp only [Opcode.binary, Option.some.injEq] at value
  rw [value]

/-- The two reads have one value. -/
theorem merged_reads {first second : Access f} {base idx : VarId} {fuel : Nat}
    (ssa : SsaTree f vars idom) (separated : world.Separated vars)
    (merges : Merges vars idom fuel first second base idx) (repeats : Repeats first second)
    {start : State} {log : List Passage} {s : State}
    (runs : f.Runs world vars start log second.bb (second.read :: second.behind) s) :
    ∃ since reading earlier, log = since ++ reading :: earlier ∧ reading.insn = first.read ∧
      (∀ p ∈ since, p.insn ≠ first.read) ∧
        ((∀ p ∈ since, ElementSpared world vars first reading p) →
          evaluate world vars s second.read = evaluate world vars reading.before first.read ∧
            evaluate world vars s (copyOf first.read.rd second.read) =
              evaluate world vars reading.before first.read) := by
  obtain ⟨address, result, accesses⟩ := accesses_of_arrayAccess ssa merges.isAccess
  have passes {trace : List Insn} (path : Path f trace second.bb second.point) :
      first.read ∈ trace := merges.passed accesses ssa repeats.ahead path
  obtain ⟨log', s₂, rfl, toAdd, adds₂⟩ := runs.last second.insnsEq
  have addNotRead := merges.add_ne_read accesses
  -- The last time the first read was passed.
  obtain ⟨p, inLog, pEq⟩ := List.mem_map.mp (passes toAdd.path)
  have some_ : (log'.find? fun p => decide (p.insn = first.read)).isSome := by
    rw [List.find?_isSome]
    exact ⟨p, inLog, by simpa using pEq⟩
  obtain ⟨reading, found⟩ := Option.isSome_iff_exists.mp some_
  obtain ⟨isReading, since, earlier, split, later⟩ := List.find?_eq_some_iff_append.mp found
  have isReading : reading.insn = first.read := by simpa using isReading
  have avoids : ∀ p ∈ since, p.insn ≠ first.read := fun p present => by simpa using later p present
  refine ⟨⟨second.add, s₂, s⟩ :: since, reading, earlier, by rw [split]; rfl, isReading, ?_, ?_⟩
  · intro p present
    rcases List.mem_cons.mp present with rfl | present
    · exact addNotRead
    · exact avoids p present
  intro undisturbed
  have notBranch : reading.insn.opcode ≠ .branch := by
    rw [isReading, accesses.isRead]
    nofun
  obtain ⟨bb, rest, toRead, reads, onward⟩ := toAdd.cut split notBranch
  rw [isReading] at toRead reads
  obtain ⟨rfl, rfl, -⟩ := accesses.add_passed ssa (Func.Runs.path toRead)
  obtain ⟨earlier', s₀, rfl, toFirst, adds⟩ := Func.Runs.last toRead first.insnsEq
  have sublog : earlier' ⊆ log' := by
    intro q present
    rw [split]
    simp [present]
  have addEq := exec_add accesses.isAdd accesses.add.rd accesses.rs1 accesses.rs2 adds
  obtain ⟨w, value, readEq⟩ :=
    (exec_iff_of_not_acting (by simp [acting, accesses.isRead]) accesses.read.rd).mp reads
  have operands {v : VarId} (used : v ∈ uses first.add) :
      s₂.value world vars v = s₀.value world vars v := by
    obtain ⟨notAddress, notResult⟩ := accesses.apart ssa toFirst.path used
    apply accesses.operand_kept ssa toFirst onward toAdd sublog avoids passes
      (fun q present => undisturbed q (List.mem_cons_of_mem _ present)) used
    rw [readEq, State.value_assign_ne separated _ _ notResult, addEq,
      State.value_assign_ne separated _ _ notAddress]
  -- The second addition gives the same address.
  obtain ⟨x, -, -, rdEq, -, -, -⟩ :=
    (ssa.ssa.shaped second.add second.add_mem).binary (by rw [merges.isAdd]; rfl)
  have addEq₂ := exec_add merges.isAdd rdEq merges.rs1 merges.rs2 adds₂
  have sum : s.value world vars x = reading.before.value world vars address := by
    rw [addEq₂, addEq, State.value_assign_same, State.value_assign_same,
      operands (by simp [accesses.uses_add]), operands (by simp [accesses.uses_add])]
  have since' := onward.exec adds₂
  have memoryEq : reading.after.memory = reading.before.memory := by
    simp [readEq, State.assign, accesses.outside]
  have element := since'.kept
    (g := fun s => world.arch.load s.memory (reading.before.value world vars address) first.read.sz)
    fun p present => (undisturbed p present).element address accesses.reads
  have second_ : evaluate world vars s second.read =
      evaluate world vars reading.before first.read := by
    rw [evaluate_read merges.isRead (repeats.through.trans rdEq),
      evaluate_read accesses.isRead accesses.reads, repeats.width, sum, element, memoryEq]
  refine ⟨second_, ?_⟩
  have fresh : ∀ p ∈ (⟨second.add, s₂, s⟩ : Passage) :: since, p.insn.rd ≠ some result := by
    intro p present defines
    have inLog : p ∈ (⟨second.add, s₂, s⟩ : Passage) :: log' := by
      rw [split, ← List.cons_append]
      exact List.mem_append_left _ present
    have inside := runs.path.inside.2.2 _ (List.mem_map_of_mem inLog)
    have same := accesses.read.eq ssa.ssa first.read_mem inside defines
    rcases List.mem_cons.mp present with rfl | present
    · exact addNotRead same
    · exact avoids p present same
  have copied : s.value world vars result = reading.after.value world vars result := by
    apply value_of_untouched since' fresh
    intro inMemory
    rw [accesses.outside] at inMemory
    cases inMemory
  rw [value, accesses.read.rd]
  simp [copyOf, evaluate, copied, readEq]

end Value

/-! ## What is left -/

section Left

variable {f : Func} {vars : Vars} {idom : BlockId → BlockId} {fuel : Nat}
  {first second : Access f} {base idx : VarId}

/-- The block of the second access, merged. -/
theorem mergeAccesses_second (merges : Merges vars idom fuel first second base idx)
    (repeats : Repeats first second) (different : second.add ≠ first.read) :
    ∃ before behind, Merged first.read.rd second.before before ∧
      Merged first.read.rd second.behind behind ∧
        mergeAccesses idom fuel first base idx second.bb =
          before ++ copyOf first.read.rd second.read :: behind := by
  have each := mergeReads_merged base idx first.read.rd
  by_cases same : second.bb = first.bb
  · obtain ⟨between, beforeEq⟩ :=
      Access.behind_of_lt same.symm (repeats.ahead same.symm) different
    have behindEq : first.behind = between ++ second.add :: second.read :: second.behind := by
      have blocks := second.insnsEq
      rw [same, first.insnsEq, beforeEq] at blocks
      simpa using blocks
    refine ⟨mergeReads base idx first.read.rd first.before ++
        first.add :: first.read :: mergeReads base idx first.read.rd between, _, ?_,
      each second.behind, ?_⟩
    · rw [beforeEq]
      exact (each first.before).append (.keep _ (.keep _ (each between)))
    · rw [mergeAccesses, if_pos same, behindEq,
        mergeReads_append merges.isAdd merges.isRead merges.rs1 merges.rs2]
      simp
  · refine ⟨_, _, each second.before, each second.behind, ?_⟩
    rw [mergeAccesses, if_neg same, mergeBlock, if_pos merges.dominated, second.insnsEq,
      mergeReads_append merges.isAdd merges.isRead merges.rs1 merges.rs2]

theorem mergeAccesses_merged (bb : BlockId) :
    Merged first.read.rd (f.block bb).insns (mergeAccesses idom fuel first base idx bb) := by
  have each := mergeReads_merged base idx first.read.rd
  unfold mergeAccesses
  by_cases same : bb = first.bb
  · rw [if_pos same, same, first.insnsEq]
    exact (each first.before).append (.keep _ (.keep _ (each first.behind)))
  · rw [if_neg same]
    exact mergeBlock_merged idom fuel first.bb base idx first.read.rd (bb, (f.block bb).insns)

/-- No instruction left uses the sum that was unlinked. -/
theorem merged_kept (ssa : SsaTree f vars idom)
    (merges : Merges vars idom fuel first second base idx) (repeats : Repeats first second) :
    ∀ bb ∈ f.order, ∀ insn ∈ mergeAccesses idom fuel first base idx bb,
      ∀ x ∈ second.add.rd, x ∉ uses insn := by
  intro bb inOrder insn left x rdEq used
  obtain ⟨address, result, accesses⟩ := accesses_of_arrayAccess ssa merges.isAccess
  have addNotRead := merges.add_ne_read accesses
  -- A read that is merged away no longer uses the sum.
  have copies {original : Insn} (inside : original ∈ f.insns)
      (copied : x ∈ uses (copyOf first.read.rd original)) : False := by
    have either : x = result ∨ x ∈ uses original := by
      simp only [copyOf, uses, accesses.read.rd, List.mem_append, Option.mem_toList,
        Option.some.injEq] at copied ⊢
      tauto
    rcases either with rfl | used
    · exact addNotRead (accesses.read.eq ssa.ssa first.read_mem second.add_mem rdEq)
    · obtain ⟨-, noRs2⟩ := repeats.alone original inside x rdEq used
      simp only [copyOf, uses, noRs2, accesses.read.rd, Option.toList_none, List.append_nil,
        Option.toList_some, List.mem_singleton] at copied
      subst copied
      exact addNotRead (accesses.read.eq ssa.ssa first.read_mem second.add_mem rdEq)
  rcases (mergeAccesses_merged bb).origin left with kept | ⟨original, present, isRead, rfl⟩
  · have inside := Func.mem_insns inOrder kept
    obtain ⟨rfl, -⟩ := repeats.alone insn inside x rdEq used
    obtain ⟨result', readRd⟩ := Option.isSome_iff_exists.mp
      ((ssa.ssa.shaped second.read second.read_mem).read merges.isRead)
    have outside := ssa.temporary second.read second.read_mem merges.isRead result' readRd
    have sole := sole_of_read merges.isRead readRd outside
    have block : (f.block second.bb).insns =
        (second.before ++ [second.add]) ++ second.read :: second.behind := by
      simp [second.insnsEq]
    obtain ⟨notBefore, notBehind, only⟩ := sole.once ssa.ssa second.inOrder block
    obtain rfl := only bb inOrder kept
    obtain ⟨before, behind, mergedBefore, mergedBehind, leftEq⟩ :=
      mergeAccesses_second merges repeats addNotRead
    -- Neither what stood before it nor what stood behind it becomes this read.
    have gone {source target : List Insn} (merged : Merged first.read.rd source target)
        (absent : second.read ∉ source) : second.read ∉ target := by
      intro present
      rcases merged.origin present with inSource | ⟨original, -, -, same⟩
      · exact absent inSource
      · have opcodes := congrArg Insn.opcode same
        rw [merges.isRead] at opcodes
        cases opcodes
    rw [leftEq] at left
    rcases List.mem_append.mp left with inBefore | left
    · exact gone mergedBefore (fun present => notBefore (List.mem_append_left _ present)) inBefore
    · rcases List.mem_cons.mp left with same | inBehind
      · have opcodes := congrArg Insn.opcode same
        rw [merges.isRead] at opcodes
        cases opcodes
      · exact gone mergedBehind notBehind inBehind
  · exact copies (Func.mem_insns inOrder present) used

/-- The loop stands at the first access. -/
structure StandsAt (c : Cursor) (vars : Vars) (first : Access f) : Prop where
  vars : c.vars = vars
  bb : c.bb = first.bb
  before : c.before = first.add :: first.before.reverse
  pending : c.pending = first.read :: first.behind
  blocks : ∀ block ∈ c.processed ++ c.queue,
    block.1 ≠ first.bb ∧ block.2 = (f.block block.1).insns

/-- What the loop does there. -/
theorem visit_access (undefined : Opcode → Word → Word → Word) {c : Cursor}
    (stands : StandsAt c vars first)
    (isAccess : arrayAccess vars (some first.add) first.read = some (base, idx)) :
    (visit undefined idom fuel c first.read first.behind).vars = vars ∧
      (visit undefined idom fuel c first.read first.behind).before.reverse ++
          (visit undefined idom fuel c first.read first.behind).pending =
        mergeAccesses idom fuel first base idx first.bb ∧
      ∀ block ∈ (visit undefined idom fuel c first.read first.behind).processed ++
          (visit undefined idom fuel c first.read first.behind).queue,
        block.2 = mergeAccesses idom fuel first base idx block.1 := by
  have isRead : first.read.opcode = .read := by
    unfold arrayAccess at isAccess
    simp only at isAccess
    split at isAccess
    · rename_i pattern
      exact pattern.1
    · cases isAccess
  have unfolded : constFolding undefined vars c.before.head? first.read =
      ⟨false, vars, first.read⟩ := by
    rcases constFolding_cases undefined vars c.before.head? first.read with
      same | ⟨rd, isLoad, -⟩ | ⟨-, isAssign | binary | unary, -⟩
    · exact same
    · cases isRead.symm.trans isLoad
    · cases isRead.symm.trans isAssign
    · rw [isRead] at binary
      cases binary
    · rw [isRead] at unary
      cases unary
  have visited : visit undefined idom fuel c first.read first.behind =
      { vars := vars
        processed := c.processed.map (mergeBlock idom fuel first.bb base idx first.read.rd)
        bb := first.bb
        before := first.read :: first.add ::
          (mergeReads base idx first.read.rd first.before).reverse
        pending := mergeReads base idx first.read.rd first.behind
        queue := c.queue.map (mergeBlock idom fuel first.bb base idx first.read.rd) } := by
    rw [visit, stands.vars, unfolded]
    simp [stands.before, stands.bb, isAccess]
  rw [visited]
  refine ⟨rfl, by simp [mergeAccesses], fun block present => ?_⟩
  rw [← List.map_append] at present
  obtain ⟨source, inSource, rfl⟩ := List.mem_map.mp present
  obtain ⟨other, insnsEq⟩ := stands.blocks source inSource
  have name : (mergeBlock idom fuel first.bb base idx first.read.rd source).1 = source.1 := by
    unfold mergeBlock
    split <;> rfl
  rw [name, mergeAccesses, if_neg other, ← insnsEq]

end Left

/-- Merging is sound where the second access repeats the first and, in every run,
nothing since the first read has changed the element. -/
theorem mergeReads_sound {f : Func} {vars : Vars} {idom : BlockId → BlockId}
    (ssa : SsaTree f vars idom) {world : World} (separated : world.Separated vars) (fuel : Nat)
    {first second : Access f} {base idx : VarId}
    (merges : Merges vars idom fuel first second base idx) (repeats : Repeats first second) :
    MergesSoundly vars idom fuel world (ElementSpared world vars first) first second base idx where
  reads := merged_reads ssa separated merges repeats
  kept := merged_kept ssa merges repeats

/-! ## A store in between -/

/-- The instructions of `char d = s[i]; s[i] = 7; char e = s[i]`, where the
parameters `s` and `i` are the variables `1` and `2`. -/
def elementTwice : List Insn :=
  [Insn.binary .add 3 1 2, { opcode := .read, rd := some 4, rs1 := some 3, sz := 1 },
    { opcode := .loadConstant, rd := some 5 },
    { opcode := .write, rs1 := some 3, rs2 := some 5, sz := 1 }, Insn.binary .add 6 1 2,
    { opcode := .read, rd := some 7, rs1 := some 6, sz := 1 }]

/-- The function of that one block. -/
def overwritten : Func where
  entry := 0
  block _ := { insns := elementTwice }
  rest := []
  closed := by
    intro bb _ succ edge
    simp [Block.successors] at edge

/-- The variables of the function. -/
def overwrittenVars (v : VarId) : Var :=
  if v = 5 then { initVal := 7 } else {}

/-- The access of `d`. -/
def firstElement : Access overwritten where
  bb := 0
  inOrder := List.mem_cons_self
  before := []
  add := elementTwice[0]
  read := elementTwice[1]
  behind := elementTwice.drop 2
  insnsEq := rfl

/-- The access of `e`. -/
def secondElement : Access overwritten where
  bb := 0
  inOrder := List.mem_cons_self
  before := elementTwice.take 4
  add := elementTwice[4]
  read := elementTwice[5]
  behind := []
  insnsEq := rfl

theorem overwritten_insns : overwritten.insns = elementTwice := by
  simp [Func.insns, Func.order, overwritten]

theorem overwritten_resident (v : VarId) : resident overwrittenVars v = false := by
  unfold resident overwrittenVars
  split <;> rfl

theorem overwritten_ssaTree : SsaTree overwritten overwrittenVars id where
  ssa :=
    { single := by
        rw [overwritten_insns]
        simp [elementTwice, SingleAssignment, Insn.binary]
      shaped := by
        intro insn present
        simp only [overwritten_insns, elementTwice, List.mem_cons, List.not_mem_nil, or_false]
          at present
        rcases present with rfl | rfl | rfl | rfl | rfl | rfl
        · exact ⟨fun _ => ⟨3, 1, 2, rfl, rfl, rfl, rfl⟩, by rintro ⟨⟩, by rintro ⟨⟩, by rintro ⟨⟩⟩
        · exact ⟨by rintro ⟨⟩, by rintro ⟨⟩, by rintro ⟨⟩, fun _ => rfl⟩
        · exact Shaped.load_of rfl rfl rfl
        · exact ⟨by rintro ⟨⟩, by rintro ⟨⟩, by rintro ⟨⟩, by rintro ⟨⟩⟩
        · exact ⟨fun _ => ⟨6, 1, 2, rfl, rfl, rfl, rfl⟩, by rintro ⟨⟩, by rintro ⟨⟩, by rintro ⟨⟩⟩
        · exact ⟨by rintro ⟨⟩, by rintro ⟨⟩, by rintro ⟨⟩, fun _ => rfl⟩ }
  strict := by
    have strict : overwritten.Strict := SsaFunc.strict_of_straight rfl rfl
      (by
        simp only [overwritten, elementTwice, uses, List.pairwise_cons]
        decide)
      (by
        simp only [overwritten, elementTwice, uses]
        decide)
    intro trace bb insn rest path x used _ defined
    exact strict path x used defined
  branchLast := by
    intro bb before insn behind block isBranch
    have present : insn ∈ elementTwice := by
      change elementTwice = _ at block
      rw [block]
      simp
    have none_ : ∀ insn ∈ elementTwice, insn.opcode ≠ .branch := by decide
    exact absurd isBranch (none_ insn present)
  tree := Dominates.refl overwritten
  temporary := fun _ _ _ rd _ => overwritten_resident rd

theorem overwritten_separated : SsaFunc.plainWorld.Separated overwrittenVars := by
  intro u v inMemory
  rw [overwritten_resident] at inMemory
  cases inMemory

theorem overwritten_merges :
    Merges overwrittenVars id 1 firstElement secondElement 1 2 where
  isAccess := rfl
  isAdd := rfl
  isRead := rfl
  rs1 := rfl
  rs2 := rfl
  dominated := rfl
  other := by
    intro _
    decide

theorem overwritten_repeats : Repeats firstElement secondElement where
  through := rfl
  width := rfl
  ahead := by
    intro _
    decide
  alone := by
    rw [overwritten_insns]
    decide

/-- In that function `e` is right where the store goes elsewhere. -/
theorem overwritten_sound :
    MergesSoundly overwrittenVars id 1 SsaFunc.plainWorld
      (ElementSpared SsaFunc.plainWorld overwrittenVars firstElement) firstElement secondElement
        1 2 :=
  mergeReads_sound overwritten_ssaTree overwritten_separated 1 overwritten_merges
    overwritten_repeats

/-- Behind the store to the element the second read does not return what the first
returned. -/
theorem overwritten_not_sound :
    ¬∀ (f : Func) (vars : Vars) (idom : BlockId → BlockId) (world : World) (fuel : Nat)
      (first second : Access f) (base idx : VarId), SsaTree f vars idom → world.Separated vars →
        Merges vars idom fuel first second base idx →
          MergesSoundly vars idom fuel world (fun _ _ => True) first second base idx := by
  intro sound
  have merged := sound overwritten overwrittenVars id SsaFunc.plainWorld 1 firstElement
    secondElement 1 2 overwritten_ssaTree overwritten_separated overwritten_merges
  have start : overwritten.Runs SsaFunc.plainWorld overwrittenVars
      ⟨fun _ => 0, fun _ => 0, [], 0⟩ [] 0 elementTwice ⟨fun _ => 0, fun _ => 0, [], 0⟩ := .here
  obtain ⟨since, reading, earlier, split, isReading, -, agree⟩ := merged.reads
    (.exec (.exec (.exec (.exec (.exec start (.assigns rfl rfl)) (.assigns rfl rfl))
      (.assigns rfl rfl)) (.writes rfl rfl rfl)) (.assigns rfl rfl))
  have inLog : reading ∈ since ++ reading :: earlier := by simp
  rw [← split] at inLog
  have differs := (agree fun _ _ => trivial).1
  simp only [List.mem_cons, List.not_mem_nil, or_false] at inLog
  rcases inLog with rfl | rfl | rfl | rfl | rfl
  · exact absurd isReading (by decide)
  · exact absurd isReading (by decide)
  · exact absurd isReading (by decide)
  · exact absurd differs (by decide)
  · exact absurd isReading (by decide)

end Shecc.Optimize
