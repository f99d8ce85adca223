import Shecc.Optimize.Driver

/-!
# What the loop of `optimize` keeps

The loop starts on a function in SSA form in which no variable is flagged
constant. This file states what holds at every cursor it reaches: destinations
stay unique, every flagged variable is loaded by an `OP_load_constant` of the
function, and the constants loaded before the cursor are flagged.
-/

namespace Shecc.Optimize

/-- Two instructions may name one destination only when it is a global, a
variable stored by the unwound operands of a phi, or the target of a constant
merged with its truncation. -/
def SingleAssignment (vars : Vars) (a b : Insn) : Prop :=
  ∀ v, a.rd = some v → b.rd = some v →
    (vars v).isGlobal = true ∨
      (a.opcode = .unwoundPhi ∧ b.opcode = .unwoundPhi) ∨
      (a.opcode = .loadConstant ∧ b.opcode = .loadConstant)

/-- Arithmetic and constant loads have their operands and a local destination,
and reads have a destination. -/
structure Shaped (vars : Vars) (insn : Insn) : Prop where
  binary : insn.opcode.isBinary = true →
    ∃ rd x y, insn.rd = some rd ∧ insn.rs1 = some x ∧ insn.rs2 = some y ∧
      (vars rd).isGlobal = false
  unary : insn.opcode.isUnary = true →
    ∃ rd x, insn.rd = some rd ∧ insn.rs1 = some x ∧ (vars rd).isGlobal = false
  load : insn.opcode = .loadConstant →
    ∃ rd, insn.rd = some rd ∧ (vars rd).isGlobal = false
  read : insn.opcode = .read → insn.rd.isSome

/-- A function as SSA construction hands it over: unique destinations and
well-shaped instructions. -/
structure InSsaForm (vars : Vars) (insns : List Insn) : Prop where
  single : insns.Pairwise (SingleAssignment vars)
  shaped : ∀ insn ∈ insns, Shaped vars insn

/-- The invariant of the loop. -/
structure WellFormed (c : Cursor) : Prop where
  ssa : InSsaForm c.vars c.insns
  flagged : ∀ v, (c.vars v).isConst = true →
    ∃ insn ∈ c.insns, insn.opcode = .loadConstant ∧ insn.rd = some v
  loaded : ∀ insn ∈ c.before, insn.opcode = .loadConstant →
    ∀ v ∈ insn.rd, (c.vars v).isConst = true

namespace SingleAssignment

theorem symm {vars : Vars} {a b : Insn} (single : SingleAssignment vars a b) :
    SingleAssignment vars b a := by
  intro v inB inA
  rcases single v inA inB with isGlobal | ⟨phiA, phiB⟩ | ⟨loadA, loadB⟩
  · exact Or.inl isGlobal
  · exact Or.inr (Or.inl ⟨phiB, phiA⟩)
  · exact Or.inr (Or.inr ⟨loadB, loadA⟩)

instance (vars : Vars) : Std.Symm (SingleAssignment vars) where
  symm _ _ single := single.symm

/-- Rewriting an instruction that is neither an unwound phi nor a constant load
keeps destinations unique. -/
theorem rewrite {vars vars' : Vars} {a b left : Insn}
    (sameGlobals : ∀ v, (vars' v).isGlobal = (vars v).isGlobal)
    (destination : ∀ v, left.rd = some v → a.rd = some v)
    (notPhi : a.opcode ≠ .unwoundPhi) (notLoad : a.opcode ≠ .loadConstant)
    (single : SingleAssignment vars a b) : SingleAssignment vars' left b := by
  intro v inLeft inB
  rcases single v (destination v inLeft) inB with isGlobal | phis | loads
  · exact Or.inl ((sameGlobals v).trans isGlobal)
  · exact absurd phis.1 notPhi
  · exact absurd loads.1 notLoad

/-- A read and its copy have the same destination. -/
theorem copy {vars : Vars} {a b : Insn} (definition : Option VarId)
    (isRead : a.opcode = .read) (single : SingleAssignment vars a b) :
    SingleAssignment vars { a with opcode := .assign, rs1 := definition } b := by
  have notPhi : a.opcode ≠ .unwoundPhi := by rw [isRead]; decide
  have notLoad : a.opcode ≠ .loadConstant := by rw [isRead]; decide
  exact rewrite (a := a) (fun _ => rfl) (fun _ same => same) notPhi notLoad single

theorem mono {vars vars' : Vars} {a b : Insn}
    (sameGlobals : ∀ v, (vars' v).isGlobal = (vars v).isGlobal)
    (single : SingleAssignment vars a b) : SingleAssignment vars' a b := by
  intro v inA inB
  rw [sameGlobals]
  exact single v inA inB

end SingleAssignment

theorem Shaped.mono {vars vars' : Vars} {insn : Insn}
    (sameGlobals : ∀ v, (vars' v).isGlobal = (vars v).isGlobal)
    (shaped : Shaped vars insn) : Shaped vars' insn where
  binary := by
    intro binary
    obtain ⟨rd, x, y, rdEq, xEq, yEq, isLocal⟩ := shaped.binary binary
    exact ⟨rd, x, y, rdEq, xEq, yEq, (sameGlobals rd).trans isLocal⟩
  unary := by
    intro unary
    obtain ⟨rd, x, rdEq, xEq, isLocal⟩ := shaped.unary unary
    exact ⟨rd, x, rdEq, xEq, (sameGlobals rd).trans isLocal⟩
  load := by
    intro load
    obtain ⟨rd, rdEq, isLocal⟩ := shaped.load load
    exact ⟨rd, rdEq, (sameGlobals rd).trans isLocal⟩
  read := shaped.read

/-- A copy has no shape to keep. -/
theorem Shaped.assign {vars : Vars} {insn : Insn} (isAssign : insn.opcode = .assign) :
    Shaped vars insn where
  binary := by
    rw [isAssign]
    intro binary
    cases binary
  unary := by
    rw [isAssign]
    intro unary
    cases unary
  load := by
    rw [isAssign]
    intro load
    cases load
  read := by
    rw [isAssign]
    intro read
    cases read

/-! ## One round of the loop -/

/-- The instruction under the cursor will be strength reduced: a product,
quotient or remainder of a variable by a constant power of two from two on, with
no earlier instruction of the block computing the same. -/
def ReducesStrength (c : Cursor) (insn : Insn) : Prop :=
  (insn.opcode = .mul ∨ insn.opcode = .div ∨ insn.opcode = .mod) ∧
    cseBinary c.vars c.before.reverse insn = none ∧
    ∃ rd x y n, insn.rd = some rd ∧ insn.rs1 = some x ∧ insn.rs2 = some y ∧
      (c.vars x).isConst = false ∧ (c.vars y).isConst = true ∧
      1 ≤ n ∧ n < 31 ∧ (c.vars y).initVal = Word.pow2 n

/-- What strength reduction does to the records and the instruction. -/
def Reduced (vars : Vars) (insn : Insn) (vars' : Vars) (left : Insn) : Prop :=
  ∃ y n value, insn.rs2 = some y ∧ (vars y).isConst = true ∧
    (vars y).initVal = Word.pow2 n ∧ value ≠ Word.pow2 n ∧
    vars' = vars.setInitVal y value ∧
    left.rd = insn.rd ∧ left.rs1 = insn.rs1 ∧ left.rs2 = insn.rs2 ∧
    left.opcode.isBinary = true ∧ left.opcode ≠ .add ∧ insn.opcode.isBinary = true

namespace Cursor

/-- The instructions before the cursor and those after the next one. -/
def behind (c : Cursor) : List Insn :=
  c.processed.reverse.flatMap Prod.snd ++ c.before.reverse

/-- The instructions that follow `rest` in the function. -/
def ahead (c : Cursor) (rest : List Insn) : List Insn :=
  rest ++ c.queue.flatMap Prod.snd

theorem insns_eq {c : Cursor} {insn : Insn} {rest : List Insn}
    (pending : c.pending = insn :: rest) : c.insns = c.behind ++ insn :: c.ahead rest := by
  simp [insns, behind, ahead, pending]

end Cursor

variable (undefined : Opcode → Word → Word → Word) (idom : BlockId → BlockId) (fuel : Nat)

/-- What one round of the loop leaves: a rewritten instruction and, when the
instruction is an array read, the merged remainder of the function. -/
structure Visited (c : Cursor) (insn : Insn) (rest : List Insn) (after : Cursor)
    (left : Insn) : Prop where
  behind : Merged insn.rd (c.behind ++ [left]) after.behind
  ahead : Merged insn.rd (c.ahead rest) (after.ahead after.pending)
  merges : (insn.opcode = .read ∧ left = insn) ∨ after.ahead after.pending = c.ahead rest
  head : after.before.head? = some left
  before : ∀ p ∈ after.before, p = left ∨ p ∈ c.before ∨ p.opcode = .assign
  loads : insn.opcode = .loadConstant → ∀ v ∈ insn.rd, (after.vars v).isConst = true
  effect : Benign c.vars insn after.vars left ∨
    ReducesStrength c insn ∧ Reduced c.vars insn after.vars left
  value : left.opcode = .loadConstant →
    ∀ env, Computes env (c.vars, insn) (after.vars, left)

theorem Cursor.insns_split (c : Cursor) : c.insns = c.behind ++ c.ahead c.pending := by
  simp [insns, behind, ahead]

/-- The whole function after a round. -/
theorem Visited.merged {c after : Cursor} {insn left : Insn} {rest : List Insn}
    (visited : Visited c insn rest after left) :
    Merged insn.rd (c.behind ++ left :: c.ahead rest) after.insns := by
  rw [Cursor.insns_split, List.append_cons]
  exact visited.behind.append visited.ahead

theorem mergeBlock_merged (bb : BlockId) (base idx : VarId) (definition : Option VarId)
    (block : BlockId × List Insn) :
    Merged definition block.2 (mergeBlock idom fuel bb base idx definition block).2 := by
  unfold mergeBlock
  split
  · exact mergeReads_merged base idx definition block.2
  · exact Merged.refl block.2

/-- The cursor after a round that only replaces the instruction under it. -/
theorem visited_of_replaced {c : Cursor} {insn left : Insn} {rest : List Insn} {vars : Vars}
    (effect : Benign c.vars insn vars left ∨
      ReducesStrength c insn ∧ Reduced c.vars insn vars left)
    (loads : insn.opcode = .loadConstant → ∀ v ∈ insn.rd, (vars v).isConst = true)
    (value : left.opcode = .loadConstant →
      ∀ env, Computes env (c.vars, insn) (vars, left)) :
    Visited c insn rest
      { c with vars := vars, before := left :: c.before, pending := rest } left where
  behind := by
    have same : Cursor.behind { c with vars := vars, before := left :: c.before, pending := rest } =
        c.behind ++ [left] := by
      simp [Cursor.behind]
    rw [same]
    exact Merged.refl _
  ahead := Merged.refl _
  merges := Or.inr rfl
  head := rfl
  before := by
    intro p present
    rcases List.mem_cons.mp present with same | present
    · exact Or.inl same
    · exact Or.inr (Or.inl present)
  loads := loads
  effect := effect
  value := value

/-- The cursor after a round that merges array reads. -/
theorem visited_of_merged {c : Cursor} {insn : Insn} {rest : List Insn} (base idx : VarId)
    (isRead : insn.opcode = .read) :
    Visited c insn rest
      { vars := c.vars
        processed := c.processed.map (mergeBlock idom fuel c.bb base idx insn.rd)
        bb := c.bb
        before := insn :: (c.before.take 1 ++
          (mergeReads base idx insn.rd (c.before.drop 1).reverse).reverse)
        pending := mergeReads base idx insn.rd rest
        queue := c.queue.map (mergeBlock idom fuel c.bb base idx insn.rd) } insn where
  behind := by
    have split : c.before.reverse =
        (c.before.drop 1).reverse ++ (c.before.take 1).reverse := by
      rw [← List.reverse_append, List.take_append_drop]
    simp only [Cursor.behind, split]
    rw [List.reverse_cons, List.reverse_append, List.reverse_reverse, ← List.map_reverse]
    have blocks : Merged insn.rd (c.processed.reverse.flatMap Prod.snd)
        ((c.processed.reverse.map (mergeBlock idom fuel c.bb base idx insn.rd)).flatMap
          Prod.snd) :=
      Merged.flatMap (mergeBlock_merged idom fuel c.bb base idx insn.rd)
    have whole := blocks.append
      ((mergeReads_merged base idx insn.rd (c.before.drop 1).reverse).append
        (Merged.refl ((c.before.take 1).reverse ++ [insn])))
    simpa [List.append_assoc] using whole
  ahead := (mergeReads_merged base idx insn.rd rest).append
    (Merged.flatMap (mergeBlock_merged idom fuel c.bb base idx insn.rd))
  merges := Or.inl ⟨isRead, rfl⟩
  head := rfl
  before := by
    intro p present
    rcases List.mem_cons.mp present with same | present
    · exact Or.inl same
    · rcases List.mem_append.mp present with present | present
      · exact Or.inr (Or.inl (List.mem_of_mem_take present))
      · rw [List.mem_reverse] at present
        rcases (mergeReads_merged base idx insn.rd _).origin present with kept | ⟨_, _, _, rfl⟩
        · exact Or.inr (Or.inl (List.mem_of_mem_drop (List.mem_reverse.mp kept)))
        · exact Or.inr (Or.inr rfl)
  loads := fun isLoad => by
    rw [isRead] at isLoad
    cases isLoad
  effect := Or.inl .same
  value := fun isLoad => by
    rw [isRead] at isLoad
    cases isLoad

theorem isBinary_of_isCseCandidate {insn : Insn} (candidate : isCseCandidate insn = true) :
    insn.opcode.isBinary = true := by
  unfold isCseCandidate at candidate
  split at candidate <;> first | (rename_i opcodeEq; rw [opcodeEq]; rfl) | cases candidate

theorem cseBinary_effect {vars : Vars} {earlier : List Insn} {insn copy : Insn}
    (found : cseBinary vars earlier insn = some copy) : Benign vars insn vars copy := by
  unfold cseBinary at found
  split at found
  · split at found
    · rename_i candidate
      obtain ⟨other, -, rfl⟩ := Option.map_eq_some_iff.mp found
      rw [Bool.and_eq_true, Bool.and_eq_true] at candidate
      exact .move rfl (Or.inl rfl) (isBinary_of_isCseCandidate candidate.1.1)
    · cases found
  · cases found

theorem cseBinary_assign {vars : Vars} {earlier : List Insn} {insn copy : Insn}
    (found : cseBinary vars earlier insn = some copy) : copy.opcode = .assign := by
  unfold cseBinary at found
  split at found
  · split at found
    · obtain ⟨other, -, rfl⟩ := Option.map_eq_some_iff.mp found
      rfl
    · cases found
  · cases found

theorem cseBinary_eq_none {vars : Vars} {earlier : List Insn} {insn : Insn}
    (notBinary : insn.opcode.isBinary = false) : cseBinary vars earlier insn = none := by
  cases found : cseBinary vars earlier insn with
  | none => rfl
  | some copy =>
      unfold cseBinary at found
      split at found
      · split at found
        · rename_i candidate
          rw [Bool.and_eq_true, Bool.and_eq_true] at candidate
          rw [isBinary_of_isCseCandidate candidate.1.1] at notBinary
          cases notBinary
        · cases found
      · cases found

theorem arrayAccess_eq_none {vars : Vars} {prev : Option Insn} {insn : Insn}
    (notRead : insn.opcode ≠ .read) : arrayAccess vars prev insn = none := by
  unfold arrayAccess
  split
  · rw [if_neg (fun pattern => notRead pattern.1)]
  · rfl

/-- A binary instruction with two constant operands and a non-zero second one
is folded. -/
theorem constFolding_changed {vars : Vars} {prev : Option Insn} {insn : Insn}
    {rd x y : VarId} (binary : insn.opcode.isBinary = true) (rdEq : insn.rd = some rd)
    (rs1Eq : insn.rs1 = some x) (rs2Eq : insn.rs2 = some y)
    (constantX : (vars x).isConst = true) (constantY : (vars y).isConst = true)
    (nonzero : (vars y).initVal ≠ 0) :
    (constFolding undefined vars prev insn).changed = true := by
  have unmarked : markConst vars prev insn = ⟨false, vars, insn⟩ := by
    rcases markConst_cases vars prev insn with same | ⟨_, isLoad, -⟩ | ⟨isAssign, -⟩
    · exact same
    · rw [isLoad] at binary
      cases binary
    · rw [isAssign] at binary
      cases binary
  have folds : foldBinary undefined insn.opcode (vars x).initVal (vars y).initVal =
      some ((insn.opcode.binary (vars x).initVal (vars y).initVal).getD
        (undefined insn.opcode (vars x).initVal (vars y).initVal)) := by
    rw [foldBinary, if_neg (by simp [binary]), if_neg (fun zero => nonzero zero.2)]
  rw [constFolding, unmarked]
  simp only [Bool.false_eq_true, if_false]
  simp only [evalConstArithmetic, rdEq, rs1Eq, rs2Eq, constantX, constantY, Bool.and_self,
    if_true, folds]

/-- A binary instruction with a variable first operand is not folded. -/
theorem constFolding_variable {vars : Vars} {prev : Option Insn} {insn : Insn} {x : VarId}
    (binary : insn.opcode.isBinary = true) (rs1Eq : insn.rs1 = some x)
    (variable_ : (vars x).isConst = false) :
    constFolding undefined vars prev insn = ⟨false, vars, insn⟩ := by
  have arithmetic : evalConstArithmetic undefined vars insn = ⟨false, vars, insn⟩ := by
    unfold evalConstArithmetic
    split
    · rename_i rs1Eq' _
      obtain rfl := Option.some.inj (rs1Eq.symm.trans rs1Eq')
      rw [variable_, Bool.false_and]
      rfl
    · rfl
  have unary : evalConstUnary vars insn = ⟨false, vars, insn⟩ := by
    unfold evalConstUnary
    split
    · rename_i rs1Eq'
      obtain rfl := Option.some.inj (rs1Eq.symm.trans rs1Eq')
      rw [variable_]
      rfl
    · rfl
  rcases markConst_cases vars prev insn with same | ⟨_, isLoad, -⟩ | ⟨isAssign, -⟩
  · rw [constFolding, same]
    simp only [Bool.false_eq_true, if_false]
    rw [arithmetic]
    simp only [Bool.false_eq_true, if_false]
    exact unary
  · rw [isLoad] at binary
    cases binary
  · rw [isAssign] at binary
    cases binary

/-- The effect of dropping or simplifying an instruction that was not folded. -/
theorem simplifyOrDrop_effect {c : Cursor} {insn : Insn} (shaped : Shaped c.vars insn)
    (notFolded : (constFolding undefined c.vars c.before.head? insn).changed = false)
    (noCopy : cseBinary c.vars c.before.reverse insn = none) :
    (Benign c.vars insn (simplifyOrDrop c.vars insn).1 (simplifyOrDrop c.vars insn).2 ∨
      ReducesStrength c insn ∧
        Reduced c.vars insn (simplifyOrDrop c.vars insn).1 (simplifyOrDrop c.vars insn).2) ∧
      (insn.opcode ≠ .loadConstant → (simplifyOrDrop c.vars insn).2.opcode = .loadConstant →
        ∀ env, Computes env (c.vars, insn) (simplifyOrDrop c.vars insn)) := by
  unfold simplifyOrDrop
  split
  · rename_i selfCopy
    refine ⟨Or.inl (.drop rfl selfCopy.1 selfCopy.1), fun _ isLoad => ?_⟩
    rw [selfCopy.1] at isLoad
    cases isLoad
  · rcases simplify_cases c.vars insn with ⟨benign, binary, agree⟩ | ⟨identity, reduced⟩
    · obtain ⟨rd, x, y, -, rs1Eq, -⟩ := shaped.binary binary
      exact ⟨Or.inl benign, fun _ _ env => agree env (by rw [rs1Eq]; rfl)⟩
    · rcases strengthReduction_cases c.vars insn with same |
        ⟨y, n, value, op, source, rs2Eq, constant, small, power, changes, binaryOp, notAdd, edit⟩
      · rw [reduced, same]
        exact ⟨Or.inl .same, fun notLoad isLoad => absurd isLoad notLoad⟩
      · have binary : insn.opcode.isBinary = true := by
          rcases source with opcodeEq | opcodeEq | opcodeEq <;> rw [opcodeEq] <;> rfl
        obtain ⟨rd, x, y', rdEq, rs1Eq, rs2Eq', -⟩ := shaped.binary binary
        have positive := exponent_positive rdEq rs2Eq constant power source identity
        have dividend : (c.vars x).isConst = false := by
          by_contra constantX
          have nonzero : (c.vars y).initVal ≠ 0 := by
            rw [power]
            exact Word.pow2_ne_zero small
          rw [constFolding_changed undefined binary rdEq rs1Eq rs2Eq (by simpa using constantX)
            constant nonzero] at notFolded
          cases notFolded
        rw [reduced, edit]
        refine ⟨Or.inr
          ⟨⟨source, noCopy, rd, x, y, n, rdEq, rs1Eq, rs2Eq, dividend, constant, positive, small,
            power⟩,
            ⟨y, n, value, rs2Eq, constant, power, changes positive, rfl, rfl, rfl, rfl, binaryOp,
              notAdd, binary⟩⟩, fun _ isLoad => ?_⟩
        have isLoad' : op = .loadConstant := isLoad
        rw [isLoad'] at binaryOp
        cases binaryOp

/-- Visiting a constant load flags its destination and does nothing else. -/
theorem visit_load {c : Cursor} {insn : Insn} {rest : List Insn} {rd : VarId}
    (isLoad : insn.opcode = .loadConstant) (rdEq : insn.rd = some rd) :
    visit undefined idom fuel c insn rest =
      { c with
        vars := c.vars.setConst rd (c.vars rd).initVal
        before := insn :: c.before
        pending := rest } := by
  have notBinary : insn.opcode.isBinary = false := by rw [isLoad]; rfl
  have notUnary : insn.opcode.isUnary = false := by rw [isLoad]; rfl
  have marked : markConst c.vars c.before.head? insn =
      ⟨false, c.vars.setConst rd (c.vars rd).initVal, insn⟩ := by
    simp only [markConst, isLoad, rdEq]
    rfl
  have folded : constFolding undefined c.vars c.before.head? insn =
      ⟨false, c.vars.setConst rd (c.vars rd).initVal, insn⟩ := by
    rw [constFolding, marked]
    simp only [Bool.false_eq_true, if_false]
    rcases evalConstArithmetic_cases undefined (c.vars.setConst rd (c.vars rd).initVal) insn with
      same | ⟨binary, -⟩
    · rw [same]
      simp only [Bool.false_eq_true, if_false]
      rcases evalConstUnary_cases (c.vars.setConst rd (c.vars rd).initVal) insn with
        same | ⟨unary, -⟩
      · exact same
      · rw [notUnary] at unary
        cases unary
    · rw [notBinary] at binary
      cases binary
  have kept : simplifyOrDrop (c.vars.setConst rd (c.vars rd).initVal) insn =
      (c.vars.setConst rd (c.vars rd).initVal, insn) := by
    unfold simplifyOrDrop
    rw [if_neg (by simp [isLoad])]
    rcases simplify_cases (c.vars.setConst rd (c.vars rd).initVal) insn with
      ⟨-, binary, -⟩ | ⟨-, reduced⟩
    · rw [notBinary] at binary
      cases binary
    · rw [reduced]
      rcases strengthReduction_cases (c.vars.setConst rd (c.vars rd).initVal) insn with same |
        ⟨_, _, _, _, source, -⟩
      · exact same
      · rw [isLoad] at source
        rcases source with impossible | impossible | impossible <;> cases impossible
  unfold visit
  simp only [folded, Bool.false_eq_true, if_false]
  rw [arrayAccess_eq_none (by rw [isLoad]; decide), cseBinary_eq_none notBinary]
  simp only [kept]

/-- Every round of the loop is of one of the shapes above. -/
theorem visit_visited {c : Cursor} {insn : Insn} {rest : List Insn}
    (shaped : Shaped c.vars insn)
    (loaded : ∀ p ∈ c.before.head?, p.opcode = .loadConstant →
      ∀ v ∈ p.rd, (c.vars v).isConst = true) :
    ∃ left, Visited c insn rest (visit undefined idom fuel c insn rest) left := by
  by_cases isLoad : insn.opcode = .loadConstant
  · obtain ⟨rd, rdEq, -⟩ := shaped.load isLoad
    rw [visit_load undefined idom fuel isLoad rdEq]
    refine ⟨insn, visited_of_replaced (Or.inl (.flag isLoad rdEq)) ?_ ?_⟩
    · intro _ v inRd
      obtain rfl := Option.some.inj (rdEq.symm.trans inRd)
      simp
    · intro _ env w computed
      rw [computes] at computed ⊢
      simpa [isLoad, rdEq] using computed
  · have noLoads {vars : Vars} (claimed : insn.opcode = .loadConstant) :
        ∀ v ∈ insn.rd, (vars v).isConst = true := absurd claimed isLoad
    have folds := constFolding_cases undefined c.vars c.before.head? insn
    have agrees (env : Env) :
        Computes env (c.vars, insn)
          ((constFolding undefined c.vars c.before.head? insn).vars,
            (constFolding undefined c.vars c.before.head? insn).insn) :=
      constFolding_computes undefined env loaded
    unfold visit
    simp only
    rcases folds with same | ⟨rd, claimed, -⟩ | ⟨changed, -, benign⟩
    · rw [same]
      simp only [Bool.false_eq_true, if_false]
      split
      · rename_i base idx access
        have isRead : insn.opcode = .read := by
          by_contra notRead
          rw [arrayAccess_eq_none notRead] at access
          cases access
        exact ⟨insn, visited_of_merged idom fuel base idx isRead⟩
      · split
        · rename_i copy found
          refine ⟨copy, visited_of_replaced (Or.inl (cseBinary_effect found)) noLoads ?_⟩
          intro copyLoads
          rw [cseBinary_assign found] at copyLoads
          cases copyLoads
        · rename_i noCopy
          obtain ⟨effect, value⟩ := simplifyOrDrop_effect undefined shaped (by rw [same]) noCopy
          exact ⟨_, visited_of_replaced effect noLoads (value isLoad)⟩
    · exact absurd claimed isLoad
    · rw [if_pos changed]
      exact ⟨_, visited_of_replaced (Or.inl benign) noLoads fun _ => agrees⟩

/-! ## Preservation -/

section Preservation

variable {c after : Cursor} {insn left : Insn} {rest : List Insn}

theorem Visited.sameGlobals (visited : Visited c insn rest after left) (v : VarId) :
    (after.vars v).isGlobal = (c.vars v).isGlobal := by
  rcases visited.effect with benign | ⟨-, y, n, value, -, -, -, -, varsEq, -⟩
  · generalize after.vars = vars' at benign
    cases benign <;> simp
  · rw [varsEq]
    simp

/-- No round clears a constant flag. -/
theorem Visited.keepsFlags (visited : Visited c insn rest after left) {v : VarId}
    (flagged : (c.vars v).isConst = true) : (after.vars v).isConst = true := by
  have setConst (rd : VarId) (k : Word) : ((c.vars.setConst rd k) v).isConst = true := by
    by_cases same : v = rd
    · subst same
      simp
    · simp [same, flagged]
  rcases visited.effect with benign | ⟨-, y, n, value, -, -, -, -, varsEq, -⟩
  · generalize after.vars = vars' at benign
    cases benign <;> first | exact flagged | exact setConst _ _
  · rw [varsEq]
    simpa using flagged

/-- A constant load is never rewritten. -/
theorem Visited.load_kept (visited : Visited c insn rest after left)
    (isLoad : insn.opcode = .loadConstant) : left = insn := by
  rcases visited.effect with benign | ⟨-, y, n, value, -, -, -, -, -, -, -, -, -, -, binary⟩
  · generalize after.vars = vars' at benign
    cases benign with
    | same => rfl
    | flag => rfl
    | constant _ _ _ source =>
        rw [isLoad] at source
        rcases source with ⟨impossible, -⟩ | impossible | impossible <;> cases impossible
    | move _ _ source =>
        rw [isLoad] at source
        cases source
    | drop _ _ source =>
        rw [isLoad] at source
        cases source
  · rw [isLoad] at binary
    cases binary

/-- The rewritten instruction keeps or drops the destination, and only
instructions other than unwound phis and constant loads change. -/
theorem Visited.rewrites (visited : Visited c insn rest after left) :
    left = insn ∨
      (∀ v, left.rd = some v → insn.rd = some v) ∧
        insn.opcode ≠ .unwoundPhi ∧ insn.opcode ≠ .loadConstant := by
  have ofBinary (binary : insn.opcode.isBinary = true) :
      insn.opcode ≠ .unwoundPhi ∧ insn.opcode ≠ .loadConstant := by
    constructor <;> intro opcodeEq <;> rw [opcodeEq] at binary <;> cases binary
  rcases visited.effect with benign | ⟨-, y, n, value, -, -, -, -, -, rdEq, -, -, -, -, binary⟩
  · generalize after.vars = vars' at benign
    cases benign with
    | same => exact Or.inl rfl
    | flag => exact Or.inl rfl
    | constant rdEq rdEq' _ source =>
        refine Or.inr ⟨fun v inLeft => ?_, ?_⟩
        · rw [rdEq, ← rdEq', inLeft]
        · rcases source with ⟨isAssign, -⟩ | binary | unary
          · rw [isAssign]
            exact ⟨by decide, by decide⟩
          · exact ofBinary binary
          · constructor <;> intro opcodeEq <;> rw [opcodeEq] at unary <;> cases unary
    | move rdEq _ source =>
        exact Or.inr ⟨fun v inLeft => rdEq ▸ inLeft, ofBinary source⟩
    | drop rdEq _ source =>
        refine Or.inr ⟨fun v inLeft => ?_, ?_⟩
        · rw [rdEq] at inLeft
          cases inLeft
        · rw [source]
          exact ⟨by decide, by decide⟩
  · exact Or.inr ⟨fun v inLeft => rdEq ▸ inLeft, ofBinary binary⟩

/-- The rewritten instruction is well shaped. -/
theorem Visited.shaped (visited : Visited c insn rest after left)
    (shaped : Shaped c.vars insn) : Shaped after.vars left := by
  have kept := shaped.mono visited.sameGlobals
  rcases visited.effect with benign |
    ⟨-, y, n, value, -, -, -, -, -, rdEq, rs1Eq, rs2Eq, binary', -, binary⟩
  · have globals := visited.sameGlobals
    generalize after.vars = vars' at benign kept globals
    cases benign with
    | same => exact kept
    | flag => exact kept
    | @constant rd k left rdEq rdEq' isLoad source =>
        have isLocal : (c.vars rd).isGlobal = false := by
          rcases source with ⟨-, isLocal⟩ | binary | unary
          · exact isLocal
          · obtain ⟨rd', -, -, rdEq'', -, -, isLocal⟩ := shaped.binary binary
            obtain rfl := Option.some.inj (rdEq.symm.trans rdEq'')
            exact isLocal
          · obtain ⟨rd', -, rdEq'', -, isLocal⟩ := shaped.unary unary
            obtain rfl := Option.some.inj (rdEq.symm.trans rdEq'')
            exact isLocal
        exact
          { binary := by
              rw [isLoad]
              intro impossible
              cases impossible
            unary := by
              rw [isLoad]
              intro impossible
              cases impossible
            load := fun _ => ⟨rd, rdEq', (globals rd).trans isLocal⟩
            read := fun _ => by
              rw [rdEq']
              rfl }
    | @move left rdEq isMove source =>
        rcases isMove with isAssign | ⟨isNegate, rs1Eq⟩
        · exact .assign isAssign
        · obtain ⟨rd, x, -, rdEq', xEq, -, isLocal⟩ := kept.binary source
          exact
            { binary := by
                rw [isNegate]
                intro impossible
                cases impossible
              unary := fun _ => ⟨rd, x, rdEq.trans rdEq', rs1Eq.trans xEq, isLocal⟩
              load := by
                rw [isNegate]
                intro impossible
                cases impossible
              read := by
                rw [isNegate]
                intro impossible
                cases impossible }
    | drop _ isAssign _ => exact .assign isAssign
  · obtain ⟨rd, x, z, rdEq', xEq, zEq, isLocal⟩ := kept.binary binary
    exact
      { binary := fun _ =>
          ⟨rd, x, z, rdEq.trans rdEq', rs1Eq.trans xEq, rs2Eq.trans zEq, isLocal⟩
        unary := by
          rw [Opcode.isUnary_of_isBinary binary']
          intro impossible
          cases impossible
        load := by
          intro isLoad
          rw [isLoad] at binary'
          cases binary'
        read := by
          intro isRead
          rw [isRead] at binary'
          cases binary' }

/-- Newly flagged variables are loaded by the rewritten instruction. -/
theorem Visited.flags (visited : Visited c insn rest after left) {v : VarId}
    (flagged : (after.vars v).isConst = true) :
    (c.vars v).isConst = true ∨ (left.opcode = .loadConstant ∧ left.rd = some v) := by
  rcases visited.effect with benign | ⟨-, y, n, value, -, -, -, -, varsEq, -⟩
  · generalize after.vars = vars' at benign flagged
    cases benign with
    | same => exact Or.inl flagged
    | @flag rd isLoad rdEq =>
        by_cases same : v = rd
        · subst same
          exact Or.inr ⟨isLoad, rdEq⟩
        · rw [Vars.setConst_ne _ _ same] at flagged
          exact Or.inl flagged
    | @constant rd k _ _ rdEq' isLoad _ =>
        by_cases same : v = rd
        · subst same
          exact Or.inr ⟨isLoad, rdEq'⟩
        · rw [Vars.setConst_ne _ _ same] at flagged
          exact Or.inl flagged
    | move => exact Or.inl flagged
    | drop => exact Or.inl flagged
  · rw [varsEq, Vars.setInitVal_isConst] at flagged
    exact Or.inl flagged

/-- An instruction that becomes a constant load flags its destination. -/
theorem Visited.loaded_flagged (visited : Visited c insn rest after left)
    (notLoad : insn.opcode ≠ .loadConstant) (isLoad : left.opcode = .loadConstant) :
    ∀ v ∈ left.rd, (after.vars v).isConst = true := by
  intro v rdEq
  rcases visited.effect with benign | ⟨-, y, n, value, -, -, -, -, -, -, -, -, binary, -⟩
  · generalize after.vars = vars' at benign
    cases benign with
    | same => exact absurd isLoad notLoad
    | flag => exact absurd isLoad notLoad
    | constant _ rdEq' _ _ =>
        obtain rfl := Option.some.inj (rdEq'.symm.trans rdEq)
        simp
    | move _ isMove _ =>
        rw [isLoad] at isMove
        rcases isMove with impossible | ⟨impossible, -⟩ <;> cases impossible
    | drop _ isAssign _ =>
        rw [isLoad] at isAssign
        cases isAssign
  · rw [isLoad] at binary
    cases binary

/-- One round of the loop keeps the invariant. -/
theorem Visited.wellFormed (visited : Visited c insn rest after left)
    (pending : c.pending = insn :: rest) (wf : WellFormed c) : WellFormed after := by
  have split := Cursor.insns_eq pending
  have globals := visited.sameGlobals
  have shapedAll := wf.ssa.shaped
  have single := wf.ssa.single
  rw [split] at shapedAll single
  have replaced : (c.behind ++ left :: c.ahead rest).Pairwise (SingleAssignment after.vars) := by
    have single' := single.imp (fun {a b} => SingleAssignment.mono (a := a) (b := b) globals)
    rcases visited.rewrites with same | ⟨destination, notPhi, notLoad⟩
    · rw [same]
      exact single'
    · rw [List.pairwise_append, List.pairwise_cons] at single single'
      rw [List.pairwise_append, List.pairwise_cons]
      refine ⟨single'.1, ⟨fun b later => ?_, single'.2.1.2⟩, fun a earlier b present => ?_⟩
      · exact (single.2.1.1 b later).rewrite globals destination notPhi notLoad
      · rcases List.mem_cons.mp present with rfl | later
        · exact ((single.2.2 a earlier insn List.mem_cons_self).symm.rewrite globals destination
            notPhi notLoad).symm
        · exact single'.2.2 a earlier b (List.mem_cons_of_mem _ later)
  have shapedReplaced : ∀ i ∈ c.behind ++ left :: c.ahead rest, Shaped after.vars i := by
    intro i present
    rcases List.mem_append.mp present with present | present
    · exact (shapedAll i (List.mem_append_left _ present)).mono globals
    · rcases List.mem_cons.mp present with rfl | present
      · exact visited.shaped (shapedAll insn (by simp))
      · exact (shapedAll i (by simp [present])).mono globals
  refine ⟨⟨?_, ?_⟩, ?_, ?_⟩
  · refine visited.merged.pairwise ?_ ?_ replaced
    · intro a b isRead single
      exact single.copy insn.rd isRead
    · intro a b isRead single
      exact (single.symm.copy insn.rd isRead).symm
  · intro i present
    rcases visited.merged.origin present with kept | ⟨original, -, -, rfl⟩
    · exact shapedReplaced i kept
    · exact .assign rfl
  · intro v flagged
    have ofLoad {load : Insn} (present : load ∈ c.behind ++ left :: c.ahead rest)
        (isLoad : load.opcode = .loadConstant) : load ∈ after.insns :=
      visited.merged.survives present (by rw [isLoad]; decide) (by rw [isLoad]; decide)
    rcases visited.flags flagged with old | ⟨isLoad, rdEq⟩
    · obtain ⟨load, present, isLoad, rdEq⟩ := wf.flagged v old
      rw [split] at present
      refine ⟨load, ofLoad ?_ isLoad, isLoad, rdEq⟩
      rcases List.mem_append.mp present with present | present
      · exact List.mem_append_left _ present
      · rcases List.mem_cons.mp present with rfl | present
        · rw [visited.load_kept isLoad]
          simp
        · simp [present]
    · exact ⟨left, ofLoad (by simp) isLoad, isLoad, rdEq⟩
  · intro p present isLoad v rdEq
    rcases visited.before p present with rfl | earlier | isAssign
    · rcases visited.rewrites with same | ⟨-, -, notLoad⟩
      · rw [same] at isLoad rdEq
        exact visited.loads isLoad v rdEq
      · exact visited.loaded_flagged notLoad isLoad v rdEq
    · exact visited.keepsFlags (wf.loaded p earlier isLoad v rdEq)
    · rw [isLoad] at isAssign
      cases isAssign

end Preservation

/-! ## The start of the loop -/

/-- A truncation is the only definition of its local target. -/
theorem SingleAssignment.trunc_target {vars : Vars} {a next : Insn} {target : VarId}
    (isTrunc : next.opcode = .trunc) (targetEq : next.rd = some target)
    (isLocal : (vars target).isGlobal = false) (single : SingleAssignment vars a next) :
    a.rd ≠ some target := by
  intro same
  rcases single target same targetEq with isGlobal | ⟨-, isPhi⟩ | ⟨-, isLoad⟩
  · rw [isLocal] at isGlobal
    cases isGlobal
  · rw [isTrunc] at isPhi
    cases isPhi
  · rw [isTrunc] at isLoad
    cases isLoad

theorem SingleAssignment.of_no_target {vars : Vars} {a b : Insn} {target : VarId}
    (targetEq : b.rd = some target) (other : a.rd ≠ some target) :
    SingleAssignment vars a b := by
  intro v inA inB
  obtain rfl := Option.some.inj (targetEq.symm.trans inB)
  exact absurd inA other

theorem Shaped.load_of {vars : Vars} {insn : Insn} {rd : VarId}
    (isLoad : insn.opcode = .loadConstant) (rdEq : insn.rd = some rd)
    (isLocal : (vars rd).isGlobal = false) : Shaped vars insn where
  binary := by
    rw [isLoad]
    intro impossible
    cases impossible
  unary := by
    rw [isLoad]
    intro impossible
    cases impossible
  load := fun _ => ⟨rd, rdEq, isLocal⟩
  read := fun _ => by
    rw [rdEq]
    rfl

/-- An invariant of the records and the instructions survives every merge of a
constant load with the truncation after it. -/
def KeptByCasts (P : Vars → List Insn → Prop) : Prop :=
  ∀ {vars : Vars} {insn next : Insn} {earlier later : List Insn} {source target : VarId}
    {result : Word},
    InSsaForm vars (earlier ++ insn :: next :: later) →
    insn.opcode = .loadConstant → next.opcode = .trunc → insn.rd = some source →
    next.rd = some target → next.rs1 = some source → (vars target).isGlobal = false →
    truncateConstant next.sz (vars source).initVal = some result →
    P vars (earlier ++ insn :: next :: later) →
    P (vars.setConst target result)
      (earlier ++ { insn with rd := some target } ::
        { next with opcode := .loadConstant, rs1 := none, sz := 0 } :: later)

/-- Merging a constant with its truncation keeps the SSA form, and every
flagged variable is loaded by an instruction already passed. -/
theorem constantCasts_keeps {P : Vars → List Insn → Prop} (merges : KeptByCasts P)
    {vars : Vars} {insn : Insn} {rest earlier later : List Insn}
    (ssa : InSsaForm vars (earlier ++ (insn :: rest) ++ later))
    (invariant : P vars (earlier ++ (insn :: rest) ++ later))
    (flagged : ∀ v, (vars v).isConst = true →
      ∃ load ∈ earlier, load.opcode = .loadConstant ∧ load.rd = some v) :
    InSsaForm (constantCasts vars insn rest).1
        (earlier ++ (constantCasts vars insn rest).2 ++ later) ∧
      P (constantCasts vars insn rest).1
        (earlier ++ (constantCasts vars insn rest).2 ++ later) ∧
      ∀ v, ((constantCasts vars insn rest).1 v).isConst = true →
        ∃ load ∈ earlier ++ (constantCasts vars insn rest).2,
          load.opcode = .loadConstant ∧ load.rd = some v := by
  induction rest generalizing vars insn earlier with
  | nil =>
      refine ⟨ssa, invariant, fun v isConst => ?_⟩
      obtain ⟨load, present, isLoad⟩ := flagged v isConst
      exact ⟨load, List.mem_append_left _ present, isLoad⟩
  | cons next rest inductionHypothesis =>
      -- The pair is left alone: the walk moves on with `insn` behind it.
      have move : InSsaForm (constantCasts vars next rest).1
            (earlier ++ (insn :: (constantCasts vars next rest).2) ++ later) ∧
          P (constantCasts vars next rest).1
            (earlier ++ (insn :: (constantCasts vars next rest).2) ++ later) ∧
          ∀ v, ((constantCasts vars next rest).1 v).isConst = true →
            ∃ load ∈ earlier ++ (insn :: (constantCasts vars next rest).2),
              load.opcode = .loadConstant ∧ load.rd = some v := by
        have passed := @inductionHypothesis vars next (earlier ++ [insn])
          (by simpa [List.append_assoc] using ssa)
          (by simpa [List.append_assoc] using invariant)
          (fun v isConst => by
            obtain ⟨load, present, isLoad⟩ := flagged v isConst
            exact ⟨load, List.mem_append_left _ present, isLoad⟩)
        simpa [List.append_assoc] using passed
      simp only [constantCasts]
      split
      · rename_i source target insnOp nextOp sourceEq targetEq
        split
        · rename_i result truncated
          split
          · rename_i pattern
            have isLocal := pattern.2
            have globals (v : VarId) :
                ((vars.setConst target result) v).isGlobal = (vars v).isGlobal := by simp
            have isLocal' : ((vars.setConst target result) target).isGlobal = false :=
              (globals target).trans isLocal
            have single := ssa.single
            rw [List.append_assoc, List.cons_append, List.cons_append, List.pairwise_append,
              List.pairwise_cons, List.pairwise_cons] at single
            obtain ⟨before, ⟨-, fromNext, after⟩, across⟩ := single
            have lift {a b : Insn} (old : SingleAssignment vars a b) :
                SingleAssignment (vars.setConst target result) a b := old.mono globals
            have earlierOther : ∀ a ∈ earlier, a.rd ≠ some target := fun a present =>
              (across a present next (by simp)).trunc_target nextOp targetEq isLocal
            have laterOther : ∀ b ∈ rest ++ later, b.rd ≠ some target := fun b present =>
              (fromNext b present).symm.trunc_target nextOp targetEq isLocal
            have passed := @inductionHypothesis (vars.setConst target result)
              { next with opcode := .loadConstant, rs1 := none, sz := 0 }
              (earlier ++ [{ insn with rd := some target }])
            have ssa' : InSsaForm (vars.setConst target result)
                (earlier ++ [{ insn with rd := some target }] ++
                  ({ next with opcode := .loadConstant, rs1 := none, sz := 0 } :: rest) ++
                    later) := by
              constructor
              · rw [List.append_assoc, List.append_assoc, List.singleton_append,
                  List.cons_append, List.pairwise_append, List.pairwise_cons,
                  List.pairwise_cons]
                refine ⟨before.imp lift, ⟨?_, ?_, after.imp lift⟩, ?_⟩
                · intro b present v inFirst inB
                  rcases List.mem_cons.mp present with rfl | present
                  · exact Or.inr (Or.inr ⟨insnOp, rfl⟩)
                  · obtain rfl := Option.some.inj inFirst
                    exact absurd inB (laterOther b present)
                · intro b present
                  exact (SingleAssignment.of_no_target (a := b)
                    (b := { next with opcode := .loadConstant, rs1 := none, sz := 0 }) targetEq
                    (laterOther b present)).symm
                · intro a present b inRest
                  rcases List.mem_cons.mp inRest with rfl | inRest
                  · exact SingleAssignment.of_no_target rfl (earlierOther a present)
                  · rcases List.mem_cons.mp inRest with rfl | inRest
                    · exact SingleAssignment.of_no_target targetEq (earlierOther a present)
                    · exact lift (across a present b (by simp [inRest]))
              · intro i present
                have old {i : Insn} (was : i ∈ earlier ++ (insn :: next :: rest) ++ later) :=
                  (ssa.shaped i was).mono globals
                simp only [List.append_assoc, List.mem_append, List.mem_cons] at present old
                rcases present with inEarlier | (rfl | impossible) | (rfl | inRest) | inLater
                · exact old (Or.inl inEarlier)
                · exact Shaped.load_of insnOp rfl isLocal'
                · cases impossible
                · exact Shaped.load_of rfl targetEq isLocal'
                · exact old (Or.inr (Or.inl (Or.inr (Or.inr inRest))))
                · exact old (Or.inr (Or.inr inLater))
            have flagged' : ∀ v, ((vars.setConst target result) v).isConst = true →
                ∃ load ∈ earlier ++ [{ insn with rd := some target }],
                  load.opcode = .loadConstant ∧ load.rd = some v := by
              intro v isConst
              by_cases same : v = target
              · subst same
                exact ⟨_, List.mem_append_right _ List.mem_cons_self, insnOp, rfl⟩
              · rw [Vars.setConst_ne _ _ same] at isConst
                obtain ⟨load, present, isLoad⟩ := flagged v isConst
                exact ⟨load, List.mem_append_left _ present, isLoad⟩
            have invariant' := @merges vars insn next earlier (rest ++ later) source target result
              (by simpa [List.append_assoc] using ssa) insnOp nextOp sourceEq targetEq pattern.1
              isLocal truncated (by simpa [List.append_assoc] using invariant)
            simpa [List.append_assoc] using
              passed ssa' (by simpa [List.append_assoc] using invariant') flagged'
          · exact move
        · exact move
      · exact move

theorem castBlocks_keeps {P : Vars → List Insn → Prop} (merges : KeptByCasts P)
    {vars : Vars} {blocks : List (BlockId × List Insn)}
    {earlier : List Insn} (ssa : InSsaForm vars (earlier ++ blocks.flatMap Prod.snd))
    (invariant : P vars (earlier ++ blocks.flatMap Prod.snd))
    (flagged : ∀ v, (vars v).isConst = true →
      ∃ load ∈ earlier, load.opcode = .loadConstant ∧ load.rd = some v) :
    InSsaForm (castBlocks vars blocks).1
        (earlier ++ (castBlocks vars blocks).2.flatMap Prod.snd) ∧
      P (castBlocks vars blocks).1
        (earlier ++ (castBlocks vars blocks).2.flatMap Prod.snd) ∧
      ∀ v, ((castBlocks vars blocks).1 v).isConst = true →
        ∃ load ∈ earlier ++ (castBlocks vars blocks).2.flatMap Prod.snd,
          load.opcode = .loadConstant ∧ load.rd = some v := by
  induction blocks generalizing vars earlier with
  | nil =>
      refine ⟨ssa, invariant, fun v isConst => ?_⟩
      obtain ⟨load, present, isLoad⟩ := flagged v isConst
      exact ⟨load, List.mem_append_left _ present, isLoad⟩
  | cons block rest inductionHypothesis =>
      obtain ⟨bb, insns⟩ := block
      have block : InSsaForm (optimizeConstantCasts vars insns).1
            (earlier ++ (optimizeConstantCasts vars insns).2 ++ rest.flatMap Prod.snd) ∧
          P (optimizeConstantCasts vars insns).1
            (earlier ++ (optimizeConstantCasts vars insns).2 ++ rest.flatMap Prod.snd) ∧
          ∀ v, ((optimizeConstantCasts vars insns).1 v).isConst = true →
            ∃ load ∈ earlier ++ (optimizeConstantCasts vars insns).2,
              load.opcode = .loadConstant ∧ load.rd = some v := by
        cases insns with
        | nil =>
            exact ⟨by simpa [optimizeConstantCasts] using ssa,
              by simpa [optimizeConstantCasts] using invariant,
              by simpa [optimizeConstantCasts] using flagged⟩
        | cons insn tail =>
            exact constantCasts_keeps merges (by simpa [List.append_assoc] using ssa)
              (by simpa [List.append_assoc] using invariant) flagged
      have passed := @inductionHypothesis (optimizeConstantCasts vars insns).1
        (earlier ++ (optimizeConstantCasts vars insns).2) block.1 block.2.1 block.2.2
      simpa [castBlocks, List.append_assoc] using passed

theorem start_insns (vars : Vars) (bb : BlockId) (insns : List Insn)
    (queue : List (BlockId × List Insn)) :
    (Cursor.start vars bb insns queue).insns =
      (castBlocks vars ((bb, insns) :: queue)).2.flatMap Prod.snd := by
  simp [Cursor.start, Cursor.insns, castBlocks]

/-- The loop starts in the invariant. -/
theorem start_wellFormed {vars : Vars} {bb : BlockId} {insns : List Insn}
    {queue : List (BlockId × List Insn)}
    (ssa : InSsaForm vars (((bb, insns) :: queue).flatMap Prod.snd))
    (unflagged : ∀ v, (vars v).isConst = false) :
    WellFormed (Cursor.start vars bb insns queue) := by
  have trivially : KeptByCasts (fun _ _ => True) := by
    unfold KeptByCasts
    intros
    trivial
  obtain ⟨ssa', -, flagged⟩ :=
    @castBlocks_keeps (fun _ _ => True) trivially vars ((bb, insns) :: queue) [] ssa trivial
    (fun v isConst => by
      rw [unflagged] at isConst
      cases isConst)
  exact
    { ssa := by
        rw [start_insns]
        exact ssa'
      flagged := by
        rw [start_insns]
        exact flagged
      loaded := fun p present => by cases present }

/-- One step of the loop keeps the invariant. -/
theorem step_wellFormed {c after : Cursor} (wf : WellFormed c)
    (next : step undefined idom fuel c = some after) : WellFormed after := by
  unfold step at next
  split at next
  · rename_i insn rest pending
    obtain rfl := Option.some.inj next
    have shaped : Shaped c.vars insn := wf.ssa.shaped insn (by simp [Cursor.insns, pending])
    obtain ⟨left, visited⟩ := @visit_visited undefined idom fuel c insn rest shaped
      fun p isHead => wf.loaded p (List.mem_of_mem_head? isHead)
    exact visited.wellFormed pending wf
  · rename_i bb insns queue pending queueEq
    obtain rfl := Option.some.inj next
    have same : Cursor.insns
        { vars := c.vars, processed := (c.bb, c.before.reverse) :: c.processed, bb := bb,
          before := [], pending := insns, queue := queue } = c.insns := by
      simp [Cursor.insns, pending, queueEq]
    exact
      { ssa := by
          rw [same]
          exact wf.ssa
        flagged := by
          rw [same]
          exact wf.flagged
        loaded := fun p present => by cases present }
  · cases next

/-- The invariant holds wherever the loop gets. -/
theorem reaches_wellFormed {source target : Cursor}
    (reaches : Reaches undefined idom fuel source target) (wf : WellFormed source) :
    WellFormed target := by
  induction reaches with
  | refl => exact wf
  | tail _ next inductionHypothesis =>
      exact step_wellFormed undefined idom fuel inductionHypothesis next

end Shecc.Optimize
