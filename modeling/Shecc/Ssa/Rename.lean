import Shecc.Ssa.DomTree
import Mathlib.Data.List.Forall2

/-!
# Renaming

`bb_solve_phi_params` gives every definition of a variable a name of its own. The variable keeps a
stack of the numbers of its names and a list of the names; both are arrays of a fixed size that are
written without a look at it. A block pushes the names it makes, and pops them when the blocks below
it in the dominator tree are done.
-/

namespace Shecc.Ssa

open Traversal

/-! ## Variables with their names -/

/-- The fields of `var_t` that renaming reads and writes. The arrays are the elements up to their
index, the latest number of the stack first. -/
structure Name where
  base : Option VarId := none
  isGlobal : Bool := false
  isFunc : Bool := false
  subscript : Nat := 0
  subscripts : List VarId := []
  counter : Nat := 0
  stack : List Nat := []

/-- An instruction with `phi_ops`: the blocks the operands come from, and the operands. -/
structure PhiInsn extends Insn where
  phiOps : List (BlockId × VarId) := []

/-- The variables, the one `require_var` gives next, and the instructions of the blocks. -/
structure Renaming where
  names : VarId → Name
  next : VarId
  insns : BlockId → List PhiInsn

/-- Why renaming does not go on: an array is written or read outside its bounds, a null pointer is
followed, or the compiler has stopped with a message. -/
inductive RenameFault
  | overrun | missing | fatal (message : String)
  deriving DecidableEq

/-- The elements of `rename.stack`. -/
def maxStack : Nat := 64

/-- The elements of `subscripts`. -/
def maxSubscripts : Nat := 128

namespace Renaming

def update (s : Renaming) (v : VarId) (change : Name → Name) : Renaming :=
  { s with names := Function.update s.names v (change (s.names v)) }

/-- `if (!v->base) v->base = v`. -/
def ensureBase (s : Renaming) (v : VarId) : Renaming :=
  match (s.names v).base with
  | none => s.update v fun n => { n with base := some v }
  | some _ => s

/-- `v->rename.stack[v->rename.stack_idx++] = i`. -/
def push (s : Renaming) (v : VarId) (i : Nat) : Except RenameFault Renaming :=
  if maxStack ≤ (s.names v).stack.length then .error .overrun
  else .ok (s.update v fun n => { n with stack := i :: n.stack })

/-- `v->subscripts[v->subscripts_idx++] = vd`. -/
def addSubscript (s : Renaming) (v vd : VarId) : Except RenameFault Renaming :=
  if maxSubscripts ≤ (s.names v).subscripts.length then .error .overrun
  else .ok (s.update v fun n => { n with subscripts := n.subscripts ++ [vd] })

end Renaming

/-- `new_name`: the operand that takes the place of the variable. -/
def newName (v : VarId) (s : Renaming) : Except RenameFault (VarId × Renaming) :=
  let s := s.ensureBase v
  if (s.names v).isGlobal then .ok (v, s)
  else
    let base := (s.names v).base.getD v
    let i := (s.names base).counter
    let s := s.update base fun n => { n with counter := i + 1 }
    do
      let s ← s.push base i
      let vd := s.next
      let s := ({ s with next := vd + 1 } : Renaming).update vd fun _ =>
        { s.names v with base := some v, subscript := i }
      let s ← s.addSubscript v vd
      return (vd, s)

/-- `get_stack_top_subscript_var`. -/
def getStackTopSubscriptVar (v : VarId) (s : Renaming) : Except RenameFault VarId :=
  match (s.names v).base with
  | none => .error .missing
  | some base =>
      match (s.names base).stack with
      | [] => .ok v
      | sub :: _ =>
          match (s.names base).subscripts.find? fun u => (s.names u).subscript == sub with
          | some u => .ok u
          | none => .error (.fatal "Failed to find subscript variable on rename stack")

/-- `rename_var`. -/
def renameVar (v : VarId) (s : Renaming) : Except RenameFault (VarId × Renaming) :=
  let s := s.ensureBase v
  if (s.names v).isGlobal then .ok (v, s)
  else do
    let u ← getStackTopSubscriptVar v s
    return (u, s)

/-- `pop_name`. -/
def popName (v : VarId) (s : Renaming) : Except RenameFault Renaming :=
  if (s.names v).isGlobal then .ok s
  else
    match (s.names v).base with
    | none => .error .missing
    | some base =>
        match (s.names base).stack with
        | [] => .error .overrun
        | _ :: rest => .ok (s.update base fun n => { n with stack := rest })

/-- `if (operand) rename(&operand)`. -/
def renameOperand (rename : VarId → Renaming → Except RenameFault (VarId × Renaming)) :
    Option VarId → Renaming → Except RenameFault (Option VarId × Renaming)
  | none, s => .ok (none, s)
  | some v, s => do
      let (u, s) ← rename v s
      return (some u, s)

/-- An instruction in the first loop of `bb_solve_phi_params`. -/
def renameInsn (insn : PhiInsn) (s : Renaming) : Except RenameFault (PhiInsn × Renaming) :=
  if insn.opcode = .phi then
    match insn.rd with
    | none => .error .missing
    | some rd => do
        let (rd, s) ← newName rd s
        return ({ insn with rd := some rd }, s)
  else do
    let (rs1, s) ← renameOperand renameVar insn.rs1 s
    let (rs2, s) ← renameOperand
      (fun v s => if (s.names v).isFunc then .ok (v, s) else renameVar v s) insn.rs2 s
    let (rd, s) ← renameOperand newName insn.rd s
    return ({ insn with rs1 := rs1, rs2 := rs2, rd := rd }, s)

/-- The first loop. -/
def renameInsns : List PhiInsn → Renaming → Except RenameFault (List PhiInsn × Renaming)
  | [], s => .ok ([], s)
  | insn :: rest, s => do
      let (insn, s) ← renameInsn insn s
      let (rest, s) ← renameInsns rest s
      return (insn :: rest, s)

/-- `append_phi_operand` on the instructions of a block. -/
def appendPhiOperand (from_ : BlockId) (s : Renaming) :
    List PhiInsn → Except RenameFault (List PhiInsn)
  | [] => .ok []
  | insn :: rest =>
      if insn.opcode = .phi then
        match insn.rd with
        | none => .error .missing
        | some rd => do
            let var ← getStackTopSubscriptVar rd s
            let rest ← appendPhiOperand from_ s rest
            return { insn with phiOps := insn.phiOps ++ [(from_, var)] } :: rest
      else do
        let rest ← appendPhiOperand from_ s rest
        return insn :: rest

/-- The operands for a block that control goes on to. -/
def appendTo (from_ : BlockId) : List BlockId → Renaming → Except RenameFault Renaming
  | [], s => .ok s
  | succ :: rest, s => do
      let insns ← appendPhiOperand from_ s (s.insns succ)
      appendTo from_ rest { s with insns := Function.update s.insns succ insns }

/-- What `bb_solve_phi_params` does before the blocks below. -/
def renameBlock (f : Func) (bb : BlockId) (s : Renaming) : Except RenameFault Renaming := do
  let (insns, s) ← renameInsns (s.insns bb) s
  appendTo bb (f.successors bb) { s with insns := Function.update s.insns bb insns }

/-- An instruction in the last loop of `bb_solve_phi_params`. -/
def popInsn (insn : PhiInsn) (s : Renaming) : Except RenameFault Renaming :=
  match insn.rd with
  | none => if insn.opcode = .phi then .error .missing else .ok s
  | some rd => popName rd s

/-- The last loop. -/
def popInsns : List PhiInsn → Renaming → Except RenameFault Renaming
  | [], s => .ok s
  | insn :: rest, s => do
      let s ← popInsn insn s
      popInsns rest s

/-- What `bb_solve_phi_params` does behind the blocks below. -/
def popBlock (bb : BlockId) (s : Renaming) : Except RenameFault Renaming :=
  popInsns (s.insns bb) s

/-- The names `solve_phi_params` gives to the parameters. -/
def renameParams : List VarId → Renaming → Except RenameFault Renaming
  | [], s => .ok s
  | base :: rest, s => do
      let var := s.next
      let i := (s.names base).counter
      let s := ({ s with next := var + 1 } : Renaming).update var fun _ =>
        { s.names base with base := some base, subscript := 0 }
      let s ← (s.update base fun n => { n with counter := i + 1 }).push base i
      let s ← s.addSubscript base var
      renameParams rest s

/-- `solve_phi_params` for a function whose dominator tree is in the state. -/
def solvePhiParams (f : Func) (params : List VarId) (s : State) (fuel : Nat) (r : Renaming) :
    Option (Except RenameFault Renaming) :=
  match renameParams params r with
  | .error why => some (.error why)
  | .ok r =>
      bbSolvePhiParams s (fun bb result => some (result >>= renameBlock f bb))
        (fun bb result => some (result >>= popBlock bb)) fuel f.bbs (.ok r)

/-! ## What holds while renaming -/

/-- The variables of the parser are those below `first`, and `glob` tells which are global. Of the
others each is its own base, and for each number on its stack there is a name. What is not a
variable of the parser is a name of one. -/
structure Good (first : VarId) (glob : VarId → Bool) (s : Renaming) : Prop where
  first_le : first ≤ s.next
  isGlobal : ∀ v < first, (s.names v).isGlobal = glob v
  base : ∀ v < first, glob v = false → (s.names v).base = some v
  made : ∀ u, first ≤ u → u < s.next → (s.names u).isGlobal = false ∧
    ∃ v < first, glob v = false ∧ (s.names u).base = some v
  found : ∀ v < first, glob v = false → ∀ i ∈ (s.names v).stack,
    ∃ u ∈ (s.names v).subscripts, (s.names u).subscript = i
  range : ∀ v < first, ∀ u ∈ (s.names v).subscripts, first ≤ u ∧ u < s.next
  shortStack : ∀ v < first, (s.names v).stack.length ≤ maxStack
  shortSubscripts : ∀ v < first, (s.names v).subscripts.length ≤ maxSubscripts

/-- Names were added: of each variable so many. -/
structure Grown (first : VarId) (count : VarId → Nat) (s s' : Renaming) : Prop where
  insns : s'.insns = s.insns
  next_le : s.next ≤ s'.next
  old : ∀ u, first ≤ u → u < s.next → s'.names u = s.names u
  stack : ∀ v < first, ∃ new, (s'.names v).stack = new ++ (s.names v).stack ∧
    new.length = count v
  subscripts : ∀ v < first, (s'.names v).subscripts.length =
    (s.names v).subscripts.length + count v

/-- A name of the variable, or the variable if it is global. -/
def NameOf (first : VarId) (glob : VarId → Bool) (s : Renaming) (v u : VarId) : Prop :=
  if glob v then u = v else first ≤ u ∧ u < s.next ∧ (s.names u).base = some v

/-- There is no room for so many more names of a variable. -/
def Lacks (first : VarId) (count : VarId → Nat) (s : Renaming) : Prop :=
  ∃ v < first, maxStack < (s.names v).stack.length + count v ∨
    maxSubscripts < (s.names v).subscripts.length + count v

/-- How many names of a variable an instruction makes. -/
def nameMade (glob : VarId → Bool) (insn : Insn) (v : VarId) : Nat :=
  if glob v then 0 else if insn.rd = some v then 1 else 0

/-- How many names of a variable a block makes. -/
def namesMade (glob : VarId → Bool) (insns : List Insn) (v : VarId) : Nat :=
  (insns.map fun insn => nameMade glob insn v).sum

/-- The operands of an instruction are variables of the parser. Each φ has a variable that is not
global. -/
structure Operands (first : VarId) (glob : VarId → Bool) (insn : Insn) : Prop where
  rd : ∀ v, insn.rd = some v → v < first
  rs1 : ∀ v, insn.rs1 = some v → v < first
  rs2 : ∀ v, insn.rs2 = some v → v < first
  phi : insn.opcode = .phi → ∃ v, insn.rd = some v ∧ glob v = false

/-- An instruction that was renamed. -/
structure Renamed (first : VarId) (glob : VarId → Bool) (s : Renaming) (insn insn' : Insn) :
    Prop where
  opcode : insn'.opcode = insn.opcode
  none : insn.rd = none → insn'.rd = none
  some : ∀ v, insn.rd = some v → ∃ u, insn'.rd = some u ∧ NameOf first glob s v u

section Renaming

variable {first : VarId} {glob : VarId → Bool} {s s' s'' : Renaming} {u v w : VarId}
  {count count' : VarId → Nat}

@[simp]
theorem Renaming.update_same (s : Renaming) (v : VarId) (change : Name → Name) :
    (s.update v change).names v = change (s.names v) := Function.update_self _ _ _

@[simp]
theorem Renaming.update_other (s : Renaming) (change : Name → Name) (differ : w ≠ v) :
    (s.update v change).names w = s.names w := Function.update_of_ne differ _ _

@[simp]
theorem Renaming.update_next (s : Renaming) (v : VarId) (change : Name → Name) :
    (s.update v change).next = s.next := rfl

@[simp]
theorem Renaming.update_insns (s : Renaming) (v : VarId) (change : Name → Name) :
    (s.update v change).insns = s.insns := rfl

theorem Grown.refl (s : Renaming) : Grown first (fun _ => 0) s s where
  insns := rfl
  next_le := Nat.le_refl _
  old := fun _ _ _ => rfl
  stack := fun _ _ => ⟨[], rfl, rfl⟩
  subscripts := fun _ _ => rfl

theorem Grown.trans (grown : Grown first count s s') (grown' : Grown first count' s' s'') :
    Grown first (fun v => count v + count' v) s s'' where
  insns := grown'.insns.trans grown.insns
  next_le := Nat.le_trans grown.next_le grown'.next_le
  old := fun u made inside =>
    (grown'.old u made (Nat.lt_of_lt_of_le inside grown.next_le)).trans (grown.old u made inside)
  stack := by
    intro v inside
    rcases grown.stack v inside with ⟨new, isNew, length⟩
    rcases grown'.stack v inside with ⟨new', isNew', length'⟩
    refine ⟨new' ++ new, ?_, ?_⟩
    · rw [isNew', isNew, List.append_assoc]
    · rw [List.length_append, length, length', Nat.add_comm]
  subscripts := by
    intro v inside
    rw [grown'.subscripts v inside, grown.subscripts v inside, Nat.add_assoc]

theorem Grown.length (grown : Grown first count s s') (inside : v < first) :
    (s'.names v).stack.length = (s.names v).stack.length + count v := by
  rcases grown.stack v inside with ⟨new, isNew, length⟩
  rw [isNew, List.length_append, length, Nat.add_comm]

/-- Room that is missing later is missing before. -/
theorem Lacks.before (grown : Grown first count s s') (lacks : Lacks first count' s') :
    Lacks first (fun v => count v + count' v) s := by
  rcases lacks with ⟨v, inside, full⟩
  rw [grown.length inside, grown.subscripts v inside, Nat.add_assoc, Nat.add_assoc] at full
  exact ⟨v, inside, full⟩

theorem Lacks.more (lacks : Lacks first count s) (le : ∀ v, count v ≤ count' v) :
    Lacks first count' s := by
  rcases lacks with ⟨v, inside, full⟩
  have := le v
  exact ⟨v, inside, full.imp (fun h => by omega) (fun h => by omega)⟩

theorem NameOf.grown (nameOf : NameOf first glob s v u) (grown : Grown first count s s') :
    NameOf first glob s' v u := by
  rw [NameOf] at nameOf ⊢
  split at nameOf
  case isTrue isGlobal =>
    rw [if_pos isGlobal]
    exact nameOf
  case isFalse isLocal =>
    rw [if_neg isLocal]
    rcases nameOf with ⟨made, inside, base⟩
    refine ⟨made, Nat.lt_of_lt_of_le inside grown.next_le, ?_⟩
    rw [grown.old u made inside]
    exact base

/-- The names of a variable that is not global, and the variable itself, have it for their base. -/
theorem Good.base_nameOf (good : Good first glob s) (isLocal : glob v = false)
    (nameOf : u = v ∧ v < first ∨ NameOf first glob s v u) : (s.names u).base = some v := by
  rcases nameOf with ⟨rfl, inside⟩ | nameOf
  · exact good.base u inside isLocal
  · rw [NameOf, if_neg (by simp [isLocal])] at nameOf
    exact nameOf.2.2

/-! ## The operations -/

/-- Giving a global variable a base changes nothing else. -/
theorem Good.ensureBase (good : Good first glob s) (inside : v < first) :
    Good first glob (s.ensureBase v) ∧ Grown first (fun _ => 0) s (s.ensureBase v) ∧
      (glob v = false → s.ensureBase v = s) ∧ ((s.ensureBase v).names v).isGlobal = glob v := by
  rw [Renaming.ensureBase]
  cases isBase : (s.names v).base with
  | some b => exact ⟨good, Grown.refl s, fun _ => rfl, good.isGlobal v inside⟩
  | none =>
      have isGlobal : glob v = true := by
        cases isGlobal : glob v with
        | true => rfl
        | false => cases isBase.symm.trans (good.base v inside isGlobal)
      have same : ∀ w, ((s.update v fun n => { n with base := some v }).names w).isGlobal =
            (s.names w).isGlobal ∧
          ((s.update v fun n => { n with base := some v }).names w).stack = (s.names w).stack ∧
          ((s.update v fun n => { n with base := some v }).names w).subscripts =
            (s.names w).subscripts ∧
          ((s.update v fun n => { n with base := some v }).names w).subscript =
            (s.names w).subscript := by
        intro w
        by_cases isV : w = v
        · subst isV
          simp
        · simp [isV]
      refine ⟨⟨good.first_le, ?_, ?_, ?_, ?_, ?_, ?_, ?_⟩, ⟨rfl, Nat.le_refl _, ?_, ?_, ?_⟩, ?_, ?_⟩
      · intro w insideW
        rw [(same w).1]
        exact good.isGlobal w insideW
      · intro w insideW isLocal
        have differ : w ≠ v := by
          rintro rfl
          cases isGlobal.symm.trans isLocal
        rw [Renaming.update_other s _ differ]
        exact good.base w insideW isLocal
      · intro u made insideU
        have differ : u ≠ v := Nat.ne_of_gt (Nat.lt_of_lt_of_le inside made)
        rw [Renaming.update_other s _ differ]
        exact good.made u made insideU
      · intro w insideW isLocal i member
        rw [(same w).2.1] at member
        rcases good.found w insideW isLocal i member with ⟨u, memberU, isI⟩
        refine ⟨u, ?_, (same u).2.2.2.trans isI⟩
        rw [(same w).2.2.1]
        exact memberU
      · intro w insideW u member
        rw [(same w).2.2.1] at member
        exact good.range w insideW u member
      · intro w insideW
        rw [(same w).2.1]
        exact good.shortStack w insideW
      · intro w insideW
        rw [(same w).2.2.1]
        exact good.shortSubscripts w insideW
      · intro u made insideU
        exact Renaming.update_other s _ (Nat.ne_of_gt (Nat.lt_of_lt_of_le inside made))
      · exact fun w _ => ⟨[], (same w).2.1, rfl⟩
      · intro w _
        rw [(same w).2.2.1]
        rfl
      · intro isLocal
        cases isGlobal.symm.trans isLocal
      · rw [(same v).1]
        exact good.isGlobal v inside

/-- The top of the stack of a variable that is not global has a name. -/
theorem Good.getStackTopSubscriptVar (good : Good first glob s) (isLocal : glob v = false)
    (inside : v < first) (base : (s.names u).base = some v) :
    ∃ top, getStackTopSubscriptVar u s = .ok top := by
  rw [Ssa.getStackTopSubscriptVar, base]
  simp only
  cases isStack : (s.names v).stack with
  | nil => exact ⟨u, rfl⟩
  | cons sub rest =>
      simp only
      cases isFound : (s.names v).subscripts.find? fun u => (s.names u).subscript == sub with
      | some top => exact ⟨top, rfl⟩
      | none =>
          have member : sub ∈ (s.names v).stack := by
            rw [isStack]
            exact List.mem_cons_self
          rcases good.found v inside isLocal sub member with ⟨u', memberU, isSub⟩
          have := List.find?_eq_none.mp isFound u' memberU
          exact (this (by simpa using isSub)).elim

/-- Renaming an operand that is read changes nothing. -/
theorem renameVar_spec (good : Good first glob s) (inside : v < first) :
    ∃ u s', renameVar v s = .ok (u, s') ∧ Good first glob s' ∧ Grown first (fun _ => 0) s s' := by
  rcases good.ensureBase inside with ⟨good', grown, same, isGlobal⟩
  rw [renameVar]
  simp only [isGlobal]
  cases glob_v : glob v with
  | true => exact ⟨v, _, rfl, good', grown⟩
  | false =>
      rcases good'.getStackTopSubscriptVar glob_v inside (good'.base v inside glob_v) with
        ⟨top, isTop⟩
      rw [isTop]
      exact ⟨top, _, rfl, good', grown⟩

/-- The state when a variable has one more name, with this record. -/
def Renaming.named (s : Renaming) (v : VarId) (record : Name) : Renaming where
  names w :=
    if w = s.next then record
    else if w = v then
      { s.names v with
        counter := (s.names v).counter + 1
        stack := (s.names v).counter :: (s.names v).stack
        subscripts := (s.names v).subscripts ++ [s.next] }
    else s.names w
  next := s.next + 1
  insns := s.insns

/-- The record is one of a name of the variable, with the next number. -/
structure RecordOf (s : Renaming) (v : VarId) (record : Name) : Prop where
  base : record.base = some v
  isGlobal : record.isGlobal = false
  subscript : record.subscript = (s.names v).counter

@[simp]
theorem Renaming.named_next (s : Renaming) (v : VarId) (record : Name) :
    (s.named v record).names s.next = record := if_pos rfl

@[simp]
theorem Renaming.named_same (s : Renaming) (record : Name) (older : v ≠ s.next) :
    (s.named v record).names v =
      { s.names v with
        counter := (s.names v).counter + 1
        stack := (s.names v).counter :: (s.names v).stack
        subscripts := (s.names v).subscripts ++ [s.next] } :=
  (if_neg older).trans (if_pos rfl)

@[simp]
theorem Renaming.named_other (s : Renaming) (record : Name) (older : w ≠ s.next)
    (differ : w ≠ v) : (s.named v record).names w = s.names w :=
  (if_neg older).trans (if_neg differ)

/-- `new_name` gives one more name to a variable, unless an array is full. -/
theorem newName_eq (good : Good first glob s) (inside : v < first) (isLocal : glob v = false) :
    newName v s =
      if maxStack ≤ (s.names v).stack.length then .error .overrun
      else if maxSubscripts ≤ (s.names v).subscripts.length then .error .overrun
      else .ok (s.next, s.named v
        { s.names v with
          base := some v
          subscript := (s.names v).counter
          counter := (s.names v).counter + 1
          stack := (s.names v).counter :: (s.names v).stack }) := by
  rcases good.ensureBase inside with ⟨_, _, same, _⟩
  have older : v ≠ s.next := Nat.ne_of_lt (Nat.lt_of_lt_of_le inside good.first_le)
  have notGlobal : ¬ (s.names v).isGlobal = true := by
    rw [good.isGlobal v inside, isLocal]
    exact Bool.false_ne_true
  rw [newName]
  simp only [same isLocal, if_neg notGlobal, good.base v inside isLocal, Option.getD_some,
    Renaming.push, Renaming.update_same]
  split
  case isTrue full => rfl
  case isFalse room =>
    simp only [Renaming.addSubscript, Renaming.update, Function.update_self,
      Function.update_of_ne older, Function.update_idem, bind, Except.bind]
    by_cases full : maxSubscripts ≤ (s.names v).subscripts.length
    · simp only [if_pos full]
    · simp only [if_neg full]
      apply congrArg Except.ok
      apply congrArg (Prod.mk s.next)
      rw [Renaming.named]
      congr 1
      funext w
      by_cases isNext : w = s.next
      · subst isNext
        simp [Function.update, Ne.symm older]
      · by_cases isV : w = v
        · subst isV
          simp [Function.update, isNext]
        · simp [Function.update, isNext, isV]

theorem Good.named {record : Name} (good : Good first glob s) (inside : v < first)
    (isLocal : glob v = false) (recordOf : RecordOf s v record)
    (room : (s.names v).stack.length < maxStack)
    (room' : (s.names v).subscripts.length < maxSubscripts) :
    Good first glob (s.named v record) := by
  have older : ∀ w < first, w ≠ s.next := fun w insideW =>
    Nat.ne_of_lt (Nat.lt_of_lt_of_le insideW good.first_le)
  have fields : ∀ w < first, ((s.named v record).names w).isGlobal = (s.names w).isGlobal ∧
      ((s.named v record).names w).base = (s.names w).base ∧
      (w ≠ v → (s.named v record).names w = s.names w) := by
    intro w insideW
    by_cases isV : w = v
    · subst isV
      rw [Renaming.named_same s record (older w insideW)]
      exact ⟨rfl, rfl, fun differ => (differ rfl).elim⟩
    · rw [Renaming.named_other s record (older w insideW) isV]
      exact ⟨rfl, rfl, fun _ => rfl⟩
  have oldName : ∀ u, first ≤ u → u < s.next → (s.named v record).names u = s.names u :=
    fun u made insideU => Renaming.named_other s record (Nat.ne_of_lt insideU)
      (Nat.ne_of_gt (Nat.lt_of_lt_of_le inside made))
  constructor
  · exact Nat.le_succ_of_le good.first_le
  · intro w insideW
    rw [(fields w insideW).1]
    exact good.isGlobal w insideW
  · intro w insideW isLocalW
    rw [(fields w insideW).2.1]
    exact good.base w insideW isLocalW
  · intro u made insideU
    rcases Nat.lt_or_eq_of_le (Nat.le_of_lt_succ insideU) with isOld | rfl
    · rw [oldName u made isOld]
      exact good.made u made isOld
    · rw [Renaming.named_next]
      exact ⟨recordOf.isGlobal, v, inside, isLocal, recordOf.base⟩
  · intro w insideW isLocalW i member
    by_cases isV : w = v
    · subst isV
      rw [Renaming.named_same s record (older w insideW)] at member ⊢
      rcases List.mem_cons.mp member with rfl | member
      · refine ⟨s.next, List.mem_append_right _ (List.mem_singleton_self _), ?_⟩
        rw [Renaming.named_next]
        exact recordOf.subscript
      · rcases good.found w insideW isLocalW i member with ⟨u, memberU, isI⟩
        rcases good.range w insideW u memberU with ⟨made, insideU⟩
        refine ⟨u, List.mem_append_left _ memberU, ?_⟩
        rw [oldName u made insideU]
        exact isI
    · rw [(fields w insideW).2.2 isV] at member ⊢
      rcases good.found w insideW isLocalW i member with ⟨u, memberU, isI⟩
      rcases good.range w insideW u memberU with ⟨made, insideU⟩
      refine ⟨u, memberU, ?_⟩
      rw [oldName u made insideU]
      exact isI
  · intro w insideW u member
    by_cases isV : w = v
    · subst isV
      rw [Renaming.named_same s record (older w insideW)] at member
      rcases List.mem_append.mp member with member | isNext
      · have range := good.range w insideW u member
        exact ⟨range.1, Nat.lt_succ_of_lt range.2⟩
      · rw [List.mem_singleton.mp isNext]
        exact ⟨good.first_le, Nat.lt_succ_self _⟩
    · rw [(fields w insideW).2.2 isV] at member
      have range := good.range w insideW u member
      exact ⟨range.1, Nat.lt_succ_of_lt range.2⟩
  · intro w insideW
    by_cases isV : w = v
    · subst isV
      rw [Renaming.named_same s record (older w insideW)]
      exact room
    · rw [(fields w insideW).2.2 isV]
      exact good.shortStack w insideW
  · intro w insideW
    by_cases isV : w = v
    · subst isV
      rw [Renaming.named_same s record (older w insideW)]
      show ((s.names w).subscripts ++ [s.next]).length ≤ _
      rw [List.length_append]
      exact room'
    · rw [(fields w insideW).2.2 isV]
      exact good.shortSubscripts w insideW

theorem Grown.named {record : Name} (good : Good first glob s) (inside : v < first)
    (isLocal : glob v = false) :
    Grown first (fun w => if glob w then 0 else if v = w then 1 else 0) s (s.named v record) := by
  have one : (if glob v then 0 else if v = v then 1 else 0) = 1 := by simp [isLocal]
  have older : ∀ w < first, w ≠ s.next := fun w insideW =>
    Nat.ne_of_lt (Nat.lt_of_lt_of_le insideW good.first_le)
  refine ⟨rfl, Nat.le_succ _, ?_, ?_, ?_⟩
  · exact fun u made insideU => Renaming.named_other s record (Nat.ne_of_lt insideU)
      (Nat.ne_of_gt (Nat.lt_of_lt_of_le inside made))
  · intro w insideW
    by_cases isV : v = w
    · subst isV
      rw [Renaming.named_same s record (older v inside), one]
      exact ⟨[(s.names v).counter], rfl, rfl⟩
    · rw [Renaming.named_other s record (older w insideW) (Ne.symm isV), if_neg isV, ite_self]
      exact ⟨[], rfl, rfl⟩
  · intro w insideW
    by_cases isV : v = w
    · subst isV
      rw [Renaming.named_same s record (older v inside), one]
      exact List.length_append
    · rw [Renaming.named_other s record (older w insideW) (Ne.symm isV), if_neg isV, ite_self]
      rfl

/-- Making a name of a variable. -/
theorem newName_spec (good : Good first glob s) (inside : v < first) :
    (∃ u s', newName v s = .ok (u, s') ∧ Good first glob s' ∧
      Grown first (fun w => if glob w then 0 else if v = w then 1 else 0) s s' ∧
      NameOf first glob s' v u) ∨
    (newName v s = .error .overrun ∧
      Lacks first (fun w => if glob w then 0 else if v = w then 1 else 0) s) := by
  cases glob_v : glob v with
  | true =>
      rcases good.ensureBase inside with ⟨good', grown, _, isGlobal⟩
      left
      refine ⟨v, _, ?_, good', ⟨grown.insns, grown.next_le, grown.old, ?_, ?_⟩, ?_⟩
      · rw [newName]
        simp only [isGlobal, glob_v, if_true]
      · intro w insideW
        rcases grown.stack w insideW with ⟨new, isNew, length⟩
        refine ⟨new, isNew, length.trans ?_⟩
        by_cases isV : v = w
        · rw [← isV, glob_v, if_pos rfl]
        · rw [if_neg isV, ite_self]
      · intro w insideW
        rw [grown.subscripts w insideW]
        by_cases isV : v = w
        · rw [← isV, glob_v, if_pos rfl]
        · rw [if_neg isV, ite_self]
      · rw [NameOf, if_pos glob_v]
  | false =>
      have one : (if glob v then 0 else if v = v then 1 else 0) = 1 := by simp [glob_v]
      rw [newName_eq good inside glob_v]
      by_cases full : maxStack ≤ (s.names v).stack.length
      · right
        refine ⟨if_pos full, v, inside, Or.inl ?_⟩
        show maxStack < _ + (if glob v then 0 else if v = v then 1 else 0)
        rw [one]
        exact Nat.lt_succ_of_le full
      by_cases full' : maxSubscripts ≤ (s.names v).subscripts.length
      · right
        refine ⟨(if_neg full).trans (if_pos full'), v, inside, Or.inr ?_⟩
        show maxSubscripts < _ + (if glob v then 0 else if v = v then 1 else 0)
        rw [one]
        exact Nat.lt_succ_of_le full'
      left
      have recordOf : RecordOf s v
          { s.names v with
            base := some v
            subscript := (s.names v).counter
            counter := (s.names v).counter + 1
            stack := (s.names v).counter :: (s.names v).stack } :=
        ⟨rfl, (good.isGlobal v inside).trans glob_v, rfl⟩
      refine ⟨s.next, _, (if_neg full).trans (if_neg full'),
        good.named inside glob_v recordOf (Nat.lt_of_not_le full) (Nat.lt_of_not_le full'),
        Grown.named good inside glob_v, ?_⟩
      rw [NameOf, if_neg (by simp [glob_v]), Renaming.named_next]
      exact ⟨good.first_le, Nat.lt_succ_self _, rfl⟩

/-! ## The instructions of a block -/

/-- Renaming an operand that may be missing. -/
theorem renameOperand_spec
    {rename : VarId → Renaming → Except RenameFault (VarId × Renaming)} {operand : Option VarId}
    (renames : ∀ v, operand = some v → ∃ u s', rename v s = .ok (u, s') ∧ Good first glob s' ∧
      Grown first (fun _ => 0) s s')
    (good : Good first glob s) :
    ∃ operand' s', renameOperand rename operand s = .ok (operand', s') ∧ Good first glob s' ∧
      Grown first (fun _ => 0) s s' := by
  cases operand with
  | none => exact ⟨none, s, rfl, good, Grown.refl s⟩
  | some v =>
      rcases renames v rfl with ⟨u, s', ran, good', grown⟩
      refine ⟨some u, s', ?_, good', grown⟩
      rw [renameOperand, ran]
      rfl

theorem Grown.congr (grown : Grown first count s s') (same : ∀ v, count v = count' v) :
    Grown first count' s s' := by
  rw [show count' = count from funext fun v => (same v).symm]
  exact grown

/-- An instruction is renamed, or there is no room for the name it makes. -/
theorem renameInsn_spec {insn : PhiInsn} (good : Good first glob s)
    (operands : Operands first glob insn.toInsn) :
    (∃ insn' s', renameInsn insn s = .ok (insn', s') ∧ Good first glob s' ∧
      Grown first (nameMade glob insn.toInsn) s s' ∧
      Renamed first glob s' insn.toInsn insn'.toInsn) ∨
    (renameInsn insn s = .error .overrun ∧ Lacks first (nameMade glob insn.toInsn) s) := by
  have counts : ∀ {rd : VarId}, insn.rd = some rd → ∀ w,
      (if glob w then 0 else if rd = w then 1 else 0) = nameMade glob insn.toInsn w := by
    intro rd isRd w
    rw [nameMade, isRd]
    simp only [Option.some.injEq]
  by_cases isPhi : insn.opcode = .phi
  · rcases operands.phi isPhi with ⟨rd, isRd, -⟩
    rw [renameInsn, if_pos isPhi, isRd]
    simp only
    rcases newName_spec good (operands.rd rd isRd) with
      ⟨u, s', ran, good', grown, nameOf⟩ | ⟨failed, lacks⟩
    · left
      rw [ran]
      refine ⟨_, s', rfl, good', grown.congr (counts isRd), rfl, ?_, ?_⟩
      · intro isNone
        cases isNone.symm.trans isRd
      · intro v isV
        cases isRd.symm.trans isV
        exact ⟨u, rfl, nameOf⟩
    · right
      rw [failed]
      exact ⟨rfl, lacks.more fun w => Nat.le_of_eq (counts isRd w)⟩
  · rw [renameInsn, if_neg isPhi]
    rcases @renameOperand_spec first glob s _ insn.rs1
      (fun v isV => renameVar_spec good (operands.rs1 v isV)) good with
      ⟨rs1, s₁, ran₁, good₁, grown₁⟩
    have isRs2 : ∀ v, insn.rs2 = some v → ∃ u s',
        (if (s₁.names v).isFunc then .ok (v, s₁) else renameVar v s₁) = .ok (u, s') ∧
          Good first glob s' ∧ Grown first (fun _ => 0) s₁ s' := by
      intro v isV
      split
      · exact ⟨v, s₁, rfl, good₁, Grown.refl s₁⟩
      · exact renameVar_spec good₁ (operands.rs2 v isV)
    rcases @renameOperand_spec first glob s₁
      (fun v s => if (s.names v).isFunc then .ok (v, s) else renameVar v s) insn.rs2 isRs2 good₁
      with ⟨rs2, s₂, ran₂, good₂, grown₂⟩
    have grown := grown₁.trans grown₂
    rw [ran₁]
    simp only [bind, Except.bind, ran₂]
    cases isRd : insn.rd with
    | none =>
        left
        refine ⟨_, s₂, rfl, good₂, grown.congr ?_, rfl, fun _ => rfl, ?_⟩
        · intro w
          rw [nameMade, isRd]
          simp
        · intro v isV
          cases isRd.symm.trans isV
    | some rd =>
        rcases newName_spec good₂ (operands.rd rd isRd) with
          ⟨u, s', ran, good', grown', nameOf⟩ | ⟨failed, lacks⟩
        · left
          simp only [renameOperand, ran, bind, Except.bind]
          refine ⟨_, s', rfl, good', (grown.trans grown').congr ?_, rfl, ?_, ?_⟩
          · intro w
            rw [counts isRd]
            exact Nat.zero_add _
          · intro isNone
            cases isNone.symm.trans isRd
          · intro v isV
            cases isRd.symm.trans isV
            exact ⟨u, rfl, nameOf⟩
        · right
          simp only [renameOperand, failed, bind, Except.bind]
          refine ⟨trivial, (lacks.before grown).more fun w => Nat.le_of_eq ?_⟩
          rw [counts isRd]
          exact Nat.zero_add _

theorem Renamed.grown {insn insn' : Insn} (renamed : Renamed first glob s insn insn')
    (grown : Grown first count s s') : Renamed first glob s' insn insn' := by
  refine ⟨renamed.opcode, renamed.none, ?_⟩
  intro v isV
  rcases renamed.some v isV with ⟨u, isU, nameOf⟩
  exact ⟨u, isU, nameOf.grown grown⟩

/-- The instructions of a block are renamed, or there is no room for the names they make. -/
theorem renameInsns_spec {insns : List PhiInsn} (good : Good first glob s)
    (operands : ∀ insn ∈ insns, Operands first glob insn.toInsn) :
    (∃ insns' s', renameInsns insns s = .ok (insns', s') ∧ Good first glob s' ∧
      Grown first (namesMade glob (insns.map PhiInsn.toInsn)) s s' ∧
      List.Forall₂ (Renamed first glob s') (insns.map PhiInsn.toInsn)
        (insns'.map PhiInsn.toInsn)) ∨
    (renameInsns insns s = .error .overrun ∧
      Lacks first (namesMade glob (insns.map PhiInsn.toInsn)) s) := by
  induction insns generalizing s with
  | nil => exact Or.inl ⟨[], s, rfl, good, Grown.refl s, .nil⟩
  | cons insn rest inductionHypothesis =>
      have counts : ∀ w, namesMade glob ((insn :: rest).map PhiInsn.toInsn) w =
          nameMade glob insn.toInsn w + namesMade glob (rest.map PhiInsn.toInsn) w := by
        intro w
        rw [namesMade, List.map_cons, List.map_cons, List.sum_cons]
        rfl
      rw [renameInsns]
      rcases renameInsn_spec good (operands insn List.mem_cons_self) with
        ⟨insn', s₁, ran, good₁, grown₁, renamed⟩ | ⟨failed, lacks⟩
      · rw [ran]
        simp only [bind, Except.bind]
        rcases inductionHypothesis good₁ (fun i member => operands i (List.mem_cons_of_mem insn member))
          with ⟨rest', s₂, ranAll, good₂, grown₂, others⟩ | ⟨failed, lacks⟩
        · left
          rw [ranAll]
          exact ⟨_, s₂, rfl, good₂, (grown₁.trans grown₂).congr fun w => (counts w).symm,
            .cons (renamed.grown grown₂) others⟩
        · right
          rw [failed]
          exact ⟨rfl, (lacks.before grown₁).more fun w => Nat.le_of_eq (counts w).symm⟩
      · right
        rw [failed]
        refine ⟨rfl, lacks.more fun w => ?_⟩
        rw [counts w]
        exact Nat.le_add_right _ _

/-! ## Operands of φs -/

/-- The variable of each φ is one of the parser or a name of one, and not global. -/
def PhisKnown (first : VarId) (glob : VarId → Bool) (s : Renaming) (insns : List Insn) : Prop :=
  ∀ insn ∈ insns, insn.opcode = .phi → ∃ u v, insn.rd = some u ∧ v < first ∧ glob v = false ∧
    (u = v ∧ v < first ∨ NameOf first glob s v u)

theorem appendPhiOperand_spec {insns : List PhiInsn} {bb : BlockId} (good : Good first glob s)
    (known : PhisKnown first glob s (insns.map PhiInsn.toInsn)) :
    ∃ insns', appendPhiOperand bb s insns = .ok insns' ∧
      insns'.map PhiInsn.toInsn = insns.map PhiInsn.toInsn := by
  induction insns with
  | nil => exact ⟨[], rfl, rfl⟩
  | cons insn rest inductionHypothesis =>
      rcases inductionHypothesis (fun i member => known i (List.mem_cons_of_mem _ member)) with
        ⟨rest', ran, same⟩
      rw [appendPhiOperand]
      by_cases isPhi : insn.opcode = .phi
      · rcases known insn.toInsn List.mem_cons_self isPhi with ⟨u, v, isU, inside, isLocal, nameOf⟩
        rcases good.getStackTopSubscriptVar isLocal inside (good.base_nameOf isLocal nameOf) with
          ⟨top, isTop⟩
        rw [if_pos isPhi, isU]
        simp only [isTop, ran, bind, Except.bind]
        exact ⟨_, rfl, congrArg (insn.toInsn :: ·) same⟩
      · rw [if_neg isPhi]
        simp only [ran, bind, Except.bind]
        exact ⟨_, rfl, congrArg (insn.toInsn :: ·) same⟩

/-- Only operands of φs are written. -/
theorem appendTo_spec {succs : List BlockId} {bb : BlockId} (good : Good first glob s)
    (known : ∀ b, PhisKnown first glob s ((s.insns b).map PhiInsn.toInsn)) :
    ∃ insns', appendTo bb succs s = .ok { s with insns := insns' } ∧
      ∀ b, (insns' b).map PhiInsn.toInsn = (s.insns b).map PhiInsn.toInsn := by
  induction succs generalizing s with
  | nil => exact ⟨s.insns, rfl, fun _ => rfl⟩
  | cons succ rest inductionHypothesis =>
      rcases @appendPhiOperand_spec _ _ _ _ bb good (known succ) with ⟨insns₁, ran, same⟩
      have same₁ : ∀ b, (Function.update s.insns succ insns₁ b).map PhiInsn.toInsn =
          (s.insns b).map PhiInsn.toInsn := by
        intro b
        by_cases isSucc : b = succ
        · subst isSucc
          rw [Function.update_self, same]
        · rw [Function.update_of_ne isSucc]
      have good₁ : Good first glob { s with insns := Function.update s.insns succ insns₁ } :=
        ⟨good.first_le, good.isGlobal, good.base, good.made, good.found, good.range,
          good.shortStack, good.shortSubscripts⟩
      rcases inductionHypothesis good₁ (by
        intro b
        show PhisKnown first glob _ ((Function.update s.insns succ insns₁ b).map PhiInsn.toInsn)
        rw [same₁]
        exact known b) with ⟨insns', ranAll, same'⟩
      refine ⟨insns', ?_, fun b => (same' b).trans (same₁ b)⟩
      rw [appendTo, ran]
      exact ranAll

/-! ## Taking names off the stacks -/

/-- Names were taken off the stacks: of each variable so many. -/
structure Popped (first : VarId) (count : VarId → Nat) (s s' : Renaming) : Prop where
  insns : s'.insns = s.insns
  next : s'.next = s.next
  old : ∀ u, first ≤ u → s'.names u = s.names u
  stack : ∀ v < first, (s'.names v).stack = (s.names v).stack.drop (count v)
  subscripts : ∀ v < first, (s'.names v).subscripts = (s.names v).subscripts

theorem Popped.trans (popped : Popped first count s s') (popped' : Popped first count' s' s'') :
    Popped first (fun v => count v + count' v) s s'' where
  insns := popped'.insns.trans popped.insns
  next := popped'.next.trans popped.next
  old := fun u made => (popped'.old u made).trans (popped.old u made)
  stack := by
    intro v inside
    rw [popped'.stack v inside, popped.stack v inside, List.drop_drop]
  subscripts := fun v inside => (popped'.subscripts v inside).trans (popped.subscripts v inside)

/-- Taking the latest name of a variable off its stack. -/
theorem popName_spec (good : Good first glob s) (inside : v < first)
    (nameOf : NameOf first glob s v u)
    (high : (if glob v then 0 else 1) ≤ (s.names v).stack.length) :
    ∃ s', popName u s = .ok s' ∧ Good first glob s' ∧
      Popped first (fun w => if glob w then 0 else if v = w then 1 else 0) s s' := by
  cases glob_v : glob v with
  | true =>
      rw [NameOf, if_pos glob_v] at nameOf
      subst nameOf
      refine ⟨s, ?_, good, rfl, rfl, fun _ _ => rfl, ?_, fun _ _ => rfl⟩
      · rw [popName, if_pos ((good.isGlobal u inside).trans glob_v)]
      · intro w _
        by_cases isV : u = w
        · rw [← isV, glob_v, if_pos rfl]
          rfl
        · rw [if_neg isV, ite_self]
          rfl
  | false =>
      rw [NameOf, if_neg (by simp [glob_v])] at nameOf
      rcases nameOf with ⟨made, insideU, base⟩
      have notGlobal : ¬ (s.names u).isGlobal = true := by
        rw [(good.made u made insideU).1]
        exact Bool.false_ne_true
      rw [popName, if_neg notGlobal, base]
      simp only
      cases isStack : (s.names v).stack with
      | nil =>
          rw [isStack, glob_v] at high
          exact absurd high (by decide)
      | cons top rest =>
          have others : ∀ w, w ≠ v →
              (s.update v fun n => { n with stack := rest }).names w = s.names w :=
            fun w differ => Renaming.update_other s _ differ
          have fields : ∀ w, ((s.update v fun n => { n with stack := rest }).names w) =
              { s.names w with
                stack := ((s.update v fun n => { n with stack := rest }).names w).stack } := by
            intro w
            by_cases isV : w = v
            · subst isV
              simp
            · rw [others w isV]
          have dropped : ∀ w < first,
              ((s.update v fun n => { n with stack := rest }).names w).stack =
                (s.names w).stack.drop (if glob w then 0 else if v = w then 1 else 0) := by
            intro w _
            by_cases isV : v = w
            · subst isV
              simp [glob_v, isStack]
            · rw [others w (Ne.symm isV), if_neg isV, ite_self]
              rfl
          refine ⟨_, rfl, ⟨good.first_le, ?_, ?_, ?_, ?_, ?_, ?_, ?_⟩, rfl, rfl, ?_, dropped, ?_⟩
          · intro w insideW
            rw [fields w]
            exact good.isGlobal w insideW
          · intro w insideW isLocal
            rw [fields w]
            exact good.base w insideW isLocal
          · intro w madeW insideW
            rw [fields w]
            exact good.made w madeW insideW
          · intro w insideW isLocal i member
            rw [dropped w insideW] at member
            rcases good.found w insideW isLocal i (List.mem_of_mem_drop member) with
              ⟨x, memberX, isI⟩
            refine ⟨x, ?_, ?_⟩
            · rw [fields w]
              exact memberX
            · rw [fields x]
              exact isI
          · intro w insideW x member
            rw [fields w] at member
            exact good.range w insideW x member
          · intro w insideW
            rw [dropped w insideW, List.length_drop]
            exact Nat.le_trans (Nat.sub_le _ _) (good.shortStack w insideW)
          · intro w insideW
            rw [fields w]
            exact good.shortSubscripts w insideW
          · intro w madeW
            exact others w (Nat.ne_of_gt (Nat.lt_of_lt_of_le inside madeW))
          · intro w _
            rw [fields w]

theorem Renamed.popped {insn insn' : Insn} (renamed : Renamed first glob s insn insn')
    (popped : Popped first count s s') : Renamed first glob s' insn insn' := by
  refine ⟨renamed.opcode, renamed.none, ?_⟩
  intro v isV
  rcases renamed.some v isV with ⟨u, isU, nameOf⟩
  refine ⟨u, isU, ?_⟩
  rw [NameOf] at nameOf ⊢
  split at nameOf
  case isTrue isGlobal =>
    rw [if_pos isGlobal]
    exact nameOf
  case isFalse isLocal =>
    rw [if_neg isLocal, popped.next, popped.old u nameOf.1]
    exact nameOf

/-- An instruction takes the name it has made off its stack. -/
theorem popInsn_spec {insn : Insn} {insn' : PhiInsn} (good : Good first glob s)
    (operands : Operands first glob insn) (renamed : Renamed first glob s insn insn'.toInsn)
    (high : ∀ v < first, nameMade glob insn v ≤ (s.names v).stack.length) :
    ∃ s', popInsn insn' s = .ok s' ∧ Good first glob s' ∧
      Popped first (nameMade glob insn) s s' := by
  rw [popInsn]
  cases isRd : insn.rd with
  | none =>
      have notPhi : ¬ insn'.opcode = .phi := by
        intro isPhi
        rcases operands.phi (renamed.opcode.symm.trans isPhi) with ⟨v, isV, _⟩
        cases isRd.symm.trans isV
      rw [renamed.none isRd]
      refine ⟨s, if_neg notPhi, good, rfl, rfl, fun _ _ => rfl, ?_, fun _ _ => rfl⟩
      intro w _
      rw [nameMade, isRd]
      simp
  | some v =>
      rcases renamed.some v isRd with ⟨u, isU, nameOf⟩
      have inside := operands.rd v isRd
      have isOne : nameMade glob insn v = if glob v then 0 else 1 := by
        rw [nameMade, isRd, if_pos rfl]
      rw [isU]
      rcases popName_spec good inside nameOf (isOne ▸ high v inside) with
        ⟨s₁, ran, good₁, popped⟩
      refine ⟨s₁, ran, good₁, popped.insns, popped.next, popped.old, ?_, popped.subscripts⟩
      intro w insideW
      rw [popped.stack w insideW, nameMade, isRd]
      simp only [Option.some.injEq]

/-- A block takes the names it has made off the stacks. -/
theorem popInsns_spec {insns : List Insn} {insns' : List PhiInsn} (good : Good first glob s)
    (operands : ∀ insn ∈ insns, Operands first glob insn)
    (renamed : List.Forall₂ (Renamed first glob s) insns (insns'.map PhiInsn.toInsn))
    (high : ∀ v < first, namesMade glob insns v ≤ (s.names v).stack.length) :
    ∃ s', popInsns insns' s = .ok s' ∧ Good first glob s' ∧
      Popped first (namesMade glob insns) s s' := by
  induction insns' generalizing insns s with
  | nil =>
      cases renamed
      exact ⟨s, rfl, good, rfl, rfl, fun _ _ => rfl, fun _ _ => rfl, fun _ _ => rfl⟩
  | cons insn' rest' inductionHypothesis =>
      cases renamed with
      | @cons insn _ rest _ isRenamed others =>
          have counts : ∀ w, namesMade glob (insn :: rest) w =
              nameMade glob insn w + namesMade glob rest w := by
            intro w
            rw [namesMade, List.map_cons, List.sum_cons]
            rfl
          have high' : ∀ v < first, nameMade glob insn v ≤ (s.names v).stack.length := by
            intro v inside
            have := high v inside
            rw [counts] at this
            omega
          rcases popInsn_spec good (operands insn List.mem_cons_self) isRenamed high' with
            ⟨s₁, ran, good₁, popped₁⟩
          have high₁ : ∀ v < first, namesMade glob rest v ≤ (s₁.names v).stack.length := by
            intro v inside
            have := high v inside
            rw [counts] at this
            rw [popped₁.stack v inside, List.length_drop]
            omega
          rcases inductionHypothesis good₁
            (fun i member => operands i (List.mem_cons_of_mem _ member))
            (others.imp fun _ _ isRenamed' => isRenamed'.popped popped₁) high₁ with
            ⟨s', ranAll, good', popped'⟩
          refine ⟨s', ?_, good', ?_⟩
          · rw [popInsns, ran]
            exact ranAll
          · rw [funext counts]
            exact popped₁.trans popped'

end Renaming

end Shecc.Ssa
