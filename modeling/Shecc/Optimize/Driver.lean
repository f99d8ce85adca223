import Shecc.Optimize.Cse
import Shecc.Optimize.Simplify

/-!
# The instruction loop of `optimize`

`optimize` visits the blocks of a function in reverse post order and the
instructions of each block from first to last. This file gives the loop as a
step function on an explicit cursor: the records, the blocks already visited, the
two halves of the current block and the blocks still to come.

Before the loop `optimize_constant_casts` merges a constant with the truncation
that follows it. `simple_sccp`, which runs first, only looks at operands already
flagged constant, and the parser flags none.
-/

namespace Shecc.Optimize

/-! ## Constant casts -/

/-- The value of a truncation of `value` to `sz` bytes; `none` for a size the
source skips. -/
def truncateConstant (sz : Int) (value : Word) : Option Word :=
  if sz = 1 then some (value &&& 0xFF)
  else if sz = 2 then some (value &&& 0xFFFF)
  else if sz = 4 then some value
  else none

/-- The loop of `optimize_constant_casts` over one block, standing at `insn`. -/
def constantCasts (vars : Vars) (insn : Insn) : List Insn → Vars × List Insn
  | [] => (vars, [insn])
  | next :: rest =>
      match insn.opcode, next.opcode, insn.rd, next.rd with
      | .loadConstant, .trunc, some source, some target =>
          match truncateConstant next.sz (vars source).initVal with
          | some result =>
              if next.rs1 = some source ∧ (vars target).isGlobal = false then
                let left := constantCasts (vars.setConst target result)
                  { next with opcode := .loadConstant, rs1 := none, sz := 0 } rest
                (left.1, { insn with rd := some target } :: left.2)
              else
                let left := constantCasts vars next rest
                (left.1, insn :: left.2)
          | none =>
              let left := constantCasts vars next rest
              (left.1, insn :: left.2)
      | _, _, _, _ =>
          let left := constantCasts vars next rest
          (left.1, insn :: left.2)

/-- `optimize_constant_casts` on one block. -/
def optimizeConstantCasts (vars : Vars) : List Insn → Vars × List Insn
  | [] => (vars, [])
  | insn :: rest => constantCasts vars insn rest

/-- `optimize_constant_casts` on a list of blocks in reverse post order. -/
def castBlocks (vars : Vars) : List (BlockId × List Insn) →
    Vars × List (BlockId × List Insn)
  | [] => (vars, [])
  | (bb, insns) :: rest =>
      let block := optimizeConstantCasts vars insns
      let left := castBlocks block.1 rest
      (left.1, (bb, block.2) :: left.2)

/-! ## The cursor -/

/-- Where the loop stands. `before` holds the instructions of the current block
already visited, latest first; `pending` those still to visit. -/
structure Cursor where
  vars : Vars
  processed : List (BlockId × List Insn)
  bb : BlockId
  before : List Insn
  pending : List Insn
  queue : List (BlockId × List Insn)

namespace Cursor

/-- Every instruction of the function, in order. -/
def insns (c : Cursor) : List Insn :=
  c.processed.reverse.flatMap Prod.snd ++ c.before.reverse ++ c.pending ++
    c.queue.flatMap Prod.snd

/-- The loop has visited everything. -/
def Finished (c : Cursor) : Prop :=
  c.pending = [] ∧ c.queue = []

end Cursor

/-- Merge the reads of a block dominated by `bb`. -/
def mergeBlock (idom : BlockId → BlockId) (fuel : Nat) (bb : BlockId) (base idx : VarId)
    (definition : Option VarId) (block : BlockId × List Insn) : BlockId × List Insn :=
  if checkDom idom bb fuel block.1 then
    (block.1, mergeReads base idx definition block.2)
  else
    block

/-- The part of the loop body after folding and common subexpressions: drop
`x = x`, else simplify. -/
def simplifyOrDrop (vars : Vars) (insn : Insn) : Vars × Insn :=
  if insn.opcode = .assign ∧ insn.rd.isSome ∧ insn.rd = insn.rs1 then
    (vars, { insn with rd := none, rs1 := none })
  else
    simplify vars insn

variable (undefined : Opcode → Word → Word → Word) (idom : BlockId → BlockId) (fuel : Nat)

/-- One round of the loop body on `insn`, with `rest` still to come in the
block. -/
def visit (c : Cursor) (insn : Insn) (rest : List Insn) : Cursor :=
  let folded := constFolding undefined c.vars c.before.head? insn
  if folded.changed then
    { c with vars := folded.vars, before := folded.insn :: c.before, pending := rest }
  else
    match arrayAccess folded.vars c.before.head? folded.insn with
    | some (base, idx) =>
        -- The pair just visited is skipped, its `add` being the instruction before.
        let merge := mergeReads base idx folded.insn.rd
        let visited := c.before.take 1 ++ (merge (c.before.drop 1).reverse).reverse
        { vars := folded.vars
          processed := c.processed.map (mergeBlock idom fuel c.bb base idx folded.insn.rd)
          bb := c.bb
          before := folded.insn :: visited
          pending := merge rest
          queue := c.queue.map (mergeBlock idom fuel c.bb base idx folded.insn.rd) }
    | none =>
        match cseBinary folded.vars c.before.reverse folded.insn with
        | some copy =>
            { c with vars := folded.vars, before := copy :: c.before, pending := rest }
        | none =>
            let left := simplifyOrDrop folded.vars folded.insn
            { c with vars := left.1, before := left.2 :: c.before, pending := rest }

/-- Advance the loop: visit the next instruction or move to the next block. -/
def step (c : Cursor) : Option Cursor :=
  match c.pending, c.queue with
  | insn :: rest, _ => some (visit undefined idom fuel c insn rest)
  | [], (bb, insns) :: queue =>
      some
        { vars := c.vars
          processed := (c.bb, c.before.reverse) :: c.processed
          bb := bb
          before := []
          pending := insns
          queue := queue }
  | [], [] => none

/-- The cursor at the start of the loop over the given blocks. -/
def Cursor.start (vars : Vars) (bb : BlockId) (insns : List Insn)
    (queue : List (BlockId × List Insn)) : Cursor :=
  let casts := castBlocks vars ((bb, insns) :: queue)
  { vars := casts.1
    processed := []
    bb := bb
    before := []
    pending := (casts.2.head?.map Prod.snd).getD []
    queue := casts.2.tail }

/-- The loop reaches `target` from `source`. -/
def Reaches (source target : Cursor) : Prop :=
  Relation.ReflTransGen (fun a b => step undefined idom fuel a = some b) source target

end Shecc.Optimize
