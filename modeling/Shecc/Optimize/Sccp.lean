import Shecc.Optimize.Driver
import Shecc.Parser.Core

/-!
# Constant propagation

`simple_sccp` passes once over the blocks of a function. An instruction whose
operands are flagged constant becomes a load of its value and flags its
destination; a branch on a flagged variable becomes a jump and the successor not
taken is dropped. The flags it leaves are those of `constantAfter`.
-/

namespace Shecc.Optimize

/-- What a part of the pass returns: whether it changed anything, the records and
what became of the code. -/
structure Sccp (α : Type) where
  changed : Bool
  vars : Vars
  left : α

/-- The sign extension of `value` from `sz` bytes; `none` for a size the source
skips. -/
def signExtendConstant (sz : Int) (value : Word) : Option Word :=
  if sz = 1 then some (if value &&& 0x80 ≠ 0 then value ||| 0xFFFFFF00 else value &&& 0xFF)
  else if sz = 2 then
    some (if value &&& 0x8000 ≠ 0 then value ||| 0xFFFF0000 else value &&& 0xFFFF)
  else if sz = 4 then some value
  else none

/-- The operators `simple_sccp` folds. -/
def foldedBySccp : Opcode → Bool
  | .add | .sub | .mul | .eq | .neq | .lt | .leq | .gt | .geq => true
  | _ => false

/-- One round of the loop over the instructions of a block. -/
def sccpInsn (vars : Vars) (insn : Insn) : Sccp Insn :=
  match insn.rd with
  | none => ⟨false, vars, insn⟩
  | some rd =>
      match insn.opcode, insn.rs1, insn.rs2 with
      | .assign, some rs1, _ =>
          if (vars rs1).isConst && !(vars rd).isConst then
            ⟨true, vars.setConst rd (vars rs1).initVal,
              { insn with opcode := .loadConstant, rs1 := none }⟩
          else
            ⟨false, vars, insn⟩
      | .trunc, some rs1, _ =>
          if (vars rs1).isConst && !(vars rd).isGlobal then
            match truncateConstant insn.sz (vars rs1).initVal with
            | some result =>
                ⟨true, vars.setConst rd result,
                  { insn with opcode := .loadConstant, rs1 := none, sz := 0 }⟩
            | none => ⟨false, vars, insn⟩
          else
            ⟨false, vars, insn⟩
      | .signExt, some rs1, _ =>
          if (vars rs1).isConst && !(vars rd).isGlobal then
            match signExtendConstant insn.sz (vars rs1).initVal with
            | some result =>
                ⟨true, vars.setConst rd result,
                  { insn with opcode := .loadConstant, rs1 := none, sz := 0 }⟩
            | none => ⟨false, vars, insn⟩
          else
            ⟨false, vars, insn⟩
      | op, some rs1, some rs2 =>
          if foldedBySccp op && (vars rs1).isConst && (vars rs2).isConst &&
              !(vars rd).isGlobal then
            match op.binary (vars rs1).initVal (vars rs2).initVal with
            | some result =>
                ⟨true, vars.setConst rd result,
                  { insn with opcode := .loadConstant, rs1 := none, rs2 := none }⟩
            | none => ⟨false, vars, insn⟩
          else
            ⟨false, vars, insn⟩
      | _, _, _ => ⟨false, vars, insn⟩

/-- The loop over the instructions of a block. -/
def sccpInsns (vars : Vars) : List Insn → Sccp (List Insn)
  | [] => ⟨false, vars, []⟩
  | insn :: rest =>
      let folded := sccpInsn vars insn
      let left := sccpInsns folded.vars rest
      ⟨folded.changed || left.changed, left.vars, folded.left :: left.left⟩

/-- The branch folding at the end of a block. -/
def foldBranch (vars : Vars) (block : Block) : Sccp Block :=
  match block.insns.getLast? with
  | none => ⟨false, vars, block⟩
  | some last =>
      match last.opcode, last.rs1 with
      | .branch, some rs1 =>
          if (vars rs1).isConst then
            let insns := block.insns.dropLast ++ [{ last with opcode := .jump, rs1 := none }]
            if (vars rs1).initVal ≠ 0 then
              ⟨true, vars, { block with insns := insns, else_ := none }⟩
            else
              ⟨true, vars, { block with insns := insns, then_ := block.else_, else_ := none }⟩
          else
            ⟨false, vars, block⟩
      | _, _ => ⟨false, vars, block⟩

/-- One round of the loop over the blocks. -/
def sccpBlock (vars : Vars) (block : Block) : Sccp Block :=
  let insns := sccpInsns vars block.insns
  let folded := foldBranch insns.vars { block with insns := insns.left }
  ⟨insns.changed || folded.changed, folded.vars, folded.left⟩

/-- `simple_sccp` on the blocks of a function in reverse post order. -/
def simpleSccp (vars : Vars) : List (BlockId × Block) → Sccp (List (BlockId × Block))
  | [] => ⟨false, vars, []⟩
  | (bb, block) :: rest =>
      let first := sccpBlock vars block
      let left := simpleSccp first.vars rest
      ⟨first.changed || left.changed, left.vars, (bb, first.left) :: left.left⟩

end Shecc.Optimize
