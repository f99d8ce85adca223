import Shecc.Parser.Declaration
import Shecc.Parser.Expression

/-!
# Initializers of global variables

`read_global_assignment` computes a constant expression while it reads it, with a stack of
operators and one of values. The parser is in the global block, and `bb` is the first block of
the global function.
-/

namespace Shecc.Parser

open Shecc.Preprocessor (Token TokenKind SourceLocation Cursor maxTokenLen parseNumericConstant)
open Shecc.Lexer (unescapeString)

/-! ## Constants -/

/-- `read_primary_constant`, cut off after `fuel` brackets. -/
def readPrimaryConstant (ctx : Context) : Nat → Parse Word
  | 0 => .fail .outOfFuel
  | fuel + 1 => do
      let isneg ← lexAccept .minus
      let res ← if ← lexAccept .openBracket then do
          let res ← readPrimaryConstant ctx fuel
          lexExpect .closeBracket
          pure res
        else do
          let (buffer, isNumeric) ← lexPeekInto ctx .numeric maxTokenLen
          if isNumeric then do
            lexExpect .numeric
            pure (parseNumericConstant buffer)
          else do
            let (buffer, isChar) ← lexPeekInto ctx .char maxTokenLen
            if isChar then
              match unescapeString buffer.toList maxTokenLen with
              | .error _ | .ok ([], _) => .fail .outOfBounds
              | .ok (ch :: _, _) => do
                  lexExpect .char
                  pure (charValue ch)
            else errorAtNext "Invalid value after assignment"
      pure (if isneg then -res else res)

/-- `eval_expression_imm`. Where the operation is not defined, the parser itself has no defined
behaviour. -/
def evalExpressionImm (op : Opcode) (op1 op2 : Word) : Parse Word :=
  match op with
  | .mod =>
      if op2 ≠ 0 ∧ op2 &&& (op2 - 1) = 0 then pure (op1 &&& (op2 - 1))
      else
        match op.binary op1 op2 with
        | some res => pure res
        | none => .fail .arithmetic
  | .add | .sub | .mul | .div | .lshift | .rshift | .logAnd | .logOr | .eq | .neq | .lt | .gt
  | .leq | .geq =>
      match op.binary op1 op2 with
      | some res => pure res
      | none => .fail .arithmetic
  | _ => errorAtCur "The requested operation is not supported."

/-- The end of `read_global_assignment`: the variable on the operand stack gets the value. -/
def assignConstant (ctx : Context) (value : Word) : Parse Unit := do
  let rs1 ← newConstant ctx value
  emit { opcode := .loadConstant, rd := some rs1 }
  let vd ← opstackPop
  emit { opcode := .assign, rd := some vd, rs1 := some rs1 }

/-! ## Conditional expressions -/

/-- The loops of `eval_ternary_imm` that skip tokens up to one of a kind. -/
def skipTo (kind : TokenKind) : Nat → Parse Unit
  | 0 => .fail .outOfFuel
  | fuel + 1 => do
      if ← lexPeek kind then pure ()
      else
        lexNext
        skipTo kind fuel

/-- `eval_ternary_imm`, where `again` is `read_global_assignment`. -/
def evalTernaryImm (again : Parse Bool) (fuel : Nat) (cond : Word) : Parse Unit := do
  if cond = 0 then
    skipTo .colon fuel
    let _ ← lexAccept .colon
    let _ ← again
  else
    let _ ← again
    lexExpect .colon
    skipTo .semicolon fuel

/-! ## The stacks -/

/-- `op_stack` and `val_stack`, the top first. -/
structure Stacks where
  ops : List Opcode
  vals : List Word

/-- A store into `val_stack[val_stack_index++]`. -/
def Stacks.pushValue (s : Stacks) (value : Word) : Parse Stacks :=
  if s.vals.length < maxOperStackSize then pure { s with vals := value :: s.vals }
  else .fail .outOfBounds

/-- A store into `op_stack[op_stack_index++]`. -/
def Stacks.pushOp (s : Stacks) (op : Opcode) : Parse Stacks :=
  if s.ops.length < maxOperStackSize then pure { s with ops := op :: s.ops }
  else .fail .outOfBounds

/-- The operator on the top of its stack is applied to the two values on the top of theirs. -/
def Stacks.applyTop (s : Stacks) : Parse Stacks :=
  match s.ops, s.vals with
  | op :: ops, operand2 :: operand1 :: vals => do
      let res ← evalExpressionImm op operand1 operand2
      Stacks.pushValue ⟨ops, vals⟩ res
  | _, _ => .fail .outOfBounds

/-- The inner loop of `read_global_assignment`. Each round takes an operator off its stack. -/
def applyPending (op : Opcode) : (rounds : Nat) → Stacks → Parse Stacks
  | 0, s => pure s
  | rounds + 1, s =>
      match s.ops with
      | [] => pure s
      | stackOp :: _ =>
          if getOperatorPrio stackOp ≥ getOperatorPrio op then do
            let s ← s.applyTop
            applyPending op rounds s
          else pure s

/-- What follows the inner loop: the next operand and the operator before it are pushed, and the
operator behind it is read. -/
def pushNext (ctx : Context) (fuel : Nat) (op : Opcode) (s : Stacks) : Parse (Opcode × Stacks) := do
  let value ← readPrimaryConstant ctx fuel
  let s ← s.pushValue value
  let s ← s.pushOp op
  let op ← getOperator
  pure (op, s)

/-- The loop of `read_global_assignment` over the operators. -/
def readPending (ctx : Context) (loops : Nat) : Nat → Opcode → Stacks → Parse (Opcode × Stacks)
  | 0, _, _ => .fail .outOfFuel
  | fuel + 1, op, s => do
      if op = .generic ∨ op = .ternary then pure (op, s)
      else
        let s ← applyPending op s.ops.length s
        let (op, s) ← pushNext ctx loops op s
        readPending ctx loops fuel op s

/-- The loop that unwinds the stacks. -/
def unwind : (rounds : Nat) → Stacks → Parse Stacks
  | 0, s => pure s
  | rounds + 1, s =>
      match s.ops with
      | [] => pure s
      | _ :: _ => do
          let s ← s.applyTop
          unwind rounds s

/-! ## The function -/

/-- The rest of `read_global_assignment` for an expression that has been computed, and the
operator behind it. -/
def finishAssignment (ctx : Context) (again : Parse Bool) (fuel : Nat) (op : Opcode)
    (value : Word) : Parse Bool := do
  if op = .ternary then
    lexExpect .question
    evalTernaryImm again fuel value
  else assignConstant ctx value
  pure true

/-- `read_global_assignment` behind a first operand and the operator behind it. -/
def readContinued (ctx : Context) (again : Parse Bool) (fuel : Nat) (op : Opcode)
    (operand1 : Word) : Parse Bool := do
  let operand2 ← readPrimaryConstant ctx fuel
  let nextOp ← getOperator
  if nextOp = .generic then do
    let value ← evalExpressionImm op operand1 operand2
    finishAssignment ctx again fuel nextOp value
  else do
    let (op, s) ← readPending ctx fuel fuel nextOp ⟨[op], [operand2, operand1]⟩
    let s ← unwind s.ops.length s
    finishAssignment ctx again fuel op (s.vals.getLastD 0)

/-- `find_global_var`. -/
def Parsing.findGlobalVar (p : Parsing) (token : String) : Option VarId :=
  p.locals.find? fun v => (p.var v).varName == token

/-- `read_global_assignment`, cut off after `fuel` conditional expressions within each other;
its loops are cut off after `fuel` rounds as well. -/
def readGlobalAssignment (ctx : Context) (token : String) : Nat → Parse Bool
  | 0 => .fail .outOfFuel
  | fuel + 1 => do
      let again := readGlobalAssignment ctx token fuel
      match (← get).findGlobalVar token with
      | none => pure false
      | some var => do
          if ← lexPeek .string then
            readLiteralParam ctx
            let rs1 ← opstackPop
            emit { opcode := .assign, rd := some var, rs1 := some rs1 }
            pure true
          else
            let operand1 ← readPrimaryConstant ctx fuel
            let op ← getOperator
            if op = .generic ∨ op = .ternary then
              finishAssignment ctx again fuel op operand1
            else readContinued ctx again fuel op operand1

end Shecc.Parser
