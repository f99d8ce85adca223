import Shecc.Ir.Exec
import Shecc.Lexer.Literal

/-!
# The state of the parser

The parser reads one list of tokens and writes basic blocks. It works on the
operand stack, the variables of the block it is in, the queue of postfix side
effects and the read-only data, and it looks names up in the symbol tables.
-/

namespace Shecc.Parser

open Shecc.Preprocessor (Token TokenKind SourceLocation Cursor maxTokenLen)
open Shecc.Lexer (skipUnusedToken)

/-! ## Declarations -/

/-- `MAX_ID_LEN`. -/
def maxIdLen : Nat := 64

/-- `MAX_VAR_LEN`. -/
def maxVarLen : Nat := 128

/-- `MAX_TYPE_LEN`. -/
def maxTypeLen : Nat := 32

/-- `MAX_PARAMS`. -/
def maxParams : Nat := 8

/-- `MAX_BB_PRED`. -/
def maxBbPred : Nat := 128

/-- `MAX_OPERAND_STACK_SIZE`. -/
def maxOperandStackSize : Nat := 32

/-- The elements of `oper_stack`. -/
def maxOperStackSize : Nat := 10

/-- The elements of `side_effect`. -/
def maxSideEffect : Nat := 10

/-- `PTR_SIZE`. -/
def ptrSize : Int := 4

/-- `base_type_t`. -/
inductive BaseType
  | void | int | char | short | struct | union | typedef
  deriving DecidableEq

/-- The name of a `type_t`. -/
abbrev TypeId := Nat

/-- `var_t`: what the passes behind the parser read, and what the parser reads. A missing type
is the null pointer. -/
structure VarRecord extends Var where
  type : Option TypeId := none
  varName : String := ""
  arrayDim2 : Nat := 0
  isCompoundLiteral : Bool := false

/-- `type_t`. -/
structure TypeRecord where
  typeName : String
  baseType : BaseType
  baseStruct : Option TypeId := none
  size : Int
  fields : List VarRecord := []
  ptrLevel : Nat := 0

/-- `func_t`. -/
structure FuncRecord where
  returnDef : VarRecord
  paramDefs : List VarRecord
  vaArgs : Bool

/-- The symbol tables, which reading an expression leaves alone. `outer` are the variables
`find_var` looks at behind those of the block; `unwritten` is what a buffer holds that nothing
was written to, which may depend on the tokens ahead. -/
structure Context where
  types : List TypeRecord
  tyInt : TypeId
  tyChar : TypeId
  tyShort : TypeId
  constants : String → Option Word
  funcs : String → Option FuncRecord
  outer : List VarId
  unwritten : List Token → String

/-- `bb_connection_type_t`. -/
inductive Connection
  | next | then_ | else_
  deriving DecidableEq

/-- `basic_block_t`. -/
structure BasicBlock extends Block where
  prev : List (BlockId × Connection) := []

/-- The block `bb_create` makes. -/
def BasicBlock.new : BasicBlock := { insns := [] }

instance : Inhabited BasicBlock := ⟨BasicBlock.new⟩

/-- The parser. `bb` is the block `*bb` points to; the top of `operandStack` comes first. -/
structure Parsing where
  cur : Cursor
  vars : List VarRecord
  locals : List VarId
  globalVarIdx : Nat
  operandStack : List VarId
  sideEffect : List Insn
  blocks : List BasicBlock
  bb : BlockId
  rodata : List Char

/-- How the parser stops: with an error message, with `abort`, by reading through the null
pointer, by leaving the bounds of an array, by an operation on integers that is not defined, or
not at all. -/
inductive Stop
  | errorAt (msg : String) (location : SourceLocation)
  | abort
  | nullPointer
  | outOfBounds
  | arithmetic
  | outOfFuel
  deriving DecidableEq

/-- A computation of the parser. -/
abbrev Parse := StateT Parsing (Except Stop)

namespace Parse

variable {α β : Type}

/-- The computation that stops. -/
def fail (stop : Stop) : Parse α := fun _ => .error stop

/-- A pointer that must not be null. -/
def deref : Option α → Parse α
  | some value => pure value
  | none => fail .nullPointer

theorem bind_eq (step : Parse α) (rest : α → Parse β) (p : Parsing) :
    (step >>= rest) p = (step p).bind fun result => rest result.1 result.2 := rfl

theorem pure_eq (value : α) (p : Parsing) : (pure value : Parse α) p = .ok (value, p) := rfl

theorem bind_ok {step : Parse α} {rest : α → Parse β} {p p' : Parsing} {value : α}
    (ran : step p = .ok (value, p')) : (step >>= rest) p = rest value p' := by
  rw [bind_eq, ran]
  rfl

theorem bind_error {step : Parse α} {rest : α → Parse β} {p : Parsing} {stop : Stop}
    (ran : step p = .error stop) : (step >>= rest) p = .error stop := by
  rw [bind_eq, ran]
  rfl

/-- A computation and what follows it return together. -/
theorem bind_eq_ok_iff {step : Parse α} {rest : α → Parse β} {p : Parsing}
    {result : β × Parsing} :
    (step >>= rest) p = .ok result ↔
      ∃ value p', step p = .ok (value, p') ∧ rest value p' = .ok result := by
  rw [bind_eq]
  cases step p with
  | error stop => simp [Except.bind]
  | ok middle =>
      rcases middle with ⟨value, p'⟩
      simp [Except.bind]

end Parse

/-! ## Tokens -/

namespace Parsing

/-- The cursor behind the unused tokens. -/
def ahead (p : Parsing) : Cursor := skipUnusedToken p.cur.tk p.cur.next

/-- `cur_token` moves. -/
def move (p : Parsing) (cur : Cursor) : Parsing := { p with cur := cur }

/-- The kind of the next token. -/
def peek (p : Parsing) : Option TokenKind := p.ahead.next.head?.map (·.kind)

/-- The cursor behind the next token, as `lex_next` moves there: it does not leave the end of
the file. -/
def behind (p : Parsing) : Cursor :=
  match p.ahead.next with
  | [] => p.ahead
  | next :: rest => if p.ahead.tk.kind = .eof then p.ahead else ⟨next, rest⟩

/-- `next_token_loc`. -/
def nextTokenLoc (p : Parsing) : Option SourceLocation :=
  if p.ahead.tk.kind = .eof then some p.ahead.tk.location
  else p.ahead.next.head?.map (·.location)

end Parsing

/-- `error_at`. -/
def errorAt {α : Type} (msg : String) (location : SourceLocation) : Parse α :=
  .fail (.errorAt msg location)

/-- `error_at(msg, cur_token_loc())`. -/
def errorAtCur {α : Type} (msg : String) : Parse α := fun p =>
  .error (.errorAt msg p.cur.tk.location)

/-- `error_at(msg, next_token_loc())`. -/
def errorAtNext {α : Type} (msg : String) : Parse α := fun p =>
  match p.nextTokenLoc with
  | some location => .error (.errorAt msg location)
  | none => .error .nullPointer

/-- `lex_peek(kind, NULL)`. -/
def lexPeek (kind : TokenKind) : Parse Bool := fun p =>
  .ok (p.peek == some kind, p.move p.ahead)

/-- `strcpy` of a literal into a buffer. -/
def copyLiteral (literal : String) (size : Nat) : Parse String :=
  if literal.length < size then pure literal else .fail .outOfBounds

/-- `lex_peek(kind, value)`: what the buffer holds then, and whether the kinds match. -/
def lexPeekInto (ctx : Context) (kind : TokenKind) (size : Nat) : Parse (String × Bool) := do
  let found ← lexPeek kind
  let p ← get
  if found then do
    let next ← Parse.deref p.ahead.next.head?
    let value ← copyLiteral next.literal size
    pure (value, true)
  else pure (ctx.unwritten p.ahead.next, false)

/-- `lex_accept`. -/
def lexAccept (kind : TokenKind) : Parse Bool := fun p =>
  if p.peek = some kind then .ok (true, p.move p.behind) else .ok (false, p.move p.ahead)

/-- `lex_expect`. -/
def lexExpect (kind : TokenKind) : Parse Unit := fun p =>
  if p.peek = some kind then .ok ((), p.move p.behind)
  else .error (.errorAt "Unexpected token" (p.ahead.next.headD p.ahead.tk).location)

/-- `lex_ident`: the literal of `cur_token`. -/
def lexIdent (kind : TokenKind) (size : Nat) : Parse String := do
  lexExpect kind
  let p ← get
  copyLiteral p.cur.tk.literal size

/-! ## Variables -/

namespace Parsing

/-- The record a name points at. -/
def var (p : Parsing) (v : VarId) : VarRecord := p.vars.getD v {}

/-- The records as the passes behind the parser see them. -/
def irVars (p : Parsing) : Vars := fun v => (p.var v).toVar

/-- Change one record. -/
def modifyVar (p : Parsing) (v : VarId) (change : VarRecord → VarRecord) : Parsing :=
  { p with vars := p.vars.modify v change }

/-- A new record in the block. -/
def withVar (p : Parsing) (record : VarRecord) : Parsing :=
  { p with vars := p.vars ++ [record], locals := p.locals ++ [p.vars.length] }

end Parsing

/-- The record of a variable. -/
def varOf (v : VarId) : Parse VarRecord := fun p => .ok (p.var v, p)

/-- Write fields of a variable. -/
def setVar (v : VarId) (change : VarRecord → VarRecord) : Parse Unit := fun p =>
  .ok ((), p.modifyVar v change)

/-- The type a pointer points to. -/
def Context.typeOf (ctx : Context) (type : Option TypeId) : Parse TypeRecord :=
  Parse.deref (type.bind (ctx.types[·]?))

/-- `require_var`. -/
def requireVar (ctx : Context) : Parse VarId := fun p =>
  .ok (p.vars.length, p.withVar { type := some ctx.tyInt })

/-- `require_typed_var`. -/
def requireTypedVar (ctx : Context) (type : Option TypeId) : Parse VarId := do
  if type.isNone then errorAtCur "Type must not be NULL"
  else do
    let var ← requireVar ctx
    setVar var ({ · with type := type })
    pure var

/-- `require_typed_ptr_var`. -/
def requireTypedPtrVar (ctx : Context) (type : Option TypeId) (ptr : Nat) : Parse VarId := do
  let var ← requireTypedVar ctx type
  setVar var ({ · with ptrLevel := ptr })
  pure var

/-- `require_ref_var`. -/
def requireRefVar (ctx : Context) (type : Option TypeId) (ptr : Nat) : Parse VarId := do
  if type.isNone then errorAtCur "Cannot reference variable from NULL type"
  else do
    let var ← requireTypedVar ctx type
    setVar var ({ · with ptrLevel := ptr + 1 })
    pure var

/-- `require_deref_var`. -/
def requireDerefVar (ctx : Context) (type : Option TypeId) (ptr : Nat) : Parse VarId := do
  if type.isNone then errorAtCur "Cannot dereference variable from NULL type"
  else do
    let record ← ctx.typeOf type
    if ptr = 0 then
      -- integers may be dereferenced
      if record.baseType ≠ .struct ∧ record.baseType ≠ .typedef then requireVar ctx
      else errorAtCur "Cannot dereference from non-pointer typed variable"
    else do
      let var ← requireTypedVar ctx type
      setVar var ({ · with ptrLevel := ptr - 1 })
      pure var

/-- `gen_name_to(var->var_name)`. -/
def genNameTo (var : VarId) : Parse Unit := fun p =>
  .ok ((), { p.modifyVar var ({ · with varName := ".t" ++ toString p.globalVarIdx }) with
    globalVarIdx := p.globalVarIdx + 1 })

/-- A new integer with a generated name. -/
def newTemp (ctx : Context) : Parse VarId := do
  let vd ← requireVar ctx
  genNameTo vd
  pure vd

/-- A new integer with a generated name and a value. -/
def newConstant (ctx : Context) (value : Word) : Parse VarId := do
  let vd ← newTemp ctx
  setVar vd ({ · with initVal := value })
  pure vd

/-- `get_size`. -/
def getSize (ctx : Context) (var : VarRecord) : Parse Int := do
  if var.ptrLevel ≠ 0 ∨ var.isFunc then pure ptrSize
  else do
    let type ← ctx.typeOf var.type
    pure type.size

/-- `var->type && var->type->ptr_level > 0`. -/
def isTypedefPointer (ctx : Context) (var : VarRecord) : Bool :=
  match var.type.bind (ctx.types[·]?) with
  | some type => type.ptrLevel > 0
  | none => false

/-- `is_array_literal_placeholder`. -/
def isArrayLiteralPlaceholder (var : VarRecord) : Bool :=
  var.arraySize > 0 && var.ptrLevel == 0 && var.isCompoundLiteral

/-- `is_pointer_like_value`. -/
def isPointerLikeValue (ctx : Context) (var : VarRecord) : Bool :=
  var.ptrLevel != 0 || var.arraySize != 0 || isTypedefPointer ctx var

/-- `find_var`: the variables of the block, then those around it. -/
def Parsing.findVar (p : Parsing) (ctx : Context) (token : String) : Option VarId :=
  (p.locals ++ ctx.outer).find? fun v => (p.var v).varName == token

/-- The entry of `TYPES` that `find_type` stops at. -/
def Context.matchesType (name : String) (flag : Nat) (type : TypeRecord) : Bool :=
  if type.baseType = .struct ∨ type.baseType = .union then flag != 1 && type.typeName == name
  else flag != 2 && type.typeName == name

/-- `find_type`. -/
def Context.findType (ctx : Context) (name : String) (flag : Nat) : Option TypeId :=
  match ctx.types.findIdx? (Context.matchesType name flag) with
  | none => none
  | some type =>
      match ctx.types[type]? with
      | none => none
      | some record =>
          -- a forwardly declared alias of a structure
          if record.baseType = .typedef ∧ record.size = 0 then record.baseStruct else some type

/-- `find_member`. -/
def findMember (ctx : Context) (token : String) (type : Option TypeId) :
    Parse (Option VarRecord) := do
  let record ← ctx.typeOf type
  let record ← if record.size = 0 then ctx.typeOf record.baseStruct else pure record
  pure (record.fields.find? fun field => field.varName == token)

/-! ## The operand stack -/

/-- `opstack_push`. -/
def opstackPush (var : VarId) : Parse Unit := fun p =>
  if p.operandStack.length < maxOperandStackSize then
    .ok ((), { p with operandStack := var :: p.operandStack })
  else .error .outOfBounds

/-- `opstack_pop`. -/
def opstackPop : Parse VarId := fun p =>
  match p.operandStack with
  | [] => .error .outOfBounds
  | var :: rest => .ok (var, { p with operandStack := rest })

/-- `operand_stack[operand_stack_idx - 1]`. -/
def opstackTop : Parse VarId := fun p =>
  match p.operandStack with
  | [] => .error .outOfBounds
  | var :: _ => .ok (var, p)

/-! ## Basic blocks -/

namespace Parsing

/-- The block a name points at. -/
def block (p : Parsing) (bb : BlockId) : BasicBlock := p.blocks.getD bb .new

/-- Change one block. -/
def modifyBlock (p : Parsing) (bb : BlockId) (change : BasicBlock → BasicBlock) : Parsing :=
  { p with blocks := p.blocks.modify bb change }

end Parsing

/-- `bb_create`. -/
def bbCreate : Parse BlockId := fun p =>
  .ok (p.blocks.length, { p with blocks := p.blocks ++ [.new] })

/-- The block with one successor set. -/
def BasicBlock.connect (block : BasicBlock) (succ : BlockId) : Connection → BasicBlock
  | .next => { block with next := some succ }
  | .then_ => { block with then_ := some succ }
  | .else_ => { block with else_ := some succ }

/-- `bb_connect`. -/
def bbConnect (pred succ : BlockId) (type : Connection) : Parse Unit := fun p =>
  if (p.block succ).prev.length < maxBbPred then
    .ok ((), (p.modifyBlock succ fun block =>
      { block with prev := block.prev ++ [(pred, type)] }).modifyBlock pred fun block =>
        block.connect succ type)
  else .error .abort

/-- `add_insn`. -/
def addInsn (bb : BlockId) (insn : Insn) : Parse Unit := fun p =>
  let p := p.modifyBlock bb fun block => { block with insns := block.insns ++ [insn] }
  match insn.rs1 with
  | some rs1 =>
      if insn.opcode = .addressOf ∨ insn.opcode = .globalAddressOf then
        .ok ((), p.modifyVar rs1 ({ · with addressTaken := true, isConst := false }))
      else .ok ((), p)
  | none => .ok ((), p)

/-- `add_insn(parent, *bb, ..)`. -/
def emit (insn : Insn) : Parse Unit := do
  let p ← get
  addInsn p.bb insn

/-- A new integer on the operand stack, which an instruction computes. -/
def pushTemp (ctx : Context) (insn : VarId → Insn) : Parse Unit := do
  let vd ← newTemp ctx
  opstackPush vd
  emit (insn vd)

/-- A new integer on the operand stack, which is loaded with a constant. -/
def pushConstant (ctx : Context) (value : Word) : Parse Unit := do
  let vd ← newConstant ctx value
  opstackPush vd
  emit { opcode := .loadConstant, rd := some vd }

end Shecc.Parser
