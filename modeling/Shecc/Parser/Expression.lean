import Shecc.Parser.Operand

/-!
# Reading an expression

Operands are combined on the operand stack by the priorities of the operators
between them. The logical operators end a block each and share the block that
skips the operands behind them.
-/

namespace Shecc.Parser

open Shecc.Preprocessor (Token TokenKind SourceLocation Cursor)

/-! ## Compound literals -/

/-- `compute_element_address`. -/
def computeElementAddress (ctx : Context) (baseAddr : VarId) (index : Nat) (elemSize : Int) :
    Parse VarId := do
  if index = 0 then pure baseAddr
  else do
    let offset ← newConstant ctx (BitVec.ofInt 32 (index * elemSize))
    emit { opcode := .loadConstant, rd := some offset }
    let addr ← newTemp ctx
    emit { opcode := .add, rd := some addr, rs1 := some baseAddr, rs2 := some offset }
    pure addr

/-- The loop of `parse_array_compound_literal`: the number of elements. -/
def parseArrayElements (self : Readers) (ctx : Context) (var : VarId) (type : Option TypeId)
    (elemSize : Int) : Nat → (count : Nat) → Parse Nat
  | 0, _ => .fail .outOfFuel
  | fuel + 1, count => do
      self.readWhole
      let value ← opstackPop
      let record ← varOf value
      if count = 0 then setVar var ({ · with initVal := record.initVal })
      let storeVal ← resizeVar ctx value { type := type }
      let elemAddr ← computeElementAddress ctx var count elemSize
      emit { opcode := .write, rs1 := some elemAddr, rs2 := some storeVal, sz := elemSize }
      if ← lexAccept .comma then
        if ← lexPeek .closeCurly then pure (count + 1)
        else parseArrayElements self ctx var type elemSize fuel (count + 1)
      else pure (count + 1)

/-- `parse_array_compound_literal`. -/
def parseArrayCompoundLiteral (self : Readers) (ctx : Context) (var : VarId) : Parse Unit := do
  let record ← varOf var
  let type ← ctx.typeOf record.type
  setVar var ({ · with arraySize := 0, initVal := 0 })
  let count ← if ← lexPeek .closeCurly then pure 0
    else parseArrayElements self ctx var record.type type.size self.fuel 0
  lexExpect .closeCurly
  setVar var ({ · with arraySize := count })

/-- The loop over the further values of a compound literal, which are dropped. -/
def dropFields (self : Readers) : Nat → Parse Unit
  | 0 => .fail .outOfFuel
  | fuel + 1 => do
      if ← lexAccept .comma then
        if ← lexPeek .closeCurly then pure ()
        else
          self.readWhole
          let _ ← opstackPop
          dropFields self fuel
      else pure ()

/-- The values of a pointer or structure literal: its variable gets that of the first. -/
def readFirstField (self : Readers) (compound : VarId) : Parse Unit := do
  if ← lexPeek .closeCurly then setVar compound ({ · with initVal := 0 })
  else
    self.readWhole
    let first ← opstackPop
    let record ← varOf first
    setVar compound ({ · with initVal := record.initVal })
    dropFields self self.fuel

/-- The loop over the further elements of a literal without brackets: the first 256 are kept. -/
def readElements (self : Readers) : Nat → List VarId → (count : Nat) → Parse (List VarId × Nat)
  | 0, _, _ => .fail .outOfFuel
  | fuel + 1, elements, count => do
      if ← lexAccept .comma then
        if ← lexPeek .closeCurly then pure (elements, count)
        else do
          self.readWhole
          let element ← opstackPop
          readElements self fuel (if count < 256 then elements ++ [element] else elements)
            (count + 1)
      else pure (elements, count)

/-- The loop that stores the elements of a literal without brackets. -/
def storeElements (ctx : Context) (compound : VarId) (size : Int) :
    (i : Nat) → List VarId → Parse Unit
  | _, [] => pure ()
  | i, element :: rest => do
      let elemOffset ← newConstant ctx (BitVec.ofInt 32 (i * size))
      emit { opcode := .loadConstant, rd := some elemOffset }
      let elemAddr ← newTemp ctx
      setVar elemAddr ({ · with ptrLevel := 1 })
      emit { opcode := .add, rd := some elemAddr, rs1 := some compound, rs2 := some elemOffset }
      emit { opcode := .write, rs1 := some elemAddr, rs2 := some element, sz := size }
      storeElements ctx compound size (i + 1) rest

/-- A literal of an integer type: one value, or several that are stored in an array. -/
def readScalarLiteral (self : Readers) (ctx : Context) (compound : VarId) (type : TypeRecord) :
    Parse Unit := do
  if ← lexPeek .closeCurly then
    setVar compound ({ · with initVal := 0, arraySize := 0 })
    opstackPush compound
    emit { opcode := .loadConstant, rd := some compound }
  else if ← lexPeekAny [.numeric, .identifier, .char] then
    self.readWhole
    if ← lexPeek .comma then
      let first ← opstackPop
      let (elements, count) ← readElements self self.fuel [first] 1
      let firstRecord ← varOf first
      setVar compound ({ · with arraySize := count, initVal := firstRecord.initVal })
      emit { opcode := .allocat, rd := some compound }
      storeElements ctx compound type.size 0 elements
      let result ← newTemp ctx
      let record ← varOf compound
      setVar result ({ · with type := record.type, ptrLevel := 0, arraySize := 0 })
      emit { opcode := .read, rd := some result, rs1 := some compound, sz := type.size }
      opstackPush result
    else
      let value ← opstackPop
      opstackPush value

/-- The compound literal behind a type name in brackets. -/
def readCompoundLiteral (self : Readers) (ctx : Context) (typeId : TypeId) (ptrLevel : Nat)
    (isArray : Bool) : Parse Unit := do
  lexExpect .openCurly
  let compound ← requireTypedVar ctx (some typeId)
  genNameTo compound
  setVar compound ({ · with isCompoundLiteral := true })
  let type ← ctx.typeOf (some typeId)
  if isArray then
    setVar compound ({ · with arraySize := 0 })
    emit { opcode := .allocat, rd := some compound }
    parseArrayCompoundLiteral self ctx compound
    let record ← varOf compound
    if record.arraySize = 0 then
      setVar compound ({ · with initVal := 0 })
      emit { opcode := .loadConstant, rd := some compound }
    opstackPush compound
  else
    if ptrLevel > 0 then
      setVar compound ({ · with ptrLevel := ptrLevel })
      readFirstField self compound
      opstackPush compound
      emit { opcode := .loadConstant, rd := some compound }
    else if type.baseType = .struct ∨ type.baseType = .typedef then
      setVar compound ({ · with initVal := 0, ptrLevel := 0 })
      readFirstField self compound
      opstackPush compound
      emit { opcode := .loadConstant, rd := some compound }
    else if type.baseType = .int ∨ type.baseType = .short ∨ type.baseType = .char then
      readScalarLiteral self ctx compound type
    lexExpect .closeCurly

/-- The loop of `parse_array_literal_expr` over the elements behind the first. -/
def countElements (self : Readers) : Nat → (count : Nat) → Parse Nat
  | 0, _ => .fail .outOfFuel
  | fuel + 1, count => do
      if ← lexAccept .comma then
        if ← lexPeek .closeCurly then pure count
        else do
          self.readWhole
          let _ ← opstackPop
          countElements self fuel (count + 1)
      else pure count

/-- `parse_array_literal_expr`. -/
def parseArrayLiteralExpr (self : Readers) (ctx : Context) : Parse Unit := do
  let arrayVar ← newTemp ctx
  setVar arrayVar ({ · with isCompoundLiteral := true })
  if ← lexPeek .closeCurly then
    lexExpect .closeCurly
    setVar arrayVar ({ · with arraySize := 0, type := some ctx.tyInt, initVal := 0 })
  else
    self.readWhole
    let first ← opstackPop
    let count ← countElements self self.fuel 1
    lexExpect .closeCurly
    let record ← varOf first
    setVar arrayVar ({ · with
      arraySize := count, type := record.type, initVal := record.initVal })
  opstackPush arrayVar
  emit { opcode := .loadConstant, rd := some arrayVar }

/-! ## Operands -/

/-- What an opening bracket begins. -/
inductive Bracketed
  | cast (type : TypeId) (ptrLevel : Nat)
  | literal (type : TypeId) (ptrLevel : Nat) (isArray : Bool)
  | expr

/-- The look ahead behind an opening bracket. -/
def lookAhead (self : Readers) (ctx : Context) : Parse Bracketed := do
  let (lookahead, isIdentifier) ← lexPeekInto ctx .identifier maxTypeLen
  match if isIdentifier then ctx.findType lookahead 1 else none with
  | none => pure .expr
  | some type => do
      let saved ← get
      lexExpect .identifier
      let ptrLevel ← countAsterisks self.fuel 0
      let isArray ← lexAccept .openSquare
      if isArray then
        if ← lexPeek .numeric then let _ ← lexIdent .numeric 10
        lexExpect .closeSquare
      if ← lexAccept .closeBracket then
        if ← lexPeek .openCurly then pure (.literal type ptrLevel isArray)
        else pure (.cast type ptrLevel)
      else
        modify fun p => p.move saved.cur
        pure .expr

/-- The operand behind an opening bracket. -/
def readBracket (self : Readers) (ctx : Context) : Parse Unit := do
  match ← lookAhead self ctx with
  | .cast type ptrLevel => do
      self.readExprOperand
      let exprVar ← opstackPop
      let castVar ← requireTypedPtrVar ctx (some type) ptrLevel
      genNameTo castVar
      let record ← ctx.typeOf (some type)
      emit { opcode := .cast, rd := some castVar, rs1 := some exprVar, sz := record.size }
      opstackPush castVar
  | .literal type ptrLevel isArray => readCompoundLiteral self ctx type ptrLevel isArray
  | .expr => do
      self.readWhole
      lexExpect .closeBracket

/-- The result of a call. -/
def pushResult (ctx : Context) (type : Option TypeId) (ptrLevel : Nat) : Parse Unit := do
  let vd ← requireTypedPtrVar ctx type ptrLevel
  genNameTo vd
  opstackPush vd
  emit { opcode := .funcRet, rd := some vd }

/-- A function: called, or named. -/
def readFunc (self : Readers) (ctx : Context) (token : String) (func : FuncRecord) :
    Parse Unit := do
  lexExpect .identifier
  if ← lexPeek .openBracket then
    readFuncCall self ctx func
    pushResult ctx func.returnDef.type func.returnDef.ptrLevel
  else
    let vd ← requireVar ctx
    setVar vd ({ · with isFunc := true, varName := token })
    opstackPush vd

/-- The operator before a name. -/
def readPrefixOp : Parse Opcode := do
  if ← lexAccept .increment then pure .add
  else if ← lexAccept .decrement then pure .sub
  else pure .generic

/-- A constant, a variable, a function or an array literal, as the token ahead says. -/
def readNamed (self : Readers) (ctx : Context) (token : String) (prefixOp : Opcode) :
    Parse Unit := do
  let p ← get
  match ctx.constants token with
  | some value => do
      let vd ← newConstant ctx value
      opstackPush vd
      lexExpect .identifier
      emit { opcode := .loadConstant, rd := some vd }
  | none =>
      match p.findVar ctx token with
      | some var => do
          let _ ← readLvalue self ctx (some var) true prefixOp
          if ← lexPeek .openBracket then
            readIndirectCall self ctx
            pushTemp ctx fun vd => { opcode := .funcRet, rd := some vd }
      | none =>
          match ctx.funcs token with
          | some func => readFunc self ctx token func
          | none => do
              if ← lexAccept .openCurly then parseArrayLiteralExpr self ctx
              else errorAtNext "Unrecognized expression token"

/-- The last branch of `read_expr_operand`, but for the sign. -/
def readName (self : Readers) (ctx : Context) : Parse Unit := do
  let prefixOp ← readPrefixOp
  let (token, _) ← lexPeekInto ctx .identifier maxIdLen
  readNamed self ctx token prefixOp

/-- Replace the operand by the value of a unary operator: a constant is folded. -/
def applyUnary (ctx : Context) (op : Opcode) (fold : Word → Word) : Parse Unit := do
  let rs1 ← opstackPop
  let record ← varOf rs1
  if record.isConst ∧ record.ptrLevel = 0 ∧ !record.isGlobal then
    let vd ← newTemp ctx
    setVar vd ({ · with isConst := true, initVal := fold record.initVal })
    opstackPush vd
    emit { opcode := .loadConstant, rd := some vd }
  else pushTemp ctx fun vd => { opcode := op, rd := some vd, rs1 := some rs1 }

/-- The kinds a unary minus may stand before. -/
def minusKinds : List TokenKind := [.numeric, .identifier, .openBracket]

/-- `read_expr_operand` behind the sign. -/
def readBehindSign (self : Readers) (ctx : Context) (isNeg : Bool) : Parse Unit := do
  if ← lexPeek .string then readLiteralParam ctx
  else if ← lexPeek .char then readCharParam ctx
  else if ← lexPeek .numeric then readNumericParam ctx isNeg
  else if ← lexAccept .logNot then
    self.readExprOperand
    applyUnary ctx .logNot fun value => Word.ofBool (!value.truth)
  else if ← lexAccept .bitNot then
    self.readExprOperand
    applyUnary ctx .bitNot fun value => ~~~value
  else if ← lexAccept .ampersand then handleAddressOfOperator self ctx
  else if ← lexAccept .asterisk then
    if ← lexPeek .asterisk then handleMultipleDereference self ctx
    else handleSingleDereference self ctx
  else if ← lexAccept .openBracket then readBracket self ctx
  else if ← lexAccept .sizeof then handleSizeofOperator self ctx
  else
    readName self ctx
    if isNeg then applyUnary ctx .negate fun value => -value

/-- `read_expr_operand`. -/
def readExprOperand (self : Readers) (ctx : Context) : Parse Unit := do
  let isNeg ← lexAccept .minus
  if isNeg then
    if !(← lexPeekAny minusKinds) then errorAtNext "Unexpected token after unary minus"
  readBehindSign self ctx isNeg

/-! ## Operators -/

/-- `get_operator_prio`. -/
def getOperatorPrio : Opcode → Nat
  | .ternary => 3
  | .logOr => 4
  | .logAnd => 5
  | .bitOr => 6
  | .bitXor => 7
  | .bitAnd => 8
  | .eq | .neq => 9
  | .lt | .leq | .gt | .geq => 10
  | .lshift | .rshift => 11
  | .add | .sub => 12
  | .mul | .div | .mod => 13
  | _ => 0

/-- The operators `get_operator` accepts, in its order. -/
def operatorKinds : List (TokenKind × Opcode) :=
  [(.plus, .add), (.minus, .sub), (.asterisk, .mul), (.divide, .div), (.mod, .mod),
    (.lshift, .lshift), (.rshift, .rshift), (.logAnd, .logAnd), (.logOr, .logOr), (.eq, .eq),
    (.noteq, .neq), (.lt, .lt), (.le, .leq), (.gt, .gt), (.ge, .geq), (.ampersand, .bitAnd),
    (.bitOr, .bitOr), (.bitXor, .bitXor)]

/-- `get_operator`. -/
def getOperator : Parse Opcode := fun p =>
  match p.peek.bind fun kind => operatorKinds.lookup kind with
  | some op => .ok (op, p.move p.behind)
  | none => .ok (if p.peek = some .question then .ternary else .generic, p.move p.ahead)

/-- `is_logical`. -/
def isLogical (op : Opcode) : Bool := op == .logAnd || op == .logOr

/-- `get_pointer_element_size`. -/
def getPointerElementSize (ctx : Context) (ptrVar : VarRecord) : Int :=
  match ptrVar.type.bind (ctx.types[·]?) with
  | none => ptrSize
  | some type =>
      if ptrVar.ptrLevel ≠ 0 then type.size
      else
        match type.baseType with
        | .char | .short | .int | .void => ctx.baseSize type
        | _ => if type.size ≠ 0 then type.size else ptrSize

/-- `is_pointer_operation`. -/
def isPointerOperation (ctx : Context) (op : Opcode) (rs1 rs2 : VarRecord) : Bool :=
  (op == .add || op == .sub) && (isPointerLikeValue ctx rs1 || isPointerLikeValue ctx rs2)

/-- The declaration of an operand, if it names one. -/
def Parsing.declaration (p : Parsing) (ctx : Context) (v : VarId) : VarRecord :=
  let record := p.var v
  if record.varName ≠ "" ∧ record.initVal = 0 then
    ((p.findVar ctx record.varName).map p.var).getD record
  else record

/-- The element size of a pointer difference. -/
def differenceSize (ctx : Context) (var : VarRecord) : Int :=
  match var.type.bind (ctx.types[·]?) with
  | none => ptrSize
  | some type =>
      if type.ptrLevel > 0 then
        match type.baseType with
        | .char => 1
        | .short => 2
        | .int => 4
        | _ => if type.size > 0 then type.size else ptrSize
      else if var.ptrLevel > 0 then
        match type.baseType with
        | .char | .void => 1
        | .short => 2
        | .int => 4
        | _ => type.size
      else ptrSize

/-- A difference of two pointers, in elements. -/
def subtractPointers (ctx : Context) (rs1 rs2 : VarId) (elementSize : Int) : Parse Unit := do
  let diff ← newTemp ctx
  emit { opcode := .sub, rd := some diff, rs1 := some rs1, rs2 := some rs2 }
  if elementSize > 1 then
    let sizeConst ← newConstant ctx (BitVec.ofInt 32 elementSize)
    emit { opcode := .loadConstant, rd := some sizeConst }
    let result ← newTemp ctx
    emit { opcode := .div, rd := some result, rs1 := some diff, rs2 := some sizeConst }
    opstackPush result
  else opstackPush diff

/-- A pointer and a number, which is scaled. -/
def addScaled (ctx : Context) (op : Opcode) (ptrVar intVar : VarId) : Parse Unit := do
  let pointer ← varOf ptrVar
  let elementSize := getPointerElementSize ctx pointer
  let rs2 ← if elementSize > 1 then do
      let sizeConst ← newConstant ctx (BitVec.ofInt 32 elementSize)
      emit { opcode := .loadConstant, rd := some sizeConst }
      let scaled ← newTemp ctx
      emit { opcode := .mul, rd := some scaled, rs1 := some intVar, rs2 := some sizeConst }
      pure scaled
    else pure intVar
  let vd ← newTemp ctx
  setVar vd ({ · with type := pointer.type, ptrLevel := pointer.ptrLevel })
  opstackPush vd
  emit { opcode := op, rd := some vd, rs1 := some ptrVar, rs2 := some rs2 }

/-- `handle_pointer_arithmetic`. -/
def handlePointerArithmetic (ctx : Context) (op : Opcode) (rs1 rs2 : VarId) : Parse Unit := do
  let p ← get
  let isPtr (v : VarId) : Bool :=
    isPointerLikeValue ctx (p.declaration ctx v) || isPointerLikeValue ctx (p.var v)
  if op = .sub ∧ isPtr rs1 ∧ isPtr rs2 then
    subtractPointers ctx rs1 rs2 (differenceSize ctx (p.declaration ctx rs1))
  else if isPointerLikeValue ctx (p.var rs1) then addScaled ctx op rs1 rs2
  else if isPointerLikeValue ctx (p.var rs2) ∧ op = .add then addScaled ctx op rs2 rs1
  else pushTemp ctx fun vd =>
    { opcode := op, rd := some vd, rs1 := some rs1, rs2 := some rs2 }

/-- One operator of `oper_stack`, applied because the next one does not bind stronger. -/
def applyOperator (ctx : Context) (op : Opcode) : Parse Unit := do
  let rs2 ← opstackPop
  let rs1 ← opstackPop
  let p ← get
  if isPointerOperation ctx op (p.var rs1) (p.var rs2) then
    handlePointerArithmetic ctx op rs1 rs2
  else pushTemp ctx fun vd =>
    { opcode := op, rd := some vd, rs1 := some rs1, rs2 := some rs2 }

/-- The `switch` of `read_expr` that folds: what it stores in `result`, if it folds. Where the
operation is not defined, the parser itself has no defined behaviour. -/
def foldBinary (op : Opcode) (l r : Word) : Except Stop (Option Word) :=
  match op with
  | .add | .sub | .mul | .bitAnd | .bitOr | .bitXor | .eq | .neq | .lt | .leq | .gt | .geq =>
      .ok (op.binary l r)
  | .div | .mod =>
      if r = 0 then .ok none
      else
        match op.binary l r with
        | some value => .ok (some value)
        | none => .error .arithmetic
  | .lshift | .rshift =>
      match op.binary l r with
      | some value => .ok (some value)
      | none => .error .arithmetic
  | _ => .ok none

/-- Whether the last loop of `read_expr` takes an operand for a constant. -/
def isFoldable (var : VarRecord) : Bool :=
  var.initVal != 0 && var.ptrLevel == 0 && !var.isGlobal

/-- The operands without array literals, where the other is no pointer. -/
def scalarizeOperands (ctx : Context) (rs1 rs2 : VarId) : Parse (VarId × VarId) := do
  let first ← varOf rs1
  let second ← varOf rs2
  if isArrayLiteralPlaceholder first && isArrayLiteralPlaceholder second then do
    let rs1 ← scalarizeArrayLiteral ctx rs1 none
    let rs2 ← scalarizeArrayLiteral ctx rs2 none
    pure (rs1, rs2)
  else do
    let rs1 ← if isArrayLiteralPlaceholder first && !isPointerLikeValue ctx second then
        scalarizeArrayLiteral ctx rs1 second.type
      else pure rs1
    let other ← varOf rs1
    let rs2 ← if isArrayLiteralPlaceholder second && !isPointerLikeValue ctx first then
        scalarizeArrayLiteral ctx rs2 other.type
      else pure rs2
    pure (rs1, rs2)

/-- One round of the last loop over `oper_stack` in `read_expr`. -/
def finishOperator (ctx : Context) (op : Opcode) : Parse Unit := do
  let rs2 ← opstackPop
  let rs1 ← opstackPop
  let first ← varOf rs1
  let second ← varOf rs2
  let pointerContext :=
    isPointerLikeValue ctx first && !isArrayLiteralPlaceholder first ||
      isPointerLikeValue ctx second && !isArrayLiteralPlaceholder second
  if pointerContext && isPointerOperation ctx op first second then
    handlePointerArithmetic ctx op rs1 rs2
  else do
    let (rs1, rs2) ← scalarizeOperands ctx rs1 rs2
    let first ← varOf rs1
    let second ← varOf rs2
    let folded ← if isFoldable first && isFoldable second then
        match foldBinary op first.initVal second.initVal with
        | .ok folded => pure folded
        | .error stop => .fail stop
      else pure none
    match folded with
    | some result => pushConstant ctx result
    | none => pushTemp ctx fun vd =>
        { opcode := op, rd := some vd, rs1 := some rs1, rs2 := some rs2 }

/-! ## Logical operators -/

/-- `read_logical`, for the operators it accepts. -/
def readLogical (op : Opcode) : Parse Unit := do
  let vd ← opstackPop
  emit { opcode := .branch, rs1 := some vd }
  let newBb ← bbCreate
  let p ← get
  bbConnect p.bb newBb (if op = .logAnd then .then_ else .else_)
  modify fun p => { p with bb := newBb }

/-- The connections `finalize_logical` makes: `other` is the block behind the last operand, which
the shared block is the other way of. -/
def connectLogical (op : Opcode) (bb sharedBb other end_ : BlockId) : Parse Unit :=
  if op = .logAnd then do
    bbConnect bb other .then_
    bbConnect bb sharedBb .else_
    bbConnect other end_ .next
    bbConnect sharedBb end_ .next
  else do
    bbConnect bb sharedBb .then_
    bbConnect bb other .else_
    bbConnect sharedBb end_ .next
    bbConnect other end_ .next

/-- A constant that a block of `finalize_logical` gives the result. -/
def loadTruth (ctx : Context) (bb : BlockId) (value : Bool) : Parse VarId := do
  let vd ← newConstant ctx (Word.ofBool value)
  addInsn bb { opcode := .loadConstant, rd := some vd }
  pure vd

/-- `finalize_logical`, for the operators it accepts. -/
def finalizeLogical (ctx : Context) (op : Opcode) (sharedBb : BlockId) : Parse Unit := do
  let bb := (← get).bb
  let end_ ← bbCreate
  let other ← bbCreate
  connectLogical op bb sharedBb other end_
  let last ← opstackPop
  addInsn bb { opcode := .branch, rs1 := some last }
  let vd ← loadTruth ctx other (op == .logAnd)
  let logOpRes ← newTemp ctx
  addInsn other { opcode := .assign, rd := some logOpRes, rs1 := some vd }
  let vd ← loadTruth ctx sharedBb (op != .logAnd)
  addInsn sharedBb { opcode := .assign, rd := some logOpRes, rs1 := some vd }
  setVar logOpRes ({ · with isLogicalRet := true })
  opstackPush logOpRes
  modify fun p => { p with bb := end_ }

/-- What `read_expr` knows between two operators; no logical operator is `OP_generic`. -/
structure Operators where
  operStack : List Opcode
  hasPrevLogOp : Bool
  prevLogOp : Opcode
  pprevLogOp : Opcode
  logAndSharedBb : BlockId
  logOrSharedBb : BlockId

namespace Operators

/-- The block the operands of a logical operator share. -/
def shared (s : Operators) (op : Opcode) : BlockId :=
  if op = .logAnd then s.logAndSharedBb else s.logOrSharedBb

end Operators

/-- A store into `oper_stack[oper_stack_idx++]`. -/
def pushOperator (op : Opcode) (s : Operators) : Parse Operators :=
  if s.operStack.length < maxOperStackSize then pure { s with operStack := op :: s.operStack }
  else .fail .outOfBounds

/-- The loop of `read_expr` that applies the operators the next one does not bind stronger
than. -/
def applyStronger (ctx : Context) (op : Opcode) : List Opcode → Parse (List Opcode)
  | [] => pure []
  | topOp :: rest =>
      if getOperatorPrio topOp ≥ getOperatorPrio op then do
        applyOperator ctx topOp
        applyStronger ctx op rest
      else pure (topOp :: rest)

/-- An operand of a logical operator is tested: the shared block is where it decides. -/
def testOperand (op : Opcode) (s : Operators) : Parse Unit := do
  let bb := (← get).bb
  bbConnect bb (s.shared op) (if op = .logAnd then .else_ else .then_)
  readLogical op

/-- A logical operator behind an operand of `read_expr`. -/
def readLogicalOperator (ctx : Context) (op : Opcode) (s : Operators) : Parse Operators := do
  if s.prevLogOp = .generic ∨ s.prevLogOp = op then
    testOperand op s
    pure { s with prevLogOp := op, hasPrevLogOp := true }
  else if s.prevLogOp = .logAnd then
    -- `a && b ||`: the conjunction is an operand of the disjunction
    finalizeLogical ctx .logAnd s.logAndSharedBb
    let logAndSharedBb ← bbCreate
    testOperand op s
    pure { s with logAndSharedBb := logAndSharedBb, prevLogOp := op, pprevLogOp := .generic }
  else
    -- `a || b &&`: the operand begins a conjunction
    testOperand op s
    pure { s with pprevLogOp := s.prevLogOp, prevLogOp := op }

/-- One round of a loop of `read_expr` that finalizes logical operators. -/
def finalizeOnce (ctx : Context) (s : Operators) : Parse Operators := do
  finalizeLogical ctx s.prevLogOp (s.shared s.prevLogOp)
  pure { s with
    prevLogOp := s.pprevLogOp
    hasPrevLogOp := s.pprevLogOp != .generic
    pprevLogOp := .generic }

/-- The loop of `read_expr` before an operator that binds weaker than the logical operators
before it. `pprev_log_op` is zero in the second round, so there is no third. -/
def finalizeStronger (ctx : Context) (op : Opcode) (s : Operators) : Parse Operators := do
  let weaker (s : Operators) : Bool :=
    s.hasPrevLogOp && getOperatorPrio op < getOperatorPrio s.prevLogOp
  let round (s : Operators) : Parse Operators := do
    let finalized ← finalizeOnce ctx s
    let fresh ← bbCreate
    if s.prevLogOp = .logAnd then pure { finalized with logAndSharedBb := fresh }
    else pure { finalized with logOrSharedBb := fresh }
  if weaker s then do
    let s ← round s
    if weaker s then round s else pure s
  else pure s

/-- The last loop of `read_expr`. -/
def finalizeAll (ctx : Context) (s : Operators) : Parse Unit := do
  if s.hasPrevLogOp then
    let s ← finalizeOnce ctx s
    if s.hasPrevLogOp then
      let _ ← finalizeOnce ctx s

/-- The last loop over `oper_stack` in `read_expr`. -/
def finishOperators (ctx : Context) : List Opcode → Parse Unit
  | [] => pure ()
  | topOp :: rest => do
      finishOperator ctx topOp
      finishOperators ctx rest

/-- The main loop of `read_expr`, behind an operand and the operator after it. -/
def readOperators (self : Readers) (ctx : Context) :
    Nat → Opcode → Operators → Parse Operators
  | 0, _, _ => .fail .outOfFuel
  | fuel + 1, op, s => do
      if op = .generic ∨ op = .ternary then pure s
      else
        let operStack ← applyStronger ctx op s.operStack
        let s := { s with operStack := operStack }
        let s ← if isLogical op then readLogicalOperator ctx op s else finalizeStronger ctx op s
        self.readExprOperand
        let s ← if isLogical op then pure s else pushOperator op s
        let op ← getOperator
        readOperators self ctx fuel op s

/-- `read_expr`. -/
def readExpr (self : Readers) (ctx : Context) : Parse Unit := do
  let logAndSharedBb ← bbCreate
  let logOrSharedBb ← bbCreate
  let s : Operators := {
    operStack := []
    hasPrevLogOp := false
    prevLogOp := .generic
    pprevLogOp := .generic
    logAndSharedBb := logAndSharedBb
    logOrSharedBb := logOrSharedBb }
  self.readExprOperand
  let op ← getOperator
  if op ≠ .generic ∧ op ≠ .ternary then
    let s ← if isLogical op then do
        testOperand op s
        pure { s with hasPrevLogOp := true, prevLogOp := op }
      else pushOperator op s
    self.readExprOperand
    let op ← getOperator
    let s ← readOperators self ctx self.fuel op s
    finishOperators ctx s.operStack
    finalizeAll ctx s

/-! ## Conditional expressions -/

/-- One side of a conditional expression: the block its expression ends in is connected to the
block of the condition. -/
def readSide (self : Readers) (bb side : BlockId) (type : Connection) : Parse BlockId := do
  modify fun p => { p with bb := side }
  self.readExpr
  let side := (← get).bb
  bbConnect bb side type
  pure side

/-- `scalarize_array_literal_if_needed` for one side of a conditional expression. -/
def scalarizeSide (ctx : Context) (side : BlockId) (val : VarId) (hintType : Option TypeId)
    (needsScalar : Bool) : Parse VarId := do
  modify fun p => { p with bb := side }
  if needsScalar then scalarizeArrayLiteral ctx val hintType else pure val

/-- The end of `read_ternary_operation`: both sides give the result its value. -/
def joinSides (ctx : Context) (then_ else_ : BlockId) (trueVal falseVal : VarId) :
    Parse Unit := do
  let trueRecord ← varOf trueVal
  let falseRecord ← varOf falseVal
  let trueVal ← scalarizeSide ctx then_ trueVal falseRecord.type
    (isArrayLiteralPlaceholder trueRecord && !isPointerLikeValue ctx falseRecord)
  let trueScalar ← varOf trueVal
  let falseVal ← scalarizeSide ctx else_ falseVal trueScalar.type
    (isArrayLiteralPlaceholder falseRecord && !isPointerLikeValue ctx trueRecord)
  let falseScalar ← varOf falseVal
  let vd ← newTemp ctx
  addInsn then_ { opcode := .assign, rd := some vd, rs1 := some trueVal }
  addInsn else_ { opcode := .assign, rd := some vd, rs1 := some falseVal }
  if isArrayLiteralPlaceholder trueScalar then
    setVar vd ({ · with
      arraySize := trueScalar.arraySize, initVal := trueScalar.initVal, type := trueScalar.type })
  else if isArrayLiteralPlaceholder falseScalar then
    setVar vd ({ · with
      arraySize := falseScalar.arraySize, initVal := falseScalar.initVal
      type := falseScalar.type })
  setVar vd ({ · with isTernaryRet := true })
  opstackPush vd

/-- `read_ternary_operation` behind the question mark. -/
def readConditional (self : Readers) (ctx : Context) : Parse Unit := do
  let bb := (← get).bb
  let vd ← opstackPop
  emit { opcode := .branch, rs1 := some vd }
  let then_ ← bbCreate
  let else_ ← bbCreate
  let endTernary ← bbCreate
  bbConnect then_ endTernary .next
  bbConnect else_ endTernary .next
  let then_ ← readSide self bb then_ .then_
  let colon ← lexAccept .colon
  if colon then
    let trueVal ← opstackPop
    let else_ ← readSide self bb else_ .else_
    let falseVal ← opstackPop
    joinSides ctx then_ else_ trueVal falseVal
    modify fun p => { p with bb := endTernary }
  else .fail .abort

/-- `read_ternary_operation`. -/
def readTernaryOperation (self : Readers) (ctx : Context) : Parse Unit := do
  if ← lexAccept .question then readConditional self ctx

/-! ## The readers together -/

/-- The readers, with a bound on the depth of the recursion and on the rounds of a loop. -/
def readers (ctx : Context) : Nat → Readers
  | 0 => {
      fuel := 0
      readExpr := .fail .outOfFuel
      readExprOperand := .fail .outOfFuel
      readTernaryOperation := .fail .outOfFuel }
  | fuel + 1 => {
      fuel := fuel
      readExpr := readExpr (readers ctx fuel) ctx
      readExprOperand := readExprOperand (readers ctx fuel) ctx
      readTernaryOperation := readTernaryOperation (readers ctx fuel) ctx }

end Shecc.Parser
