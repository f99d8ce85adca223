import Shecc.Parser.Core

/-!
# Reading an operand

The readers of literals, names, calls, casts and compound literals. They call
the reader of expressions, which calls them: what they call is a parameter here,
together with the number of rounds a loop may take.
-/

namespace Shecc.Parser

open Shecc.Preprocessor (Token TokenKind SourceLocation Cursor maxTokenLen)
open Shecc.Lexer (isXDigit unescapeString)

/-- The readers that are called recursively. -/
structure Readers where
  fuel : Nat
  readExpr : Parse Unit
  readExprOperand : Parse Unit
  readTernaryOperation : Parse Unit

/-- `read_expr` and the conditional behind it. -/
def Readers.readWhole (self : Readers) : Parse Unit := do
  self.readExpr
  self.readTernaryOperation

/-- `lex_peek` for several kinds. -/
def lexPeekAny (kinds : List TokenKind) : Parse Bool := fun p =>
  .ok (kinds.any fun kind => p.peek == some kind, p.move p.ahead)

/-- Pop two operands and push what an instruction computes from them. -/
def binaryTemp (ctx : Context) (op : Opcode) : Parse Unit := do
  let rs2 ← opstackPop
  let rs1 ← opstackPop
  pushTemp ctx fun vd => { opcode := op, rd := some vd, rs1 := some rs1, rs2 := some rs2 }

/-- Pop an operand and push what an instruction computes from it. -/
def unaryTemp (ctx : Context) (op : Opcode) (sz : Int) : Parse Unit := do
  let rs1 ← opstackPop
  pushTemp ctx fun vd => { opcode := op, rd := some vd, rs1 := some rs1, sz := sz }

/-! ## Conversions -/

/-- The size of a built-in type. -/
def Context.sizeOf (ctx : Context) (type : TypeId) : Int :=
  (ctx.types[type]?).elim 0 (·.size)

/-- The size of what a typedef pointer points to. -/
def Context.baseSize (ctx : Context) (type : TypeRecord) : Int :=
  match type.baseType with
  | .char => ctx.sizeOf ctx.tyChar
  | .short => ctx.sizeOf ctx.tyShort
  | .int => ctx.sizeOf ctx.tyInt
  | .void => 1
  | _ => type.size

/-- `promote_unchecked`. -/
def promoteUnchecked (ctx : Context) (var : VarId) (targetType : Option TypeId)
    (targetPtr : Nat) : Parse VarId := do
  let rd ← requireTypedPtrVar ctx targetType targetPtr
  genNameTo rd
  let record ← varOf var
  let source ← ctx.typeOf record.type
  let target ← ctx.typeOf targetType
  let size := if targetPtr ≠ 0 then ptrSize else target.size
  let encodedSize := ((BitVec.ofInt 32 source.size <<< 16) ||| BitVec.ofInt 32 size).toInt
  emit { opcode := .signExt, rd := some rd, rs1 := some var, sz := encodedSize }
  pure rd

/-- `promote`, but for the warning it may print. -/
def promote (ctx : Context) (var : VarId) (targetType : Option TypeId) (targetPtr : Nat) :
    Parse VarId := do
  let record ← varOf var
  let source ← ctx.typeOf record.type
  let target ← ctx.typeOf targetType
  if source.size = target.size ∨ record.ptrLevel ≠ 0 ∨ record.arraySize ≠ 0 then pure var
  else if source.size > ctx.sizeOf ctx.tyInt then pure var
  else promoteUnchecked ctx var targetType targetPtr

/-- `truncate_unchecked`. -/
def truncateUnchecked (ctx : Context) (var : VarId) (targetType : Option TypeId)
    (targetPtr : Nat) : Parse VarId := do
  let rd ← requireTypedPtrVar ctx targetType targetPtr
  genNameTo rd
  let target ← ctx.typeOf targetType
  emit { opcode := .trunc, rd := some rd, rs1 := some var,
         sz := if targetPtr ≠ 0 then ptrSize else target.size }
  pure rd

/-- `resize_var`. -/
def resizeVar (ctx : Context) (var : VarId) (target : VarRecord) : Parse VarId := do
  let source ← varOf var
  let isFromPtr := source.ptrLevel != 0 || source.arraySize != 0
  let isToPtr := target.ptrLevel != 0 || target.arraySize != 0 || isTypedefPointer ctx target
  if isFromPtr && isToPtr then pure var
  else do
    let fromSize ← getSize ctx source
    let toSize ← getSize ctx target
    if fromSize > toSize then truncateUnchecked ctx var target.type target.ptrLevel
    else if fromSize < toSize then promoteUnchecked ctx var target.type target.ptrLevel
    else pure var

/-- `scalarize_array_literal`. -/
def scalarizeArrayLiteral (ctx : Context) (var : VarId) (hintType : Option TypeId) :
    Parse VarId := do
  let record ← varOf var
  if !isArrayLiteralPlaceholder record then pure var
  else do
    let literalType := record.type.getD ctx.tyInt
    let literal ← ctx.typeOf (some literalType)
    let literalSize := if literal.size ≤ 0 then ctx.sizeOf ctx.tyInt else literal.size
    let scalar ← requireTypedVar ctx (some (hintType.getD literalType))
    genNameTo scalar
    setVar scalar ({ · with initVal := record.initVal })
    emit { opcode := .read, rd := some scalar, rs1 := some var, sz := literalSize }
    pure scalar

/-! ## Constants -/

/-- `(char) (c - '0')` as an `int`. -/
def charDigit (c : Char) : Word := (BitVec.ofNat 8 c.toNat - 48).signExtend 32

/-- `c` as a `char` and then as an `int`. -/
def charValue (c : Char) : Word := (BitVec.ofNat 8 c.toNat).signExtend 32

/-- The value of a hexadecimal digit, if it is one. -/
def hexDigit (c : Char) : Option Word :=
  if c.isDigit then some (charDigit c)
  else
    let lower := c.toNat ||| 32
    if 97 ≤ lower ∧ lower ≤ 102 then some (BitVec.ofNat 32 (lower - 97) + 10) else none

/-- A loop over digits, which stops behind the first that none that may go on follows. -/
def readDigits (base : Word) (digit : Char → Option Word) (more : Char → Bool) :
    Word → List Char → Option Word
  | _, [] => none
  | value, c :: rest =>
      match digit c with
      | none => none
      | some d =>
          match rest with
          | [] => some (value * base + d)
          | next :: _ =>
              if more next then readDigits base digit more (value * base + d) rest
              else some (value * base + d)

/-- The number a token writes, without its sign, or the message about it. -/
def numericValue (token : List Char) : Except String Word :=
  let orElse (msg : String) (value : Option Word) : Except String Word :=
    match value with
    | some value => .ok value
    | none => .error msg
  let octal := orElse "Invalid numeric constant" (readDigits 8
    (fun c => if c.toNat > 55 then none else some (charDigit c)) (·.isDigit) 0 token)
  match token with
  | '0' :: mark :: digits =>
      if mark.toNat ||| 32 = 120 then
        orElse "Invalid numeric constant" (readDigits 16 hexDigit isXDigit 0 digits)
      else if mark.toNat ||| 32 = 98 then
        orElse "Invalid binary constant" (readDigits 2
          (fun c => if c = '0' ∨ c = '1' then some (charDigit c) else none)
          (fun c => c == '0' || c == '1') 0 digits)
      else octal
  | '0' :: [] => octal
  | '-' :: digits =>
      orElse "" (readDigits 10 (fun c => some (charDigit c)) (·.isDigit) 0 digits)
  | _ => orElse "" (readDigits 10 (fun c => some (charDigit c)) (·.isDigit) 0 token)

/-- `read_numeric_param`. -/
def readNumericParam (ctx : Context) (isNeg : Bool) : Parse Unit := do
  let token ← lexIdent .numeric maxIdLen
  let isNeg := if token.toList.head? = some '-' then !isNeg else isNeg
  match numericValue token.toList with
  -- a sign or nothing but the NUL: the loop reads behind it
  | .error "" => .fail .outOfBounds
  | .error msg => errorAtCur msg
  | .ok value => pushConstant ctx (if isNeg then -value else value)

/-- `read_char_param`. -/
def readCharParam (ctx : Context) : Parse Unit := do
  let literal ← lexIdent .char maxTokenLen
  match unescapeString literal.toList maxTokenLen with
  | .error _ | .ok ([], _) => .fail .outOfBounds
  | .ok (ch :: _, _) => do
      let vd ← requireTypedVar ctx (some ctx.tyChar)
      genNameTo vd
      setVar vd ({ · with initVal := charValue ch })
      opstackPush vd
      emit { opcode := .loadConstant, rd := some vd }

/-- The rest of `read_literal_param` behind `write_symbol`. -/
def pushLiteral (ctx : Context) (index : Nat) : Parse Unit := do
  let vd ← requireTypedPtrVar ctx (some ctx.tyChar) 1
  genNameTo vd
  setVar vd ({ · with initVal := BitVec.ofNat 32 index })
  opstackPush vd
  emit { opcode := .loadRodataAddress, rd := some vd }

/-- `read_literal_param`. -/
def readLiteralParam (ctx : Context) : Parse Unit := fun p =>
  match Lexer.readLiteralParam p.cur p.rodata with
  | .error (.errorAt msg location) => .error (.errorAt msg location)
  | .error _ => .error .outOfBounds
  | .ok ((index, rodata), cur) => pushLiteral ctx index { p with cur := cur, rodata := rodata }

/-! ## Calls -/

/-- The conversion of an argument to its parameter. -/
def convertParam (ctx : Context) (func : FuncRecord) (paramNum : Nat) (param : VarId) :
    Parse VarId := do
  let param ← match func.paramDefs[paramNum]? with
    | some target =>
        if target.ptrLevel = 0 ∧ target.arraySize = 0 then
          scalarizeArrayLiteral ctx param target.type
        else pure param
    | none => pure param
  if paramNum ≥ func.paramDefs.length ∧ func.vaArgs then do
    let record ← varOf param
    if isPointerLikeValue ctx record then pure param
    else promote ctx param (some ctx.tyInt) 0
  else if paramNum < maxParams then
    -- behind the declared parameters the array holds zeros
    resizeVar ctx param (func.paramDefs.getD paramNum {})
  else .fail .outOfBounds

/-- The loop of `read_func_parameters` over the arguments. -/
def readParams (self : Readers) (ctx : Context) (func : Option FuncRecord) :
    Nat → List VarId → Parse (List VarId)
  | 0, _ => .fail .outOfFuel
  | fuel + 1, params => do
      if ← lexAccept .closeBracket then pure params
      else do
        self.readWhole
        let param ← opstackPop
        let param ← match func with
          | some func => convertParam ctx func params.length param
          | none => pure param
        if params.length < maxParams then do
          let _ ← lexAccept .comma
          readParams self ctx func fuel (params ++ [param])
        else .fail .outOfBounds

/-- The loop of `read_func_parameters` that pushes the arguments. -/
def pushParams : List VarId → Parse Unit
  | [] => pure ()
  | param :: rest => do
      emit { opcode := .push, rs1 := some param, sz := rest.length + 1 }
      pushParams rest

/-- `read_func_parameters`. -/
def readFuncParameters (self : Readers) (ctx : Context) (func : Option FuncRecord) :
    Parse Unit := do
  lexExpect .openBracket
  let params ← readParams self ctx func self.fuel []
  pushParams params

/-- `read_func_call`. -/
def readFuncCall (self : Readers) (ctx : Context) (func : FuncRecord) : Parse Unit := do
  readFuncParameters self ctx (some func)
  emit { opcode := .call, str := func.returnDef.varName }

/-- `read_indirect_call`. -/
def readIndirectCall (self : Readers) (ctx : Context) : Parse Unit := do
  readFuncParameters self ctx none
  let rs1 ← opstackPop
  emit { opcode := .indirect, rs1 := some rs1 }

/-! ## Names -/

/-- `lvalue_t`. -/
structure Lvalue where
  type : Option TypeId
  size : Int
  ptrLevel : Nat
  isFunc : Bool
  isReference : Bool

/-- What `read_lvalue` knows between two suffixes. -/
structure Suffix where
  lvalue : Lvalue
  var : VarRecord
  isAddressGot : Bool
  isMember : Bool

/-- The size of an element, as `[` changes it. -/
def elementSize (ctx : Context) (s : Suffix) : Parse Int :=
  if (s.var.ptrLevel ≤ 1 ∨ isTypedefPointer ctx s.var) ∧ s.var.arraySize = 0 then do
    let type ← ctx.typeOf s.lvalue.type
    pure (if type.ptrLevel > 0 then ctx.baseSize type else type.size)
  else pure s.lvalue.size

/-- `[` and its index in `read_lvalue`. -/
def readSubscript (self : Readers) (ctx : Context) (s : Suffix) : Parse Suffix := do
  if s.lvalue.isReference ∧ s.lvalue.ptrLevel ≠ 0 ∧ s.isMember then unaryTemp ctx .read 4
  if s.var.ptrLevel = 0 ∧ s.var.arraySize = 0 ∧ !isTypedefPointer ctx s.var then
    errorAtCur "Cannot apply square operator to non-pointer"
  let size ← elementSize ctx s
  self.readExpr
  let multiplier :=
    if !s.isAddressGot ∧ s.var.arrayDim2 > 0 then s.var.arrayDim2 * size else size
  if multiplier ≠ 1 then
    pushConstant ctx (BitVec.ofInt 32 multiplier)
    binaryTemp ctx .mul
  binaryTemp ctx .add
  lexExpect .closeSquare
  pure { s with
    lvalue := { s.lvalue with size := size, isReference := true }
    isAddressGot := true
    isMember := true }

/-- `->` or `.` and the name behind it in `read_lvalue`. -/
def readMember (ctx : Context) (s : Suffix) : Parse Suffix := do
  if ← lexAccept .arrow then
    if s.isMember then unaryTemp ctx .read 4
  else
    lexExpect .dot
    if !s.isAddressGot then unaryTemp ctx .addressOf 0
  let token ← lexIdent .identifier maxIdLen
  let found ← findMember ctx token s.lvalue.type
  let var ← Parse.deref found
  let size ← getSize ctx var
  pushConstant ctx (BitVec.ofInt 32 var.offset)
  binaryTemp ctx .add
  pure {
    lvalue := {
      type := var.type
      size := size
      ptrLevel := var.ptrLevel
      isFunc := var.isFunc
      -- of an array the address of the first element is meant
      isReference := s.lvalue.isReference && var.arraySize == 0 }
    var := var
    isAddressGot := true
    isMember := true }

/-- The loop of `read_lvalue` over the suffixes. -/
def readSuffixes (self : Readers) (ctx : Context) : Nat → Suffix → Parse Suffix
  | 0, _ => .fail .outOfFuel
  | fuel + 1, s => do
      if ← lexPeekAny [.openSquare, .arrow, .dot] then do
        let s ← if ← lexAccept .openSquare then readSubscript self ctx s else readMember ctx s
        readSuffixes self ctx fuel s
      else pure s

/-- The loop of `read_lvalue` over what is added to a pointer. -/
def readPointerSum (self : Readers) (ctx : Context) (s : Suffix) : Nat → Parse Unit
  | 0 => .fail .outOfFuel
  | fuel + 1 => do
      if ← lexPeek .plus then do
        lexExpect .plus
        self.readExprOperand
        let type ← ctx.typeOf s.lvalue.type
        if type.size > 1 then
          pushConstant ctx (BitVec.ofInt 32 type.size)
          binaryTemp ctx .mul
        binaryTemp ctx .add
        readPointerSum self ctx s fuel
      else pure ()

/-- `++` or `--` before a name in `read_lvalue`. -/
def applyPrefixOp (ctx : Context) (lvalue : Lvalue) (prefixOp : Opcode) : Parse Unit := do
  let step ← if lvalue.ptrLevel ≠ 0 then do
      let type ← ctx.typeOf lvalue.type
      pure type.size
    else pure 1
  pushConstant ctx (BitVec.ofInt 32 step)
  let rs2 ← opstackPop
  let rs1 ← if lvalue.isReference then opstackPop else opstackTop
  let vd ← newTemp ctx
  emit { opcode := prefixOp, rd := some vd, rs1 := some rs1, rs2 := some rs2 }
  if lvalue.isReference then
    let address ← opstackPop
    emit { opcode := .write, rs1 := some address, rs2 := some vd, sz := lvalue.size }
    opstackPush vd
  else
    let var ← opstackTop
    emit { opcode := .assign, rd := some var, rs1 := some vd }

/-- A store into `side_effect[se_idx++]`. -/
def queueSideEffect (insn : Insn) : Parse Unit := fun p =>
  if p.sideEffect.length < maxSideEffect then
    .ok ((), { p with sideEffect := p.sideEffect ++ [insn] })
  else .error .outOfBounds

/-- What a postfix operator adds. -/
def incrementSize (ctx : Context) (lvalue : Lvalue) : Parse Int := do
  if lvalue.isReference then pure 1
  else if lvalue.ptrLevel ≠ 0 then do
    let type ← ctx.typeOf lvalue.type
    pure type.size
  else
    match lvalue.type.bind (ctx.types[·]?) with
    | some type => pure (if type.ptrLevel > 0 then ctx.baseSize type else 1)
    | none => pure 1

/-- `++` or `--` behind a name in `read_lvalue`: only the first is consumed. -/
def queuePostfixOp (ctx : Context) (lvalue : Lvalue) : Parse Unit := do
  let step ← incrementSize ctx lvalue
  let amount ← newConstant ctx (BitVec.ofInt 32 step)
  queueSideEffect { opcode := .loadConstant, rd := some amount }
  let op := if ← lexAccept .increment then Opcode.add else Opcode.sub
  let rs1 ← if lvalue.isReference then opstackPop else opstackTop
  let vd ← newTemp ctx
  queueSideEffect { opcode := op, rd := some vd, rs1 := some rs1, rs2 := some amount }
  if lvalue.isReference then
    let address ← opstackPop
    queueSideEffect
      { opcode := .write, rs1 := some address, rs2 := some vd, sz := lvalue.size }
    opstackPush rs1
  else
    let var ← opstackTop
    queueSideEffect { opcode := .assign, rd := some var, rs1 := some vd }

/-- The end of `read_lvalue`, which evaluates what was read. -/
def readValue (self : Readers) (ctx : Context) (s : Suffix) (prefixOp : Opcode) :
    Parse Unit := do
  let plus ← lexPeek .plus
  if plus ∧ (s.var.ptrLevel ≠ 0 ∨ s.var.arraySize ≠ 0) ∧ !s.lvalue.isReference then
    readPointerSum self ctx s self.fuel
  else
    if s.lvalue.isReference then
      let rs1 ← opstackTop
      pushTemp ctx fun t =>
        { opcode := .read, rd := some t, rs1 := some rs1, sz := s.lvalue.size }
    if prefixOp ≠ .generic then applyPrefixOp ctx s.lvalue prefixOp
    else if ← lexPeekAny [.increment, .decrement] then queuePostfixOp ctx s.lvalue
    else if s.lvalue.isReference then
      let t ← opstackPop
      let _ ← opstackPop
      opstackPush t

/-- `read_lvalue`; the variable may not have been found. -/
def readLvalue (self : Readers) (ctx : Context) (found : Option VarId) (eval : Bool)
    (prefixOp : Opcode) : Parse Lvalue := do
  lexExpect .identifier
  let var ← Parse.deref found
  let record ← varOf var
  let size ← getSize ctx record
  opstackPush var
  let isReference ← lexPeekAny [.openSquare, .arrow, .dot]
  let s ← readSuffixes self ctx self.fuel {
    lvalue := {
      type := record.type
      size := size
      ptrLevel := record.ptrLevel
      isFunc := record.isFunc
      isReference := isReference }
    var := record
    isAddressGot := false
    isMember := false }
  if eval then readValue self ctx s prefixOp
  pure s.lvalue

/-! ## Addresses and dereferences -/

/-- `find_var` of the identifier ahead. -/
def peekVar (ctx : Context) (size : Nat) : Parse (Option VarId) := do
  let (token, _) ← lexPeekInto ctx .identifier size
  let p ← get
  pure (p.findVar ctx token)

/-- `handle_address_of_operator`. -/
def handleAddressOfOperator (self : Readers) (ctx : Context) : Parse Unit := do
  let var ← peekVar ctx maxVarLen
  let lvalue ← readLvalue self ctx var false .generic
  if !lvalue.isReference then
    let rs1 ← opstackPop
    let vd ← requireRefVar ctx lvalue.type lvalue.ptrLevel
    genNameTo vd
    opstackPush vd
    emit { opcode := .addressOf, rd := some vd, rs1 := some rs1 }

/-- One dereference of the value of an expression in brackets. -/
def dereferenceValue (ctx : Context) : Parse Unit := do
  let rs1 ← opstackPop
  let record ← varOf rs1
  let derefType := record.type.getD ctx.tyInt
  let derefPtr := record.ptrLevel - 1
  let vd ← requireDerefVar ctx (some derefType) derefPtr
  let type ← ctx.typeOf (some derefType)
  genNameTo vd
  opstackPush vd
  emit { opcode := .read, rd := some vd, rs1 := some rs1,
         sz := if derefPtr > 0 then ptrSize else type.size }

/-- Dereference number `i` of `count` of a variable: the record the type of the result is taken
from and the pointer level given to it. -/
def dereferenceVar (ctx : Context) (lvalue : Lvalue) (type : Option TypeId) (ptrLevel i : Nat)
    (last : Bool) : Parse Unit := do
  let rs1 ← opstackPop
  let vd ← requireDerefVar ctx type ptrLevel
  let size ← if lvalue.ptrLevel > i + 1 then pure ptrSize
    else do
      let pointed ← ctx.typeOf lvalue.type
      pure (if pointed.ptrLevel > 0 ∧ last then ctx.baseSize pointed else pointed.size)
  genNameTo vd
  opstackPush vd
  emit { opcode := .read, rd := some vd, rs1 := some rs1, sz := size }

/-- An expression in brackets behind `*`. -/
def readBracketed (self : Readers) : Parse Unit := do
  lexExpect .openBracket
  self.readExpr
  lexExpect .closeBracket

/-- `handle_single_dereference`. -/
def handleSingleDereference (self : Readers) (ctx : Context) : Parse Unit := do
  if ← lexPeek .openBracket then
    readBracketed self
    dereferenceValue ctx
  else
    let found ← peekVar ctx maxVarLen
    let lvalue ← readLvalue self ctx found true .generic
    let var ← Parse.deref found
    let record ← varOf var
    dereferenceVar ctx lvalue record.type record.ptrLevel 0 true

/-- The loop that counts asterisks. -/
def countAsterisks : Nat → Nat → Parse Nat
  | 0, _ => .fail .outOfFuel
  | fuel + 1, count => do
      if ← lexAccept .asterisk then countAsterisks fuel (count + 1) else pure count

/-- `for (int i = 0; i < count; i++)`. -/
def repeatFrom (i : Nat) : (count : Nat) → (Nat → Parse Unit) → Parse Unit
  | 0, _ => pure ()
  | count + 1, body => do
      body i
      repeatFrom (i + 1) count body

/-- `handle_multiple_dereference`. -/
def handleMultipleDereference (self : Readers) (ctx : Context) : Parse Unit := do
  let derefCount ← countAsterisks self.fuel 1
  if ← lexPeek .openBracket then
    readBracketed self
    repeatFrom 0 derefCount fun _ => dereferenceValue ctx
  else
    let found ← peekVar ctx maxVarLen
    let lvalue ← readLvalue self ctx found true .generic
    let var ← Parse.deref found
    let record ← varOf var
    repeatFrom 0 derefCount fun i =>
      dereferenceVar ctx lvalue record.type (lvalue.ptrLevel - i - 1) i (i + 1 == derefCount)

/-! ## `sizeof` -/

/-- The type named ahead in `sizeof`, and its pointer level. -/
def readSizeofType (self : Readers) (ctx : Context) : Parse (Option (TypeId × Nat)) := do
  let isStruct ← lexAccept .struct
  let isUnion ← if isStruct then pure false else lexAccept .union
  let (token, isIdentifier) ← lexPeekInto ctx .identifier maxTypeLen
  match if isIdentifier then ctx.findType token (if isStruct || isUnion then 2 else 1)
    else none with
  | some type => do
      lexExpect .identifier
      let count ← countAsterisks self.fuel 0
      pure (some (type, count))
  | none => pure none

/-- `handle_sizeof_operator`. -/
def handleSizeofOperator (self : Readers) (ctx : Context) : Parse Unit := do
  let start ← get
  lexExpect .openBracket
  let (type, ptrCnt) ← match ← readSizeofType self ctx with
    | some (type, ptrCnt) => pure (some type, ptrCnt)
    | none => do
        self.readWhole
        let exprVar ← opstackPop
        let record ← varOf exprVar
        pure (record.type, record.ptrLevel)
  if type.isNone then errorAt "Unable to determine type in sizeof" start.cur.tk.location
  let record ← ctx.typeOf type
  let vd ← newConstant ctx (BitVec.ofInt 32 (if ptrCnt ≠ 0 then ptrSize else record.size))
  opstackPush vd
  lexExpect .closeBracket
  emit { opcode := .loadConstant, rd := some vd }

end Shecc.Parser
