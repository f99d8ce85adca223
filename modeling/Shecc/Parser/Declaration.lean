import Shecc.Parser.Operand
import Shecc.Preprocessor.Expand

/-!
# Reading a declarator

A declarator has asterisks, a name and dimensions in brackets, or it declares a
pointer to a function, with the parameters behind it. Of an array the record
keeps the number of all elements and the second dimension.
-/

namespace Shecc.Parser

open Shecc.Preprocessor (Token TokenKind SourceLocation Cursor parseNumericConstant)

/-- `lex_next`. -/
def lexNext : Parse Unit := fun p => .ok ((), p.move p.behind)

/-- `parse_numeric_constant`, for a number an `int` holds. -/
def parseDimension (buffer : String) : Parse Nat :=
  let dim := (parseNumericConstant buffer).toNat
  if dim < 2 ^ 31 then pure dim else .fail .arithmetic

/-- What stands between two square brackets: a number, or nothing. -/
def readDimension (ctx : Context) : Parse (Option Nat) := do
  let (buffer, isNumeric) ← lexPeekInto ctx .numeric 10
  if isNumeric then do
    let dim ← parseDimension buffer
    lexExpect .numeric
    pure (some dim)
  else pure none

/-- A further dimension multiplies the number of elements. -/
def multiplyDimension (vd : VarId) (nextDim : Nat) : Parse Unit := do
  let record ← varOf vd
  if record.arraySize > 0 then
    if record.arraySize * nextDim < 2 ^ 31 then
      setVar vd ({ · with arraySize := record.arraySize * nextDim })
    else .fail .arithmetic
  else setVar vd ({ · with arraySize := nextDim })

/-- An array without size is regarded as a pointer. -/
def addPointerLevel (vd : VarId) : Parse Unit :=
  setVar vd fun record => { record with ptrLevel := record.ptrLevel + 1 }

/-- The loop over the dimensions behind the second. -/
def readFurtherDimensions (ctx : Context) (vd : VarId) : Nat → Parse Unit
  | 0 => .fail .outOfFuel
  | fuel + 1 => do
      if ← lexAccept .openSquare then
        match ← readDimension ctx with
        | some nextDim => multiplyDimension vd nextDim
        | none => addPointerLevel vd
        lexExpect .closeSquare
        readFurtherDimensions ctx vd fuel
      else pure ()

/-- The dimensions behind a name. -/
def readDimensions (ctx : Context) (vd : VarId) (fuel : Nat) : Parse Unit := do
  if ← lexAccept .openSquare then
    match ← readDimension ctx with
    | some size => setVar vd ({ · with arraySize := size })
    | none => addPointerLevel vd
    lexExpect .closeSquare
    if ← lexAccept .openSquare then
      match ← readDimension ctx with
      | some nextDim => do
          setVar vd ({ · with arrayDim2 := nextDim })
          multiplyDimension vd nextDim
      | none => addPointerLevel vd
      lexExpect .closeSquare
      readFurtherDimensions ctx vd fuel
  else setVar vd ({ · with arraySize := 0, arrayDim2 := 0 })

/-- The loop over `const` behind an asterisk. -/
def skipConst : Nat → Parse Unit
  | 0 => .fail .outOfFuel
  | fuel + 1 => do
      if ← lexPeek .const then
        let _ ← lexAccept .const
        skipConst fuel
      else pure ()

/-- The loop over the asterisks of a declarator. -/
def readAsterisks (vd : VarId) : Nat → Parse Unit
  | 0 => .fail .outOfFuel
  | fuel + 1 => do
      if ← lexAccept .asterisk then
        addPointerLevel vd
        skipConst fuel
        readAsterisks vd fuel
      else pure ()

/-- The name of a declarator; that of a global variable is pushed, as `opstack_push(vd)`. -/
def readDeclaredName (vd : VarId) (isParam : Bool) : Parse Unit := do
  let name ← lexIdent .identifier maxVarLen
  setVar vd ({ · with varName := name })
  let isFunc ← lexPeek .openBracket
  let record ← varOf vd
  if !isFunc && !isParam && record.isGlobal then opstackPush vd

/-- The beginning of `read_inner_var_decl`: whether a pointer to a function is declared. -/
def beginDeclarator (vd : VarId) (anon isParam : Bool) (fuel : Nat) : Parse Bool := do
  setVar vd ({ · with initVal := 0 })
  if isParam then setVar vd ({ · with ptrLevel := 0 })
  readAsterisks vd fuel
  if ← lexAccept .openBracket then pure true
  else
    if !anon then readDeclaredName vd isParam
    pure false

/-- `read_full_var_decl`, where `readInner` is `read_inner_var_decl`. -/
def readFullVarDecl (ctx : Context) (readInner : VarId → Bool → Bool → Parse Unit) (vd : VarId)
    (anon isParam : Bool) : Parse Unit := do
  let isStruct ← lexAccept .struct
  let isUnion ← if isStruct then pure false else lexAccept .union
  let typeName ← lexIdent .identifier maxTypeLen
  match ctx.findType typeName (if isStruct || isUnion then 2 else 1) with
  | none => .fail .abort
  | some type => do
      setVar vd ({ · with type := some type })
      readInner vd anon isParam

/-- `func->param_defs[vn]`. -/
def paramDef (func : List VarId) (vn : Nat) : Parse VarId :=
  match func[vn]? with
  | some param => pure param
  | none => .fail .outOfBounds

/-- The loop of `read_parameter_list_decl`: the number of parameters. -/
def readParamDefs (ctx : Context) (readInner : VarId → Bool → Bool → Parse Unit)
    (func : List VarId) (anon : Bool) : Nat → (vn : Nat) → Parse Nat
  | 0, _ => .fail .outOfFuel
  | fuel + 1, vn => do
      if ← lexPeekAny [.identifier, .const] then
        let _ ← lexAccept .const
        let param ← paramDef func vn
        readFullVarDecl ctx readInner param anon true
        let _ ← lexAccept .comma
        readParamDefs ctx readInner func anon fuel (vn + 1)
      else pure vn

/-- The rest of `read_parameter_list_decl` behind the parameters `vn` are read of. -/
def finishParameterList (ctx : Context) (readInner : VarId → Bool → Bool → Parse Unit)
    (func : List VarId) (anon : Bool) (fuel vn : Nat) : Parse (Option Nat × Bool) := do
  let numParams ← readParamDefs ctx readInner func anon fuel vn
  let vaArgs ← lexAccept .elipsis
  lexExpect .closeBracket
  pure (some numParams, vaArgs)

/-- `read_parameter_list_decl`: the number of parameters, unless it is left alone, and whether
further arguments may follow. -/
def readParameterListDecl (ctx : Context) (readInner : VarId → Bool → Bool → Parse Unit)
    (func : List VarId) (anon : Bool) (fuel : Nat) : Parse (Option Nat × Bool) := do
  lexExpect .openBracket
  let (token, isIdentifier) ← lexPeekInto ctx .identifier maxTypeLen
  if isIdentifier && "void".toList.isPrefixOf token.toList then
    lexNext
    if ← lexAccept .closeBracket then pure (none, false)
    else
      let param ← paramDef func 0
      -- `TY_void`, the first type of this name
      setVar param ({ · with type := ctx.findType "void" 1 })
      readInner param anon true
      let record ← varOf param
      if record.ptrLevel = 0 ∧ !record.isFunc ∧ record.arraySize = 0 then
        errorAtCur "'void' must be the only parameter and unnamed"
      else
        let _ ← lexAccept .comma
        finishParameterList ctx readInner func anon fuel 1
  else finishParameterList ctx readInner func anon fuel 0

/-- The parameters of `func_t func`; of what they hold before nothing is read. -/
def newParamDefs : Parse (List VarId) := fun p =>
  .ok ((List.range maxParams).map (p.vars.length + ·),
    { p with vars := p.vars ++ List.replicate maxParams {} })

/-- `read_inner_var_decl`. -/
def readInnerVarDecl (ctx : Context) : Nat → VarId → (anon isParam : Bool) → Parse Unit
  | 0, _, _, _ => .fail .outOfFuel
  | fuel + 1, vd, anon, isParam => do
      if ← beginDeclarator vd anon isParam fuel then
        lexExpect .asterisk
        let name ← lexIdent .identifier maxVarLen
        setVar vd ({ · with varName := name })
        lexExpect .closeBracket
        let func ← newParamDefs
        let _ ← readParameterListDecl ctx (readInnerVarDecl ctx fuel) func true fuel
        setVar vd ({ · with isFunc := true })
      else
        readDimensions ctx vd fuel
        setVar vd ({ · with isFunc := false })

/-! ## Sizes -/

/-- A product that an `int` holds. -/
def intProduct (size : Int) (count : Nat) : Parse Int :=
  if -2 ^ 31 ≤ size * count ∧ size * count < 2 ^ 31 then pure (size * count)
  else .fail .arithmetic

/-- `size_var`. -/
def sizeVar (ctx : Context) (var : VarRecord) : Parse Int := do
  let size ← if var.ptrLevel > 0 ∨ var.isFunc then pure ptrSize
    else do
      let type ← ctx.typeOf var.type
      if type.size = 0 then do
        let base ← ctx.typeOf type.baseStruct
        pure base.size
      else pure type.size
  if var.arraySize > 0 then intProduct size var.arraySize else pure size

/-- `align_size`. -/
def alignSize (i : Int) : Parse Int :=
  if i ≤ 4 then pure 4
  else if i + 3 < 2 ^ 31 then pure ((i + 3) / 4 * 4)
  else .fail .arithmetic

/-- What `OP_allocat` reserves for an array, behind the pointer to it. -/
def allocatedSize (ctx : Context) (var : VarRecord) : Parse Int := do
  let sz ← if var.ptrLevel ≠ 0 then pure ptrSize
    else do
      let type ← ctx.typeOf var.type
      pure type.size
  let size ← intProduct sz var.arraySize
  alignSize size

end Shecc.Parser
