import Shecc.Ir.Arithmetic
import Shecc.Preprocessor.Arguments

/-!
# Expansion of a token list

`pp_preprocess_internal` on the heap: it walks over a list, appends copies of its
tokens and the results of the calls it makes to a list of its own, and returns that
list and its end. The directives read their lines from the same list.
-/

namespace Shecc.Preprocessor

open LinkedList

/-! ## Lexing -/

/-- A loop that only reads and walks along a list passes every cell at most once. -/
def walk {α : Type} (loop : Nat → Run α) : Run α := fun w => loop (w.heap.size + 1) w

/-- The loop of `pp_lex_skip_space`. -/
def skipSpace : Nat → Ptr → Run Ptr
  | 0, _ => Run.fail .outOfFuel
  | fuel + 1, tk => do
      let whitespace ← peekToken tk .whitespace
      let tab ← peekToken tk .tab
      if whitespace || tab then do
        let tk ← readNext tk
        skipSpace fuel tk
      else pure tk

/-- `pp_lex_skip_space`. -/
def ppLexSkipSpace (tk : Ptr) : Run Ptr := walk fun fuel => skipSpace fuel tk

/-- The token the lexing functions look behind. -/
def position (tk : Ptr) (skip : Bool) : Run Ptr := if skip then ppLexSkipSpace tk else pure tk

/-- `pp_lex_next_token`. -/
def ppLexNextToken (tk : Ptr) (skip : Bool) : Run Ptr := do
  let tk ← position tk skip
  readNext tk

/-- `pp_lex_peek_token`. -/
def ppLexPeekToken (tk : Ptr) (kind : TokenKind) (skip : Bool) : Run Bool := do
  let tk ← position tk skip
  peekToken tk kind

/-- `error_at` with the location of a token. -/
def errorAt {α : Type} (msg : String) (tk : Ptr) : Run α := do
  let token ← readToken tk
  Run.fail (.errorAt msg token.location)

/-- `pp_lex_expect_token`. -/
def ppLexExpectToken (tk : Ptr) (kind : TokenKind) (skip : Bool) : Run Ptr := do
  let tk ← position tk skip
  let next ← readNext tk
  if next = .null then errorAt "Expect token after this token" tk
  else do
    let token ← readToken next
    if token.kind = kind then pure next else errorAt "Unexpected token kind" next

/-! ## The tables -/

/-- `hashmap_get(MACROS, name)`. -/
def getMacro (name : String) : Run (Option Macro) := fun w => .ok (w.macros name, w)

/-- `macro->replacement`. -/
def getReplacement (name : String) : Run Ptr := fun w => .ok (w.replacements name, w)

/-- `is_macro_defined`. -/
def isMacroDefined (name : String) : Run Bool := fun w => .ok ((w.macros.inText name).isSome, w)

/-- A change of `MACROS`. -/
def setMacros (change : Macros → Macros) : Run Unit := fun w =>
  .ok ((), { w with macros := change w.macros })

/-- `macro->replacement = r_head`. -/
def setReplacement (name : String) (head : Ptr) : Run Unit := fun w =>
  .ok ((), { w with replacements := Function.update w.replacements name head })

/-- `hashmap_contains(PRAGMA_ONCE, path)`. -/
def isPragmaOnce (path : String) : Run Bool := fun w => .ok (w.pragmaOnce path, w)

/-- `hashmap_put(PRAGMA_ONCE, path, NULL)`. -/
def setPragmaOnce (path : String) : Run Unit := fun w =>
  .ok ((), { w with pragmaOnce := Function.update w.pragmaOnce path true })

/-- `hashmap_get(TOKEN_CACHE, filename)`. -/
def getTokenCache (filename : String) : Run (Option Ptr) := fun w =>
  .ok (w.tokenCache filename, w)

/-- `hashmap_put(TOKEN_CACHE, filename, tks)`. -/
def setTokenCache (filename : String) (head : Ptr) : Run Unit := fun w =>
  .ok ((), { w with tokenCache := Function.update w.tokenCache filename (some head) })

/-- A computation that does not touch the memory. -/
def Run.lift {α : Type} (result : Except Failure α) : Run α := fun w =>
  result.map fun value => (value, w)

/-! ## Constant expressions -/

/-- `pp_get_operator_prio`. -/
def ppGetOperatorPrio : Opcode → Nat
  | .ternary => 3
  | .logOr => 4
  | .logAnd => 5
  | .bitOr => 6
  | .bitXor => 7
  | .bitAnd => 8
  | .eq | .neq => 9
  | .lt | .leq | .gt | .geq => 10
  | .add | .sub => 12
  | .mul | .div | .mod => 13
  | _ => 0

/-- `pp_get_unary_operator_prio`. -/
def ppGetUnaryOperatorPrio : Opcode → Nat
  | .add | .sub | .bitNot | .logNot => 14
  | _ => 0

/-- The operator of a token, or none for what may be an operand. -/
def TokenKind.operator : TokenKind → Option Opcode
  | .plus => some .add
  | .minus => some .sub
  | .asterisk => some .mul
  | .divide => some .div
  | .mod => some .mod
  | .lshift => some .lshift
  | .rshift => some .rshift
  | .logAnd => some .logAnd
  | .logOr => some .logOr
  | .eq => some .eq
  | .noteq => some .neq
  | .lt => some .lt
  | .le => some .leq
  | .gt => some .gt
  | .ge => some .geq
  | .ampersand => some .bitAnd
  | .bitOr => some .bitOr
  | .bitXor => some .bitXor
  | .question => some .ternary
  | _ => none

/-- `pp_get_operator`. -/
def ppGetOperator (tk : Ptr) : Run (Ptr × Opcode) := do
  let tk ← ppLexSkipSpace tk
  let next ← readNext tk
  if next = .null then
    errorAt "Unexpected error when trying to evaulate constant operator" tk
  else do
    let token ← readToken next
    match token.kind.operator with
    | none => pure (tk, .generic)
    | some op => do
        let tk ← ppLexNextToken tk true
        pure (tk, op)

/-- The value of a digit. -/
def digitValue (c : Char) : Word := BitVec.ofInt 32 (c.toNat - 48 : Int)

/-- One round of the loop over hexadecimal digits. -/
def hexDigit (value : Word) (c : Char) : Word :=
  let value := value <<< 4
  let value := if c.isDigit then value + digitValue c else value
  let lower := c.toNat ||| 32
  if 97 ≤ lower ∧ lower ≤ 102 then value + BitVec.ofNat 32 (lower - 97) + 10 else value

/-- One round of the loop over binary digits. -/
def binaryDigit (value : Word) (c : Char) : Word :=
  (value <<< 1) + if c = '1' then 1 else 0

/-- One round of the loop over octal or decimal digits. -/
def decimalDigit (octal : Bool) (value : Word) (c : Char) : Word :=
  value * (if octal then 8 else 10) + digitValue c

/-- `parse_numeric_constant`. -/
def parseNumericConstant (buffer : String) : Word :=
  match buffer.toList with
  | [] => 0
  | first :: rest =>
      let digits := (first :: rest).foldl (decimalDigit (first = '0')) 0
      match rest with
      | [] => digits
      | mark :: behind =>
          if mark.toNat ||| 32 = 120 then behind.foldl hexDigit 0
          else if mark.toNat ||| 32 = 98 then behind.foldl binaryDigit 0
          else digits

/-- The value of a unary operator. -/
def unaryValue (tk : Ptr) (op : Opcode) (lhs : Word) : Run Word :=
  match op with
  | .add => pure lhs
  | .sub => pure (-lhs)
  | .bitNot => pure (~~~lhs)
  | .logNot => pure (Word.ofBool (!lhs.truth))
  | _ => do
      let next ← readNext tk
      errorAt "Unexpected unary token while evaluating constant" (if next = .null then tk else next)

/-- The value of an infix operator: there is none for the remainder. -/
def infixValue (tk : Ptr) (op : Opcode) (lhs rhs : Word) : Run Word :=
  if op.isBinary && op != .mod then
    match op.binary lhs rhs with
    | some value => pure value
    | none => Run.fail .arithmetic
  else errorAt "Unexpected infix token while evaluating constant" tk

section Condition

variable (expand : Expand)

/-- `defined(name)`, from the keyword. -/
def definedOperand (tk : Ptr) : Run (Ptr × Word) := do
  let tk ← ppLexExpectToken tk .openBracket true
  let tk ← ppLexExpectToken tk .identifier true
  let token ← readToken tk
  let defined_ ← isMacroDefined token.literal
  let tk ← ppLexExpectToken tk .closeBracket true
  pure (tk, Word.ofBool defined_)

/-- The expansion of a macro is linked behind its name. -/
def expandOperand (tk : Ptr) (name : String) : Run Unit := do
  let replacement ← getReplacement name
  let expansion ← expand replacement ⟨[], none, tk, some false⟩
  let tmp ← readNext tk
  setNext tk expansion.1
  setNext expansion.2 tmp

/-- `pp_read_constant_expr_operand`. -/
def ppReadConstantExprOperand : Nat → Ptr → Run (Ptr × Word)
  | 0, _ => Run.fail .outOfFuel
  | fuel + 1, tk => do
      if ← ppLexPeekToken tk .numeric true then
        let tk ← ppLexNextToken tk true
        let token ← readToken tk
        pure (tk, parseNumericConstant token.literal)
      else if ← ppLexPeekToken tk .openBracket true then
        let tk ← ppLexNextToken tk true
        let (tk, val) ← ppReadConstantExprOperand fuel tk
        let tk ← ppLexExpectToken tk .closeBracket true
        pure (tk, val)
      else if ← ppLexPeekToken tk .identifier true then
        let tk ← ppLexNextToken tk true
        let token ← readToken tk
        if token.literal = "defined" then definedOperand tk
        else do
          let record ← getMacro token.literal
          match record.filter fun record => !record.isFunctionLike with
          | some _ => do
              expandOperand expand tk token.literal
              ppReadConstantExprOperand fuel tk
          | none => pure (tk, 0)
      else do
        let tk ← ppLexNextToken tk true
        errorAt "Unexpected token while evaluating constant" tk

/-- The loop over the infix operators. The operator behind a right-hand side is read
and lost. -/
def infixLoop (readInfix : Nat → Ptr → Run (Ptr × Word)) (precedence : Nat) :
    Nat → Ptr → Word → Run (Ptr × Word)
  | 0, _, _ => Run.fail .outOfFuel
  | fuel + 1, tk, lhs => do
      let (tk, op) ← ppGetOperator tk
      let currentPrecedence := ppGetOperatorPrio op
      if currentPrecedence = 0 ∨ currentPrecedence ≤ precedence then pure (tk, lhs)
      else do
        let (tk, rhs) ← readInfix currentPrecedence tk
        let lhs ← infixValue tk op lhs rhs
        let (tk, _) ← ppGetOperator tk
        infixLoop readInfix precedence fuel tk lhs

/-- `pp_read_constant_infix_expr`. -/
def ppReadConstantInfixExpr : Nat → Nat → Ptr → Run (Ptr × Word)
  | 0, _, _ => Run.fail .outOfFuel
  | fuel + 1, precedence, tk => do
      let (tk, op) ← ppGetOperator tk
      let currentPrecedence := ppGetUnaryOperatorPrio op
      if currentPrecedence ≠ 0 ∧ precedence ≤ currentPrecedence then
        let (tk, lhs) ← ppReadConstantInfixExpr fuel currentPrecedence tk
        let lhs ← unaryValue tk op lhs
        infixLoop (ppReadConstantInfixExpr fuel) precedence fuel tk lhs
      else do
        let (tk, lhs) ← ppReadConstantExprOperand expand fuel tk
        infixLoop (ppReadConstantInfixExpr fuel) precedence fuel tk lhs

/-- `pp_read_constant_expr`. -/
def ppReadConstantExpr (fuel : Nat) (tk : Ptr) : Run (Ptr × Word) := do
  let (tk, val) ← ppReadConstantInfixExpr expand fuel 0 tk
  let tk ← ppLexNextToken tk true
  pure (tk, val)

end Condition

/-! ## Conditional inclusion -/

/-- The token behind the next one. -/
def twoBehind (tk : Ptr) : Run Ptr := do
  let next ← readNext tk
  if next = .null then errorAt "Unexpected error when skipping conditional inclusion" tk
  else do
    let behind ← readNext next
    if behind = .null then errorAt "Unexpected error when skipping conditional inclusion" tk
    else pure behind

/-- The directives that open a condition. -/
def TokenKind.opensCondition : TokenKind → Bool
  | .cppdIf | .cppdIfdef_ | .cppdIfndef_ => true
  | _ => false

/-- The loop of `pp_skip_inner_cond_incl`. -/
def skipInnerCondIncl : Nat → Ptr → Run Ptr
  | 0, _ => Run.fail .outOfFuel
  | fuel + 1, tk => do
      let token ← readToken tk
      if token.kind = .eof then pure tk
      else if token.kind.opensCondition then do
        let tk ← twoBehind tk
        let tk ← skipInnerCondIncl fuel tk
        skipInnerCondIncl fuel tk
      else if token.kind = .cppdEndif then twoBehind tk
      else do
        let tk ← readNext tk
        skipInnerCondIncl fuel tk

/-- The loop of `pp_skip_cond_incl`. -/
def skipCondIncl : Nat → Ptr → Run Ptr
  | 0, _ => Run.fail .outOfFuel
  | fuel + 1, tk => do
      let token ← readToken tk
      if token.kind = .eof then pure tk
      else if token.kind.opensCondition then do
        let tk ← skipInnerCondIncl fuel tk
        skipCondIncl fuel tk
      else if token.kind = .cppdElif ∨ token.kind = .cppdElse ∨ token.kind = .cppdEndif then
        pure tk
      else do
        let tk ← readNext tk
        skipCondIncl fuel tk

/-- `pp_skip_cond_incl`. -/
def ppSkipCondIncl (tk : Ptr) : Run Ptr := walk fun fuel => skipCondIncl fuel tk

/-- `cond_kind_t`. -/
inductive CondKind
  | ifThen | elifThen | elseThen
  deriving DecidableEq

/-- `cond_incl_t` without the link to the condition outside. -/
structure CondIncl where
  ctx : CondKind
  tk : Ptr
  included : Bool

/-! ## Macro definitions -/

namespace Internal

/-- The comma behind a parameter name. -/
def skipComma (tk : Ptr) : Run Ptr := do
  if ← ppLexPeekToken tk .comma true then ppLexNextToken tk true else pure tk

/-- The loop over the parameter names. -/
def readParams : Nat → Ptr → Macro → Run (Ptr × Macro)
  | 0, _, _ => Run.fail .outOfFuel
  | fuel + 1, tk, record => do
      if ← ppLexPeekToken tk .identifier true then
        let tk ← ppLexNextToken tk true
        let token ← readToken tk
        let record ← Run.lift (record.addParam token)
        let tk ← skipComma tk
        readParams fuel tk record
      else pure (tk, record)

/-- The ellipsis of a variadic macro. -/
def readElipsis (tk : Ptr) (record : Macro) : Run (Ptr × Macro) := do
  if ← ppLexPeekToken tk .elipsis true then
    let tk ← ppLexNextToken tk true
    let token ← readToken tk
    pure (tk, { record with isVariadic := true,
                            variadicTk := some { token with literal := "__VA_ARGS__" } })
  else pure (tk, record)

/-- The parameter list of a function-like macro. -/
def readParameterList (tk : Ptr) (record : Macro) : Run (Ptr × Macro) := do
  if ← ppLexPeekToken tk .openBracket false then
    let tk ← ppLexNextToken tk false
    let (tk, record) ← walk fun fuel => readParams fuel tk record
    let (tk, record) ← readElipsis tk record
    let tk ← ppLexExpectToken tk .closeBracket true
    pure (tk, record)
  else pure (tk, record)

/-- A backslash at the end of a line. The token behind the newline is passed with it. -/
def continueLine (tk : Ptr) : Run Ptr := do
  let tk ← ppLexExpectToken tk .backslash false
  if ← ppLexPeekToken tk .newline false then
    let tk ← ppLexExpectToken tk .newline false
    ppLexNextToken tk false
  else errorAt "Backslash and newline must not be separated" tk

/-- `r_head`, `r_tail` and the copies between. -/
structure Replacement where
  head : Ptr
  tail : Ptr
  tokens : List Token

/-- A copy behind the replacement list. -/
def Replacement.append (r : Replacement) (token : Token) : Run Replacement := do
  let copy ← newToken token
  if r.head = .null then pure ⟨copy, copy, r.tokens ++ [token]⟩
  else do
    setNext r.tail copy
    pure ⟨r.head, copy, r.tokens ++ [token]⟩

/-- The loop over the replacement list. -/
def readReplacement : Nat → Ptr → Replacement → Run (Ptr × Replacement)
  | 0, _, _ => Run.fail .outOfFuel
  | fuel + 1, tk, r => do
      if ← ppLexPeekToken tk .newline false then pure (tk, r)
      else if ← ppLexPeekToken tk .backslash false then
        let tk ← continueLine tk
        readReplacement fuel tk r
      else do
        let tk ← ppLexNextToken tk false
        let token ← readToken tk
        let r ← r.append token
        readReplacement fuel tk r

end Internal

/-! ## Inclusion -/

/-- `while (c > 0 && file[c] != '/') c--`, from the last character on. -/
def slashIndex (file : List Char) : Nat → Nat
  | 0 => 0
  | c + 1 => if file[c + 1]? = some '/' then c + 1 else slashIndex file c

/-- The path of an included file beside the including one. -/
def inclusionPath (file literal : String) : Except Failure String :=
  match file.length with
  | 0 => .error .outOfBounds
  | length + 1 =>
      let c := slashIndex file.toList length
      let directory := if c = 0 then ['.'] else file.toList.take (min c (maxLineLen - 2))
      .ok (String.ofList ((directory ++ '/' :: literal.toList).take (maxLineLen - 1)))

/-- A text of a buffer, which `snprintf` cuts. -/
def quoted (quote : Char) (literal : String) : String :=
  String.ofList ((quote :: literal.toList ++ [quote]).take (maxTokenLen - 1))

/-- `token_to_string`: none is the null pointer. -/
def tokenToString (tk : Ptr) : Run (Option String) := do
  let token ← readToken tk
  match token.kind with
  | .eof => do
      let next ← readNext tk
      if next = .null then pure none
      else Run.fail (.errorAt ("Internal error, token_to_string does not expect eof token in " ++
        "the middle of token stream") token.location)
  | .numeric | .identifier => pure (some token.literal)
  | .string => pure (some (quoted '"' token.literal))
  | .char => pure (some (quoted '\'' token.literal))
  | .whitespace => pure (some (String.ofList (List.replicate token.location.len.toNat ' ')))
  | .start => pure none
  | .backslash => Run.fail (.errorAt
      "Internal error, backslash should be ommited after preprocessing" token.location)
  | .cppdInclude | .cppdDefine | .cppdUndef_ | .cppdError | .cppdIf | .cppdElif | .cppdElse
  | .cppdEndif | .cppdIfdef_ | .cppdIfndef_ | .cppdPragma => Run.fail (.errorAt
      "Internal error, preprocessor directives should be ommited after preprocessing"
      token.location)
  | kind =>
      match kind.text with
      | some text => pure (some text)
      | none => Run.fail (.errorAt "Unknown token kind" token.location)

/-- The loop over the tokens between angle brackets, whose texts are written to
`inclusion_path` from the index on. -/
def skipBracketed : Nat → Ptr → Nat → Run Ptr
  | 0, _, _ => Run.fail .outOfFuel
  | fuel + 1, tk, sz => do
      if ← ppLexPeekToken tk .gt false then pure tk
      else do
        let tk ← ppLexNextToken tk false
        let literal ← tokenToString tk
        match literal with
        | none => Run.fail .nullPointer
        | some literal =>
            if sz + literal.length < maxLineLen then skipBracketed fuel tk (sz + literal.length)
            else Run.fail .outOfBounds

/-- New tokens behind the last one. -/
def appendTokens : Ptr → List Token → Run Ptr
  | cur, [] => pure cur
  | cur, token :: rest => do
      let new ← newToken token
      setNext cur new
      appendTokens new rest

/-- `gen_file_token_stream`. What `lex_token` makes of a file is given by `lexFile`. -/
def genFileTokenStream (lexFile : String → Except Failure (List Token)) (filename : String) :
    Run Ptr := do
  match ← getTokenCache filename with
  | some head => pure head
  | none => do
      let tokens ← Run.lift (lexFile filename)
      let head ← newLocal
      let cur ← appendTokens (.cell head) tokens
      let first ← readNext (.cell head)
      let last ← readToken cur
      endLocal head
      if last.kind = .eof then do
        setTokenCache filename first
        pure first
      else Run.fail (.errorAt "Internal error, expected eof at the end of file" last.location)

/-! ## The function -/

/-- The variables of `pp_preprocess_internal`. -/
structure Scan where
  tk : Ptr
  cur : Ptr
  ci : List CondIncl

/-- `macro->handler`. -/
def Handler.make (handler : Handler) (token : Token) : Token :=
  match handler with
  | .file => { token with kind := .string, literal := token.location.filename }
  | .line => { token with kind := .numeric, literal := toString token.location.line }

namespace Internal

variable (lexFile : String → Except Failure (List Token)) (expand : Expand) (ctx : Context)
  (fuel : Nat) (s : Scan) (token : Token)

/-- `cur->next = copy_token(tk)`. -/
def copyThrough : Run Scan := do
  let copy ← newToken token
  setNext s.cur copy
  let tk ← readNext s.tk
  pure { s with tk := tk, cur := copy }

/-- `cur->next = pp_preprocess_internal(list, &expansion_ctx); cur = expansion_ctx.end_of_token`. -/
def splice (list : Ptr) (expansionCtx : Context) : Run Scan := do
  let expansion ← expand list expansionCtx
  setNext s.cur expansion.1
  pure { s with cur := expansion.2 }

/-- A list in place of the next token. -/
def substitute (list : Ptr) (expansionCtx : Context) : Run Scan := do
  let s ← splice expand s list expansionCtx
  let tk ← readNext s.tk
  pure { s with tk := tk }

/-- A macro with arguments or without. -/
def expandMacro (record : Macro) (expandedFrom : Ptr) : Run Scan := do
  let hideSet := ctx.hideSet ++ [token.literal]
  if ← ppLexPeekToken s.tk .openBracket true then
    let opening ← ppLexNextToken s.tk true
    let (tk, args) ← collectArguments expand ctx hideSet record token.location fuel opening
    let replacement ← getReplacement token.literal
    substitute expand { s with tk := tk } replacement
      ⟨hideSet, some args, expandedFrom, some true⟩
  else
    let replacement ← getReplacement token.literal
    substitute expand s replacement ⟨hideSet, ctx.macroArgs, expandedFrom, some true⟩

/-- The token a handler makes. -/
def handle (handler : Handler) (expandedFrom : Ptr) : Run Scan := do
  let origin ← readToken expandedFrom
  let made ← newToken (handler.make origin)
  setNext s.cur made
  let tk ← readNext s.tk
  pure { s with tk := tk, cur := made }

/-- `case T_identifier`. -/
def identifier : Run Scan := do
  let expandedFrom := if ctx.expandedFrom = .null then s.tk else ctx.expandedFrom
  let argument := Args.get ctx.macroArgs token.literal
  if argument ≠ .null then
    substitute expand s argument ⟨ctx.hideSet, none, expandedFrom, some true⟩
  else if token.literal ∈ ctx.hideSet then copyThrough s token
  else do
    let record ← getMacro token.literal
    match record.filter fun record => !record.isDisabled with
    | none => copyThrough s token
    | some record =>
        match record.handler with
        | some handler => handle s handler expandedFrom
        | none => expandMacro expand ctx fuel s token record expandedFrom

/-- `#include "file"`. -/
def includeFile : Run Scan := do
  let tk ← ppLexNextToken s.tk true
  let name ← readToken tk
  let path ← Run.lift (inclusionPath name.location.filename name.literal)
  let tk ← ppLexExpectToken tk .newline true
  let tk ← ppLexNextToken tk false
  if ← isPragmaOnce path then pure { s with tk := tk }
  else
    let file ← genFileTokenStream lexFile path
    splice expand { s with tk := tk } file ⟨ctx.hideSet, none, .null, some true⟩

/-- `#include <file>`, which is ignored. -/
def ignoreInclude : Run Scan := do
  let tk ← ppLexExpectToken s.tk .lt true
  let tk ← walk fun fuel => skipBracketed fuel tk 0
  let tk ← ppLexNextToken tk false
  let tk ← ppLexExpectToken tk .newline true
  let tk ← ppLexNextToken tk false
  pure { s with tk := tk }

/-- `case T_cppd_include`. -/
def cppdInclude : Run Scan := do
  if ← ppLexPeekToken s.tk .string true then includeFile lexFile expand ctx s
  else ignoreInclude s

/-- `case T_cppd_define`. -/
def cppdDefine : Run Scan := do
  let tk ← ppLexExpectToken s.tk .identifier true
  let name ← readToken tk
  let old ← getMacro name.literal
  let opened := Macros.opened (fun _ => old) name.literal
  let (tk, record) ← readParameterList tk opened
  let tk ← ppLexSkipSpace tk
  let (tk, r) ← walk fun fuel => readReplacement fuel tk ⟨.null, .null, []⟩
  let tk ← ppLexExpectToken tk .newline false
  let tk ← ppLexNextToken tk false
  setReplacement name.literal r.head
  setMacros fun macros => macros.put name.literal { record with replacement := r.tokens }
  pure { s with tk := tk }

/-- `case T_cppd_undef`. -/
def cppdUndef_ : Run Scan := do
  let tk ← ppLexExpectToken s.tk .identifier true
  let name ← readToken tk
  setMacros fun macros => macros.disable name.literal
  let tk ← ppLexExpectToken tk .newline true
  pure { s with tk := tk }

/-- `case T_cppd_if`. -/
def cppdIf : Run Scan := do
  let (tk, defined_) ← ppReadConstantExpr expand fuel s.tk
  let ci := ⟨.ifThen, s.tk, defined_.truth⟩ :: s.ci
  if defined_.truth then pure { s with tk := tk, ci := ci }
  else do
    let tk ← ppSkipCondIncl tk
    pure { s with tk := tk, ci := ci }

/-- `case T_cppd_ifdef`, and `case T_cppd_ifndef` where `wanted` is false. -/
def conditional (wanted : Bool) : Run Scan := do
  let tk ← ppLexExpectToken s.tk .identifier true
  let name ← readToken tk
  let defined_ ← isMacroDefined name.literal
  let ci := ⟨.ifThen, s.tk, defined_ == wanted⟩ :: s.ci
  if defined_ == wanted then do
    let tk ← ppLexExpectToken tk .newline true
    pure { s with tk := tk, ci := ci }
  else do
    let tk ← ppSkipCondIncl tk
    pure { s with tk := tk, ci := ci }

/-- `case T_cppd_ifdef`. -/
def cppdIfdef_ : Run Scan := conditional s true

/-- `case T_cppd_ifndef`. -/
def cppdIfndef_ : Run Scan := conditional s false

/-- `case T_cppd_elif`. -/
def cppdElif : Run Scan :=
  match s.ci with
  | [] => errorAt "Stray #elif" s.tk
  | ci :: outer =>
      if ci.ctx = .elseThen then errorAt "Stray #elif" s.tk
      else do
        let (tk, included) ← ppReadConstantExpr expand fuel s.tk
        if !ci.included && included.truth then
          pure { s with tk := tk, ci := { ci with ctx := .elifThen, included := true } :: outer }
        else do
          let tk ← ppSkipCondIncl tk
          pure { s with tk := tk, ci := { ci with ctx := .elifThen } :: outer }

/-- `case T_cppd_else`. -/
def cppdElse : Run Scan :=
  match s.ci with
  | [] => errorAt "Stray #else" s.tk
  | ci :: outer =>
      if ci.ctx = .elseThen then errorAt "Stray #else" s.tk
      else do
        let tk ← ppLexExpectToken s.tk .newline true
        if ci.included then do
          let tk ← ppSkipCondIncl tk
          pure { s with tk := tk, ci := { ci with ctx := .elseThen } :: outer }
        else pure { s with tk := tk, ci := { ci with ctx := .elseThen } :: outer }

/-- `case T_cppd_endif`. -/
def cppdEndif : Run Scan :=
  match s.ci with
  | [] => errorAt "Stray #endif" s.tk
  | _ :: outer => do
      let tk ← ppLexExpectToken s.tk .newline true
      pure { s with tk := tk, ci := outer }

/-- The mark of `#pragma once`. -/
def pragmaOnce (tk : Ptr) : Run Ptr := do
  if ← ppLexPeekToken tk .identifier true then
    let tk ← ppLexNextToken tk true
    let name ← readToken tk
    if name.literal = "once" then do
      setPragmaOnce name.location.filename
      pure tk
    else pure tk
  else pure tk

/-- The loop to the end of a line. -/
def skipLine : Nat → Ptr → Run Ptr
  | 0, _ => Run.fail .outOfFuel
  | fuel + 1, tk => do
      if ← ppLexPeekToken tk .newline true then pure tk
      else do
        let tk ← ppLexNextToken tk true
        skipLine fuel tk

/-- `case T_cppd_pragma`. -/
def cppdPragma : Run Scan := do
  let tk ← pragmaOnce s.tk
  let tk ← walk fun fuel => skipLine fuel tk
  let tk ← ppLexExpectToken tk .newline true
  pure { s with tk := tk }

/-- `case T_cppd_error`. -/
def cppdError : Run Scan := do
  if ← ppLexPeekToken s.tk .string true then
    let tk ← ppLexNextToken s.tk true
    let message ← readToken tk
    Run.fail (.errorAt message.literal message.location)
  else errorAt "Internal error, #error does not support non-string error message" s.tk

/-- `case T_eof`. -/
def eof : Run Scan :=
  match ctx.trimEof with
  | none => Run.fail .wildPointer
  | some true => do
      let tk ← ppLexNextToken s.tk false
      pure { s with tk := tk }
  | some false => copyThrough s token

/-- The body of the loop over the list. -/
def process : Run Scan :=
  match token.kind with
  | .identifier => identifier expand ctx fuel s token
  | .cppdInclude => cppdInclude lexFile expand ctx s
  | .cppdDefine => cppdDefine s
  | .cppdUndef_ => cppdUndef_ s
  | .cppdIf => cppdIf expand fuel s
  | .cppdIfdef_ => cppdIfdef_ s
  | .cppdIfndef_ => cppdIfndef_ s
  | .cppdElif => cppdElif expand fuel s
  | .cppdElse => cppdElse s
  | .cppdEndif => cppdEndif s
  | .cppdPragma => cppdPragma s
  | .cppdError => cppdError s
  | .backslash => errorAt "Backslash is not allowed here" s.cur
  | .eof => eof ctx s token
  | _ => copyThrough s token

/-- The loop over the list. -/
def scan : Nat → Scan → Run Scan
  | 0, _ => Run.fail .outOfFuel
  | rounds + 1, s =>
      if s.tk = .null then pure s
      else do
        let token ← readToken s.tk
        let s ← process lexFile expand ctx fuel s token
        scan rounds s

/-- The call returns. -/
def logReturn (head : Nat) (endOfToken : Ptr) : Run Unit := fun w =>
  .ok ((), { w with returned := w.returned ++ [⟨w.heap, head, endOfToken⟩] })

end Internal

/-- `pp_preprocess_internal`. -/
def ppPreprocessInternal (lexFile : String → Except Failure (List Token)) : Nat → Expand
  | 0 => fun _ _ => Run.fail .outOfFuel
  | fuel + 1 => fun tk ctx => do
      let head ← newLocal
      let s ← Internal.scan lexFile (ppPreprocessInternal lexFile fuel) ctx fuel fuel
        ⟨tk, .cell head, []⟩
      match s.ci with
      | ci :: _ => errorAt "Unterminated conditional directive" ci.tk
      | [] => do
          let list ← readNext (.cell head)
          Internal.logReturn head s.cur
          endLocal head
          pure (list, s.cur)

end Shecc.Preprocessor
