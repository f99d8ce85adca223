import Shecc.Preprocessor.Token

/-!
# The lexer

`lex_token` reads a token at a time from the characters of a file, which end with a
NUL. A character is the `char` of its code.
-/

namespace Shecc.Lexer

open Shecc.Preprocessor (Token TokenKind SourceLocation Failure maxTokenLen)

/-- `strbuf_t`, whose capacity is the number of its elements. -/
structure Strbuf where
  elements : List Char
  size : Nat
  deriving DecidableEq

/-- What `lex_token` reads and updates. -/
structure State where
  buf : Strbuf
  loc : SourceLocation
  deriving DecidableEq

/-- A computation of the lexer. -/
abbrev Lex := StateT State (Except Failure)

/-! ## Tables -/

/-- The directives of `lex_init_directives`. -/
def directives : List (String × TokenKind) :=
  [("#define", .cppdDefine), ("#elif", .cppdElif), ("#else", .cppdElse),
    ("#endif", .cppdEndif), ("#error", .cppdError), ("#if", .cppdIf),
    ("#ifdef", .cppdIfdef_), ("#ifndef", .cppdIfndef_), ("#include", .cppdInclude),
    ("#pragma", .cppdPragma), ("#undef", .cppdUndef_)]

/-- `lookup_directive`. -/
def lookupDirective (token : String) : TokenKind := (directives.lookup token).getD .identifier

/-- The keywords of `lex_init_keywords`. -/
def keywords : List (String × TokenKind) :=
  [("if", .if_), ("while", .while_), ("for", .for_), ("do", .do_), ("else", .else_),
    ("return", .return_), ("typedef", .typedef_), ("enum", .enum), ("struct", .struct),
    ("sizeof", .sizeof), ("switch", .switch), ("case", .case), ("break", .break_),
    ("default", .default), ("continue", .continue_), ("goto", .goto), ("union", .union),
    ("const", .const)]

/-- `lookup_keyword`. -/
def lookupKeyword (token : String) : TokenKind := (keywords.lookup token).getD .identifier

/-- The `switch` of `lex_token` over the length of a word. -/
def commonKeyword (token : String) : TokenKind :=
  match token.length with
  | 2 => if token = "if" then .if_ else if token = "do" then .do_ else .identifier
  | 3 => if token = "for" then .for_ else .identifier
  | 4 =>
      if token = "else" then .else_ else if token = "enum" then .enum
      else if token = "case" then .case else if token = "goto" then .goto else .identifier
  | 5 =>
      if token = "while" then .while_ else if token = "break" then .break_
      else if token = "union" then .union else if token = "const" then .const
      else .identifier
  | 6 =>
      if token = "return" then .return_ else if token = "struct" then .struct
      else if token = "switch" then .switch else if token = "sizeof" then .sizeof
      else .identifier
  | 7 => if token = "typedef" then .typedef_ else if token = "default" then .default
      else .identifier
  | 8 => if token = "continue" then .continue_ else .identifier
  | _ => .identifier

/-- The kind of a word: the hash table is asked for what the `switch` does not know. -/
def wordKind (token : String) : TokenKind :=
  if commonKeyword token = .identifier then lookupKeyword token else commonKeyword token

/-! ## Reading -/

/-- `peek_char`. -/
def peekChar (offset : Nat) : Lex Char := fun s =>
  .ok (s.buf.elements.getD (s.buf.size + offset) '\x00', s)

/-- `read_char`, which stays at the last element. -/
def readChar : Lex Char := fun s =>
  if s.buf.size + 1 ≥ s.buf.elements.length then .ok (s.buf.elements.getLastD '\x00', s)
  else .ok (s.buf.elements.getD (s.buf.size + 1) '\x00',
    { s with buf := { s.buf with size := s.buf.size + 1 } })

/-- `error_at` for `loc`, in which a field may have been set before. -/
def errorAt {α : Type} (msg : String) (set : SourceLocation → SourceLocation) : Lex α := fun s =>
  .error (.errorAt msg (set s.loc))

/-- A write behind the end of `token_buffer`. -/
def bufferOverflow {α : Type} : Lex α := fun _ => .error .outOfBounds

/-- `new_token`. -/
def newToken (kind : TokenKind) (literal : String) (len : Nat) : Lex Token := fun s =>
  .ok (⟨kind, literal, { s.loc with len := len }⟩, s)

/-- `loc->column += len`. -/
def addColumn (len : Nat) : Lex Unit := fun s =>
  .ok ((), { s with loc := { s.loc with column := s.loc.column + len } })

/-- A token of `len` characters, which have been read. -/
def emit (kind : TokenKind) (literal : String) (len : Nat) : Lex Token := do
  let token ← newToken kind literal len
  addColumn len
  return token

/-- `intern_string` on a buffer: a string ends at its first NUL. -/
def internString (buffer : List Char) : String :=
  String.ofList (buffer.takeWhile (· != '\x00'))

/-! ## Operators -/

/-- A token that the characters read so far, `len` with the current one, make, or a longer
one if one of the characters of `longer` is behind. -/
def follow (kind : TokenKind) (len : Nat) (longer : List (Char × Lex Token)) : Lex Token := do
  let ch ← readChar
  match longer.lookup ch with
  | some next => next
  | none => emit kind "" len

/-- `.` and `...`. -/
def dots : Lex Token := do
  let ch ← readChar
  let next ← peekChar 1
  if ch = '.' ∧ next = '.' then do
    modify fun s => { s with buf := { s.buf with size := s.buf.size + 2 } }
    emit .elipsis "" 3
  else emit .dot "" 1

/-- The tokens of one character, and the longer ones that start with it. -/
def punctuators : List (Char × Lex Token) :=
  [('\\', follow .backslash 1 []),
    ('\t', follow .tab 1 []),
    ('(', follow .openBracket 1 []),
    (')', follow .closeBracket 1 []),
    ('\x7b', follow .openCurly 1 []),
    ('\x7d', follow .closeCurly 1 []),
    ('[', follow .openSquare 1 []),
    (']', follow .closeSquare 1 []),
    (',', follow .comma 1 []),
    ('^', follow .bitXor 1 [('=', follow .xoreq 2 [])]),
    ('~', follow .bitNot 1 []),
    ('*', follow .asterisk 1 [('=', follow .asteriskeq 2 [])]),
    ('&', follow .ampersand 1 [('&', follow .logAnd 2 []), ('=', follow .andeq 2 [])]),
    ('|', follow .bitOr 1 [('|', follow .logOr 2 []), ('=', follow .oreq 2 [])]),
    ('<', follow .lt 1
      [('=', follow .le 2 []), ('<', follow .lshift 2 [('=', follow .lshifteq 3 [])])]),
    ('%', follow .mod 1 [('=', follow .modeq 2 [])]),
    ('>', follow .gt 1
      [('=', follow .ge 2 []), ('>', follow .rshift 2 [('=', follow .rshifteq 3 [])])]),
    ('!', follow .logNot 1 [('=', follow .noteq 2 [])]),
    ('.', dots),
    ('-', follow .minus 1
      [('>', follow .arrow 2 []), ('-', follow .decrement 2 []), ('=', follow .minuseq 2 [])]),
    ('+', follow .plus 1 [('+', follow .increment 2 []), ('=', follow .pluseq 2 [])]),
    (';', follow .semicolon 1 []),
    ('?', follow .question 1 []),
    (':', follow .colon 1 []),
    ('=', follow .assign 1 [('=', follow .eq 2 [])])]

/-! ## Words and numbers -/

/-- `isalnum(ch) || ch == '_'`. -/
def isWord (ch : Char) : Bool := ch.isAlphanum || ch == '_'

/-- `isxdigit`. -/
def isXDigit (ch : Char) : Bool :=
  ch.isDigit || ('a' ≤ ch && ch ≤ 'f') || ('A' ≤ ch && ch ≤ 'F')

/-- The check before a character is put into `token_buffer`. -/
def tokenTooLong {α : Type} (sz : Nat) : Lex α :=
  errorAt "Token too long" fun loc => { loc with len := sz }

/-- The loops that put characters into `token_buffer` as long as they are accepted. `room` is
what `sz` may still grow. -/
def readWhile (accept : Char → Bool) : (room : Nat) → List Char → Char → Lex (List Char)
  | 0, buffer, ch => if accept ch then tokenTooLong buffer.length else pure buffer
  | room + 1, buffer, ch =>
      if accept ch then do
        let next ← readChar
        readWhile accept room (buffer ++ [ch]) next
      else pure buffer

/-- The loop over an octal number. -/
def readOctal : (room : Nat) → List Char → Char → Lex (List Char)
  | 0, buffer, ch =>
      if ch.isDigit then
        if ch ≥ '8' then errorAt "Invalid octal digit, must be in range 0-7" fun loc =>
          { loc with pos := loc.pos + buffer.length, column := loc.column + buffer.length }
        else tokenTooLong buffer.length
      else pure buffer
  | room + 1, buffer, ch =>
      if ch.isDigit then
        if ch ≥ '8' then errorAt "Invalid octal digit, must be in range 0-7" fun loc =>
          { loc with pos := loc.pos + buffer.length, column := loc.column + buffer.length }
        else do
          let next ← readChar
          readOctal room (buffer ++ [ch]) next
      else pure buffer

/-- The digits behind `0x` or `0b`, of which there is at least one. -/
def readRadix (accept : Char → Bool) (msg : String) (ch : Char) : Lex (List Char) := do
  let next ← readChar
  if accept next then readWhile accept (maxTokenLen - 3) ['0', ch] next
  else errorAt msg fun loc => { loc with len := 3 }

/-- The digits of a number, the first of which has been read. -/
def readDigits (first ch : Char) : Lex (List Char) :=
  if first = '0' ∧ (ch = 'x' ∨ ch = 'X') then
    readRadix isXDigit "Invalid hex literal: expected hex digit after 0x" ch
  else if first = '0' ∧ (ch = 'b' ∨ ch = 'B') then
    readRadix (fun digit => digit == '0' || digit == '1')
      "Binary literal expects 0 or 1 after 0b" ch
  else if first = '0' then readOctal (maxTokenLen - 2) [first] ch
  else readWhile Char.isDigit (maxTokenLen - 2) [first] ch

/-- A number that starts with the digit `first`. -/
def lexNumber (first : Char) : Lex Token := do
  let ch ← readChar
  let buffer ← readDigits first ch
  emit .numeric (internString buffer) buffer.length

/-- An identifier or a keyword. -/
def lexWord (first : Char) : Lex Token := do
  let buffer ← readWhile isWord (maxTokenLen - 1) [] first
  emit (wordKind (internString buffer)) (internString buffer) buffer.length

/-- A directive. -/
def lexDirective : Lex Token := fun s =>
  if s.loc.column ≠ 1 then errorAt "Directive must be on the start of line" id s
  else (do
    let ch ← readChar
    let buffer ← readWhile isWord (maxTokenLen - 2) ['#'] ch
    let kind := lookupDirective (internString buffer)
    if kind = TokenKind.identifier then
      errorAt "Unsupported directive" fun loc => { loc with len := buffer.length }
    else emit kind "" buffer.length) s

/-! ## Literals -/

/-- The loop over a string literal. `room` is what is left of `token_buffer`. -/
def readString : (room : Nat) → List Char → (special : Bool) → Char → Lex (List Char)
  | 0, buffer, special, ch =>
      if ch ≠ '"' ∨ special then
        if buffer.getLast? = some '\\' then bufferOverflow
        else errorAt "String literal too long" fun loc => { loc with len := buffer.length + 1 }
      else bufferOverflow
  | room + 1, buffer, special, ch =>
      if ch ≠ '"' ∨ special then
        if buffer.getLast? ≠ some '\\' ∧ buffer.length ≥ maxTokenLen - 1 then
          errorAt "String literal too long" fun loc => { loc with len := buffer.length + 1 }
        else do
          let next ← readChar
          readString room (buffer ++ [ch]) (ch == '\\') next
      else pure buffer

/-- A string literal. -/
def lexString : Lex Token := do
  let ch ← readChar
  let buffer ← readString maxTokenLen [] false ch
  let _ ← readChar
  emit .string (internString buffer) (buffer.length + 2)

/-- The loop over the characters behind a backslash, with the character it stops at. -/
def readEscaped : (room : Nat) → List Char → Char → Lex (List Char × Char)
  | 0, _, _ => bufferOverflow
  | room + 1, buffer, ch => do
      let next ← readChar
      if next ≠ '\x00' ∧ next ≠ '\'' then readEscaped room (buffer ++ [ch]) next
      else if room = 0 then bufferOverflow
      else pure (buffer ++ [ch], next)

/-- The characters of a character literal, and the one behind them. -/
def readCharacters (ch : Char) : Lex (List Char × Char) := do
  let next ← readChar
  if ch = '\\' then readEscaped (maxTokenLen - 1) [ch] next else pure ([ch], next)

/-- A character literal. -/
def lexChar : Lex Token := do
  let ch ← readChar
  let (buffer, ch) ← readCharacters ch
  if ch ≠ '\'' then errorAt "Unenclosed character literal" fun loc => { loc with len := 2 }
  else do
    let _ ← readChar
    emit .char (internString buffer) (buffer.length + 2)

/-! ## Comments and whitespace -/

/-- The end of a round of the loop over a comment: a newline starts a line. -/
def nextLine (ch : Char) (loc : SourceLocation) : SourceLocation :=
  if ch = '\n' then { loc with line := loc.line + 1, column := 1 } else loc

/-- The loop over a C-style comment, from the elements behind `pos` on. It looks at a
character behind a star only to see whether it closes the comment. -/
def skipComment : (pos : Nat) → SourceLocation → (behind : List Char) →
    Except Failure (Nat × SourceLocation)
  | _, _, [] => .error .outOfBounds
  | pos, loc, ch :: behind =>
      if ch = '*' then
        match behind with
        | [] => .error .outOfBounds
        | ch :: behind =>
            if ch = '/' then .ok (pos + 3, { loc with column := loc.column + 4 })
            else if ch = '\x00' then .error (.errorAt "Unenclosed C-style comment"
              { loc with column := loc.column + 2 })
            else skipComment (pos + 2) (nextLine ch { loc with column := loc.column + 2 }) behind
      else if ch = '\x00' then .error (.errorAt "Unenclosed C-style comment"
        { loc with column := loc.column + 1 })
      else skipComment (pos + 1) (nextLine ch { loc with column := loc.column + 1 }) behind

/-- The loop over a C++-style comment, from the elements behind `pos` on. -/
def skipLine : (pos : Nat) → (behind : List Char) → Except Failure Nat
  | _, [] => .error .outOfBounds
  | pos, ch :: behind =>
      if ch ≠ '\x00' ∧ ch ≠ '\r' ∧ ch ≠ '\n' then skipLine (pos + 1) behind
      else .ok (pos + 1)

/-- What starts with a slash; `again` is the call that reads what is behind a comment. -/
def lexSlash (again : Lex Token) : Lex Token := do
  let ch ← readChar
  if ch = '*' then do
    let s ← get
    let (pos, loc) ← liftM (skipComment s.buf.size s.loc (s.buf.elements.drop (s.buf.size + 1)))
    set ({ buf := { s.buf with size := pos }, loc } : State)
    again
  else if ch = '/' then do
    let s ← get
    let pos ← liftM (skipLine s.buf.size (s.buf.elements.drop (s.buf.size + 1)))
    set ({ buf := { s.buf with size := pos },
           loc := { s.loc with column := s.loc.column + (pos - s.buf.size + 1) } } : State)
    again
  else if ch = '=' then do
    let _ ← readChar
    emit .divideeq "" 2
  else emit .divide "" 1

/-- The loop over spaces, which ends if a character behind them does. -/
def countSpaces : (fuel : Nat) → (sz : Nat) → Lex Nat
  | 0, _ => fun _ => .error .outOfFuel
  | fuel + 1, sz => do
      let ch ← readChar
      if ch = ' ' then countSpaces fuel (sz + 1) else pure sz

/-- A sequence of spaces. -/
def lexWhitespace (fuel : Nat) : Lex Token := do
  let sz ← countSpaces fuel 1
  emit .whitespace "" sz

/-- A newline. -/
def lexNewline : Lex Token := do
  let _ ← readChar
  let token ← newToken .newline "" 1
  modify fun s => { s with loc := { s.loc with line := s.loc.line + 1, column := 1 } }
  return token

/-! ## The functions -/

/-- `lex_token`. -/
def lexToken : (fuel : Nat) → Lex Token
  | 0 => fun _ => .error .outOfFuel
  | fuel + 1 => do
      let ch ← peekChar 0
      modify fun s => { s with loc := { s.loc with pos := s.buf.size } }
      if ch = '#' then lexDirective
      else if ch = '\n' then lexNewline
      else if ch = '/' then lexSlash (lexToken fuel)
      else if ch = ' ' then lexWhitespace fuel
      else if ch = '\x00' then follow .eof 1 []
      else if ch.isDigit then lexNumber ch
      else if ch = '"' then lexString
      else if ch = '\'' then lexChar
      else
        match punctuators.lookup ch with
        | some punctuator => punctuator
        | none => if isWord ch then lexWord ch else errorAt "Unexpected token" id

/-- The loop of `gen_file_token_stream`. -/
def lexTokens (fuel : Nat) : (rounds : Nat) → Lex (List Token)
  | 0 => fun _ => .error .outOfFuel
  | rounds + 1 => do
      let s ← get
      if s.buf.size < s.buf.elements.length then do
        let token ← lexToken fuel
        if token.kind = .eof then return [token]
        else do
          let tokens ← lexTokens fuel rounds
          return token :: tokens
      else return []

/-- What `gen_file_token_stream` starts with. -/
def start (filename : String) (elements : List Char) : State :=
  ⟨⟨elements, 0⟩, ⟨0, 1, 1, 1, filename⟩⟩

/-- `gen_file_token_stream` for a file that is not cached, whose buffer is `elements`. -/
def lexFile (fuel : Nat) (filename : String) (elements : List Char) :
    Except Failure (List Token) := do
  let (tokens, s) ← lexTokens fuel fuel (start filename elements)
  match tokens.getLast? with
  | none => return [⟨.eof, "", s.loc⟩]
  | some cur =>
      if cur.kind = .eof then return tokens
      else .error (.errorAt "Internal error, expected eof at the end of file" cur.location)

end Shecc.Lexer
