import Mathlib.Data.List.Basic
import Mathlib.Tactic.Cases

/-!
# Tokens and cursors

The preprocessor walks over a token list with a pointer to the last token it has
consumed. A cursor is such a pointer: the token and the tokens behind it.
-/

namespace Shecc.Preprocessor

/-- `token_kind_t`. -/
inductive TokenKind
  | start | eof | numeric | identifier | comma | string | char
  | openBracket | closeBracket | openCurly | closeCurly | openSquare | closeSquare
  | asterisk | divide | mod | bitOr | bitXor | bitNot | logAnd | logOr | logNot
  | lt | gt | le | ge | lshift | rshift | dot | arrow | plus | minus
  | minuseq | pluseq | asteriskeq | divideeq | modeq | lshifteq | rshifteq | xoreq | oreq | andeq
  | eq | noteq | assign | increment | decrement | question | colon | semicolon | ampersand
  | return_ | if_ | else_ | while_ | for_ | do_ | typedef_ | enum | struct | union | sizeof
  | elipsis | switch | case | break_ | default | continue_ | goto | const
  | cppdInclude | cppdDefine | cppdUndef_ | cppdError | cppdIf | cppdElif | cppdElse | cppdEndif
  | cppdIfdef_ | cppdIfndef_ | cppdPragma
  | newline | backslash | whitespace | tab
  deriving DecidableEq

/-- `MAX_LINE_LEN`. -/
def maxLineLen : Nat := 256

/-- `MAX_TOKEN_LEN`. -/
def maxTokenLen : Nat := 256

/-- The text of the tokens that always have the same. -/
def TokenKind.text : TokenKind → Option String
  | .comma => some ","
  | .openBracket => some "("
  | .closeBracket => some ")"
  | .openCurly => some "\x7b"
  | .closeCurly => some "\x7d"
  | .openSquare => some "["
  | .closeSquare => some "]"
  | .asterisk => some "*"
  | .divide => some "/"
  | .mod => some "%"
  | .bitOr => some "|"
  | .bitXor => some "^"
  | .bitNot => some "~"
  | .logAnd => some "&&"
  | .logOr => some "||"
  | .logNot => some "!"
  | .lt => some "<"
  | .gt => some ">"
  | .le => some "<="
  | .ge => some ">="
  | .lshift => some "<<"
  | .rshift => some ">>"
  | .dot => some "."
  | .arrow => some "->"
  | .plus => some "+"
  | .minus => some "-"
  | .minuseq => some "-="
  | .pluseq => some "+="
  | .asteriskeq => some "*="
  | .divideeq => some "/="
  | .modeq => some "%="
  | .lshifteq => some "<<="
  | .rshifteq => some ">>="
  | .xoreq => some "^="
  | .oreq => some "|="
  | .andeq => some "&="
  | .eq => some "=="
  | .noteq => some "!="
  | .assign => some "="
  | .increment => some "++"
  | .decrement => some "--"
  | .question => some "?"
  | .colon => some ":"
  | .semicolon => some ";"
  | .ampersand => some "&"
  | .return_ => some "return"
  | .if_ => some "if"
  | .else_ => some "else"
  | .while_ => some "while"
  | .for_ => some "for"
  | .do_ => some "do"
  | .typedef_ => some "typedef"
  | .enum => some "enum"
  | .struct => some "struct"
  | .union => some "union"
  | .sizeof => some "sizeof"
  | .elipsis => some "..."
  | .switch => some "switch"
  | .case => some "case"
  | .break_ => some "break"
  | .default => some "default"
  | .continue_ => some "continue"
  | .goto => some "goto"
  | .const => some "const"
  | .newline => some "\n"
  | .tab => some "\t"
  | _ => none

/-- `source_location_t`. -/
structure SourceLocation where
  pos : Int
  len : Int
  line : Int
  column : Int
  filename : String
  deriving DecidableEq

/-- `token_t` without its link. -/
structure Token where
  kind : TokenKind
  literal : String
  location : SourceLocation
  deriving DecidableEq

/-- How the preprocessor stops: with an error message, by reading through a null
pointer or one to no live token, by leaving the bounds of an array, by an operation on
integers that is not defined, or not at all. -/
inductive Failure
  | errorAt (msg : String) (location : SourceLocation)
  | nullPointer
  | wildPointer
  | outOfBounds
  | arithmetic
  | outOfFuel
  deriving DecidableEq

/-- A token and the tokens behind it. -/
structure Cursor where
  tk : Token
  next : List Token
  deriving DecidableEq

/-- A step and what follows it succeed together. -/
theorem bind_ok_iff {α β : Type} {step : Except Failure α} {rest : α → Except Failure β}
    {result : β} : (step >>= rest) = .ok result ↔ ∃ value, step = .ok value ∧
      rest value = .ok result := by
  cases step with
  | error failure => constructor <;> simp [bind, Except.bind]
  | ok value => simp [bind, Except.bind]

namespace Cursor

/-- `pp_lex_skip_space` on a token and the tokens behind it. -/
def skip : Token → List Token → Cursor
  | tk, [] => ⟨tk, []⟩
  | tk, next :: rest =>
      if next.kind = .whitespace ∨ next.kind = .tab then skip next rest else ⟨tk, next :: rest⟩

/-- `pp_lex_skip_space`. -/
def ppLexSkipSpace (c : Cursor) : Cursor := skip c.tk c.next

/-- The cursor the lexing functions look behind. -/
def at_ (c : Cursor) (skipSpace : Bool) : Cursor := if skipSpace then c.ppLexSkipSpace else c

/-- `pp_lex_next_token`; the end of the list is the null pointer. -/
def ppLexNextToken (c : Cursor) (skipSpace : Bool) : Option Cursor :=
  match (c.at_ skipSpace).next with
  | [] => none
  | tk :: rest => some ⟨tk, rest⟩

/-- `pp_lex_peek_token`. -/
def ppLexPeekToken (c : Cursor) (kind : TokenKind) (skipSpace : Bool) : Bool :=
  match (c.at_ skipSpace).next with
  | [] => false
  | tk :: _ => tk.kind == kind

/-- `pp_lex_expect_token`. -/
def ppLexExpectToken (c : Cursor) (kind : TokenKind) (skipSpace : Bool) :
    Except Failure Cursor :=
  match (c.at_ skipSpace).next with
  | [] => .error (.errorAt "Expect token after this token" (c.at_ skipSpace).tk.location)
  | tk :: rest =>
      if tk.kind = kind then .ok ⟨tk, rest⟩
      else .error (.errorAt "Unexpected token kind" tk.location)

/-- Reading through the pointer `pp_lex_next_token` returns. -/
def advance (c : Cursor) (skipSpace : Bool) : Except Failure Cursor :=
  match c.ppLexNextToken skipSpace with
  | none => .error .nullPointer
  | some c => .ok c

end Cursor

end Shecc.Preprocessor
