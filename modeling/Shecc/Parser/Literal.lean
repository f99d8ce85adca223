import Shecc.Parser.Records
import Shecc.Parser.Advance

/-!
# Reading a literal

Where the next token is given and is not skipped, the steps over a token are
equations. An expression that is a number loads a constant, and makes two blocks
that stay empty.
-/

namespace Shecc.Parser

open Shecc.Preprocessor (Token TokenKind SourceLocation Cursor)

/-! ## The next token -/

/-- The next token, which is not skipped, and those behind it. -/
structure Parsing.Facing (p : Parsing) (next : Token) (rest : List Token) : Prop where
  tokens : p.cur.next = next :: rest
  used : Lexer.isUnused next.kind = false
  notEnd : p.cur.tk.kind ≠ .eof

namespace Parsing.Facing

variable {p : Parsing} {next : Token} {rest : List Token} {kind : TokenKind}

theorem ahead_eq (facing : p.Facing next rest) : p.ahead = p.cur := by
  unfold Parsing.ahead
  rw [facing.tokens, Lexer.skipUnusedToken, if_neg (by simp [facing.used]), ← facing.tokens]

theorem peek_eq (facing : p.Facing next rest) : p.peek = some next.kind := by
  simp [Parsing.peek, facing.ahead_eq, facing.tokens]

theorem behind_eq (facing : p.Facing next rest) : p.behind = ⟨next, rest⟩ := by
  unfold Parsing.behind
  rw [facing.ahead_eq, facing.tokens]
  exact if_neg facing.notEnd

theorem move_ahead (facing : p.Facing next rest) : p.move p.ahead = p := by
  rw [facing.ahead_eq]
  rfl

theorem lexPeek_eq (facing : p.Facing next rest) (kind : TokenKind) :
    lexPeek kind p = .ok (next.kind == kind, p) := by
  rw [lexPeek, facing.move_ahead, facing.peek_eq]
  rfl

theorem lexAccept_ne (facing : p.Facing next rest) (other : next.kind ≠ kind) :
    lexAccept kind p = .ok (false, p) := by
  rw [lexAccept, facing.peek_eq, if_neg (by simpa using other), facing.move_ahead]

theorem lexAccept_eq (facing : p.Facing next rest) (found : next.kind = kind) :
    lexAccept kind p = .ok (true, p.move ⟨next, rest⟩) := by
  rw [lexAccept, facing.peek_eq, if_pos (by rw [found]), facing.behind_eq]

theorem lexExpect_eq (facing : p.Facing next rest) (found : next.kind = kind) :
    lexExpect kind p = .ok ((), p.move ⟨next, rest⟩) := by
  rw [lexExpect, facing.peek_eq, if_pos (by rw [found]), facing.behind_eq]

theorem lexPeekAny_eq (facing : p.Facing next rest) (kinds : List TokenKind) :
    lexPeekAny kinds p = .ok (kinds.any fun kind => next.kind == kind, p) := by
  rw [lexPeekAny, facing.move_ahead, facing.peek_eq]
  rfl

theorem lexIdent_eq (facing : p.Facing next rest) (found : next.kind = kind) {size : Nat}
    (short : next.literal.length < size) :
    lexIdent kind size p = .ok (next.literal, p.move ⟨next, rest⟩) := by
  unfold lexIdent
  rw [Parse.bind_ok (facing.lexExpect_eq found)]
  change copyLiteral next.literal size (p.move ⟨next, rest⟩) = _
  rw [copyLiteral, if_pos short]
  rfl

end Parsing.Facing

/-! ## A number -/

/-- The token is a number without a sign. -/
structure Denotes (token : Token) (value : Word) : Prop where
  kind : token.kind = .numeric
  short : token.literal.length < maxIdLen
  unsigned : token.literal.toList.head? ≠ some '-'
  value : numericValue token.literal.toList = .ok value

/-- The token ends an expression. -/
structure EndsExpr (token : Token) : Prop where
  used : Lexer.isUnused token.kind = false
  noOperator : operatorKinds.lookup token.kind = none
  noQuestion : token.kind ≠ .question

/-- The constant is loaded. -/
def Parsing.load (p : Parsing) (ctx : Context) (value : Word) : Parsing :=
  p.compute { type := some ctx.tyInt, initVal := value }
    { opcode := .loadConstant, rd := some p.vars.length } p.operandStack

variable {ctx : Context} {p : Parsing} {token close : Token} {rest : List Token} {value : Word}

theorem readNumericParam_eq (facing : p.Facing token rest) (denotes : Denotes token value)
    (room : p.operandStack.length < maxOperandStackSize) :
    readNumericParam ctx false p = .ok ((), (p.move ⟨token, rest⟩).load ctx value) := by
  unfold readNumericParam
  rw [Parse.bind_ok (facing.lexIdent_eq denotes.kind denotes.short)]
  rw [if_neg denotes.unsigned, denotes.value]
  exact pushConstant_eq ctx value room

theorem readExprOperand_literal {self : Readers} (facing : p.Facing token rest)
    (denotes : Denotes token value) (room : p.operandStack.length < maxOperandStackSize) :
    readExprOperand self ctx p = .ok ((), (p.move ⟨token, rest⟩).load ctx value) := by
  unfold readExprOperand readBehindSign
  rw [Parse.bind_ok (facing.lexAccept_ne (by simp [denotes.kind]))]
  simp only [Bool.false_eq_true, if_false]
  rw [Parse.bind_ok (facing.lexPeek_eq .string), if_neg (by simp [denotes.kind]),
    Parse.bind_ok (facing.lexPeek_eq .char), if_neg (by simp [denotes.kind]),
    Parse.bind_ok (facing.lexPeek_eq .numeric), if_pos (by simp [denotes.kind])]
  exact readNumericParam_eq facing denotes room

theorem getOperator_eq (facing : p.Facing close rest) (ends : EndsExpr close) :
    getOperator p = .ok (.generic, p) := by
  unfold getOperator
  rw [facing.peek_eq, Option.bind_some, ends.noOperator]
  simp [ends.noQuestion, facing.move_ahead]

theorem readExpr_literal (fuel : Nat) (facing : p.Facing token (close :: rest))
    (denotes : Denotes token value) (ends : EndsExpr close)
    (room : p.operandStack.length < maxOperandStackSize) :
    readExpr (readers ctx (fuel + 1)) ctx p =
      .ok ((), (p.create.create.move ⟨token, close :: rest⟩).load ctx value) := by
  have facing' : p.create.create.Facing token (close :: rest) :=
    ⟨facing.tokens, facing.used, facing.notEnd⟩
  have behind : ((p.create.create.move ⟨token, close :: rest⟩).load ctx value).Facing close rest :=
    ⟨rfl, ends.used, fun isEnd => by simpa [denotes.kind] using denotes.kind.symm.trans isEnd⟩
  unfold readExpr
  rw [Parse.bind_ok (bbCreate_eq p), Parse.bind_ok (bbCreate_eq p.create)]
  dsimp only
  have operand : (readers ctx (fuel + 1)).readExprOperand p.create.create = .ok ((),
      (p.create.create.move ⟨token, close :: rest⟩).load ctx value) :=
    readExprOperand_literal facing' denotes room
  rw [Parse.bind_ok operand, Parse.bind_ok (getOperator_eq behind ends)]
  simp [Parse.pure_eq]

end Shecc.Parser
