import Shecc.Parser.Advance

/-!
# What reading an expression keeps

A relation between states that every step of the parser keeps is kept by the
readers: the steps are listed once, and the readers are followed once. The code
only grows is such a relation.
-/

namespace Shecc.Parser

open Shecc.Preprocessor (Token TokenKind SourceLocation Cursor)

-- the instance for a reader is as large as the reader
set_option synthInstance.maxSize 4096

/-- A token that no expression branches at. -/
class Quiet (kind : TokenKind) : Prop where
  plain : kind ∉ branching

instance : Quiet .ampersand := ⟨by decide⟩
instance : Quiet .arrow := ⟨by decide⟩
instance : Quiet .asterisk := ⟨by decide⟩
instance : Quiet .bitNot := ⟨by decide⟩
instance : Quiet .closeBracket := ⟨by decide⟩
instance : Quiet .colon := ⟨by decide⟩
instance : Quiet .comma := ⟨by decide⟩
instance : Quiet .decrement := ⟨by decide⟩
instance : Quiet .increment := ⟨by decide⟩
instance : Quiet .logNot := ⟨by decide⟩
instance : Quiet .minus := ⟨by decide⟩
instance : Quiet .openBracket := ⟨by decide⟩
instance : Quiet .openCurly := ⟨by decide⟩
instance : Quiet .openSquare := ⟨by decide⟩
instance : Quiet .sizeof := ⟨by decide⟩
instance : Quiet .struct := ⟨by decide⟩
instance : Quiet .union := ⟨by decide⟩
instance : Quiet .closeCurly := ⟨by decide⟩
instance : Quiet .closeSquare := ⟨by decide⟩
instance : Quiet .dot := ⟨by decide⟩
instance : Quiet .identifier := ⟨by decide⟩
instance : Quiet .plus := ⟨by decide⟩
instance : Quiet .char := ⟨by decide⟩
instance : Quiet .numeric := ⟨by decide⟩

/-- A preorder on states that passing quiet tokens keeps. -/
class KeptMoves (R : Parsing → Parsing → Prop) : Prop where
  refl (p : Parsing) : R p p
  trans {p q r : Parsing} : R p q → R q r → R p r
  skip (p : Parsing) {cur : Cursor} (skips : Skips p.cur cur) : R p (p.move cur)

/-- A preorder that every step of the readers of operands keeps. -/
class Kept (R : Parsing → Parsing → Prop) : Prop extends KeptMoves R where
  rodata (p : Parsing) (rodata : List Char) : R p { p with rodata := rodata }
  withVar (p : Parsing) (record : VarRecord) : R p (p.withVar record)
  modifyVar (p : Parsing) (v : VarId) (change : VarRecord → VarRecord) : R p (p.modifyVar v change)
  name (p : Parsing) (idx : Nat) : R p { p with globalVarIdx := idx }
  operands (p : Parsing) (stack : List VarId) : R p { p with operandStack := stack }
  queue (p : Parsing) (insn : Insn) : R p { p with sideEffect := p.sideEffect ++ [insn] }
  emit (p : Parsing) (insn : Insn) :
    R p (p.modifyBlock p.bb fun block => { block with insns := block.insns ++ [insn] })

/-- A preorder that passing any token keeps. -/
class KeptAny (R : Parsing → Parsing → Prop) : Prop extends Kept R where
  move (p : Parsing) (cur : Cursor) : R p (p.move cur)

/-- A preorder that the steps on blocks keep as well. -/
class KeptBlocks (R : Parsing → Parsing → Prop) : Prop extends Kept R where
  create (p : Parsing) : R p { p with blocks := p.blocks ++ [.new] }
  connect (p : Parsing) (pred succ : BlockId) (type : Connection) :
    R p ((p.modifyBlock succ fun block =>
      { block with prev := block.prev ++ [(pred, type)] }).modifyBlock pred fun block =>
        block.connect succ type)
  insn (p : Parsing) (bb : BlockId) (insn : Insn) :
    R p (p.modifyBlock bb fun block => { block with insns := block.insns ++ [insn] })
  enter (p : Parsing) (bb : BlockId) : R p { p with bb := bb }

/-- A computation keeps the relation. -/
class Along {α : Type} (R : Parsing → Parsing → Prop) (step : Parse α) : Prop where
  along : ∀ {p p' : Parsing} {value : α}, step p = .ok (value, p') → R p p'

namespace Along

section Rules

variable {R : Parsing → Parsing → Prop} [kept : KeptMoves R] {α β : Type}

instance pure (value : α) : Along R (Pure.pure value : Parse α) where
  along ran := by
    cases ran
    exact kept.refl _

instance bind {step : Parse α} {rest : α → Parse β} [first : Along R step]
    [second : ∀ value, Along R (rest value)] : Along R (step >>= rest) where
  along ran := by
    rcases Parse.bind_eq_ok_iff.mp ran with ⟨value, middle, before, behind⟩
    exact kept.trans (first.along before) ((second value).along behind)

/-- The rule for a computation that is split into cases before the instances apply. -/
theorem andThen {step : Parse α} {rest : α → Parse β} (first : Along R step)
    (second : ∀ value, Along R (rest value)) : Along R (step >>= rest) := inferInstance

instance ite {condition : Prop} [Decidable condition] {step other : Parse α}
    [first : Along R step] [second : Along R other] :
    Along R (if condition then step else other) := by
  split <;> assumption

omit kept in
/-- The rule for a choice whose sides are treated one by one. -/
theorem choose {condition : Prop} [Decidable condition] {step other : Parse α}
    (first : Along R step) (second : Along R other) :
    Along R (if condition then step else other) := inferInstance

instance fail (stop : Stop) : Along R (Parse.fail stop : Parse α) where
  along ran := nomatch ran

instance get : Along R (get : Parse Parsing) where
  along ran := by
    cases ran
    exact kept.refl _

instance deref (value : Option α) : Along R (Parse.deref value) := by
  cases value
  · exact fail _
  · exact pure _

end Rules

/-! ## Passing tokens -/

section Moves

variable {R : Parsing → Parsing → Prop} [kept : KeptMoves R] {α : Type}

instance errorAt (msg : String) (location : SourceLocation) :
    Along R (Parser.errorAt msg location : Parse α) := fail _

instance errorAtCur (msg : String) : Along R (Parser.errorAtCur msg : Parse α) where
  along ran := nomatch ran

instance errorAtNext (msg : String) : Along R (Parser.errorAtNext msg : Parse α) where
  along {p _ _} ran := by
    unfold Parser.errorAtNext at ran
    cases location : p.nextTokenLoc <;> simp [location] at ran

instance lexPeek (kind : TokenKind) : Along R (Parser.lexPeek kind) where
  along {p _ _} ran := by
    cases ran
    exact kept.skip _ p.skips_ahead

instance lexPeekAny (kinds : List TokenKind) : Along R (Parser.lexPeekAny kinds) where
  along {p _ _} ran := by
    cases ran
    exact kept.skip _ p.skips_ahead

instance lexAccept (kind : TokenKind) [quiet : Quiet kind] : Along R (Parser.lexAccept kind) where
  along {p _ _} ran := by
    unfold Parser.lexAccept at ran
    split at ran
    case isTrue found =>
      cases ran
      exact kept.skip _ (Parsing.skips_behind found quiet.plain)
    case isFalse =>
      cases ran
      exact kept.skip _ p.skips_ahead

instance lexExpect (kind : TokenKind) [quiet : Quiet kind] : Along R (Parser.lexExpect kind) where
  along {p _ _} ran := by
    unfold Parser.lexExpect at ran
    split at ran
    case isTrue found =>
      cases ran
      exact kept.skip _ (Parsing.skips_behind found quiet.plain)
    case isFalse => cases ran

instance copyLiteral (literal : String) (size : Nat) :
    Along R (Parser.copyLiteral literal size) := by
  unfold Parser.copyLiteral
  infer_instance

instance lexPeekInto (ctx : Context) (kind : TokenKind) (size : Nat) :
    Along R (Parser.lexPeekInto ctx kind size) := by
  unfold Parser.lexPeekInto
  infer_instance

instance lexIdent (kind : TokenKind) [Quiet kind] (size : Nat) :
    Along R (Parser.lexIdent kind size) := by
  unfold Parser.lexIdent
  infer_instance

instance countAsterisks (fuel count : Nat) : Along R (Parser.countAsterisks fuel count) := by
  induction fuel generalizing count with
  | zero => exact fail _
  | succ fuel inductionHypothesis =>
      unfold Parser.countAsterisks
      infer_instance

end Moves

/-! ## Looking ahead -/

/-- Only the cursor moved, and only over quiet tokens. -/
def Moved (p p' : Parsing) : Prop := ∃ cur, p' = p.move cur ∧ Skips p.cur cur

/-- What holds between a state and one that came to it from `saved`. -/
def MovedFrom (saved p p' : Parsing) : Prop := Moved saved p → Moved saved p'

instance (saved : Parsing) : KeptMoves (MovedFrom saved) where
  refl _ moved := moved
  trans before behind moved := behind (before moved)
  skip p cur skips moved := by
    rcases moved with ⟨middle, rfl, before⟩
    exact ⟨cur, rfl, before.trans skips⟩

/-- The cursor moves back. -/
instance restore (saved : Parsing) :
    Along (MovedFrom saved) (modify fun p => p.move saved.cur : Parse Unit) where
  along ran moved := by
    rcases moved with ⟨middle, rfl, -⟩
    cases ran
    exact ⟨saved.cur, rfl, .refl _⟩

instance lookAhead {R : Parsing → Parsing → Prop} [kept : KeptMoves R] (self : Readers)
    (ctx : Context) : Along R (Parser.lookAhead self ctx) := by
  unfold Parser.lookAhead
  refine andThen inferInstance fun lookahead => ?_
  dsimp only
  split
  case h_1 => infer_instance
  case h_2 type found =>
    constructor
    intro p p' bracketed ran
    rcases Parse.bind_eq_ok_iff.mp ran with ⟨saved, _, ranGet, ran⟩
    cases ranGet
    have along := (inferInstance : Along (MovedFrom p) _).along ran
    rcases along ⟨p.cur, rfl, .refl _⟩ with ⟨cur, rfl, skips⟩
    exact kept.skip p skips

/-! ## The steps -/

variable {R : Parsing → Parsing → Prop} [kept : Kept R] {α : Type}

instance varOf (v : VarId) : Along R (Parser.varOf v) where
  along ran := by
    cases ran
    exact kept.refl _

instance setVar (v : VarId) (change : VarRecord → VarRecord) :
    Along R (Parser.setVar v change) where
  along ran := by
    cases ran
    exact kept.modifyVar _ _ _

instance requireVar (ctx : Context) : Along R (Parser.requireVar ctx) where
  along ran := by
    cases ran
    exact kept.withVar _ _

instance genNameTo (v : VarId) : Along R (Parser.genNameTo v) where
  along ran := by
    cases ran
    exact kept.trans (kept.modifyVar _ _ _) (kept.name _ _)

instance opstackPush (v : VarId) : Along R (Parser.opstackPush v) where
  along {p _ _} ran := by
    unfold Parser.opstackPush at ran
    split at ran <;> cases ran
    exact kept.operands _ _

instance opstackPop : Along R Parser.opstackPop where
  along {p _ _} ran := by
    unfold Parser.opstackPop at ran
    split at ran <;> cases ran
    exact kept.operands _ _

instance opstackTop : Along R Parser.opstackTop where
  along {p _ _} ran := by
    unfold Parser.opstackTop at ran
    split at ran <;> cases ran
    exact kept.refl _

instance queueSideEffect (insn : Insn) : Along R (Parser.queueSideEffect insn) where
  along {p _ _} ran := by
    unfold Parser.queueSideEffect at ran
    split at ran <;> cases ran
    exact kept.queue _ _

instance emit (insn : Insn) : Along R (Parser.emit insn) where
  along {p p' _} ran := by
    change Parser.addInsn p.bb insn p = _ at ran
    unfold Parser.addInsn at ran
    dsimp only at ran
    split at ran
    · split at ran <;> cases ran
      · exact kept.trans (kept.emit _ _) (kept.modifyVar _ _ _)
      · exact kept.emit _ _
    · cases ran
      exact kept.emit _ _

/-! ## What the readers call -/

instance typeOf (ctx : Context) (type : Option TypeId) : Along R (ctx.typeOf type) := by
  unfold Context.typeOf
  infer_instance

instance requireTypedVar (ctx : Context) (type : Option TypeId) :
    Along R (Parser.requireTypedVar ctx type) := by
  unfold Parser.requireTypedVar
  infer_instance

instance requireTypedPtrVar (ctx : Context) (type : Option TypeId) (ptr : Nat) :
    Along R (Parser.requireTypedPtrVar ctx type ptr) := by
  unfold Parser.requireTypedPtrVar
  infer_instance

instance requireRefVar (ctx : Context) (type : Option TypeId) (ptr : Nat) :
    Along R (Parser.requireRefVar ctx type ptr) := by
  unfold Parser.requireRefVar
  infer_instance

instance requireDerefVar (ctx : Context) (type : Option TypeId) (ptr : Nat) :
    Along R (Parser.requireDerefVar ctx type ptr) := by
  unfold Parser.requireDerefVar
  infer_instance

instance newTemp (ctx : Context) : Along R (Parser.newTemp ctx) := by
  unfold Parser.newTemp
  infer_instance

instance newConstant (ctx : Context) (value : Word) : Along R (Parser.newConstant ctx value) := by
  unfold Parser.newConstant
  infer_instance

instance getSize (ctx : Context) (var : VarRecord) : Along R (Parser.getSize ctx var) := by
  unfold Parser.getSize
  infer_instance

instance findMember (ctx : Context) (token : String) (type : Option TypeId) :
    Along R (Parser.findMember ctx token type) := by
  unfold Parser.findMember
  infer_instance

instance pushTemp (ctx : Context) (insn : VarId → Insn) : Along R (Parser.pushTemp ctx insn) := by
  unfold Parser.pushTemp
  infer_instance

instance pushConstant (ctx : Context) (value : Word) :
    Along R (Parser.pushConstant ctx value) := by
  unfold Parser.pushConstant
  infer_instance

instance binaryTemp (ctx : Context) (op : Opcode) : Along R (Parser.binaryTemp ctx op) := by
  unfold Parser.binaryTemp
  infer_instance

instance unaryTemp (ctx : Context) (op : Opcode) (sz : Int) :
    Along R (Parser.unaryTemp ctx op sz) := by
  unfold Parser.unaryTemp
  infer_instance

instance promoteUnchecked (ctx : Context) (var : VarId) (type : Option TypeId) (ptr : Nat) :
    Along R (Parser.promoteUnchecked ctx var type ptr) := by
  unfold Parser.promoteUnchecked
  infer_instance

instance promote (ctx : Context) (var : VarId) (type : Option TypeId) (ptr : Nat) :
    Along R (Parser.promote ctx var type ptr) := by
  unfold Parser.promote
  infer_instance

instance truncateUnchecked (ctx : Context) (var : VarId) (type : Option TypeId) (ptr : Nat) :
    Along R (Parser.truncateUnchecked ctx var type ptr) := by
  unfold Parser.truncateUnchecked
  infer_instance

instance resizeVar (ctx : Context) (var : VarId) (target : VarRecord) :
    Along R (Parser.resizeVar ctx var target) := by
  unfold Parser.resizeVar
  infer_instance

instance scalarizeArrayLiteral (ctx : Context) (var : VarId) (hintType : Option TypeId) :
    Along R (Parser.scalarizeArrayLiteral ctx var hintType) := by
  unfold Parser.scalarizeArrayLiteral
  infer_instance

/-! ## Literals and arguments -/

instance readNumericParam (ctx : Context) (isNeg : Bool) :
    Along R (Parser.readNumericParam ctx isNeg) := by
  unfold Parser.readNumericParam
  refine andThen inferInstance fun token => ?_
  dsimp only
  split <;> infer_instance

instance readCharParam (ctx : Context) : Along R (Parser.readCharParam ctx) := by
  unfold Parser.readCharParam
  refine andThen inferInstance fun literal => ?_
  split <;> infer_instance

instance pushLiteral (ctx : Context) (index : Nat) : Along R (Parser.pushLiteral ctx index) := by
  unfold Parser.pushLiteral
  infer_instance

instance readLiteralParam (ctx : Context) : Along R (Parser.readLiteralParam ctx) where
  along {p _ _} ran := by
    unfold Parser.readLiteralParam at ran
    split at ran
    · cases ran
    · cases ran
    · rename_i cur read
      have skips : Skips p.cur cur := skips_readLiteralParam read
      exact kept.trans (kept.trans (kept.skip p skips) (kept.rodata _ _))
        ((pushLiteral ctx _).along ran)

instance convertParam (ctx : Context) (func : FuncRecord) (paramNum : Nat) (param : VarId) :
    Along R (Parser.convertParam ctx func paramNum param) := by
  unfold Parser.convertParam
  cases func.paramDefs[paramNum]? <;> dsimp only <;> infer_instance

instance pushParams (params : List VarId) : Along R (Parser.pushParams params) := by
  induction params with
  | nil => exact pure ()
  | cons param rest inductionHypothesis =>
      unfold Parser.pushParams
      infer_instance

/-! ## The readers -/

end Along

/-- The readers called recursively keep the relation. -/
class KeptBy (R : Parsing → Parsing → Prop) (called : Readers) : Prop where
  expr : Along R called.readExpr
  operand : Along R called.readExprOperand
  ternary : Along R called.readTernaryOperation

namespace Along

variable {R : Parsing → Parsing → Prop} [kept : Kept R] {self : Readers} [keep : KeptBy R self]

instance selfExpr : Along R self.readExpr := keep.expr

instance selfOperand : Along R self.readExprOperand := keep.operand

instance selfTernary : Along R self.readTernaryOperation := keep.ternary

instance readWhole : Along R self.readWhole := by
  unfold Readers.readWhole
  infer_instance

instance readParams (ctx : Context) (func : Option FuncRecord) (fuel : Nat)
    (params : List VarId) : Along R (Parser.readParams self ctx func fuel params) := by
  induction fuel generalizing params with
  | zero => exact fail _
  | succ fuel inductionHypothesis =>
      unfold Parser.readParams
      cases func <;> dsimp only <;> infer_instance

instance readFuncParameters (ctx : Context) (func : Option FuncRecord) :
    Along R (Parser.readFuncParameters self ctx func) := by
  unfold Parser.readFuncParameters
  infer_instance

instance readFuncCall (ctx : Context) (func : FuncRecord) :
    Along R (Parser.readFuncCall self ctx func) := by
  unfold Parser.readFuncCall
  infer_instance

instance readIndirectCall (ctx : Context) : Along R (Parser.readIndirectCall self ctx) := by
  unfold Parser.readIndirectCall
  infer_instance

omit keep in
instance elementSize (ctx : Context) (s : Suffix) : Along R (Parser.elementSize ctx s) := by
  unfold Parser.elementSize
  infer_instance

instance readSubscript (ctx : Context) (s : Suffix) :
    Along R (Parser.readSubscript self ctx s) := by
  unfold Parser.readSubscript
  dsimp only
  refine choose (andThen inferInstance fun _ => ?_) ?_
  all_goals
    refine choose (andThen inferInstance fun _ => ?_) ?_
    all_goals infer_instance

instance readMember (ctx : Context) (s : Suffix) : Along R (Parser.readMember ctx s) := by
  unfold Parser.readMember
  dsimp only
  infer_instance

instance readSuffixes (ctx : Context) (fuel : Nat) (s : Suffix) :
    Along R (Parser.readSuffixes self ctx fuel s) := by
  induction fuel generalizing s with
  | zero => exact fail _
  | succ fuel inductionHypothesis =>
      unfold Parser.readSuffixes
      infer_instance

instance readPointerSum (ctx : Context) (s : Suffix) (fuel : Nat) :
    Along R (Parser.readPointerSum self ctx s fuel) := by
  induction fuel with
  | zero => exact fail _
  | succ fuel inductionHypothesis =>
      unfold Parser.readPointerSum
      infer_instance

omit keep in
instance applyPrefixOp (ctx : Context) (lvalue : Lvalue) (prefixOp : Opcode) :
    Along R (Parser.applyPrefixOp ctx lvalue prefixOp) := by
  unfold Parser.applyPrefixOp
  dsimp only
  infer_instance

omit keep in
instance incrementSize (ctx : Context) (lvalue : Lvalue) :
    Along R (Parser.incrementSize ctx lvalue) := by
  unfold Parser.incrementSize
  cases lvalue.type.bind (ctx.types[·]?) <;> dsimp only <;> infer_instance

omit keep in
instance queuePostfixOp (ctx : Context) (lvalue : Lvalue) :
    Along R (Parser.queuePostfixOp ctx lvalue) := by
  unfold Parser.queuePostfixOp
  dsimp only
  infer_instance

instance readValue (ctx : Context) (s : Suffix) (prefixOp : Opcode) :
    Along R (Parser.readValue self ctx s prefixOp) := by
  unfold Parser.readValue
  dsimp only
  infer_instance

instance readLvalue (ctx : Context) (found : Option VarId) (eval : Bool) (prefixOp : Opcode) :
    Along R (Parser.readLvalue self ctx found eval prefixOp) := by
  unfold Parser.readLvalue
  dsimp only
  infer_instance

omit keep in
instance peekVar (ctx : Context) (size : Nat) : Along R (Parser.peekVar ctx size) := by
  unfold Parser.peekVar
  dsimp only
  infer_instance

instance handleAddressOfOperator (ctx : Context) :
    Along R (Parser.handleAddressOfOperator self ctx) := by
  unfold Parser.handleAddressOfOperator
  infer_instance

omit keep in
instance dereferenceValue (ctx : Context) : Along R (Parser.dereferenceValue ctx) := by
  unfold Parser.dereferenceValue
  dsimp only
  infer_instance

omit keep in
instance dereferenceVar (ctx : Context) (lvalue : Lvalue) (type : Option TypeId) (ptr i : Nat)
    (last : Bool) :
    Along R (Parser.dereferenceVar ctx lvalue type ptr i last) := by
  unfold Parser.dereferenceVar
  dsimp only
  infer_instance

instance readBracketed  : Along R (Parser.readBracketed self) := by
  unfold Parser.readBracketed
  infer_instance

instance handleSingleDereference (ctx : Context) :
    Along R (Parser.handleSingleDereference self ctx) := by
  unfold Parser.handleSingleDereference
  infer_instance

omit keep in
instance repeatFrom (i count : Nat) (body : Nat → Parse Unit) [∀ i, Along R (body i)] :
    Along R (Parser.repeatFrom i count body) := by
  induction count generalizing i with
  | zero => exact pure ()
  | succ count inductionHypothesis =>
      unfold Parser.repeatFrom
      infer_instance

instance handleMultipleDereference (ctx : Context) :
    Along R (Parser.handleMultipleDereference self ctx) := by
  unfold Parser.handleMultipleDereference
  infer_instance

omit keep in
instance readSizeofType (ctx : Context) : Along R (Parser.readSizeofType self ctx) := by
  unfold Parser.readSizeofType
  refine andThen inferInstance fun isStruct => ?_
  dsimp only
  split
  all_goals
    refine andThen inferInstance fun isUnion => andThen inferInstance fun token => ?_
    split <;> infer_instance

instance handleSizeofOperator (ctx : Context) :
    Along R (Parser.handleSizeofOperator self ctx) := by
  unfold Parser.handleSizeofOperator
  refine andThen inferInstance fun start => andThen inferInstance fun _ =>
    andThen inferInstance fun named => ?_
  cases named <;> dsimp only <;> infer_instance

omit keep in
instance computeElementAddress (ctx : Context) (baseAddr : VarId) (index : Nat) (elemSize : Int) :
    Along R (Parser.computeElementAddress ctx baseAddr index elemSize) := by
  unfold Parser.computeElementAddress
  infer_instance

instance parseArrayElements (ctx : Context) (var : VarId) (type : Option TypeId) (elemSize : Int)
    (fuel count : Nat) :
    Along R (Parser.parseArrayElements self ctx var type elemSize fuel count) := by
  induction fuel generalizing count with
  | zero => exact fail _
  | succ fuel inductionHypothesis =>
      unfold Parser.parseArrayElements
      infer_instance

instance parseArrayCompoundLiteral (ctx : Context) (var : VarId) :
    Along R (Parser.parseArrayCompoundLiteral self ctx var) := by
  unfold Parser.parseArrayCompoundLiteral
  infer_instance

instance dropFields (fuel : Nat) : Along R (Parser.dropFields self fuel) := by
  induction fuel with
  | zero => exact fail _
  | succ fuel inductionHypothesis =>
      unfold Parser.dropFields
      infer_instance

instance readFirstField (compound : VarId) : Along R (Parser.readFirstField self compound) := by
  unfold Parser.readFirstField
  infer_instance

instance readElements (fuel : Nat) (elements : List VarId) (count : Nat) :
    Along R (Parser.readElements self fuel elements count) := by
  induction fuel generalizing elements count with
  | zero => exact fail _
  | succ fuel inductionHypothesis =>
      unfold Parser.readElements
      infer_instance

omit keep in
instance storeElements (ctx : Context) (compound : VarId) (size : Int) (i : Nat)
    (elements : List VarId) : Along R (Parser.storeElements ctx compound size i elements) := by
  induction elements generalizing i with
  | nil => exact pure ()
  | cons element rest inductionHypothesis =>
      unfold Parser.storeElements
      infer_instance

instance readScalarLiteral (ctx : Context) (compound : VarId) (type : TypeRecord) :
    Along R (Parser.readScalarLiteral self ctx compound type) := by
  unfold Parser.readScalarLiteral
  refine andThen inferInstance fun _ => choose inferInstance ?_
  refine andThen inferInstance fun _ => choose ?_ inferInstance
  refine andThen inferInstance fun _ => andThen inferInstance fun _ => choose ?_ inferInstance
  infer_instance

instance readCompoundLiteral (ctx : Context) (type : TypeId) (ptr : Nat) (isArray : Bool) :
    Along R (Parser.readCompoundLiteral self ctx type ptr isArray) := by
  unfold Parser.readCompoundLiteral
  refine andThen inferInstance fun _ => andThen inferInstance fun compound =>
    andThen inferInstance fun _ => andThen inferInstance fun _ =>
    andThen inferInstance fun record => choose inferInstance ?_
  refine choose inferInstance (choose inferInstance ?_)
  infer_instance

instance countElements (fuel count : Nat) : Along R (Parser.countElements self fuel count) := by
  induction fuel generalizing count with
  | zero => exact fail _
  | succ fuel inductionHypothesis =>
      unfold Parser.countElements
      infer_instance

instance parseArrayLiteralExpr (ctx : Context) :
    Along R (Parser.parseArrayLiteralExpr self ctx) := by
  unfold Parser.parseArrayLiteralExpr
  dsimp only
  infer_instance

instance readBracket (ctx : Context) : Along R (Parser.readBracket self ctx) := by
  unfold Parser.readBracket
  refine andThen inferInstance fun bracketed => ?_
  cases bracketed <;> dsimp only <;> infer_instance

omit keep in
instance pushResult (ctx : Context) (type : Option TypeId) (ptr : Nat) :
    Along R (Parser.pushResult ctx type ptr) := by
  unfold Parser.pushResult
  infer_instance

instance readFunc (ctx : Context) (token : String) (func : FuncRecord) :
    Along R (Parser.readFunc self ctx token func) := by
  unfold Parser.readFunc
  infer_instance

omit keep in
instance readPrefixOp : Along R Parser.readPrefixOp := by
  unfold Parser.readPrefixOp
  infer_instance

instance readNamed (ctx : Context) (token : String) (prefixOp : Opcode) :
    Along R (Parser.readNamed self ctx token prefixOp) := by
  unfold Parser.readNamed
  refine andThen inferInstance fun p => ?_
  cases ctx.constants token <;> dsimp only
  · cases p.findVar ctx token <;> dsimp only
    · cases ctx.funcs token <;> dsimp only <;> infer_instance
    · infer_instance
  · infer_instance

instance readName (ctx : Context) : Along R (Parser.readName self ctx) := by
  unfold Parser.readName
  infer_instance

omit keep in
instance applyUnary (ctx : Context) (op : Opcode) (fold : Word → Word) :
    Along R (Parser.applyUnary ctx op fold) := by
  unfold Parser.applyUnary
  infer_instance

instance readBehindSign (ctx : Context) (isNeg : Bool) :
    Along R (Parser.readBehindSign self ctx isNeg) := by
  unfold Parser.readBehindSign
  refine andThen inferInstance fun _ => choose inferInstance ?_
  refine andThen inferInstance fun _ => choose inferInstance ?_
  refine andThen inferInstance fun _ => choose inferInstance ?_
  refine andThen inferInstance fun _ => choose inferInstance ?_
  refine andThen inferInstance fun _ => choose inferInstance ?_
  refine andThen inferInstance fun _ => choose inferInstance ?_
  refine andThen inferInstance fun _ => choose inferInstance ?_
  infer_instance

instance readExprOperand (ctx : Context) : Along R (Parser.readExprOperand self ctx) := by
  unfold Parser.readExprOperand
  dsimp only
  infer_instance

/-! ## Operators -/

omit keep in
instance subtractPointers (ctx : Context) (rs1 rs2 : VarId) (elementSize : Int) :
    Along R (Parser.subtractPointers ctx rs1 rs2 elementSize) := by
  unfold Parser.subtractPointers
  infer_instance

omit keep in
instance addScaled (ctx : Context) (op : Opcode) (ptrVar intVar : VarId) :
    Along R (Parser.addScaled ctx op ptrVar intVar) := by
  unfold Parser.addScaled
  dsimp only
  infer_instance

omit keep in
instance handlePointerArithmetic (ctx : Context) (op : Opcode) (rs1 rs2 : VarId) :
    Along R (Parser.handlePointerArithmetic ctx op rs1 rs2) := by
  unfold Parser.handlePointerArithmetic
  dsimp only
  infer_instance

omit keep in
instance applyOperator (ctx : Context) (op : Opcode) : Along R (Parser.applyOperator ctx op) := by
  unfold Parser.applyOperator
  infer_instance

omit keep in
instance scalarizeOperands (ctx : Context) (rs1 rs2 : VarId) :
    Along R (Parser.scalarizeOperands ctx rs1 rs2) := by
  unfold Parser.scalarizeOperands
  infer_instance

omit keep in
instance finishOperator (ctx : Context) (op : Opcode) : Along R (Parser.finishOperator ctx op) := by
  unfold Parser.finishOperator
  refine andThen inferInstance fun rs2 => andThen inferInstance fun rs1 =>
    andThen inferInstance fun first => andThen inferInstance fun second => ?_
  refine choose inferInstance ?_
  refine andThen inferInstance fun operands => andThen inferInstance fun first =>
    andThen inferInstance fun second => ?_
  have push (folded : Option Word) : Along R (match folded with
      | some result => Parser.pushConstant ctx result
      | none => Parser.pushTemp ctx fun vd =>
          { opcode := op, rd := some vd, rs1 := some operands.1, rs2 := some operands.2 }) := by
    cases folded <;> dsimp only <;> infer_instance
  cases foldBinary op first.initVal second.initVal <;> dsimp only <;> infer_instance

omit keep in
instance pushOperator (op : Opcode) (s : Operators) : Along R (Parser.pushOperator op s) := by
  unfold Parser.pushOperator
  infer_instance

omit keep in
instance applyStronger (ctx : Context) (op : Opcode) (operStack : List Opcode) :
    Along R (Parser.applyStronger ctx op operStack) := by
  induction operStack with
  | nil => exact pure _
  | cons topOp rest inductionHypothesis =>
      unfold Parser.applyStronger
      infer_instance

omit keep in
instance finishOperators (ctx : Context) (operStack : List Opcode) :
    Along R (Parser.finishOperators ctx operStack) := by
  induction operStack with
  | nil => exact pure _
  | cons topOp rest inductionHypothesis =>
      unfold Parser.finishOperators
      infer_instance

/-! ## Operators and question marks -/

section

variable {R : Parsing → Parsing → Prop} [kept : KeptAny R]

instance getOperator : Along R Parser.getOperator where
  along {p _ _} ran := by
    unfold Parser.getOperator at ran
    split at ran <;> cases ran <;> exact kept.move _ _

instance (priority := low) lexAcceptAny (kind : TokenKind) : Along R (Parser.lexAccept kind) where
  along {p _ _} ran := by
    unfold Parser.lexAccept at ran
    split at ran <;> cases ran <;> exact kept.move _ _

end

end Along

/-! ## Blocks -/

namespace Along

variable {R : Parsing → Parsing → Prop} [kept : KeptBlocks R] {self : Readers}
    [keep : KeptBy R self]

omit keep in
instance bbCreate : Along R Parser.bbCreate where
  along ran := by
    cases ran
    exact kept.create _

omit keep in
instance bbConnect (pred succ : BlockId) (type : Connection) :
    Along R (Parser.bbConnect pred succ type) where
  along {p _ _} ran := by
    unfold Parser.bbConnect at ran
    split at ran <;> cases ran
    exact kept.connect _ _ _ _

omit keep in
instance addInsn (bb : BlockId) (insn : Insn) : Along R (Parser.addInsn bb insn) where
  along {p _ _} ran := by
    unfold Parser.addInsn at ran
    dsimp only at ran
    split at ran
    · split at ran <;> cases ran
      · exact kept.trans (kept.insn _ _ _) (kept.modifyVar _ _ _)
      · exact kept.insn _ _ _
    · cases ran
      exact kept.insn _ _ _

omit keep in
instance enter (bb : BlockId) : Along R (modify fun p => { p with bb := bb } : Parse Unit) where
  along ran := by
    cases ran
    exact kept.enter _ _

omit keep in
instance readLogical (op : Opcode) : Along R (Parser.readLogical op) := by
  unfold Parser.readLogical
  infer_instance

omit keep in
instance connectLogical (op : Opcode) (bb sharedBb other end_ : BlockId) :
    Along R (Parser.connectLogical op bb sharedBb other end_) := by
  unfold Parser.connectLogical
  infer_instance

omit keep in
instance loadTruth (ctx : Context) (bb : BlockId) (value : Bool) :
    Along R (Parser.loadTruth ctx bb value) := by
  unfold Parser.loadTruth
  infer_instance

omit keep in
instance finalizeLogical (ctx : Context) (op : Opcode) (sharedBb : BlockId) :
    Along R (Parser.finalizeLogical ctx op sharedBb) := by
  unfold Parser.finalizeLogical
  dsimp only
  infer_instance

omit keep in
instance testOperand (op : Opcode) (s : Operators) : Along R (Parser.testOperand op s) := by
  unfold Parser.testOperand
  dsimp only
  infer_instance

omit keep in
instance readLogicalOperator (ctx : Context) (op : Opcode) (s : Operators) :
    Along R (Parser.readLogicalOperator ctx op s) := by
  unfold Parser.readLogicalOperator
  infer_instance

omit keep in
instance finalizeOnce (ctx : Context) (s : Operators) : Along R (Parser.finalizeOnce ctx s) := by
  unfold Parser.finalizeOnce
  infer_instance

omit keep in
instance finalizeStronger (ctx : Context) (op : Opcode) (s : Operators) :
    Along R (Parser.finalizeStronger ctx op s) := by
  unfold Parser.finalizeStronger
  dsimp only
  infer_instance

omit keep in
instance finalizeAll (ctx : Context) (s : Operators) : Along R (Parser.finalizeAll ctx s) := by
  unfold Parser.finalizeAll
  infer_instance

variable [any : KeptAny R]

instance readOperators (ctx : Context) (fuel : Nat) (op : Opcode) (s : Operators) :
    Along R (Parser.readOperators self ctx fuel op s) := by
  induction fuel generalizing op s with
  | zero => exact fail _
  | succ fuel inductionHypothesis =>
      unfold Parser.readOperators
      dsimp only
      infer_instance

instance readExpr (ctx : Context) : Along R (Parser.readExpr self ctx) := by
  unfold Parser.readExpr
  dsimp only
  infer_instance

omit any in
instance readSide (bb side : BlockId) (type : Connection) :
    Along R (Parser.readSide self bb side type) := by
  unfold Parser.readSide
  dsimp only
  infer_instance

omit keep any in
instance scalarizeSide (ctx : Context) (side : BlockId) (val : VarId) (hintType : Option TypeId)
    (needsScalar : Bool) :
    Along R (Parser.scalarizeSide ctx side val hintType needsScalar) := by
  unfold Parser.scalarizeSide
  infer_instance

omit keep any in
instance joinSides (ctx : Context) (then_ else_ : BlockId) (trueVal falseVal : VarId) :
    Along R (Parser.joinSides ctx then_ else_ trueVal falseVal) := by
  unfold Parser.joinSides
  dsimp only
  infer_instance

omit any in
instance readConditional (ctx : Context) : Along R (Parser.readConditional self ctx) := by
  unfold Parser.readConditional
  dsimp only
  infer_instance

instance readTernaryOperation (ctx : Context) : Along R (Parser.readTernaryOperation self ctx) := by
  unfold Parser.readTernaryOperation
  infer_instance

end Along

/-- What every step keeps, the readers keep. -/
instance readers_keptBy {R : Parsing → Parsing → Prop} [KeptBlocks R] [KeptAny R] (ctx : Context)
    (fuel : Nat) :
    KeptBy R (readers ctx fuel) := by
  induction fuel with
  | zero => exact ⟨Along.fail _, Along.fail _, Along.fail _⟩
  | succ fuel inductionHypothesis =>
      exact ⟨Along.readExpr ctx, Along.readExprOperand ctx, Along.readTernaryOperation ctx⟩

end Shecc.Parser
