import Shecc.Parser.Growth

/-!
# Where reading an expression writes

A reader that starts in one block adds code to that block and to blocks it makes
itself, and lets control go from these to blocks it made. Every other block is
left as it is.
-/

namespace Shecc.Parser

open Shecc.Preprocessor (Token TokenKind SourceLocation Cursor)

namespace Parsing

theorem block_modifyBlock (p : Parsing) (bb i : BlockId) (change : BasicBlock → BasicBlock) :
    (p.modifyBlock bb change).block i =
      if bb = i ∧ i < p.blocks.length then change (p.block i) else p.block i := by
  unfold modifyBlock block
  by_cases here : bb = i
  · subst here
    by_cases inside : bb < p.blocks.length <;> simp [inside, List.getD_eq_getElem?_getD]
  · simp [here, List.getD_eq_getElem?_getD]

theorem block_modifyBlock_ne (p : Parsing) {bb i : BlockId} (change : BasicBlock → BasicBlock)
    (different : bb ≠ i) : (p.modifyBlock bb change).block i = p.block i := by
  rw [block_modifyBlock, if_neg fun here => different here.1]

@[simp]
theorem length_modifyBlock (p : Parsing) (bb : BlockId) (change : BasicBlock → BasicBlock) :
    (p.modifyBlock bb change).blocks.length = p.blocks.length := by
  simp [modifyBlock]

@[simp]
theorem bb_modifyBlock (p : Parsing) (bb : BlockId) (change : BasicBlock → BasicBlock) :
    (p.modifyBlock bb change).bb = p.bb := rfl

/-- A new block is what an unknown name stands for. -/
@[simp]
theorem block_create (p : Parsing) (i : BlockId) :
    ({ p with blocks := p.blocks ++ [.new] } : Parsing).block i = p.block i := by
  unfold block
  by_cases inside : i < p.blocks.length
  · simp [List.getD_eq_getElem?_getD, List.getElem?_append_left inside]
  · rw [List.getD_eq_getElem?_getD, List.getD_eq_getElem?_getD,
      List.getElem?_append_right (Nat.le_of_not_lt inside),
      List.getElem?_eq_none (Nat.le_of_not_lt inside)]
    cases i - p.blocks.length <;> simp

end Parsing

@[simp]
theorem BasicBlock.connect_insns (block : BasicBlock) (succ : BlockId) (type : Connection) :
    (block.connect succ type).insns = block.insns := by
  cases type <;> rfl

theorem BasicBlock.mem_connect_successors {block : BasicBlock} {succ other : BlockId}
    {type : Connection} (edge : other ∈ (block.connect succ type).successors) :
    other ∈ block.successors ∨ other = succ := by
  cases type <;> simp only [connect, Block.successors, List.mem_append,
    Option.mem_toList] at edge ⊢ <;> grind

theorem BasicBlock.connect_next (block : BasicBlock) (succ : BlockId) {type : Connection}
    (other : type ≠ .next) : (block.connect succ type).next = block.next := by
  cases type with
  | next => exact absurd rfl other
  | then_ => rfl
  | else_ => rfl

section

variable (n : Nat) (b : BlockId)

/-- A block that a reader writes to which starts in `b` when there are `n` blocks. -/
def Allowed (i : BlockId) : Prop := i = b ∨ n ≤ i

/-- The parser is where such a reader may be. -/
structure Inside (p : Parsing) : Prop where
  length : n ≤ p.blocks.length
  bb : Allowed n b p.bb

/-- What such a reader may have done. -/
structure Extends (p p' : Parsing) : Prop where
  length : p.blocks.length ≤ p'.blocks.length
  insns : ∀ i, (p.block i).insns <+: (p'.block i).insns
  frame : ∀ i, ¬Allowed n b i → p'.block i = p.block i
  edges : ∀ i succ, Allowed n b i → succ ∈ (p'.block i).successors →
    succ ∈ (p.block i).successors ∨ n ≤ succ
  next : b < n → (p'.block b).next = (p.block b).next

/-- A computation that only does so, and its value meets `post`. -/
structure Confines {α : Type} (step : Parse α) (post : α → Prop) : Prop where
  keeps : ∀ {p p' : Parsing} {value : α}, step p = .ok (value, p') → Inside n b p →
    Inside n b p' ∧ Extends n b p p' ∧ post value

/-- The relation between the states. -/
def Confined (p p' : Parsing) : Prop := Inside n b p → Inside n b p' ∧ Extends n b p p'

end

section Frame

variable {n : Nat} {b : BlockId}

theorem Extends.refl (p : Parsing) : Extends n b p p where
  length := le_rfl
  insns _ := List.prefix_rfl
  frame _ _ := rfl
  edges _ _ _ edge := .inl edge
  next _ := rfl

theorem Extends.trans {p q r : Parsing} (first : Extends n b p q) (second : Extends n b q r) :
    Extends n b p r where
  length := first.length.trans second.length
  insns i := (first.insns i).trans (second.insns i)
  frame i outside := (second.frame i outside).trans (first.frame i outside)
  edges i succ allowed edge := by
    rcases second.edges i succ allowed edge with edge | fresh
    · exact first.edges i succ allowed edge
    · exact .inr fresh
  next old := (second.next old).trans (first.next old)

/-- States with the same blocks. -/
theorem confined_of_same {p p' : Parsing} (blocks : p'.blocks = p.blocks) (bb : p'.bb = p.bb) :
    Confined n b p p' := by
  intro inside
  have same (i : BlockId) : p'.block i = p.block i := by
    unfold Parsing.block
    rw [blocks]
  exact ⟨⟨blocks ▸ inside.length, bb ▸ inside.bb⟩, {
    length := by rw [blocks]
    insns := fun i => by rw [same]
    frame := fun i _ => same i
    edges := fun i succ _ edge => .inl (same i ▸ edge)
    next := fun _ => by rw [same] }⟩

/-- More code in an allowed block. -/
theorem Extends.insn (p : Parsing) {bb : BlockId} (insn : Insn) (allowed : Allowed n b bb) :
    Extends n b p
      (p.modifyBlock bb fun block => { block with insns := block.insns ++ [insn] }) where
  length := by simp
  insns i := by
    rw [Parsing.block_modifyBlock]
    split
    · exact List.prefix_append _ _
    · exact List.prefix_rfl
  frame i outside := Parsing.block_modifyBlock_ne p _ fun here => outside (here ▸ allowed)
  edges i succ _ edge := by
    rw [Parsing.block_modifyBlock] at edge
    split at edge <;> exact .inl edge
  next _ := by
    rw [Parsing.block_modifyBlock]
    split <;> rfl

instance : KeptAny (Confined n b) where
  refl p inside := ⟨inside, .refl p⟩
  trans first second inside := by
    rcases first inside with ⟨inside, before⟩
    rcases second inside with ⟨inside, behind⟩
    exact ⟨inside, before.trans behind⟩
  skip p cur _ := confined_of_same rfl rfl
  move p cur := confined_of_same rfl rfl
  rodata p rodata := confined_of_same rfl rfl
  withVar p record := confined_of_same rfl rfl
  modifyVar p v change := confined_of_same rfl rfl
  name p idx := confined_of_same rfl rfl
  operands p stack := confined_of_same rfl rfl
  queue p insn := confined_of_same rfl rfl
  emit p insn inside :=
    ⟨⟨by simpa using inside.length, inside.bb⟩, .insn p insn inside.bb⟩

/-! ## The steps on blocks -/

namespace Confines

variable {α β : Type} {step : Parse α} {rest : α → Parse β} {post : α → Prop}
  {post' : β → Prop}

theorem of_along (along : Along (Confined n b) step) : Confines n b step fun _ => True := by
  constructor
  intro p p' value ran inside
  rcases along.along ran inside with ⟨inside, extends_⟩
  exact ⟨inside, extends_, trivial⟩

theorem along (confines : Confines n b step post) : Along (Confined n b) step where
  along ran inside := by
    rcases confines.keeps ran inside with ⟨inside, extends_, -⟩
    exact ⟨inside, extends_⟩

theorem bind (first : Confines n b step post)
    (second : ∀ value, post value → Confines n b (rest value) post') :
    Confines n b (step >>= rest) post' := by
  constructor
  intro p p' result ran inside
  rcases Parse.bind_eq_ok_iff.mp ran with ⟨value, middle, before, behind⟩
  rcases first.keeps before inside with ⟨inside, extends_, known⟩
  rcases (second value known).keeps behind inside with ⟨inside, further, known⟩
  exact ⟨inside, extends_.trans further, known⟩

/-- A step of the readers of operands, and what follows it. -/
theorem along_bind [along : Along (Confined n b) step]
    (second : ∀ value, Confines n b (rest value) post') : Confines n b (step >>= rest) post' :=
  (of_along along).bind fun value _ => second value

theorem pure {value : α} (known : post value) : Confines n b (Pure.pure value) post := by
  constructor
  intro p p' result ran inside
  cases ran
  exact ⟨inside, .refl _, known⟩

theorem ite {condition : Prop} [Decidable condition] {other : Parse α}
    (first : condition → Confines n b step post) (second : ¬condition → Confines n b other post) :
    Confines n b (if condition then step else other) post := by
  split
  case isTrue holds => exact first holds
  case isFalse fails => exact second fails

theorem get : Confines n b (get : Parse Parsing) fun p => Allowed n b p.bb := by
  constructor
  intro p p' value ran inside
  cases ran
  exact ⟨inside, .refl _, inside.bb⟩

theorem bbCreate : Confines n b Parser.bbCreate fun bb => n ≤ bb := by
  constructor
  intro p p' value ran inside
  cases ran
  refine ⟨⟨?_, inside.bb⟩, ?_, inside.length⟩
  · simpa using Nat.le_succ_of_le inside.length
  · exact {
      length := by simp
      insns := fun i => by simp
      frame := fun i _ => by simp
      edges := fun i succ _ edge => .inl (by simpa using edge)
      next := fun _ => by simp }

theorem enter {bb : BlockId} (allowed : Allowed n b bb) :
    Confines n b (modify fun p => { p with bb := bb } : Parse Unit) fun _ => True := by
  constructor
  intro p p' value ran inside
  cases ran
  exact ⟨⟨inside.length, allowed⟩, ⟨le_rfl, fun _ => List.prefix_rfl, fun _ _ => rfl,
    fun _ _ _ edge => .inl edge, fun _ => rfl⟩, trivial⟩

theorem addInsn {bb : BlockId} (insn : Insn) (allowed : Allowed n b bb) :
    Confines n b (Parser.addInsn bb insn) fun _ => True := by
  constructor
  intro p p' value ran inside
  have extends_ := Extends.insn p insn allowed
  have inside' : Inside n b (p.modifyBlock bb fun block =>
      { block with insns := block.insns ++ [insn] }) := ⟨by simpa using inside.length, inside.bb⟩
  unfold Parser.addInsn at ran
  dsimp only at ran
  split at ran
  · split at ran <;> cases ran
    · rcases (inferInstance : Kept (Confined n b)).modifyVar _ _ _ inside' with ⟨inside'', same⟩
      exact ⟨inside'', extends_.trans same, trivial⟩
    · exact ⟨inside', extends_, trivial⟩
  · cases ran
    exact ⟨inside', extends_, trivial⟩

/-- A new block becomes the successor of an allowed one; an old block gets no `NEXT` successor. -/
theorem bbConnect {pred succ : BlockId} {type : Connection} (allowed : Allowed n b pred)
    (fresh : n ≤ succ) (made : type = .next → n ≤ pred) :
    Confines n b (Parser.bbConnect pred succ type) fun _ => True := by
  constructor
  intro p p' value ran inside
  unfold Parser.bbConnect at ran
  split at ran <;> cases ran
  refine ⟨⟨by simpa using inside.length, inside.bb⟩, ?_, trivial⟩
  constructor
  case length => simp
  case insns =>
    intro i
    rw [Parsing.block_modifyBlock, Parsing.block_modifyBlock]
    split <;> split <;> simp
  case frame =>
    intro i outside
    have notPred : pred ≠ i := by
      rintro rfl
      exact outside allowed
    have notSucc : succ ≠ i := by
      rintro rfl
      exact outside (.inr fresh)
    rw [Parsing.block_modifyBlock_ne _ _ notPred, Parsing.block_modifyBlock_ne _ _ notSucc]
  case edges =>
    intro i other _ edge
    rw [Parsing.block_modifyBlock, Parsing.block_modifyBlock] at edge
    split at edge
    · rcases BasicBlock.mem_connect_successors edge with edge | rfl
      · left
        split at edge <;> exact edge
      · exact .inr fresh
    · left
      split at edge <;> exact edge
  case next =>
    intro old
    rw [Parsing.block_modifyBlock, Parsing.block_modifyBlock]
    by_cases here : pred = b ∧ b < (p.modifyBlock succ fun block =>
        { block with prev := block.prev ++ [(pred, type)] }).blocks.length
    · have notNext : type ≠ .next := by
        intro isNext
        have new := made isNext
        rw [here.1] at new
        exact Nat.not_le_of_lt old new
      rw [if_pos here, BasicBlock.connect_next _ _ notNext]
      split <;> rfl
    · rw [if_neg here]
      split <;> rfl

theorem connectThen {pred succ : BlockId} (allowed : Allowed n b pred) (fresh : n ≤ succ) :
    Confines n b (Parser.bbConnect pred succ .then_) fun _ => True :=
  bbConnect allowed fresh nofun

theorem connectElse {pred succ : BlockId} (allowed : Allowed n b pred) (fresh : n ≤ succ) :
    Confines n b (Parser.bbConnect pred succ .else_) fun _ => True :=
  bbConnect allowed fresh nofun

theorem connectNext {pred succ : BlockId} (new : n ≤ pred) (fresh : n ≤ succ) :
    Confines n b (Parser.bbConnect pred succ .next) fun _ => True :=
  bbConnect (.inr new) fresh fun _ => new

end Confines

/-! ## Logical operators -/

/-- The blocks the operands share are new. -/
structure Operators.Fresh (n : Nat) (s : Operators) : Prop where
  logAnd : n ≤ s.logAndSharedBb
  logOr : n ≤ s.logOrSharedBb

theorem Operators.Fresh.shared {s : Operators} (fresh : s.Fresh n) (op : Opcode) :
    n ≤ s.shared op := by
  unfold Operators.shared
  split
  · exact fresh.logAnd
  · exact fresh.logOr

namespace Confines

theorem readLogical (op : Opcode) : Confines n b (Parser.readLogical op) fun _ => True := by
  unfold Parser.readLogical
  refine along_bind fun vd => along_bind fun _ => bbCreate.bind fun newBb fresh =>
    get.bind fun p allowed => ?_
  refine (bbConnect allowed fresh fun isNext => ?_).bind fun _ _ => enter (.inr fresh)
  split at isNext <;> cases isNext

theorem testOperand (op : Opcode) {s : Operators} (fresh : s.Fresh n) :
    Confines n b (Parser.testOperand op s) fun _ => True := by
  unfold Parser.testOperand
  refine get.bind fun p allowed => ?_
  refine (bbConnect allowed (fresh.shared op) fun isNext => ?_).bind fun _ _ => readLogical op
  split at isNext <;> cases isNext

theorem connectLogical (op : Opcode) {bb sharedBb other end_ : BlockId}
    (allowed : Allowed n b bb) (shared : n ≤ sharedBb) (fresh : n ≤ other) (last : n ≤ end_) :
    Confines n b (Parser.connectLogical op bb sharedBb other end_) fun _ => True := by
  unfold Parser.connectLogical
  refine ite (fun _ => ?_) fun _ => ?_
  · exact (connectThen allowed fresh).bind fun _ _ => (connectElse allowed shared).bind fun _ _ =>
      (connectNext fresh last).bind fun _ _ => connectNext shared last
  · exact (connectThen allowed shared).bind fun _ _ => (connectElse allowed fresh).bind fun _ _ =>
      (connectNext shared last).bind fun _ _ => connectNext fresh last

theorem loadTruth (ctx : Context) {bb : BlockId} (allowed : Allowed n b bb) (value : Bool) :
    Confines n b (Parser.loadTruth ctx bb value) fun _ => True := by
  unfold Parser.loadTruth
  exact along_bind fun vd => (addInsn _ allowed).bind fun _ _ => pure trivial

theorem finalizeLogical (ctx : Context) (op : Opcode) {sharedBb : BlockId}
    (shared : n ≤ sharedBb) :
    Confines n b (Parser.finalizeLogical ctx op sharedBb) fun _ => True := by
  unfold Parser.finalizeLogical
  refine get.bind fun p allowed => bbCreate.bind fun end_ last => bbCreate.bind fun other fresh =>
    ?_
  refine (connectLogical op allowed shared fresh last).bind fun _ _ => along_bind fun vd => ?_
  refine (addInsn _ allowed).bind fun _ _ => (loadTruth ctx (.inr fresh) _).bind fun vd _ => ?_
  refine along_bind fun logOpRes => (addInsn _ (.inr fresh)).bind fun _ _ => ?_
  refine (loadTruth ctx (.inr shared) _).bind fun vd _ => (addInsn _ (.inr shared)).bind fun _ _ =>
    ?_
  exact along_bind fun _ => along_bind fun _ => enter (.inr last)

theorem readLogicalOperator (ctx : Context) (op : Opcode) {s : Operators}
    (fresh : s.Fresh n) :
    Confines n b (Parser.readLogicalOperator ctx op s) (Operators.Fresh n) := by
  unfold Parser.readLogicalOperator
  refine ite (fun _ => ?_) fun _ => ite (fun _ => ?_) fun _ => ?_
  · exact (testOperand op fresh).bind fun _ _ => pure ⟨fresh.logAnd, fresh.logOr⟩
  · exact (finalizeLogical ctx _ fresh.logAnd).bind fun _ _ => bbCreate.bind fun _ new =>
      (testOperand op fresh).bind fun _ _ => pure ⟨new, fresh.logOr⟩
  · exact (testOperand op fresh).bind fun _ _ => pure ⟨fresh.logAnd, fresh.logOr⟩

theorem pushOperator (op : Opcode) {s : Operators} (fresh : s.Fresh n) :
    Confines n b (Parser.pushOperator op s) (Operators.Fresh n) := by
  unfold Parser.pushOperator
  refine ite (fun _ => pure ⟨fresh.logAnd, fresh.logOr⟩) fun _ => ⟨nofun⟩

theorem finalizeOnce (ctx : Context) {s : Operators} (fresh : s.Fresh n) :
    Confines n b (Parser.finalizeOnce ctx s) (Operators.Fresh n) := by
  unfold Parser.finalizeOnce
  exact (finalizeLogical ctx _ (fresh.shared _)).bind fun _ _ =>
    pure ⟨fresh.logAnd, fresh.logOr⟩

theorem finalizeStronger (ctx : Context) (op : Opcode) {s : Operators}
    (fresh : s.Fresh n) :
    Confines n b (Parser.finalizeStronger ctx op s) (Operators.Fresh n) := by
  unfold Parser.finalizeStronger
  have round {s : Operators} (fresh : s.Fresh n) : Confines n b (do
      let finalized ← Parser.finalizeOnce ctx s
      let new ← Parser.bbCreate
      if s.prevLogOp = .logAnd then Pure.pure { finalized with logAndSharedBb := new }
      else Pure.pure { finalized with logOrSharedBb := new }) (Operators.Fresh n) :=
    (finalizeOnce ctx fresh).bind fun _ kept => bbCreate.bind fun _ new =>
      ite (fun _ => pure ⟨new, kept.logOr⟩) fun _ => pure ⟨kept.logAnd, new⟩
  refine ite (fun _ => (round fresh).bind fun s kept => ?_) fun _ => pure fresh
  exact ite (fun _ => round kept) fun _ => pure kept

theorem finalizeAll (ctx : Context) {s : Operators} (fresh : s.Fresh n) :
    Confines n b (Parser.finalizeAll ctx s) fun _ => True := by
  unfold Parser.finalizeAll
  refine ite (fun _ => (finalizeOnce ctx fresh).bind fun s kept => ?_) fun _ => pure trivial
  exact ite (fun _ => (finalizeOnce ctx kept).bind fun _ _ => pure trivial) fun _ => pure trivial

end Confines

/-! ## The readers -/

/-- A reader that starts in a new block keeps what one that starts in an old block keeps. -/
theorem Extends.of_new {side : BlockId} {p p' : Parsing} (new : n ≤ side)
    (extends_ : Extends n side p p') : Extends n b p p' where
  length := extends_.length
  insns := extends_.insns
  frame i outside := by
    refine extends_.frame i fun allowed => outside (.inr ?_)
    rcases allowed with rfl | allowed
    · exact new
    · exact allowed
  edges i succ allowed edge := by
    by_cases inSide : Allowed n side i
    · exact extends_.edges i succ inSide edge
    · rw [extends_.frame i inSide] at edge
      exact .inl edge
  next old := by
    rw [extends_.frame b]
    rintro (rfl | allowed)
    · exact Nat.not_le_of_lt old new
    · exact Nat.not_le_of_lt old allowed

namespace Confines

variable {self : Readers}

/-- A side of a conditional expression that starts in a new block ends in one. -/
theorem readSide [keep : ∀ b, KeptBy (Confined n b) self] {bb side : BlockId} {type : Connection}
    (allowed : Allowed n b bb) (new : n ≤ side) (notNext : type ≠ .next) :
    Confines n b (Parser.readSide self bb side type) fun last => n ≤ last := by
  constructor
  intro p p' last ran inside
  unfold Parser.readSide at ran
  rcases Parse.bind_eq_ok_iff.mp ran with ⟨⟨⟩, entered, ranEnter, ran⟩
  rcases Parse.bind_eq_ok_iff.mp ran with ⟨⟨⟩, middle, ranExpr, ran⟩
  rcases (enter (b := b) (.inr new)).keeps ranEnter inside with ⟨insideEntered, first, -⟩
  have start : Inside n side entered := by
    cases ranEnter
    exact ⟨inside.length, .inl rfl⟩
  rcases (keep side).expr.along ranExpr start with ⟨insideMiddle, second⟩
  have bbNew : n ≤ middle.bb := by
    rcases insideMiddle.bb with same | fresh
    · exact same ▸ new
    · exact fresh
  have insideMiddle : Inside n b middle := ⟨insideMiddle.length, .inr bbNew⟩
  rcases Parse.bind_eq_ok_iff.mp ran with ⟨_, _, ranGet, ran⟩
  cases ranGet
  rcases Parse.bind_eq_ok_iff.mp ran with ⟨⟨⟩, connected, ranConnect, ran⟩
  cases ran
  rcases (bbConnect allowed bbNew fun isNext => absurd isNext notNext).keeps ranConnect
    insideMiddle with ⟨inside, third, -⟩
  exact ⟨inside, (first.trans (.of_new new second)).trans third, bbNew⟩

variable [keep : KeptBy (Confined n b) self]

theorem readOperators (ctx : Context) (fuel : Nat) (op : Opcode) {s : Operators}
    (fresh : s.Fresh n) :
    Confines n b (Parser.readOperators self ctx fuel op s) (Operators.Fresh n) := by
  induction fuel generalizing op s with
  | zero => exact ⟨nofun⟩
  | succ fuel inductionHypothesis =>
      unfold Parser.readOperators
      refine ite (fun _ => pure fresh) fun _ => ?_
      refine along_bind fun operStack => ?_
      have kept : (Operators.mk operStack s.hasPrevLogOp s.prevLogOp s.pprevLogOp
          s.logAndSharedBb s.logOrSharedBb).Fresh n := ⟨fresh.logAnd, fresh.logOr⟩
      have onward (s : Operators) (fresh : s.Fresh n) : Confines n b (do
          let op ← getOperator
          Parser.readOperators self ctx fuel op s) (Operators.Fresh n) :=
        along_bind fun op => inductionHypothesis op fresh
      have pushed (s : Operators) (fresh : s.Fresh n) : Confines n b (if isLogical op = true then
          Pure.pure s >>= fun s => do
            let op ← getOperator
            Parser.readOperators self ctx fuel op s
        else Parser.pushOperator op s >>= fun s => do
            let op ← getOperator
            Parser.readOperators self ctx fuel op s) (Operators.Fresh n) :=
        ite (fun _ => (pure fresh).bind onward) fun _ => (pushOperator op fresh).bind onward
      exact ite (fun _ => (readLogicalOperator ctx op kept).bind fun s fresh =>
          along_bind fun _ => pushed s fresh)
        fun _ => (finalizeStronger ctx op kept).bind fun s fresh =>
          along_bind fun _ => pushed s fresh

theorem readExpr (ctx : Context) :
    Confines n b (Parser.readExpr self ctx) fun _ => True := by
  unfold Parser.readExpr
  refine bbCreate.bind fun logAnd newAnd => bbCreate.bind fun logOr newOr => ?_
  refine along_bind fun _ => along_bind fun op => ite (fun _ => ?_) fun _ => pure trivial
  have onward (s : Operators) (fresh : s.Fresh n) : Confines n b (do
      self.readExprOperand
      let op ← getOperator
      let s ← Parser.readOperators self ctx self.fuel op s
      Parser.finishOperators ctx s.operStack
      Parser.finalizeAll ctx s) fun _ => True := by
    refine along_bind fun _ => along_bind fun op => ?_
    refine (readOperators ctx self.fuel op fresh).bind fun s fresh => ?_
    exact along_bind fun _ => finalizeAll ctx fresh
  have fresh : (Operators.mk [] false .generic .generic logAnd logOr).Fresh n := ⟨newAnd, newOr⟩
  refine ite (fun _ => ?_) fun _ => (pushOperator op fresh).bind onward
  refine (testOperand op fresh).bind fun _ _ => Confines.bind ?_ onward
  exact pure ⟨newAnd, newOr⟩

omit keep in
theorem scalarizeSide (ctx : Context) {side : BlockId} (new : n ≤ side) (val : VarId)
    (hintType : Option TypeId) (needsScalar : Bool) :
    Confines n b (Parser.scalarizeSide ctx side val hintType needsScalar) fun _ => True := by
  unfold Parser.scalarizeSide
  exact (enter (.inr new)).bind fun _ _ => of_along inferInstance

omit keep in
theorem joinSides (ctx : Context) {then_ else_ : BlockId} (newThen : n ≤ then_)
    (newElse : n ≤ else_) (trueVal falseVal : VarId) :
    Confines n b (Parser.joinSides ctx then_ else_ trueVal falseVal) fun _ => True := by
  unfold Parser.joinSides
  refine along_bind fun trueRecord => along_bind fun falseRecord => ?_
  refine (scalarizeSide ctx newThen _ _ _).bind fun trueVal _ => along_bind fun trueScalar => ?_
  refine (scalarizeSide ctx newElse _ _ _).bind fun falseVal _ => along_bind fun falseScalar => ?_
  refine along_bind fun vd => (addInsn _ (.inr newThen)).bind fun _ _ => ?_
  exact (addInsn _ (.inr newElse)).bind fun _ _ => of_along inferInstance

omit keep in
theorem readConditional [∀ b, KeptBy (Confined n b) self] (ctx : Context) :
    Confines n b (Parser.readConditional self ctx) fun _ => True := by
  unfold Parser.readConditional
  refine get.bind fun p allowed => along_bind fun vd => along_bind fun _ => ?_
  refine bbCreate.bind fun then_ newThen => bbCreate.bind fun else_ newElse => ?_
  refine bbCreate.bind fun end_ newEnd => (connectNext newThen newEnd).bind fun _ _ => ?_
  refine (connectNext newElse newEnd).bind fun _ _ => ?_
  have isThen : Connection.then_ ≠ .next := nofun
  have isElse : Connection.else_ ≠ .next := nofun
  refine (readSide allowed newThen isThen).bind fun then_ newThen => along_bind fun colon => ?_
  refine ite (fun _ => along_bind fun trueVal => ?_) fun _ => ⟨nofun⟩
  refine (readSide allowed newElse isElse).bind fun else_ newElse => along_bind fun falseVal => ?_
  exact (joinSides ctx newThen newElse _ _).bind fun _ _ => enter (.inr newEnd)

omit keep in
theorem readTernaryOperation [∀ b, KeptBy (Confined n b) self] (ctx : Context) :
    Confines n b (Parser.readTernaryOperation self ctx) fun _ => True := by
  unfold Parser.readTernaryOperation
  exact along_bind fun _ => ite (fun _ => readConditional ctx) fun _ => pure trivial

end Confines

/-- Reading only writes to the block it starts in and to new ones. -/
instance readers_confined (ctx : Context) (fuel : Nat) (b : BlockId) :
    KeptBy (Confined n b) (readers ctx fuel) := by
  induction fuel generalizing b with
  | zero => exact ⟨Along.fail _, Along.fail _, Along.fail _⟩
  | succ fuel inductionHypothesis =>
      exact ⟨(Confines.readExpr ctx).along, Along.readExprOperand ctx,
        (Confines.readTernaryOperation ctx).along⟩

end Frame

end Shecc.Parser
