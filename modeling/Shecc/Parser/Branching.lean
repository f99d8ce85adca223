import Shecc.Parser.Frame

/-!
# Where reading an expression ends

An expression ends in the block it began in if and only if the parser passed
none of `&&`, `||` and `?` on the way; then the block keeps its successors.
-/

namespace Shecc.Parser

open Shecc.Preprocessor (Token TokenKind SourceLocation Cursor)

-- the instance for a reader is as large as the reader
set_option synthInstance.maxSize 4096

/-- The parser stays in its block, which keeps its successors. -/
structure Stays (p p' : Parsing) : Prop where
  bb : p'.bb = p.bb
  next : (p'.block p.bb).next = (p.block p.bb).next
  then_ : (p'.block p.bb).then_ = (p.block p.bb).then_
  else_ : (p'.block p.bb).else_ = (p.block p.bb).else_

theorem Stays.refl (p : Parsing) : Stays p p := ⟨rfl, rfl, rfl, rfl⟩

theorem Stays.trans {p q r : Parsing} (first : Stays p q) (second : Stays q r) : Stays p r where
  bb := second.bb.trans first.bb
  next := (first.bb ▸ second.next).trans first.next
  then_ := (first.bb ▸ second.then_).trans first.then_
  else_ := (first.bb ▸ second.else_).trans first.else_

/-- No token that branches was passed, and the parser is in its block. -/
structure Stayed (p p' : Parsing) : Prop where
  blocks : p.blocks.length ≤ p'.blocks.length
  skips : Skips p.cur p'.cur
  stays : Stays p p'

/-- A token that branches was passed, and the parser is in a new block. -/
structure Left (p p' : Parsing) : Prop where
  blocks : p.blocks.length ≤ p'.blocks.length
  advances : ∃ tokens, Advances p.cur tokens p'.cur ∧ ¬Plain tokens
  new : p.blocks.length ≤ p'.bb

/-- The tokens passed tell where the parser is. -/
def Tells (p p' : Parsing) : Prop := Stayed p p' ∨ Left p p'

namespace Stayed

theorem refl (p : Parsing) : Stayed p p := ⟨le_rfl, .refl _, .refl _⟩

theorem trans {p q r : Parsing} (first : Stayed p q) (second : Stayed q r) : Stayed p r :=
  ⟨first.blocks.trans second.blocks, first.skips.trans second.skips,
    first.stays.trans second.stays⟩

/-- States with the same blocks. -/
theorem of_same {p p' : Parsing} (blocks : p'.blocks = p.blocks) (bb : p'.bb = p.bb)
    (skips : Skips p.cur p'.cur) : Stayed p p' := by
  have same (i : BlockId) : p'.block i = p.block i := by
    unfold Parsing.block
    rw [blocks]
  exact ⟨by rw [blocks], skips, ⟨bb, by rw [same], by rw [same], by rw [same]⟩⟩

theorem then_left {p q r : Parsing} (first : Stayed p q) (second : Left q r) : Left p r where
  blocks := first.blocks.trans second.blocks
  advances := by
    rcases first.skips with ⟨tokens, before, -⟩
    rcases second.advances with ⟨others, behind, branches⟩
    exact ⟨tokens ++ others, before.trans behind, fun plain => branches (Plain.append.mp plain).2⟩
  new := first.blocks.trans second.new

end Stayed

namespace Left

theorem then_stayed {p q r : Parsing} (first : Left p q) (second : Stayed q r) : Left p r where
  blocks := first.blocks.trans second.blocks
  advances := by
    rcases first.advances with ⟨tokens, before, branches⟩
    rcases second.skips with ⟨others, behind, -⟩
    exact ⟨tokens ++ others, before.trans behind, fun plain => branches (Plain.append.mp plain).1⟩
  new := by
    rw [second.stays.bb]
    exact first.new

theorem trans {p q r : Parsing} (first : Left p q) (second : Left q r) : Left p r where
  blocks := first.blocks.trans second.blocks
  advances := by
    rcases first.advances with ⟨tokens, before, branches⟩
    rcases second.advances with ⟨others, behind, -⟩
    exact ⟨tokens ++ others, before.trans behind, fun plain => branches (Plain.append.mp plain).1⟩
  new := first.blocks.trans second.new

theorem then_tells {p q r : Parsing} (first : Left p q) (second : Tells q r) : Left p r := by
  rcases second with stayed | left
  · exact first.then_stayed stayed
  · exact first.trans left

end Left

theorem Tells.trans {p q r : Parsing} (first : Tells p q) (second : Tells q r) : Tells p r := by
  rcases first with stayed | left
  · rcases second with also | left
    · exact .inl (stayed.trans also)
    · exact .inr (stayed.then_left left)
  · exact .inr (left.then_tells second)

/-- What reading an expression tells, where the end of the file is the last token. -/
def TellsFrom (p p' : Parsing) : Prop := EndsOnce p.cur → EndsOnce p'.cur ∧ Tells p p'

theorem tellsFrom_of_same {p p' : Parsing} (blocks : p'.blocks = p.blocks) (bb : p'.bb = p.bb)
    (cur : p'.cur = p.cur) : TellsFrom p p' := by
  intro ends
  exact ⟨cur ▸ ends, .inl (.of_same blocks bb (cur ▸ .refl _))⟩

instance : Kept TellsFrom where
  refl p ends := ⟨ends, .inl (.refl p)⟩
  trans first second ends := by
    rcases first ends with ⟨ends, before⟩
    rcases second ends with ⟨ends, behind⟩
    exact ⟨ends, before.trans behind⟩
  skip p cur skips ends := by
    refine ⟨?_, .inl (.of_same rfl rfl skips)⟩
    rcases skips with ⟨tokens, advances, -⟩
    exact ends.advance advances
  rodata p rodata := tellsFrom_of_same rfl rfl rfl
  withVar p record := tellsFrom_of_same rfl rfl rfl
  modifyVar p v change := tellsFrom_of_same rfl rfl rfl
  name p idx := tellsFrom_of_same rfl rfl rfl
  operands p stack := tellsFrom_of_same rfl rfl rfl
  queue p insn := tellsFrom_of_same rfl rfl rfl
  emit p insn ends := by
    refine ⟨ends, .inl ⟨by simp, .refl _, rfl, ?_, ?_, ?_⟩⟩
    all_goals
      rw [Parsing.block_modifyBlock]
      split <;> rfl

/-! ## Operators that end a block -/

/-- A computation ends in a block. -/
structure Enters {α : Type} (bb : BlockId) (step : Parse α) : Prop where
  bb_eq : ∀ {p p' : Parsing} {value : α}, step p = .ok (value, p') → p'.bb = bb

namespace Enters

variable {α β : Type} {bb : BlockId}

theorem enter : Enters bb (modify fun p => { p with bb := bb } : Parse Unit) := by
  constructor
  intro p p' value ran
  cases ran
  rfl

theorem bind {step : Parse α} {rest : α → Parse β} (enters : ∀ value, Enters bb (rest value)) :
    Enters bb (step >>= rest) := by
  constructor
  intro p p' value ran
  rcases Parse.bind_eq_ok_iff.mp ran with ⟨middle, _, -, behind⟩
  exact (enters middle).bb_eq behind

end Enters

/-- Blocks are only added, and only plain tokens are passed. -/
structure Proceeds (p p' : Parsing) : Prop where
  blocks : p.blocks.length ≤ p'.blocks.length
  skips : Skips p.cur p'.cur

theorem proceeds_of_same {p p' : Parsing} (blocks : p'.blocks = p.blocks) (cur : p'.cur = p.cur) :
    Proceeds p p' := ⟨by rw [blocks], cur ▸ .refl _⟩

instance : KeptBlocks Proceeds where
  refl p := ⟨le_rfl, .refl _⟩
  trans first second := ⟨first.blocks.trans second.blocks, first.skips.trans second.skips⟩
  skip p cur skips := ⟨le_rfl, skips⟩
  rodata p rodata := proceeds_of_same rfl rfl
  withVar p record := proceeds_of_same rfl rfl
  modifyVar p v change := proceeds_of_same rfl rfl
  name p idx := proceeds_of_same rfl rfl
  operands p stack := proceeds_of_same rfl rfl
  queue p insn := proceeds_of_same rfl rfl
  emit p insn := ⟨by simp, .refl _⟩
  create p := ⟨by simp, .refl _⟩
  connect p pred succ type := ⟨by simp, .refl _⟩
  insn p bb insn := ⟨by simp, .refl _⟩
  enter p bb := proceeds_of_same rfl rfl

/-- Only plain tokens are passed, and the parser is in a new block. -/
structure Opens (p p' : Parsing) : Prop extends Proceeds p p' where
  new : p.blocks.length ≤ p'.bb

theorem Opens.after {p q r : Parsing} (first : Proceeds p q) (second : Opens q r) : Opens p r :=
  ⟨⟨first.blocks.trans second.blocks, first.skips.trans second.skips⟩,
    first.blocks.trans second.new⟩

/-- A new block is opened, and entered at the end. -/
theorem opens_of_bbCreate {α : Type} {rest : BlockId → Parse α} {p p' : Parsing} {value : α}
    [∀ bb, Along Proceeds (rest bb)] (enters : ∀ bb, Enters bb (rest bb))
    (ran : (bbCreate >>= rest) p = .ok (value, p')) : Opens p p' := by
  have proceeds : Proceeds p p' := Along.along ran
  rcases Parse.bind_eq_ok_iff.mp ran with ⟨bb, created, ranCreate, ran⟩
  cases ranCreate
  refine ⟨proceeds, ?_⟩
  rw [(enters _).bb_eq ran]

theorem opens_of_readLogical {op : Opcode} {p p' : Parsing}
    (ran : readLogical op p = .ok ((), p')) : Opens p p' := by
  unfold readLogical at ran
  rcases Parse.bind_eq_ok_iff.mp ran with ⟨vd, popped, ranPop, ran⟩
  rcases Parse.bind_eq_ok_iff.mp ran with ⟨⟨⟩, emitted, ranEmit, ran⟩
  have first : Proceeds p popped := Along.along ranPop
  have second : Proceeds popped emitted := Along.along ranEmit
  refine Opens.after (KeptMoves.trans first second) (opens_of_bbCreate (fun bb => ?_) ran)
  exact .bind fun _ => .bind fun _ => .enter

theorem opens_of_testOperand {op : Opcode} {s : Operators} {p p' : Parsing}
    (ran : testOperand op s p = .ok ((), p')) : Opens p p' := by
  unfold testOperand at ran
  rcases Parse.bind_eq_ok_iff.mp ran with ⟨_, _, ranGet, ran⟩
  cases ranGet
  rcases Parse.bind_eq_ok_iff.mp ran with ⟨⟨⟩, connected, ranConnect, ran⟩
  have first : Proceeds p connected := Along.along ranConnect
  exact .after first (opens_of_readLogical ran)

theorem opens_of_finalizeLogical {ctx : Context} {op : Opcode} {sharedBb : BlockId}
    {p p' : Parsing} (ran : finalizeLogical ctx op sharedBb p = .ok ((), p')) : Opens p p' := by
  unfold finalizeLogical at ran
  rcases Parse.bind_eq_ok_iff.mp ran with ⟨_, _, ranGet, ran⟩
  cases ranGet
  refine opens_of_bbCreate (fun bb => ?_) ran
  refine .bind fun _ => .bind fun _ => .bind fun _ => .bind fun _ => .bind fun _ => ?_
  refine .bind fun _ => .bind fun _ => .bind fun _ => .bind fun _ => ?_
  exact .bind fun _ => .bind fun _ => .enter

theorem Left.then_opens {p q r : Parsing} (first : Left p q) (second : Opens q r) : Left p r where
  blocks := first.blocks.trans second.blocks
  advances := by
    rcases first.advances with ⟨tokens, before, branches⟩
    rcases second.skips with ⟨others, behind, -⟩
    exact ⟨tokens ++ others, before.trans behind, fun plain => branches (Plain.append.mp plain).1⟩
  new := first.blocks.trans second.new

theorem Left.move {p q : Parsing} {tokens : List Token} {cur : Cursor} (left : Left p q)
    (onward : Advances q.cur tokens cur) : Left p (q.move cur) where
  blocks := left.blocks
  advances := by
    rcases left.advances with ⟨others, before, branches⟩
    exact ⟨others ++ tokens, before.trans onward, fun plain => branches (Plain.append.mp plain).1⟩
  new := left.new

theorem EndsOnce.skip {first last : Cursor} (ends : EndsOnce first) (skips : Skips first last) :
    EndsOnce last := by
  rcases skips with ⟨tokens, advances, -⟩
  exact ends.advance advances

/-! ## Between two operands -/

/-- The state behind an operand of the expression that begins at `base`: only a token that
branches sets `has_prev_log_op`. -/
structure Telling (base : Parsing) (s : Operators) (p : Parsing) : Prop where
  ends : EndsOnce p.cur
  tells : Tells base p
  logical : s.hasPrevLogOp = true → Left base p

/-- The state behind an operator, which opens a new block if it is a logical one. -/
structure Pending (base : Parsing) (op : Opcode) (s : Operators) (p : Parsing) : Prop where
  ends : EndsOnce p.cur
  blocks : base.blocks.length ≤ p.blocks.length
  tells : isLogical op = false → Tells base p
  passed : isLogical op = true → ∃ tokens, Advances base.cur tokens p.cur ∧ ¬Plain tokens
  logical : s.hasPrevLogOp = true → Left base p

theorem Tells.blocks {p p' : Parsing} (tells : Tells p p') :
    p.blocks.length ≤ p'.blocks.length := by
  rcases tells with stayed | left
  · exact stayed.blocks
  · exact left.blocks

theorem Tells.advances {p p' : Parsing} (tells : Tells p p') :
    ∃ tokens, Advances p.cur tokens p'.cur := by
  rcases tells with stayed | left
  · rcases stayed.skips with ⟨tokens, advances, -⟩
    exact ⟨tokens, advances⟩
  · rcases left.advances with ⟨tokens, advances, -⟩
    exact ⟨tokens, advances⟩

/-- The tokens of the operators are those an expression branches at if they are logical. -/
theorem branching_of_operatorKinds {kind : TokenKind} {op : Opcode}
    (found : operatorKinds.lookup kind = some op) : kind ∈ branching ↔ isLogical op = true := by
  cases kind <;> cases found <;> decide

theorem Telling.getOperator {base p p' : Parsing} {s : Operators} {op : Opcode}
    (telling : Telling base s p) (ran : getOperator p = .ok (op, p')) :
    Pending base op s p' := by
  unfold Parser.getOperator at ran
  split at ran
  case h_1 operator found =>
    cases ran
    rcases Option.bind_eq_some_iff.mp found with ⟨kind, ahead, found⟩
    rcases Parsing.advances_behind telling.ends ahead with ⟨tokens, token, advances, plain, rfl⟩
    have logical := branching_of_operatorKinds found
    refine ⟨telling.ends.advance advances, telling.tells.blocks, ?_, ?_, ?_⟩
    · intro other
      refine telling.tells.trans (.inl (.of_same rfl rfl (Parsing.skips_behind ahead ?_)))
      simp [logical, other]
    · intro isLogical
      rcases telling.tells.advances with ⟨others, before⟩
      refine ⟨_, before.trans advances, fun plain => ?_⟩
      exact plain token (by simp) (logical.mpr isLogical)
    · exact fun prev => (telling.logical prev).move advances
  case h_2 =>
    cases ran
    have skips := p.skips_ahead
    have other : isLogical (if p.peek = some .question then .ternary else .generic) = false := by
      split <;> rfl
    refine ⟨telling.ends.skip skips, telling.tells.blocks, fun _ => ?_, ?_, ?_⟩
    · exact telling.tells.trans (.inl (.of_same rfl rfl skips))
    · simp [other]
    · rcases skips with ⟨tokens, advances, -⟩
      exact fun prev => (telling.logical prev).move advances

/-- The other operators of `oper_stack` are applied. -/
theorem Pending.after {base p p' : Parsing} {op : Opcode} {s : Operators}
    (pending : Pending base op s p) (tells : TellsFrom p p') : Pending base op s p' := by
  rcases tells pending.ends with ⟨ends, tells⟩
  refine ⟨ends, pending.blocks.trans tells.blocks, fun other => (pending.tells other).trans tells,
    fun isLogical => ?_, fun prev => (pending.logical prev).then_tells tells⟩
  rcases pending.passed isLogical with ⟨tokens, before, branches⟩
  rcases tells.advances with ⟨others, behind⟩
  exact ⟨_, before.trans behind, fun plain => branches (Plain.append.mp plain).1⟩

theorem Pending.opens {base p p' : Parsing} {op : Opcode} {s : Operators}
    (pending : Pending base op s p) (isLogical : isLogical op = true) (opens : Opens p p') :
    Left base p' where
  blocks := pending.blocks.trans opens.blocks
  advances := by
    rcases pending.passed isLogical with ⟨tokens, before, branches⟩
    rcases opens.skips with ⟨others, behind, -⟩
    exact ⟨_, before.trans behind, fun plain => branches (Plain.append.mp plain).1⟩
  new := pending.blocks.trans opens.new

theorem Telling.of_left {base p : Parsing} {s : Operators} (ends : EndsOnce p.cur)
    (left : Left base p) : Telling base s p := ⟨ends, .inr left, fun _ => left⟩

/-- A logical operator behind an operand leaves the block. -/
theorem opens_of_finalizeOnce {ctx : Context} {s s' : Operators} {p p' : Parsing}
    (ran : finalizeOnce ctx s p = .ok (s', p')) : Opens p p' := by
  unfold finalizeOnce at ran
  rcases Parse.bind_eq_ok_iff.mp ran with ⟨⟨⟩, middle, ranFinal, ran⟩
  cases ran
  exact opens_of_finalizeLogical ranFinal

/-- The parser stays where it is, and there may be a new block. -/
theorem Opens.created {p q r : Parsing} {bb : BlockId} (first : Opens p q)
    (ran : bbCreate q = .ok (bb, r)) : Opens p r := by
  cases ran
  exact ⟨⟨by simpa using Nat.le_succ_of_le first.blocks, first.skips⟩, first.new⟩

theorem opens_of_readLogicalOperator {ctx : Context} {op : Opcode} {s s' : Operators}
    {p p' : Parsing} (ran : readLogicalOperator ctx op s p = .ok (s', p')) : Opens p p' := by
  unfold readLogicalOperator at ran
  split at ran
  · rcases Parse.bind_eq_ok_iff.mp ran with ⟨⟨⟩, middle, ranTest, ran⟩
    cases ran
    exact opens_of_testOperand ranTest
  · split at ran
    · rcases Parse.bind_eq_ok_iff.mp ran with ⟨⟨⟩, final, ranFinal, ran⟩
      rcases Parse.bind_eq_ok_iff.mp ran with ⟨bb, created, ranCreate, ran⟩
      rcases Parse.bind_eq_ok_iff.mp ran with ⟨⟨⟩, middle, ranTest, ran⟩
      cases ran
      have first := (opens_of_finalizeLogical ranFinal).created ranCreate
      exact .after first.toProceeds (opens_of_testOperand ranTest)
    · rcases Parse.bind_eq_ok_iff.mp ran with ⟨⟨⟩, middle, ranTest, ran⟩
      cases ran
      exact opens_of_testOperand ranTest

theorem Left.ends {p q : Parsing} (left : Left p q) (ends : EndsOnce p.cur) : EndsOnce q.cur := by
  rcases left.advances with ⟨tokens, advances, -⟩
  exact ends.advance advances

/-- The rounds before a weaker operator only run where a logical operator was read. -/
theorem Telling.finalizeStronger {ctx : Context} {op : Opcode} {base p p' : Parsing}
    {s s' : Operators} (start : EndsOnce base.cur) (telling : Telling base s p)
    (ran : finalizeStronger ctx op s p = .ok (s', p')) : Telling base s' p' := by
  unfold Parser.finalizeStronger at ran
  dsimp only at ran
  have round {s s' : Operators} {p p' : Parsing} (left : Left base p)
      (ran : (do
        let finalized ← finalizeOnce ctx s
        let fresh ← bbCreate
        if s.prevLogOp = Opcode.logAnd then pure { finalized with logAndSharedBb := fresh }
        else pure { finalized with logOrSharedBb := fresh }) p = .ok (s', p')) :
      Left base p' := by
    rcases Parse.bind_eq_ok_iff.mp ran with ⟨finalized, middle, ranFinal, ran⟩
    rcases Parse.bind_eq_ok_iff.mp ran with ⟨bb, created, ranCreate, ran⟩
    have opens := (opens_of_finalizeOnce ranFinal).created ranCreate
    split at ran <;> cases ran <;> exact left.then_opens opens
  split at ran
  case isTrue weaker =>
    have left := telling.logical (by simp_all)
    rcases Parse.bind_eq_ok_iff.mp ran with ⟨once, middle, ranRound, ran⟩
    have left := round left ranRound
    split at ran
    · have left := round left ran
      exact .of_left (left.ends start) left
    · cases ran
      exact .of_left (left.ends start) left
  case isFalse =>
    cases ran
    exact telling

/-- The last rounds only run where a logical operator was read. -/
theorem Telling.finalizeAll {ctx : Context} {base p p' : Parsing} {s : Operators}
    (telling : Telling base s p) (ran : finalizeAll ctx s p = .ok ((), p')) : Tells base p' := by
  unfold Parser.finalizeAll at ran
  split at ran
  case isTrue prev =>
    rcases Parse.bind_eq_ok_iff.mp ran with ⟨once, middle, ranOnce, ran⟩
    have left := (telling.logical prev).then_opens (opens_of_finalizeOnce ranOnce)
    split at ran
    · rcases Parse.bind_eq_ok_iff.mp ran with ⟨twice, last, ranTwice, ran⟩
      cases ran
      exact .inr (left.then_opens (opens_of_finalizeOnce ranTwice))
    · cases ran
      exact .inr left
  case isFalse =>
    cases ran
    exact telling.tells

theorem Telling.along {base p p' : Parsing} {s : Operators} (telling : Telling base s p)
    (tells : TellsFrom p p') : Telling base s p' := by
  rcases tells telling.ends with ⟨ends, tells⟩
  exact ⟨ends, telling.tells.trans tells, fun prev => (telling.logical prev).then_tells tells⟩

/-- An operator behind an operand, once the stronger ones before it are applied. -/
theorem Pending.operator (ctx : Context) {op : Opcode} {base p p' : Parsing} {s s' : Operators}
    (start : EndsOnce base.cur) (pending : Pending base op s p)
    (ran : (if isLogical op then readLogicalOperator ctx op s else finalizeStronger ctx op s) p =
      .ok (s', p')) : Telling base s' p' := by
  split at ran
  case isTrue isLogical =>
    have left := pending.opens isLogical (opens_of_readLogicalOperator ran)
    exact .of_left (left.ends start) left
  case isFalse other =>
    have telling : Telling base s p :=
      ⟨pending.ends, pending.tells (by simpa using other), pending.logical⟩
    exact telling.finalizeStronger start ran

/-- The operators with another `oper_stack`. -/
theorem Telling.of_same {base p : Parsing} {s s' : Operators} (telling : Telling base s p)
    (same : s'.hasPrevLogOp = s.hasPrevLogOp) : Telling base s' p :=
  ⟨telling.ends, telling.tells, fun prev => telling.logical (same ▸ prev)⟩

theorem Pending.of_same {base p : Parsing} {op : Opcode} {s s' : Operators}
    (pending : Pending base op s p) (same : s'.hasPrevLogOp = s.hasPrevLogOp) :
    Pending base op s' p :=
  ⟨pending.ends, pending.blocks, pending.tells, pending.passed,
    fun prev => pending.logical (same ▸ prev)⟩

theorem Telling.pushOperator {op : Opcode} {base p p' : Parsing} {s s' : Operators}
    (telling : Telling base s p) (ran : pushOperator op s p = .ok (s', p')) :
    Telling base s' p' := by
  unfold Parser.pushOperator at ran
  split at ran <;> cases ran
  exact telling.of_same rfl

/-! ## The readers -/

section Readers

variable {self : Readers} [keep : KeptBy TellsFrom self]

theorem Pending.readOperators {ctx : Context} {fuel : Nat} {op : Opcode} {base p p' : Parsing}
    {s s' : Operators} (start : EndsOnce base.cur) (pending : Pending base op s p)
    (ran : readOperators self ctx fuel op s p = .ok (s', p')) : Telling base s' p' := by
  induction fuel generalizing op s p with
  | zero => cases ran
  | succ fuel inductionHypothesis =>
      unfold Parser.readOperators at ran
      split at ran
      case isTrue last =>
        cases ran
        have other : isLogical op = false := by rcases last with rfl | rfl <;> rfl
        exact ⟨pending.ends, pending.tells other, pending.logical⟩
      case isFalse =>
        rcases Parse.bind_eq_ok_iff.mp ran with ⟨operStack, applied, ranApply, ran⟩
        have applies : TellsFrom p applied := Along.along ranApply
        have pending : Pending base op { s with operStack := operStack } applied :=
          (pending.after applies).of_same rfl
        -- the rounds behind the operand
        have onward {s : Operators} {p : Parsing} (telling : Telling base s p)
            (ran : (do
              let op ← Parser.getOperator
              Parser.readOperators self ctx fuel op s) p = .ok (s', p')) : Telling base s' p' := by
          rcases Parse.bind_eq_ok_iff.mp ran with ⟨next, middle, ranNext, ran⟩
          exact inductionHypothesis (telling.getOperator ranNext) ran
        dsimp only at ran
        split at ran
        case isTrue isLogical =>
          rcases Parse.bind_eq_ok_iff.mp ran with ⟨s, middle, ranOperator, ran⟩
          rcases Parse.bind_eq_ok_iff.mp ran with ⟨⟨⟩, read, ranOperand, ran⟩
          have telling := pending.operator ctx start (by rwa [if_pos isLogical])
          exact onward (telling.along (keep.operand.along ranOperand)) ran
        case isFalse other =>
          rcases Parse.bind_eq_ok_iff.mp ran with ⟨s, middle, ranOperator, ran⟩
          rcases Parse.bind_eq_ok_iff.mp ran with ⟨⟨⟩, read, ranOperand, ran⟩
          rcases Parse.bind_eq_ok_iff.mp ran with ⟨pushed, _, ranPush, ran⟩
          have telling := pending.operator ctx start (by rwa [if_neg other])
          exact onward ((telling.along (keep.operand.along ranOperand)).pushOperator ranPush) ran

omit keep in
/-- A new block changes nothing else. -/
theorem stayed_of_bbCreate {p p' : Parsing} {bb : BlockId} (ran : bbCreate p = .ok (bb, p')) :
    Stayed p p' := by
  cases ran
  exact ⟨by simp, .refl _, rfl, by simp, by simp, by simp⟩

theorem tellsFrom_readExpr {ctx : Context} {p p' : Parsing}
    (ran : readExpr self ctx p = .ok ((), p')) : TellsFrom p p' := by
  intro start
  unfold Parser.readExpr at ran
  rcases Parse.bind_eq_ok_iff.mp ran with ⟨logAnd, first, ranFirst, ran⟩
  rcases Parse.bind_eq_ok_iff.mp ran with ⟨logOr, created, ranSecond, ran⟩
  dsimp only at ran
  rcases Parse.bind_eq_ok_iff.mp ran with ⟨⟨⟩, read, ranOperand, ran⟩
  rcases Parse.bind_eq_ok_iff.mp ran with ⟨op, behind, ranOperator, ran⟩
  have stayed := (stayed_of_bbCreate ranFirst).trans (stayed_of_bbCreate ranSecond)
  have telling : Telling p ⟨[], false, .generic, .generic, logAnd, logOr⟩ created :=
    ⟨start.skip stayed.skips, .inl stayed, nofun⟩
  have pending := (telling.along (keep.operand.along ranOperand)).getOperator ranOperator
  -- the loop over the operators and the ones behind it
  have onward {s : Operators} {q : Parsing} (telling : Telling p s q)
      (ran : (do
        self.readExprOperand
        let op ← Parser.getOperator
        let s ← Parser.readOperators self ctx self.fuel op s
        finishOperators ctx s.operStack
        finalizeAll ctx s) q = .ok ((), p')) : EndsOnce p'.cur ∧ Tells p p' := by
    rcases Parse.bind_eq_ok_iff.mp ran with ⟨⟨⟩, read, ranOperand, ran⟩
    rcases Parse.bind_eq_ok_iff.mp ran with ⟨op, behind, ranOperator, ran⟩
    rcases Parse.bind_eq_ok_iff.mp ran with ⟨s', last, ranRest, ran⟩
    rcases Parse.bind_eq_ok_iff.mp ran with ⟨⟨⟩, finished, ranFinish, ran⟩
    have pending := (telling.along (keep.operand.along ranOperand)).getOperator ranOperator
    have telling := (pending.readOperators start ranRest).along (Along.along ranFinish)
    have tells := telling.finalizeAll ran
    rcases tells.advances with ⟨tokens, advances⟩
    exact ⟨start.advance advances, tells⟩
  split at ran
  case isFalse last =>
    cases ran
    have other : isLogical op = false := by
      by_cases generic : op = .generic
      · rw [generic]
        rfl
      · rw [not_not.mp fun ternary => last ⟨generic, ternary⟩]
        rfl
    exact ⟨pending.ends, pending.tells other⟩
  case isTrue =>
    split at ran
    case isTrue isLogical =>
      rcases Parse.bind_eq_ok_iff.mp ran with ⟨⟨⟩, tested, ranTest, ran⟩
      rcases Parse.bind_eq_ok_iff.mp ran with ⟨s, _, ranPure, ran⟩
      cases ranPure
      have left := pending.opens isLogical (opens_of_testOperand ranTest)
      exact onward (.of_left (left.ends start) left) ran
    case isFalse other =>
      rcases Parse.bind_eq_ok_iff.mp ran with ⟨s, pushed, ranPush, ran⟩
      have telling : Telling p ⟨[], false, .generic, .generic, logAnd, logOr⟩ behind :=
        ⟨pending.ends, pending.tells (by simpa using other), nofun⟩
      exact onward (telling.pushOperator ranPush) ran

end Readers

/-! ## Conditional expressions -/

/-- Blocks are only added, and the parser moves forward. -/
def Forward (p p' : Parsing) : Prop :=
  EndsOnce p.cur → p.blocks.length ≤ p'.blocks.length ∧ ∃ tokens, Advances p.cur tokens p'.cur

theorem Proceeds.forward {p p' : Parsing} (proceeds : Proceeds p p') : Forward p p' := by
  intro _
  rcases proceeds.skips with ⟨tokens, advances, -⟩
  exact ⟨proceeds.blocks, tokens, advances⟩

theorem TellsFrom.forward {p p' : Parsing} (tells : TellsFrom p p') : Forward p p' := by
  intro ends
  exact ⟨(tells ends).2.blocks, (tells ends).2.advances⟩

instance : KeptBlocks Forward where
  refl p := (KeptMoves.refl p : Proceeds p p).forward
  trans first second ends := by
    rcases first ends with ⟨before, tokens, advances⟩
    rcases second (ends.advance advances) with ⟨behind, others, onward⟩
    exact ⟨before.trans behind, tokens ++ others, advances.trans onward⟩
  skip p cur skips := (KeptMoves.skip p skips : Proceeds _ _).forward
  rodata p rodata := (Kept.rodata p rodata : Proceeds _ _).forward
  withVar p record := (Kept.withVar p record : Proceeds _ _).forward
  modifyVar p v change := (Kept.modifyVar p v change : Proceeds _ _).forward
  name p idx := (Kept.name p idx : Proceeds _ _).forward
  operands p stack := (Kept.operands p stack : Proceeds _ _).forward
  queue p insn := (Kept.queue p insn : Proceeds _ _).forward
  emit p insn := (Kept.emit p insn : Proceeds _ _).forward
  create p := (KeptBlocks.create p : Proceeds _ _).forward
  connect p pred succ type := (KeptBlocks.connect p pred succ type : Proceeds _ _).forward
  insn p bb insn := (KeptBlocks.insn p bb insn : Proceeds _ _).forward
  enter p bb := (KeptBlocks.enter p bb : Proceeds _ _).forward

theorem KeptBy.forward {self : Readers} (keep : KeptBy TellsFrom self) : KeptBy Forward self where
  expr := ⟨fun ran => (keep.expr.along ran).forward⟩
  operand := ⟨fun ran => (keep.operand.along ran).forward⟩
  ternary := ⟨fun ran => (keep.ternary.along ran).forward⟩

section Readers

variable {self : Readers} [keep : KeptBy TellsFrom self]

omit keep in
/-- A conditional expression ends in the last of the blocks it makes first. -/
theorem new_of_readConditional {ctx : Context} {p p' : Parsing}
    (ran : readConditional self ctx p = .ok ((), p')) : p.blocks.length ≤ p'.bb := by
  unfold readConditional at ran
  rcases Parse.bind_eq_ok_iff.mp ran with ⟨_, _, ranGet, ran⟩
  cases ranGet
  rcases Parse.bind_eq_ok_iff.mp ran with ⟨vd, popped, ranPop, ran⟩
  rcases Parse.bind_eq_ok_iff.mp ran with ⟨⟨⟩, emitted, ranEmit, ran⟩
  have first : Proceeds p popped := Along.along ranPop
  have second : Proceeds popped emitted := Along.along ranEmit
  rcases Parse.bind_eq_ok_iff.mp ran with ⟨then_, _, ranThen, ran⟩
  cases ranThen
  rcases Parse.bind_eq_ok_iff.mp ran with ⟨else_, _, ranElse, ran⟩
  cases ranElse
  rcases Parse.bind_eq_ok_iff.mp ran with ⟨join, _, ranJoin, ran⟩
  cases ranJoin
  rcases Parse.bind_eq_ok_iff.mp ran with ⟨⟨⟩, _, -, ran⟩
  rcases Parse.bind_eq_ok_iff.mp ran with ⟨⟨⟩, _, -, ran⟩
  rcases Parse.bind_eq_ok_iff.mp ran with ⟨then_, _, -, ran⟩
  rcases Parse.bind_eq_ok_iff.mp ran with ⟨colon, _, -, ran⟩
  split at ran
  case isTrue =>
    have enters : p'.bb = ((emitted.blocks ++ [BasicBlock.new]) ++ [BasicBlock.new]).length :=
      Enters.bb_eq (.bind fun _ => .bind fun _ => .bind fun _ => .bind fun _ => .enter) ran
    have grown := first.blocks.trans second.blocks
    simp only [enters, List.length_append]
    omega
  case isFalse => cases ran

theorem tellsFrom_readTernaryOperation {ctx : Context} {p p' : Parsing}
    (ran : readTernaryOperation self ctx p = .ok ((), p')) : TellsFrom p p' := by
  intro ends
  unfold readTernaryOperation at ran
  rcases Parse.bind_eq_ok_iff.mp ran with ⟨question, asked, ranAccept, ran⟩
  unfold lexAccept at ranAccept
  split at ranAccept
  case isTrue found =>
    cases ranAccept
    rw [if_pos rfl] at ran
    rcases Parsing.advances_behind ends found with ⟨tokens, token, advances, -, isQuestion⟩
    have forward : KeptBy Forward self := keep.forward
    have onward : Forward (p.move p.behind) p' := (Along.readConditional ctx).along ran
    have new := new_of_readConditional ran
    rcases onward (ends.advance advances) with ⟨blocks, others, behind⟩
    have left : Left p p' := {
      blocks := blocks
      advances := by
        refine ⟨_, advances.trans behind, fun plain => plain token (by simp) ?_⟩
        simp [isQuestion, branching]
      new := new }
    exact ⟨left.ends ends, .inr left⟩
  case isFalse =>
    cases ranAccept
    cases ran
    exact KeptMoves.skip (R := TellsFrom) p p.skips_ahead ends

end Readers

/-- What the readers pass tells where they end. -/
instance readers_tells (ctx : Context) (fuel : Nat) : KeptBy TellsFrom (readers ctx fuel) := by
  induction fuel with
  | zero => exact ⟨Along.fail _, Along.fail _, Along.fail _⟩
  | succ fuel inductionHypothesis =>
      exact ⟨⟨tellsFrom_readExpr⟩, Along.readExprOperand ctx, ⟨tellsFrom_readTernaryOperation⟩⟩

end Shecc.Parser
