import Shecc.Parser.Branching

/-!
# The parser is in a block it made

A reader that starts in a block that was made ends in one: the blocks the
readers enter are those they made before.
-/

namespace Shecc.Parser

-- the instance for a reader is as large as the reader
set_option synthInstance.maxSize 4096

/-- Blocks are only added. -/
def Longer (p p' : Parsing) : Prop := p.blocks.length ≤ p'.blocks.length

instance : KeptBlocks Longer where
  refl p := le_rfl
  trans first second := Nat.le_trans first second
  skip p cur skips := le_rfl
  rodata p rodata := le_rfl
  withVar p record := le_rfl
  modifyVar p v change := le_rfl
  name p idx := le_rfl
  operands p stack := le_rfl
  queue p insn := le_rfl
  emit p insn := by simp [Longer]
  create p := by simp [Longer]
  connect p pred succ type := by simp [Longer]
  insn p bb insn := by simp [Longer]
  enter p bb := le_rfl

instance : KeptAny Longer where
  move _ _ := le_rfl

/-- Blocks are only added, and the parser stays in one of them. -/
structure Placed (p p' : Parsing) : Prop where
  longer : Longer p p'
  bb : p.bb < p.blocks.length → p'.bb < p'.blocks.length

theorem placed_of_same {p p' : Parsing} (blocks : p'.blocks.length = p.blocks.length)
    (bb : p'.bb = p.bb) : Placed p p' :=
  ⟨blocks.ge, fun inside => by rw [blocks, bb]; exact inside⟩

instance : KeptAny Placed where
  refl p := placed_of_same rfl rfl
  trans first second := ⟨KeptMoves.trans first.longer second.longer, second.bb ∘ first.bb⟩
  skip p cur skips := placed_of_same rfl rfl
  rodata p rodata := placed_of_same rfl rfl
  withVar p record := placed_of_same rfl rfl
  modifyVar p v change := placed_of_same rfl rfl
  name p idx := placed_of_same rfl rfl
  operands p stack := placed_of_same rfl rfl
  queue p insn := placed_of_same rfl rfl
  emit p insn := placed_of_same (by simp) rfl
  move p cur := placed_of_same rfl rfl

/-- The block that is entered at the end is made first. -/
theorem placed_of_bbCreate {α : Type} {rest : BlockId → Parse α} [∀ bb, Along Longer (rest bb)]
    (enters : ∀ bb, Enters bb (rest bb)) : Along Placed (bbCreate >>= rest) where
  along {p p' _} ran := by
    rcases Parse.bind_eq_ok_iff.mp ran with ⟨bb, created, ranCreate, ran⟩
    cases ranCreate
    have longer : p.blocks.length + 1 ≤ p'.blocks.length := by
      have onward : Longer _ p' := Along.along ran
      simpa [Longer] using onward
    exact ⟨Nat.le_of_succ_le longer, fun _ => by rw [(enters _).bb_eq ran]; exact longer⟩

namespace Along

variable {self : Readers} [keep : KeptBy Placed self]

instance placedBbCreate : Along Placed Parser.bbCreate where
  along ran := by
    cases ran
    exact ⟨by simp [Longer], fun inside => by simpa using Nat.lt_succ_of_lt inside⟩

instance placedBbConnect (pred succ : BlockId) (type : Connection) :
    Along Placed (Parser.bbConnect pred succ type) where
  along {p _ _} ran := by
    unfold Parser.bbConnect at ran
    split at ran <;> cases ran
    exact placed_of_same (by simp) rfl

instance placedReadLogical (op : Opcode) : Along Placed (Parser.readLogical op) := by
  unfold Parser.readLogical
  refine andThen inferInstance fun vd => andThen inferInstance fun _ => ?_
  exact placed_of_bbCreate fun bb => .bind fun _ => .bind fun _ => .enter

instance placedTestOperand (op : Opcode) (s : Operators) :
    Along Placed (Parser.testOperand op s) := by
  unfold Parser.testOperand
  dsimp only
  infer_instance

instance placedFinalizeLogical (ctx : Context) (op : Opcode) (sharedBb : BlockId) :
    Along Placed (Parser.finalizeLogical ctx op sharedBb) := by
  unfold Parser.finalizeLogical
  dsimp only
  refine andThen inferInstance fun p => placed_of_bbCreate fun bb => ?_
  refine .bind fun _ => .bind fun _ => .bind fun _ => .bind fun _ => .bind fun _ => ?_
  refine .bind fun _ => .bind fun _ => .bind fun _ => .bind fun _ => ?_
  exact .bind fun _ => .bind fun _ => .enter

instance placedReadLogicalOperator (ctx : Context) (op : Opcode) (s : Operators) :
    Along Placed (Parser.readLogicalOperator ctx op s) := by
  unfold Parser.readLogicalOperator
  infer_instance

instance placedFinalizeOnce (ctx : Context) (s : Operators) :
    Along Placed (Parser.finalizeOnce ctx s) := by
  unfold Parser.finalizeOnce
  infer_instance

instance placedFinalizeStronger (ctx : Context) (op : Opcode) (s : Operators) :
    Along Placed (Parser.finalizeStronger ctx op s) := by
  unfold Parser.finalizeStronger
  dsimp only
  infer_instance

instance placedFinalizeAll (ctx : Context) (s : Operators) :
    Along Placed (Parser.finalizeAll ctx s) := by
  unfold Parser.finalizeAll
  infer_instance

instance placedReadOperators (ctx : Context) (fuel : Nat) (op : Opcode) (s : Operators) :
    Along Placed (Parser.readOperators self ctx fuel op s) := by
  induction fuel generalizing op s with
  | zero => exact fail _
  | succ fuel inductionHypothesis =>
      unfold Parser.readOperators
      dsimp only
      infer_instance

instance placedReadExpr (ctx : Context) : Along Placed (Parser.readExpr self ctx) := by
  unfold Parser.readExpr
  dsimp only
  infer_instance

/-- A conditional expression ends in the last of the blocks it makes first. -/
instance placedReadConditional [KeptBy Longer self] (ctx : Context) :
    Along Placed (Parser.readConditional self ctx) where
  along {p p' _} ran := by
    have longer : Longer p p' := Along.along ran
    refine ⟨longer, fun _ => ?_⟩
    unfold Parser.readConditional at ran
    rcases Parse.bind_eq_ok_iff.mp ran with ⟨_, _, ranGet, ran⟩
    cases ranGet
    rcases Parse.bind_eq_ok_iff.mp ran with ⟨vd, popped, -, ran⟩
    rcases Parse.bind_eq_ok_iff.mp ran with ⟨⟨⟩, emitted, -, ran⟩
    rcases Parse.bind_eq_ok_iff.mp ran with ⟨then_, _, ranThen, ran⟩
    cases ranThen
    rcases Parse.bind_eq_ok_iff.mp ran with ⟨else_, _, ranElse, ran⟩
    cases ranElse
    rcases Parse.bind_eq_ok_iff.mp ran with ⟨join, _, ranJoin, ran⟩
    cases ranJoin
    have onward : Longer _ p' := Along.along ran
    rcases Parse.bind_eq_ok_iff.mp ran with ⟨⟨⟩, _, -, ran⟩
    rcases Parse.bind_eq_ok_iff.mp ran with ⟨⟨⟩, _, -, ran⟩
    rcases Parse.bind_eq_ok_iff.mp ran with ⟨then_, _, -, ran⟩
    rcases Parse.bind_eq_ok_iff.mp ran with ⟨colon, _, -, ran⟩
    split at ran
    case isTrue =>
      have enters : p'.bb = ((emitted.blocks ++ [BasicBlock.new]) ++ [BasicBlock.new]).length :=
        Enters.bb_eq (.bind fun _ => .bind fun _ => .bind fun _ => .bind fun _ => .enter) ran
      have made : emitted.blocks.length + 3 ≤ p'.blocks.length := by simpa [Longer] using onward
      simpa [enters] using Nat.lt_of_succ_le made
    case isFalse => cases ran

end Along

theorem KeptBy.longer {called : Readers} (keep : KeptBy Placed called) : KeptBy Longer called where
  expr := ⟨fun ran => (keep.expr.along ran).longer⟩
  operand := ⟨fun ran => (keep.operand.along ran).longer⟩
  ternary := ⟨fun ran => (keep.ternary.along ran).longer⟩

/-- The readers end in a block that was made. -/
instance readers_placed (ctx : Context) (fuel : Nat) : KeptBy Placed (readers ctx fuel) := by
  induction fuel with
  | zero => exact ⟨Along.fail _, Along.fail _, Along.fail _⟩
  | succ fuel inductionHypothesis =>
      have longer : KeptBy Longer (readers ctx fuel) := inductionHypothesis.longer
      have ternary : Along Placed (readTernaryOperation (readers ctx fuel) ctx) := by
        unfold readTernaryOperation
        infer_instance
      exact ⟨Along.placedReadExpr ctx, Along.readExprOperand ctx, ternary⟩

end Shecc.Parser
