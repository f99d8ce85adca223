import Shecc.Parser.Conditional
import Shecc.Parser.GlobalInit

/-!
# The operator stacks

An operator is pushed when all pending ones bind weaker, so a stack of operators is never
longer than there are priorities. The values of `read_global_assignment` are one more than its
operators, and for them there are as many elements as priorities.
-/

namespace Shecc.Parser

open Relation (ReflTransGen)
open Shecc.Preprocessor (TokenKind)

/-! ## Pending operators -/

section Pending

variable {α : Type} {prio : α → Nat} {stack : List α} {op : α}

/-- Towards the top, which comes first, the priorities increase. -/
def Ascending (prio : α → Nat) (stack : List α) : Prop :=
  stack.Pairwise fun later earlier => prio earlier < prio later

/-- If the operator on the top is weaker, all are. -/
theorem Ascending.weaker (ascending : Ascending prio stack)
    (isTop : ∀ top ∈ stack.head?, prio top < prio op) :
    ∀ pending ∈ stack, prio pending < prio op := by
  cases stack with
  | nil => simp
  | cons top rest =>
      have topWeaker : prio top < prio op := isTop top rfl
      rw [List.forall_mem_cons]
      exact ⟨topWeaker, fun pending member =>
        lt_trans ((List.pairwise_cons.mp ascending).1 pending member) topWeaker⟩

theorem Ascending.cons (ascending : Ascending prio stack)
    (isTop : ∀ top ∈ stack.head?, prio top < prio op) : Ascending prio (op :: stack) :=
  List.pairwise_cons.mpr ⟨ascending.weaker isTop, ascending⟩

theorem Ascending.tail {top : α} (ascending : Ascending prio (top :: stack)) :
    Ascending prio stack :=
  (List.pairwise_cons.mp ascending).2

/-- There are no more pending operators than priorities. -/
theorem Ascending.length_le {low high : Nat} (ascending : Ascending prio stack)
    (range : ∀ pending ∈ stack, low ≤ prio pending ∧ prio pending < high) (lowHigh : low ≤ high) :
    stack.length + low ≤ high := by
  induction stack generalizing high with
  | nil => simpa using lowHigh
  | cons top rest inductionHypothesis =>
      rw [List.forall_mem_cons] at range
      have below : ∀ pending ∈ rest, low ≤ prio pending ∧ prio pending < prio top := by
        intro pending member
        exact ⟨(range.2 pending member).1, (List.pairwise_cons.mp ascending).1 pending member⟩
      have rest_le := inductionHypothesis ascending.tail below range.1.1
      rw [List.length_cons]
      omega

end Pending

/-- No operator is read: the expression has ended. -/
def IsEnd (op : Opcode) : Prop := op = .generic ∨ op = .ternary

instance (op : Opcode) : Decidable (IsEnd op) := inferInstanceAs (Decidable (_ ∨ _))

/-- The priorities of the operators that are read. -/
theorem getOperator_prio {op : Opcode} {p p' : Parsing} (ran : getOperator p = .ok (op, p')) :
    IsEnd op ∨ 4 ≤ getOperatorPrio op ∧ getOperatorPrio op < 14 ∧
      (isLogical op = false → 6 ≤ getOperatorPrio op) := by
  have table : ∀ entry ∈ operatorKinds, 4 ≤ getOperatorPrio entry.2 ∧
      getOperatorPrio entry.2 < 14 ∧ (isLogical entry.2 = false → 6 ≤ getOperatorPrio entry.2) := by
    decide
  rw [getOperator] at ran
  split at ran
  · rename_i found isFound
    cases ran
    obtain ⟨kind, -, isKind⟩ := Option.bind_eq_some_iff.mp isFound
    exact .inr (table _ (Lexer.lookup_mem isKind))
  · cases ran
    left
    split_ifs
    · exact .inr rfl
    · exact .inl rfl

/-! ## The stack of `read_expr` -/

/-- Where the loops of `read_expr` are: the operator that was read last, what they know, and the
parser. -/
structure ExprState where
  op : Opcode
  s : Operators
  p : Parsing

/-- What `read_expr` does before the operand behind an operator. -/
def beforeOperand (ctx : Context) (op : Opcode) (s : Operators) : Parse Operators :=
  if isLogical op then readLogicalOperator ctx op s else finalizeStronger ctx op s

/-- What it does behind that operand. -/
def behindOperand (op : Opcode) (s : Operators) : Parse Operators :=
  if isLogical op then pure s else pushOperator op s

/-- What `read_expr` does for an operator when all pending ones bind weaker. -/
def readBehind (self : Readers) (ctx : Context) (op : Opcode) (s : Operators) :
    Parse (Opcode × Operators) := do
  let s ← beforeOperand ctx op s
  self.readExprOperand
  let s ← behindOperand op s
  let op ← getOperator
  pure (op, s)

/-- What `read_expr` does before the operand behind its first operator. -/
def beforeSecond (op : Opcode) (s : Operators) : Parse Operators :=
  if isLogical op then do
    testOperand op s
    pure { s with hasPrevLogOp := true, prevLogOp := op }
  else pushOperator op s

/-- What `read_expr` does for its first operator. -/
def readFirst (self : Readers) (op : Opcode) (s : Operators) : Parse (Opcode × Operators) := do
  let s ← beforeSecond op s
  self.readExprOperand
  let op ← getOperator
  pure (op, s)

/-- A step of the loops of `read_expr`: the operator on the top is applied, the next one is
pushed, or the stack is unwound. -/
inductive ExprStep (self : Readers) (ctx : Context) : ExprState → ExprState → Prop
  | apply {op top : Opcode} {rest : List Opcode} {s : Operators} {p p' : Parsing}
      (goesOn : ¬ IsEnd op) (isTop : s.operStack = top :: rest)
      (stronger : getOperatorPrio top ≥ getOperatorPrio op)
      (ran : applyOperator ctx top p = .ok ((), p')) :
      ExprStep self ctx ⟨op, s, p⟩ ⟨op, { s with operStack := rest }, p'⟩
  | push {op op' : Opcode} {s s' : Operators} {p p' : Parsing} (goesOn : ¬ IsEnd op)
      (isTop : ∀ top ∈ s.operStack.head?, getOperatorPrio top < getOperatorPrio op)
      (ran : readBehind self ctx op s p = .ok ((op', s'), p')) :
      ExprStep self ctx ⟨op, s, p⟩ ⟨op', s', p'⟩
  | finish {op top : Opcode} {rest : List Opcode} {s : Operators} {p p' : Parsing}
      (ended : IsEnd op) (isTop : s.operStack = top :: rest)
      (ran : finishOperator ctx top p = .ok ((), p')) :
      ExprStep self ctx ⟨op, s, p⟩ ⟨op, { s with operStack := rest }, p'⟩

/-- The loops of `read_expr` get there, from some state of the parser behind the first operand. -/
def ExprReaches (self : Readers) (ctx : Context) (state : ExprState) : Prop :=
  ∃ p q op s first, getOperator p = .ok (op, q) ∧ ¬ IsEnd op ∧ s.operStack = [] ∧
    readFirst self op s q = .ok ((first.op, first.s), first.p) ∧
    ReflTransGen (ExprStep self ctx) first state

section Expr

variable {self : Readers} {ctx : Context} {op op' : Opcode} {s s' : Operators} {p p' : Parsing}
  {rest : List Opcode}

theorem pushOperator_stack (ran : pushOperator op s p = .ok (s', p')) :
    s'.operStack = op :: s.operStack := by
  rw [pushOperator] at ran
  split_ifs at ran
  · cases ran
    rfl
  · cases ran

theorem finalizeOnce_stack (ran : finalizeOnce ctx s p = .ok (s', p')) :
    s'.operStack = s.operStack := by
  obtain ⟨_, _, _, ran⟩ := Parse.bind_eq_ok_iff.mp ran
  cases ran
  rfl

theorem finalizeStronger_stack (ran : finalizeStronger ctx op s p = .ok (s', p')) :
    s'.operStack = s.operStack := by
  rw [finalizeStronger] at ran
  split_ifs at ran
  · obtain ⟨s₁, p₁, first, ran⟩ := Parse.bind_eq_ok_iff.mp ran
    obtain ⟨s₂, p₂, once, first⟩ := Parse.bind_eq_ok_iff.mp first
    obtain ⟨fresh, p₃, -, first⟩ := Parse.bind_eq_ok_iff.mp first
    have isFirst : s₁.operStack = s.operStack := by
      rw [← finalizeOnce_stack once]
      split_ifs at first <;>
        · cases first
          rfl
    rw [← isFirst]
    split_ifs at ran
    · obtain ⟨s₄, p₄, once, ran⟩ := Parse.bind_eq_ok_iff.mp ran
      obtain ⟨fresh, p₅, -, ran⟩ := Parse.bind_eq_ok_iff.mp ran
      rw [← finalizeOnce_stack once]
      split_ifs at ran <;>
        · cases ran
          rfl
    · cases ran
      rfl
  · cases ran
    rfl

theorem readLogicalOperator_stack (ran : readLogicalOperator ctx op s p = .ok (s', p')) :
    s'.operStack = s.operStack := by
  rw [readLogicalOperator] at ran
  split_ifs at ran
  · obtain ⟨_, _, _, ran⟩ := Parse.bind_eq_ok_iff.mp ran
    cases ran
    rfl
  · obtain ⟨_, _, _, ran⟩ := Parse.bind_eq_ok_iff.mp ran
    obtain ⟨_, _, _, ran⟩ := Parse.bind_eq_ok_iff.mp ran
    obtain ⟨_, _, _, ran⟩ := Parse.bind_eq_ok_iff.mp ran
    cases ran
    rfl
  · obtain ⟨_, _, _, ran⟩ := Parse.bind_eq_ok_iff.mp ran
    cases ran
    rfl

/-- What the loops of `read_expr` keep: the operator read last is one, or the expression has
ended, and the pending operators are arithmetic ones in increasing order. -/
structure ExprState.Sound (state : ExprState) : Prop where
  read : IsEnd state.op ∨ 4 ≤ getOperatorPrio state.op ∧ getOperatorPrio state.op < 14 ∧
    (isLogical state.op = false → 6 ≤ getOperatorPrio state.op)
  ascending : Ascending getOperatorPrio state.s.operStack
  range : ∀ pending ∈ state.s.operStack,
    6 ≤ getOperatorPrio pending ∧ getOperatorPrio pending < 14

theorem ExprState.Sound.of_first (isRead : getOperator p = .ok (op, p')) (goesOn : ¬ IsEnd op)
    (isEmpty : s.operStack = []) {state : ExprState}
    (ran : readFirst self op s p' = .ok ((state.op, state.s), state.p)) : state.Sound := by
  rw [readFirst] at ran
  obtain ⟨s₁, p₁, first, ran⟩ := Parse.bind_eq_ok_iff.mp ran
  obtain ⟨_, p₂, -, ran⟩ := Parse.bind_eq_ok_iff.mp ran
  obtain ⟨op₁, p₃, next, ran⟩ := Parse.bind_eq_ok_iff.mp ran
  rcases state with ⟨op', s', p''⟩
  cases ran
  have isOperator := (getOperator_prio isRead).resolve_left goesOn
  have isNext := getOperator_prio next
  by_cases logical : isLogical op
  · rw [beforeSecond, if_pos logical] at first
    obtain ⟨_, _, -, first⟩ := Parse.bind_eq_ok_iff.mp first
    cases first
    exact ⟨isNext, by simp [isEmpty, Ascending], by simp [isEmpty]⟩
  · rw [beforeSecond, if_neg logical] at first
    have isStack : s'.operStack = [op] := by
      rw [← isEmpty]
      exact pushOperator_stack first
    refine ⟨isNext, by simp [isStack, Ascending], ?_⟩
    simp only [isStack, List.mem_singleton, forall_eq]
    exact ⟨isOperator.2.2 (by simpa using logical), isOperator.2.1⟩

theorem ExprState.Sound.pop {top : Opcode}
    (sound : ExprState.Sound ⟨op, s, p⟩) (isTop : s.operStack = top :: rest) :
    ExprState.Sound ⟨op, { s with operStack := rest }, p'⟩ := by
  have ascending := sound.ascending
  have range := sound.range
  dsimp only at ascending range
  rw [isTop] at ascending range
  exact ⟨sound.read, ascending.tail, (List.forall_mem_cons.mp range).2⟩

/-- One step keeps the pending operators in order. -/
theorem ExprState.Sound.step {state state' : ExprState} (sound : state.Sound)
    (step : ExprStep self ctx state state') : state'.Sound := by
  cases step with
  | apply goesOn isTop stronger ran => exact sound.pop isTop
  | @push op op' s s' p p' goesOn isTop ran =>
      rw [readBehind] at ran
      obtain ⟨s₁, p₁, first, ran⟩ := Parse.bind_eq_ok_iff.mp ran
      obtain ⟨_, p₂, -, ran⟩ := Parse.bind_eq_ok_iff.mp ran
      obtain ⟨s₃, p₃, pushed, ran⟩ := Parse.bind_eq_ok_iff.mp ran
      obtain ⟨op₁, p₄, next, ran⟩ := Parse.bind_eq_ok_iff.mp ran
      cases ran
      have isOperator := sound.read.resolve_left goesOn
      have isNext := getOperator_prio next
      by_cases logical : isLogical op
      · rw [beforeOperand, if_pos logical] at first
        rw [behindOperand, if_pos logical] at pushed
        have isStack := readLogicalOperator_stack first
        cases pushed
        exact ⟨isNext, isStack ▸ sound.ascending, isStack ▸ sound.range⟩
      · rw [beforeOperand, if_neg logical] at first
        rw [behindOperand, if_neg logical] at pushed
        have isStack := pushOperator_stack pushed
        rw [finalizeStronger_stack first] at isStack
        refine ⟨isNext, ?_, ?_⟩
        · rw [isStack]
          exact sound.ascending.cons isTop
        · rw [isStack, List.forall_mem_cons]
          exact ⟨⟨isOperator.2.2 (by simpa using logical), isOperator.2.1⟩, sound.range⟩
  | finish ended isTop ran => exact sound.pop isTop

/-- In every run the pending operators are in order. -/
theorem ExprReaches.sound {state : ExprState} (reaches : ExprReaches self ctx state) :
    state.Sound := by
  obtain ⟨p, q, op, s, first, isRead, goesOn, isEmpty, ran, run⟩ := reaches
  have start := ExprState.Sound.of_first isRead goesOn isEmpty ran
  induction run with
  | refl => exact start
  | tail _ step inductionHypothesis => exact inductionHypothesis.step step

/-- There are eight priorities above the logical operators. -/
theorem ExprState.Sound.length_le {state : ExprState} (sound : state.Sound) :
    state.s.operStack.length ≤ 8 := by
  have bound := sound.ascending.length_le sound.range (by decide)
  omega

/-! The steps are those of `read_expr`. -/

theorem applyStronger_steps {stack : List Opcode} (goesOn : ¬ IsEnd op)
    (isStack : s.operStack = stack)
    (ran : applyStronger ctx op stack p = .ok (rest, p')) :
    ReflTransGen (ExprStep self ctx) ⟨op, s, p⟩ ⟨op, { s with operStack := rest }, p'⟩ ∧
      ∀ top ∈ rest.head?, getOperatorPrio top < getOperatorPrio op := by
  induction stack generalizing s p with
  | nil =>
      cases ran
      refine ⟨?_, by simp⟩
      rw [← isStack]
  | cons top stack inductionHypothesis =>
      rw [applyStronger] at ran
      split_ifs at ran with stronger
      · obtain ⟨_, p₁, applied, ran⟩ := Parse.bind_eq_ok_iff.mp ran
        have steps := @inductionHypothesis { s with operStack := stack } p₁ rfl ran
        exact ⟨.head (.apply goesOn isStack stronger applied) steps.1, steps.2⟩
      · cases ran
        refine ⟨?_, ?_⟩
        · rw [← isStack]
        · intro top' isTop
          cases isTop
          exact Nat.lt_of_not_ge stronger

theorem readOperators_succ (fuel : Nat) :
    readOperators self ctx (fuel + 1) op s =
      if IsEnd op then pure s
      else
        applyStronger ctx op s.operStack >>= fun operStack =>
          readBehind self ctx op { s with operStack := operStack } >>= fun behind =>
            readOperators self ctx fuel behind.1 behind.2 := by
  rw [readOperators]
  by_cases ended : IsEnd op
  · rw [if_pos ended]
    exact if_pos ended
  · rw [if_neg ended]
    refine (if_neg ended).trans ?_
    congr 1
    funext operStack
    rw [readBehind]
    by_cases logical : isLogical op
    · simp [beforeOperand, behindOperand, logical]
    · simp [beforeOperand, behindOperand, logical]

theorem readOperators_steps {fuel : Nat} (ran : readOperators self ctx fuel op s p = .ok (s', p')) :
    ∃ op', IsEnd op' ∧ ReflTransGen (ExprStep self ctx) ⟨op, s, p⟩ ⟨op', s', p'⟩ := by
  induction fuel generalizing op s p with
  | zero => cases ran
  | succ fuel inductionHypothesis =>
      rw [readOperators_succ] at ran
      by_cases ended : IsEnd op
      · rw [if_pos ended] at ran
        cases ran
        exact ⟨op, ended, .refl⟩
      · rw [if_neg ended] at ran
        obtain ⟨rest, p₁, applied, ran⟩ := Parse.bind_eq_ok_iff.mp ran
        obtain ⟨⟨op₂, s₂⟩, p₂, pushed, ran⟩ := Parse.bind_eq_ok_iff.mp ran
        obtain ⟨op', ended', steps⟩ := inductionHypothesis ran
        obtain ⟨first, isTop⟩ := applyStronger_steps ended rfl applied
        exact ⟨op', ended', first.trans (.head (.push ended isTop pushed) steps)⟩

theorem finishOperators_steps {stack : List Opcode} (ended : IsEnd op)
    (isStack : s.operStack = stack) (ran : finishOperators ctx stack p = .ok ((), p')) :
    ReflTransGen (ExprStep self ctx) ⟨op, s, p⟩ ⟨op, { s with operStack := [] }, p'⟩ := by
  induction stack generalizing s p with
  | nil =>
      cases ran
      rw [← isStack]
  | cons top stack inductionHypothesis =>
      rw [finishOperators] at ran
      obtain ⟨_, p₁, finished, ran⟩ := Parse.bind_eq_ok_iff.mp ran
      have steps := @inductionHypothesis { s with operStack := stack } p₁ rfl ran
      exact .head (.finish ended isStack finished) steps

/-- What `read_expr` computes from an operator on is what its steps do. -/
theorem readExpr_steps (ran : readExpr self ctx p = .ok ((), p')) :
    (∃ q op, getOperator q = .ok (op, p') ∧ IsEnd op) ∨
      ∃ op s q, ExprReaches self ctx ⟨op, { s with operStack := [] }, q⟩ ∧ IsEnd op ∧
        finalizeAll ctx s q = .ok ((), p') := by
  rw [readExpr] at ran
  obtain ⟨logAndSharedBb, p₁, -, ran⟩ := Parse.bind_eq_ok_iff.mp ran
  obtain ⟨logOrSharedBb, p₂, -, ran⟩ := Parse.bind_eq_ok_iff.mp ran
  obtain ⟨_, p₃, -, ran⟩ := Parse.bind_eq_ok_iff.mp ran
  obtain ⟨op, p₄, isRead, ran⟩ := Parse.bind_eq_ok_iff.mp ran
  by_cases ended : IsEnd op
  · left
    have isDone : ¬ (op ≠ .generic ∧ op ≠ .ternary) := by
      rcases ended with rfl | rfl <;> simp
    dsimp only at ran
    rw [if_neg isDone] at ran
    cases ran
    exact ⟨p₃, op, isRead, ended⟩
  · right
    have goesOn : op ≠ .generic ∧ op ≠ .ternary := not_or.mp ended
    dsimp only at ran
    rw [if_pos goesOn] at ran
    have whole : (readFirst self op ⟨[], false, .generic, .generic, logAndSharedBb,
        logOrSharedBb⟩ >>= fun first => readOperators self ctx self.fuel first.1 first.2 >>=
          fun s => finishOperators ctx s.operStack >>= fun _ => finalizeAll ctx s) p₄ =
        .ok ((), p') := by
      rw [← ran]
      by_cases logical : isLogical op
      · simp [readFirst, beforeSecond, logical]
      · simp [readFirst, beforeSecond, logical]
    obtain ⟨⟨op₁, s₁⟩, q, first, ran⟩ := Parse.bind_eq_ok_iff.mp whole
    obtain ⟨s₂, p₅, loop, ran⟩ := Parse.bind_eq_ok_iff.mp ran
    obtain ⟨_, p₆, finished, ran⟩ := Parse.bind_eq_ok_iff.mp ran
    obtain ⟨op', ended', steps⟩ := readOperators_steps loop
    have unwound := @finishOperators_steps self ctx op' s₂ p₅ p₆ _ ended' rfl finished
    exact ⟨op', s₂, p₆,
      ⟨p₃, p₄, op, _, ⟨op₁, s₁, q⟩, isRead, ended, rfl, first, steps.trans unwound⟩, ended', ran⟩

end Expr

/-! ## The stacks of `read_global_assignment` -/

/-- Where the loops of `read_global_assignment` are: the operator that was read last, the stacks,
and the parser. -/
structure GlobalState where
  op : Opcode
  s : Stacks
  p : Parsing

/-- What `read_global_assignment` does behind the first operand: there is an operator that it
reads the loops with, or the expression ends before. -/
def readStart (ctx : Context) (loops : Nat) (operand1 : Word) :
    Parse (Option (Opcode × Stacks)) := do
  let op ← getOperator
  if IsEnd op then pure none
  else
    let operand2 ← readPrimaryConstant ctx loops
    let nextOp ← getOperator
    if nextOp = .generic then pure none
    else pure (some (nextOp, ⟨[op], [operand2, operand1]⟩))

namespace GlobalState

/-- The operator on the top is applied next: the expression has ended, or the operator behind
does not bind stronger. -/
def Applies (state : GlobalState) : Prop :=
  ∃ top ∈ state.s.ops.head?, IsEnd state.op ∨ getOperatorPrio top ≥ getOperatorPrio state.op

instance (state : GlobalState) : Decidable state.Applies :=
  match isTop : state.s.ops.head? with
  | none => isFalse fun applies => by
      obtain ⟨top, member, -⟩ := applies
      rw [isTop] at member
      cases member
  | some top =>
      decidable_of_iff (IsEnd state.op ∨ getOperatorPrio top ≥ getOperatorPrio state.op) (by
        simp [Applies, isTop])

/-- A step of the loops of `read_global_assignment`: the operator on the top is applied, or else
the next operand and operator are pushed. -/
def next (ctx : Context) (loops : Nat) (state : GlobalState) : Option GlobalState :=
  if state.Applies then
    (state.s.applyTop state.p).toOption.map fun result => ⟨state.op, result.1, result.2⟩
  else if IsEnd state.op then none
  else
    (pushNext ctx loops state.op state.s state.p).toOption.map fun result =>
      ⟨result.1.1, result.1.2, result.2⟩

/-- The elements of the stacks that the next step uses are in their arrays. -/
structure Inside (state : GlobalState) : Prop where
  apply : state.Applies → 2 ≤ state.s.vals.length ∧
    state.s.vals.length ≤ maxOperStackSize ∧ state.s.ops.length ≤ maxOperStackSize
  push : ¬ state.Applies → ¬ IsEnd state.op →
    state.s.vals.length < maxOperStackSize ∧ state.s.ops.length < maxOperStackSize

/-- Fewer than nine pending operators bind weaker than the one that was read. -/
def Few (state : GlobalState) : Prop :=
  (state.s.ops.filter fun pending =>
    getOperatorPrio pending < getOperatorPrio state.op).length < 9

/-- The loops of `read_global_assignment` get there from a state behind the first operand. -/
def Reached (ctx : Context) (loops : Nat) (state : GlobalState) : Prop :=
  ∃ operand1 p first, readStart ctx loops operand1 p = .ok (some (first.op, first.s), first.p) ∧
    ReflTransGen (fun state state' => next ctx loops state = some state') first state

end GlobalState

section Global

variable {ctx : Context} {loops : Nat} {op op' : Opcode} {s s' : Stacks} {p p' : Parsing}
  {state state' : GlobalState}

theorem applyTop_stacks (ran : s.applyTop p = .ok (s', p')) :
    s'.ops = s.ops.tail ∧ s'.vals.length + 1 = s.vals.length := by
  rcases s with ⟨_ | ⟨op, ops⟩, _ | ⟨operand2, _ | ⟨operand1, vals⟩⟩⟩
  · cases ran
  · cases ran
  · cases ran
  · cases ran
  · cases ran
  · rw [Stacks.applyTop] at ran
    obtain ⟨res, p₁, -, pushed⟩ := Parse.bind_eq_ok_iff.mp ran
    rw [Stacks.pushValue] at pushed
    split_ifs at pushed
    · cases pushed
      exact ⟨rfl, rfl⟩
    · cases pushed

theorem pushNext_stacks (ran : pushNext ctx loops op s p = .ok ((op', s'), p')) :
    s'.ops = op :: s.ops ∧ s'.vals.length = s.vals.length + 1 ∧
      s.vals.length < maxOperStackSize ∧ ∃ q, getOperator q = .ok (op', p') := by
  rw [pushNext] at ran
  obtain ⟨value, p₁, -, ran⟩ := Parse.bind_eq_ok_iff.mp ran
  obtain ⟨s₁, p₂, pushedValue, ran⟩ := Parse.bind_eq_ok_iff.mp ran
  obtain ⟨s₂, p₃, pushedOp, ran⟩ := Parse.bind_eq_ok_iff.mp ran
  obtain ⟨op₁, p₄, isRead, ran⟩ := Parse.bind_eq_ok_iff.mp ran
  cases ran
  rw [Stacks.pushValue] at pushedValue
  split_ifs at pushedValue with room
  · cases pushedValue
    rw [Stacks.pushOp] at pushedOp
    split_ifs at pushedOp
    · cases pushedOp
      exact ⟨rfl, rfl, room, _, isRead⟩
    · cases pushedOp
  · cases pushedValue

/-- What the loops of `read_global_assignment` keep: the operator read last is one, or the
expression has ended, the pending operators are in increasing order, and there is one value more
than operators. -/
structure GlobalState.Sound (state : GlobalState) : Prop where
  read : IsEnd state.op ∨ 4 ≤ getOperatorPrio state.op ∧ getOperatorPrio state.op < 14
  ascending : Ascending getOperatorPrio state.s.ops
  range : ∀ pending ∈ state.s.ops, 4 ≤ getOperatorPrio pending
  counts : state.s.vals.length = state.s.ops.length + 1
  room : state.s.vals.length ≤ maxOperStackSize

theorem getOperator_read (ran : getOperator p = .ok (op, p')) :
    IsEnd op ∨ 4 ≤ getOperatorPrio op ∧ getOperatorPrio op < 14 :=
  (getOperator_prio ran).imp_right fun isOperator => ⟨isOperator.1, isOperator.2.1⟩

theorem toOption_eq_some {α β : Type} {result : Except β α} {value : α}
    (isSome : result.toOption = some value) : result = .ok value := by
  cases result with
  | error stop => cases isSome
  | ok found =>
      cases isSome
      rfl

/-- One step keeps the pending operators in order and the stacks of matching lengths. -/
theorem GlobalState.Sound.step (sound : state.Sound) (step : state.next ctx loops = some state') :
    state'.Sound := by
  rw [GlobalState.next] at step
  split_ifs at step with applies ended
  · obtain ⟨⟨s', p'⟩, isSome, rfl⟩ := Option.map_eq_some_iff.mp step
    obtain ⟨isOps, isVals⟩ := applyTop_stacks (toOption_eq_some isSome)
    obtain ⟨top, isTop, -⟩ := applies
    obtain ⟨rest, isRest⟩ := List.head?_eq_some_iff.mp isTop
    rw [isRest, List.tail_cons] at isOps
    have ascending := sound.ascending
    have range := sound.range
    have counts := sound.counts
    have room := sound.room
    rw [isRest] at ascending range counts
    refine ⟨sound.read, ?_, ?_, ?_, ?_⟩
    · exact isOps ▸ ascending.tail
    · exact isOps ▸ (List.forall_mem_cons.mp range).2
    · rw [List.length_cons] at counts
      rw [isOps]
      exact Nat.succ_injective (isVals.trans counts)
    · exact Nat.le_of_succ_le (isVals.trans_le room)
  · obtain ⟨⟨⟨op', s'⟩, p'⟩, isSome, rfl⟩ := Option.map_eq_some_iff.mp step
    obtain ⟨isOps, isVals, room, q, isRead⟩ := pushNext_stacks (toOption_eq_some isSome)
    have isOperator := sound.read.resolve_left ended
    have isTop : ∀ top ∈ state.s.ops.head?, getOperatorPrio top < getOperatorPrio state.op := by
      intro top isTop
      by_contra stronger
      exact applies ⟨top, isTop, .inr (Nat.le_of_not_lt stronger)⟩
    have counts := sound.counts
    refine ⟨getOperator_read isRead, ?_, ?_, ?_, ?_⟩
    · exact isOps ▸ sound.ascending.cons isTop
    · rw [isOps, List.forall_mem_cons]
      exact ⟨isOperator.1, sound.range⟩
    · rw [isOps, isVals, counts, List.length_cons]
    · rw [isVals]
      exact room

theorem GlobalState.Sound.of_start {operand1 : Word}
    (ran : readStart ctx loops operand1 p = .ok (some (state.op, state.s), state.p)) :
    state.Sound := by
  rw [readStart] at ran
  obtain ⟨op, p₁, isRead, ran⟩ := Parse.bind_eq_ok_iff.mp ran
  split_ifs at ran with ended
  · cases ran
  · obtain ⟨operand2, p₂, -, ran⟩ := Parse.bind_eq_ok_iff.mp ran
    obtain ⟨nextOp, p₃, isNext, ran⟩ := Parse.bind_eq_ok_iff.mp ran
    have isOperator := (getOperator_read isRead).resolve_left ended
    rcases state with ⟨op', s', p'⟩
    split_ifs at ran
    · cases ran
    · cases ran
      refine ⟨getOperator_read isNext, ?_, ?_, rfl, ?_⟩
      · simp [Ascending]
      · simpa using isOperator.1
      · simp [maxOperStackSize]

/-- In every run the pending operators are in order and the stacks of matching lengths. -/
theorem GlobalState.Reached.sound (reached : state.Reached ctx loops) : state.Sound := by
  obtain ⟨operand1, p, first, ran, run⟩ := reached
  have start := GlobalState.Sound.of_start ran
  induction run with
  | refl => exact start
  | tail _ step inductionHypothesis => exact inductionHypothesis.step step

/-- The next step stays inside the stacks unless nine weaker operators are pending. -/
theorem GlobalState.Sound.inside_iff (sound : state.Sound) : state.Inside ↔ state.Few := by
  have counts := sound.counts
  have room := sound.room
  rw [maxOperStackSize] at room
  by_cases applies : state.Applies
  · obtain ⟨top, isTop, stronger⟩ := applies
    obtain ⟨rest, isRest⟩ := List.head?_eq_some_iff.mp isTop
    have notCounted : ¬ getOperatorPrio top < getOperatorPrio state.op := by
      rcases stronger with (isEnd | isEnd) | stronger
      · rw [isEnd]
        exact Nat.not_lt_zero _
      · have isOperator := sound.range top (by rw [isRest]; exact List.mem_cons_self)
        rw [isEnd, getOperatorPrio]
        omega
      · exact Nat.not_lt_of_ge stronger
    have few : state.Few := by
      have shorter := List.length_filter_le
        (fun pending => decide (getOperatorPrio pending < getOperatorPrio state.op)) rest
      rw [isRest, List.length_cons] at counts
      rw [GlobalState.Few, isRest, List.filter_cons_of_neg (by simpa using notCounted)]
      omega
    have inside : state.Inside := by
      rw [isRest, List.length_cons] at counts
      refine ⟨fun _ => ⟨by omega, room, ?_⟩, fun weaker => absurd ⟨top, isTop, stronger⟩ weaker⟩
      rw [isRest, List.length_cons, maxOperStackSize]
      omega
    exact iff_of_true inside few
  · have isTop : ∀ top ∈ state.s.ops.head?, ¬ IsEnd state.op ∧
        getOperatorPrio top < getOperatorPrio state.op := by
      intro top isTop
      rw [← not_le, ← not_or]
      exact fun stronger => applies ⟨top, isTop, stronger⟩
    by_cases ended : IsEnd state.op
    · have isEmpty : state.s.ops = [] := by
        rw [← List.head?_eq_none_iff]
        by_contra nonempty
        obtain ⟨top, member⟩ := Option.ne_none_iff_exists'.mp nonempty
        exact (isTop top member).1 ended
      have few : state.Few := by simp [GlobalState.Few, isEmpty]
      exact iff_of_true ⟨fun other => absurd other applies, fun _ goesOn => absurd ended goesOn⟩ few
    · have weaker := sound.ascending.weaker fun top member => (isTop top member).2
      have all : (state.s.ops.filter fun pending =>
          getOperatorPrio pending < getOperatorPrio state.op) = state.s.ops := by
        rw [List.filter_eq_self]
        simpa using weaker
      rw [GlobalState.Few, all]
      constructor
      · intro inside
        have bounds := inside.push applies ended
        rw [maxOperStackSize] at bounds
        omega
      · intro few
        refine ⟨fun other => absurd other applies, fun _ _ => ?_⟩
        rw [maxOperStackSize]
        omega

/-- In every run the operator stack of `read_expr` is in order and has room. In every run of
`read_global_assignment` its operator stack is in order, there is one value more, and a step stays
inside the stacks exactly if fewer than nine weaker operators are pending. -/
theorem stacks_inside (ctx : Context) :
    (∀ self state, ExprReaches self ctx state →
      Ascending getOperatorPrio state.s.operStack ∧
        state.s.operStack.length < maxOperStackSize) ∧
    ∀ loops (state : GlobalState), state.Reached ctx loops →
      Ascending getOperatorPrio state.s.ops ∧ state.s.vals.length = state.s.ops.length + 1 ∧
        (state.Inside ↔ state.Few) := by
  constructor
  · intro self state reaches
    have sound := reaches.sound
    exact ⟨sound.ascending, Nat.lt_of_le_of_lt sound.length_le (by decide)⟩
  · intro loops state reached
    have sound := reached.sound
    exact ⟨sound.ascending, sound.counts, sound.inside_iff⟩

/-! The steps are those of `read_global_assignment`. -/

theorem GlobalState.next_apply (applies : GlobalState.Applies ⟨op, s, p⟩)
    (ran : s.applyTop p = .ok (s', p')) :
    GlobalState.next ctx loops ⟨op, s, p⟩ = some ⟨op, s', p'⟩ := by
  rw [GlobalState.next, if_pos applies]
  dsimp only
  rw [ran]
  rfl

theorem applyPending_steps {rounds : Nat} (enough : s.ops.length ≤ rounds)
    (ran : applyPending op rounds s p = .ok (s', p')) (goesOn : ¬ IsEnd op) :
    ReflTransGen (fun state state' => GlobalState.next ctx loops state = some state')
        ⟨op, s, p⟩ ⟨op, s', p'⟩ ∧ ¬ GlobalState.Applies ⟨op, s', p'⟩ := by
  induction rounds generalizing s p with
  | zero =>
      cases ran
      refine ⟨.refl, ?_⟩
      rintro ⟨top, isTop, -⟩
      rw [List.eq_nil_of_length_eq_zero (Nat.le_zero.mp enough)] at isTop
      cases isTop
  | succ rounds inductionHypothesis =>
      rw [applyPending.eq_def] at ran
      dsimp only at ran
      cases isOps : s.ops with
      | nil =>
          rw [isOps] at ran
          cases ran
          refine ⟨.refl, ?_⟩
          rintro ⟨top, isTop, -⟩
          rw [isOps] at isTop
          cases isTop
      | cons top rest =>
          rw [isOps] at ran
          dsimp only at ran
          have isTop : s.ops.head? = some top := by rw [isOps, List.head?_cons]
          split_ifs at ran with stronger
          · obtain ⟨s₁, p₁, applied, ran⟩ := Parse.bind_eq_ok_iff.mp ran
            have isOps₁ := (applyTop_stacks applied).1
            rw [isOps, List.tail_cons] at isOps₁
            rw [isOps, List.length_cons] at enough
            have steps := inductionHypothesis (by rw [isOps₁]; omega) ran
            exact ⟨.head (GlobalState.next_apply ⟨top, isTop, .inr stronger⟩ applied) steps.1,
              steps.2⟩
          · cases ran
            refine ⟨.refl, ?_⟩
            rintro ⟨top', isTop', other⟩
            obtain rfl := Option.some.inj (isTop.symm.trans isTop')
            rcases other with ended | other
            · exact goesOn ended
            · exact stronger other

theorem readPending_steps {fuel : Nat}
    (ran : readPending ctx loops fuel op s p = .ok ((op', s'), p')) :
    IsEnd op' ∧ ReflTransGen (fun state state' => GlobalState.next ctx loops state = some state')
      ⟨op, s, p⟩ ⟨op', s', p'⟩ := by
  induction fuel generalizing op s p with
  | zero => cases ran
  | succ fuel inductionHypothesis =>
      rw [readPending] at ran
      change (if IsEnd op then _ else _ : Parse _) p = _ at ran
      by_cases ended : IsEnd op
      · rw [if_pos ended] at ran
        cases ran
        exact ⟨ended, .refl⟩
      · rw [if_neg ended] at ran
        obtain ⟨s₁, p₁, applied, ran⟩ := Parse.bind_eq_ok_iff.mp ran
        obtain ⟨⟨op₂, s₂⟩, p₂, pushed, ran⟩ := Parse.bind_eq_ok_iff.mp ran
        obtain ⟨first, isTop⟩ := @applyPending_steps ctx loops op s s₁ p p₁ _ le_rfl applied ended
        obtain ⟨ended', steps⟩ := inductionHypothesis ran
        refine ⟨ended', first.trans (.head ?_ steps)⟩
        rw [GlobalState.next, if_neg isTop, if_neg ended]
        dsimp only
        rw [pushed]
        rfl

theorem unwind_steps {rounds : Nat} (enough : s.ops.length ≤ rounds) (ended : IsEnd op)
    (ran : unwind rounds s p = .ok (s', p')) :
    s'.ops = [] ∧ ReflTransGen
      (fun state state' => GlobalState.next ctx loops state = some state')
      ⟨op, s, p⟩ ⟨op, s', p'⟩ := by
  induction rounds generalizing s p with
  | zero =>
      cases ran
      exact ⟨List.eq_nil_of_length_eq_zero (Nat.le_zero.mp enough), .refl⟩
  | succ rounds inductionHypothesis =>
      rw [unwind.eq_def] at ran
      dsimp only at ran
      cases isOps : s.ops with
      | nil =>
          rw [isOps] at ran
          cases ran
          exact ⟨isOps, .refl⟩
      | cons top rest =>
          rw [isOps] at ran
          dsimp only at ran
          obtain ⟨s₁, p₁, applied, ran⟩ := Parse.bind_eq_ok_iff.mp ran
          have isOps₁ := (applyTop_stacks applied).1
          rw [isOps, List.tail_cons] at isOps₁
          rw [isOps, List.length_cons] at enough
          have steps := inductionHypothesis (by rw [isOps₁]; omega) ran
          have isTop : s.ops.head? = some top := by rw [isOps, List.head?_cons]
          exact ⟨steps.1,
            .head (GlobalState.next_apply ⟨top, isTop, .inl ended⟩ applied) steps.2⟩

/-- What `read_global_assignment` computes behind an operator is what its steps do. -/
theorem readContinued_steps {again : Parse Bool} {operand1 : Word} {q : Parsing} {done : Bool}
    (isRead : getOperator p = .ok (op, q)) (goesOn : ¬ IsEnd op)
    (ran : readContinued ctx again loops op operand1 q = .ok (done, p')) :
    (∃ r, readStart ctx loops operand1 p = .ok (none, r)) ∨
      ∃ state : GlobalState, state.Reached ctx loops ∧ IsEnd state.op ∧ state.s.ops = [] ∧
        finishAssignment ctx again loops state.op (state.s.vals.getLastD 0) state.p =
          .ok (done, p') := by
  rw [readContinued] at ran
  obtain ⟨operand2, p₁, second, ran⟩ := Parse.bind_eq_ok_iff.mp ran
  obtain ⟨nextOp, p₂, isNext, ran⟩ := Parse.bind_eq_ok_iff.mp ran
  have start : readStart ctx loops operand1 p =
      (if nextOp = .generic then pure none
        else pure (some (nextOp, ⟨[op], [operand2, operand1]⟩)) : Parse _) p₂ := by
    rw [readStart, Parse.bind_ok isRead, if_neg goesOn, Parse.bind_ok second, Parse.bind_ok isNext]
  by_cases ended : nextOp = .generic
  · rw [if_pos ended] at start
    exact .inl ⟨p₂, start⟩
  · rw [if_neg ended] at ran start
    obtain ⟨⟨op₃, s₃⟩, p₃, loop, ran⟩ := Parse.bind_eq_ok_iff.mp ran
    obtain ⟨s₄, p₄, unwound, ran⟩ := Parse.bind_eq_ok_iff.mp ran
    obtain ⟨ended', steps⟩ := readPending_steps loop
    obtain ⟨isEmpty, rest⟩ := @unwind_steps ctx loops op₃ s₃ s₄ p₃ p₄ _ le_rfl ended' unwound
    exact .inr ⟨⟨op₃, s₄, p₄⟩, ⟨operand1, p, ⟨nextOp, _, p₂⟩, start, steps.trans rest⟩, ended', isEmpty, ran⟩

end Global

/-! ## Ten priorities -/

/-- Where some steps lead. -/
def GlobalState.after (ctx : Context) (loops : Nat) : Nat → GlobalState → Option GlobalState
  | 0, state => some state
  | n + 1, state => (state.next ctx loops).bind (GlobalState.after ctx loops n)

theorem GlobalState.after_steps {ctx : Context} {loops n : Nat} {state state' : GlobalState}
    (isAfter : state.after ctx loops n = some state') :
    ReflTransGen (fun state state' => GlobalState.next ctx loops state = some state')
      state state' := by
  induction n generalizing state with
  | zero =>
      cases isAfter
      exact .refl
  | succ n inductionHypothesis =>
      obtain ⟨middle, step, isAfter⟩ := Option.bind_eq_some_iff.mp isAfter
      exact .head step (inductionHypothesis isAfter)

/-- The parser behind the first operand of an initializer with these operators, the other
operands of which are ones. -/
def behindOne (kinds : List TokenKind) : Parsing :=
  (behindVariable []).move ⟨⟨.numeric, "1", ⟨0, 0, 0, 0, ""⟩⟩,
    kinds.flatMap (fun kind => [⟨kind, "", ⟨0, 0, 0, 0, ""⟩⟩, ⟨.numeric, "1", ⟨0, 0, 0, 0, ""⟩⟩]) ++
      [⟨.semicolon, "", ⟨0, 0, 0, 0, ""⟩⟩]⟩

/-- The state that `read_global_assignment` starts its loops in. -/
def startOf (kinds : List TokenKind) : Option GlobalState :=
  match readStart intContext 1 1 (behindOne kinds) with
  | .ok (some (op, s), p) => some ⟨op, s, p⟩
  | _ => none

theorem startOf_reached {kinds : List TokenKind} {n : Nat} {state : GlobalState}
    (isState : (startOf kinds).bind (GlobalState.after intContext 1 n) = some state) :
    state.Reached intContext 1 := by
  obtain ⟨first, isFirst, isAfter⟩ := Option.bind_eq_some_iff.mp isState
  refine ⟨1, behindOne kinds, first, ?_, GlobalState.after_steps isAfter⟩
  rw [startOf] at isFirst
  split at isFirst
  · rename_i op s p ran
    cases isFirst
    exact ran
  · cases isFirst

/-- `int x = 1 || 1 && 1 | 1 ^ 1 & 1 == 1 < 1 << 1 + 1 * 1;` -/
def tenPriorities : List TokenKind :=
  [.logOr, .logAnd, .bitOr, .bitXor, .ampersand, .eq, .lt, .lshift, .plus, .asterisk]

theorem tenPriorities_not_inside :
    ∃ state : GlobalState, state.Reached intContext 1 ∧ ¬ state.Inside := by
  have leaves : ((startOf tenPriorities).bind (GlobalState.after intContext 1 8)).any
      (fun state => ¬ state.Applies ∧ ¬ IsEnd state.op ∧
        ¬ state.s.vals.length < maxOperStackSize) = true := by
    decide +kernel
  obtain ⟨state, isState, isFull⟩ := (Option.any_eq_true _ _).mp leaves
  obtain ⟨weaker, goesOn, isFull⟩ := of_decide_eq_true isFull
  exact ⟨state, startOf_reached isState, fun inside => isFull (inside.push weaker goesOn).1⟩

/-- `int x = 1 || 1 && 1;` stays inside. -/
theorem twoOperators_inside :
    ∃ state : GlobalState, state.Reached intContext 1 ∧ state.s.ops = [.logAnd, .logOr] ∧
      state.Inside := by
  have isFew : ((startOf [.logOr, .logAnd]).bind (GlobalState.after intContext 1 1)).any
      (fun state => state.s.ops = [.logAnd, .logOr] ∧ (state.s.ops.filter fun pending =>
        getOperatorPrio pending < getOperatorPrio state.op).length < 9) = true := by
    decide +kernel
  obtain ⟨state, isState, isFew⟩ := (Option.any_eq_true _ _).mp isFew
  obtain ⟨isOps, isFew⟩ := of_decide_eq_true isFew
  have reached := startOf_reached isState
  exact ⟨state, reached, isOps, ((stacks_inside intContext).2 1 state reached).2.2.mpr isFew⟩

end Shecc.Parser
