import Shecc.Parser.Growth
import Shecc.Parser.Records

/-!
# The queue of postfix side effects

A postfix operator stores three instructions in `side_effect`, and `perform_side_effect`
empties it. Nothing compares the index with the size of the array: what is stored stays
inside it as long as no more than three operators are read between two sequence points.
-/

namespace Shecc.Parser

/-! ## What a program makes of the queue -/

/-- An expression, in the order in which its parts are read. -/
inductive Expr
  /-- A name, what is between the brackets behind it, and `++` or `--`. -/
  | postfixOp (inside : List Expr)
  /-- Anything else. -/
  | other (parts : List Expr)

/-- A statement of `read_body_statement`, with the expressions it reads. The expressions of
a declaration are those behind each name. -/
inductive Stmt
  | block (body : List Stmt)
  | return_ (value : Option Expr)
  | if_ (condition : Expr) (then_ : Stmt) (else_ : Option Stmt)
  | while_ (condition : Expr) (body : Stmt)
  | switch (value : Expr) (body : List Stmt)
  | for_ (setup : List (List Expr)) (condition : Option Expr) (step : List Expr) (body : Stmt)
  | doWhile (body : Stmt) (condition : Expr)
  /-- `break`, `continue`, `goto`, a label or nothing. -/
  | jump
  | declare (first : List Expr) (others : List (List Expr))
  | call (arguments : List Expr)
  /-- `*p = value;` -/
  | store (target value : Expr)
  /-- `*p;` -/
  | evaluate (target : Expr)
  /-- An assignment, an update or an indirect call. -/
  | assign (parts : List Expr)

/-- What happens to the queue. -/
inductive Event
  | postfixOp
  | sequencePoint
  deriving DecidableEq

namespace Event

/-- The indices at which `read_lvalue` stores, from `se_idx` on. -/
def stores (seIdx : Nat) : Event → List Nat
  | postfixOp => [seIdx, seIdx + 1, seIdx + 2]
  | sequencePoint => []

/-- The `se_idx` that is left. -/
def seIdx (seIdx : Nat) : Event → Nat
  | postfixOp => seIdx + 3
  | sequencePoint => 0

end Event

/-- The indices at which a run stores. -/
def storesOf (seIdx : Nat) : List Event → List Nat
  | [] => []
  | event :: rest => event.stores seIdx ++ storesOf (event.seIdx seIdx) rest

mutual

/-- An operator is queued when everything in front of it has been read. -/
def Expr.events : Expr → List Event
  | .postfixOp inside => eventsOf inside ++ [.postfixOp]
  | .other parts => eventsOf parts

def eventsOf : List Expr → List Event
  | [] => []
  | e :: rest => e.events ++ eventsOf rest

end

/-- Expressions behind names, with a sequence point at every comma. -/
def declarators (first : List Expr) (others : List (List Expr)) : List Event :=
  eventsOf first ++ others.flatMap fun exprs => .sequencePoint :: eventsOf exprs

mutual

/-- `read_body_statement`: which statements end with a sequence point of their own. -/
def Stmt.events : Stmt → List Event
  | .block body => blockEvents body
  | .return_ none => []
  | .return_ (some value) => value.events ++ [.sequencePoint]
  | .if_ condition then_ none => condition.events ++ then_.events
  | .if_ condition then_ (some else_) => condition.events ++ then_.events ++ else_.events
  | .while_ condition body => condition.events ++ body.events
  | .switch value body => value.events ++ bodyEvents body
  | .for_ setup condition step body =>
      declarators (setup.headD []) setup.tail ++ (condition.elim [] Expr.events) ++
        eventsOf step ++ body.events
  | .doWhile body condition => body.events ++ condition.events
  | .jump => []
  | .declare first others => declarators first others
  | .call arguments => eventsOf arguments ++ [.sequencePoint]
  | .store target value => target.events ++ value.events
  | .evaluate target => target.events ++ [.sequencePoint]
  | .assign parts => eventsOf parts ++ [.sequencePoint]

/-- The statements under the labels of a `switch`. -/
def bodyEvents : List Stmt → List Event
  | [] => []
  | s :: rest => s.events ++ bodyEvents rest

/-- `read_code_block`: a sequence point behind every statement. -/
def blockEvents : List Stmt → List Event
  | [] => []
  | s :: rest => s.events ++ .sequencePoint :: blockEvents rest

end

/-- A program is the bodies of its functions. -/
def programEvents (functions : List (List Stmt)) : List Event :=
  functions.flatMap blockEvents

/-- Every store is inside the array. -/
def InBounds (functions : List (List Stmt)) : Prop :=
  ∀ index ∈ storesOf 0 (programEvents functions), index < maxSideEffect

/-- A stretch of a run without a sequence point. -/
structure Stretch (stretch events : List Event) : Prop where
  infix_ : stretch <:+: events
  unbroken : .sequencePoint ∉ stretch

/-! ## When everything is stored inside the array -/

/-- What begins in front of a sequence point and has none ends in front of it. -/
theorem prefix_of_unbroken {stretch before behind : List Event}
    (unbroken : .sequencePoint ∉ stretch)
    (isPrefix : stretch <+: before ++ .sequencePoint :: behind) : stretch <+: before := by
  rcases List.prefix_or_prefix_of_prefix isPrefix (List.prefix_append before _) with
    inside | ⟨more, rfl⟩
  · exact inside
  · cases more with
    | nil => rw [List.append_nil]
    | cons event more =>
        rw [List.prefix_append_right_inj, List.cons_prefix_cons] at isPrefix
        rw [isPrefix.1] at unbroken
        exact absurd (List.mem_append_right _ List.mem_cons_self) unbroken

/-- A stretch of a run lies on one side of a sequence point. -/
theorem stretch_append_iff {stretch before behind : List Event}
    (unbroken : .sequencePoint ∉ stretch) :
    stretch <:+: before ++ .sequencePoint :: behind ↔
      stretch <:+: before ∨ stretch <:+: behind := by
  constructor
  · intro isInfix
    induction before with
    | nil =>
        rcases List.infix_cons_iff.mp isInfix with first | later
        · have empty : stretch <+: [] := prefix_of_unbroken unbroken first
          exact .inl empty.isInfix
        · exact .inr later
    | cons event before inductionHypothesis =>
        rw [List.cons_append, List.infix_cons_iff, ← List.cons_append] at isInfix
        rcases isInfix with first | later
        · exact .inl (prefix_of_unbroken unbroken first).isInfix
        · rcases inductionHypothesis later with inside | inside
          · exact .inl (List.infix_cons inside)
          · exact .inr inside
  · rintro (inside | inside)
    · exact List.infix_append_of_infix_left inside
    · exact List.infix_append_of_infix_right (List.infix_cons inside)

/-- Operators that are read on after `pending` others: the index stays inside exactly if no
stretch has more than three. -/
theorem storesOf_inside_iff {pending : Nat} (fits : pending ≤ 3) (events : List Event) :
    (∀ index ∈ storesOf (3 * pending) events, index < maxSideEffect) ↔
      ∀ stretch, Stretch stretch (List.replicate pending .postfixOp ++ events) →
        stretch.length ≤ 3 := by
  induction events generalizing pending with
  | nil =>
      constructor
      · intro _ stretch isStretch
        have length := isStretch.infix_.length_le
        rw [List.append_nil, List.length_replicate] at length
        exact length.trans fits
      · intro _ index member
        cases member
  | cons event rest inductionHypothesis =>
      cases event with
      | postfixOp =>
          have moved : List.replicate pending Event.postfixOp ++ .postfixOp :: rest =
              List.replicate (pending + 1) .postfixOp ++ rest := by
            rw [List.replicate_succ', List.append_assoc]
            rfl
          rw [moved]
          by_cases room : pending + 1 ≤ 3
          · rw [← inductionHypothesis room, storesOf, List.forall_mem_append]
            have inside : ∀ index ∈ Event.postfixOp.stores (3 * pending),
                index < maxSideEffect := by
              simp only [Event.stores, List.forall_mem_cons, maxSideEffect]
              refine ⟨by omega, by omega, by omega, fun _ impossible => nomatch impossible⟩
            exact and_iff_right inside
          · have full : pending = 3 := by omega
            subst full
            constructor
            · intro inside
              have outside := inside 10 (by simp [storesOf, Event.stores])
              exact absurd outside (by decide)
            · intro short
              have four := short (List.replicate 4 .postfixOp)
                ⟨(List.prefix_append _ _).isInfix, by simp⟩
              exact absurd four (by decide)
      | sequencePoint =>
          have fresh := @inductionHypothesis 0 (Nat.zero_le 3)
          change (∀ index ∈ storesOf 0 rest, index < maxSideEffect) ↔ _
          rw [fresh]
          constructor
          · intro short stretch isStretch
            rcases (stretch_append_iff isStretch.unbroken).mp isStretch.infix_ with before | behind
            · have length := before.length_le
              rw [List.length_replicate] at length
              exact length.trans fits
            · exact short stretch ⟨behind, isStretch.unbroken⟩
          · intro short stretch isStretch
            exact short stretch ⟨(stretch_append_iff isStretch.unbroken).mpr
              (.inr isStretch.infix_),
              isStretch.unbroken⟩

/-- `x = a++ + b++ + c++ + d++;` -/
def fourIncrements : List (List Stmt) :=
  [[.assign [.other [.postfixOp [], .postfixOp [], .postfixOp [], .postfixOp []]]]]

/-- `perform_side_effect`. -/
def performSideEffect (bb : BlockId) : Parse Unit := do
  let p ← get
  p.sideEffect.forM (addInsn bb)
  modify fun p => { p with sideEffect := [] }

/-- What was queued stays queued. -/
def Queues (p p' : Parsing) : Prop := p.sideEffect <+: p'.sideEffect

instance : KeptBlocks Queues where
  refl _ := List.prefix_refl _
  trans before behind := before.trans behind
  skip _ _ _ := List.prefix_refl _
  rodata _ _ := List.prefix_refl _
  withVar _ _ := List.prefix_refl _
  modifyVar _ _ _ := List.prefix_refl _
  name _ _ := List.prefix_refl _
  operands _ _ := List.prefix_refl _
  queue _ _ := List.prefix_append _ _
  emit _ _ := List.prefix_refl _
  create _ := List.prefix_refl _
  connect _ _ _ _ := List.prefix_refl _
  insn _ _ _ := List.prefix_refl _
  enter _ _ := List.prefix_refl _

instance : KeptAny Queues where
  move _ _ := List.prefix_refl _

/-- Reading an expression empties nothing. -/
theorem readExpr_queues (ctx : Context) (fuel : Nat) {p p' : Parsing}
    (ran : (readers ctx fuel).readExpr p = .ok ((), p')) : Queues p p' :=
  (readers_keptBy ctx fuel).expr.along ran

/-- A store into the queue. -/
theorem queueSideEffect_ok {insn : Insn} {p p' : Parsing}
    (ran : queueSideEffect insn p = .ok ((), p')) :
    p'.sideEffect = p.sideEffect ++ [insn] ∧ p.sideEffect.length < maxSideEffect := by
  unfold queueSideEffect at ran
  split at ran
  · cases ran
    exact ⟨rfl, ‹_›⟩
  · cases ran

/-- The step of an operator is found without any change. -/
theorem incrementSize_ok {ctx : Context} {lvalue : Lvalue} {p p' : Parsing} {step : Int}
    (ran : incrementSize ctx lvalue p = .ok (step, p')) : p' = p := by
  unfold incrementSize at ran
  by_cases isReference : lvalue.isReference = true
  · rw [if_pos isReference] at ran
    cases ran
    rfl
  · rw [if_neg isReference] at ran
    by_cases isPointer : lvalue.ptrLevel ≠ 0
    · rw [if_pos isPointer] at ran
      rcases Parse.bind_eq_ok_iff.mp ran with ⟨type, q, found, ran⟩
      cases ran
      exact (typeOf_eq_ok found).2
    · rw [if_neg isPointer] at ran
      cases found : lvalue.type.bind (ctx.types[·]?) with
      | none =>
          rw [found] at ran
          cases ran
          rfl
      | some type =>
          rw [found] at ran
          cases ran
          rfl

theorem lexAccept_ok {kind : Preprocessor.TokenKind} {p p' : Parsing} {accepted : Bool}
    (ran : lexAccept kind p = .ok (accepted, p')) : p'.sideEffect = p.sideEffect := by
  unfold lexAccept at ran
  split at ran <;> cases ran <;> rfl

theorem opstackPop_ok {p p' : Parsing} {v : VarId} (ran : opstackPop p = .ok (v, p')) :
    p'.sideEffect = p.sideEffect := by
  unfold opstackPop at ran
  split at ran <;> cases ran
  rfl

theorem opstackTop_ok {p p' : Parsing} {v : VarId} (ran : opstackTop p = .ok (v, p')) :
    p'.sideEffect = p.sideEffect := by
  unfold opstackTop at ran
  split at ran <;> cases ran
  rfl

/-- The second and the third instruction of a postfix operator. -/
theorem queueRest_queues {ctx : Context} {lvalue : Lvalue} {p p' : Parsing} {op : Opcode}
    {rs1 amount : VarId}
    (ran : (do
      let vd ← newTemp ctx
      queueSideEffect { opcode := op, rd := some vd, rs1 := some rs1, rs2 := some amount }
      if lvalue.isReference then
        let address ← opstackPop
        queueSideEffect
          { opcode := .write, rs1 := some address, rs2 := some vd, sz := lvalue.size }
        opstackPush rs1
      else
        let var ← opstackTop
        queueSideEffect { opcode := .assign, rd := some var, rs1 := some vd } : Parse Unit) p =
      .ok ((), p')) :
    p'.sideEffect.length = p.sideEffect.length + 2 ∧
      p.sideEffect.length + 1 < maxSideEffect := by
  rcases Parse.bind_eq_ok_iff.mp ran with ⟨vd, p₁, made, ran⟩
  rw [newTemp_eq] at made
  cases made
  rcases Parse.bind_eq_ok_iff.mp ran with ⟨⟨⟩, p₂, second, ran⟩
  have second := (queueSideEffect_ok second).1
  have third : ∃ insn, p'.sideEffect = p₂.sideEffect ++ [insn] ∧
      p₂.sideEffect.length < maxSideEffect := by
    by_cases isReference : lvalue.isReference = true
    · rw [if_pos isReference] at ran
      rcases Parse.bind_eq_ok_iff.mp ran with ⟨address, p₃, ranPop, ran⟩
      rcases Parse.bind_eq_ok_iff.mp ran with ⟨⟨⟩, p₄, ranQueue, ran⟩
      have queued := queueSideEffect_ok ranQueue
      rw [opstackPop_ok ranPop] at queued
      unfold opstackPush at ran
      split at ran <;> cases ran
      exact ⟨_, queued⟩
    · rw [if_neg isReference] at ran
      rcases Parse.bind_eq_ok_iff.mp ran with ⟨var, p₃, ranTop, ran⟩
      have queued := queueSideEffect_ok ran
      rw [opstackTop_ok ranTop] at queued
      exact ⟨_, queued⟩
  rcases third with ⟨insn, queued, inside⟩
  have length : p₂.sideEffect.length = p.sideEffect.length + 1 := by
    rw [second, List.length_append]
    rfl
  rw [queued, List.length_append, length]
  rw [length] at inside
  exact ⟨rfl, inside⟩

/-- A postfix operator stores three instructions, inside the array where the parser goes
on. -/
theorem queuePostfixOp_queues {ctx : Context} {lvalue : Lvalue} {p p' : Parsing}
    (ran : queuePostfixOp ctx lvalue p = .ok ((), p')) :
    p'.sideEffect.length = Event.postfixOp.seIdx p.sideEffect.length ∧
      ∀ index ∈ Event.postfixOp.stores p.sideEffect.length, index < maxSideEffect := by
  unfold queuePostfixOp at ran
  rcases Parse.bind_eq_ok_iff.mp ran with ⟨step, p₁, found, ran⟩
  cases incrementSize_ok found
  rcases Parse.bind_eq_ok_iff.mp ran with ⟨amount, p₂, made, ran⟩
  rw [newConstant_eq] at made
  cases made
  rcases Parse.bind_eq_ok_iff.mp ran with ⟨⟨⟩, p₃, first, ran⟩
  rcases Parse.bind_eq_ok_iff.mp ran with ⟨accepted, p₄, ranAccept, ran⟩
  have sameAccept := lexAccept_ok ranAccept
  have first := (queueSideEffect_ok first).1
  have others : p'.sideEffect.length = p₄.sideEffect.length + 2 ∧
      p₄.sideEffect.length + 1 < maxSideEffect := by
    by_cases isReference : lvalue.isReference = true
    · rw [if_pos isReference] at ran
      rcases Parse.bind_eq_ok_iff.mp ran with ⟨rs1, p₅, ranPop, ran⟩
      rw [← opstackPop_ok ranPop]
      exact queueRest_queues ran
    · rw [if_neg isReference] at ran
      rcases Parse.bind_eq_ok_iff.mp ran with ⟨rs1, p₅, ranTop, ran⟩
      rw [← opstackTop_ok ranTop]
      exact queueRest_queues ran
  have length : p₄.sideEffect.length = p.sideEffect.length + 1 := by
    rw [sameAccept, first, List.length_append]
    rfl
  rw [length] at others
  refine ⟨others.1, ?_⟩
  simp only [Event.stores, List.forall_mem_cons]
  exact ⟨by omega, by omega, others.2, fun _ impossible => nomatch impossible⟩

/-- A run of the parser: operators and sequence points, and between them whatever leaves
the queue alone. -/
inductive Follows (ctx : Context) : List Event → Parsing → Parsing → Prop
  | nil (p : Parsing) : Follows ctx [] p p
  | other {events : List Event} {p q p' : Parsing} (same : q.sideEffect = p.sideEffect)
      (rest : Follows ctx events q p') : Follows ctx events p p'
  | postfixOp {events : List Event} {p q p' : Parsing} {lvalue : Lvalue}
      (ran : queuePostfixOp ctx lvalue p = .ok ((), q)) (rest : Follows ctx events q p') :
      Follows ctx (.postfixOp :: events) p p'
  | sequencePoint {events : List Event} {p q p' : Parsing} {bb : BlockId}
      (ran : performSideEffect bb p = .ok ((), q)) (rest : Follows ctx events q p') :
      Follows ctx (.sequencePoint :: events) p p'

theorem performSideEffect_empties {bb : BlockId} {p p' : Parsing}
    (ran : performSideEffect bb p = .ok ((), p')) : p'.sideEffect = [] := by
  unfold performSideEffect at ran
  rcases Parse.bind_eq_ok_iff.mp ran with ⟨_, _, ranGet, ran⟩
  rcases Parse.bind_eq_ok_iff.mp ran with ⟨⟨⟩, middle, ranInsns, ran⟩
  cases ran
  rfl

/-- A parser that refuses to store outside the array comes to the end of no other program. -/
theorem Follows.inside {ctx : Context} {events : List Event} {p p' : Parsing}
    (follows : Follows ctx events p p') :
    ∀ index ∈ storesOf p.sideEffect.length events, index < maxSideEffect := by
  induction follows with
  | nil p =>
      intro index member
      cases member
  | other same rest inductionHypothesis => rwa [same] at inductionHypothesis
  | postfixOp ran rest inductionHypothesis =>
      rcases queuePostfixOp_queues ran with ⟨length, inside⟩
      rw [length] at inductionHypothesis
      exact List.forall_mem_append.mpr ⟨inside, inductionHypothesis⟩
  | sequencePoint ran rest inductionHypothesis =>
      rwa [performSideEffect_empties ran] at inductionHypothesis

end Shecc.Parser
