import Shecc.Parser.Computes

/-!
# Conditional expressions

`read_ternary_operation` makes the blocks of both sides and the block behind
them, reads the sides, and connects what it ends in. The blocks the sides begin
in are only connected to the condition where each side ends where it began.
-/

namespace Shecc.Parser

open Shecc.Preprocessor (Token TokenKind SourceLocation Cursor)

/-- The condition, and the blocks `read_ternary_operation` makes before it reads the sides. -/
structure Sides where
  bb : BlockId
  cond : VarId
  then_ : BlockId
  else_ : BlockId
  join : BlockId

/-- `read_ternary_operation` behind the question mark, before the sides. -/
def openSides : Parse Sides := do
  let bb := (← get).bb
  let vd ← opstackPop
  emit { opcode := .branch, rs1 := some vd }
  let then_ ← bbCreate
  let else_ ← bbCreate
  let endTernary ← bbCreate
  bbConnect then_ endTernary .next
  bbConnect else_ endTernary .next
  pure ⟨bb, vd, then_, else_, endTernary⟩

/-- The steps by which a conditional expression is read. -/
structure Conditional (called : Readers) (ctx : Context) (p p' : Parsing) where
  sides : Sides
  trueVal : VarId
  falseVal : VarId
  result : VarId
  (opened trueTo trueLinked behindColon falseFrom falseTo falseLinked popped joined : Parsing)
  opens : openSides (p.move p.behind) = .ok (sides, opened)
  readsTrue : called.readExpr (opened.enter sides.then_) = .ok ((), trueTo)
  linksTrue : bbConnect sides.bb trueTo.bb .then_ trueTo = .ok ((), trueLinked)
  acceptsColon : lexAccept .colon trueLinked = .ok (true, behindColon)
  popsTrue : opstackPop behindColon = .ok (trueVal, falseFrom)
  readsFalse : called.readExpr (falseFrom.enter sides.else_) = .ok ((), falseTo)
  linksFalse : bbConnect sides.bb falseTo.bb .else_ falseTo = .ok ((), falseLinked)
  popsFalse : opstackPop falseLinked = .ok (falseVal, popped)
  joins : joinSides ctx trueTo.bb falseTo.bb trueVal falseVal popped = .ok ((), joined)
  last : p' = joined.enter sides.join
  pushed : p'.operandStack = result :: popped.operandStack

namespace Conditional

variable {called : Readers} {ctx : Context} {p p' : Parsing}

/-- The tokens of the second operand. -/
def trueTokens (r : Conditional called ctx p p') : List Token :=
  tokensBetween r.opened.cur r.trueTo.cur

/-- The tokens of the third operand. -/
def falseTokens (r : Conditional called ctx p p') : List Token :=
  tokensBetween r.falseFrom.cur r.falseTo.cur

end Conditional

/-- The size `scalarize_array_literal_if_needed` reads with. -/
def literalSize (ctx : Context) (record : VarRecord) : Int :=
  match ctx.types[record.type.getD ctx.tyInt]? with
  | some literal => if literal.size ≤ 0 then ctx.sizeOf ctx.tyInt else literal.size
  | none => 0

/-- The value of a side: of an array literal beside a scalar the first element is meant. -/
def sideValue (ctx : Context) (world : World) (vars : Vars) (record other : VarRecord)
    (val : VarId) (s : State) : Word :=
  if isArrayLiteralPlaceholder record && !isPointerLikeValue ctx other then
    world.arch.load s.memory (s.value world vars val) (literalSize ctx record)
  else s.value world vars val

/-- Control that enters a side evaluates it, as `side` is its code, and comes to the join with its
value as the result; there is no other way to the join. -/
structure Evaluates (graph side : BlockId → Block) (vars : Vars) (first : BlockId)
    (last : Position) (join : BlockId) (known : Nat) (result : VarId)
    (value : World → State → Word) : Prop where
  joins : ∀ {world : World} {s t : State}, Reaches world vars side (⟨first, 0⟩, s) (last, t) →
    ∃ s', Reaches world vars graph (⟨first, 0⟩, s) (⟨join, 0⟩, s') ∧
      Delivers world vars known result (value world t) t s'
  evaluates : ∀ {world : World} {s s' : State},
    Reaches world vars graph (⟨first, 0⟩, s) (⟨join, 0⟩, s') →
      ∃ t, Reaches world vars side (⟨first, 0⟩, s) (last, t) ∧
        Delivers world vars known result (value world t) t s'

/-- The code behind the condition evaluates one side, which its value selects, and gives the
result the value of that side. -/
structure Selects {called : Readers} {ctx : Context} {p p' : Parsing}
    (r : Conditional called ctx p p') : Prop where
  branches : ∀ {world : World} {s : State} {next : Position × State},
    Step world p'.irVars p'.graph (p.here, s) next ↔
      next = (⟨if (s.value world p'.irVars r.sides.cond).truth then r.sides.then_
        else r.sides.else_, 0⟩, s)
  trueSide : Evaluates p'.graph r.trueTo.graph p'.irVars r.sides.then_ r.trueTo.here
    r.sides.join r.popped.vars.length r.result fun world =>
      sideValue ctx world p'.irVars (r.popped.var r.trueVal) (r.popped.var r.falseVal) r.trueVal
  falseSide : Evaluates p'.graph r.falseTo.graph p'.irVars r.sides.else_ r.falseTo.here
    r.sides.join r.popped.vars.length r.result fun world =>
      sideValue ctx world p'.irVars (r.popped.var r.falseVal) (r.popped.var r.trueVal) r.falseVal

/-! ## The steps of a conditional expression -/

theorem readConditional_eq (self : Readers) (ctx : Context) :
    readConditional self ctx = openSides >>= (fun sides => do
      let then_ ← readSide self sides.bb sides.then_ .then_
      let colon ← lexAccept .colon
      if colon then
        let trueVal ← opstackPop
        let else_ ← readSide self sides.bb sides.else_ .else_
        let falseVal ← opstackPop
        joinSides ctx then_ else_ trueVal falseVal
        modify fun p => { p with bb := sides.join }
      else .fail .abort) := by
  simp only [readConditional, openSides, bind_assoc, pure_bind]

/-- One side, step by step. -/
theorem readSide_eq_ok {self : Readers} {bb side last : BlockId} {type : Connection}
    {p p' : Parsing} (ran : readSide self bb side type p = .ok (last, p')) :
    ∃ middle, self.readExpr (p.enter side) = .ok ((), middle) ∧ last = middle.bb ∧
      bbConnect bb middle.bb type middle = .ok ((), p') := by
  unfold readSide at ran
  rcases Parse.bind_eq_ok_iff.mp ran with ⟨⟨⟩, _, ranEnter, ran⟩
  cases ranEnter
  rcases Parse.bind_eq_ok_iff.mp ran with ⟨⟨⟩, middle, ranExpr, ran⟩
  rcases Parse.bind_eq_ok_iff.mp ran with ⟨_, _, ranGet, ran⟩
  cases ranGet
  rcases Parse.bind_eq_ok_iff.mp ran with ⟨⟨⟩, connected, ranConnect, ran⟩
  cases ran
  exact ⟨middle, ranExpr, rfl, ranConnect⟩

/-- What is there before the sides are read. -/
structure Opened (p : Parsing) (sides : Sides) (opened : Parsing) : Prop where
  bb : sides.bb = p.bb
  then_ : sides.then_ = p.blocks.length
  else_ : sides.else_ = p.blocks.length + 1
  join : sides.join = p.blocks.length + 2
  length : opened.blocks.length = p.blocks.length + 3
  cur : opened.cur = p.cur
  branchBlock : opened.graph p.bb = { p.graph p.bb with
    insns := (p.graph p.bb).insns ++ [{ opcode := .branch, rs1 := some sides.cond }] }
  trueBlock : opened.graph sides.then_ = { insns := [], next := some sides.join }
  falseBlock : opened.graph sides.else_ = { insns := [], next := some sides.join }
  joinBlock : opened.graph sides.join = { insns := [] }

/-- Two blocks are connected to a third one. -/
theorem graph_linked {p : Parsing} {n : Nat} (length : p.blocks.length = n + 3) (i : Nat) :
    ((p.connect n (n + 2) .next).connect (n + 1) (n + 2) .next).graph i =
      if i = n ∨ i = n + 1 then connected (p.graph i) (n + 2) .next else p.graph i := by
  have first : n < p.blocks.length := by omega
  have second : n + 1 < (p.connect n (n + 2) .next).blocks.length := by
    rw [Parsing.length_connect]
    omega
  rw [Parsing.graph_connect _ _ _ second, Parsing.graph_connect _ _ _ first]
  by_cases here : i = n
  · simp [here]
  · by_cases other : i = n + 1 <;> simp [here, other]

theorem opened_of_openSides {p opened : Parsing} {sides : Sides}
    (ran : openSides p = .ok (sides, opened)) (inside : p.bb < p.blocks.length) :
    Opened p sides opened := by
  unfold openSides at ran
  rcases Parse.bind_eq_ok_iff.mp ran with ⟨_, _, ranGet, ran⟩
  cases ranGet
  rcases Parse.bind_eq_ok_iff.mp ran with ⟨vd, popped, ranPop, ran⟩
  rw [(opstackPop_eq_ok ranPop).2, Parse.bind_ok (emit_eq (by simp) (by simp) _),
    Parse.bind_ok (bbCreate_eq _), Parse.bind_ok (bbCreate_eq _),
    Parse.bind_ok (bbCreate_eq _)] at ran
  generalize madeEq : ((p.setOperands popped.operandStack).append
    { opcode := .branch, rs1 := some vd }).create.create.create = made at ran
  have length : made.blocks.length = p.blocks.length + 3 := by simp [← madeEq]
  have graph (i : BlockId) : made.graph i = if p.bb = i ∧ i < p.blocks.length then
      { p.graph i with insns := (p.graph i).insns ++ [{ opcode := .branch, rs1 := some vd }] }
    else p.graph i := by
    simp only [← madeEq, Parsing.create_graph]
    exact Parsing.graph_append _ _ i
  have new (k : Nat) : made.graph (p.blocks.length + k) = { insns := [] } := by
    rw [graph, if_neg fun both => absurd both.2 (by simp), p.graph_of_le (Nat.le_add_right _ _)]
  simp only [Parsing.length_create, Parsing.length_append, Parsing.setOperands_blocks] at ran
  rcases Parse.bind_eq_ok_iff.mp ran with ⟨⟨⟩, linked, ranFirst, ran⟩
  rcases Parse.bind_eq_ok_iff.mp ran with ⟨⟨⟩, _, ranSecond, ran⟩
  cases ran
  rw [bbConnect_eq_ok ranFirst] at ranSecond
  rw [bbConnect_eq_ok ranSecond]
  have linked (i : Nat) := graph_linked length i
  constructor
  case bb => rfl
  case then_ => rfl
  case else_ => rfl
  case join => rfl
  case length => simp [length]
  case cur => simp [← madeEq]
  case branchBlock =>
    refine (linked p.bb).trans ?_
    have old : ¬(p.bb = p.blocks.length ∨ p.bb = p.blocks.length + 1) := by
      rintro (same | same)
      · exact Nat.ne_of_lt inside same
      · exact Nat.ne_of_lt (Nat.lt_succ_of_lt inside) same
    rw [if_neg old, graph, if_pos ⟨rfl, inside⟩]
  case trueBlock =>
    refine (linked p.blocks.length).trans ?_
    have newThen : made.graph p.blocks.length = { insns := [] } := new 0
    rw [if_pos (.inl rfl), newThen]
    rfl
  case falseBlock =>
    refine (linked (p.blocks.length + 1)).trans ?_
    rw [if_pos (.inr rfl), new 1]
    rfl
  case joinBlock =>
    refine (linked (p.blocks.length + 2)).trans ?_
    rw [if_neg (by omega), new 2]

/-! ## The join -/

namespace Parsing

/-- More code in a block. -/
def appendTo (p : Parsing) (bb : BlockId) (code : List Insn) : Parsing :=
  p.modifyBlock bb fun block => { block with insns := block.insns ++ code }

@[simp] theorem appendTo_vars (p : Parsing) (bb : BlockId) (code : List Insn) :
    (p.appendTo bb code).vars = p.vars := rfl

@[simp] theorem appendTo_var (p : Parsing) (bb : BlockId) (code : List Insn) (v : VarId) :
    (p.appendTo bb code).var v = p.var v := rfl

@[simp] theorem length_appendTo (p : Parsing) (bb : BlockId) (code : List Insn) :
    (p.appendTo bb code).blocks.length = p.blocks.length := length_modifyBlock _ _ _

theorem graph_appendTo (p : Parsing) (bb : BlockId) (code : List Insn) (i : BlockId) :
    (p.appendTo bb code).graph i = if bb = i ∧ i < p.blocks.length then
      { p.graph i with insns := (p.graph i).insns ++ code } else p.graph i := by
  unfold graph appendTo
  rw [block_modifyBlock]
  split <;> rfl

end Parsing

/-- What `scalarize_array_literal_if_needed` leaves: nothing, or a load into a new variable. -/
inductive Scalarizes (ctx : Context) (side : BlockId) (val : VarId) (needsScalar : Bool)
    (p : Parsing) : VarId → List Insn → Parsing → Prop where
  | kept (plain : (isArrayLiteralPlaceholder (p.var val) && needsScalar) = false) :
      Scalarizes ctx side val needsScalar p val [] (p.enter side)
  | loaded {record : VarRecord}
      (needed : (isArrayLiteralPlaceholder (p.var val) && needsScalar) = true)
      (noGlobal : record.isGlobal = false) (noAddress : record.addressTaken = false) :
      Scalarizes ctx side val needsScalar p p.vars.length
        [{ opcode := .read, rd := some p.vars.length, rs1 := some val
           sz := literalSize ctx (p.var val) }]
        (((p.temp record).enter side).append
          { opcode := .read, rd := some p.vars.length, rs1 := some val
            sz := literalSize ctx (p.var val) })

theorem Scalarizes.operandStack {ctx : Context} {side : BlockId} {val val' : VarId}
    {needsScalar : Bool} {code : List Insn} {p p' : Parsing}
    (scalarizes : Scalarizes ctx side val needsScalar p val' code p') :
    p'.operandStack = p.operandStack := by
  cases scalarizes <;> rfl

@[simp]
theorem Scalarizes.length {ctx : Context} {side : BlockId} {val val' : VarId}
    {needsScalar : Bool} {code : List Insn} {p p' : Parsing}
    (scalarizes : Scalarizes ctx side val needsScalar p val' code p') :
    p'.blocks.length = p.blocks.length := by
  cases scalarizes <;> simp

theorem Scalarizes.less {ctx : Context} {side : BlockId} {val val' : VarId}
    {needsScalar : Bool} {code : List Insn} {p p' : Parsing}
    (scalarizes : Scalarizes ctx side val needsScalar p val' code p') :
    p.vars.length ≤ p'.vars.length := by
  cases scalarizes <;> simp

theorem Scalarizes.old {ctx : Context} {side : BlockId} {val val' v : VarId}
    {needsScalar : Bool} {code : List Insn} {p p' : Parsing}
    (scalarizes : Scalarizes ctx side val needsScalar p val' code p') (old : v < p.vars.length) :
    p'.var v = p.var v := by
  cases scalarizes with
  | kept => rfl
  | loaded => simp [Parsing.var_temp_old _ _ old]

/-- The variable it may make lives in no memory. -/
theorem Scalarizes.notResident {ctx : Context} {side : BlockId} {val val' v : VarId}
    {needsScalar : Bool} {code : List Insn} {p p' : Parsing}
    (scalarizes : Scalarizes ctx side val needsScalar p val' code p')
    (new : p.vars.length ≤ v) (made : v < p'.vars.length) :
    (p'.var v).isGlobal = false ∧ (p'.var v).addressTaken = false := by
  cases scalarizes with
  | kept => exact absurd made (Nat.not_lt_of_le new)
  | loaded needed noGlobal noAddress =>
      have made : v < p.vars.length + 1 := by simpa using made
      have same : v = p.vars.length := Nat.le_antisymm (Nat.le_of_lt_succ made) new
      subst same
      simp [noGlobal, noAddress]

theorem Scalarizes.graph {ctx : Context} {side : BlockId} {val val' : VarId}
    {needsScalar : Bool} {code : List Insn} {p p' : Parsing}
    (scalarizes : Scalarizes ctx side val needsScalar p val' code p') (i : BlockId) :
    p'.graph i = (p.appendTo side code).graph i := by
  cases scalarizes with
  | kept => simp [Parsing.graph_appendTo]
  | loaded =>
      rw [Parsing.graph_append, Parsing.graph_appendTo]
      rfl

theorem scalarizes_of_scalarizeArrayLiteral {ctx : Context} {val val' : VarId}
    {hintType : Option TypeId} {side : BlockId} {p p' : Parsing}
    (ran : scalarizeArrayLiteral ctx val hintType (p.enter side) = .ok (val', p')) :
    ∃ code, Scalarizes ctx side val true p val' code p' := by
  unfold scalarizeArrayLiteral at ran
  rcases Parse.bind_eq_ok_iff.mp ran with ⟨record, _, ranVar, ran⟩
  cases ranVar
  split at ran
  case isTrue plain =>
    cases ran
    exact ⟨[], .kept (by simpa using plain)⟩
  case isFalse placeholder =>
    dsimp only at ran
    rcases Parse.bind_eq_ok_iff.mp ran with ⟨literal, _, ranType, ran⟩
    rcases typeOf_eq_ok ranType with ⟨found, rfl⟩
    rw [Parse.bind_ok (requireTypedVar_eq ctx _ _), Parse.bind_ok (genNameTo_eq _ _),
      Parse.bind_ok (setVar_temp _ _ _ fun _ _ => rfl),
      Parse.bind_ok (emit_eq (by simp) (by simp) _)] at ran
    cases ran
    have found : ctx.types[(p.var val).type.getD ctx.tyInt]? = some literal := found
    have size : (if literal.size ≤ 0 then ctx.sizeOf ctx.tyInt else literal.size) =
        literalSize ctx (p.var val) := by
      unfold literalSize
      rw [found]
    rw [size]
    exact ⟨_, .loaded (by simpa using placeholder) rfl rfl⟩

theorem scalarizes_of_scalarizeSide {ctx : Context} {side : BlockId} {val val' : VarId}
    {hintType : Option TypeId} {needsScalar : Bool} {p p' : Parsing}
    (ran : scalarizeSide ctx side val hintType needsScalar p = .ok (val', p')) :
    ∃ code, Scalarizes ctx side val needsScalar p val' code p' := by
  unfold scalarizeSide at ran
  rcases Parse.bind_eq_ok_iff.mp ran with ⟨⟨⟩, _, ranEnter, ran⟩
  cases ranEnter
  by_cases needed : needsScalar = true
  · subst needed
    exact scalarizes_of_scalarizeArrayLiteral ran
  · rw [if_neg needed] at ran
    cases ran
    exact ⟨[], .kept (by simp [needed])⟩

/-- What the end of `read_ternary_operation` leaves. -/
structure Joins (ctx : Context) (then_ else_ : BlockId) (trueVal falseVal : VarId)
    (p p' : Parsing) where
  (trueScalar falseScalar : VarId)
  (trueCode falseCode : List Insn)
  (middle scalarized : Parsing)
  trueSide : Scalarizes ctx then_ trueVal
    (isArrayLiteralPlaceholder (p.var trueVal) && !isPointerLikeValue ctx (p.var falseVal))
    p trueScalar trueCode middle
  falseSide : Scalarizes ctx else_ falseVal
    (isArrayLiteralPlaceholder (p.var falseVal) && !isPointerLikeValue ctx (p.var trueVal))
    middle falseScalar falseCode scalarized
  graph : p'.graph = ((scalarized.appendTo then_ [{
      opcode := .assign, rd := some scalarized.vars.length, rs1 := some trueScalar }]).appendTo
    else_ [{
      opcode := .assign, rd := some scalarized.vars.length, rs1 := some falseScalar }]).graph
  operandStack : p'.operandStack = scalarized.vars.length :: scalarized.operandStack
  old : ∀ v < scalarized.vars.length, p'.var v = scalarized.var v
  global : (p'.var scalarized.vars.length).isGlobal = false
  address : (p'.var scalarized.vars.length).addressTaken = false

/-- The last steps of `joinSides`: the record of the result is changed, but not where it lives. -/
theorem finish_join {vd : VarId} {change : VarRecord → VarRecord} {p p' : Parsing}
    (ran : (do
      setVar vd ({ · with isTernaryRet := true })
      opstackPush vd) (p.modifyVar vd change) = .ok ((), p'))
    (global : ∀ record, (change record).isGlobal = record.isGlobal)
    (address : ∀ record, (change record).addressTaken = record.addressTaken) :
    ∃ change' : VarRecord → VarRecord, p' = (p.modifyVar vd change').push vd ∧
      (∀ record, (change' record).isGlobal = record.isGlobal) ∧
      ∀ record, (change' record).addressTaken = record.addressTaken := by
  rcases Parse.bind_eq_ok_iff.mp ran with ⟨⟨⟩, marked, ranMark, ran⟩
  cases ranMark
  rw [opstackPush_eq_ok ran, Parsing.modifyVar_modifyVar]
  exact ⟨_, rfl, global, address⟩

theorem joins_of_joinSides {ctx : Context} {then_ else_ : BlockId} {trueVal falseVal : VarId}
    {p p' : Parsing} (ran : joinSides ctx then_ else_ trueVal falseVal p = .ok ((), p')) :
    Nonempty (Joins ctx then_ else_ trueVal falseVal p p') := by
  unfold joinSides at ran
  rcases Parse.bind_eq_ok_iff.mp ran with ⟨trueRecord, _, ranVar, ran⟩
  cases ranVar
  rcases Parse.bind_eq_ok_iff.mp ran with ⟨falseRecord, _, ranVar, ran⟩
  cases ranVar
  rcases Parse.bind_eq_ok_iff.mp ran with ⟨trueScalar, middle, ranTrue, ran⟩
  rcases Parse.bind_eq_ok_iff.mp ran with ⟨_, _, ranVar, ran⟩
  cases ranVar
  rcases Parse.bind_eq_ok_iff.mp ran with ⟨falseScalar, scalarized, ranFalse, ran⟩
  rcases Parse.bind_eq_ok_iff.mp ran with ⟨_, _, ranVar, ran⟩
  cases ranVar
  rcases scalarizes_of_scalarizeSide ranTrue with ⟨trueCode, trueSide⟩
  rcases scalarizes_of_scalarizeSide ranFalse with ⟨falseCode, falseSide⟩
  rw [Parse.bind_ok (newTemp_eq ctx scalarized),
    Parse.bind_ok (addInsn_eq then_ (by simp) (by simp) _),
    Parse.bind_ok (addInsn_eq else_ (by simp) (by simp) _)] at ran
  have shaped : ∃ change : VarRecord → VarRecord,
      p' = ((((scalarized.temp { type := some ctx.tyInt }).appendTo then_ [{
          opcode := .assign, rd := some scalarized.vars.length, rs1 := some trueScalar }]).appendTo
        else_ [{ opcode := .assign, rd := some scalarized.vars.length
                 rs1 := some falseScalar }]).modifyVar scalarized.vars.length change).push
          scalarized.vars.length ∧
      (∀ record, (change record).isGlobal = record.isGlobal) ∧
      ∀ record, (change record).addressTaken = record.addressTaken := by
    split at ran
    · rcases Parse.bind_eq_ok_iff.mp ran with ⟨⟨⟩, _, ranShape, ran⟩
      cases ranShape
      exact finish_join ran (fun _ => rfl) fun _ => rfl
    · split at ran
      · rcases Parse.bind_eq_ok_iff.mp ran with ⟨⟨⟩, _, ranShape, ran⟩
        cases ranShape
        exact finish_join ran (fun _ => rfl) fun _ => rfl
      · rcases Parse.bind_eq_ok_iff.mp ran with ⟨⟨⟩, _, ranMark, ran⟩
        cases ranMark
        rw [opstackPush_eq_ok ran]
        exact ⟨_, rfl, fun _ => rfl, fun _ => rfl⟩
  rcases shaped with ⟨change, rfl, global, address⟩
  refine ⟨⟨trueScalar, falseScalar, trueCode, falseCode, middle, scalarized, trueSide, falseSide,
    rfl, rfl, ?_, ?_, ?_⟩⟩
  · intro v old
    rw [Parsing.push_var, Parsing.var_modifyVar,
      if_neg fun same => (Nat.ne_of_lt old) same.1.symm]
    exact Parsing.var_temp_old _ _ old
  · simp [Parsing.var_modifyVar, global]
  · simp [Parsing.var_modifyVar, address]

namespace Joins

variable {ctx : Context} {then_ else_ : BlockId} {trueVal falseVal : VarId} {p p' : Parsing}
  (joins : Joins ctx then_ else_ trueVal falseVal p p')

/-- The code that gives the result the value of the first side. -/
def trueTail : List Insn := joins.trueCode ++ [{
  opcode := .assign, rd := some joins.scalarized.vars.length, rs1 := some joins.trueScalar }]

/-- The code that gives the result the value of the second side. -/
def falseTail : List Insn := joins.falseCode ++ [{
  opcode := .assign, rd := some joins.scalarized.vars.length, rs1 := some joins.falseScalar }]

include joins

theorem graph_other {i : BlockId} (notThen : i ≠ then_) (notElse : i ≠ else_) :
    p'.graph i = p.graph i := by
  rw [joins.graph, Parsing.graph_appendTo, if_neg fun both => notElse both.1.symm,
    Parsing.graph_appendTo, if_neg fun both => notThen both.1.symm, joins.falseSide.graph,
    Parsing.graph_appendTo, if_neg fun both => notElse both.1.symm, joins.trueSide.graph,
    Parsing.graph_appendTo, if_neg fun both => notThen both.1.symm]

theorem graph_then (different : then_ ≠ else_) (inside : then_ < p.blocks.length) :
    p'.graph then_ = { p.graph then_ with insns := (p.graph then_).insns ++ joins.trueTail } := by
  have lengths : joins.scalarized.blocks.length = p.blocks.length :=
    joins.falseSide.length.trans joins.trueSide.length
  rw [joins.graph, Parsing.graph_appendTo, if_neg fun both => different both.1.symm,
    Parsing.graph_appendTo, if_pos ⟨rfl, lengths ▸ inside⟩, joins.falseSide.graph,
    Parsing.graph_appendTo, if_neg fun both => different both.1.symm, joins.trueSide.graph,
    Parsing.graph_appendTo, if_pos ⟨rfl, inside⟩]
  simp [trueTail]

theorem graph_else (different : then_ ≠ else_) (inside : else_ < p.blocks.length) :
    p'.graph else_ = { p.graph else_ with
      insns := (p.graph else_).insns ++ joins.falseTail } := by
  have middle : joins.middle.blocks.length = p.blocks.length := joins.trueSide.length
  have lengths : joins.scalarized.blocks.length = p.blocks.length :=
    joins.falseSide.length.trans middle
  rw [joins.graph, Parsing.graph_appendTo, if_pos ⟨rfl, by simpa [lengths] using inside⟩,
    Parsing.graph_appendTo, if_neg fun both => different both.1, joins.falseSide.graph,
    Parsing.graph_appendTo, if_pos ⟨rfl, middle ▸ inside⟩, joins.trueSide.graph,
    Parsing.graph_appendTo, if_neg fun both => different both.1]
  simp [falseTail]

end Joins

/-! ## The value of the result -/

theorem Scalarizes.computes {ctx : Context} {side : BlockId} {val val' : VarId}
    {needsScalar : Bool} {code : List Insn} {p p' : Parsing}
    (scalarizes : Scalarizes ctx side val needsScalar p val' code p') {vars : Vars}
    (new : ∀ v, p.vars.length ≤ v → v < p'.vars.length → resident vars v = false)
    (world : World) :
    Computes world vars code p.vars.length val' fun s =>
      if isArrayLiteralPlaceholder (p.var val) && needsScalar then
        world.arch.load s.memory (s.value world vars val) (literalSize ctx (p.var val))
      else s.value world vars val := by
  cases scalarizes with
  | kept plain =>
      refine ⟨fun t => ⟨t, .nil t⟩, ?_⟩
      intro t s executes
      cases Executes.nil_iff.mp executes
      rw [plain]
      exact ⟨rfl, rfl, rfl, rfl, fun _ _ => rfl⟩
  | loaded needed =>
      refine ⟨fun t => ⟨_, .cons (exec_read_iff.mpr rfl) (.nil _)⟩, ?_⟩
      intro t s executes
      rcases Executes.cons_iff.mp executes with ⟨last, step, behind⟩
      cases Executes.nil_iff.mp behind
      cases exec_read_iff.mp step
      rw [needed]
      exact delivers_assign (new _ le_rfl (by simp)) le_rfl

/-- An array literal is a variable that was made. -/
theorem lt_of_isArrayLiteralPlaceholder {p : Parsing} {v : VarId}
    (placeholder : isArrayLiteralPlaceholder (p.var v) = true) : v < p.vars.length := by
  by_contra beyond
  have default : p.var v = {} := by
    unfold Parsing.var
    rw [List.getD_eq_getElem?_getD, List.getElem?_eq_none (Nat.le_of_not_lt beyond)]
    rfl
  simp [default, isArrayLiteralPlaceholder] at placeholder

namespace Joins

variable {ctx : Context} {then_ else_ : BlockId} {trueVal falseVal : VarId} {p p' : Parsing}
  (joins : Joins ctx then_ else_ trueVal falseVal p p')

include joins

/-- No variable that is made for the join lives in memory. -/
theorem notResident {v : VarId} (new : p.vars.length ≤ v)
    (made : v ≤ joins.scalarized.vars.length) :
    resident p'.irVars v = false := by
  have records : (p'.var v).isGlobal = false ∧ (p'.var v).addressTaken = false := by
    rcases Nat.lt_or_eq_of_le made with less | rfl
    · rw [joins.old v less]
      rcases Nat.lt_or_ge v joins.middle.vars.length with first | second
      · rw [joins.falseSide.old first]
        exact joins.trueSide.notResident new first
      · exact joins.falseSide.notResident second less
    · exact ⟨joins.global, joins.address⟩
  simpa [resident, Parsing.irVars] using records

theorem less : p.vars.length ≤ joins.scalarized.vars.length :=
  joins.trueSide.less.trans joins.falseSide.less

theorem trueComputes (world : World) :
    Computes world p'.irVars joins.trueTail p.vars.length joins.scalarized.vars.length
      (sideValue ctx world p'.irVars (p.var trueVal) (p.var falseVal) trueVal) := by
  have apart (v : VarId) (new : p.vars.length ≤ v) (made : v < joins.middle.vars.length) :
      resident p'.irVars v = false :=
    joins.notResident new (made.le.trans joins.falseSide.less)
  have first := joins.trueSide.computes apart world
  have whole := first.assign (joins.notResident joins.less le_rfl) joins.less
  unfold trueTail sideValue
  simpa only [← Bool.and_assoc, Bool.and_self] using whole

theorem falseComputes (world : World) :
    Computes world p'.irVars joins.falseTail p.vars.length joins.scalarized.vars.length
      (sideValue ctx world p'.irVars (p.var falseVal) (p.var trueVal) falseVal) := by
  have apart (v : VarId) (new : joins.middle.vars.length ≤ v)
      (made : v < joins.scalarized.vars.length) : resident p'.irVars v = false :=
    joins.notResident (joins.trueSide.less.trans new) made.le
  have first := joins.falseSide.computes apart world
  have whole := first.assign (joins.notResident joins.less le_rfl) joins.falseSide.less
  refine ⟨whole.runs, fun {t s} executes => ?_⟩
  have delivers := (whole.delivers executes).mono joins.trueSide.less
  unfold sideValue
  by_cases placeholder : isArrayLiteralPlaceholder (p.var falseVal) = true
  · have same : joins.middle.var falseVal = p.var falseVal :=
      joins.trueSide.old (lt_of_isArrayLiteralPlaceholder placeholder)
    simpa only [same, ← Bool.and_assoc, Bool.and_self] using delivers
  · simpa [placeholder] using delivers

end Joins

/-! ## Straight sides -/

/-- A side whose code is straight is evaluated as `Evaluates` says. -/
theorem evaluates_of_straight {graph side : BlockId → Block} {vars : Vars}
    {first join : BlockId} {known : Nat} {result : VarId} {code tail : List Insn}
    {value : World → State → Word} (different : first ≠ join)
    (sideEq : side first = { insns := code, next := some join })
    (sideJoin : side join = { insns := [] })
    (graphEq : graph first = { insns := code ++ tail, next := some join })
    (graphJoin : graph join = { insns := [] })
    (computes : ∀ world, Computes world vars tail known result (value world)) :
    Evaluates graph side vars first ⟨first, code.length⟩ join known result value := by
  -- the code of the side alone
  have evaluated {world : World} {s t : State} :
      Reaches world vars side (⟨first, 0⟩, s) (⟨first, code.length⟩, t) ↔
        Executes world vars code s t := by
    constructor
    · intro reaches
      have straight : (side first).Straight := by
        rw [sideEq]
        exact ⟨rfl, rfl⟩
      rcases executes_of_reaches straight reaches with
        ⟨-, passed, behind, split_, length, executes⟩ |
        ⟨succ, middle, edge, -, onward⟩
      · have whole : passed = code := by
          rw [sideEq] at split_
          simp only [List.drop_zero] at split_
          simp only [Nat.zero_add] at length
          have prefixes : passed <+: code := ⟨behind, split_.symm⟩
          exact prefixes.eq_of_length length.symm
        exact whole ▸ executes
      · rw [sideEq] at edge
        cases edge
        have start : (⟨join, 0⟩ : Position) = ⟨join, (side join).insns.length⟩ := by
          rw [sideJoin]
          rfl
        rw [start] at onward
        have stuck := reaches_of_end (by rw [sideJoin]) onward
        exact absurd (congrArg (fun position => position.1.bb) stuck) different
    · intro executes
      have insnsEq : (side first).insns = [] ++ code ++ [] := by simp [sideEq]
      simpa using reaches_of_executes insnsEq executes
  have straight : (graph first).Straight := by
    rw [graphEq]
    exact ⟨rfl, rfl⟩
  have start : (⟨join, 0⟩ : Position) = ⟨join, (graph join).insns.length⟩ := by
    rw [graphJoin]
    rfl
  constructor
  case joins =>
    intro world s t reaches
    rcases (computes world).runs t with ⟨s', executes⟩
    refine ⟨s', ?_, (computes world).delivers executes⟩
    have whole := Executes.append_iff.mpr ⟨t, evaluated.mp reaches, executes⟩
    have insnsEq : (graph first).insns = [] ++ (code ++ tail) ++ [] := by simp [graphEq]
    have last : Step world vars graph (⟨first, (graph first).insns.length⟩, s') (⟨join, 0⟩, s') :=
      .jump (by rw [graphEq])
    refine Relation.ReflTransGen.tail ?_ last
    simpa [graphEq] using reaches_of_executes insnsEq whole
  case evaluates =>
    intro world s s' reaches
    rcases executes_of_reaches straight reaches with ⟨same, -⟩ |
      ⟨succ, middle, edge, executes, onward⟩
    · exact absurd same.symm different
    · rw [graphEq] at edge
      cases edge
      rw [start] at onward
      have stuck := reaches_of_end (by rw [graphJoin]) onward
      cases congrArg Prod.snd stuck
      rw [graphEq, List.drop_zero] at executes
      rcases Executes.append_iff.mp executes with ⟨t, before, behind⟩
      exact ⟨t, evaluated.mpr before, (computes world).delivers behind⟩

/-! ## Reading a conditional expression -/

/-- A conditional expression that is read has these steps. -/
theorem exists_conditional {called : Readers} {ctx : Context} {p p' : Parsing}
    (asked : p.peek = some .question) (ran : readTernaryOperation called ctx p = .ok ((), p')) :
    Nonempty (Conditional called ctx p p') := by
  unfold readTernaryOperation lexAccept at ran
  rcases Parse.bind_eq_ok_iff.mp ran with ⟨question, behind, ranAccept, ran⟩
  rw [if_pos asked] at ranAccept
  cases ranAccept
  rw [if_pos rfl, readConditional_eq] at ran
  rcases Parse.bind_eq_ok_iff.mp ran with ⟨sides, opened, opens, ran⟩
  rcases Parse.bind_eq_ok_iff.mp ran with ⟨then_, trueLinked, ranTrue, ran⟩
  rcases readSide_eq_ok ranTrue with ⟨trueTo, readsTrue, rfl, linksTrue⟩
  rcases Parse.bind_eq_ok_iff.mp ran with ⟨colon, behindColon, acceptsColon, ran⟩
  split at ran
  case isFalse => cases ran
  case isTrue found =>
    subst found
    rcases Parse.bind_eq_ok_iff.mp ran with ⟨trueVal, falseFrom, popsTrue, ran⟩
    rcases Parse.bind_eq_ok_iff.mp ran with ⟨else_, falseLinked, ranFalse, ran⟩
    rcases readSide_eq_ok ranFalse with ⟨falseTo, readsFalse, rfl, linksFalse⟩
    rcases Parse.bind_eq_ok_iff.mp ran with ⟨falseVal, popped, popsFalse, ran⟩
    rcases Parse.bind_eq_ok_iff.mp ran with ⟨⟨⟩, joined, joins, ran⟩
    cases ran
    rcases joins_of_joinSides joins with ⟨join⟩
    have stack : join.scalarized.operandStack = popped.operandStack :=
      join.falseSide.operandStack.trans join.trueSide.operandStack
    exact ⟨{
      sides := sides, trueVal := trueVal, falseVal := falseVal
      result := join.scalarized.vars.length
      opened := opened, trueTo := trueTo, trueLinked := trueLinked, behindColon := behindColon
      falseFrom := falseFrom, falseTo := falseTo, falseLinked := falseLinked, popped := popped
      joined := joined
      opens := opens, readsTrue := readsTrue, linksTrue := linksTrue
      acceptsColon := acceptsColon, popsTrue := popsTrue, readsFalse := readsFalse
      linksFalse := linksFalse, popsFalse := popsFalse, joins := joins, last := rfl
      pushed := stack ▸ join.operandStack }⟩

/-! ## The blocks of a conditional expression -/

theorem Extends.graph {n : Nat} {b i : BlockId} {p p' : Parsing} (extends_ : Extends n b p p')
    (old : i < n) (other : i ≠ b) : p'.graph i = p.graph i := by
  have outside : ¬Allowed n b i := by
    rintro (same | new)
    · exact other same
    · exact absurd old (Nat.not_lt_of_le new)
  unfold Parsing.graph
  rw [extends_.frame i outside]

/-- A side that is entered only adds to its own block and to new ones. -/
theorem extends_of_readExpr {called : Readers} [confined : ∀ n b, KeptBy (Confined n b) called]
    {p p' : Parsing} {side : BlockId} (ran : called.readExpr (p.enter side) = .ok ((), p')) :
    Extends p.blocks.length side p p' := by
  have keeps : Confined p.blocks.length side (p.enter side) p' := (confined _ _).expr.along ran
  have extends_ := (keeps ⟨le_rfl, .inl rfl⟩).2
  exact ⟨extends_.length, extends_.insns, extends_.frame, extends_.edges, extends_.next⟩

namespace Conditional

variable {called : Readers} {ctx : Context} {p p' : Parsing} (r : Conditional called ctx p p')

theorem opened_spec (inside : p.bb < p.blocks.length) : Opened (p.move p.behind) r.sides r.opened :=
  opened_of_openSides r.opens inside

/-- The true side was connected, and nothing else happened before the false side. -/
theorem falseFrom_eq : ∃ cur, r.falseFrom =
    ((r.trueTo.connect r.sides.bb r.trueTo.bb .then_).move cur).setOperands
      r.falseFrom.operandStack := by
  rcases lexAccept_eq_ok r.acceptsColon with ⟨cur, equal⟩
  refine ⟨cur, ?_⟩
  rw [← bbConnect_eq_ok r.linksTrue, ← equal]
  exact (opstackPop_eq_ok r.popsTrue).2

theorem popped_eq : r.popped =
    (r.falseTo.connect r.sides.bb r.falseTo.bb .else_).setOperands r.popped.operandStack := by
  rw [← bbConnect_eq_ok r.linksFalse]
  exact (opstackPop_eq_ok r.popsFalse).2

theorem falseFrom_length : r.falseFrom.blocks.length = r.trueTo.blocks.length := by
  rcases r.falseFrom_eq with ⟨cur, equal⟩
  rw [equal]
  exact Parsing.length_connect _ _ _ _

theorem popped_length : r.popped.blocks.length = r.falseTo.blocks.length := by
  rw [r.popped_eq]
  exact Parsing.length_connect _ _ _ _

theorem falseFrom_graph (made : r.sides.bb < r.trueTo.blocks.length) (i : BlockId) :
    r.falseFrom.graph i = if i = r.sides.bb then
      connected (r.trueTo.graph i) r.trueTo.bb .then_ else r.trueTo.graph i := by
  rcases r.falseFrom_eq with ⟨cur, equal⟩
  rw [equal]
  exact Parsing.graph_connect _ _ _ made i

theorem popped_graph (made : r.sides.bb < r.falseTo.blocks.length) (i : BlockId) :
    r.popped.graph i = if i = r.sides.bb then
      connected (r.falseTo.graph i) r.falseTo.bb .else_ else r.falseTo.graph i := by
  rw [r.popped_eq]
  exact Parsing.graph_connect _ _ _ made i

/-- Where the sides end: in the block they begin in, or in one they made. -/
theorem trueTo_bb (confined : ∀ n b, KeptBy (Confined n b) called) :
    r.trueTo.bb = r.sides.then_ ∨ r.opened.blocks.length ≤ r.trueTo.bb := by
  have keeps : Confined r.opened.blocks.length r.sides.then_ _ _ :=
    (confined _ _).expr.along r.readsTrue
  exact (keeps ⟨le_rfl, .inl rfl⟩).1.bb

theorem falseTo_bb (confined : ∀ n b, KeptBy (Confined n b) called) :
    r.falseTo.bb = r.sides.else_ ∨ r.falseFrom.blocks.length ≤ r.falseTo.bb := by
  have keeps : Confined r.falseFrom.blocks.length r.sides.else_ _ _ :=
    (confined _ _).expr.along r.readsFalse
  exact (keeps ⟨le_rfl, .inl rfl⟩).1.bb

end Conditional

/-- The blocks of a conditional expression, once it is read. -/
structure Layout {called : Readers} {ctx : Context} {p p' : Parsing}
    (r : Conditional called ctx p p')
    (joins : Joins ctx r.trueTo.bb r.falseTo.bb r.trueVal r.falseVal r.popped r.joined) : Prop where
  branchBlock : p'.graph p.bb = {
    insns := (p.graph p.bb).insns ++ [{ opcode := .branch, rs1 := some r.sides.cond }]
    next := (p.graph p.bb).next
    then_ := some r.trueTo.bb
    else_ := some r.falseTo.bb }
  joinBlock : p'.graph r.sides.join = { insns := [] }
  trueJoin : r.trueTo.graph r.sides.join = { insns := [] }
  falseJoin : r.falseTo.graph r.sides.join = { insns := [] }
  thenBlock : r.opened.graph r.sides.then_ = { insns := [], next := some r.sides.join }
  elseBlock : r.falseFrom.graph r.sides.else_ = { insns := [], next := some r.sides.join }
  trueBlock : r.trueTo.bb = r.sides.then_ → p'.graph r.sides.then_ =
    { r.trueTo.graph r.sides.then_ with
      insns := (r.trueTo.graph r.sides.then_).insns ++ joins.trueTail }
  falseBlock : r.falseTo.bb = r.sides.else_ → p'.graph r.sides.else_ =
    { r.falseTo.graph r.sides.else_ with
      insns := (r.falseTo.graph r.sides.else_).insns ++ joins.falseTail }

theorem Conditional.layout {called : Readers} {ctx : Context} {p p' : Parsing}
    (confined : ∀ n b, KeptBy (Confined n b) called) (r : Conditional called ctx p p')
    (inside : p.bb < p.blocks.length)
    (joins : Joins ctx r.trueTo.bb r.falseTo.bb r.trueVal r.falseVal r.popped r.joined) :
    Layout r joins := by
  have opened := r.opened_spec inside
  have thenEq : r.sides.then_ = p.blocks.length := opened.then_
  have elseEq : r.sides.else_ = p.blocks.length + 1 := opened.else_
  have joinEq : r.sides.join = p.blocks.length + 2 := opened.join
  have bbEq : r.sides.bb = p.bb := opened.bb
  have lengthEq : r.opened.blocks.length = p.blocks.length + 3 := opened.length
  have trueExtends := extends_of_readExpr r.readsTrue
  have falseExtends := extends_of_readExpr r.readsFalse
  have trueLength : p.blocks.length + 3 ≤ r.trueTo.blocks.length := lengthEq ▸ trueExtends.length
  have falseLength : p.blocks.length + 3 ≤ r.falseTo.blocks.length :=
    trueLength.trans (r.falseFrom_length ▸ falseExtends.length)
  have old {k : Nat} (small : k < p.blocks.length + 3) :
      k < r.falseFrom.blocks.length ∧ k < r.trueTo.blocks.length ∧ k < r.falseTo.blocks.length := by
    rw [r.falseFrom_length]
    omega
  have isOld : p.bb < p.blocks.length + 3 := Nat.lt_add_right 3 inside
  have fromGraph := r.falseFrom_graph (bbEq ▸ (old isOld).2.1)
  have poppedGraph := r.popped_graph (bbEq ▸ (old isOld).2.2)
  rw [bbEq] at fromGraph poppedGraph
  -- the blocks before the sides, by the block the side begins in
  have trueKeeps {i : BlockId} (small : i < p.blocks.length + 3) (other : i ≠ p.blocks.length) :
      r.trueTo.graph i = r.opened.graph i :=
    trueExtends.graph (lengthEq ▸ small) (thenEq ▸ other)
  have falseKeeps {i : BlockId} (small : i < p.blocks.length + 3)
      (other : i ≠ p.blocks.length + 1) : r.falseTo.graph i = r.falseFrom.graph i :=
    falseExtends.graph (old small).1 (elseEq ▸ other)
  have notThen : p.bb ≠ p.blocks.length := Nat.ne_of_lt inside
  have notElse : p.bb ≠ p.blocks.length + 1 := Nat.ne_of_lt (Nat.lt_succ_of_lt inside)
  -- no other of the first blocks is one that a side ends in
  have notTrue {i : BlockId} (small : i < p.blocks.length + 3) (other : i ≠ p.blocks.length) :
      i ≠ r.trueTo.bb := by
    rcases r.trueTo_bb confined with same | new
    · exact fun equal => other (equal.trans (same.trans thenEq))
    · exact Nat.ne_of_lt (Nat.lt_of_lt_of_le small (lengthEq ▸ new))
  have notFalse {i : BlockId} (small : i < p.blocks.length + 3)
      (other : i ≠ p.blocks.length + 1) : i ≠ r.falseTo.bb := by
    rcases r.falseTo_bb confined with same | new
    · exact fun equal => other (equal.trans (same.trans elseEq))
    · exact Nat.ne_of_lt (Nat.lt_of_lt_of_le (old small).1 new)
  have finalGraph : p'.graph = r.joined.graph := by
    have last := congrArg Parsing.graph r.last
    exact last
  have thenSmall : p.blocks.length < p.blocks.length + 3 := by omega
  have elseSmall : p.blocks.length + 1 < p.blocks.length + 3 := by omega
  have joinSmall : p.blocks.length + 2 < p.blocks.length + 3 := by omega
  have elseNotThen : p.blocks.length + 1 ≠ p.blocks.length := by omega
  have joinNotThen : p.blocks.length + 2 ≠ p.blocks.length := by omega
  have joinNotElse : p.blocks.length + 2 ≠ p.blocks.length + 1 := by omega
  have joinNotBb : p.blocks.length + 2 ≠ p.bb :=
    (Nat.ne_of_lt (Nat.lt_add_right 2 inside)).symm
  have trueJoin : r.trueTo.graph (p.blocks.length + 2) = { insns := [] } := by
    rw [trueKeeps joinSmall joinNotThen, ← joinEq]
    exact opened.joinBlock
  have falseJoin : r.falseTo.graph (p.blocks.length + 2) = { insns := [] } := by
    rw [falseKeeps joinSmall joinNotElse, fromGraph, if_neg joinNotBb, trueJoin]
  constructor
  case branchBlock =>
    rw [finalGraph, joins.graph_other (notTrue isOld notThen) (notFalse isOld notElse),
      poppedGraph, if_pos rfl, falseKeeps isOld notElse, fromGraph, if_pos rfl,
      trueKeeps isOld notThen, show r.opened.graph p.bb = _ from opened.branchBlock]
    rfl
  case joinBlock =>
    rw [finalGraph, joinEq,
      joins.graph_other (notTrue joinSmall joinNotThen) (notFalse joinSmall joinNotElse),
      poppedGraph, if_neg joinNotBb, falseJoin]
  case thenBlock => exact opened.trueBlock
  case elseBlock =>
    rw [elseEq, fromGraph, if_neg (Ne.symm notElse), trueKeeps elseSmall elseNotThen, ← elseEq]
    exact opened.falseBlock
  case trueJoin => rw [joinEq, trueJoin]
  case falseJoin => rw [joinEq, falseJoin]
  case trueBlock =>
    intro stays
    have ends : r.trueTo.bb = p.blocks.length := stays.trans thenEq
    have small : r.trueTo.bb < r.popped.blocks.length := by
      rw [ends, r.popped_length]
      exact (old thenSmall).2.2
    have other : r.trueTo.bb ≠ r.falseTo.bb := by
      rw [ends]
      exact notFalse thenSmall (Ne.symm elseNotThen)
    have same : r.popped.graph r.trueTo.bb = r.trueTo.graph r.trueTo.bb := by
      rw [ends, poppedGraph, if_neg (Ne.symm notThen),
        falseKeeps thenSmall (Ne.symm elseNotThen), fromGraph, if_neg (Ne.symm notThen)]
    rw [finalGraph, ← stays, joins.graph_then other small, same]
  case falseBlock =>
    intro stays
    have ends : r.falseTo.bb = p.blocks.length + 1 := stays.trans elseEq
    have small : r.falseTo.bb < r.popped.blocks.length := by
      rw [ends, r.popped_length]
      exact (old elseSmall).2.2
    have other : r.trueTo.bb ≠ r.falseTo.bb := by
      rw [ends]
      exact (notTrue elseSmall elseNotThen).symm
    have same : r.popped.graph r.falseTo.bb = r.falseTo.graph r.falseTo.bb := by
      rw [ends, poppedGraph, if_neg (Ne.symm notElse)]
    rw [finalGraph, ← stays, joins.graph_else other small, same]

/-! ## When the right side is selected -/

/-- The branch leads to the blocks the sides end in. -/
theorem Layout.step_iff {called : Readers} {ctx : Context} {p p' : Parsing}
    {r : Conditional called ctx p p'}
    {joins : Joins ctx r.trueTo.bb r.falseTo.bb r.trueVal r.falseVal r.popped r.joined}
    (layout : Layout r joins) {world : World} {vars : Vars} {s : State}
    {next : Position × State} :
    Step world vars p'.graph (p.here, s) next ↔
      next = (⟨if (s.value world vars r.sides.cond).truth then r.trueTo.bb
        else r.falseTo.bb, 0⟩, s) := by
  have insnEq : (p'.graph p.bb).insns[(p.block p.bb).insns.length]? =
      some { opcode := .branch, rs1 := some r.sides.cond } := by
    rw [layout.branchBlock]
    exact List.getElem?_concat_length
  exact step_branch_iff insnEq rfl rfl rfl (by rw [layout.branchBlock]) (by rw [layout.branchBlock])

/-- A block that only got more code. -/
theorem Stays.graph {p p' : Parsing} (stays : Stays p p') :
    p'.graph p.bb = { p.graph p.bb with insns := (p'.graph p.bb).insns } := by
  have next : (p'.graph p.bb).next = (p.graph p.bb).next := stays.next
  have then_ : (p'.graph p.bb).then_ = (p.graph p.bb).then_ := stays.then_
  have else_ : (p'.graph p.bb).else_ = (p.graph p.bb).else_ := stays.else_
  dsimp only
  rw [← next, ← then_, ← else_]

/-- A side ends in the block it begins in if and only if it has no token that branches. -/
theorem plain_iff_of_readExpr {called : Readers} [keep : KeptBy TellsFrom called]
    {p p' : Parsing} {side : BlockId} (ends : EndsOnce p.cur) (old : side < p.blocks.length)
    (ran : called.readExpr (p.enter side) = .ok ((), p')) :
    EndsOnce p'.cur ∧ (Plain (tokensBetween p.cur p'.cur) → Stays (p.enter side) p') ∧
      (p'.bb = side → Plain (tokensBetween p.cur p'.cur)) := by
  rcases keep.expr.along ran ends with ⟨endsLast, tells⟩
  refine ⟨endsLast, ?_⟩
  rcases tells with stayed | left
  · rcases stayed.skips with ⟨tokens, advances, plain⟩
    have tokensEq : tokensBetween p.cur p'.cur = tokens := advances.tokensBetween_eq
    exact ⟨fun _ => stayed.stays, fun _ => tokensEq ▸ plain⟩
  · rcases left.advances with ⟨tokens, advances, branches⟩
    have tokensEq : tokensBetween p.cur p'.cur = tokens := advances.tokensBetween_eq
    refine ⟨fun plain => absurd (tokensEq ▸ plain) branches, fun same => ?_⟩
    have new : p.blocks.length ≤ p'.bb := left.new
    rw [same] at new
    exact absurd old (Nat.not_lt_of_le new)

/-- What the tokens of the sides tell. -/
structure Conditional.Tokens {called : Readers} {ctx : Context} {p p' : Parsing}
    (r : Conditional called ctx p p') : Prop where
  trueStays : Plain r.trueTokens → Stays (r.opened.enter r.sides.then_) r.trueTo
  truePlain : r.trueTo.bb = r.sides.then_ → Plain r.trueTokens
  falseStays : Plain r.falseTokens → Stays (r.falseFrom.enter r.sides.else_) r.falseTo
  falsePlain : r.falseTo.bb = r.sides.else_ → Plain r.falseTokens

theorem Conditional.tokens {called : Readers} [keep : KeptBy TellsFrom called] {ctx : Context}
    {p p' : Parsing} (r : Conditional called ctx p p') (ends : EndsOnce p.cur)
    (inside : p.bb < p.blocks.length) (asked : p.peek = some .question)
    (confined : ∀ n b, KeptBy (Confined n b) called) : r.Tokens := by
  have opened := r.opened_spec inside
  have lengthEq : r.opened.blocks.length = p.blocks.length + 3 := opened.length
  have thenOld : r.sides.then_ < r.opened.blocks.length := by
    rw [lengthEq, opened.then_]
    exact Nat.lt_add_of_pos_right (by omega)
  have elseOld : r.sides.else_ < r.falseFrom.blocks.length := by
    refine Nat.lt_of_lt_of_le ?_
      (r.falseFrom_length ▸ (extends_of_readExpr r.readsTrue).length)
    rw [lengthEq, opened.else_]
    exact Nat.add_lt_add_left (by omega) _
  have trueEnds : EndsOnce r.opened.cur := by
    rcases Parsing.advances_behind ends asked with ⟨tokens, token, advances, -, -⟩
    rw [opened.cur]
    exact ends.advance advances
  rcases plain_iff_of_readExpr trueEnds thenOld r.readsTrue with ⟨ends, trueStays, truePlain⟩
  have falseEnds : EndsOnce r.falseFrom.cur := by
    have skips : Proceeds r.trueLinked r.behindColon := Along.along r.acceptsColon
    rw [(opstackPop_eq_ok r.popsTrue).2]
    refine EndsOnce.skip ?_ skips.skips
    rw [bbConnect_eq_ok r.linksTrue]
    exact ends
  rcases plain_iff_of_readExpr falseEnds elseOld r.readsFalse with ⟨-, falseStays, falsePlain⟩
  exact ⟨trueStays, truePlain, falseStays, falsePlain⟩

/-- A world in which nothing is called. -/
def idleWorld : World where
  home _ := 0
  region _ := none
  dataAddress w := w
  rodataAddress w := w
  funcAddress _ := 0
  arch := .arm
  callee _ _ _ _ _ := False
  calleeAt _ _ _ _ _ := False

/-- A state in which every bit is the same. -/
def constantState (w : Word) (byte : BitVec 8) : State :=
  { env := fun _ => w, memory := fun _ => byte, args := [], ret := 0 }

theorem value_zeros (vars : Vars) (v : VarId) :
    (constantState 0 0).value idleWorld vars v = 0 := by
  unfold State.value
  split
  · change (0#8 ++ 0#8 ++ 0#8 ++ 0#8 : BitVec 32) = 0
    decide
  · rfl

theorem value_ones (vars : Vars) (v : VarId) :
    (constantState (-1) (-1)).value idleWorld vars v = -1 := by
  unfold State.value
  split
  · change (255#8 ++ 255#8 ++ 255#8 ++ 255#8 : BitVec 32) = -1
    decide
  · rfl

section

variable {called : Readers} {ctx : Context} {p p' : Parsing} {r : Conditional called ctx p p'}
  {joins : Joins ctx r.trueTo.bb r.falseTo.bb r.trueVal r.falseVal r.popped r.joined}

/-- Where sides are selected, the branch leads to where they begin. -/
theorem Selects.target (selects : Selects r) (layout : Layout r joins) (s : State) :
    (if (s.value idleWorld p'.irVars r.sides.cond).truth then r.trueTo.bb else r.falseTo.bb) =
      if (s.value idleWorld p'.irVars r.sides.cond).truth then r.sides.then_
        else r.sides.else_ := by
  have step : Step idleWorld p'.irVars p'.graph (p.here, s) _ := layout.step_iff.mpr rfl
  exact congrArg (fun position => position.1.bb) (selects.branches.mp step)

theorem Selects.trueTo_bb (selects : Selects r) (layout : Layout r joins) :
    r.trueTo.bb = r.sides.then_ := by
  have target := selects.target layout (constantState (-1) (-1))
  rw [value_ones] at target
  exact target

theorem Selects.falseTo_bb (selects : Selects r) (layout : Layout r joins) :
    r.falseTo.bb = r.sides.else_ := by
  have target := selects.target layout (constantState 0 0)
  rw [value_zeros] at target
  exact target

/-- Plain sides are selected. -/
theorem selects_of_plain (layout : Layout r joins) (tokens : r.Tokens)
    (inside : p.bb < p.blocks.length) (trueIsPlain : Plain r.trueTokens)
    (falseIsPlain : Plain r.falseTokens) : Selects r := by
  have opened := r.opened_spec inside
  have trueStays := tokens.trueStays trueIsPlain
  have falseStays := tokens.falseStays falseIsPlain
  have trueEnds : r.trueTo.bb = r.sides.then_ := trueStays.bb
  have falseEnds : r.falseTo.bb = r.sides.else_ := falseStays.bb
  have trueCode : r.trueTo.graph r.sides.then_ =
      { insns := (r.trueTo.graph r.sides.then_).insns, next := some r.sides.join } := by
    refine trueStays.graph.trans ?_
    rw [Parsing.enter_graph, Parsing.enter_bb, layout.thenBlock]
  have falseCode : r.falseTo.graph r.sides.else_ =
      { insns := (r.falseTo.graph r.sides.else_).insns, next := some r.sides.join } := by
    refine falseStays.graph.trans ?_
    rw [Parsing.enter_graph, Parsing.enter_bb, layout.elseBlock]
  have resultEq : r.result = joins.scalarized.vars.length := by
    have operands : r.result :: r.popped.operandStack =
        joins.scalarized.vars.length :: joins.scalarized.operandStack := by
      rw [← r.pushed, ← joins.operandStack]
      have last := congrArg Parsing.operandStack r.last
      exact last
    exact (List.cons_eq_cons.mp operands).1
  have varsEq : p'.irVars = r.joined.irVars := by
    have last := congrArg Parsing.irVars r.last
    exact last
  have thenNotJoin : r.sides.then_ ≠ r.sides.join := by
    rw [opened.then_, opened.join]
    exact Nat.ne_of_lt (Nat.lt_add_of_pos_right (by omega))
  have elseNotJoin : r.sides.else_ ≠ r.sides.join := by
    rw [opened.else_, opened.join]
    exact Nat.ne_of_lt (Nat.add_lt_add_left (by omega) _)
  constructor
  case branches =>
    intro world s next
    rw [← trueEnds, ← falseEnds]
    exact layout.step_iff
  case trueSide =>
    have graphEq := layout.trueBlock trueEnds
    rw [trueCode] at graphEq
    have evaluates := evaluates_of_straight thenNotJoin trueCode layout.trueJoin graphEq
      layout.joinBlock joins.trueComputes
    have hereEq : r.trueTo.here =
        ⟨r.sides.then_, (r.trueTo.graph r.sides.then_).insns.length⟩ := by
      unfold Parsing.here
      rw [trueEnds]
      rfl
    rw [hereEq, resultEq, varsEq]
    exact evaluates
  case falseSide =>
    have graphEq := layout.falseBlock falseEnds
    rw [falseCode] at graphEq
    have evaluates := evaluates_of_straight elseNotJoin falseCode layout.falseJoin graphEq
      layout.joinBlock joins.falseComputes
    have hereEq : r.falseTo.here =
        ⟨r.sides.else_, (r.falseTo.graph r.sides.else_).insns.length⟩ := by
      unfold Parsing.here
      rw [falseEnds]
      rfl
    rw [hereEq, resultEq, varsEq]
    exact evaluates

end

/-- Symbol tables that only know `int`. -/
def intContext : Context where
  types := [{ typeName := "int", baseType := .int, size := 4 }]
  tyInt := 0
  tyChar := 0
  tyShort := 0
  constants _ := none
  funcs _ := none
  outer := []
  unwritten _ := ""

/-- The parser behind a variable, before these tokens. -/
def behindVariable (tokens : List (TokenKind × String)) : Parsing where
  cur := ⟨⟨.identifier, "c", ⟨0, 0, 0, 0, ""⟩⟩,
    tokens.map fun token => ⟨token.1, token.2, ⟨0, 0, 0, 0, ""⟩⟩⟩
  vars := [{ type := some 0, varName := "c" }]
  locals := [0]
  globalVarIdx := 0
  operandStack := [0]
  sideEffect := []
  blocks := [.new]
  bb := 0
  rodata := []

/-- `c ? 7 : 8;`. -/
def plainConditional : Parsing := behindVariable
  [(.question, "?"), (.numeric, "7"), (.colon, ":"), (.numeric, "8"), (.semicolon, ";"), (.eof, "")]

/-- `c ? 7 && c : 8;`. -/
def branchingConditional : Parsing := behindVariable
  [(.question, "?"), (.numeric, "7"), (.logAnd, "&&"), (.identifier, "c"), (.colon, ":"),
    (.numeric, "8"), (.semicolon, ";"), (.eof, "")]

theorem ok_of_toBool {α : Type} {result : Except Stop α} (ran : result.toBool = true) :
    ∃ value, result = .ok value := by
  cases result with
  | error => cases ran
  | ok value => exact ⟨value, rfl⟩

/-- The block the second operand begins in, and the one it ends in. -/
def trueEnds (called : Readers) (p : Parsing) : Except Stop (BlockId × BlockId) := do
  let (sides, opened) ← openSides (p.move p.behind)
  let (_, trueTo) ← called.readExpr (opened.enter sides.then_)
  pure (sides.then_, trueTo.bb)

theorem Conditional.trueEnds_eq {called : Readers} {ctx : Context} {p p' : Parsing}
    (r : Conditional called ctx p p') : trueEnds called p = .ok (r.sides.then_, r.trueTo.bb) := by
  unfold trueEnds
  rw [r.opens]
  change (called.readExpr (r.opened.enter r.sides.then_) >>= fun result =>
    pure (r.sides.then_, result.2.bb)) = _
  rw [r.readsTrue]
  rfl

end Shecc.Parser
