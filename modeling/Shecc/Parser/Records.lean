import Shecc.Parser.Branching
import Shecc.Ir.Step

/-!
# What the small steps of the parser make

New variables, new code and new operands: what each of the small steps leaves is
written down as one state.
-/

namespace Shecc.Parser

open Shecc.Preprocessor (Token TokenKind SourceLocation Cursor)

@[simp]
theorem modify_concat {α : Type} (l : List α) (a : α) (change : α → α) :
    (l ++ [a]).modify l.length change = l ++ [change a] := by
  induction l with
  | nil => rfl
  | cons b rest inductionHypothesis => simpa using inductionHypothesis

namespace Parsing

/-- A new variable with a generated name. -/
def temp (p : Parsing) (record : VarRecord) : Parsing :=
  { p.withVar { record with varName := ".t" ++ toString p.globalVarIdx } with
    globalVarIdx := p.globalVarIdx + 1 }

/-- More code in the block of the parser. -/
def append (p : Parsing) (insn : Insn) : Parsing :=
  p.modifyBlock p.bb fun block => { block with insns := block.insns ++ [insn] }

/-- One more operand. -/
def push (p : Parsing) (v : VarId) : Parsing := { p with operandStack := v :: p.operandStack }

/-- The parser goes on in another block. -/
def enter (p : Parsing) (bb : BlockId) : Parsing := { p with bb := bb }

/-- Other operands. -/
def setOperands (p : Parsing) (stack : List VarId) : Parsing := { p with operandStack := stack }

/-- One more block. -/
def create (p : Parsing) : Parsing := { p with blocks := p.blocks ++ [.new] }

/-- A new variable, which an instruction computes, on other operands. -/
def compute (p : Parsing) (record : VarRecord) (insn : Insn) (rest : List VarId) : Parsing :=
  (((p.setOperands rest).temp record).push p.vars.length).append insn

/-- The blocks as they are executed. -/
def graph (p : Parsing) (bb : BlockId) : Block := (p.block bb).toBlock

/-- The position behind the code that was read last. -/
def here (p : Parsing) : Position := ⟨p.bb, (p.block p.bb).insns.length⟩

@[simp] theorem temp_blocks (p : Parsing) (record : VarRecord) :
    (p.temp record).blocks = p.blocks := rfl

@[simp] theorem temp_bb (p : Parsing) (record : VarRecord) : (p.temp record).bb = p.bb := rfl

@[simp] theorem temp_cur (p : Parsing) (record : VarRecord) : (p.temp record).cur = p.cur := rfl

@[simp] theorem temp_operandStack (p : Parsing) (record : VarRecord) :
    (p.temp record).operandStack = p.operandStack := rfl

@[simp] theorem length_temp (p : Parsing) (record : VarRecord) :
    (p.temp record).vars.length = p.vars.length + 1 := by
  simp [temp, withVar]

@[simp] theorem temp_block (p : Parsing) (record : VarRecord) (i : BlockId) :
    (p.temp record).block i = p.block i := rfl

theorem var_withVar (p : Parsing) (record : VarRecord) (v : VarId) :
    (p.withVar record).var v = if v = p.vars.length then record else p.var v := by
  unfold withVar var
  simp only [List.getD_eq_getElem?_getD]
  by_cases new : v = p.vars.length
  · simp [new]
  · rw [if_neg new]
    by_cases old : v < p.vars.length
    · rw [List.getElem?_append_left old]
    · have beyond : p.vars.length < v := Nat.lt_of_le_of_ne (Nat.le_of_not_lt old) (Ne.symm new)
      rw [List.getElem?_eq_none (by simpa using beyond), List.getElem?_eq_none beyond.le]

theorem var_temp (p : Parsing) (record : VarRecord) (v : VarId) :
    (p.temp record).var v = if v = p.vars.length then
      { record with varName := ".t" ++ toString p.globalVarIdx } else p.var v :=
  p.var_withVar _ v

@[simp] theorem var_temp_new (p : Parsing) (record : VarRecord) :
    (p.temp record).var p.vars.length =
      { record with varName := ".t" ++ toString p.globalVarIdx } := by
  rw [var_temp, if_pos rfl]

theorem var_temp_old (p : Parsing) (record : VarRecord) {v : VarId} (old : v < p.vars.length) :
    (p.temp record).var v = p.var v := by
  rw [var_temp, if_neg (Nat.ne_of_lt old)]

theorem var_modifyVar (p : Parsing) (v u : VarId) (change : VarRecord → VarRecord) :
    (p.modifyVar v change).var u =
      if v = u ∧ u < p.vars.length then change (p.var u) else p.var u := by
  unfold modifyVar var
  by_cases here : v = u
  · subst here
    by_cases inside : v < p.vars.length <;> simp [inside, List.getD_eq_getElem?_getD]
  · simp [here, List.getD_eq_getElem?_getD]

@[simp] theorem length_modifyVar (p : Parsing) (v : VarId) (change : VarRecord → VarRecord) :
    (p.modifyVar v change).vars.length = p.vars.length := by
  simp [modifyVar]

theorem modifyVar_modifyVar (p : Parsing) (v : VarId) (first second : VarRecord → VarRecord) :
    (p.modifyVar v first).modifyVar v second = p.modifyVar v (second ∘ first) := by
  simp [modifyVar, List.modify_modify_eq]

@[simp] theorem modifyVar_graph (p : Parsing) (v : VarId) (change : VarRecord → VarRecord) :
    (p.modifyVar v change).graph = p.graph := rfl

/-- The record of the variable made last is changed. -/
theorem modifyVar_withVar (p : Parsing) (record : VarRecord) (change : VarRecord → VarRecord) :
    (p.withVar record).modifyVar p.vars.length change = p.withVar (change record) := by
  simp [withVar, modifyVar]

theorem modifyVar_temp (p : Parsing) (record : VarRecord) (change : VarRecord → VarRecord)
    (name : ∀ r : VarRecord, ∀ n, change { r with varName := n } = { change r with varName := n }) :
    (p.temp record).modifyVar p.vars.length change = p.temp (change record) := by
  have named := name record (".t" ++ toString p.globalVarIdx)
  simp only [temp, withVar, modifyVar, modify_concat, named]

@[simp] theorem modifyBlock_vars (p : Parsing) (bb : BlockId) (change : BasicBlock → BasicBlock) :
    (p.modifyBlock bb change).vars = p.vars := rfl

@[simp] theorem modifyBlock_var (p : Parsing) (bb : BlockId) (change : BasicBlock → BasicBlock)
    (v : VarId) : (p.modifyBlock bb change).var v = p.var v := rfl

@[simp] theorem push_var (p : Parsing) (v u : VarId) : (p.push v).var u = p.var u := rfl

@[simp] theorem append_bb (p : Parsing) (insn : Insn) : (p.append insn).bb = p.bb := rfl

@[simp] theorem append_vars (p : Parsing) (insn : Insn) : (p.append insn).vars = p.vars := rfl

@[simp] theorem append_operandStack (p : Parsing) (insn : Insn) :
    (p.append insn).operandStack = p.operandStack := rfl

@[simp] theorem append_cur (p : Parsing) (insn : Insn) : (p.append insn).cur = p.cur := rfl

@[simp] theorem append_var (p : Parsing) (insn : Insn) (v : VarId) :
    (p.append insn).var v = p.var v := rfl

@[simp] theorem length_append (p : Parsing) (insn : Insn) :
    (p.append insn).blocks.length = p.blocks.length := length_modifyBlock _ _ _

theorem graph_append (p : Parsing) (insn : Insn) (i : BlockId) :
    (p.append insn).graph i = if p.bb = i ∧ i < p.blocks.length then
      { p.graph i with insns := (p.graph i).insns ++ [insn] } else p.graph i := by
  unfold graph append
  rw [block_modifyBlock]
  split <;> rfl

@[simp] theorem setOperands_graph (p : Parsing) (stack : List VarId) :
    (p.setOperands stack).graph = p.graph := rfl

@[simp] theorem setOperands_blocks (p : Parsing) (stack : List VarId) :
    (p.setOperands stack).blocks = p.blocks := rfl

@[simp] theorem setOperands_bb (p : Parsing) (stack : List VarId) :
    (p.setOperands stack).bb = p.bb := rfl

@[simp] theorem setOperands_cur (p : Parsing) (stack : List VarId) :
    (p.setOperands stack).cur = p.cur := rfl

@[simp] theorem setOperands_vars (p : Parsing) (stack : List VarId) :
    (p.setOperands stack).vars = p.vars := rfl

@[simp] theorem setOperands_var (p : Parsing) (stack : List VarId) (v : VarId) :
    (p.setOperands stack).var v = p.var v := rfl

@[simp] theorem setOperands_operandStack (p : Parsing) (stack : List VarId) :
    (p.setOperands stack).operandStack = stack := rfl

@[simp] theorem length_create (p : Parsing) : p.create.blocks.length = p.blocks.length + 1 := by
  simp [create]

@[simp] theorem create_bb (p : Parsing) : p.create.bb = p.bb := rfl

@[simp] theorem create_cur (p : Parsing) : p.create.cur = p.cur := rfl

@[simp] theorem create_vars (p : Parsing) : p.create.vars = p.vars := rfl

@[simp] theorem create_operandStack (p : Parsing) :
    p.create.operandStack = p.operandStack := rfl

@[simp] theorem create_graph (p : Parsing) : p.create.graph = p.graph := by
  funext i
  unfold graph create
  rw [block_create]

/-- A name no block has yet. -/
theorem graph_of_le (p : Parsing) {i : BlockId} (beyond : p.blocks.length ≤ i) :
    p.graph i = { insns := [] } := by
  unfold graph block
  rw [List.getD_eq_getElem?_getD, List.getElem?_eq_none beyond]
  rfl

@[simp] theorem push_blocks (p : Parsing) (v : VarId) : (p.push v).blocks = p.blocks := rfl

@[simp] theorem push_bb (p : Parsing) (v : VarId) : (p.push v).bb = p.bb := rfl

@[simp] theorem push_operandStack (p : Parsing) (v : VarId) :
    (p.push v).operandStack = v :: p.operandStack := rfl

@[simp] theorem push_vars (p : Parsing) (v : VarId) : (p.push v).vars = p.vars := rfl

@[simp] theorem push_graph (p : Parsing) (v : VarId) : (p.push v).graph = p.graph := rfl

@[simp] theorem enter_blocks (p : Parsing) (bb : BlockId) : (p.enter bb).blocks = p.blocks := rfl

@[simp] theorem enter_bb (p : Parsing) (bb : BlockId) : (p.enter bb).bb = bb := rfl

@[simp] theorem enter_vars (p : Parsing) (bb : BlockId) : (p.enter bb).vars = p.vars := rfl

@[simp] theorem enter_var (p : Parsing) (bb : BlockId) (v : VarId) :
    (p.enter bb).var v = p.var v := rfl

@[simp] theorem enter_graph (p : Parsing) (bb : BlockId) : (p.enter bb).graph = p.graph := rfl

@[simp] theorem enter_block (p : Parsing) (bb i : BlockId) : (p.enter bb).block i = p.block i := rfl

@[simp] theorem enter_cur (p : Parsing) (bb : BlockId) : (p.enter bb).cur = p.cur := rfl

@[simp] theorem enter_operandStack (p : Parsing) (bb : BlockId) :
    (p.enter bb).operandStack = p.operandStack := rfl

@[simp] theorem compute_operandStack (p : Parsing) (record : VarRecord) (insn : Insn)
    (rest : List VarId) : (p.compute record insn rest).operandStack = p.vars.length :: rest := rfl

@[simp] theorem length_compute (p : Parsing) (record : VarRecord) (insn : Insn)
    (rest : List VarId) : (p.compute record insn rest).vars.length = p.vars.length + 1 := by
  simp [compute]

@[simp] theorem compute_bb (p : Parsing) (record : VarRecord) (insn : Insn)
    (rest : List VarId) : (p.compute record insn rest).bb = p.bb := rfl

@[simp] theorem length_compute_blocks (p : Parsing) (record : VarRecord) (insn : Insn)
    (rest : List VarId) : (p.compute record insn rest).blocks.length = p.blocks.length := by
  simp [compute]

theorem var_compute (p : Parsing) (record : VarRecord) (insn : Insn) (rest : List VarId)
    (v : VarId) : (p.compute record insn rest).var v = if v = p.vars.length then
      { record with varName := ".t" ++ toString p.globalVarIdx } else p.var v :=
  (p.setOperands rest).var_temp record v

theorem var_compute_old (p : Parsing) (record : VarRecord) (insn : Insn) (rest : List VarId)
    {v : VarId} (old : v < p.vars.length) : (p.compute record insn rest).var v = p.var v :=
  (p.setOperands rest).var_temp_old record old

end Parsing

/-! ## The steps -/

theorem bbCreate_eq (p : Parsing) : bbCreate p = .ok (p.blocks.length, p.create) := rfl

theorem newTemp_eq (ctx : Context) (p : Parsing) :
    newTemp ctx p = .ok (p.vars.length, p.temp { type := some ctx.tyInt }) := by
  change Except.ok (p.vars.length, _) = _
  simp [Parsing.temp, Parsing.withVar, Parsing.modifyVar]

theorem setVar_temp (p : Parsing) (record : VarRecord) (change : VarRecord → VarRecord)
    (name : ∀ r : VarRecord, ∀ n, change { r with varName := n } = { change r with varName := n }) :
    setVar p.vars.length change (p.temp record) = .ok ((), p.temp (change record)) := by
  unfold setVar
  rw [p.modifyVar_temp record change name]

theorem newConstant_eq (ctx : Context) (value : Word) (p : Parsing) :
    newConstant ctx value p =
      .ok (p.vars.length, p.temp { type := some ctx.tyInt, initVal := value }) := by
  unfold newConstant
  rw [Parse.bind_ok (newTemp_eq ctx p), Parse.bind_ok (setVar_temp p _ _ fun _ _ => rfl)]
  rfl

theorem requireTypedVar_eq (ctx : Context) (type : TypeId) (p : Parsing) :
    requireTypedVar ctx (some type) p =
      .ok (p.vars.length, p.withVar { type := some type }) := by
  change Except.ok (p.vars.length, _) = _
  rw [p.modifyVar_withVar]

theorem genNameTo_eq (record : VarRecord) (p : Parsing) :
    genNameTo p.vars.length (p.withVar record) = .ok ((), p.temp record) := by
  unfold genNameTo
  rw [p.modifyVar_withVar]
  rfl

theorem typeOf_eq_ok {ctx : Context} {type : Option TypeId} {record : TypeRecord}
    {p p' : Parsing} (ran : ctx.typeOf type p = .ok (record, p')) :
    type.bind (ctx.types[·]?) = some record ∧ p' = p := by
  unfold Context.typeOf at ran
  cases found : type.bind (ctx.types[·]?) with
  | none =>
      rw [found] at ran
      cases ran
  | some value =>
      rw [found] at ran
      cases ran
      exact ⟨rfl, rfl⟩

/-- An instruction that takes no address is only added. -/
theorem addInsn_eq {insn : Insn} (bb : BlockId) (noAddress : insn.opcode ≠ .addressOf)
    (noGlobal : insn.opcode ≠ .globalAddressOf) (p : Parsing) :
    addInsn bb insn p =
      .ok ((), p.modifyBlock bb fun block => { block with insns := block.insns ++ [insn] }) := by
  unfold addInsn
  cases insn.rs1 with
  | none => rfl
  | some rs1 => simp [noAddress, noGlobal]

theorem emit_eq {insn : Insn} (noAddress : insn.opcode ≠ .addressOf)
    (noGlobal : insn.opcode ≠ .globalAddressOf) (p : Parsing) :
    emit insn p = .ok ((), p.append insn) :=
  addInsn_eq p.bb noAddress noGlobal p

theorem opstackPush_eq_ok {v : VarId} {p p' : Parsing}
    (ran : opstackPush v p = .ok ((), p')) : p' = p.push v := by
  unfold opstackPush at ran
  split at ran <;> cases ran
  rfl

theorem opstackPop_eq_ok {v : VarId} {p p' : Parsing} (ran : opstackPop p = .ok (v, p')) :
    p.operandStack = v :: p'.operandStack ∧ p' = p.setOperands p'.operandStack := by
  unfold opstackPop at ran
  split at ran
  case h_1 => cases ran
  case h_2 stackEq =>
    cases ran
    exact ⟨stackEq, rfl⟩

theorem opstackPush_eq {p : Parsing} (v : VarId)
    (room : p.operandStack.length < maxOperandStackSize) :
    opstackPush v p = .ok ((), p.push v) := by
  rw [opstackPush, if_pos room]
  rfl

theorem opstackPop_eq {p : Parsing} {v : VarId} {rest : List VarId}
    (stackEq : p.operandStack = v :: rest) : opstackPop p = .ok (v, p.setOperands rest) := by
  unfold opstackPop
  rw [stackEq]
  rfl

theorem pushConstant_eq {p : Parsing} (ctx : Context) (value : Word)
    (room : p.operandStack.length < maxOperandStackSize) :
    pushConstant ctx value p = .ok ((), p.compute { type := some ctx.tyInt, initVal := value }
      { opcode := .loadConstant, rd := some p.vars.length } p.operandStack) := by
  unfold pushConstant
  rw [Parse.bind_ok (newConstant_eq ctx value p),
    Parse.bind_ok (opstackPush_eq (p := p.temp _) _ room),
    emit_eq (by simp) (by simp)]
  rfl

theorem pushTemp_eq {p : Parsing} (ctx : Context) {insn : VarId → Insn}
    (room : p.operandStack.length < maxOperandStackSize)
    (noAddress : (insn p.vars.length).opcode ≠ .addressOf)
    (noGlobal : (insn p.vars.length).opcode ≠ .globalAddressOf) :
    pushTemp ctx insn p =
      .ok ((), p.compute { type := some ctx.tyInt } (insn p.vars.length) p.operandStack) := by
  unfold pushTemp
  rw [Parse.bind_ok (newTemp_eq ctx p), Parse.bind_ok (opstackPush_eq (p := p.temp _) _ room),
    emit_eq noAddress noGlobal]
  rfl

theorem unaryTemp_eq {p : Parsing} {rs1 : VarId} {rest : List VarId} {op : Opcode} (ctx : Context)
    (sz : Int) (stackEq : p.operandStack = rs1 :: rest) (room : rest.length < maxOperandStackSize)
    (noAddress : op ≠ .addressOf) (noGlobal : op ≠ .globalAddressOf) :
    unaryTemp ctx op sz p = .ok ((), p.compute { type := some ctx.tyInt }
      { opcode := op, rd := some p.vars.length, rs1 := some rs1, sz := sz } rest) := by
  unfold unaryTemp
  rw [Parse.bind_ok (opstackPop_eq stackEq), pushTemp_eq ctx room noAddress noGlobal]
  rfl

theorem binaryTemp_eq {p : Parsing} {rs2 rs1 : VarId} {rest : List VarId} {op : Opcode}
    (ctx : Context) (stackEq : p.operandStack = rs2 :: rs1 :: rest)
    (room : rest.length < maxOperandStackSize) (noAddress : op ≠ .addressOf)
    (noGlobal : op ≠ .globalAddressOf) :
    binaryTemp ctx op p = .ok ((), p.compute { type := some ctx.tyInt }
      { opcode := op, rd := some p.vars.length, rs1 := some rs1, rs2 := some rs2 } rest) := by
  unfold binaryTemp
  have stackEq' : (p.setOperands (rs1 :: rest)).operandStack = rs1 :: rest := rfl
  rw [Parse.bind_ok (opstackPop_eq stackEq), Parse.bind_ok (opstackPop_eq stackEq'),
    pushTemp_eq ctx room noAddress noGlobal]
  rfl

theorem pushConstant_eq_ok {ctx : Context} {value : Word} {p p' : Parsing}
    (ran : pushConstant ctx value p = .ok ((), p')) :
    p' = p.compute { type := some ctx.tyInt, initVal := value }
      { opcode := .loadConstant, rd := some p.vars.length } p.operandStack := by
  unfold pushConstant at ran
  rw [Parse.bind_ok (newConstant_eq ctx value p)] at ran
  rcases Parse.bind_eq_ok_iff.mp ran with ⟨⟨⟩, pushed, ranPush, ran⟩
  rw [opstackPush_eq_ok ranPush, emit_eq] at ran
  · cases ran
    rfl
  · nofun
  · nofun

theorem pushTemp_eq_ok {ctx : Context} {insn : VarId → Insn} {p p' : Parsing}
    (noAddress : (insn p.vars.length).opcode ≠ .addressOf)
    (noGlobal : (insn p.vars.length).opcode ≠ .globalAddressOf)
    (ran : pushTemp ctx insn p = .ok ((), p')) :
    p' = p.compute { type := some ctx.tyInt } (insn p.vars.length) p.operandStack := by
  unfold pushTemp at ran
  rw [Parse.bind_ok (newTemp_eq ctx p)] at ran
  rcases Parse.bind_eq_ok_iff.mp ran with ⟨⟨⟩, pushed, ranPush, ran⟩
  rw [opstackPush_eq_ok ranPush, emit_eq noAddress noGlobal] at ran
  cases ran
  rfl

theorem unaryTemp_eq_ok {ctx : Context} {op : Opcode} {sz : Int} {p p' : Parsing}
    (noAddress : op ≠ .addressOf) (noGlobal : op ≠ .globalAddressOf)
    (ran : unaryTemp ctx op sz p = .ok ((), p')) :
    ∃ rs1 rest, p.operandStack = rs1 :: rest ∧ p' = p.compute { type := some ctx.tyInt }
      { opcode := op, rd := some p.vars.length, rs1 := some rs1, sz := sz } rest := by
  unfold unaryTemp at ran
  rcases Parse.bind_eq_ok_iff.mp ran with ⟨rs1, popped, ranPop, ran⟩
  rcases opstackPop_eq_ok ranPop with ⟨stackEq, equal⟩
  rw [equal] at ran
  exact ⟨rs1, popped.operandStack, stackEq, pushTemp_eq_ok noAddress noGlobal ran⟩

theorem binaryTemp_eq_ok {ctx : Context} {op : Opcode} {p p' : Parsing}
    (noAddress : op ≠ .addressOf) (noGlobal : op ≠ .globalAddressOf)
    (ran : binaryTemp ctx op p = .ok ((), p')) :
    ∃ rs2 rs1 rest, p.operandStack = rs2 :: rs1 :: rest ∧
      p' = p.compute { type := some ctx.tyInt }
        { opcode := op, rd := some p.vars.length, rs1 := some rs1, rs2 := some rs2 } rest := by
  unfold binaryTemp at ran
  rcases Parse.bind_eq_ok_iff.mp ran with ⟨rs2, popped, ranPop, ran⟩
  rcases opstackPop_eq_ok ranPop with ⟨stackEq, equal⟩
  rcases Parse.bind_eq_ok_iff.mp ran with ⟨rs1, popped', ranPop', ran⟩
  rcases opstackPop_eq_ok ranPop' with ⟨stackEq', equal'⟩
  rw [equal', equal] at ran
  refine ⟨rs2, rs1, popped'.operandStack, by rw [stackEq, stackEq'], ?_⟩
  exact pushTemp_eq_ok noAddress noGlobal ran

theorem lexAccept_eq_ok {kind : TokenKind} {found : Bool} {p p' : Parsing}
    (ran : lexAccept kind p = .ok (found, p')) : ∃ cur, p' = p.move cur := by
  unfold lexAccept at ran
  split at ran <;> cases ran <;> exact ⟨_, rfl⟩

theorem lexExpect_eq_ok {kind : TokenKind} {p p' : Parsing}
    (ran : lexExpect kind p = .ok ((), p')) : ∃ cur, p' = p.move cur := by
  unfold lexExpect at ran
  split at ran <;> cases ran
  exact ⟨_, rfl⟩

/-- A block with one successor set, as it is executed. -/
def connected (block : Block) (succ : BlockId) : Connection → Block
  | .next => { block with next := some succ }
  | .then_ => { block with then_ := some succ }
  | .else_ => { block with else_ := some succ }

namespace Parsing

/-- One more connection. -/
def connect (p : Parsing) (pred succ : BlockId) (type : Connection) : Parsing :=
  (p.modifyBlock succ fun block =>
    { block with prev := block.prev ++ [(pred, type)] }).modifyBlock pred fun block =>
      block.connect succ type

@[simp] theorem length_connect (p : Parsing) (pred succ : BlockId) (type : Connection) :
    (p.connect pred succ type).blocks.length = p.blocks.length := by
  simp [connect]

@[simp] theorem connect_bb (p : Parsing) (pred succ : BlockId) (type : Connection) :
    (p.connect pred succ type).bb = p.bb := rfl

@[simp] theorem connect_cur (p : Parsing) (pred succ : BlockId) (type : Connection) :
    (p.connect pred succ type).cur = p.cur := rfl

@[simp] theorem connect_vars (p : Parsing) (pred succ : BlockId) (type : Connection) :
    (p.connect pred succ type).vars = p.vars := rfl

@[simp] theorem connect_operandStack (p : Parsing) (pred succ : BlockId) (type : Connection) :
    (p.connect pred succ type).operandStack = p.operandStack := rfl

theorem graph_connect (p : Parsing) {pred : BlockId} (succ : BlockId) (type : Connection)
    (inside : pred < p.blocks.length) (i : BlockId) :
    (p.connect pred succ type).graph i =
      if i = pred then connected (p.graph i) succ type else p.graph i := by
  unfold connect graph
  rw [block_modifyBlock, block_modifyBlock]
  by_cases here : pred = i
  · subst here
    by_cases loop : succ = pred
    · cases type <;> simp [loop, inside, BasicBlock.connect, connected]
    · cases type <;> simp [loop, inside, BasicBlock.connect, connected]
  · have other : i ≠ pred := fun same => here same.symm
    rw [if_neg (fun both => here both.1), if_neg other]
    split <;> rfl

end Parsing

theorem bbConnect_eq_ok {pred succ : BlockId} {type : Connection} {p p' : Parsing}
    (ran : bbConnect pred succ type p = .ok ((), p')) : p' = p.connect pred succ type := by
  unfold bbConnect at ran
  split at ran <;> cases ran
  rfl

end Shecc.Parser
