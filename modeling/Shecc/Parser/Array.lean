import Shecc.Parser.Element
import Shecc.Parser.Literal

/-!
# Arrays

An array whose indices are numbers can be read, whatever its dimensions are, and
its code runs. So an array is well addressed exactly when the strides of
`read_lvalue` tell its elements apart.
-/

namespace Shecc.Parser

open Shecc.Preprocessor (Token TokenKind SourceLocation Cursor)

/-! ## Code that always runs -/

/-- Variables are only added. -/
structure Knows (p p' : Parsing) : Prop where
  less : p.vars.length ≤ p'.vars.length
  old : ∀ v < p.vars.length, p'.var v = p.var v

theorem Knows.refl (p : Parsing) : Knows p p := ⟨le_rfl, fun _ _ => rfl⟩

theorem Knows.trans {p q r : Parsing} (first : Knows p q) (second : Knows q r) : Knows p r where
  less := first.less.trans second.less
  old v known := by
    rw [second.old v (Nat.lt_of_lt_of_le known first.less), first.old v known]

theorem Pushes.knows {q q' : Parsing} {rest : List VarId} {result : VarId}
    {value : World → Vars → State → Word} (pushes : Pushes q q' rest result value) : Knows q q' :=
  ⟨pushes.less, pushes.old⟩

/-- Code that always runs was added, and it leaves memory alone. -/
structure Continues (q q' : Parsing) : Prop where
  cur : q'.cur = q.cur
  knows : Knows q q'
  emits : Emits (emitted q q') q q'
  runs : ∀ {world : World} {vars : Vars}, Settled vars q q' → ∀ t, ∃ t',
    Executes world vars (emitted q q') t t' ∧ t'.memory = t.memory

theorem Continues.refl (q : Parsing) : Continues q q where
  cur := rfl
  knows := .refl q
  emits := by
    have emits : Emits [] q q := Emits.of_same rfl rfl
    exact emits.emitted_eq ▸ emits
  runs := by
    intro world vars settled t
    rw [(Emits.of_same rfl rfl : Emits [] q q).emitted_eq]
    exact ⟨t, .nil t, rfl⟩

theorem Pushes.continues {q q' : Parsing} {rest : List VarId} {result : VarId}
    {value : World → Vars → State → Word} (pushes : Pushes q q' rest result value)
    (cur : q'.cur = q.cur) : Continues q q' where
  cur := cur
  knows := pushes.knows
  emits := pushes.emits
  runs := by
    intro world vars settled t
    have computes := @Pushes.computes _ _ _ _ _ pushes world _ settled
    rcases computes.runs t with ⟨t', executes⟩
    exact ⟨t', executes, (computes.delivers executes).memory⟩

variable {ctx : Context} {p q : Parsing} {s : Suffix} {array index address : VarId}
  {rest : List VarId}

/-- An element that was named before is read, if it is a pointer. -/
theorem exists_resolved (inside : p.bb < p.blocks.length) (stackEq : p.operandStack = [array])
    (known : array < p.vars.length) :
    ∃ resolved address, resolveElement ctx s p = .ok ((), resolved) ∧ Continues p resolved ∧
      resolved.operandStack = [address] ∧ address < resolved.vars.length := by
  unfold resolveElement
  by_cases loads : s.Loads
  · rw [if_pos loads]
    have ran := @unaryTemp_eq p array [] .read ctx 4 stackEq (by decide) (by decide) (by decide)
    have pushes := pushes_read inside ran stackEq
    exact ⟨_, _, ran, pushes.continues rfl, pushes.stack, pushes.known⟩
  · rw [if_neg loads]
    exact ⟨p, array, rfl, .refl p, stackEq, known⟩

/-- The index is added to the address. -/
theorem exists_added (multiplier : Int) (inside : q.bb < q.blocks.length)
    (stackEq : q.operandStack = [index, address]) (indexKnown : index < q.vars.length)
    (addressKnown : address < q.vars.length) :
    ∃ added result, addIndex ctx multiplier q = .ok ((), added) ∧ Continues q added ∧
      added.operandStack = [result] ∧ result < added.vars.length := by
  have ran : ∃ added, addIndex ctx multiplier q = .ok ((), added) ∧ added.cur = q.cur := by
    unfold addIndex
    by_cases one : multiplier = 1
    · rw [if_neg (not_not.mpr one)]
      exact ⟨_, binaryTemp_eq ctx stackEq (by decide) (by decide) (by decide), rfl⟩
    · rw [if_pos one, Parse.bind_ok (pushConstant_eq ctx _
        (by simp [stackEq, maxOperandStackSize])),
        stackEq,
        Parse.bind_ok (binaryTemp_eq ctx rfl (by simp [maxOperandStackSize]) (by decide)
        (by decide))]
      exact ⟨_, binaryTemp_eq ctx rfl (by decide) (by decide) (by decide), rfl⟩
  rcases ran with ⟨added, ran, cur⟩
  rcases pushes_addIndex inside ran stackEq indexKnown addressKnown with ⟨result, pushes⟩
  exact ⟨added, result, ran, pushes.continues cur, pushes.stack, pushes.known⟩

/-- Code that was emitted is executed, when more was emitted behind it. -/
theorem Emits.reaches {code others : List Insn} {p q r : Parsing} {world : World} {vars : Vars}
    {t t' : State} (emits : Emits code p q) (behind : Emits others q r)
    (executes : Executes world vars code t t') :
    Reaches world vars r.graph (p.here, t) (q.here, t') := by
  have insns : (r.graph p.bb).insns = (p.block p.bb).insns ++ code ++ others := by
    change (r.block p.bb).insns = _
    rw [← emits.insns, ← emits.bb, behind.insns]
  have hereEq : q.here = ⟨p.bb, (p.block p.bb).insns.length + code.length⟩ := by
    unfold Parsing.here
    rw [emits.bb, emits.insns, List.length_append]
  rw [hereEq]
  exact reaches_of_executes insns executes

/-! ## One subscript -/

/-- A token, somewhere. -/
def tokenOf (kind : TokenKind) (literal : String) : Token := ⟨kind, literal, ⟨0, 0, 0, 0, ""⟩⟩

/-- Subscripts whose indices are numbers. -/
def subscriptTokens : List Nat → List Token
  | [] => []
  | i :: rest => tokenOf .openSquare "[" :: tokenOf .numeric (toString i) ::
      tokenOf .closeSquare "]" :: subscriptTokens rest

theorem denotes_digit {i : Nat} (small : i < 2) :
    Denotes (tokenOf .numeric (toString i)) (BitVec.ofNat 32 i) := by
  interval_cases i <;> constructor <;> decide

/-- The parser is behind the address of an array, before the subscripts. -/
structure Parsing.Before (p : Parsing) (indices : List Nat) (array : VarId) : Prop where
  tokens : p.cur.next = subscriptTokens indices
  notEnd : p.cur.tk.kind ≠ .eof
  stack : p.operandStack = [array]
  known : array < p.vars.length
  inside : p.bb < p.blocks.length

/-- The parser in front of the constant an expression is: two blocks were made. -/
def Parsing.atConstant (p : Parsing) (cur : Cursor) : Parsing := p.create.create.move cur

theorem Parsing.here_atConstant (p : Parsing) (cur : Cursor) :
    (p.atConstant cur).here = p.here := by
  change Position.mk p.bb ((p.create.create.block p.bb).insns.length) = _
  rw [Parsing.create, Parsing.create, block_create, block_create]
  rfl

theorem Parsing.inside_atConstant {p : Parsing} (inside : p.bb < p.blocks.length) (cur : Cursor) :
    (p.atConstant cur).bb < (p.atConstant cur).blocks.length := by
  have length : (p.atConstant cur).blocks.length = p.blocks.length + 2 := by
    simp [atConstant, Parsing.create, Parsing.move]
  rw [length]
  exact Nat.lt_add_right 2 inside

/-- The index is read. -/
theorem exists_index {token close : Token} {tokens : List Token} {value : Word} (ctx : Context)
    (fuel : Nat) (facing : p.Facing token (close :: tokens)) (denotes : Denotes token value)
    (ends : EndsExpr close) (stackEq : p.operandStack = [address])
    (inside : p.bb < p.blocks.length) :
    ∃ found index, (readers ctx (fuel + 2)).readExpr p = .ok ((), found) ∧
      found.cur = ⟨token, close :: tokens⟩ ∧
      Pushes (p.atConstant ⟨token, close :: tokens⟩) found [address] index fun _ _ _ => value := by
  have room : p.operandStack.length < maxOperandStackSize := by simp [stackEq, maxOperandStackSize]
  have ran := @readExpr_literal ctx _ _ _ _ _ fuel facing denotes ends room
  have pushes := pushes_pushConstant (q := p.atConstant ⟨token, close :: tokens⟩)
    (p.inside_atConstant inside _) (pushConstant_eq ctx value room)
  rw [Parsing.atConstant, Parsing.move] at pushes
  exact ⟨_, _, ran, rfl, by rw [← stackEq]; exact pushes⟩

/-- A subscript whose index is a number is read, and its code runs. -/
theorem exists_runs {i : Nat} {indices : List Nat} (ctx : Context) (fuel : Nat)
    (before : p.Before (i :: indices) array) (small : i < 2) (isArray : s.var.arraySize ≠ 0) :
    ∃ p' element, p'.Before indices element ∧ Knows p p' ∧
      ∃ subscript : Subscript (readers ctx (fuel + 2)) ctx s p (s.indexed s.lvalue.size) p',
        subscript.size = s.lvalue.size ∧ ∀ {world : World} {vars : Vars}, Settled vars p p' →
          ∀ t, ∃ t', Nonempty (subscript.Runs world vars t i t') ∧ t'.memory = t.memory := by
  let close := tokenOf .closeSquare "]"
  let tokens := subscriptTokens indices
  let token := tokenOf .numeric (toString i)
  have facing : p.Facing (tokenOf .openSquare "[") (token :: close :: tokens) :=
    ⟨before.tokens, rfl, before.notEnd⟩
  let accepted := p.move ⟨tokenOf .openSquare "[", token :: close :: tokens⟩
  have accepts : lexAccept .openSquare p = .ok (true, accepted) := facing.lexAccept_eq rfl
  rcases @exists_resolved ctx accepted s _ before.inside before.stack
    before.known with ⟨resolved, address, resolves, reading, stackEq, known⟩
  have inside : resolved.bb < resolved.blocks.length := by
    rw [reading.emits.bb, reading.emits.length]
    exact before.inside
  have facing : resolved.Facing token (close :: tokens) := by
    refine ⟨?_, rfl, ?_⟩
    · rw [reading.cur]
      rfl
    · rw [reading.cur]
      exact TokenKind.noConfusion
  rcases exists_index ctx fuel facing (denotes_digit small) (by constructor <;> decide) stackEq
    inside
    with ⟨found, index, reads, cur, pushes⟩
  have reading' : Knows resolved found := ⟨pushes.less, pushes.old⟩
  have inside : found.bb < found.blocks.length := by
    rw [pushes.emits.bb, pushes.emits.length]
    exact Parsing.inside_atConstant inside _
  rcases @exists_added ctx _ _ _ (s.multiplier s.lvalue.size) inside pushes.stack pushes.known
    (Nat.lt_of_lt_of_le known reading'.less) with ⟨added, element, adds, adding, stackEq', known'⟩
  have facing : added.Facing close tokens := by
    refine ⟨?_, rfl, ?_⟩
    · rw [adding.cur, cur]
    · rw [adding.cur, cur]
      exact TokenKind.noConfusion
  have closes : lexExpect .closeSquare added = .ok ((), added.move ⟨close, tokens⟩) :=
    facing.lexExpect_eq rfl
  have sizes : elementSize ctx s resolved = .ok (s.lvalue.size, resolved) := by
    rw [elementSize, if_neg fun both => isArray both.2]
    rfl
  have knows : Knows p resolved := ⟨reading.knows.less, reading.knows.old⟩
  have knows : Knows p added := (knows.trans reading').trans adding.knows
  refine ⟨added.move ⟨close, tokens⟩, element, ⟨rfl, TokenKind.noConfusion, stackEq', known', ?_⟩,
    ?_,
    ⟨accepted, resolved, found, added, _, accepts, resolves, sizes, reads, adds, closes, rfl⟩, rfl,
    ?_⟩
  · change added.bb < added.blocks.length
    rw [adding.emits.bb, adding.emits.length]
    exact inside
  · exact ⟨knows.less, knows.old⟩
  · intro world vars settled t
    have settled : Settled vars p added := settled
    have settledBefore : Settled vars p resolved :=
      settled.before (reading'.trans adding.knows).less (reading'.trans adding.knows).old
    have settledIndex : Settled vars resolved found :=
      (settled.behind reading.knows.less).before adding.knows.less adding.knows.old
    have settledBehind : Settled vars found added :=
      settled.behind (reading.knows.trans reading').less
    rcases @Continues.runs _ _ reading world _ settledBefore t with ⟨start, resolving, memory⟩
    have computes := @Pushes.computes _ _ _ _ _ pushes world _ settledIndex
    rcases computes.runs start with ⟨indexed, indexing⟩
    have delivers := computes.delivers indexing
    rcases @Continues.runs _ _ adding world _ settledBehind indexed with ⟨t', executes, memory'⟩
    have evaluates := pushes.emits.reaches adding.emits indexing
    rw [Parsing.here_atConstant] at evaluates
    refine ⟨t', ⟨address, index, [], start, indexed, stackEq, pushes.stack, pushes.known,
      settledBefore, settledBehind, resolving, evaluates, delivers.value_eq known, delivers.value,
      executes⟩, ?_⟩
    rw [memory', delivers.memory, memory]

/-! ## All subscripts -/

/-- The address the subscripts of an array lead to. -/
def Suffix.reach (s : Suffix) (arch : Arch) (memory : Memory) : List Nat → Word → Word
  | [], address => address
  | i :: rest, address =>
      (s.indexed s.lvalue.size).reach arch memory rest (s.step s.lvalue.size arch memory address i)

/-- Subscripts whose indices are numbers are read, and their code runs. -/
theorem exists_accesses {indices : List Nat} (ctx : Context) (fuel : Nat)
    (before : p.Before indices array) (small : ∀ i ∈ indices, i < 2)
    (isArray : s.var.arraySize ≠ 0) :
    ∃ s' p' element, p'.operandStack = [element] ∧ Knows p p' ∧
      ∀ {world : World} {vars : Vars}, Settled vars p p' → ∀ t, ∃ t',
        Accesses (readers ctx (fuel + 2)) ctx world vars s p t indices s' p' t' ∧
        t'.value world vars element =
          s.reach world.arch t.memory indices (t.value world vars array) := by
  induction indices generalizing s p array with
  | nil =>
      refine ⟨s, p, array, before.stack, .refl p, ?_⟩
      intro world vars settled t
      exact ⟨t, .nil s p t, rfl⟩
  | cons i rest inductionHypothesis =>
      rcases exists_runs ctx fuel before (small i List.mem_cons_self) isArray with
        ⟨middle, address, after, knows, subscript, size, runs⟩
      rcases inductionHypothesis (s := s.indexed s.lvalue.size) after
        (fun i present => small i (List.mem_cons_of_mem _ present)) isArray with
        ⟨s', p', element, stackEq, onward, accesses⟩
      refine ⟨s', p', element, stackEq, knows.trans onward, ?_⟩
      intro world vars settled t
      rcases @runs world _ (settled.before onward.less onward.old) t with
        ⟨t₁, ⟨run⟩, memory⟩
      rcases @accesses world _ (settled.behind knows.less) t₁ with ⟨t', accesses, value⟩
      refine ⟨t', .cons subscript run accesses, ?_⟩
      rcases run.step before.inside before.stack before.known with
        ⟨address', rest', stackEq', -, -, value'⟩
      cases after.stack.symm.trans stackEq'
      rw [value, value', memory, size]
      rfl

/-! ## The array -/

/-- The array is known under a name: as a variable, or as a member of a structure. -/
def Place.Declared (ctx : Context) (record : VarRecord) : Place → Prop
  | .var => True
  | .member => ∃ name type, name.length < maxIdLen ∧
      ∀ p, findMember ctx name type p = .ok (some record, p)

/-- The parser before these tokens, with a variable whose value is the only operand, or with a
variable and no operand. -/
def beforeTokens (record : VarRecord) (stack : List VarId) (tokens : List Token) : Parsing where
  cur := ⟨tokenOf .semicolon ";", tokens⟩
  vars := [record]
  locals := [0]
  globalVarIdx := 0
  operandStack := stack
  sideEffect := []
  blocks := [.new]
  bb := 0
  rodata := []

/-- What is known of a pointer to a structure. -/
def structPointer (type : Option TypeId) : Suffix where
  lvalue := { type := type, size := ptrSize, ptrLevel := 1, isFunc := false, isReference := true }
  var := { type := type, ptrLevel := 1 }
  isAddressGot := false
  isMember := false

theorem getSize_eq {record : VarRecord} {size : Int} (sized : knownSize ctx record = some size)
    (p : Parsing) : getSize ctx record p = .ok (size, p) :=
  getSize_eq_ok_iff.mpr ⟨sized, rfl⟩

theorem deref_eq {α : Type} (value : α) (p : Parsing) :
    Parse.deref (some value) p = .ok (value, p) := rfl

/-- A variable is named, before a subscript. -/
theorem exists_begins_var {record : VarRecord} {size : Int}
    (sized : knownSize ctx record = some size) (i : Nat) (indices : List Nat) :
    ∃ s p array, Begins ctx record .var s p ∧ p.Before (i :: indices) array := by
  let tokens := subscriptTokens (i :: indices)
  let p := beforeTokens record [] (tokenOf .identifier "a" :: tokens)
  have facing : p.Facing (tokenOf .identifier "a") tokens := ⟨rfl, rfl, TokenKind.noConfusion⟩
  let named := (p.move ⟨tokenOf .identifier "a", tokens⟩).push 0
  have facing' : named.Facing (tokenOf .openSquare "[") tokens.tail :=
    ⟨rfl, rfl, TokenKind.noConfusion⟩
  let s : Suffix := {
    lvalue := {
      type := record.type
      size := size
      ptrLevel := record.ptrLevel
      isFunc := record.isFunc
      isReference := true }
    var := record
    isAddressGot := false
    isMember := false }
  have begins : beginLvalue ctx (some 0) p = .ok (s, named) := by
    have expects : lexExpect .identifier p = .ok ((), p.move ⟨tokenOf .identifier "a", tokens⟩) :=
      facing.lexExpect_eq rfl
    have isRecord : varOf 0 (p.move ⟨tokenOf .identifier "a", tokens⟩) = .ok (record, _) := rfl
    have pushes : opstackPush 0 (p.move ⟨tokenOf .identifier "a", tokens⟩) = .ok ((), named) := rfl
    unfold beginLvalue
    rw [Parse.bind_ok expects, Parse.bind_ok (deref_eq 0 _), Parse.bind_ok isRecord,
      Parse.bind_ok (getSize_eq sized _), Parse.bind_ok pushes,
      Parse.bind_ok (facing'.lexPeekAny_eq _)]
    rfl
  refine ⟨s, named, 0, .var ⟨rfl, rfl, rfl, rfl, rfl⟩ Nat.one_pos Nat.one_pos begins, ?_⟩
  exact ⟨rfl, TokenKind.noConfusion, rfl, Nat.one_pos, Nat.one_pos⟩

/-- A member is named, before subscripts. -/
theorem exists_begins_member {record : VarRecord} {size : Int}
    (declared : Place.member.Declared ctx record) (sized : knownSize ctx record = some size)
    (indices : List Nat) :
    ∃ s p array, Begins ctx record .member s p ∧ p.Before indices array := by
  rcases declared with ⟨name, type, short, isField⟩
  let tokens := subscriptTokens indices
  let p := beforeTokens { type := type, ptrLevel := 1 } [0]
    (tokenOf .arrow "->" :: tokenOf .identifier name :: tokens)
  have facing : p.Facing (tokenOf .arrow "->") (tokenOf .identifier name :: tokens) :=
    ⟨rfl, rfl, TokenKind.noConfusion⟩
  let entered := p.move ⟨tokenOf .arrow "->", tokenOf .identifier name :: tokens⟩
  have facing' : entered.Facing (tokenOf .identifier name) tokens :=
    ⟨rfl, rfl, TokenKind.noConfusion⟩
  have enters : enterMember ctx (structPointer type) p = .ok ((), entered) := by
    have accepts : lexAccept .arrow p = .ok (true, entered) := facing.lexAccept_eq rfl
    unfold enterMember
    rw [Parse.bind_ok accepts]
    rfl
  let named := entered.move ⟨tokenOf .identifier name, tokens⟩
  let offset := named.load ctx (BitVec.ofInt 32 record.offset)
  have names : ∃ s p', nameMember ctx (structPointer type) entered = .ok (s, p') ∧ s.var = record ∧
      p' = offset.compute { type := some ctx.tyInt }
        { opcode := .add, rd := some 2, rs1 := some 0, rs2 := some 1 } [] := by
    have ident : lexIdent .identifier maxIdLen entered = .ok (name, named) :=
      facing'.lexIdent_eq rfl short
    have looks : findMember ctx name (structPointer type).lvalue.type named =
      .ok (some record, named) := isField named
    unfold nameMember
    rw [Parse.bind_ok ident, Parse.bind_ok looks, Parse.bind_ok (deref_eq record _),
      Parse.bind_ok (getSize_eq sized _),
      Parse.bind_ok (pushConstant_eq ctx _ (show [0].length < maxOperandStackSize by decide)),
      Parse.bind_ok (binaryTemp_eq ctx rfl (by decide) (by decide) (by decide))]
    exact ⟨_, _, rfl, rfl, rfl⟩
  rcases names with ⟨s, p', names, isRecord, isLast⟩
  have reads : readMember ctx (structPointer type) p = .ok (s, p') := by
    rw [readMember_eq, Parse.bind_ok enters, names]
  refine ⟨s, p', 2, .member Nat.one_pos reads isRecord, ?_⟩
  rw [isLast]
  exact ⟨rfl, TokenKind.noConfusion, rfl, Nat.lt_add_one 2, Nat.one_pos⟩

/-- An array is named, before subscripts whose indices are numbers. -/
theorem exists_begins {place : Place} {record : VarRecord} {size : Int}
    (declared : place.Declared ctx record) (sized : knownSize ctx record = some size) (i : Nat)
    (indices : List Nat) :
    ∃ s p array, Begins ctx record place s p ∧ p.Before (i :: indices) array := by
  cases place with
  | var => exact exists_begins_var sized i indices
  | member => exact exists_begins_member declared sized (i :: indices)

/-- There is code that computes the address of an element, from any state in which all variables
have the address of the array as their value. -/
theorem exists_element {place : Place} {record : VarRecord} {size : Int} {i : Nat}
    {indices : List Nat} {base : Word} {world : World} {t : State}
    (declared : place.Declared ctx record) (sized : knownSize ctx record = some size)
    (isArray : record.arraySize ≠ 0) (small : ∀ j ∈ i :: indices, j < 2)
    (isBase : ∀ vars v, t.value world vars v = base) :
    ∃ s p, Begins ctx record place s p ∧ Element ctx place record base (i :: indices)
      (s.reach world.arch t.memory (i :: indices) base) := by
  rcases exists_begins declared sized i indices with ⟨s, p, array, begins, before⟩
  have starts := begins.starts sized isArray
  have isArray' : s.var.arraySize ≠ 0 := by rw [starts.var.arraySize]; exact isArray
  rcases exists_accesses ctx 0 before small isArray' with
    ⟨s', p', element, stackEq, knows, accesses⟩
  rcases @accesses world p'.irVars (fun _ _ _ => rfl) t with
    ⟨t', accesses, value⟩
  refine ⟨s, p, begins, .intro begins before.stack (isBase _ _) accesses stackEq ?_⟩
  rw [value, isBase]

end Shecc.Parser
