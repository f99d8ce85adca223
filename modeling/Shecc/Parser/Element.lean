import Shecc.Parser.Declaration
import Shecc.Parser.Subscript
import Shecc.Strided.Core

/-!
# The elements of an array

`read_lvalue` names an array, a variable or a member of a structure, and reads
one subscript after the other. The code it emits computes the address of an
element from the address of the array.
-/

namespace Shecc.Parser

open Shecc.Preprocessor (Token TokenKind SourceLocation Cursor)

/-- One subscript that `read_lvalue` reads, step by step. -/
structure Subscript (called : Readers) (ctx : Context) (s : Suffix) (p : Parsing) (s' : Suffix)
    (p' : Parsing) where
  (accepted resolved found added : Parsing)
  size : Int
  accepts : lexAccept .openSquare p = .ok (true, accepted)
  resolves : resolveElement ctx s accepted = .ok ((), resolved)
  sizes : elementSize ctx s resolved = .ok (size, resolved)
  reads : called.readExpr resolved = .ok ((), found)
  adds : addIndex ctx (s.multiplier size) found = .ok ((), added)
  closes : lexExpect .closeSquare added = .ok ((), p')
  suffix : s' = s.indexed size

/-- Control passes the code of a subscript, where the index has a value: it is pushed onto the
address, and evaluating it leaves the address alone. -/
structure Subscript.Runs {called : Readers} {ctx : Context} {s s' : Suffix} {p p' : Parsing}
    (r : Subscript called ctx s p s' p') (world : World) (vars : Vars) (t : State) (i : Nat)
    (t' : State) where
  (address index : VarId)
  rest : List VarId
  (start indexed : State)
  stack : r.resolved.operandStack = address :: rest
  value : r.found.operandStack = index :: address :: rest
  known : index < r.found.vars.length
  settledBefore : Settled vars r.accepted r.resolved
  settledBehind : Settled vars r.found r.added
  resolves : Executes world vars (emitted r.accepted r.resolved) t start
  evaluates : Reaches world vars p'.graph (r.resolved.here, start) (r.found.here, indexed)
  kept : indexed.value world vars address = start.value world vars address
  isIndex : indexed.value world vars index = BitVec.ofNat 32 i
  adds : Executes world vars (emitted r.found r.added) indexed t'

/-- Control passes the code of one subscript after the other. -/
inductive Accesses (called : Readers) (ctx : Context) (world : World) (vars : Vars) :
    Suffix → Parsing → State → List Nat → Suffix → Parsing → State → Prop where
  | nil (s : Suffix) (p : Parsing) (t : State) : Accesses called ctx world vars s p t [] s p t
  | cons {s s₁ s' : Suffix} {p p₁ p' : Parsing} {t t₁ t' : State} {i : Nat} {rest : List Nat}
      (subscript : Subscript called ctx s p s₁ p₁) (runs : subscript.Runs world vars t i t₁)
      (behind : Accesses called ctx world vars s₁ p₁ t₁ rest s' p' t') :
      Accesses called ctx world vars s p t (i :: rest) s' p' t'

/-- What `read_lvalue` does before the suffixes. -/
def beginLvalue (ctx : Context) (found : Option VarId) : Parse Suffix := do
  lexExpect .identifier
  let var ← Parse.deref found
  let record ← varOf var
  let size ← getSize ctx record
  opstackPush var
  let isReference ← lexPeekAny [.openSquare, .arrow, .dot]
  pure {
    lvalue := {
      type := record.type
      size := size
      ptrLevel := record.ptrLevel
      isFunc := record.isFunc
      isReference := isReference }
    var := record
    isAddressGot := false
    isMember := false }

/-- The records agree in what a declarator says. -/
structure VarRecord.Same (record other : VarRecord) : Prop where
  type : record.type = other.type
  ptrLevel : record.ptrLevel = other.ptrLevel
  isFunc : record.isFunc = other.isFunc
  arraySize : record.arraySize = other.arraySize
  arrayDim2 : record.arrayDim2 = other.arrayDim2

/-- Where an array is: it is a variable, or a member of a structure. -/
inductive Place
  | var
  | member
  deriving DecidableEq

/-- `read_lvalue` has named the array. -/
inductive Begins (ctx : Context) (record : VarRecord) : Place → Suffix → Parsing → Prop where
  | var {v : VarId} {s : Suffix} {p p' : Parsing} (same : (p.var v).Same record)
      (inside : p.bb < p.blocks.length) (known : v < p.vars.length)
      (begins : beginLvalue ctx (some v) p = .ok (s, p')) : Begins ctx record .var s p'
  | member {s s' : Suffix} {p p' : Parsing} (inside : p.bb < p.blocks.length)
      (reads : readMember ctx s p = .ok (s', p')) (isField : s'.var = record) :
      Begins ctx record .member s' p'

/-- Code of `read_lvalue` computes an address for indices, where the array is at `base`. -/
inductive Element (ctx : Context) (place : Place) (record : VarRecord) (base : Word)
    (indices : List Nat) (address : Word) : Prop where
  | intro {fuel : Nat} {world : World} {vars : Vars} {s s' : Suffix} {p p' : Parsing}
      {t t' : State} {array element : VarId} {rest rest' : List VarId}
      (begins : Begins ctx record place s p) (stack : p.operandStack = array :: rest)
      (isBase : t.value world vars array = base)
      (accesses : Accesses (readers ctx fuel) ctx world vars s p t indices s' p' t')
      (stack' : p'.operandStack = element :: rest')
      (isAddress : t'.value world vars element = address)

/-- The addresses of the elements are inside the storage, each at a whole element, and different
indices have different addresses. -/
structure WellAddressed (ctx : Context) (place : Place) (record : VarRecord) (dims : List Nat)
    (size storage : Int) : Prop where
  inside : ∀ {base address : Word} {indices : List Nat}, Strided.InBox indices dims →
    Element ctx place record base indices address →
      ∃ offset : Int, address = base + BitVec.ofInt 32 offset ∧ 0 ≤ offset ∧ size ∣ offset ∧
        offset + size ≤ storage
  injective : ∀ {base address : Word} {indices others : List Nat}, Strided.InBox indices dims →
    Strided.InBox others dims → Element ctx place record base indices address →
      Element ctx place record base others address → indices = others

/-! ## Reading subscripts -/

theorem readLvalue_eq (self : Readers) (ctx : Context) (found : Option VarId) (eval : Bool)
    (prefixOp : Opcode) :
    readLvalue self ctx found eval prefixOp = (do
      let s ← beginLvalue ctx found
      let s ← readSuffixes self ctx self.fuel s
      if eval then readValue self ctx s prefixOp
      pure s.lvalue) := by
  simp only [readLvalue, beginLvalue, bind_assoc, pure_bind]

theorem elementSize_state {ctx : Context} {s : Suffix} {size : Int} {p p' : Parsing}
    (ran : elementSize ctx s p = .ok (size, p')) : p' = p := by
  unfold elementSize at ran
  split at ran
  · rcases Parse.bind_eq_ok_iff.mp ran with ⟨type, middle, ranType, ran⟩
    cases ran
    exact (typeOf_eq_ok ranType).2
  · cases ran
    rfl

/-- A subscript that is read has these steps. -/
theorem exists_subscript {called : Readers} {ctx : Context} {s s' : Suffix}
    {p accepted p' : Parsing} (accepts : lexAccept .openSquare p = .ok (true, accepted))
    (ran : readSubscript called ctx s accepted = .ok (s', p')) :
    Nonempty (Subscript called ctx s p s' p') := by
  rw [readSubscript_eq] at ran
  rcases Parse.bind_eq_ok_iff.mp ran with ⟨⟨⟩, resolved, resolves, ran⟩
  rcases Parse.bind_eq_ok_iff.mp ran with ⟨⟨⟩, checked, checks, ran⟩
  rcases Parse.bind_eq_ok_iff.mp ran with ⟨size, sized, sizes, ran⟩
  rcases Parse.bind_eq_ok_iff.mp ran with ⟨⟨⟩, found, reads, ran⟩
  rcases Parse.bind_eq_ok_iff.mp ran with ⟨⟨⟩, added, adds, ran⟩
  rcases Parse.bind_eq_ok_iff.mp ran with ⟨⟨⟩, closed, closes, ran⟩
  cases ran
  have same : checked = resolved := by
    unfold requireElements at checks
    split at checks <;> cases checks
    rfl
  cases elementSize_state sizes
  cases same
  exact ⟨⟨accepted, _, _, _, size, accepts, resolves, sizes, reads, adds, closes, rfl⟩⟩

/-- The loop over the suffixes reads one subscript after the other. -/
theorem readSuffixes_of_openSquare {called : Readers} {ctx : Context} {fuel : Nat}
    {s s' : Suffix} {p p' : Parsing} (isOpen : p.peek = some .openSquare)
    (ran : readSuffixes called ctx (fuel + 1) s p = .ok (s', p')) :
    ∃ s₁ p₁, Nonempty (Subscript called ctx s (p.move p.ahead) s₁ p₁) ∧
      readSuffixes called ctx fuel s₁ p₁ = .ok (s', p') := by
  have peeks : lexPeekAny [.openSquare, .arrow, .dot] p = .ok (true, p.move p.ahead) := by
    simp [lexPeekAny, isOpen]
  have isOpen' : (p.move p.ahead).peek = some .openSquare := by rw [p.peek_move_ahead, isOpen]
  have accepts : lexAccept .openSquare (p.move p.ahead) =
      .ok (true, (p.move p.ahead).move (p.move p.ahead).behind) := by
    rw [lexAccept, if_pos isOpen']
  unfold readSuffixes at ran
  rw [Parse.bind_ok peeks, if_pos rfl, Parse.bind_ok accepts, if_pos rfl] at ran
  rcases Parse.bind_eq_ok_iff.mp ran with ⟨s₁, p₁, ranSubscript, onward⟩
  exact ⟨s₁, p₁, exists_subscript accepts ranSubscript, onward⟩

/-! ## The address of an element -/

/-- More variables are known. -/
def Grown (p p' : Parsing) : Prop := p.vars.length ≤ p'.vars.length

instance : KeptBlocks Grown where
  refl p := le_rfl
  trans first second := Nat.le_trans first second
  skip _ _ _ := le_rfl
  rodata _ _ := le_rfl
  withVar p record := by simp [Grown, Parsing.withVar]
  modifyVar p v change := by simp [Grown]
  name _ _ := le_rfl
  operands _ _ := le_rfl
  queue _ _ := le_rfl
  emit _ _ := le_rfl
  create _ := le_rfl
  connect _ _ _ _ := le_rfl
  insn _ _ _ := le_rfl
  enter _ _ := le_rfl

instance : KeptAny Grown where
  move _ _ := le_rfl

/-- The address a subscript leads to. -/
def Suffix.step (s : Suffix) (size : Int) (arch : Arch) (memory : Memory) (address : Word)
    (i : Nat) : Word :=
  (if s.Loads then arch.load memory address 4 else address) +
    BitVec.ofNat 32 i * BitVec.ofInt 32 (s.multiplier size)

section

variable {called : Readers} [placed : KeptBy Placed called] [grown : KeptBy Grown called]
  {ctx : Context} {s s' : Suffix} {p p' : Parsing} {world : World} {vars : Vars}

omit placed grown in
/-- What the code before the index computes. -/
theorem Subscript.Runs.start_value {r : Subscript called ctx s p s' p'} {t t' : State} {i : Nat}
    (runs : r.Runs world vars t i t') (inside : p.bb < p.blocks.length) {array : VarId}
    {rest : List VarId} (stackEq : p.operandStack = array :: rest)
    (known : array < p.vars.length) :
    runs.address < r.resolved.vars.length ∧ r.resolved.bb < r.resolved.blocks.length ∧
      runs.start.value world vars runs.address =
        if s.Loads then world.arch.load t.memory (t.value world vars array) 4
        else t.value world vars array := by
  rcases lexAccept_eq_ok r.accepts with ⟨cur, accepted⟩
  have stackEq : r.accepted.operandStack = array :: rest := by rw [accepted]; exact stackEq
  have inside : r.accepted.bb < r.accepted.blocks.length := by rw [accepted]; exact inside
  have known : array < r.accepted.vars.length := by rw [accepted]; exact known
  have resolves := r.resolves
  unfold resolveElement at resolves
  by_cases loads : s.Loads
  · rw [if_pos loads] at resolves
    have pushes := pushes_read inside resolves stackEq
    have addressEq := (List.cons.inj (runs.stack.symm.trans pushes.stack)).1
    rw [addressEq]
    have delivers := (@Pushes.computes _ _ _ _ _ pushes world _ runs.settledBefore).delivers
      runs.resolves
    refine ⟨pushes.known, ?_, ?_⟩
    · rwa [pushes.emits.bb, pushes.emits.length]
    · rw [if_pos loads]
      exact delivers.value
  · rw [if_neg loads] at resolves
    have same : r.resolved = r.accepted := (congrArg Prod.snd (Except.ok.inj resolves)).symm
    have executes := runs.resolves
    have none : emitted r.accepted r.accepted = [] := (Emits.of_same rfl rfl).emitted_eq
    have addressEq := (List.cons.inj (runs.stack.symm.trans (same ▸ stackEq))).1
    rw [same, none] at executes
    rw [same, addressEq, if_neg loads, Executes.nil_iff.mp executes]
    exact ⟨known, inside, rfl⟩

/-- What the code of a subscript computes. -/
theorem Subscript.Runs.step {r : Subscript called ctx s p s' p'} {t t' : State} {i : Nat}
    (runs : r.Runs world vars t i t') (inside : p.bb < p.blocks.length) {array : VarId}
    {rest : List VarId} (stackEq : p.operandStack = array :: rest)
    (known : array < p.vars.length) :
    ∃ element rest', p'.operandStack = element :: rest' ∧ element < p'.vars.length ∧
      p'.bb < p'.blocks.length ∧ t'.value world vars element =
        s.step r.size world.arch t.memory (t.value world vars array) i := by
  rcases runs.start_value inside stackEq known with ⟨addressKnown, inside, startValue⟩
  have inside : r.found.bb < r.found.blocks.length := (placed.expr.along r.reads).bb inside
  have addressKnown : runs.address < r.found.vars.length :=
    Nat.lt_of_lt_of_le addressKnown (grown.expr.along r.reads)
  rcases pushes_addIndex inside r.adds runs.value runs.known addressKnown with ⟨element, pushes⟩
  have delivers := (@Pushes.computes _ _ _ _ _ pushes world _ runs.settledBehind).delivers runs.adds
  rcases lexExpect_eq_ok r.closes with ⟨cur, closed⟩
  have stack : p'.operandStack = r.added.operandStack := (congrArg Parsing.operandStack closed :)
  have vars : p'.vars = r.added.vars := (congrArg Parsing.vars closed :)
  have blocks : p'.blocks = r.added.blocks := (congrArg Parsing.blocks closed :)
  have bb : p'.bb = r.added.bb := (congrArg Parsing.bb closed :)
  refine ⟨element, runs.rest, stack.trans pushes.stack, ?_, ?_, ?_⟩
  · rw [vars]
    exact pushes.known
  · rw [bb, blocks]
    rwa [pushes.emits.bb, pushes.emits.length]
  · rw [delivers.value, runs.kept, runs.isIndex, startValue]
    rfl

omit placed grown in
theorem Subscript.size_eq (r : Subscript called ctx s p s' p') (isArray : s.var.arraySize ≠ 0) :
    r.size = s.lvalue.size := by
  have sizes := r.sizes
  unfold elementSize at sizes
  rw [if_neg fun both => isArray both.2] at sizes
  exact (congrArg Prod.fst (Except.ok.inj sizes)).symm

/-- Behind the first subscript every index has the size of an element as its stride. -/
theorem Accesses.sum {t t' : State} {indices : List Nat}
    (accesses : Accesses called ctx world vars s p t indices s' p' t')
    (noPointer : s.lvalue.ptrLevel = 0) (isArray : s.var.arraySize ≠ 0)
    (got : s.isAddressGot = true) (inside : p.bb < p.blocks.length) {array : VarId}
    {rest : List VarId} (stackEq : p.operandStack = array :: rest)
    (known : array < p.vars.length) :
    ∃ element rest', p'.operandStack = element :: rest' ∧ t'.value world vars element =
      t.value world vars array + BitVec.ofInt 32 (s.lvalue.size * indices.sum) := by
  induction accesses generalizing array rest with
  | nil => exact ⟨array, rest, stackEq, by simp⟩
  | @cons s s₁ s' p p₁ p' t t₁ t' i indices subscript runs behind inductionHypothesis =>
      rcases runs.step inside stackEq known with ⟨middle, others, stackEq, known, inside, value⟩
      have suffix := subscript.suffix
      have size := subscript.size_eq isArray
      have sameSize : s₁.lvalue.size = s.lvalue.size := by rw [suffix, ← size]; rfl
      rcases inductionHypothesis (suffix ▸ noPointer) (suffix ▸ isArray) (by rw [suffix]; rfl)
        inside
        stackEq known with ⟨element, rest', stackEq, last⟩
      refine ⟨element, rest', stackEq, ?_⟩
      have noLoad : ¬s.Loads := fun loads => loads.2.1 noPointer
      rw [last, value, Suffix.step, if_neg noLoad, Suffix.multiplier, if_neg (by simp [got]), size,
        sameSize, add_assoc, ← BitVec.ofInt_natCast, ← BitVec.ofInt_mul, ← BitVec.ofInt_add]
      congr 2
      push_cast [List.sum_cons]
      ring

end

/-! ## The beginning -/

/-- The size of a variable, if its type is known. -/
def knownSize (ctx : Context) (var : VarRecord) : Option Int :=
  if var.ptrLevel ≠ 0 ∨ var.isFunc then some ptrSize
  else (var.type.bind (ctx.types[·]?)).map (·.size)

theorem getSize_eq_ok_iff {ctx : Context} {var : VarRecord} {size : Int} {p p' : Parsing} :
    getSize ctx var p = .ok (size, p') ↔ knownSize ctx var = some size ∧ p' = p := by
  unfold getSize knownSize
  by_cases small : var.ptrLevel ≠ 0 ∨ var.isFunc = true
  · rw [if_pos small, if_pos small]
    simp [Parse.pure_eq, eq_comm]
  · rw [if_neg small, if_neg small]
    unfold Context.typeOf
    cases var.type.bind (ctx.types[·]?) with
    | none => simp [Parse.deref, Parse.fail, Parse.bind_eq, Except.bind]
    | some type => simp [Parse.deref, Parse.pure_eq, Parse.bind_eq, Except.bind, eq_comm]

theorem knownSize_of_same {ctx : Context} {record other : VarRecord} (same : record.Same other) :
    knownSize ctx record = knownSize ctx other := by
  unfold knownSize
  rw [same.ptrLevel, same.isFunc, same.type]

/-- What is known before the first subscript. -/
structure Starts (place : Place) (record : VarRecord) (size : Int) (s : Suffix) (p : Parsing) :
    Prop where
  var : s.var.Same record
  size : s.lvalue.size = size
  ptrLevel : s.lvalue.ptrLevel = record.ptrLevel
  noElement : ¬s.Loads
  got : s.isAddressGot = decide (place = .member)
  inside : p.bb < p.blocks.length
  known : ∀ {array rest}, p.operandStack = array :: rest → array < p.vars.length

/-- What `->` and `.` do before the name. -/
def enterMember (ctx : Context) (s : Suffix) : Parse Unit := do
  if ← lexAccept .arrow then
    if s.isMember then unaryTemp ctx .read 4
  else
    lexExpect .dot
    if !s.isAddressGot then unaryTemp ctx .addressOf 0

/-- What `->` and `.` do from the name on. -/
def nameMember (ctx : Context) (s : Suffix) : Parse Suffix := do
  let token ← lexIdent .identifier maxIdLen
  let found ← findMember ctx token s.lvalue.type
  let var ← Parse.deref found
  let size ← getSize ctx var
  pushConstant ctx (BitVec.ofInt 32 var.offset)
  binaryTemp ctx .add
  pure {
    lvalue := {
      type := var.type
      size := size
      ptrLevel := var.ptrLevel
      isFunc := var.isFunc
      isReference := s.lvalue.isReference && var.arraySize == 0 }
    var := var
    isAddressGot := true
    isMember := true }

theorem readMember_eq (ctx : Context) (s : Suffix) :
    readMember ctx s = (do
      enterMember ctx s
      nameMember ctx s) := by
  simp only [readMember, enterMember, nameMember, bind_ite, bind_assoc, pure_bind]

theorem Begins.starts {ctx : Context} {record : VarRecord} {place : Place} {s : Suffix}
    {p : Parsing} {size : Int} (begins : Begins ctx record place s p)
    (sized : knownSize ctx record = some size) (isArray : record.arraySize ≠ 0) :
    Starts place record size s p := by
  cases begins with
  | @var v s p p' same inside known begins =>
      unfold beginLvalue at begins
      rcases Parse.bind_eq_ok_iff.mp begins with ⟨⟨⟩, named, ranExpect, begins⟩
      rcases lexExpect_eq_ok ranExpect with ⟨cur, rfl⟩
      rcases Parse.bind_eq_ok_iff.mp begins with ⟨_, _, ranDeref, begins⟩
      cases ranDeref
      rcases Parse.bind_eq_ok_iff.mp begins with ⟨_, _, ranVar, begins⟩
      cases ranVar
      rcases Parse.bind_eq_ok_iff.mp begins with ⟨found, _, ranSize, begins⟩
      rcases getSize_eq_ok_iff.mp ranSize with ⟨foundSize, rfl⟩
      rcases Parse.bind_eq_ok_iff.mp begins with ⟨⟨⟩, pushed, ranPush, begins⟩
      cases opstackPush_eq_ok ranPush
      rcases Parse.bind_eq_ok_iff.mp begins with ⟨isReference, _, ranPeek, begins⟩
      cases ranPeek
      cases begins
      have sameSize : knownSize ctx (p.var v) = some size := (knownSize_of_same same).trans sized
      refine ⟨same, Option.some.inj (foundSize.symm.trans sameSize), same.ptrLevel, ?_, rfl,
        inside, ?_⟩
      · exact fun loads => Bool.false_ne_true loads.2.2
      · rintro array rest stackEq
        cases stackEq
        exact known
  | @member s₀ _ p₀ _ inside reads isField =>
      have placed : Placed p₀ p := Along.along reads
      rw [readMember_eq] at reads
      rcases Parse.bind_eq_ok_iff.mp reads with ⟨⟨⟩, entered, -, reads⟩
      unfold nameMember at reads
      rcases Parse.bind_eq_ok_iff.mp reads with ⟨token, named, -, reads⟩
      rcases Parse.bind_eq_ok_iff.mp reads with ⟨found, looked, -, reads⟩
      rcases Parse.bind_eq_ok_iff.mp reads with ⟨field, checked, -, reads⟩
      rcases Parse.bind_eq_ok_iff.mp reads with ⟨fieldSize, measured, ranSize, reads⟩
      rcases getSize_eq_ok_iff.mp ranSize with ⟨isSize, -⟩
      rcases Parse.bind_eq_ok_iff.mp reads with ⟨⟨⟩, offset, -, reads⟩
      rcases Parse.bind_eq_ok_iff.mp reads with ⟨⟨⟩, added, ranAdd, reads⟩
      rcases binaryTemp_eq_ok (by decide) (by decide) ranAdd with ⟨_, _, others, -, rfl⟩
      cases reads
      cases isField
      refine ⟨⟨rfl, rfl, rfl, rfl, rfl⟩, Option.some.inj (isSize.symm.trans sized), rfl, ?_, rfl,
        placed.bb inside, ?_⟩
      · intro loads
        simp [Suffix.Loads, isArray] at loads
      · rintro array rest stackEq
        cases stackEq
        simp

/-! ## Inside the storage -/

/-- The record of an array with these dimensions. -/
structure VarRecord.Holds (record : VarRecord) (dims : List Nat) : Prop where
  isFunc : record.isFunc = false
  arraySize : record.arraySize = dims.prod
  arrayDim2 : record.arrayDim2 = dims[1]?.getD 0

namespace Place

/-- The strides of the indices, counted in elements. -/
def strides : Place → List Nat → List Nat
  | var => Strided.rows
  | member => Strided.units

/-- The dimensions whose elements the strides tell apart. -/
def Fits : Place → List Nat → Prop
  | var => Strided.RowsFit
  | member => Strided.Slender

instance (place : Place) (dims : List Nat) : Decidable (place.Fits dims) := by
  cases place <;> unfold Fits <;> infer_instance

/-- What is reserved for an array. -/
def storage (ctx : Context) (record : VarRecord) : Place → Parse Int
  | var => allocatedSize ctx record
  | member => sizeVar ctx record

theorem enumerates {place : Place} {dims : List Nat} (fits : place.Fits dims) :
    Strided.Enumerates (place.strides dims) dims := by
  cases place with
  | var => exact Strided.enumerates_rows fits
  | member => exact Strided.enumerates_units fits

theorem collides {place : Place} {dims : List Nat} (positive : 0 ∉ dims)
    (wide : ¬place.Fits dims) : Strided.Collides (place.strides dims) dims := by
  cases place with
  | var => exact Strided.collides_rows positive wide
  | member => exact Strided.collides_units positive wide

end Place

/-- The stride of the first subscript. -/
theorem Starts.multiplier {place : Place} {record : VarRecord} {size : Int} {s : Suffix}
    {p : Parsing} {first i : Nat} {dims indices : List Nat} (starts : Starts place record size s p)
    (holds : record.Holds (first :: dims)) (inBox : Strided.InBox indices dims) :
    i * s.multiplier size + size * indices.sum =
      size * Strided.cell (place.strides (first :: dims)) (i :: indices) := by
  have got := starts.got
  cases place with
  | var =>
      rw [Place.strides, Strided.cell_rows inBox, Suffix.multiplier, starts.var.arrayDim2,
        holds.arrayDim2]
      cases dims with
      | nil =>
          simp
          ring
      | cons second dims =>
          have positive := (Strided.positive_cons.mp (Strided.positive_of_inBox inBox)).1
          simp [got, positive]
          ring
  | member =>
      rw [Place.strides, Strided.units_cons, Strided.cell, Strided.cell_units inBox,
        Suffix.multiplier, if_neg (by simp [got])]
      push_cast
      ring

section

variable {called : Readers} [placed : KeptBy Placed called] [grown : KeptBy Grown called]
  {ctx : Context} {place : Place} {record : VarRecord} {size : Int} {dims : List Nat}

/-- The address of an element of an array whose elements are no pointers, or that has only one
dimension. -/
theorem Accesses.cell {s s' : Suffix} {p p' : Parsing} {world : World} {vars : Vars}
    {t t' : State} {indices : List Nat} {array : VarId} {rest : List VarId}
    (accesses : Accesses called ctx world vars s p t indices s' p' t')
    (starts : Starts place record size s p) (holds : record.Holds dims) (isArray : dims ≠ [])
    (direct : record.ptrLevel = 0 ∨ dims.length ≤ 1) (inBox : Strided.InBox indices dims)
    (stackEq : p.operandStack = array :: rest) :
    ∃ element rest', p'.operandStack = element :: rest' ∧ t'.value world vars element =
      t.value world vars array +
        BitVec.ofInt 32 (size * Strided.cell (place.strides dims) indices) := by
  have positive := Strided.positive_of_inBox inBox
  cases inBox with
  | nil => exact absurd rfl isArray
  | @cons i first indices dims below inBox =>
      have notEmpty : s.var.arraySize ≠ 0 := by
        rw [starts.var.arraySize, holds.arraySize]
        exact List.prod_ne_zero positive
      cases accesses with
      | @cons _ s₁ _ _ p₁ _ _ t₁ _ _ _ subscript runs behind =>
          rcases runs.step starts.inside stackEq (starts.known stackEq) with
            ⟨middle, others, stackEq, known, inside, value⟩
          have suffix := subscript.suffix
          have subscriptSize := (subscript.size_eq notEmpty).trans starts.size
          rw [Suffix.step, if_neg starts.noElement, subscriptSize] at value
          have last : ∃ element rest', p'.operandStack = element :: rest' ∧
              t'.value world vars element =
                t₁.value world vars middle + BitVec.ofInt 32 (size * indices.sum) := by
            cases behind with
            | nil => exact ⟨middle, others, stackEq, by simp⟩
            | @cons _ _ _ _ _ _ _ _ _ j behindIndices next nextRuns onward =>
                have noPointer : s.lvalue.ptrLevel = 0 := by
                  rw [starts.ptrLevel]
                  rcases direct with noPointer | short
                  · exact noPointer
                  · cases inBox
                    simp at short
                have sum := (Accesses.cons next nextRuns onward).sum (suffix ▸ noPointer)
                  (suffix ▸ notEmpty) (by rw [suffix]; rfl) inside stackEq known
                have sameSize : s₁.lvalue.size = size := by rw [suffix, ← subscriptSize]; rfl
                rwa [sameSize] at sum
          rcases last with ⟨element, rest', stackEq, last⟩
          refine ⟨element, rest', stackEq, ?_⟩
          have stride : BitVec.ofInt 32 (i * s.multiplier size) =
              BitVec.ofNat 32 i * BitVec.ofInt 32 (s.multiplier size) := by
            rw [BitVec.ofInt_mul, BitVec.ofInt_natCast]
          rw [last, value, ← starts.multiplier holds inBox, BitVec.ofInt_add, stride, add_assoc]

end

end Shecc.Parser
