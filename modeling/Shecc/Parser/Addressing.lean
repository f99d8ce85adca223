import Shecc.Parser.Array
import Shecc.Parser.Conditional
import Shecc.Parser.Dimensions

/-!
# The addresses of the elements of a declared array

The storage of an array has room for the product of its dimensions. The strides
of `read_lvalue` tell all its elements apart if no index behind the second
counts; of an array of pointers with a second dimension the first subscript
leads to an element, which the next one reads.
-/

namespace Shecc.Parser

open Shecc.Preprocessor (Token TokenKind SourceLocation Cursor)

variable {ctx : Context} {place : Place} {record : VarRecord} {dims : List Nat}
  {size storage : Int} {p p' : Parsing}

/-! ## Storage -/

theorem intProduct_eq_ok {count : Nat} {product : Int}
    (ran : intProduct size count p = .ok (product, p')) :
    product = size * count ∧ product < 2 ^ 31 := by
  unfold intProduct at ran
  split at ran <;> cases ran
  next bounds => exact ⟨rfl, bounds.2⟩

theorem alignSize_eq_ok {i aligned : Int} (ran : alignSize i p = .ok (aligned, p')) :
    i ≤ aligned ∧ aligned < 2 ^ 31 := by
  unfold alignSize at ran
  split at ran
  · cases ran
    exact ⟨by assumption, by decide⟩
  · split at ran <;> cases ran
    omega

/-- The sizes of types are no negative numbers. -/
def Context.Sized (ctx : Context) : Prop := ∀ type ∈ ctx.types, 0 ≤ type.size

theorem Context.Sized.typeOf (sizes : ctx.Sized) {type : Option TypeId} {found : TypeRecord}
    (ran : ctx.typeOf type p = .ok (found, p')) : 0 ≤ found.size := by
  rcases Option.bind_eq_some_iff.mp (typeOf_eq_ok ran).1 with ⟨id, -, present⟩
  exact sizes found (List.mem_of_getElem? present)

theorem knownSize_nonneg (sizes : ctx.Sized) (sized : knownSize ctx record = some size) :
    0 ≤ size := by
  unfold knownSize at sized
  split at sized
  · cases sized
    decide
  · rcases Option.map_eq_some_iff.mp sized with ⟨type, found, rfl⟩
    rcases Option.bind_eq_some_iff.mp found with ⟨id, -, present⟩
    exact sizes type (List.mem_of_getElem? present)

/-- The size of the type of what is no pointer and no function. -/
theorem typeOf_size (isFunc : record.isFunc = false) (noPointer : record.ptrLevel = 0)
    (sized : knownSize ctx record = some size) {type : TypeRecord}
    (ran : ctx.typeOf record.type p = .ok (type, p')) : type.size = size := by
  unfold knownSize at sized
  rw [if_neg (by simp [isFunc, noPointer]), (typeOf_eq_ok ran).1] at sized
  exact Option.some.inj sized

theorem allocatedSize_bounds (isFunc : record.isFunc = false)
    (sized : knownSize ctx record = some size)
    (stored : allocatedSize ctx record p = .ok (storage, p')) :
    size * record.arraySize ≤ storage ∧ storage < 2 ^ 31 := by
  have aligned : (intProduct size record.arraySize >>= alignSize) p = .ok (storage, p') := by
    unfold allocatedSize at stored
    dsimp only at stored
    split at stored
    next isPointer =>
      rw [knownSize, if_pos (Or.inl isPointer)] at sized
      rw [pure_bind, Option.some.inj sized] at stored
      exact stored
    next noPointer =>
      rcases Parse.bind_eq_ok_iff.mp stored with ⟨type, _, ranType, stored⟩
      cases (typeOf_eq_ok ranType).2
      rw [pure_bind, typeOf_size isFunc (not_not.mp noPointer) sized ranType] at stored
      exact stored
  rcases Parse.bind_eq_ok_iff.mp aligned with ⟨product, _, ranProduct, ranAlign⟩
  rw [← (intProduct_eq_ok ranProduct).1]
  exact alignSize_eq_ok ranAlign

theorem sizeVar_bounds (sizes : ctx.Sized) (isFunc : record.isFunc = false)
    (isArray : 0 < record.arraySize) (sized : knownSize ctx record = some size)
    (stored : sizeVar ctx record p = .ok (storage, p')) :
    size * record.arraySize ≤ storage ∧ storage < 2 ^ 31 := by
  have product : ∃ sz, size ≤ sz ∧ intProduct sz record.arraySize p = .ok (storage, p') := by
    unfold sizeVar at stored
    simp only [gt_iff_lt, isArray, if_true] at stored
    split at stored
    next isPointer =>
      have isPointer : record.ptrLevel ≠ 0 ∨ record.isFunc := isPointer.imp_left Nat.ne_of_gt
      rw [knownSize, if_pos isPointer] at sized
      rw [pure_bind] at stored
      exact ⟨ptrSize, (Option.some.inj sized).ge, stored⟩
    next noPointer =>
      rcases Parse.bind_eq_ok_iff.mp stored with ⟨type, _, ranType, stored⟩
      cases (typeOf_eq_ok ranType).2
      have isSize := typeOf_size isFunc
        (Nat.eq_zero_of_not_pos fun isPointer => noPointer (Or.inl isPointer)) sized ranType
      split at stored
      next isZero =>
        rcases Parse.bind_eq_ok_iff.mp stored with ⟨base, _, ranBase, stored⟩
        cases (typeOf_eq_ok ranBase).2
        rw [pure_bind] at stored
        refine ⟨base.size, ?_, stored⟩
        rw [← isSize, isZero]
        exact sizes.typeOf ranBase
      next =>
        rw [pure_bind] at stored
        exact ⟨type.size, isSize.ge, stored⟩
  rcases product with ⟨sz, atLeast, ranProduct⟩
  rcases intProduct_eq_ok ranProduct with ⟨rfl, less⟩
  exact ⟨Int.mul_le_mul_of_nonneg_right atLeast (Int.natCast_nonneg _), less⟩

/-- The storage of an array has room for as many elements as the product of its dimensions. -/
theorem Place.storage_bounds (sizes : ctx.Sized) (holds : record.Holds dims) (positive : 0 ∉ dims)
    (sized : knownSize ctx record = some size)
    (stored : place.storage ctx record p = .ok (storage, p')) :
    size * dims.prod ≤ storage ∧ storage < 2 ^ 31 := by
  rw [← holds.arraySize]
  cases place with
  | var => exact allocatedSize_bounds holds.isFunc sized stored
  | member =>
      refine sizeVar_bounds sizes holds.isFunc ?_ sized stored
      rw [holds.arraySize]
      exact Nat.pos_of_ne_zero (List.prod_ne_zero positive)

/-! ## What the strides tell apart -/

/-- The strides tell the elements of an array with these dimensions apart, and every subscript
counts elements. -/
def Addressable (place : Place) (record : VarRecord) (dims : List Nat) (size : Int) : Prop :=
  0 ∈ dims ∨
    if record.ptrLevel = 0 then (∀ d ∈ dims, d = 1) ∨ (0 < size ∧ place.Fits dims)
    else dims.length ≤ 1

instance : Decidable (Addressable place record dims size) :=
  inferInstanceAs (Decidable (_ ∨ _))

/-- The address of an element is at the cell of its indices. -/
theorem Element.address_eq {base address : Word} {indices : List Nat}
    (element : Element ctx place record base indices address) (holds : record.Holds dims)
    (sized : knownSize ctx record = some size) (isArray : dims ≠ [])
    (direct : record.ptrLevel = 0 ∨ dims.length ≤ 1) (inBox : Strided.InBox indices dims) :
    address = base + BitVec.ofInt 32 (size * Strided.cell (place.strides dims) indices) := by
  cases element with
  | @intro fuel _ _ _ _ _ _ _ _ _ _ _ _ begins stack isBase accesses stack' isAddress =>
      have notEmpty : record.arraySize ≠ 0 := by
        rw [holds.arraySize]
        exact List.prod_ne_zero (Strided.positive_of_inBox inBox)
      have starts := begins.starts sized notEmpty
      rcases accesses.cell starts holds isArray direct inBox stack with
        ⟨element', rest, stackEq, value⟩
      cases stack'.symm.trans stackEq
      rw [← isAddress, value, isBase]

/-- Offsets below the largest `int` lead to different addresses. -/
theorem offset_injective {base : Word} {m n : Int} (below : 0 ≤ m ∧ m < 2 ^ 31)
    (below' : 0 ≤ n ∧ n < 2 ^ 31)
    (same : base + BitVec.ofInt 32 m = base + BitVec.ofInt 32 n) : m = n := by
  have toInt := congrArg BitVec.toInt ((BitVec.add_right_inj base).mp same)
  rwa [BitVec.toInt_ofInt_eq_self (by decide) (by omega) (by omega),
    BitVec.toInt_ofInt_eq_self (by decide) (by omega) (by omega)] at toInt

theorem Place.fits_of_ones (place : Place) (ones : ∀ d ∈ dims, d = 1) : place.Fits dims := by
  have slender : Strided.Slender dims := by
    have none : dims.filter (· ≠ 1) = [] := by simpa using ones
    rw [Strided.Slender, none]
    exact Nat.zero_le 1
  cases place with
  | var => exact .inr slender
  | member => exact slender

theorem Place.fits_of_short (place : Place) (short : dims.length ≤ 1) : place.Fits dims := by
  have slender : Strided.Slender dims := (List.length_filter_le _ _).trans short
  cases place with
  | var => exact .inr slender
  | member => exact slender

/-- Every element of an addressable array has its own address in the storage. -/
theorem Addressable.wellAddressed (addressable : Addressable place record dims size)
    (sizes : ctx.Sized) (holds : 0 ∉ dims → record.Holds dims) (isArray : dims ≠ [])
    (sized : knownSize ctx record = some size)
    (stored : place.storage ctx record p = .ok (storage, p')) :
    WellAddressed ctx place record dims size storage := by
  by_cases present : 0 ∈ dims
  · constructor
    · intro base address indices inBox
      exact absurd present (Strided.positive_of_inBox inBox)
    · intro base address indices others inBox
      exact absurd present (Strided.positive_of_inBox inBox)
  have holds := holds present
  have nonneg := knownSize_nonneg sizes sized
  rcases Place.storage_bounds sizes holds present sized stored with ⟨room, less⟩
  have addressable := addressable.resolve_left present
  have direct : record.ptrLevel = 0 ∨ dims.length ≤ 1 := by
    split at addressable
    · exact .inl ‹_›
    · exact .inr addressable
  have fits : place.Fits dims := by
    split at addressable
    · exact addressable.elim place.fits_of_ones And.right
    · exact place.fits_of_short addressable
  have enumerates := Place.enumerates fits
  have bounds {indices : List Nat} (inBox : Strided.InBox indices dims) :
      0 ≤ size * Strided.cell (place.strides dims) indices ∧
        size * Strided.cell (place.strides dims) indices + size ≤ storage := by
    have below : (Strided.cell (place.strides dims) indices : Int) + 1 ≤ dims.prod := by
      exact_mod_cast enumerates.inside inBox
    have scaled := Int.mul_le_mul_of_nonneg_left below nonneg
    rw [Int.mul_add, Int.mul_one] at scaled
    exact ⟨Int.mul_nonneg nonneg (Int.natCast_nonneg _), scaled.trans room⟩
  constructor
  · intro base address indices inBox element
    exact ⟨_, element.address_eq holds sized isArray direct inBox, (bounds inBox).1,
      Int.dvd_mul_right _ _, (bounds inBox).2⟩
  · intro base address indices others inBox inBox' element element'
    by_cases ones : ∀ d ∈ dims, d = 1
    · rw [Strided.eq_zeros_of_ones ones inBox, Strided.eq_zeros_of_ones ones inBox']
    have positive : 0 < size := by
      split at addressable
      · exact (addressable.resolve_left ones).1
      · next isPointer =>
          rw [knownSize, if_pos (Or.inl isPointer)] at sized
          cases sized
          decide
    have same := (element.address_eq holds sized isArray direct inBox).symm.trans
      (element'.address_eq holds sized isArray direct inBox')
    have cells := offset_injective ⟨(bounds inBox).1, by linarith [(bounds inBox).2]⟩
      ⟨(bounds inBox').1, by linarith [(bounds inBox').2]⟩ same
    have cells := Int.eq_of_mul_eq_mul_left positive.ne' cells
    exact enumerates.injective inBox inBox' (by exact_mod_cast cells)

/-! ## Elements that are not told apart -/

/-- Two tuples of zeros and ones whose elements have the same offset. -/
theorem exists_collision (positive : 0 ∉ dims) (nonneg : 0 ≤ size) (notOnes : ¬∀ d ∈ dims, d = 1)
    (wide : ¬(0 < size ∧ place.Fits dims)) :
    ∃ indices others, Strided.InBox indices dims ∧ Strided.InBox others dims ∧
      (∀ i ∈ indices, i < 2) ∧ (∀ i ∈ others, i < 2) ∧ indices ≠ others ∧
      size * Strided.cell (place.strides dims) indices =
        size * Strided.cell (place.strides dims) others := by
  by_cases isZero : size = 0
  · rcases Strided.exists_unit positive (by simpa using notOnes) with
      ⟨indices, inBox, small, single⟩
    refine ⟨indices, Strided.zeros dims, inBox, Strided.inBox_zeros positive, small,
      Strided.zeros_lt_two dims, ?_, by simp [isZero]⟩
    rintro rfl
    simp at single
  · have wide : ¬place.Fits dims := fun fits => wide ⟨lt_of_le_of_ne nonneg (Ne.symm isZero), fits⟩
    rcases Place.collides positive wide with
      ⟨indices, others, inBox, inBox', small, small', different, same⟩
    exact ⟨indices, others, inBox, inBox', small, small', different, by rw [same]⟩

/-- The code an array is read with, whatever the address of the array is. -/
def emptyWorld : World where
  home _ := 16
  region _ := none
  dataAddress _ := 0
  rodataAddress _ := 0
  funcAddress _ := 0
  arch := .arm
  callee _ _ _ _ _ := False
  calleeAt _ _ _ _ _ := False

/-- A state in which every variable is one, and all memory but that of the variables is zero. -/
def pointingState : State where
  env _ := 1
  memory address := if address = 16 then 1 else 0
  args := []
  ret := 0

theorem pointingState_value (vars : Vars) (v : VarId) :
    pointingState.value emptyWorld vars v = 1 := by
  unfold State.value
  split
  · change pointingState.memory.loadWord 16 = 1
    decide
  · rfl

/-- There is code that computes the address of an element. -/
theorem exists_element_of_inBox {indices : List Nat} (declared : place.Declared ctx record)
    (sized : knownSize ctx record = some size) (holds : record.Holds dims) (isArray : dims ≠ [])
    (inBox : Strided.InBox indices dims) (small : ∀ i ∈ indices, i < 2) :
    ∃ s p, Begins ctx record place s p ∧ Element ctx place record 1 indices
      (s.reach emptyWorld.arch pointingState.memory indices 1) := by
  have notEmpty : record.arraySize ≠ 0 := by
    rw [holds.arraySize]
    exact List.prod_ne_zero (Strided.positive_of_inBox inBox)
  cases inBox with
  | nil => exact absurd rfl isArray
  | cons below inBox =>
      exact exists_element declared sized notEmpty small pointingState_value

/-- Through an element that is read as zero the subscripts lead to zero. -/
theorem Suffix.reach_zeros {s : Suffix} (isPointer : s.lvalue.ptrLevel ≠ 0)
    (isElement : s.Loads) {address : Word}
    (isZero : Arch.arm.load pointingState.memory address 4 = 0) (notEmpty : dims ≠ []) :
    s.reach .arm pointingState.memory (Strided.zeros dims) address = 0 := by
  induction dims generalizing s address with
  | nil => exact absurd rfl notEmpty
  | cons dim dims inductionHypothesis =>
      have step : s.step s.lvalue.size .arm pointingState.memory address 0 = 0 := by
        simp [Suffix.step, isElement, isZero]
      rw [Strided.zeros_cons, Suffix.reach, step]
      by_cases empty : dims = []
      · rw [empty]
        rfl
      · exact inductionHypothesis (s := s.indexed s.lvalue.size) isPointer ⟨rfl, isPointer, rfl⟩
          (by decide) empty

/-- Of an array of pointers with two dimensions the first element is looked for where its first
element points to. -/
theorem not_wellAddressed_of_pointer (declared : place.Declared ctx record)
    (sized : knownSize ctx record = some size) (holds : record.Holds dims) (positive : 0 ∉ dims)
    (isPointer : record.ptrLevel ≠ 0) (long : 1 < dims.length) (less : storage < 2 ^ 31) :
    ¬WellAddressed ctx place record dims size storage := by
  intro wellAddressed
  have isArray : dims ≠ [] := by
    rintro rfl
    simp at long
  rcases exists_element_of_inBox declared sized holds isArray (Strided.inBox_zeros positive)
    (Strided.zeros_lt_two dims) with ⟨s, p, begins, element⟩
  have notEmpty : record.arraySize ≠ 0 := by
    rw [holds.arraySize]
    exact List.prod_ne_zero positive
  have starts := begins.starts sized notEmpty
  have isPointer' : s.lvalue.ptrLevel ≠ 0 := by
    rw [starts.ptrLevel]
    exact isPointer
  have zero : s.reach .arm pointingState.memory (Strided.zeros dims) 1 = 0 := by
    rcases List.exists_cons_of_ne_nil isArray with ⟨first, rest, rfl⟩
    have step : s.step s.lvalue.size .arm pointingState.memory 1 0 = 1 := by
      simp [Suffix.step, starts.noElement]
    rw [Strided.zeros_cons, Suffix.reach, step]
    refine Suffix.reach_zeros (s := s.indexed s.lvalue.size) isPointer' ⟨rfl, isPointer', rfl⟩
      (by decide) ?_
    rintro rfl
    simp at long
  have isSize : size = 4 := by
    rw [knownSize, if_pos (Or.inl isPointer)] at sized
    exact (Option.some.inj sized).symm
  rcases wellAddressed.inside (Strided.inBox_zeros positive) element with
    ⟨offset, same, nonneg, -, room⟩
  have toInt := congrArg BitVec.toInt (same.symm.trans zero)
  change BitVec.toInt (BitVec.ofInt 32 1 + BitVec.ofInt 32 offset) = 0 at toInt
  rw [← BitVec.ofInt_add, BitVec.toInt_ofInt_eq_self (by decide) (by omega) (by omega)] at toInt
  omega

/-- Elements with the same offset are not told apart. -/
theorem not_wellAddressed_of_wide (declared : place.Declared ctx record) (sizes : ctx.Sized)
    (sized : knownSize ctx record = some size) (holds : record.Holds dims) (isArray : dims ≠ [])
    (positive : 0 ∉ dims) (noPointer : record.ptrLevel = 0) (notOnes : ¬∀ d ∈ dims, d = 1)
    (wide : ¬(0 < size ∧ place.Fits dims)) :
    ¬WellAddressed ctx place record dims size storage := by
  intro wellAddressed
  rcases exists_collision positive (knownSize_nonneg sizes sized) notOnes wide with
    ⟨indices, others, inBox, inBox', small, small', different, same⟩
  rcases exists_element_of_inBox declared sized holds isArray inBox small with ⟨_, _, -, element⟩
  rcases exists_element_of_inBox declared sized holds isArray inBox' small' with ⟨_, _, -, element'⟩
  have addressEq := element.address_eq holds sized isArray (.inl noPointer) inBox
  have addressEq' := element'.address_eq holds sized isArray (.inl noPointer) inBox'
  rw [addressEq, same, ← addressEq'] at element
  exact different (wellAddressed.injective inBox inBox' element element')

/-- An array is well addressed exactly when its strides tell the elements apart. -/
theorem wellAddressed_iff_addressable (declared : place.Declared ctx record) (sizes : ctx.Sized)
    (holds : 0 ∉ dims → record.Holds dims) (isArray : dims ≠ [])
    (sized : knownSize ctx record = some size)
    (stored : place.storage ctx record p = .ok (storage, p')) :
    WellAddressed ctx place record dims size storage ↔ Addressable place record dims size := by
  constructor
  · intro wellAddressed
    by_contra notAddressable
    rcases not_or.mp notAddressable with ⟨positive, notAddressable⟩
    have less := (Place.storage_bounds sizes (holds positive) positive sized stored).2
    split at notAddressable
    next noPointer =>
      rcases not_or.mp notAddressable with ⟨notOnes, wide⟩
      exact not_wellAddressed_of_wide declared sizes sized (holds positive) isArray positive
        noPointer
        notOnes wide wellAddressed
    next isPointer =>
      exact not_wellAddressed_of_pointer declared sized (holds positive) positive isPointer
        (Nat.lt_of_not_le notAddressable) less wellAddressed
  · intro addressable
    exact addressable.wellAddressed sizes holds isArray sized stored

/-! ## Declared arrays -/

theorem VarRecord.Holds.of_same {other : VarRecord} (same : record.Same other)
    (holds : other.Holds dims) : record.Holds dims :=
  ⟨same.isFunc.trans holds.isFunc, same.arraySize.trans holds.arraySize,
    same.arrayDim2.trans holds.arrayDim2⟩

/-- Before the declarator `a` with these dimensions behind it. -/
def beforeDeclarator (dims : List Nat) : Parsing :=
  beforeTokens { type := some 0 } []
    (tokenOf .identifier "a" :: subscriptTokens dims ++ [tokenOf .semicolon ";"])

theorem intContext_sized : intContext.Sized := by
  simp [Context.Sized, intContext]

/-- What the record of a declarator says about the type. -/
def declaredType (dims : List Nat) : Option (Option TypeId × Nat) :=
  ((readInnerVarDecl intContext 4 0 false false (beforeDeclarator dims)).map fun result =>
    ((result.2.var 0).type, (result.2.var 0).ptrLevel)).toOption

/-- The declarator of an array of numbers. -/
theorem exists_declaresArray {named : Parsing} (type : declaredType dims = some (some 0, 0))
    (begins : beginDeclarator 0 false false 3 (beforeDeclarator dims) = .ok (false, named))
    (dimensions : Dimensions intContext dims named) :
    ∃ p', DeclaresArray intContext 0 dims (beforeDeclarator dims) p' ∧
      (p'.var 0).type = some 0 ∧ (p'.var 0).ptrLevel = 0 := by
  unfold declaredType at type
  cases ran : readInnerVarDecl intContext 4 0 false false (beforeDeclarator dims) with
  | error stop => simp [ran, Except.map, Except.toOption] at type
  | ok result =>
      rw [ran] at type
      simp only [Except.map, Except.toOption, Option.some.injEq, Prod.mk.injEq] at type
      exact ⟨result.2, .intro Nat.one_pos rfl ran begins dimensions, type.1, type.2⟩

theorem knownSize_int (isFunc : record.isFunc = false) (type : record.type = some 0)
    (noPointer : record.ptrLevel = 0) : knownSize intContext record = some 4 := by
  rw [knownSize, if_neg (by simp [isFunc, noPointer]), type]
  rfl

end Shecc.Parser
