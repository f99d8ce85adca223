import Mathlib.Data.List.Nodup
import Mathlib.Data.List.Perm.Subperm
import Mathlib.Logic.Function.Basic
import Mathlib.Tactic.Cases

/-!
# Singly linked lists in memory

A heap of cells with a value and a link. A link is null, a cell, or wild: the
value of a variable that was never written. A cell is dead before it is allocated
and when the variable it is has gone out of scope. Reading or writing through
anything but a live cell is not defined.
-/

namespace Shecc.LinkedList

/-- A pointer to a cell. -/
inductive Ptr
  | null | wild | cell (address : Nat)
  deriving DecidableEq

/-- A cell of the heap. -/
inductive Cell (α : Type) where
  | dead
  | live (value : α) (next : Ptr)

/-- The cells below `size` have been allocated. -/
structure Heap (α : Type) where
  size : Nat
  cells : Nat → Cell α

variable {α : Type}

namespace Heap

variable (h : Heap α)

/-- A live cell's value and link. -/
def get : Ptr → Option (α × Ptr)
  | .cell address =>
      match h.cells address with
      | .live value next => some (value, next)
      | .dead => none
  | _ => none

/-- The heap with one cell more, at the address `h.size`. -/
def alloc (value : α) (next : Ptr) : Heap α :=
  ⟨h.size + 1, Function.update h.cells h.size (.live value next)⟩

/-- The heap with a cell changed. -/
def put (address : Nat) (cell : Cell α) : Heap α := ⟨h.size, Function.update h.cells address cell⟩

/-- The heap with the link of a live cell changed. -/
def setNext (p next : Ptr) : Option (Heap α) :=
  match p with
  | .cell address =>
      match h.cells address with
      | .live value _ => some (h.put address (.live value next))
      | .dead => none
  | _ => none

/-- The heap with a cell gone. -/
def kill (address : Nat) : Heap α := h.put address .dead

/-- A heap of which the cells from `size` on are dead. -/
def Bounded : Prop := ∀ address, h.size ≤ address → h.cells address = .dead

end Heap

namespace Heap

variable {h : Heap α}

@[simp]
theorem cells_alloc_self (value : α) (next : Ptr) :
    (h.alloc value next).cells h.size = .live value next :=
  Function.update_self _ _ _

theorem cells_alloc_of_ne {address : Nat} (value : α) (next : Ptr) (other : address ≠ h.size) :
    (h.alloc value next).cells address = h.cells address :=
  Function.update_of_ne other _ _

@[simp]
theorem cells_put_self (address : Nat) (cell : Cell α) :
    (h.put address cell).cells address = cell :=
  Function.update_self _ _ _

theorem cells_put_of_ne {address other : Nat} (cell : Cell α) (different : other ≠ address) :
    (h.put address cell).cells other = h.cells other :=
  Function.update_of_ne different _ _

theorem setNext_of_live {address : Nat} {value : α} {old next : Ptr}
    (found : h.cells address = .live value old) :
    h.setNext (.cell address) next = some (h.put address (.live value next)) := by
  rw [setNext]
  simp only [found]

theorem setNext_eq_some {h' : Heap α} {p next : Ptr} (set : h.setNext p next = some h') :
    ∃ address value old, p = .cell address ∧ h.cells address = .live value old ∧
      h' = h.put address (.live value next) := by
  cases p with
  | null => cases set
  | wild => cases set
  | cell address =>
      cases found : h.cells address with
      | dead => simp only [setNext, found] at set; cases set
      | live value old =>
          rw [setNext_of_live found] at set
          exact ⟨address, value, old, rfl, found, (Option.some.inj set).symm⟩

theorem Bounded.alloc (bounded : h.Bounded) (value : α) (next : Ptr) :
    (h.alloc value next).Bounded := by
  intro address outside
  change h.size + 1 ≤ address at outside
  rw [cells_alloc_of_ne value next (Nat.ne_of_gt outside)]
  exact bounded address (Nat.le_of_succ_le outside)

theorem Bounded.put (bounded : h.Bounded) {address : Nat} (cell : Cell α)
    (inside : address < h.size) : (h.put address cell).Bounded := by
  intro other outside
  rw [cells_put_of_ne cell (Nat.ne_of_gt (Nat.lt_of_lt_of_le inside outside))]
  exact bounded other outside

theorem Bounded.lt_size {address : Nat} {value : α} {next : Ptr} (bounded : h.Bounded)
    (found : h.cells address = .live value next) : address < h.size := by
  by_contra outside
  rw [bounded address (Nat.le_of_not_lt outside)] at found
  cases found

end Heap

/-- The cells from a pointer on, with their values, up to a pointer behind them. -/
def Linked (h : Heap α) : Ptr → List (Nat × α) → Ptr → Prop
  | p, [], q => p = q
  | p, (address, value) :: rest, q =>
      p = .cell address ∧ ∃ next, h.cells address = .live value next ∧ Linked h next rest q

/-- The values of the list a pointer points to. -/
def Holds (h : Heap α) (p : Ptr) (values : List α) : Prop :=
  ∃ cells, Linked h p cells .null ∧ cells.map Prod.snd = values

@[simp]
theorem linked_nil {h : Heap α} {p q : Ptr} : Linked h p [] q ↔ p = q := Iff.rfl

theorem linked_cons {h : Heap α} {p q : Ptr} {address : Nat} {value : α}
    {rest : List (Nat × α)} : Linked h p ((address, value) :: rest) q ↔
      p = .cell address ∧ ∃ next, h.cells address = .live value next ∧ Linked h next rest q :=
  Iff.rfl

theorem linked_append {h : Heap α} {p r : Ptr} {first second : List (Nat × α)} :
    Linked h p (first ++ second) r ↔ ∃ q, Linked h p first q ∧ Linked h q second r := by
  induction first generalizing p with
  | nil => simp
  | cons entry rest inductionHypothesis =>
      rcases entry with ⟨address, value⟩
      rw [List.cons_append, linked_cons]
      simp only [linked_cons, inductionHypothesis]
      constructor
      · rintro ⟨isCell, next, found, q, before, behind⟩
        exact ⟨q, ⟨isCell, next, found, before⟩, behind⟩
      · rintro ⟨q, ⟨isCell, next, found, before⟩, behind⟩
        exact ⟨isCell, next, found, q, before, behind⟩

theorem linked_singleton {h : Heap α} {p q : Ptr} {address : Nat} {value : α} :
    Linked h p [(address, value)] q ↔ p = .cell address ∧ h.cells address = .live value q := by
  rw [linked_cons]
  constructor
  · rintro ⟨isCell, next, found, rfl⟩
    exact ⟨isCell, found⟩
  · rintro ⟨isCell, found⟩
    exact ⟨isCell, q, found, rfl⟩

/-- A list is not changed by changes elsewhere. -/
theorem Linked.frame {h h' : Heap α} {p q : Ptr} {cells : List (Nat × α)}
    (linked : Linked h p cells q)
    (same : ∀ entry ∈ cells, h'.cells entry.1 = h.cells entry.1) : Linked h' p cells q := by
  induction cells generalizing p with
  | nil => exact linked
  | cons entry rest inductionHypothesis =>
      rcases entry with ⟨address, value⟩
      rcases linked with ⟨isCell, next, found, linked⟩
      refine ⟨isCell, next, ?_, inductionHypothesis linked ?_⟩
      · rw [same (address, value) List.mem_cons_self]
        exact found
      · intro entry inRest
        exact same entry (List.mem_cons_of_mem _ inRest)

/-- The link behind a list is the only thing its last cell's link decides. -/
theorem Linked.relink {h h' : Heap α} {p q r : Ptr} {cells : List (Nat × α)} {address : Nat}
    {value : α} (linked : Linked h p (cells ++ [(address, value)]) q)
    (fresh : ∀ entry ∈ cells, entry.1 ≠ address)
    (set : h.setNext (.cell address) r = some h') :
    Linked h' p (cells ++ [(address, value)]) r := by
  rcases linked_append.mp linked with ⟨middle, before, last⟩
  rcases linked_singleton.mp last with ⟨rfl, found⟩
  rw [Heap.setNext_of_live found] at set
  cases set
  apply linked_append.mpr
  refine ⟨.cell address, before.frame ?_, linked_singleton.mpr ⟨rfl, Heap.cells_put_self _ _⟩⟩
  intro entry inCells
  exact Heap.cells_put_of_ne _ (fresh entry inCells)

/-- Two lists from one pointer up to null are the same. -/
theorem Linked.unique {h : Heap α} {p : Ptr} {cells others : List (Nat × α)}
    (linked : Linked h p cells .null) (linked' : Linked h p others .null) : cells = others := by
  induction cells generalizing p others with
  | nil =>
      cases others with
      | nil => rfl
      | cons entry rest =>
          cases linked
          cases linked'.1
  | cons entry rest inductionHypothesis =>
      rcases entry with ⟨address, value⟩
      rcases linked with ⟨rfl, next, found, linked⟩
      cases others with
      | nil => cases linked'
      | cons entry' rest' =>
          rcases entry' with ⟨address', value'⟩
          rcases linked' with ⟨same, next', found', linked'⟩
          cases same
          rw [found] at found'
          cases found'
          rw [inductionHypothesis linked linked']

/-- The cells of a list are live. -/
theorem Linked.live {h : Heap α} {p q : Ptr} {cells : List (Nat × α)}
    (linked : Linked h p cells q) : ∀ entry ∈ cells, ∃ next,
      h.cells entry.1 = .live entry.2 next := by
  induction cells generalizing p with
  | nil => simp
  | cons entry rest inductionHypothesis =>
      rcases entry with ⟨address, value⟩
      rcases linked with ⟨-, next, found, linked⟩
      rintro entry (_ | ⟨_, inRest⟩)
      · exact ⟨next, found⟩
      · exact inductionHypothesis linked entry inRest

/-- The cells of a list are below the size of a bounded heap. -/
theorem Linked.lt_size {h : Heap α} {p q : Ptr} {cells : List (Nat × α)}
    (linked : Linked h p cells q) (bounded : h.Bounded) : ∀ entry ∈ cells, entry.1 < h.size := by
  intro entry inCells
  rcases linked.live entry inCells with ⟨next, found⟩
  exact bounded.lt_size found

/-- The cells of a list that ends are different. -/
theorem Linked.nodup {h : Heap α} {p : Ptr} {cells : List (Nat × α)}
    (linked : Linked h p cells .null) : (cells.map Prod.fst).Nodup := by
  induction cells generalizing p with
  | nil => exact List.nodup_nil
  | cons entry rest inductionHypothesis =>
      have all := linked
      rcases entry with ⟨address, value⟩
      rcases linked with ⟨rfl, next, found, linked⟩
      rw [List.map_cons, List.nodup_cons]
      refine ⟨?_, inductionHypothesis linked⟩
      intro member
      rcases List.mem_map.mp member with ⟨⟨again, value'⟩, inRest, rfl⟩
      rcases List.append_of_mem inRest with ⟨earlier, later, rfl⟩
      rcases linked_append.mp linked with ⟨here, -, fromHere⟩
      have isHere := fromHere.1
      subst isHere
      have same := congrArg List.length (all.unique fromHere)
      rw [List.length_cons, List.length_append, List.length_cons] at same
      omega

/-- A list that ends has no more cells than the heap. -/
theorem Linked.length_le {h : Heap α} {p : Ptr} {cells : List (Nat × α)}
    (linked : Linked h p cells .null) (bounded : h.Bounded) : cells.length ≤ h.size := by
  have inside : cells.map Prod.fst ⊆ List.range h.size := by
    intro address member
    rcases List.mem_map.mp member with ⟨entry, inCells, rfl⟩
    exact List.mem_range.mpr (linked.lt_size bounded entry inCells)
  have shorter := (List.subperm_of_subset linked.nodup inside).length_le
  rw [List.length_map, List.length_range] at shorter
  exact shorter

theorem Holds.unique {h : Heap α} {p : Ptr} {values others : List α}
    (holds : Holds h p values) (holds' : Holds h p others) : values = others := by
  rcases holds with ⟨cells, linked, rfl⟩
  rcases holds' with ⟨cells', linked', rfl⟩
  rw [linked.unique linked']

/-- Only null is the empty list. -/
theorem holds_nil {h : Heap α} {p : Ptr} : Holds h p [] ↔ p = .null := by
  constructor
  · rintro ⟨cells, linked, empty⟩
    rw [List.map_eq_nil_iff.mp empty] at linked
    exact linked
  · rintro rfl
    exact ⟨[], rfl, rfl⟩

/-! ## A heap of one list -/

/-- A heap with nothing but a list, in the cells from 0 on. -/
def Heap.ofList (values : List α) : Heap α :=
  ⟨values.length, fun address => match values[address]? with
    | none => .dead
    | some value =>
        .live value (if address + 1 < values.length then .cell (address + 1) else .null)⟩

/-- Values in the cells from an address on. -/
def numbered (address : Nat) : List α → List (Nat × α)
  | [] => []
  | value :: rest => (address, value) :: numbered (address + 1) rest

theorem Heap.ofList_bounded (values : List α) : (Heap.ofList values).Bounded := by
  intro address outside
  have isNone : values[address]? = none := List.getElem?_eq_none outside
  simp only [Heap.ofList, isNone]

theorem linked_ofList_append (earlier later : List α) :
    Linked (Heap.ofList (earlier ++ later)) (if later = [] then .null else .cell earlier.length)
      (numbered earlier.length later) .null := by
  induction later generalizing earlier with
  | nil => exact if_pos rfl
  | cons value rest inductionHypothesis =>
      have behind := inductionHypothesis (earlier ++ [value])
      rw [List.append_assoc, List.length_append] at behind
      refine ⟨if_neg (List.cons_ne_nil _ _), _, ?_, behind⟩
      have found : (earlier ++ value :: rest)[earlier.length]? = some value := by
        rw [List.getElem?_append_right (Nat.le_refl _), Nat.sub_self]
        rfl
      simp only [Heap.ofList, found, List.length_append, List.length_cons, List.length_nil,
        Nat.zero_add]
      cases rest with
      | nil => simp
      | cons second others => simp

theorem linked_ofList (value : α) (rest : List α) :
    Linked (Heap.ofList (value :: rest)) (.cell 0) (numbered 0 (value :: rest)) .null :=
  linked_ofList_append [] (value :: rest)

end Shecc.LinkedList
