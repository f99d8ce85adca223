import Shecc.Memory.Bump
import Shecc.RegAlloc.Core

/-!
# The stack frame

What the register allocator is to make of a frame: the arguments of callees are at the
bottom, every variable that needs room gets four bytes behind everything handed out before,
and an object its bytes behind them. A frame stays laid out as long as each request fits
below the largest integer, and no longer.
-/

namespace Shecc.RegAlloc

open Libc (wrap)

/-- Where a variable is kept: `offset` with its flags, and the first byte and the number of
bytes of its object. -/
structure Place where
  offset : Int
  spaceIsAllocated : Bool
  ofsBasedOnStackTop : Bool
  object : Option (Int × Int)

/-- The place in the record of a variable. -/
def Place.ofVar (r : Var) : Place := ⟨r.offset, r.spaceIsAllocated, r.ofsBasedOnStackTop, none⟩

/-- The variable is kept in the byte of its own function's frame. -/
def Place.Covers (place : Place) (b : Int) : Prop :=
  place.spaceIsAllocated = true ∧ place.ofsBasedOnStackTop = false ∧
    (b ∈ Set.Ico place.offset (place.offset + 4) ∨
      ∃ object ∈ place.object, b ∈ Set.Ico object.1 (object.1 + object.2))

/-- The frame of a function. -/
structure Frame where
  stackSize : Int
  place : VarId → Place

/-- The bytes handed out behind the slot. -/
def Request.reserved (request : Request) : Int :=
  (request.bytes.map fun bytes => alignSize (wrap bytes)).getD 0

namespace Frame

/-- Hand out what is asked for. -/
def grant (frame : Frame) (request : Request) : Frame where
  stackSize :=
    match request.bytes with
    | none => wrap (frame.stackSize + 4)
    | some bytes => wrap (wrap (frame.stackSize + 4) + alignSize (wrap bytes))
  place := Function.update frame.place request.owner
    { offset := frame.stackSize
      spaceIsAllocated := true
      ofsBasedOnStackTop := (frame.place request.owner).ofsBasedOnStackTop
      object := request.bytes.map fun bytes => (wrap (frame.stackSize + 4), bytes) }

/-- Hand out what is asked for, one after the other. -/
def after (frame : Frame) (requests : List Request) : Frame := requests.foldl grant frame

theorem after_concat (frame : Frame) (requests : List Request) (request : Request) :
    frame.after (requests ++ [request]) = (frame.after requests).grant request :=
  List.foldl_concat ..

/-- What is handed out is enough for the object and ends below the largest integer. -/
structure Fits (frame : Frame) (request : Request) : Prop where
  enough : ∀ bytes ∈ request.bytes, 0 ≤ request.reserved ∧ bytes ≤ request.reserved
  below : frame.stackSize + 4 + request.reserved < 2 ^ 31

end Frame

variable (env : Env) (f : Func)

/-- The bytes of the frame a local variable is kept in. -/
def Func.occupied (frame : Frame) (v : VarId) : Set Int :=
  { b | (f.vars v).isGlobal = false ∧ (frame.place v).Covers b }

/-- Where the parameter `i` is kept before the first instruction. -/
def Place.ofParam (place : Place) (i : Int) : Place :=
  if f.vaArgs then
    if i < maxArgsInReg env.arch then
      { place with offset := argumentArea env.arch + 4 * i, spaceIsAllocated := true }
    else place
  else if maxArgsInReg env.arch ≤ i then
    { place with
      offset := (i - maxArgsInReg env.arch) * 4
      spaceIsAllocated := true
      ofsBasedOnStackTop := true }
  else place

/-- The frame before the first instruction: a variadic function begins with its arguments. -/
def Frame.entry : Frame where
  stackSize := argumentArea env.arch + if f.vaArgs then 4 * maxParams else 0
  place := fun v =>
    if v ∈ f.paramDefs then (Place.ofVar (f.vars v)).ofParam env f (f.paramDefs.idxOf v)
    else Place.ofVar (f.vars v)

/-- The frame is laid out: between the arguments of callees and the end, no byte belongs to
two variables, and an object lies behind the slot of its variable. -/
structure Frame.LaidOut (frame : Frame) : Prop where
  area : argumentArea env.arch ≤ frame.stackSize
  small : frame.stackSize < 2 ^ 31
  packed : Packed (argumentArea env.arch) frame.stackSize (f.occupied frame)
  behind : ∀ v, ∀ object ∈ (frame.place v).object, object.1 = (frame.place v).offset + 4

/-- A request comes from a local variable that is not kept in the frame of the caller. -/
def Request.Own (request : Request) : Prop :=
  (f.vars request.owner).isGlobal = false ∧
    ((Frame.entry env f).place request.owner).ofsBasedOnStackTop = false

theorem argumentArea_bounds : 0 ≤ argumentArea env.arch ∧ argumentArea env.arch ≤ 16 := by
  cases env.arch <;> decide

/-! ## Granting a request -/

section Grant

variable {env} {f} {frame : Frame} {request : Request}

theorem grant_place_ne {v : VarId} (other : v ≠ request.owner) :
    (frame.grant request).place v = frame.place v :=
  Function.update_of_ne other _ _

theorem grant_place_owner :
    (frame.grant request).place request.owner =
      { offset := frame.stackSize
        spaceIsAllocated := true
        ofsBasedOnStackTop := (frame.place request.owner).ofsBasedOnStackTop
        object := request.bytes.map fun bytes => (wrap (frame.stackSize + 4), bytes) } :=
  Function.update_self ..

theorem alignSize_bounds (i : Int) : -2 ^ 31 ≤ alignSize i ∧ alignSize i < 2 ^ 31 := by
  rw [alignSize, wrap]
  split <;> constructor <;> omega

theorem grant_stackSize_eq :
    (frame.grant request).stackSize = wrap (frame.stackSize + 4 + request.reserved) := by
  rcases request with ⟨owner, _ | bytes⟩
  · change wrap (frame.stackSize + 4) = wrap (frame.stackSize + 4 + 0)
    rw [add_zero]
  · exact Libc.wrap_wrap_add _ _

theorem Frame.Fits.reserved_nonneg (fits : frame.Fits request) : 0 ≤ request.reserved := by
  cases isBytes : request.bytes with
  | none =>
      rw [Request.reserved, isBytes]
      exact le_refl _
  | some bytes => exact (fits.enough bytes isBytes).1

/-- A request that fits extends the frame by what is handed out. -/
theorem grant_stackSize (low : 0 ≤ frame.stackSize) (fits : frame.Fits request) :
    (frame.grant request).stackSize = frame.stackSize + 4 + request.reserved := by
  have nonneg := fits.reserved_nonneg
  have below := fits.below
  rw [grant_stackSize_eq]
  apply Libc.wrap_eq
  · omega
  · rw [Libc.intMax]
    omega

/-- The object of a request that fits begins behind the slot. -/
theorem object_start (low : 0 ≤ frame.stackSize) (fits : frame.Fits request) :
    wrap (frame.stackSize + 4) = frame.stackSize + 4 := by
  have nonneg := fits.reserved_nonneg
  have below := fits.below
  apply Libc.wrap_eq
  · omega
  · rw [Libc.intMax]
    omega

/-- What a granted request covers lies behind the old end and before the new one. -/
theorem grant_covers (low : 0 ≤ frame.stackSize) (fits : frame.Fits request) {b : Int}
    (covers : ((frame.grant request).place request.owner).Covers b) :
    frame.stackSize ≤ b ∧ b < (frame.grant request).stackSize := by
  have nonneg := fits.reserved_nonneg
  rw [grant_stackSize low fits]
  rw [grant_place_owner] at covers
  rcases covers with ⟨-, -, slot | ⟨object, isObject, inObject⟩⟩
  · rcases slot with ⟨first, last⟩
    change frame.stackSize ≤ b at first
    change b < frame.stackSize + 4 at last
    omega
  · rcases Option.mem_map.mp isObject with ⟨bytes, isBytes, rfl⟩
    have enough := (fits.enough bytes isBytes).2
    rcases inObject with ⟨first, last⟩
    rw [object_start low fits] at first last
    dsimp only at first last
    omega

/-- A frame that is laid out stays so when a request fits. -/
theorem Frame.LaidOut.grant (laidOut : frame.LaidOut env f) (fits : frame.Fits request) :
    (frame.grant request).LaidOut env f := by
  have bottom := argumentArea_bounds env
  have area := laidOut.area
  have low : 0 ≤ frame.stackSize := by omega
  have nonneg := fits.reserved_nonneg
  have below := fits.below
  have extended := grant_stackSize low fits
  constructor
  · omega
  · omega
  · apply laidOut.packed.place request.owner
    · rintro v other b ⟨isLocal, covers⟩
      rw [grant_place_ne other] at covers
      exact ⟨isLocal, covers⟩
    · rintro b ⟨-, covers⟩
      exact grant_covers low fits covers
    · exact area
    · omega
  · intro v object isObject
    by_cases same : v = request.owner
    · subst same
      rw [grant_place_owner] at isObject ⊢
      rcases Option.mem_map.mp isObject with ⟨bytes, isBytes, rfl⟩
      exact object_start low fits
    · rw [grant_place_ne same] at isObject ⊢
      exact laidOut.behind v object isObject

/-- Only then: otherwise the end wraps around, or the object does not end before it. -/
theorem Frame.LaidOut.fits (laidOut : frame.LaidOut env f)
    (isLocal : (f.vars request.owner).isGlobal = false)
    (own : (frame.place request.owner).ofsBasedOnStackTop = false)
    (granted : (frame.grant request).LaidOut env f) : frame.Fits request := by
  have bottom := argumentArea_bounds env
  have area := laidOut.area
  have small := laidOut.small
  have inside : ∀ b, ((frame.grant request).place request.owner).Covers b →
      b < wrap (frame.stackSize + 4 + request.reserved) := by
    intro b covers
    rw [← grant_stackSize_eq]
    exact (granted.packed.inside request.owner ⟨isLocal, covers⟩).2
  rw [grant_place_owner, own] at inside
  have slot := inside (frame.stackSize + 3)
    ⟨rfl, rfl, .inl ⟨by dsimp only; omega, by dsimp only; omega⟩⟩
  cases isBytes : request.bytes with
  | none =>
      have nothing : request.reserved = 0 := by
        rw [Request.reserved, isBytes]
        rfl
      rw [nothing, wrap] at slot
      refine ⟨fun bytes member => ?_, ?_⟩
      · rw [isBytes] at member
        cases member
      · rw [nothing]
        omega
  | some bytes =>
      have isReserved : request.reserved = alignSize (wrap bytes) := by
        rw [Request.reserved, isBytes]
        rfl
      have bounds := alignSize_bounds (wrap bytes)
      rw [← isReserved] at bounds
      have start := granted.behind request.owner
      rw [grant_place_owner, isBytes] at start
      have start := start _ rfl
      dsimp only at start
      rw [isBytes, Option.map_some, start] at inside
      rw [wrap] at slot start
      have enough : 0 < bytes → frame.stackSize + 4 + bytes - 1 <
          wrap (frame.stackSize + 4 + request.reserved) := by
        intro positive
        exact inside _ ⟨rfl, rfl, .inr ⟨_, rfl, by dsimp only; omega, by dsimp only; omega⟩⟩
      rw [wrap] at enough
      constructor
      · rintro other isOther
        cases isBytes.symm.trans isOther
        omega
      · omega

end Grant

/-! ## The frame before the first instruction -/

section Entry

variable {env} {f} {v : VarId}

/-- Only the parameters a variadic function gets in registers are kept in its frame. -/
theorem entry_covers {b : Int} (covers : b ∈ f.occupied (.entry env f) v) :
    f.vaArgs = true ∧ v ∈ f.paramDefs ∧
      (f.paramDefs.idxOf v : Int) < maxArgsInReg env.arch ∧
      argumentArea env.arch + 4 * f.paramDefs.idxOf v ≤ b ∧
      b < argumentArea env.arch + 4 * f.paramDefs.idxOf v + 4 := by
  rcases covers with ⟨isLocal, isAllocated, own, place⟩
  have unplaced : (f.vars v).spaceIsAllocated = false := (f.placed v).trans isLocal
  by_cases isParam : v ∈ f.paramDefs
  · simp only [Frame.entry, if_pos isParam, Place.ofParam] at isAllocated own place
    split at isAllocated
    · rename_i variadic
      split at isAllocated
      · rename_i inReg
        rw [if_pos variadic, if_pos inReg] at place
        rcases place with slot | ⟨object, isObject, -⟩
        · exact ⟨variadic, isParam, inReg, slot⟩
        · cases isObject
      · exact absurd (unplaced.symm.trans isAllocated) Bool.false_ne_true
    · rename_i fixed
      split at isAllocated
      · rename_i onStack
        rw [if_neg fixed, if_pos onStack] at own
        cases own
      · exact absurd (unplaced.symm.trans isAllocated) Bool.false_ne_true
  · simp only [Frame.entry, if_neg isParam] at isAllocated
    exact absurd (unplaced.symm.trans isAllocated) Bool.false_ne_true

theorem entry_object (v : VarId) : ((Frame.entry env f).place v).object = none := by
  simp only [Frame.entry, Place.ofParam]
  split_ifs <;> rfl

theorem entry_laidOut : (Frame.entry env f).LaidOut env f := by
  have bottom := argumentArea_bounds env
  have few := f.fewParams
  simp only [maxParams] at few
  constructor
  · simp only [Frame.entry, maxParams]
    split <;> omega
  · simp only [Frame.entry, maxParams]
    split <;> omega
  · constructor
    · intro v b covers
      rcases entry_covers covers with ⟨variadic, isParam, -, first, last⟩
      have inside := List.idxOf_lt_length_of_mem isParam
      simp only [Frame.entry, if_pos variadic, maxParams, Set.mem_Ico]
      omega
    · intro v w different
      rw [Function.onFun, Set.disjoint_left]
      intro b mine yours
      rcases entry_covers mine with ⟨-, isParam, -, first, last⟩
      rcases entry_covers yours with ⟨-, -, -, first', last'⟩
      have same : f.paramDefs.idxOf v = f.paramDefs.idxOf w := by omega
      exact different (List.idxOf_inj isParam |>.mp same)
  · intro v object isObject
    rw [entry_object] at isObject
    cases isObject

end Entry

/-! ## Runs -/

section Run

variable {env} {f} {requests : List Request}

theorem grant_place_flag (frame : Frame) (request : Request) (v : VarId) :
    ((frame.grant request).place v).ofsBasedOnStackTop = (frame.place v).ofsBasedOnStackTop := by
  by_cases same : v = request.owner
  · subst same
    rw [grant_place_owner]
  · rw [grant_place_ne same]

theorem after_place_flag (frame : Frame) (v : VarId) :
    ((frame.after requests).place v).ofsBasedOnStackTop =
      (frame.place v).ofsBasedOnStackTop := by
  induction requests generalizing frame with
  | nil => rfl
  | cons request rest inductionHypothesis =>
      exact (inductionHypothesis _).trans (grant_place_flag ..)

/-- Every frame of a run is laid out exactly if every request of the run fits. -/
theorem laidOut_iff (own : ∀ request ∈ requests, request.Own env f) :
    (∀ earlier, earlier <+: requests → ((Frame.entry env f).after earlier).LaidOut env f) ↔
      ∀ earlier request, earlier ++ [request] <+: requests →
        ((Frame.entry env f).after earlier).Fits request := by
  constructor
  · intro laidOut earlier request isPrefix
    rcases own request (isPrefix.subset (by simp)) with ⟨isLocal, unflagged⟩
    have granted := laidOut _ isPrefix
    rw [Frame.after_concat] at granted
    have before := laidOut earlier ((List.prefix_append ..).trans isPrefix)
    exact before.fits isLocal ((after_place_flag ..).trans unflagged) granted
  · intro fits earlier
    induction earlier using List.reverseRecOn with
    | nil => exact fun _ => entry_laidOut
    | append_singleton earlier request inductionHypothesis =>
        intro isPrefix
        rw [Frame.after_concat]
        exact (inductionHypothesis ((List.prefix_append ..).trans isPrefix)).grant
          (fits earlier request isPrefix)

end Run

end Shecc.RegAlloc
