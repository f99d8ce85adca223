import Mathlib.Data.List.Perm.Basic
import Mathlib.Algebra.Order.BigOperators.Group.List
import Mathlib.Tactic.Linarith
import Shecc.Arenas.Core

/-!
# The regions of an arena

Regions in use share no byte, lie in blocks that are not freed and are aligned, as long as no
sum of sizes leaves the range of an `int` and every request that the current block serves finds
its offset at a multiple of the pointer size. Growing the last region in place moves the offset
by any amount, so `arena_realloc` can leave it in between.
-/

namespace Shecc.Arenas

open Libc (wrap intMax wrap_eq)

variable {host : Host} {unit : Int}

theorem Host.pointerSize_pos (host : Host) : 0 < host.pointerSize := by
  cases host <;> decide

/-! ## What a program relies on -/

/-- The regions share no address. -/
def Region.Apart (region other : Region) : Prop :=
  ∀ address, region.Covers address → ¬other.Covers address

/-- The contract of the allocator. -/
structure Sound (host : Host) (s : State) : Prop where
  disjoint : s.live.Pairwise Region.Apart
  inside : ∀ region ∈ s.live, ∃ block ∈ s.arena.blocks,
    block.memory ≤ region.ptr ∧ region.ptr + region.size ≤ block.memory + block.capacity
  aligned : ∀ region ∈ s.live, region.ptr % host.pointerSize = 0
  total : s.arena.totalBytes = (s.arena.blocks.map Block.capacity).sum

/-- Reallocating keeps the bytes that both regions have. -/
def Preserves (s s' : State) : Request → Prop
  | .realloc oldptr oldsz newsz => oldptr ≠ 0 →
      ∃ ptr rest, s'.live = ⟨ptr, newsz⟩ :: rest ∧
        ∀ i, 0 ≤ i → i < min oldsz newsz → s'.bytes (ptr + i) = s.bytes (oldptr + i)
  | _ => True

/-- `arena_alloc` serves the size: its sums are in range, and if the current block has room its
offset is a multiple of the unit. -/
structure Takes (host : Host) (unit : Int) (arena : Arena) (size : Int) : Prop where
  rounds : size + host.pointerSize - 1 ≤ intMax
  sums : ∀ head ∈ arena.blocks.head?, head.offset + alignSize host size ≤ intMax
  lands : ∀ head ∈ arena.blocks.head?, head.offset + alignSize host size ≤ head.capacity →
    head.offset % unit = 0

/-- If a new block is created, its bytes can be counted. -/
def Counts (host : Host) (arena : Arena) (size : Int) : Prop :=
  ∀ head ∈ arena.blocks.head?, head.capacity < head.offset + alignSize host size →
    arena.totalBytes + arena.newCapacity (alignSize host size) ≤ intMax

/-- The region at `oldptr` is the last of the current block, which has room for the new size. -/
def InPlace (arena : Arena) (oldptr oldsz newsz : Int) : Prop :=
  oldptr ≠ 0 ∧ ∀ head ∈ arena.blocks.head?, oldptr + oldsz = head.memory + head.offset ∧
    head.offset + (newsz - oldsz) ≤ head.capacity

/-- The request computes its sizes in range, and `ok` holds of what it asks `arena_alloc` for. -/
def FitsWith (ok : Arena → Int → Prop) (s : State) : Request → Prop
  | .alloc size => 0 < size → ok s.arena size
  | .calloc n size => wrap (n * size) = n * size ∧ (0 < n * size → ok s.arena (n * size))
  | .realloc oldptr oldsz newsz => oldsz < newsz →
      (∀ head ∈ s.arena.blocks.head?, oldptr ≠ 0 → oldptr + oldsz = head.memory + head.offset →
        head.offset + (newsz - oldsz) ≤ intMax) ∧
      (¬InPlace s.arena oldptr oldsz newsz → 0 < newsz → ok s.arena newsz)
  | _ => True

/-- The condition under which a request is served right. -/
def Fits (host : Host) : State → Request → Prop :=
  FitsWith fun arena size => Takes host host.pointerSize arena size ∧ Counts host arena size

/-! ## The invariant -/

/-- The buffers share no address. -/
def Block.Apart (block other : Block) : Prop :=
  block.memory + block.capacity ≤ other.memory ∨ other.memory + other.capacity ≤ block.memory

/-- A block is aligned, and what is handed out of it is not more than there is. -/
structure Block.Valid (unit : Int) (block : Block) : Prop where
  positive : 0 < block.memory
  aligned : block.memory % unit = 0
  low : 0 ≤ block.offset
  high : block.offset ≤ block.capacity
  isInt : block.capacity ≤ intMax

/-- The region starts in what is handed out of the block, and ends there. -/
structure Region.In (region : Region) (block : Block) : Prop where
  low : block.memory ≤ region.ptr
  starts : region.ptr < block.memory + block.offset
  ends : region.ptr + region.size ≤ block.memory + block.offset

/-- The regions lie in the blocks, apart from each other, at multiples of the unit. -/
structure Laid (host : Host) (unit : Int) (arena : Arena) (live : List Region) : Prop where
  divides : unit ∣ host.pointerSize
  valid : ∀ block ∈ arena.blocks, block.Valid unit
  apart : arena.blocks.Pairwise Block.Apart
  sized : arena.blockSize ≤ intMax
  placed : ∀ region ∈ live, region.ptr % unit = 0 ∧ ∃ block ∈ arena.blocks, region.In block
  disjoint : live.Pairwise Region.Apart

/-- What holds of every arena in every run: there is a block, and if there are others too then
the first is in use. -/
structure Inv (host : Host) (unit : Int) (arena : Arena) (live : List Region) : Prop
    extends Laid host unit arena live where
  nonempty : arena.blocks ≠ []
  used : ∀ head rest, arena.blocks = head :: rest → rest ≠ [] → 0 < head.offset

/-- The bytes of the blocks are counted. -/
structure Counted (arena : Arena) : Prop where
  total : arena.totalBytes = (arena.blocks.map Block.capacity).sum
  isInt : arena.totalBytes ≤ intMax

theorem Block.Valid.capacity_nonneg {block : Block} (valid : block.Valid unit) :
    0 ≤ block.capacity :=
  valid.low.trans valid.high

theorem sum_capacity_nonneg {blocks : List Block}
    (capacities : ∀ block ∈ blocks, 0 ≤ block.capacity) :
    0 ≤ (blocks.map Block.capacity).sum := by
  apply List.sum_nonneg
  intro capacity member
  obtain ⟨block, isBlock, rfl⟩ := List.mem_map.mp member
  exact capacities block isBlock

theorem Region.Apart.symm {region other : Region} (apart : region.Apart other) :
    other.Apart region :=
  fun address covers covers' => apart address covers' covers

theorem Block.Apart.symm {block other : Block} (apart : block.Apart other) :
    other.Apart block :=
  Or.symm apart

instance : Std.Symm Region.Apart where
  symm _ _ apart := apart.symm

section Align

variable {size : Int}

/-- Rounding up. -/
theorem alignSize_bounds (positive : 0 < size) (rounds : size + host.pointerSize - 1 ≤ intMax) :
    size ≤ alignSize host size ∧ alignSize host size ≤ size + host.pointerSize - 1 ∧
      alignSize host size % host.pointerSize = 0 := by
  have isWrap : wrap (size + host.pointerSize - 1) = size + host.pointerSize - 1 :=
    wrap_eq (by have := host.pointerSize_pos; omega) rounds
  rw [alignSize]
  simp only [isWrap]
  cases host <;> simp only [Host.pointerSize] <;> omega

theorem Arena.newCapacity_ge (arena : Arena) (size : Int) : size ≤ arena.newCapacity size := by
  rw [newCapacity]
  split_ifs <;> omega

theorem Arena.newCapacity_le {arena : Arena} (isInt : size ≤ intMax)
    (sized : arena.blockSize ≤ intMax) : arena.newCapacity size ≤ intMax := by
  rw [newCapacity, defaultArenaSize]
  rw [intMax] at *
  split_ifs <;> omega

end Align

namespace Laid

variable {arena : Arena} {live : List Region}

theorem sound {s : State} (laid : Laid host host.pointerSize s.arena s.live)
    (counted : Counted s.arena) : Sound host s where
  disjoint := laid.disjoint
  inside := by
    intro region member
    obtain ⟨-, block, isBlock, inBlock⟩ := laid.placed region member
    have high := (laid.valid block isBlock).high
    exact ⟨block, isBlock, inBlock.low, inBlock.ends.trans (by omega)⟩
  aligned := fun region member => (laid.placed region member).1
  total := counted.total

/-- An address of the first block is in no other. -/
theorem apart_of_head {head : Block} {rest : List Block} (laid : Laid host unit arena live)
    (blocks : arena.blocks = head :: rest) {other : Block} (member : other ∈ rest) (address : Int)
    (inHead : head.memory ≤ address ∧ address < head.memory + head.capacity) :
    ¬(other.memory ≤ address ∧ address < other.memory + other.offset) := by
  have apart := laid.apart
  rw [blocks] at apart
  have high := (laid.valid other (by rw [blocks]; exact List.mem_cons_of_mem _ member)).high
  rcases (List.pairwise_cons.mp apart).1 other member with below | above
  · omega
  · omega

/-- Regions may be replaced when more of the first block is handed out. -/
theorem extend {head : Block} {rest : List Block} {taken : Int} {live' : List Region}
    (laid : Laid host unit arena live) (blocks : arena.blocks = head :: rest) (low : 0 < taken)
    (hasRoom : head.offset + taken ≤ head.capacity)
    (placed : ∀ region ∈ live', region ∈ live ∨ region.ptr % unit = 0 ∧
      region.In { head with offset := head.offset + taken })
    (disjoint : live'.Pairwise Region.Apart) :
    Inv host unit { arena with blocks := { head with offset := head.offset + taken } :: rest }
      live' := by
  have isHead : head ∈ arena.blocks := by
    rw [blocks]
    exact List.mem_cons_self
  have valid := laid.valid head isHead
  have apart := laid.apart
  rw [blocks] at apart
  have offsetLow := valid.low
  constructor
  · constructor
    · exact laid.divides
    · intro block member
      rcases List.mem_cons.mp member with rfl | isRest
      · exact ⟨valid.positive, valid.aligned, by simp only; omega, hasRoom, valid.isInt⟩
      · exact laid.valid block (by rw [blocks]; exact List.mem_cons_of_mem _ isRest)
    · obtain ⟨apartHead, apartRest⟩ := List.pairwise_cons.mp apart
      exact List.pairwise_cons.mpr ⟨apartHead, apartRest⟩
    · exact laid.sized
    · intro region member
      rcases placed region member with isOld | ⟨aligned, inHead⟩
      · obtain ⟨aligned, block, isBlock, inBlock⟩ := laid.placed region isOld
        have starts := inBlock.starts
        have ends := inBlock.ends
        rw [blocks] at isBlock
        rcases List.mem_cons.mp isBlock with rfl | isRest
        · exact ⟨aligned, _, List.mem_cons_self, inBlock.low, by simp only; omega,
            by simp only; omega⟩
        · exact ⟨aligned, block, List.mem_cons_of_mem _ isRest, inBlock⟩
      · exact ⟨aligned, _, List.mem_cons_self, inHead⟩
    · exact disjoint
  · exact List.cons_ne_nil _ _
  · intro head' rest' same _
    obtain ⟨rfl, -⟩ := List.cons.inj same
    simp only
    omega

/-- The regions are apart from what is not handed out of the first block. -/
theorem apart_fresh {head : Block} {rest : List Block} (laid : Laid host unit arena live)
    (blocks : arena.blocks = head :: rest) {region : Region} (member : region ∈ live)
    {address : Int} (covers : region.Covers address) :
    ¬(head.memory + head.offset ≤ address ∧ address < head.memory + head.capacity) := by
  intro fresh
  obtain ⟨-, block, isBlock, inBlock⟩ := laid.placed region member
  have ends := inBlock.ends
  have low := inBlock.low
  have offsetLow := (laid.valid head (by rw [blocks]; exact List.mem_cons_self)).low
  rw [Region.Covers] at covers
  rw [blocks] at isBlock
  rcases List.mem_cons.mp isBlock with rfl | isRest
  · omega
  · exact laid.apart_of_head blocks isRest address (by omega) (by omega)

/-- The next bytes of the first block become a region. -/
theorem take {head : Block} {rest : List Block} {size taken : Int}
    (laid : Laid host unit arena live) (blocks : arena.blocks = head :: rest) (positive : 0 < size)
    (enough : size ≤ taken) (hasRoom : head.offset + taken ≤ head.capacity)
    (lands : head.offset % unit = 0) :
    Inv host unit { arena with blocks := { head with offset := head.offset + taken } :: rest }
      (⟨head.memory + head.offset, size⟩ :: live) := by
  have valid := laid.valid head (by rw [blocks]; exact List.mem_cons_self)
  have offsetLow := valid.low
  apply laid.extend blocks (by omega) hasRoom
  · intro region member
    rcases List.mem_cons.mp member with rfl | isOld
    · right
      constructor
      · rw [Int.add_emod, valid.aligned, lands]
        simp
      · constructor <;> simp only <;> omega
    · exact .inl isOld
  · apply List.pairwise_cons.mpr
    constructor
    · intro region member address covers covers'
      rw [Region.Covers] at covers
      exact laid.apart_fresh blocks member covers' (by simp only at covers; omega)
    · exact laid.disjoint

/-- A new block in front. -/
theorem addBlock {memory size : Int} (laid : Laid host unit arena live) (positive : 0 < size)
    (isInt : size ≤ intMax)
    (supplies : Supplies host arena memory (arena.newCapacity size)) :
    Laid host unit (arena.addBlock memory size) live := by
  have enough := arena.newCapacity_ge size
  constructor
  · exact laid.divides
  · intro block member
    rcases List.mem_cons.mp member with rfl | isOld
    · refine ⟨supplies.positive, ?_, le_rfl, by simp only; omega,
        arena.newCapacity_le isInt laid.sized⟩
      exact Int.emod_eq_zero_of_dvd
        (laid.divides.trans (Int.dvd_of_emod_eq_zero supplies.aligned))
    · exact laid.valid block isOld
  · exact List.pairwise_cons.mpr ⟨supplies.apart, laid.apart⟩
  · exact laid.sized
  · intro region member
    obtain ⟨aligned, block, isBlock, inBlock⟩ := laid.placed region member
    exact ⟨aligned, block, List.mem_cons_of_mem _ isBlock, inBlock⟩
  · exact laid.disjoint

end Laid

namespace Inv

variable {arena : Arena} {live : List Region}

/-- Regions may be given up. -/
theorem sublist {live' : List Region} (inv : Inv host unit arena live) (fewer : live'.Sublist live) :
    Inv host unit arena live' :=
  { inv with
    placed := fun region member => inv.placed region (fewer.subset member)
    disjoint := inv.disjoint.sublist fewer }

/-- The order of the regions does not matter. -/
theorem perm {live' : List Region} (inv : Inv host unit arena live) (same : live'.Perm live) :
    Inv host unit arena live' :=
  { inv with
    placed := fun region member => inv.placed region (same.subset member)
    disjoint := (same.pairwise_iff Region.Apart.symm).mpr inv.disjoint }

/-- `arena_alloc` returns a region that is apart from the others. -/
theorem alloc {memory size ptr : Int} {arena' : Arena} (inv : Inv host unit arena live)
    (takes : 0 < size → Takes host unit arena size)
    (supplies : Supplies host arena memory (arena.newCapacity (alignSize host size)))
    (returned : arenaAlloc host memory arena size = some (ptr, arena')) :
    Inv host unit arena' (⟨ptr, size⟩ :: live) := by
  rw [arenaAlloc] at returned
  split_ifs at returned with notPositive
  have positive : 0 < size := by omega
  have takes := takes positive
  obtain ⟨enough, -, -⟩ := alignSize_bounds positive takes.rounds
  obtain ⟨head, rest, blocks⟩ := List.exists_cons_of_ne_nil inv.nonempty
  have isHead : head ∈ arena.blocks.head? := by
    rw [blocks]
    rfl
  have valid := inv.valid head (by rw [blocks]; exact List.mem_cons_self)
  have low := valid.low
  have sums := takes.sums head isHead
  have isSum : wrap (head.offset + alignSize host size) = head.offset + alignSize host size :=
    wrap_eq (by omega) sums
  by_cases hasRoom : head.offset + alignSize host size ≤ head.capacity
  · have served : arena.needsBlock (alignSize host size) = false := by
      rw [Arena.needsBlock, blocks]
      simp only [isSum, gt_iff_lt, decide_eq_false_iff_not, not_lt]
      exact hasRoom
    simp only [served, Arena.take, blocks, isSum, Bool.false_eq_true, if_false,
      Option.some.injEq, Prod.mk.injEq] at returned
    obtain ⟨rfl, rfl⟩ := returned
    exact inv.toLaid.take blocks positive enough hasRoom (takes.lands head isHead hasRoom)
  · have served : arena.needsBlock (alignSize host size) = true := by
      rw [Arena.needsBlock, blocks]
      simp only [isSum, gt_iff_lt, decide_eq_true_eq]
      omega
    have isInt : alignSize host size ≤ intMax := by omega
    have added := inv.toLaid.addBlock (by omega) isInt supplies
    have isZero : wrap (0 + alignSize host size) = 0 + alignSize host size :=
      wrap_eq (by omega) (by omega)
    simp only [served, Arena.take, if_true, Arena.addBlock, isZero, Option.some.injEq,
      Prod.mk.injEq] at returned
    obtain ⟨rfl, rfl⟩ := returned
    have hasRoom := arena.newCapacity_ge (alignSize host size)
    exact added.take rfl positive enough (by simp only; omega) (by simp)

end Inv

/-- `arena_alloc` counts a block that it creates. -/
theorem Counted.alloc {arena arena' : Arena} {live : List Region} {memory size ptr : Int}
    (counted : Counted arena) (inv : Inv host unit arena live)
    (takes : 0 < size → Takes host unit arena size) (counts : 0 < size → Counts host arena size)
    (returned : arenaAlloc host memory arena size = some (ptr, arena')) : Counted arena' := by
  rw [arenaAlloc] at returned
  split_ifs at returned with notPositive
  have takes := takes (by omega)
  have counts := counts (by omega)
  obtain ⟨head, rest, blocks⟩ := List.exists_cons_of_ne_nil inv.nonempty
  have isHead : head ∈ arena.blocks.head? := by
    rw [blocks]
    rfl
  have low := (inv.valid head (by rw [blocks]; exact List.mem_cons_self)).low
  have bounds := @alignSize_bounds host size (by omega) takes.rounds
  have isSum : wrap (head.offset + alignSize host size) = head.offset + alignSize host size :=
    wrap_eq (by omega) (takes.sums head isHead)
  have total := counted.total
  by_cases full : arena.needsBlock (alignSize host size) = true
  · simp only [full, if_true] at returned
    rw [Arena.needsBlock, blocks] at full
    simp only [isSum, gt_iff_lt, decide_eq_true_eq] at full
    have isInt := counts head isHead full
    have isTotal : 0 ≤ arena.totalBytes := by
      rw [total]
      exact sum_capacity_nonneg fun block member => (inv.valid block member).capacity_nonneg
    have enough := arena.newCapacity_ge (alignSize host size)
    have isWrap := wrap_eq (by omega) isInt
    simp only [Arena.take, Arena.addBlock, Option.some.injEq, Prod.mk.injEq] at returned
    obtain ⟨-, rfl⟩ := returned
    constructor
    · simp only [List.map_cons, List.sum_cons, isWrap]
      omega
    · exact Libc.wrap_le _
  · simp only [full, Bool.false_eq_true, if_false, Arena.take, blocks, Option.some.injEq,
      Prod.mk.injEq] at returned
    obtain ⟨-, rfl⟩ := returned
    constructor
    · rw [blocks] at total
      exact total
    · exact counted.isInt

end Shecc.Arenas
