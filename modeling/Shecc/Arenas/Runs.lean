import Mathlib.Data.List.TakeWhile
import Shecc.Arenas.Regions

/-!
# Runs of the allocator

Every request keeps the invariant of the regions, when it is served within the range of an `int`
and does not take up a current block that was left at an odd offset.
-/

namespace Shecc.Arenas

open Libc (wrap intMax wrap_eq)

variable {host : Host} {unit : Int} {arena arena' : Arena} {live : List Region}

/-! ## Reallocating -/

namespace Inv

/-- A region may be replaced by its front part. -/
theorem shrink {oldptr oldsz newsz : Int} (inv : Inv host unit arena live)
    (member : ⟨oldptr, oldsz⟩ ∈ live) (smaller : newsz ≤ oldsz) :
    Inv host unit arena (⟨oldptr, newsz⟩ :: live.erase ⟨oldptr, oldsz⟩) := by
  have inv := inv.perm (List.perm_cons_erase member).symm
  obtain ⟨apart, disjoint⟩ := List.pairwise_cons.mp inv.disjoint
  constructor
  · refine { inv with placed := ?_, disjoint := ?_ }
    · intro region isNew
      rcases List.mem_cons.mp isNew with rfl | isOld
      · obtain ⟨aligned, block, isBlock, inBlock⟩ := inv.placed _ List.mem_cons_self
        have ends := inBlock.ends
        exact ⟨aligned, block, isBlock, inBlock.low, inBlock.starts, by simp only at *; omega⟩
      · exact inv.placed region (List.mem_cons_of_mem _ isOld)
    · apply List.pairwise_cons.mpr
      constructor
      · intro region isOld address covers
        apply apart region isOld address
        simp only [Region.Covers] at covers ⊢
        omega
      · exact disjoint
  · exact inv.nonempty
  · exact inv.used

/-- A region that ends where the first block is handed out to lies in the first block. -/
theorem last_in_head {head : Block} {rest : List Block} {region : Region}
    (inv : Inv host unit arena live) (blocks : arena.blocks = head :: rest) (member : region ∈ live)
    (positive : 0 < region.size) (last : region.ptr + region.size = head.memory + head.offset) :
    region.In head := by
  obtain ⟨-, block, isBlock, inBlock⟩ := inv.placed region member
  have low := inBlock.low
  have ends := inBlock.ends
  have isBlock' := isBlock
  rw [blocks] at isBlock
  rcases List.mem_cons.mp isBlock with rfl | isRest
  · exact inBlock
  · have inUse := inv.used head rest blocks (List.ne_nil_of_mem isRest)
    have high := (inv.valid head (by rw [blocks]; exact List.mem_cons_self)).high
    have blockHigh := (inv.valid block isBlock').high
    have apart := inv.apart
    rw [blocks] at apart
    rcases (List.pairwise_cons.mp apart).1 block isRest with below | above
    · omega
    · omega

/-- The last region of the first block grows where it is. -/
theorem grow {head : Block} {rest : List Block} {oldptr oldsz newsz : Int}
    (inv : Inv host unit arena live) (blocks : arena.blocks = head :: rest)
    (member : ⟨oldptr, oldsz⟩ ∈ live) (positive : 0 < oldsz) (larger : oldsz < newsz)
    (last : oldptr + oldsz = head.memory + head.offset)
    (hasRoom : head.offset + (newsz - oldsz) ≤ head.capacity) :
    Inv host unit
      { arena with blocks := { head with offset := head.offset + (newsz - oldsz) } :: rest }
      (⟨oldptr, newsz⟩ :: live.erase ⟨oldptr, oldsz⟩) := by
  have inHead := inv.last_in_head blocks member positive last
  have low := inHead.low
  have starts := inHead.starts
  have inv := inv.perm (List.perm_cons_erase member).symm
  obtain ⟨apart, disjoint⟩ := List.pairwise_cons.mp inv.disjoint
  simp only at low starts
  apply inv.toLaid.extend blocks (by omega) hasRoom
  · intro region isNew
    rcases List.mem_cons.mp isNew with rfl | isOld
    · right
      constructor
      · exact (inv.placed _ List.mem_cons_self).1
      · constructor <;> simp only <;> omega
    · exact .inl (List.mem_cons_of_mem _ isOld)
  · apply List.pairwise_cons.mpr
    constructor
    · intro region isOld address covers covers'
      -- The bytes that are added were not handed out.
      have fresh := inv.toLaid.apart_fresh blocks (List.mem_cons_of_mem _ isOld) covers'
      have old := apart region isOld address
      simp only [Region.Covers] at covers covers' old
      by_cases inOld : address < oldptr + oldsz
      · exact old ⟨covers.1, inOld⟩ covers'
      · exact fresh ⟨by omega, by omega⟩
    · exact disjoint

/-- `arena_realloc` returns the region, grows it in place or moves it. -/
theorem realloc_cases {memory oldptr oldsz newsz ptr : Int} {bytes bytes' : Bytes}
    (inv : Inv host unit arena live) (isRegion : oldptr = 0 ∨ 0 ≤ oldsz)
    (sums : oldsz < newsz → ∀ head ∈ arena.blocks.head?, oldptr ≠ 0 →
      oldptr + oldsz = head.memory + head.offset → head.offset + (newsz - oldsz) ≤ intMax)
    (returned : arenaRealloc host memory arena bytes oldptr oldsz newsz =
      some (ptr, arena', bytes')) :
    (oldptr ≠ 0 ∧ newsz ≤ oldsz ∧ ptr = oldptr ∧ arena' = arena ∧ bytes' = bytes) ∨
    (∃ head rest, arena.blocks = head :: rest ∧ oldptr ≠ 0 ∧ 0 < oldsz ∧ oldsz < newsz ∧
      oldptr + oldsz = head.memory + head.offset ∧
      head.offset + (newsz - oldsz) ≤ head.capacity ∧ ptr = oldptr ∧ bytes' = bytes ∧
      arena' = { arena with
        blocks := { head with offset := head.offset + (newsz - oldsz) } :: rest }) ∨
    (oldsz < newsz ∧ ¬InPlace arena oldptr oldsz newsz ∧
      arenaAlloc host memory arena newsz = some (ptr, arena') ∧
      bytes' = if oldptr = 0 then bytes else bytes.copy ptr oldptr oldsz) := by
  rw [arenaRealloc] at returned
  split_ifs at returned with isNull notZero isZero smaller
  · simp only [Option.bind_eq_bind, Option.pure_def, Option.bind_eq_some_iff, Option.some.injEq,
      Prod.mk.injEq, Prod.exists] at returned
    obtain ⟨ptr', arena'', again, rfl, rfl, rfl⟩ := returned
    have positive : 0 < newsz := by
      by_contra notPositive
      rw [arenaAlloc, if_pos (by omega)] at again
      exact absurd again (by simp)
    exact .inr (.inr ⟨by omega, fun inPlace => inPlace.1 isNull, again, (if_pos isNull).symm⟩)
  · simp only [Option.some.injEq, Prod.mk.injEq] at returned
    obtain ⟨rfl, rfl, rfl⟩ := returned
    exact .inl ⟨isNull, smaller, rfl, rfl, rfl⟩
  · have nonNegative := isRegion.resolve_left isNull
    obtain ⟨head, rest, blocks⟩ := List.exists_cons_of_ne_nil inv.nonempty
    have isHead : head ∈ arena.blocks.head? := by
      rw [blocks]
      rfl
    have valid := inv.valid head (by rw [blocks]; exact List.mem_cons_self)
    have low := valid.low
    have high := valid.high
    have isInt := valid.isInt
    simp only [blocks] at returned
    have noWrap (last : oldptr + oldsz = head.memory + head.offset) :
        wrap (head.offset + wrap (newsz - oldsz)) = head.offset + (newsz - oldsz) := by
      have := sums (by omega) head isHead isNull last
      rw [wrap_eq (x := newsz - oldsz) (by omega) (by omega), wrap_eq (by omega) this]
    split_ifs at returned with inPlace
    · simp only [Option.some.injEq, Prod.mk.injEq] at returned
      obtain ⟨rfl, rfl, rfl⟩ := returned
      rw [noWrap inPlace.1] at inPlace ⊢
      exact .inr (.inl ⟨head, rest, blocks, isNull, by omega, by omega, inPlace.1, inPlace.2, rfl,
        rfl, rfl⟩)
    · simp only [Option.bind_eq_bind, Option.pure_def, Option.bind_eq_some_iff, Option.some.injEq,
        Prod.mk.injEq, Prod.exists] at returned
      obtain ⟨ptr', arena'', again, rfl, rfl, rfl⟩ := returned
      refine .inr (.inr ⟨by omega, ?_, again, (if_neg isNull).symm⟩)
      rintro ⟨-, fits⟩
      obtain ⟨last, hasRoom⟩ := fits head isHead
      rw [noWrap last] at inPlace
      exact inPlace ⟨last, hasRoom⟩

end Inv

/-- What `arena_realloc` returns starts with the bytes there were. -/
theorem arenaRealloc_bytes {memory oldptr oldsz newsz ptr : Int} {bytes bytes' : Bytes}
    (isPtr : oldptr ≠ 0)
    (returned : arenaRealloc host memory arena bytes oldptr oldsz newsz =
      some (ptr, arena', bytes'))
    {i : Int} (low : 0 ≤ i) (high : i < min oldsz newsz) :
    bytes' (ptr + i) = bytes (oldptr + i) := by
  rw [arenaRealloc, if_neg isPtr] at returned
  split_ifs at returned with isZero smaller
  · simp only [Option.some.injEq, Prod.mk.injEq] at returned
    obtain ⟨rfl, rfl, rfl⟩ := returned
    rfl
  · split at returned
    · exact absurd returned (by simp)
    · simp only at returned
      split_ifs at returned with inPlace
      · simp only [Option.some.injEq, Prod.mk.injEq] at returned
        obtain ⟨rfl, rfl, rfl⟩ := returned
        rfl
      · simp only [Option.bind_eq_bind, Option.pure_def, Option.bind_eq_some_iff,
          Option.some.injEq, Prod.mk.injEq, Prod.exists] at returned
        obtain ⟨ptr', arena'', again, rfl, rfl, rfl⟩ := returned
        rw [Bytes.copy, if_pos (by omega)]
        congr 1
        omega

/-! ## Compaction -/

theorem keptBlocks_append_drop (blocks : List Block) :
    keptBlocks blocks ++ blocks.drop (keptBlocks blocks).length = blocks := by
  apply List.prefix_iff_eq_append.mp
  rw [keptBlocks]
  split_ifs
  · exact List.take_prefix 1 blocks
  · rw [← List.reverse_suffix, List.reverse_reverse]
    exact List.dropWhile_suffix _

theorem keptBlocks_ne_nil {blocks : List Block} (nonempty : blocks ≠ []) :
    keptBlocks blocks ≠ [] := by
  rw [keptBlocks]
  split_ifs with isEmpty
  · cases blocks with
    | nil => exact absurd rfl nonempty
    | cons => simp
  · exact isEmpty

/-- A block in use is kept. -/
theorem mem_keptBlocks {blocks : List Block} {block : Block} (member : block ∈ blocks)
    (inUse : 0 < block.offset) : block ∈ keptBlocks blocks := by
  have isUsed :
      block ∈ blocks.reverse.dropWhile fun block => !decide (block.offset > 0) := by
    have split := List.takeWhile_append_dropWhile
      (p := fun block : Block => !decide (block.offset > 0)) (l := blocks.reverse)
    have member : block ∈ blocks.reverse := List.mem_reverse.mpr member
    rw [← split] at member
    rcases List.mem_append.mp member with isFree | isUsed
    · have := List.mem_takeWhile_imp isFree
      simp only [gt_iff_lt, Bool.not_eq_eq_eq_not, Bool.not_true, decide_eq_false_iff_not] at this
      exact absurd inUse this
    · exact isUsed
  rw [keptBlocks, if_neg]
  · exact List.mem_reverse.mpr isUsed
  · intro isEmpty
    rw [List.reverse_eq_nil_iff] at isEmpty
    rw [isEmpty] at isUsed
    exact absurd isUsed List.not_mem_nil

/-- Subtracting the capacities of blocks stays in range. -/
theorem foldl_sub {freed : List Block} {total : Int} (isInt : total ≤ intMax)
    (capacities : ∀ block ∈ freed, 0 ≤ block.capacity)
    (enough : (freed.map Block.capacity).sum ≤ total) :
    freed.foldl (fun sum block => wrap (sum - block.capacity)) total =
      total - (freed.map Block.capacity).sum := by
  induction freed generalizing total with
  | nil => simp
  | cons block freed inductionHypothesis =>
      have nonNegative := capacities block List.mem_cons_self
      have rest := sum_capacity_nonneg fun other member =>
        capacities other (List.mem_cons_of_mem block member)
      simp only [List.map_cons, List.sum_cons] at enough ⊢
      rw [List.foldl_cons, wrap_eq (by omega) (by omega),
        inductionHypothesis (by omega)
          (fun other member => capacities other (List.mem_cons_of_mem _ member)) (by omega)]
      omega

/-- `arena_free_trailing_blocks` frees no region. -/
theorem Inv.compact (inv : Inv host unit arena live) :
    Inv host unit (arenaFreeTrailingBlocks arena).2 live := by
  have split := keptBlocks_append_drop arena.blocks
  have isKept : (keptBlocks arena.blocks).Sublist arena.blocks := by
    conv_rhs => rw [← split]
    exact List.sublist_append_left _ _
  constructor
  · constructor
    · exact inv.divides
    · exact fun block member => inv.valid block (isKept.subset member)
    · exact inv.apart.sublist isKept
    · exact inv.sized
    · intro region member
      obtain ⟨aligned, block, isBlock, inBlock⟩ := inv.placed region member
      have low := inBlock.low
      have starts := inBlock.starts
      exact ⟨aligned, block, mem_keptBlocks isBlock (by omega), inBlock⟩
    · exact inv.disjoint
  · exact keptBlocks_ne_nil inv.nonempty
  · intro head rest blocks others
    simp only [arenaFreeTrailingBlocks] at blocks
    apply inv.used head (rest ++ arena.blocks.drop (keptBlocks arena.blocks).length)
    · conv_lhs => rw [← split]
      rw [blocks]
      rfl
    · simp [others]

/-- `arena_free_trailing_blocks` counts the blocks that it frees. -/
theorem Counted.compact (counted : Counted arena)
    (capacities : ∀ block ∈ arena.blocks, 0 ≤ block.capacity) :
    Counted (arenaFreeTrailingBlocks arena).2 := by
  have split := keptBlocks_append_drop arena.blocks
  have sums : (arena.blocks.map Block.capacity).sum =
      ((keptBlocks arena.blocks).map Block.capacity).sum +
        ((arena.blocks.drop (keptBlocks arena.blocks).length).map Block.capacity).sum := by
    conv_lhs => rw [← split]
    rw [List.map_append, List.sum_append]
  have isKept {block : Block} (member : block ∈ keptBlocks arena.blocks) :
      block ∈ arena.blocks := by
    rw [← split]
    exact List.mem_append_left _ member
  have keptSum := sum_capacity_nonneg fun block member => capacities block (isKept member)
  have freedSum := sum_capacity_nonneg fun block member =>
    capacities block (List.mem_of_mem_drop (i := (keptBlocks arena.blocks).length) member)
  have total := counted.total
  have isInt := counted.isInt
  have isTotal : (arenaFreeTrailingBlocks arena).2.totalBytes =
      ((keptBlocks arena.blocks).map Block.capacity).sum := by
    simp only [arenaFreeTrailingBlocks]
    rw [foldl_sub isInt
      (fun block member => capacities block (List.mem_of_mem_drop member)) (by omega)]
    omega
  exact ⟨isTotal, by omega⟩

/-! ## Runs -/

/-- A request keeps the invariant. -/
theorem Inv.serve {memory : Int} {s s' : State} {request : Request}
    (inv : Inv host unit s.arena s.live) (allowed : Allowed s request)
    (supplies : Supplies host s.arena memory
      (s.arena.newCapacity (alignSize host request.wanted)))
    (fits : FitsWith (Takes host unit) s request)
    (served : Arenas.serve host memory s request = some s') : Inv host unit s'.arena s'.live := by
  cases request with
  | alloc size =>
      simp only [Arenas.serve, Option.bind_eq_bind, Option.pure_def, Option.bind_eq_some_iff,
        Option.some.injEq, Prod.exists] at served
      obtain ⟨ptr, arena', returned, rfl⟩ := served
      exact inv.alloc fits supplies returned
  | calloc n size =>
      obtain ⟨isInt, takes⟩ := fits
      simp only [Arenas.serve, Option.bind_eq_bind, Option.pure_def, Option.bind_eq_some_iff,
        Option.some.injEq, Prod.exists, arenaCalloc, Option.ite_none_left_eq_some,
        Prod.mk.injEq] at served
      obtain ⟨ptr, arena', bytes', ⟨-, ptr', arena'', returned, rfl, rfl, -⟩, rfl⟩ := served
      rw [isInt] at returned
      rw [Request.wanted, isInt] at supplies
      exact inv.alloc takes supplies returned
  | realloc oldptr oldsz newsz =>
      simp only [Arenas.serve, Option.bind_eq_bind, Option.pure_def, Option.bind_eq_some_iff,
        Option.some.injEq, Prod.exists] at served
      obtain ⟨ptr, arena', bytes', returned, rfl⟩ := served
      rcases inv.realloc_cases (allowed.imp_right And.left) (fun larger => (fits larger).1)
        returned with ⟨isPtr, smaller, rfl, rfl, -⟩ |
          ⟨head, rest, blocks, isPtr, positive, larger, last, hasRoom, rfl, -, rfl⟩ |
          ⟨larger, notInPlace, again, -⟩
      · exact inv.shrink (allowed.resolve_left isPtr).2 smaller
      · exact inv.grow blocks (allowed.resolve_left isPtr).2 positive larger last hasRoom
      · exact (inv.alloc ((fits larger).2 notInPlace) supplies again).sublist
          (List.erase_sublist.cons_cons _)
  | compact =>
      obtain rfl := Option.some.inj served
      exact inv.compact
  | store address byte =>
      obtain rfl := Option.some.inj served
      exact inv

/-- A request keeps the count of the bytes. -/
theorem Counted.serve {memory : Int} {s s' : State} {request : Request}
    (counted : Counted s.arena) (inv : Inv host unit s.arena s.live) (allowed : Allowed s request)
    (takes : FitsWith (Takes host unit) s request) (counts : FitsWith (Counts host) s request)
    (served : Arenas.serve host memory s request = some s') : Counted s'.arena := by
  cases request with
  | alloc size =>
      simp only [Arenas.serve, Option.bind_eq_bind, Option.pure_def, Option.bind_eq_some_iff,
        Option.some.injEq, Prod.exists] at served
      obtain ⟨ptr, arena', returned, rfl⟩ := served
      exact counted.alloc inv takes counts returned
  | calloc n size =>
      simp only [Arenas.serve, Option.bind_eq_bind, Option.pure_def, Option.bind_eq_some_iff,
        Option.some.injEq, Prod.exists, arenaCalloc, Option.ite_none_left_eq_some,
        Prod.mk.injEq] at served
      obtain ⟨ptr, arena', bytes', ⟨-, ptr', arena'', returned, rfl, rfl, -⟩, rfl⟩ := served
      rw [takes.1] at returned
      exact counted.alloc inv takes.2 counts.2 returned
  | realloc oldptr oldsz newsz =>
      simp only [Arenas.serve, Option.bind_eq_bind, Option.pure_def, Option.bind_eq_some_iff,
        Option.some.injEq, Prod.exists] at served
      obtain ⟨ptr, arena', bytes', returned, rfl⟩ := served
      rcases inv.realloc_cases (allowed.imp_right And.left) (fun larger => (takes larger).1)
        returned with ⟨-, -, -, rfl, -⟩ | ⟨head, rest, blocks, -, -, -, -, -, -, -, rfl⟩ |
          ⟨larger, notInPlace, again, -⟩
      · exact counted
      · refine ⟨?_, counted.isInt⟩
        have total := counted.total
        rw [blocks] at total
        exact total
      · exact counted.alloc inv ((takes larger).2 notInPlace) ((counts larger).2 notInPlace) again
  | compact =>
      obtain rfl := Option.some.inj served
      exact counted.compact fun block member => (inv.valid block member).capacity_nonneg
  | store address byte =>
      obtain rfl := Option.some.inj served
      exact counted

theorem inv_arenaInit {memory initialCapacity : Int} (positive : 0 < initialCapacity)
    (isInt : initialCapacity ≤ intMax) (isMemory : 0 < memory)
    (aligned : memory % host.pointerSize = 0) (divides : unit ∣ host.pointerSize) :
    Inv host unit (arenaInit memory initialCapacity) [] := by
  constructor
  · constructor
    · exact divides
    · intro block member
      obtain rfl := List.mem_singleton.mp member
      refine ⟨isMemory, ?_, le_rfl, by simp only; omega, isInt⟩
      exact Int.emod_eq_zero_of_dvd (divides.trans (Int.dvd_of_emod_eq_zero aligned))
    · exact List.pairwise_singleton _ _
    · exact isInt
    · intro region member
      exact absurd member List.not_mem_nil
    · exact List.Pairwise.nil
  · exact List.cons_ne_nil _ _
  · intro head rest blocks others
    simp only [arenaInit, List.cons.injEq] at blocks
    exact absurd blocks.2.symm others

theorem FitsWith.mono {ok ok' : Arena → Int → Prop} {s : State} {request : Request}
    (weaker : ∀ arena size, ok arena size → ok' arena size) (fits : FitsWith ok s request) :
    FitsWith ok' s request := by
  cases request with
  | alloc size => exact fun positive => weaker _ _ (fits positive)
  | calloc n size => exact ⟨fits.1, fun positive => weaker _ _ (fits.2 positive)⟩
  | realloc oldptr oldsz newsz =>
      exact fun larger => ⟨(fits larger).1,
        fun notInPlace positive => weaker _ _ ((fits larger).2 notInPlace positive)⟩
  | compact => trivial
  | store address byte => trivial

/-- The invariant holds in every run. -/
theorem Runs.inv {s : State} (runs : Runs host (Fits host) s) :
    Inv host host.pointerSize s.arena s.live ∧ Counted s.arena := by
  induction runs with
  | start bytes positive isInt isMemory aligned =>
      exact ⟨inv_arenaInit positive isInt isMemory aligned dvd_rfl, by simp [arenaInit], isInt⟩
  | step before meets step inductionHypothesis =>
      obtain ⟨inv, counted⟩ := inductionHypothesis
      obtain ⟨memory, allowed, supplies, served⟩ := step
      have takes := meets.mono fun _ _ => And.left
      exact ⟨inv.serve allowed supplies takes served,
        counted.serve inv allowed takes (meets.mono fun _ _ => And.right) served⟩

theorem Step.preserves {s s' : State} {request : Request} (step : Step host s request s') :
    Preserves s s' request := by
  obtain ⟨memory, -, -, served⟩ := step
  cases request with
  | realloc oldptr oldsz newsz =>
      intro isPtr
      simp only [Arenas.serve, Option.bind_eq_bind, Option.pure_def, Option.bind_eq_some_iff,
        Option.some.injEq, Prod.exists] at served
      obtain ⟨ptr, arena', bytes', returned, rfl⟩ := served
      exact ⟨ptr, _, rfl, fun i low high => arenaRealloc_bytes isPtr returned low high⟩
  | _ => trivial

/-- In every run whose requests are served right, the allocator keeps its contract. -/
theorem runs_sound {s : State} (runs : Runs host (Fits host) s) :
    Sound host s ∧ ∀ request s', Step host s request s' → Preserves s s' request :=
  ⟨runs.inv.1.toLaid.sound runs.inv.2, fun _ _ step => step.preserves⟩

/-! ## A region that grows -/

/-- An arena of 64 bytes in a memory of zeros. -/
def smallArena (offset : Int) (live : List Region) : State :=
  ⟨⟨[⟨4096, 64, offset⟩], 64, 64⟩, fun _ => 0, live⟩

theorem smallArena_supplies (offset size : Int) (live : List Region) :
    Supplies .wide (smallArena offset live).arena 1048576
      ((smallArena offset live).arena.newCapacity size) where
  positive := by decide
  aligned := by decide
  apart := by
    intro block member
    obtain rfl := List.mem_singleton.mp member
    exact .inr (by simp)

/-- A region of 8 bytes is returned, and grows to 13. -/
theorem smallArena_runs (ok : State → Request → Prop) (first : ok (smallArena 0 []) (.alloc 8))
    (second : ok (smallArena 8 [⟨4096, 8⟩]) (.realloc 4096 8 13)) :
    Runs .wide ok (smallArena 13 [⟨4096, 13⟩]) := by
  have start : Runs .wide ok (smallArena 0 []) :=
    .start _ (by decide) (by decide) (by decide) (by decide)
  have allocated : Runs .wide ok (smallArena 8 [⟨4096, 8⟩]) :=
    start.step first ⟨1048576, trivial, smallArena_supplies _ _ _, rfl⟩
  exact allocated.step second
    ⟨1048576, .inr ⟨by decide, List.mem_singleton_self _⟩, smallArena_supplies _ _ _, rfl⟩

theorem smallArena_takes {offset : Int} {live : List Region} (hasRoom : offset ≤ 56)
    (lands : offset % 8 = 0) :
    Takes .wide 8 (smallArena offset live).arena 8 ∧
      Counts .wide (smallArena offset live).arena 8 := by
  have isAligned : alignSize .wide 8 = 8 := rfl
  constructor
  · constructor
    · decide
    · intro head isHead
      obtain rfl := Option.mem_some.mp isHead
      simp only [isAligned, intMax]
      omega
    · intro head isHead _
      obtain rfl := Option.mem_some.mp isHead
      exact lands
  · intro head isHead full
    obtain rfl := Option.mem_some.mp isHead
    simp only [isAligned] at full
    omega

theorem smallArena_inPlace {offset newsz : Int} {live : List Region} (isRoom : newsz ≤ 64)
    (larger : offset < newsz) :
    Fits .wide (smallArena offset live) (.realloc 4096 offset newsz) := by
  intro _
  constructor
  · intro head isHead _ _
    obtain rfl := Option.mem_some.mp isHead
    simp only [intMax]
    omega
  · intro notInPlace
    apply absurd _ notInPlace
    constructor
    · decide
    · intro head isHead
      obtain rfl := Option.mem_some.mp isHead
      exact ⟨rfl, by simp only; omega⟩

/-- The region grows on to 16 bytes before the next one is returned. -/
theorem grown_sound : Sound .wide (smallArena 24 [⟨4112, 8⟩, ⟨4096, 16⟩]) := by
  have grown := smallArena_runs (Fits .wide) (fun _ => smallArena_takes (by decide) rfl)
    (smallArena_inPlace (by decide) (by decide))
  have again : Step .wide (smallArena 13 [⟨4096, 13⟩]) (.realloc 4096 13 16)
      (smallArena 16 [⟨4096, 16⟩]) :=
    ⟨1048576, .inr ⟨by decide, List.mem_singleton_self _⟩, smallArena_supplies _ _ _, rfl⟩
  have aligned := grown.step (smallArena_inPlace (by decide) (by decide)) again
  have next : Step .wide (smallArena 16 [⟨4096, 16⟩]) (.alloc 8)
      (smallArena 24 [⟨4112, 8⟩, ⟨4096, 16⟩]) :=
    ⟨1048576, trivial, smallArena_supplies _ _ _, rfl⟩
  have fits : Fits .wide (smallArena 16 [⟨4096, 16⟩]) (.alloc 8) :=
    fun _ => smallArena_takes (by decide) rfl
  exact (runs_sound (aligned.step fits next)).1

/-- The next region after 13 bytes is not aligned. -/
theorem grown_not_sound :
    ¬∀ s, Runs .wide (fun _ _ => True) s →
      Sound .wide s ∧ ∀ request s', Step .wide s request s' → Preserves s s' request := by
  intro sound
  have grown := smallArena_runs (fun _ _ => True) trivial trivial
  have next : Step .wide (smallArena 13 [⟨4096, 13⟩]) (.alloc 8)
      (smallArena 21 [⟨4109, 8⟩, ⟨4096, 13⟩]) :=
    ⟨1048576, trivial, smallArena_supplies _ _ _, rfl⟩
  have aligned := (sound _ (grown.step trivial next)).1.aligned ⟨4109, 8⟩ List.mem_cons_self
  exact absurd aligned (by decide)

end Shecc.Arenas
