import Shecc.Libc.HeapSteps
import Mathlib.Algebra.Order.Ring.Int
import Mathlib.Data.List.Perm.Subperm

/-!
# The lists of chunks

Over any calls of `malloc`, `calloc` and `free` every chunk is on the allocated or on the
free list, which are linked both ways, and its lowest size bit says on which. So a call of
`free` detects a chunk that is free and accepts one in use.
-/

namespace Shecc.Libc

open Function (update update_self update_of_ne)
open Shecc.DoublyLinked

/-- Two regions share nothing. -/
def Region.Apart (region other : Region) : Prop :=
  region.start + region.length ≤ other.start ∨ other.start + other.length ≤ region.start

/-- What the library relies on: a region of the system starts at a page, not at `NULL`, and
shares nothing with those mapped before. -/
structure Mmap.Fresh (system : Mmap) : Prop where
  aligned : ∀ mapped length, 4096 ∣ system mapped length
  notNull : ∀ mapped length, system mapped length ≠ 0
  apart : ∀ mapped length, ∀ region ∈ mapped, Region.Apart ⟨system mapped length, length⟩ region

/-- A list of chunks, linked both ways, that are all marked as free or all not. -/
structure Heap.Chain (s : Heap) (freed : Bool) (chunks : List Nat) : Prop where
  linked : Linked s.next s.prev 0 chunks 0
  bit : ∀ chunk ∈ chunks, isChunkGetFreed (s.size chunk) = freed

/-- The regions are pages apart from each other, and the chunks hold their sizes. -/
structure Heap.Laid (s : Heap) (chunks : List Nat) : Prop where
  pages : ∀ region ∈ s.mapped, 4096 ∣ region.start ∧ 4096 ≤ region.length
  apart : s.mapped.Pairwise Region.Apart
  lengths : ∀ region ∈ s.mapped, region.start ∈ chunks →
    unsigned (chunkGetSize (s.size region.start)) = region.length

/-- The chunks are those of the allocated list, of the free list and of neither, each once.
The lists start and end where the variables say. -/
structure Heap.Holds (s : Heap) (alloc free loose : List Nat) : Prop where
  allocChain : s.Chain false alloc
  freeChain : s.Chain true free
  allocHead : s.allocHead = alloc.headD 0
  allocTail : s.allocTail = alloc.getLastD 0
  freelistHead : s.freelistHead = free.headD 0
  listed : (s.mapped.map Region.start).Perm (loose ++ (alloc ++ free))
  notNull : ¬s.Valid 0
  laid : s.Laid (loose ++ (alloc.tail ++ free.dropLast))

section Bits

theorem chunkGetSize_even (size : Int) : isChunkGetFreed (chunkGetSize size) = false := by
  simp [isChunkGetFreed, chunkGetSize]

theorem chunkGetSize_marked (size : Int) : isChunkGetFreed (chunkGetSize size + 1) = true := by
  simp only [isChunkGetFreed, chunkGetSize, beq_iff_eq]
  omega

theorem chunkGetSize_idem (size : Int) : chunkGetSize (chunkGetSize size) = chunkGetSize size := by
  simp [chunkGetSize]

theorem chunkGetSize_unmarked (size : Int) :
    chunkGetSize (chunkGetSize size + 1) = chunkGetSize size := by
  simp only [chunkGetSize]
  omega

/-- Only the lowest bit of a size changes. -/
theorem chunkGetSize_update {sizes : Nat → Int} {chunk : Nat} {field : Int}
    (same : chunkGetSize field = chunkGetSize (sizes chunk)) (other : Nat) :
    chunkGetSize (update sizes chunk field other) = chunkGetSize (sizes other) := by
  by_cases isChunk : other = chunk
  · rw [isChunk, update_self, same]
  · rw [update_of_ne isChunk]

end Bits

/-! ## The search -/

section Search

variable {s : Heap} {size bestSize : Int} {best : Nat} {seen rest : List Nat}

/-- `best` is the first smallest of the chunks seen that are large enough. -/
def Heap.Best (s : Heap) (size : Int) (seen : List Nat) (best : Nat) (bestSize : Int) : Prop :=
  (best = 0 ∧ ∀ chunk ∈ seen, chunkGetSize (s.size chunk) < size) ∨
    (best ∈ seen ∧ bestSize = chunkGetSize (s.size best) ∧ size ≤ bestSize ∧
      ∀ chunk ∈ seen, size ≤ chunkGetSize (s.size chunk) → bestSize ≤ chunkGetSize (s.size chunk))

theorem Heap.Best.take {chunk : Nat} (isBest : s.Best size seen best bestSize)
    (notNull : ∀ chunk ∈ seen, chunk ≠ 0)
    (better : chunkGetSize (s.size chunk) ≥ size ∧
      (best = 0 ∨ chunkGetSize (s.size chunk) < bestSize)) :
    s.Best size (seen ++ [chunk]) chunk (chunkGetSize (s.size chunk)) := by
  right
  refine ⟨by simp, rfl, better.1, ?_⟩
  intro other member enough
  rw [List.mem_append, List.mem_singleton] at member
  rcases member with member | rfl
  · rcases isBest with ⟨-, small⟩ | ⟨isSeen, -, -, least⟩
    · exact absurd enough (not_le.mpr (small other member))
    · rcases better.2 with isNull | smaller
      · exact absurd isNull (notNull best isSeen)
      · exact (le_of_lt smaller).trans (least other member enough)
  · exact le_refl _

theorem Heap.Best.keep {chunk : Nat} (isBest : s.Best size seen best bestSize)
    (worse : ¬(chunkGetSize (s.size chunk) ≥ size ∧
      (best = 0 ∨ chunkGetSize (s.size chunk) < bestSize))) :
    s.Best size (seen ++ [chunk]) best bestSize := by
  rcases isBest with ⟨isNull, small⟩ | ⟨isSeen, sameSize, fits, least⟩
  · left
    refine ⟨isNull, List.forall_mem_append.mpr ⟨small, ?_⟩⟩
    rw [List.forall_mem_singleton, ← not_le]
    intro enough
    exact worse ⟨enough, .inl isNull⟩
  · right
    refine ⟨by simp [isSeen], sameSize, fits, List.forall_mem_append.mpr ⟨least, ?_⟩⟩
    rw [List.forall_mem_singleton]
    intro enough
    rw [← not_lt]
    intro smaller
    exact worse ⟨enough, .inr smaller⟩

/-- The search looks at all chunks but the last. -/
theorem bestFit_eq {before last fuel : Nat}
    (linked : Linked s.next s.prev before (rest ++ [last]) 0)
    (valid : ∀ chunk ∈ seen ++ (rest ++ [last]), s.Valid chunk) (notNull : ¬s.Valid 0)
    (isBest : s.Best size seen best bestSize) (enough : rest.length < fuel) :
    ∃ found foundSize, bestFit size fuel (rest.headD last) best bestSize s = .ok (found, s) ∧
      s.Best size (seen ++ rest) found foundSize := by
  induction rest generalizing before seen best bestSize fuel with
  | nil =>
      rcases fuel with _ | fuel
      · cases enough
      · refine ⟨best, bestSize, ?_, by rwa [List.append_nil]⟩
        have isEnd : s.next last = 0 := linked.2.1
        rw [bestFit, List.headD_nil, bind_eq (getNext_eq (valid last (by simp))), if_pos isEnd]
        rfl
  | cons chunk rest inductionHypothesis =>
      rcases fuel with _ | fuel
      · cases enough
      · have validChunk : s.Valid chunk := valid chunk (by simp)
        have isNext : s.next chunk = rest.headD last := by
          have isNext := linked.2.1
          change s.next chunk = (rest ++ [last]).headD 0 at isNext
          rw [isNext, headD_append]
          rfl
        have more : s.next chunk ≠ 0 := by
          have validNext : s.Valid (rest.headD last) := by
            apply valid
            cases rest <;> simp
          rw [isNext]
          intro isNull
          exact notNull (isNull ▸ validNext)
        have valid' : ∀ other ∈ (seen ++ [chunk]) ++ (rest ++ [last]), s.Valid other := by
          rwa [← List.append_cons]
        have round {best : Nat} {bestSize : Int}
            (isBest' : s.Best size (seen ++ [chunk]) best bestSize) :
            ∃ found foundSize, bestFit size fuel (s.next chunk) best bestSize s = .ok (found, s) ∧
              s.Best size (seen ++ chunk :: rest) found foundSize := by
          rw [isNext, List.append_cons]
          exact inductionHypothesis linked.2.2 valid' isBest' (Nat.lt_of_succ_lt_succ enough)
        have notNulls : ∀ other ∈ seen, other ≠ 0 := by
          rintro other member rfl
          exact notNull (valid 0 (by simp [member]))
        rw [List.headD_cons, bestFit, bind_eq (getNext_eq validChunk), if_neg more,
          bind_eq (getSize_eq validChunk)]
        split_ifs with better
        · exact round (isBest.take notNulls better)
        · exact round (isBest.keep better)

end Search

/-! ## Chains -/

section Chains

variable {s s' : Heap} {freed : Bool} {chunk : Nat} {chunks front back : List Nat}

theorem Heap.Chain.congr (chain : s.Chain freed chunks)
    (same : ∀ chunk ∈ chunks, s'.next chunk = s.next chunk ∧ s'.prev chunk = s.prev chunk)
    (bits : ∀ chunk ∈ chunks,
      isChunkGetFreed (s'.size chunk) = isChunkGetFreed (s.size chunk)) : s'.Chain freed chunks :=
  ⟨chain.linked.congr same, fun chunk member => (bits chunk member).trans (chain.bit chunk member)⟩

/-- A chunk of a chain can be taken out of it. -/
theorem Heap.Chain.connected (chain : s.Chain freed (front ++ chunk :: back))
    (valid : ∀ other ∈ front ++ chunk :: back, s.Valid other) : s.Connected chunk := by
  have isNext := chain.linked.next_eq
  have isPrev := chain.linked.prev_eq
  refine ⟨valid chunk (by simp), ?_, ?_⟩
  · rw [isNext]
    intro notLast
    rcases back with _ | ⟨next, back⟩
    · exact absurd rfl notLast
    · exact valid next (by simp)
  · rw [isPrev]
    intro notFirst
    rcases front.eq_nil_or_concat' with rfl | ⟨front, prev, rfl⟩
    · exact absurd rfl notFirst
    · rw [getLastD_concat]
      exact valid prev (by simp)

theorem Heap.Chain.unlink (chain : s.Chain freed (front ++ chunk :: back))
    (nodup : (front ++ chunk :: back).Nodup) (notNull : 0 ∉ front ++ chunk :: back) :
    (s.unlink chunk).Chain freed (front ++ back) := by
  refine ⟨chain.linked.unlink nodup notNull, ?_⟩
  intro other member
  apply chain.bit other
  rw [List.mem_append] at member ⊢
  exact member.imp_right (List.mem_cons_of_mem _)

/-- The neighbours of a chunk of a chain are not in a chain that shares nothing with it. -/
theorem Heap.Chain.unlink_other (chain : s.Chain freed (front ++ chunk :: back)) {marked : Bool}
    (other : s.Chain marked chunks) (apart : (front ++ chunk :: back).Disjoint chunks) :
    (s.unlink chunk).Chain marked chunks := by
  apply other.congr
  · intro node member
    constructor
    · change unlinkNext 0 s.next s.prev chunk node = s.next node
      rw [unlinkNext, chain.linked.prev_eq]
      split_ifs with isFirst
      · rfl
      · apply update_of_ne
        rintro rfl
        rcases front.eq_nil_or_concat' with rfl | ⟨front, prev, rfl⟩
        · exact isFirst rfl
        · rw [getLastD_concat] at member
          exact apart (by simp) member
    · change unlinkPrev 0 s.next s.prev chunk node = s.prev node
      rw [unlinkPrev, chain.linked.next_eq]
      split_ifs with isLast
      · rfl
      · apply update_of_ne
        rintro rfl
        rcases back with _ | ⟨next, back⟩
        · exact isLast rfl
        · exact apart (by simp) member
  · exact fun _ _ => rfl

end Chains

/-! ## The layout -/

section Layout

variable {s s' : Heap} {system : Mmap} {chunks chunks' : List Nat} {size field : Int}

theorem Heap.Laid.mono (laid : s.Laid chunks) (fewer : chunks' ⊆ chunks) : s.Laid chunks' :=
  ⟨laid.pages, laid.apart, fun region member listed => laid.lengths region member (fewer listed)⟩

/-- Nothing is mapped and the sizes stay. -/
theorem Heap.Laid.keep (laid : s.Laid chunks) (mapped : s'.mapped = s.mapped)
    (sizes : ∀ chunk, chunkGetSize (s'.size chunk) = chunkGetSize (s.size chunk)) :
    s'.Laid chunks := by
  refine ⟨mapped ▸ laid.pages, mapped ▸ laid.apart, ?_⟩
  rw [mapped]
  intro region member listed
  rw [sizes]
  exact laid.lengths region member listed

/-- No chunk is where the system maps the next one. -/
theorem Heap.Laid.fresh_invalid (laid : s.Laid chunks) (fresh : system.Fresh)
    (long : 4096 ≤ unsigned size) : ¬s.Valid (s.fresh system size) := by
  intro valid
  obtain ⟨region, member, isStart⟩ := List.mem_map.mp valid
  have pages := laid.pages region member
  have apart := fresh.apart s.mapped (unsigned size) region member
  rw [Heap.fresh] at isStart
  rw [Region.Apart] at apart
  dsimp only at apart
  omega

theorem Heap.Laid.nodup (laid : s.Laid chunks) : (s.mapped.map Region.start).Nodup := by
  rw [List.Nodup, List.pairwise_map]
  apply laid.apart.imp_of_mem
  intro region other member member' apart isSame
  have pages := laid.pages region member
  have pages' := laid.pages other member'
  rw [Region.Apart] at apart
  omega

theorem Heap.Laid.extend (laid : s.Laid chunks) (fresh : system.Fresh)
    (long : 4096 ≤ unsigned size) (known : ∀ chunk ∈ chunks, s.Valid chunk) :
    (s.extend system size field).Laid chunks := by
  have new := laid.fresh_invalid fresh long
  refine ⟨?_, ?_, ?_⟩
  · exact List.forall_mem_cons.mpr ⟨⟨fresh.aligned _ _, long⟩, laid.pages⟩
  · exact List.pairwise_cons.mpr ⟨fresh.apart _ _, laid.apart⟩
  · intro region member listed
    have old : region.start ≠ s.fresh system size := by
      intro isFresh
      exact new (isFresh ▸ known _ listed)
    rw [(Heap.extend_of_ne old).2.2]
    rcases List.mem_cons.mp member with rfl | member
    · exact absurd rfl old
    · exact laid.lengths region member listed

/-- The new chunk holds its size. -/
theorem Heap.Laid.extend_fresh (laid : s.Laid chunks) (fresh : system.Fresh)
    (long : 4096 ≤ unsigned size) (known : ∀ chunk ∈ chunks, s.Valid chunk)
    (isEven : chunkGetSize size = size) :
    (s.extend system size size).Laid (s.fresh system size :: chunks) := by
  have old : (s.extend system size size).Laid chunks := laid.extend fresh long known
  refine ⟨old.pages, old.apart, ?_⟩
  intro region member listed
  rcases List.mem_cons.mp listed with isFresh | listed
  · rcases List.mem_cons.mp member with rfl | member
    · rw [Heap.extend_size, isEven]
    · have new := laid.fresh_invalid fresh long
      exact absurd (List.mem_map.mpr ⟨region, member, isFresh⟩) new
  · exact old.lengths region member listed

end Layout

/-! ## The parts of the calls -/

section Parts

variable {s : Heap} {system : Mmap} {alloc free loose front back : List Nat} {chunk : Nat}

theorem Heap.Holds.initial : Heap.initial.Holds [] [] [] where
  allocChain := ⟨trivial, by simp⟩
  freeChain := ⟨trivial, by simp⟩
  allocHead := rfl
  allocTail := rfl
  freelistHead := rfl
  listed := List.Perm.refl _
  notNull := by simp [Heap.Valid, Heap.initial]
  laid := ⟨by simp [Heap.initial], List.Pairwise.nil, by simp [Heap.initial]⟩

theorem Heap.Holds.valid_iff (holds : s.Holds alloc free loose) :
    s.Valid chunk ↔ chunk ∈ loose ++ (alloc ++ free) :=
  holds.listed.mem_iff

theorem Heap.Holds.nodup (holds : s.Holds alloc free loose) :
    (loose ++ (alloc ++ free)).Nodup :=
  holds.listed.nodup_iff.mp holds.laid.nodup

theorem Heap.Holds.null_not_mem (holds : s.Holds alloc free loose) :
    0 ∉ loose ++ (alloc ++ free) :=
  fun member => holds.notNull (holds.valid_iff.mpr member)

theorem Heap.Holds.known (holds : s.Holds alloc free loose) :
    ∀ chunk ∈ loose ++ (alloc.tail ++ free.dropLast), s.Valid chunk := by
  intro chunk member
  rw [holds.valid_iff]
  simp only [List.mem_append] at member ⊢
  rcases member with member | member | member
  · exact .inl member
  · exact .inr (.inl (List.mem_of_mem_tail member))
  · exact .inr (.inr (List.dropLast_subset _ member))

theorem Heap.Holds.allocHead_eq_zero (holds : s.Holds alloc free loose) :
    s.allocHead = 0 ↔ alloc = [] := by
  rw [holds.allocHead]
  rcases alloc with _ | ⟨first, alloc⟩
  · simp
  · have notNull : first ≠ 0 := by
      rintro rfl
      exact holds.null_not_mem (by simp)
    simp [notNull]

theorem Heap.Holds.freelistHead_eq_zero (holds : s.Holds alloc free loose) :
    s.freelistHead = 0 ↔ free = [] := by
  rw [holds.freelistHead]
  rcases free with _ | ⟨first, free⟩
  · simp
  · have notNull : first ≠ 0 := by
      rintro rfl
      exact holds.null_not_mem (by simp)
    simp [notNull]

theorem Heap.Holds.extend_notNull {size : Int} (holds : s.Holds alloc free loose)
    (fresh : system.Fresh) (field : Int) : ¬(s.extend system size field).Valid 0 := by
  rw [Heap.valid_extend, not_or]
  exact ⟨(fresh.notNull _ _).symm, holds.notNull⟩

/-- The chains of before do not see a new chunk. -/
theorem Heap.Chain.extend {freed : Bool} {chunks : List Nat} {size field : Int}
    (chain : s.Chain freed chunks) (old : s.fresh system size ∉ chunks) :
    (s.extend system size field).Chain freed chunks := by
  have others : ∀ chunk ∈ chunks, chunk ≠ s.fresh system size := by
    rintro chunk member rfl
    exact old member
  apply chain.congr
  · intro chunk member
    have same := @Heap.extend_of_ne s chunk system size field (others chunk member)
    exact ⟨same.1, same.2.1⟩
  · intro chunk member
    rw [(s.extend_of_ne (others chunk member)).2.2]

/-- A new chunk alone. -/
theorem Heap.chain_fresh {freed : Bool} {size field : Int}
    (bit : isChunkGetFreed field = freed) :
    (s.extend system size field).Chain freed [s.fresh system size] := by
  refine ⟨⟨update_self .., update_self .., trivial⟩, ?_⟩
  rw [List.forall_mem_singleton, Heap.extend_size, bit]

/-- `malloc` makes the allocated list if there is none. -/
theorem Heap.Holds.initAlloc (holds : s.Holds alloc free loose) (fresh : system.Fresh) :
    ∃ s' alloc', Libc.initAlloc system s = .ok ((), s') ∧ s'.Holds alloc' free loose ∧
      alloc' ≠ [] ∧ alloc'.tail = alloc.tail ∧ s.mapped ⊆ s'.mapped ∧ (alloc ≠ [] → s' = s) := by
  by_cases isEmpty : alloc = []
  · have isNull := holds.allocHead_eq_zero.mpr isEmpty
    subst isEmpty
    have long : 4096 ≤ unsigned (alignPage chunkHeader) := by decide
    have new := holds.laid.fresh_invalid fresh long
    rw [holds.valid_iff, List.nil_append, List.mem_append, not_or] at new
    have newChain : (s.extend system (alignPage chunkHeader) 0).Chain false
        [s.fresh system (alignPage chunkHeader)] := chain_fresh rfl
    refine ⟨_, [s.fresh system (alignPage chunkHeader)], initAlloc_eq isNull, ?_, by simp, rfl,
      List.subset_cons_self _ _, absurd rfl⟩
    exact {
      allocChain := newChain.congr (fun _ _ => ⟨rfl, rfl⟩) fun _ _ => rfl
      freeChain := (holds.freeChain.extend new.2).congr (fun _ _ => ⟨rfl, rfl⟩) fun _ _ => rfl
      allocHead := rfl
      allocTail := rfl
      freelistHead := holds.freelistHead
      listed := (holds.listed.cons _).trans List.perm_middle.symm
      notNull := holds.extend_notNull fresh 0
      laid := (holds.laid.extend fresh long holds.known).keep rfl fun _ => rfl }
  · have notNull := mt holds.allocHead_eq_zero.mp isEmpty
    refine ⟨s, alloc, ?_, holds, isEmpty, rfl, fun _ => id, fun _ => rfl⟩
    rw [Libc.initAlloc, bind_eq rfl, if_neg notNull]
    rfl

/-- `malloc` makes the free list if there is none. -/
theorem Heap.Holds.initFreelist (holds : s.Holds alloc free loose) (fresh : system.Fresh) :
    ∃ s' free', Libc.initFreelist system s = .ok ((), s') ∧ s'.Holds alloc free' loose ∧
      free' ≠ [] ∧ free'.dropLast = free.dropLast ∧ s.mapped ⊆ s'.mapped ∧
      (free ≠ [] → s' = s) := by
  by_cases isEmpty : free = []
  · have isNull := holds.freelistHead_eq_zero.mpr isEmpty
    subst isEmpty
    have long : 4096 ≤ unsigned (alignPage chunkHeader) := by decide
    have new := holds.laid.fresh_invalid fresh long
    rw [holds.valid_iff, List.append_nil, List.mem_append, not_or] at new
    have newChain : (s.extend system (alignPage chunkHeader) (-1)).Chain true
        [s.fresh system (alignPage chunkHeader)] := chain_fresh rfl
    refine ⟨_, [s.fresh system (alignPage chunkHeader)], initFreelist_eq isNull, ?_, by simp, rfl,
      List.subset_cons_self _ _, absurd rfl⟩
    have listed := holds.listed
    rw [List.append_nil] at listed
    exact {
      allocChain := (holds.allocChain.extend new.2).congr (fun _ _ => ⟨rfl, rfl⟩) fun _ _ => rfl
      freeChain := newChain.congr (fun _ _ => ⟨rfl, rfl⟩) fun _ _ => rfl
      allocHead := holds.allocHead
      allocTail := holds.allocTail
      freelistHead := rfl
      listed := by
        rw [← List.append_assoc]
        exact (listed.cons _).trans (List.perm_append_singleton _ _).symm
      notNull := holds.extend_notNull fresh (-1)
      laid := (holds.laid.extend fresh long holds.known).keep rfl fun _ => rfl }
  · have notNull := mt holds.freelistHead_eq_zero.mp isEmpty
    refine ⟨s, free, ?_, holds, isEmpty, rfl, fun _ => id, fun _ => rfl⟩
    rw [Libc.initFreelist, bind_eq rfl, if_neg notNull]
    rfl

/-- A new chunk is on neither list yet. -/
theorem Heap.Holds.extend {size : Int} (holds : s.Holds alloc free []) (fresh : system.Fresh)
    (long : 4096 ≤ unsigned size) (isEven : chunkGetSize size = size) :
    (s.extend system size size).Holds alloc free [s.fresh system size] := by
  have new := holds.laid.fresh_invalid fresh long
  rw [holds.valid_iff, List.nil_append, List.mem_append, not_or] at new
  exact {
    allocChain := holds.allocChain.extend new.1
    freeChain := holds.freeChain.extend new.2
    allocHead := holds.allocHead
    allocTail := holds.allocTail
    freelistHead := holds.freelistHead
    listed := holds.listed.cons _
    notNull := holds.extend_notNull fresh size
    laid := holds.laid.extend_fresh fresh long holds.known isEven }

/-- `malloc` puts a chunk behind the allocated ones. -/
theorem Heap.Holds.appendAlloc (holds : s.Holds alloc free [chunk]) (isReady : alloc ≠ []) :
    ∃ s', Libc.appendAlloc chunk s = .ok ((), s') ∧ s'.Holds (alloc ++ [chunk]) free [] ∧
      s'.mapped = s.mapped := by
  have nodup := holds.nodup
  rw [List.singleton_append, List.nodup_cons, List.mem_append, not_or, List.nodup_append] at nodup
  rcases nodup with ⟨⟨newAlloc, newFree⟩, nodupAlloc, nodupFree, apart⟩
  rcases alloc.eq_nil_or_concat' with rfl | ⟨front, last, rfl⟩
  · exact absurd rfl isReady
  · have isTail : s.allocTail = last := by rw [holds.allocTail, getLastD_concat]
    have valid : s.Valid chunk := holds.valid_iff.mpr (by simp)
    have validLast : s.Valid last := holds.valid_iff.mpr (by simp)
    have others : ∀ other ∈ front ++ [last], other ≠ chunk := by
      rintro other member rfl
      exact newAlloc member
    have othersFree : ∀ other ∈ free, other ≠ chunk ∧ other ≠ last := by
      intro other member
      constructor
      · rintro rfl
        exact newFree member
      · rintro rfl
        exact apart other (by simp) other member rfl
    refine ⟨_, appendAlloc_eq valid (isTail ▸ validLast), ?_, rfl⟩
    rw [isTail]
    exact {
      allocChain := by
        refine ⟨holds.allocChain.linked.append nodupAlloc newAlloc (by simp), ?_⟩
        intro other member
        rcases List.mem_append.mp member with member | member
        · exact (congrArg _ (update_of_ne (others other member) _ _)).trans
            (holds.allocChain.bit other member)
        · rw [List.mem_singleton.mp member]
          exact (congrArg _ (update_self _ _ _)).trans (chunkGetSize_even _)
      freeChain := by
        apply holds.freeChain.congr
        · intro other member
          constructor
          · exact (update_of_ne (othersFree other member).1 _ _).trans
              (update_of_ne (othersFree other member).2 _ _)
          · exact update_of_ne (othersFree other member).1 _ _
        · intro other member
          exact congrArg _ (update_of_ne (othersFree other member).1 _ _)
      allocHead := by
        rw [headD_append]
        exact holds.allocHead.trans (by cases front <;> rfl)
      allocTail := (getLastD_concat _ _ _).symm
      freelistHead := holds.freelistHead
      listed := by
        apply holds.listed.trans
        rw [List.nil_append, List.append_assoc (front ++ [last]), List.singleton_append]
        exact List.perm_middle.symm
      notNull := holds.notNull
      laid := by
        refine Heap.Laid.keep (holds.laid.mono ?_) rfl (chunkGetSize_update (chunkGetSize_idem _))
        rw [List.tail_append_of_ne_nil isReady]
        grind }

/-- `free` takes a chunk out of the allocated ones. -/
theorem Heap.Holds.removeAlloc (holds : s.Holds (front ++ chunk :: back) free [])
    (notFirst : front ≠ []) :
    ∃ s', Libc.removeAlloc chunk s = .ok ((), s') ∧ s'.Holds (front ++ back) free [chunk] ∧
      s'.mapped = s.mapped := by
  have nodup := holds.nodup
  rw [List.nil_append, List.nodup_append] at nodup
  rcases nodup with ⟨nodupAlloc, -, apart⟩
  have noNull := holds.null_not_mem
  rw [List.nil_append, List.mem_append, not_or] at noNull
  have connected : s.Connected chunk := by
    apply holds.allocChain.connected
    intro other member
    rw [holds.valid_iff, List.nil_append]
    exact List.mem_append_left _ member
  have isNext := holds.allocChain.linked.next_eq
  have isPrev := holds.allocChain.linked.prev_eq
  have hasPrev : s.prev chunk ≠ 0 := by
    rcases front.eq_nil_or_concat' with rfl | ⟨front, last, rfl⟩
    · exact absurd rfl notFirst
    · rw [isPrev, getLastD_concat]
      rintro rfl
      exact noNull.1 (by simp)
  refine ⟨_, removeAlloc_eq connected, ?_, rfl⟩
  rw [if_neg hasPrev]
  exact {
    allocChain := (holds.allocChain.unlink nodupAlloc noNull.1).congr
      (fun _ _ => ⟨rfl, rfl⟩) fun _ _ => rfl
    freeChain := (holds.allocChain.unlink_other holds.freeChain
      fun _ member member' => apart _ member _ member' rfl).congr
      (fun _ _ => ⟨rfl, rfl⟩) fun _ _ => rfl
    allocHead := by
      rw [headD_append]
      apply holds.allocHead.trans
      cases front
      · exact absurd rfl notFirst
      · rfl
    allocTail := by
      change (if s.next chunk = 0 ∧ s.prev chunk ≠ 0 then s.prev chunk else s.allocTail) = _
      rcases back.eq_nil_or_concat' with rfl | ⟨back, last, rfl⟩
      · rw [if_pos ⟨isNext, hasPrev⟩, isPrev, List.append_nil]
      · have hasNext : s.next chunk ≠ 0 := by
          rw [isNext]
          intro isNull
          apply noNull.1
          rw [← isNull]
          cases back <;> simp
        rw [if_neg (fun isLast => hasNext isLast.1), holds.allocTail, ← List.append_assoc,
          getLastD_concat, ← List.cons_append, ← List.append_assoc, getLastD_concat]
    freelistHead := holds.freelistHead
    listed := by
      apply holds.listed.trans
      rw [List.nil_append, List.append_assoc, List.cons_append, List.singleton_append,
        List.append_assoc]
      exact List.perm_middle
    notNull := holds.notNull
    laid := by
      refine Heap.Laid.keep (holds.laid.mono ?_) rfl fun _ => rfl
      rw [List.tail_append_of_ne_nil notFirst, List.tail_append_of_ne_nil notFirst]
      grind }

/-- `free` puts a chunk before the free ones. -/
theorem Heap.Holds.pushFree (holds : s.Holds alloc free [chunk]) (isReady : free ≠ []) :
    ∃ s', Libc.pushFree chunk s = .ok ((), s') ∧ s'.Holds alloc (chunk :: free) [] ∧
      s'.mapped = s.mapped := by
  have nodup := holds.nodup
  rw [List.singleton_append, List.nodup_cons, List.mem_append, not_or, List.nodup_append] at nodup
  rcases nodup with ⟨⟨newAlloc, newFree⟩, -, nodupFree, apart⟩
  rcases free with _ | ⟨first, free⟩
  · exact absurd rfl isReady
  · have isHead : s.freelistHead = first := holds.freelistHead
    have valid : s.Valid chunk := holds.valid_iff.mpr (by simp)
    have validFirst : s.Valid first := holds.valid_iff.mpr (by simp)
    have notNull : first ≠ 0 := by
      rintro rfl
      exact holds.notNull validFirst
    have others : ∀ other ∈ first :: free, other ≠ chunk := by
      rintro other member rfl
      exact newFree member
    have othersAlloc : ∀ other ∈ alloc, other ≠ chunk ∧ other ≠ first := by
      intro other member
      constructor
      · rintro rfl
        exact newAlloc member
      · rintro rfl
        exact apart other member other List.mem_cons_self rfl
    refine ⟨_, pushFree_eq valid (isHead ▸ notNull) (isHead ▸ validFirst), ?_, rfl⟩
    rw [isHead]
    exact {
      allocChain := by
        apply holds.allocChain.congr
        · intro other member
          constructor
          · exact update_of_ne (othersAlloc other member).1 _ _
          · exact (update_of_ne (othersAlloc other member).2 _ _).trans
              (update_of_ne (othersAlloc other member).1 _ _)
        · intro other member
          exact congrArg _ (update_of_ne (othersAlloc other member).1 _ _)
      freeChain := by
        refine ⟨holds.freeChain.linked.push nodupFree newFree rfl, ?_⟩
        intro other member
        rcases List.mem_cons.mp member with rfl | member
        · exact (congrArg _ (update_self _ _ _)).trans (chunkGetSize_marked _)
        · exact (congrArg _ (update_of_ne (others other member) _ _)).trans
            (holds.freeChain.bit other member)
      allocHead := holds.allocHead
      allocTail := holds.allocTail
      freelistHead := rfl
      listed := by
        apply holds.listed.trans
        rw [List.nil_append, List.singleton_append]
        exact List.perm_middle.symm
      notNull := holds.notNull
      laid := by
        refine Heap.Laid.keep (holds.laid.mono ?_) rfl
          (chunkGetSize_update (chunkGetSize_unmarked _))
        grind }

/-- `malloc` takes a chunk out of the free ones. -/
theorem Heap.Holds.removeFree (holds : s.Holds alloc (front ++ chunk :: back) [])
    (notLast : back ≠ []) :
    ∃ s', Libc.removeFree chunk s = .ok ((), s') ∧ s'.Holds alloc (front ++ back) [chunk] ∧
      s'.mapped = s.mapped := by
  have nodup := holds.nodup
  rw [List.nil_append, List.nodup_append] at nodup
  rcases nodup with ⟨-, nodupFree, apart⟩
  have noNull := holds.null_not_mem
  rw [List.nil_append, List.mem_append, not_or] at noNull
  have connected : s.Connected chunk := by
    apply holds.freeChain.connected
    intro other member
    rw [holds.valid_iff, List.nil_append]
    exact List.mem_append_right _ member
  have isPrev := holds.freeChain.linked.prev_eq
  refine ⟨_, removeFree_eq connected, ?_, rfl⟩
  exact {
    allocChain := (holds.freeChain.unlink_other holds.allocChain
      fun _ member member' => apart _ member' _ member rfl).congr
      (fun _ _ => ⟨rfl, rfl⟩) fun _ _ => rfl
    freeChain := (holds.freeChain.unlink nodupFree noNull.2).congr
      (fun _ _ => ⟨rfl, rfl⟩) fun _ _ => rfl
    allocHead := holds.allocHead
    allocTail := holds.allocTail
    freelistHead := by
      change (if s.prev chunk = 0 then s.next chunk else s.freelistHead) = _
      rcases front.eq_nil_or_concat' with rfl | ⟨front, last, rfl⟩
      · rw [List.getLastD_nil] at isPrev
        rw [if_pos isPrev, holds.freeChain.linked.next_eq, List.nil_append]
      · rw [getLastD_concat] at isPrev
        have notNull : s.prev chunk ≠ 0 := by
          rw [isPrev]
          rintro rfl
          exact noNull.2 (by simp)
        rw [if_neg notNull, holds.freelistHead]
        cases front <;> rfl
    listed := by
      apply holds.listed.trans
      rw [List.nil_append, ← List.append_assoc, List.singleton_append, ← List.append_assoc]
      exact List.perm_middle
    notNull := holds.notNull
    laid := by
      refine Heap.Laid.keep (holds.laid.mono ?_) rfl fun _ => rfl
      rw [List.dropLast_append_of_ne_nil notLast, List.dropLast_append_of_ne_nil (by simp),
        List.dropLast_cons_of_ne_nil notLast]
      grind }

/-- `malloc` takes the smallest free chunk that its header counts large enough. -/
theorem Heap.Holds.takeFree (holds : s.Holds alloc free []) (isReady : free ≠ []) (size : Int) :
    (Libc.takeFree size s = .ok (0, s) ∧
        ∀ chunk ∈ free.dropLast, chunkGetSize (s.size chunk) < size) ∨
      ∃ s' front chunk back, free = front ++ chunk :: back ∧ back ≠ [] ∧
        Libc.takeFree size s = .ok (chunk, s') ∧ s'.Holds alloc (front ++ back) [chunk] ∧
        s'.mapped = s.mapped ∧ size ≤ chunkGetSize (s.size chunk) ∧
        ∀ other ∈ free.dropLast, size ≤ chunkGetSize (s.size other) →
          chunkGetSize (s.size chunk) ≤ chunkGetSize (s.size other) := by
  rcases free.eq_nil_or_concat' with rfl | ⟨rest, last, rfl⟩
  · exact absurd rfl isReady
  · rw [List.dropLast_concat]
    have isHead : s.freelistHead = rest.headD last := by
      rw [holds.freelistHead, headD_append]
      rfl
    have valid : ∀ chunk ∈ [] ++ (rest ++ [last]), s.Valid chunk := by
      intro chunk member
      rw [holds.valid_iff]
      exact List.mem_append_right _ (List.mem_append_right _ member)
    have validHead : s.Valid (rest.headD last) := by
      apply valid
      cases rest <;> simp
    have enough : rest.length < s.mapped.length := by
      have isLength := holds.listed.length_eq
      simp only [List.length_map, List.length_append, List.length_cons, List.length_nil] at isLength
      omega
    by_cases isEnd : s.next (rest.headD last) = 0
    · left
      constructor
      · rw [Libc.takeFree, bind_eq rfl, isHead, bind_eq (getNext_eq validHead), if_pos isEnd]
        rfl
      · rcases rest with _ | ⟨first, rest⟩
        · simp
        · have isNext := holds.freeChain.linked.2.1
          change s.next first = (rest ++ [last]).headD 0 at isNext
          have validNext : s.Valid (s.next first) := by
            rw [isNext]
            apply valid
            cases rest <;> simp
          exact absurd (isEnd ▸ validNext) holds.notNull
    · have start : s.Best size [] 0 0 := .inl ⟨rfl, by simp⟩
      obtain ⟨found, foundSize, isFound, isBest⟩ :=
        bestFit_eq holds.freeChain.linked valid holds.notNull start enough
      have takes : Libc.takeFree size s = (do
          if found ≠ 0 then Libc.removeFree found
          return found : OnHeap Nat) s := by
        rw [Libc.takeFree, bind_eq rfl, isHead, bind_eq (getNext_eq validHead), if_neg isEnd,
          bind_eq isFound]
      rw [takes]
      rcases isBest with ⟨rfl, small⟩ | ⟨member, rfl, fits, least⟩
      · left
        exact ⟨rfl, small⟩
      · right
        obtain ⟨front, back, rfl⟩ := List.append_of_mem member
        have notNull : found ≠ 0 := by
          rintro rfl
          exact holds.null_not_mem (by simp)
        rw [List.append_assoc, List.cons_append] at holds
        obtain ⟨s', removed, holds', mapped⟩ := holds.removeFree (by simp)
        refine ⟨s', front, found, back ++ [last], by simp, by simp, ?_, holds', mapped, fits, least⟩
        rw [if_pos notNull, bind_eq removed]
        rfl

end Parts

end Shecc.Libc
