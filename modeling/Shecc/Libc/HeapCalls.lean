import Shecc.Libc.HeapLists

/-!
# Runs of the allocator

A program calls `malloc` and `calloc` with any sizes and frees what they returned. In every
state it reaches, each chunk is on one of the two lists. So a call of `free` detects a chunk
that is free and accepts one in use.
-/

namespace Shecc.Libc

open Shecc.DoublyLinked (Linked)

/-! ## The calls -/

section Sizes

theorem chunkSize_even (size : Int) : chunkGetSize (chunkSize size) = chunkSize size := by
  simp only [chunkGetSize, chunkSize, alignPage, alignUp, pageSize]
  omega

/-- A new chunk has room for its header and the request. -/
theorem chunkSize_long {size : Int} (positive : 0 < size) (isInt : size ≤ intMax) :
    4096 ≤ unsigned (chunkSize (alignUp size minAlignment)) ∧
      12 + size ≤ unsigned (chunkSize (alignUp size minAlignment)) := by
  simp only [unsigned, chunkSize, alignPage, alignUp, wrap, pageSize, minAlignment, chunkHeader,
    intMax] at isInt ⊢
  omega

end Sizes

section Calls

variable {s : Heap} {system : Mmap} {alloc free front back : List Nat} {chunk : Nat} {size : Int}

/-- The chunk that a request of the size takes: the smallest of the free ones that its header
counts large enough, or else a new one. -/
def Heap.Chosen (s : Heap) (free : List Nat) (size : Int) (mapped : List Region)
    (chunk : Nat) : Prop :=
  ((∀ other ∈ free.dropLast, chunkGetSize (s.size other) < alignUp size minAlignment) ∧
      ⟨chunk, unsigned (chunkSize (alignUp size minAlignment))⟩ ∈ mapped) ∨
    (chunk ∈ free.dropLast ∧ alignUp size minAlignment ≤ chunkGetSize (s.size chunk) ∧
      ∀ other ∈ free.dropLast, alignUp size minAlignment ≤ chunkGetSize (s.size other) →
        chunkGetSize (s.size chunk) ≤ chunkGetSize (s.size other))

/-- The parts of `malloc` behind the two lists. -/
theorem Heap.Holds.request (holds : s.Holds alloc free []) (fresh : system.Fresh)
    (allocReady : alloc ≠ []) (freeReady : free ≠ []) (positive : 0 < size)
    (isInt : size ≤ intMax) :
    ∃ s' chunk free', (do
        let found ← Libc.takeFree (alignUp size minAlignment)
        let chunk ← if found = 0 then newChunk system (alignUp size minAlignment) else pure found
        Libc.appendAlloc chunk
        return chunk + chunkHeader : OnHeap Nat) s = .ok (chunk + chunkHeader, s') ∧
      s'.Holds (alloc ++ [chunk]) free' [] ∧ free' ≠ [] ∧
      (∀ other ∈ free.dropLast, other = chunk ∨ other ∈ free'.dropLast) ∧
      s.mapped ⊆ s'.mapped ∧ s.Chosen free size s'.mapped chunk := by
  have long := chunkSize_long positive isInt
  rcases holds.takeFree freeReady (alignUp size minAlignment) with
    ⟨isNone, small⟩ | ⟨s₁, front, chunk, back, rfl, notLast, taken, holds₁, same, fits, least⟩
  · have holds₁ := holds.extend fresh long.1 (chunkSize_even (alignUp size minAlignment))
    obtain ⟨s', appended, holds', mapped⟩ := holds₁.appendAlloc allocReady
    refine ⟨s', _, free, ?_, holds', freeReady, fun _ => .inr, ?_, ?_⟩
    · rw [bind_eq isNone, if_pos rfl, bind_eq (newChunk_eq _)]
      exact bind_eq appended
    · rw [mapped]
      exact List.subset_cons_self _ _
    · left
      refine ⟨small, ?_⟩
      rw [mapped]
      exact List.mem_cons_self
  · obtain ⟨s', appended, holds', mapped⟩ := holds₁.appendAlloc allocReady
    have notNull : chunk ≠ 0 := by
      rintro rfl
      exact holds.null_not_mem (by simp)
    refine ⟨s', chunk, front ++ back, ?_, holds', by simp [notLast], ?_, ?_, ?_⟩
    · rw [bind_eq taken, if_neg notNull, bind_eq rfl]
      exact bind_eq appended
    · intro other member
      rw [List.dropLast_append_of_ne_nil (by simp), List.dropLast_cons_of_ne_nil notLast] at member
      rw [List.dropLast_append_of_ne_nil notLast]
      grind
    · rw [mapped, same]
      exact List.Subset.refl _
    · right
      refine ⟨?_, fits, least⟩
      rw [List.dropLast_append_of_ne_nil (by simp), List.dropLast_cons_of_ne_nil notLast]
      simp

/-- `malloc` returns a chunk that was not in use. -/
theorem Heap.Holds.malloc (holds : s.Holds alloc free []) (fresh : system.Fresh)
    (ready : alloc ≠ [] ↔ free ≠ []) (positive : 0 < size) (isInt : size ≤ intMax) :
    ∃ s' chunk alloc' free', Libc.malloc system size s = .ok (chunk + chunkHeader, s') ∧
      s'.Holds (alloc' ++ [chunk]) free' [] ∧ alloc' ≠ [] ∧ free' ≠ [] ∧
      alloc'.tail = alloc.tail ∧
      (∀ other ∈ free.dropLast, other = chunk ∨ other ∈ free'.dropLast) ∧
      s.mapped ⊆ s'.mapped ∧ s.Chosen free size s'.mapped chunk := by
  obtain ⟨s₁, alloc', made, holds₁, allocReady, sameTail, more₁, same₁⟩ := holds.initAlloc fresh
  obtain ⟨s₂, free₂, made', holds₂, freeReady, sameFree, more₂, same₂⟩ := holds₁.initFreelist fresh
  obtain ⟨s', chunk, free', result, holds', ready', others, more, chosen⟩ :=
    holds₂.request fresh allocReady freeReady positive isInt
  refine ⟨s', chunk, alloc', free', ?_, holds', allocReady, ready', sameTail, ?_, ?_, ?_⟩
  · rw [Libc.malloc, if_neg (not_le.mpr positive)]
    dsimp only
    rw [bind_eq made, bind_eq made', result]
  · rwa [sameFree] at others
  · exact List.Subset.trans (List.Subset.trans more₁ more₂) more
  · by_cases isEmpty : free = []
    · subst isEmpty
      simp only [Heap.Chosen, sameFree] at chosen ⊢
      simpa using chosen
    · have isSame₁ := same₁ (ready.mpr isEmpty)
      have isSame₂ := same₂ isEmpty
      rw [isSame₂, isSame₁] at chosen
      rwa [Heap.Chosen, ← sameFree]

/-- `malloc` of no bytes. -/
theorem malloc_nonpositive (isNone : size ≤ 0) : malloc system size s = .ok (0, s) := by
  rw [malloc, if_pos isNone]
  rfl

/-- `free` moves a chunk in use to the free list. -/
theorem Heap.Holds.free_inUse (holds : s.Holds (front ++ chunk :: back) free [])
    (notFirst : front ≠ [])
    (isReady : free ≠ []) :
    ∃ s', Libc.free (chunk + chunkHeader) s = .ok ((), s') ∧
      s'.Holds (front ++ back) (chunk :: free) [] ∧ s'.mapped = s.mapped := by
  have valid : s.Valid chunk := holds.valid_iff.mpr (by simp)
  have inUse := holds.allocChain.bit chunk (by simp)
  obtain ⟨s₁, removed, holds₁, same⟩ := holds.removeAlloc notFirst
  obtain ⟨s', pushed, holds', same'⟩ := holds₁.pushFree isReady
  refine ⟨s', ?_, holds', same'.trans same⟩
  rw [Libc.free, if_neg (by simp [chunkHeader]), Nat.add_sub_cancel, bind_eq (getSize_eq valid),
    inUse]
  exact (bind_eq removed).trans pushed

/-- `free` detects a chunk of the free list. -/
theorem Heap.Holds.free_freed (holds : s.Holds alloc free []) (member : chunk ∈ free) :
    Libc.free (chunk + chunkHeader) s = .error .doubleFree := by
  have valid : s.Valid chunk := holds.valid_iff.mpr (by simp [member])
  have isFree := holds.freeChain.bit chunk member
  rw [Libc.free, if_neg (by simp [chunkHeader]), Nat.add_sub_cancel, bind_eq (getSize_eq valid),
    isFree]
  rfl

end Calls

/-! ## Runs -/

/-- The allocations in use after one more. -/
def allocated (ptr : Nat) (size : Int) (live : List (Nat × Int)) : List (Nat × Int) :=
  if ptr = 0 then live else (ptr, size) :: live

/-- What a program reaches: the heap, the allocations in use, with the sizes asked for, and all
pointers it got. The requests are of an `int` size and meet a condition. -/
inductive Run (system : Mmap) (allowed : Heap → Int → Prop) :
    Heap → (live : List (Nat × Int)) → (ptrs : List Nat) → Prop
  | start : Run system allowed .initial [] []
  | malloc {s s' : Heap} {live : List (Nat × Int)} {ptrs : List Nat} {size : Int} {ptr : Nat} :
      Run system allowed s live ptrs → size ≤ intMax → allowed s size →
      malloc system size s = .ok (ptr, s') →
      Run system allowed s' (allocated ptr size live) (ptr :: ptrs)
  | calloc {s s' : Heap} {live : List (Nat × Int)} {ptrs : List Nat} {n size : Int} {ptr : Nat} :
      Run system allowed s live ptrs → allowed s (wrap (n * size)) →
      calloc system n size s = .ok (ptr, s') →
      Run system allowed s' (allocated ptr (wrap (n * size)) live) (ptr :: ptrs)
  | free {s s' : Heap} {live : List (Nat × Int)} {ptrs : List Nat} {ptr : Nat} :
      Run system allowed s live ptrs → ptr = 0 ∨ ptr ∈ ptrs → free ptr s = .ok ((), s') →
      Run system allowed s' (live.filter fun allocation => allocation.1 ≠ ptr) ptrs

section Runs

variable {s s' : Heap} {system : Mmap} {allowed : Heap → Int → Prop} {live : List (Nat × Int)}
  {ptrs : List Nat} {alloc free : List Nat}

/-- The pointers of a program lead to chunks of the lists, and those in use to allocated ones. -/
structure Heap.Serves (s : Heap) (live : List (Nat × Int)) (ptrs alloc free : List Nat) :
    Prop where
  holds : s.Holds alloc free []
  ready : alloc ≠ [] ↔ free ≠ []
  distinct : (live.map Prod.fst).Nodup
  inUse : ∀ allocation ∈ live, ∃ chunk ∈ alloc.tail, allocation.1 = chunk + chunkHeader
  known : ∀ ptr ∈ ptrs, ptr ≠ 0 →
    ∃ chunk, ptr = chunk + chunkHeader ∧ (chunk ∈ alloc.tail ∨ chunk ∈ free.dropLast)

theorem Heap.Serves.initial : Heap.initial.Serves [] [] [] [] :=
  ⟨Heap.Holds.initial, by simp, List.nodup_nil, by simp, by simp⟩

/-- A call that returns `NULL` gives the program nothing. -/
theorem Heap.Serves.null (serves : s.Serves live ptrs alloc free) :
    s.Serves live (0 :: ptrs) alloc free :=
  { serves with known := List.forall_mem_cons.mpr ⟨absurd rfl, serves.known⟩ }

theorem Heap.Serves.malloc {size : Int} (serves : s.Serves live ptrs alloc free)
    (fresh : system.Fresh) (positive : 0 < size) (isInt : size ≤ intMax) :
    ∃ s' chunk alloc' free', Libc.malloc system size s = .ok (chunk + chunkHeader, s') ∧
      s'.Serves ((chunk + chunkHeader, size) :: live) ((chunk + chunkHeader) :: ptrs) alloc' free' ∧
      s.mapped ⊆ s'.mapped ∧ s.Chosen free size s'.mapped chunk := by
  obtain ⟨s', chunk, alloc', free', result, holds, allocReady, freeReady, sameTail, others, more,
    chosen⟩ := serves.holds.malloc fresh serves.ready positive isInt
  have isTail : (alloc' ++ [chunk]).tail = alloc.tail ++ [chunk] := by
    rw [List.tail_append_of_ne_nil allocReady, sameTail]
  have new : chunk ∉ alloc.tail := by
    have nodup := holds.nodup
    rw [List.nil_append, List.nodup_append, List.nodup_append] at nodup
    intro member
    rw [← sameTail] at member
    exact nodup.1.2.2 chunk (List.mem_of_mem_tail member) chunk (List.mem_singleton_self _) rfl
  refine ⟨s', chunk, alloc' ++ [chunk], free', result, ?_, more, chosen⟩
  exact {
    holds := holds
    ready := by simp [freeReady]
    distinct := by
      rw [List.map_cons, List.nodup_cons]
      refine ⟨?_, serves.distinct⟩
      intro member
      obtain ⟨allocation, isLive, isPtr⟩ := List.mem_map.mp member
      obtain ⟨chunk', isTail', isPtr'⟩ := serves.inUse allocation isLive
      obtain rfl : chunk' = chunk := by omega
      exact new isTail'
    inUse := by
      rw [isTail]
      refine List.forall_mem_cons.mpr ⟨⟨chunk, by simp, rfl⟩, ?_⟩
      intro allocation isLive
      obtain ⟨chunk', isTail', isPtr'⟩ := serves.inUse allocation isLive
      exact ⟨chunk', List.mem_append_left _ isTail', isPtr'⟩
    known := by
      rw [isTail]
      refine List.forall_mem_cons.mpr ⟨fun _ => ⟨chunk, rfl, by simp⟩, ?_⟩
      intro ptr isKnown notNull
      obtain ⟨chunk', isPtr, isTail' | isFree⟩ := serves.known ptr isKnown notNull
      · exact ⟨chunk', isPtr, .inl (List.mem_append_left _ isTail')⟩
      · refine ⟨chunk', isPtr, ?_⟩
        rcases others chunk' isFree with rfl | isFree'
        · exact .inl (by simp)
        · exact .inr isFree' }

theorem Heap.Serves.filter (serves : s.Serves live ptrs alloc free)
    (keep : Nat × Int → Bool) : s.Serves (live.filter keep) ptrs alloc free :=
  { serves with
    distinct := serves.distinct.sublist (List.filter_sublist.map _)
    inUse := fun allocation isLive => serves.inUse allocation (List.mem_of_mem_filter isLive) }

/-- A chunk in use can be freed. -/
theorem Heap.Serves.free_inUse {chunk : Nat} (serves : s.Serves live ptrs alloc free)
    (inUse : chunk ∈ alloc.tail) :
    ∃ s' alloc' free', Libc.free (chunk + chunkHeader) s = .ok ((), s') ∧
      s'.Serves (live.filter fun allocation => allocation.1 ≠ chunk + chunkHeader) ptrs alloc'
        free' ∧ s'.mapped = s.mapped := by
  rcases alloc with _ | ⟨first, alloc⟩
  · cases inUse
  · obtain ⟨front, back, rfl⟩ := List.append_of_mem inUse
    have freeReady := serves.ready.mp (by simp)
    have holds := serves.holds
    rw [← List.cons_append] at holds
    obtain ⟨s', result, holds', same⟩ := holds.free_inUse (by simp) freeReady
    refine ⟨s', first :: front ++ back, chunk :: free, result, ?_, same⟩
    exact {
      holds := holds'
      ready := by simp
      distinct := (serves.filter _).distinct
      inUse := by
        intro allocation isLive
        rw [List.mem_filter, decide_eq_true_eq] at isLive
        obtain ⟨chunk', member, isPtr⟩ := serves.inUse allocation isLive.1
        refine ⟨chunk', ?_, isPtr⟩
        have other : chunk' ≠ chunk := by
          rintro rfl
          exact isLive.2 isPtr
        simp only [List.tail_cons, List.mem_append, List.mem_cons, other, false_or,
          List.cons_append] at member ⊢
        exact member
      known := by
        intro ptr isKnown notNull
        obtain ⟨chunk', isPtr, member⟩ := serves.known ptr isKnown notNull
        refine ⟨chunk', isPtr, ?_⟩
        rw [List.dropLast_cons_of_ne_nil freeReady]
        by_cases isChunk : chunk' = chunk
        · exact .inr (by simp [isChunk])
        · simp only [List.tail_cons, List.mem_append, List.mem_cons, isChunk, false_or,
            List.cons_append] at member ⊢
          exact member }

/-- A pointer of the program is in use or free. -/
theorem Heap.Serves.free_ok {ptr : Nat} (serves : s.Serves live ptrs alloc free)
    (isPtr : ptr = 0 ∨ ptr ∈ ptrs) (result : Libc.free ptr s = .ok ((), s')) :
    ∃ alloc' free',
      s'.Serves (live.filter fun allocation => allocation.1 ≠ ptr) ptrs alloc' free' ∧
      s'.mapped = s.mapped := by
  by_cases isNull : ptr = 0
  · rw [Libc.free, if_pos isNull] at result
    cases result
    exact ⟨alloc, free, serves.filter _, rfl⟩
  · obtain ⟨chunk, rfl, inUse | isFree⟩ := serves.known ptr (isPtr.resolve_left isNull) isNull
    · obtain ⟨s'', alloc', free', result', serves', same⟩ := serves.free_inUse inUse
      rw [result] at result'
      cases result'
      exact ⟨alloc', free', serves', same⟩
    · rw [serves.holds.free_freed (List.dropLast_subset _ isFree)] at result
      cases result

/-- `malloc` of any size. -/
theorem Heap.Serves.malloc_ok {size : Int} {ptr : Nat} (serves : s.Serves live ptrs alloc free)
    (fresh : system.Fresh) (isInt : size ≤ intMax)
    (result : Libc.malloc system size s = .ok (ptr, s')) :
    ∃ alloc' free', s'.Serves (allocated ptr size live) (ptr :: ptrs) alloc' free' ∧
      s.mapped ⊆ s'.mapped ∧
      (ptr ≠ 0 → 0 < size ∧
        ∃ chunk, ptr = chunk + chunkHeader ∧ s.Chosen free size s'.mapped chunk) := by
  by_cases positive : 0 < size
  · obtain ⟨s'', chunk, alloc', free', result', serves', more, chosen⟩ :=
      serves.malloc fresh positive isInt
    rw [result] at result'
    cases result'
    refine ⟨alloc', free', ?_, more, fun _ => ⟨positive, chunk, rfl, chosen⟩⟩
    rwa [allocated, if_neg (by simp [chunkHeader])]
  · rw [malloc_nonpositive (not_lt.mp positive)] at result
    cases result
    exact ⟨alloc, free, serves.null, List.Subset.refl _, absurd rfl⟩

/-- `calloc` returns `NULL` or what `malloc` returns. -/
theorem calloc_cases {n size : Int} {ptr : Nat}
    (result : calloc system n size s = .ok (ptr, s')) :
    (ptr = 0 ∧ s' = s) ∨ malloc system (wrap (n * size)) s = .ok (ptr, s') := by
  rw [calloc] at result
  split_ifs at result with isEmpty isLarge
  · cases result
    exact .inl ⟨rfl, rfl⟩
  · cases result
    exact .inl ⟨rfl, rfl⟩
  · right
    dsimp only at result
    cases made : malloc system (wrap (n * size)) s with
    | error fault =>
        change Except.bind (malloc system (wrap (n * size)) s) _ = _ at result
        rw [made] at result
        cases result
    | ok made' =>
        obtain ⟨ptr', s₁⟩ := made'
        rw [bind_eq made] at result
        split_ifs at result with isNull
        · cases result
          rw [isNull]
        · change Except.bind (clear ptr' (wrap (n * size)) s₁) _ = _ at result
          rw [clear] at result
          split_ifs at result
          · cases result
            rfl
          · cases result

/-- What holds at the start and stays after each call holds in every run. -/
theorem Run.serves (fresh : system.Fresh) (run : Run system allowed s live ptrs) :
    ∃ alloc free, s.Serves live ptrs alloc free := by
  induction run with
  | start => exact ⟨[], [], Heap.Serves.initial⟩
  | malloc _ isInt _ result inductionHypothesis =>
      obtain ⟨alloc, free, serves⟩ := inductionHypothesis
      obtain ⟨alloc', free', serves', -⟩ := serves.malloc_ok fresh isInt result
      exact ⟨alloc', free', serves'⟩
  | calloc _ _ result inductionHypothesis =>
      obtain ⟨alloc, free, serves⟩ := inductionHypothesis
      rcases calloc_cases result with ⟨rfl, rfl⟩ | result
      · exact ⟨alloc, free, serves.null⟩
      · obtain ⟨alloc', free', serves', -⟩ := serves.malloc_ok fresh (wrap_le _) result
        exact ⟨alloc', free', serves'⟩
  | free _ isPtr result inductionHypothesis =>
      obtain ⟨alloc, free, serves⟩ := inductionHypothesis
      obtain ⟨alloc', free', serves', -⟩ := serves.free_ok isPtr result
      exact ⟨alloc', free', serves'⟩

/-- Every chunk is on one of the two lists. They are linked both ways, start and end where the
variables say, and the mark of a chunk says on which it is. -/
structure Heap.Listed (s : Heap) (alloc free : List Nat) : Prop where
  once : (s.mapped.map Region.start).Perm (alloc ++ free)
  nodup : (alloc ++ free).Nodup
  allocLinked : Linked s.next s.prev 0 alloc 0
  freeLinked : Linked s.next s.prev 0 free 0
  allocHead : s.allocHead = alloc.headD 0
  allocTail : s.allocTail = alloc.getLastD 0
  freelistHead : s.freelistHead = free.headD 0
  marks : ∀ chunk, s.Valid chunk → (isChunkGetFreed (s.size chunk) = true ↔ chunk ∈ free)

theorem Heap.Holds.listed_lists (holds : s.Holds alloc free []) : s.Listed alloc free where
  once := holds.listed
  nodup := holds.nodup
  allocLinked := holds.allocChain.linked
  freeLinked := holds.freeChain.linked
  allocHead := holds.allocHead
  allocTail := holds.allocTail
  freelistHead := holds.freelistHead
  marks := by
    intro chunk valid
    constructor
    · intro marked
      rw [holds.valid_iff, List.nil_append, List.mem_append] at valid
      apply valid.resolve_left
      intro inUse
      rw [holds.allocChain.bit chunk inUse] at marked
      cases marked
    · exact holds.freeChain.bit chunk

/-- In every run the chunks are on the two lists, so `free` detects each chunk of the free list
and accepts each pointer in use, and `malloc` returns. -/
theorem run_listed (fresh : system.Fresh) (run : Run system allowed s live ptrs) :
    ∃ alloc free, s.Listed alloc free ∧
      (∀ chunk ∈ free, Libc.free (chunk + chunkHeader) s = .error .doubleFree) ∧
      (∀ allocation ∈ live, ∃ s', Libc.free allocation.1 s = .ok ((), s')) ∧
      ∀ size ≤ intMax, ∃ result, malloc system size s = .ok result := by
  obtain ⟨alloc, free, serves⟩ := run.serves fresh
  refine ⟨alloc, free, serves.holds.listed_lists, ?_, ?_, ?_⟩
  · intro chunk isFree
    exact serves.holds.free_freed isFree
  · intro allocation isLive
    obtain ⟨chunk, inUse, isPtr⟩ := serves.inUse allocation isLive
    obtain ⟨s', -, -, result, -⟩ := serves.free_inUse inUse
    exact ⟨s', isPtr ▸ result⟩
  · intro size isInt
    by_cases positive : 0 < size
    · obtain ⟨s', chunk, -, -, result, -⟩ := serves.malloc fresh positive isInt
      exact ⟨_, result⟩
    · exact ⟨_, malloc_nonpositive (not_lt.mp positive)⟩

/-- A system that maps each region at the first page behind the others. -/
def stacked (mapped : List Region) (_ : Nat) : Nat :=
  mapped.foldr (fun region top => max top ((region.start + region.length + 4095) / 4096 * 4096))
    4096

theorem le_stacked (mapped : List Region) (length : Nat) :
    ∀ region ∈ mapped, region.start + region.length ≤ stacked mapped length := by
  induction mapped with
  | nil => simp
  | cons region mapped inductionHypothesis =>
      simp only [stacked, List.foldr_cons] at inductionHypothesis ⊢
      refine List.forall_mem_cons.mpr ⟨by omega, ?_⟩
      intro other member
      exact (inductionHypothesis other member).trans (le_max_left _ _)

theorem stacked_fresh : Mmap.Fresh stacked where
  aligned mapped length := by
    induction mapped with
    | nil => exact Nat.dvd_refl _
    | cons region mapped inductionHypothesis =>
        simp only [stacked, List.foldr_cons] at inductionHypothesis ⊢
        omega
  notNull mapped length := by
    induction mapped with
    | nil => simp [stacked]
    | cons region mapped inductionHypothesis =>
        simp only [stacked, List.foldr_cons] at inductionHypothesis ⊢
        omega
  apart mapped length region member := .inr (le_stacked mapped length region member)

end Runs

section Example

variable {α β : Type} {s s' : Heap}

theorem bind_ok {first : OnHeap α} {rest : α → OnHeap β} {value : β}
    (isOk : (first >>= rest) s = .ok (value, s')) :
    ∃ value' s₁, first s = .ok (value', s₁) ∧ rest value' s₁ = .ok (value, s') := by
  change (first s).bind (fun result => rest result.1 result.2) = _ at isOk
  cases isFirst : first s with
  | error fault =>
      rw [isFirst] at isOk
      cases isOk
  | ok result =>
      rw [isFirst] at isOk
      exact ⟨result.1, result.2, rfl, isOk⟩

theorem ok_of_map {γ : Type} {result : Except Fault α} {view : α → γ} {value : γ}
    (isValue : result.map view = .ok value) :
    ∃ outcome, result = .ok outcome ∧ view outcome = value := by
  rcases result with fault | outcome
  · cases isValue
  · cases isValue
    exact ⟨outcome, rfl, rfl⟩

/-- What a run that frees one allocation before the next reaches. -/
theorem run_again {first next : Int} {ptr : Nat} {mapped : List Region} (isFirst : first ≤ intMax)
    (isNext : next ≤ intMax) (notNull : ptr ≠ 0)
    (start : (malloc stacked first .initial).map Prod.fst = .ok ptr)
    (whole : ((malloc stacked first >>= fun ptr => free ptr >>= fun _ => malloc stacked next)
      .initial).map (fun outcome => (outcome.1, outcome.2.mapped)) = .ok (ptr, mapped)) :
    ∃ s ptrs, Run stacked (fun _ _ => True) s [(ptr, next)] ptrs ∧ s.mapped = mapped := by
  obtain ⟨⟨ptr₁, s₁⟩, started, isPtr⟩ := ok_of_map start
  obtain ⟨⟨ptr₂, s₃⟩, ended, isSame⟩ := ok_of_map whole
  obtain rfl : ptr₁ = ptr := isPtr
  obtain rfl : ptr₂ = ptr₁ := congrArg Prod.fst isSame
  rw [bind_eq started] at ended
  obtain ⟨⟨⟩, s₂, freed, again⟩ := bind_ok ended
  have run₁ : Run stacked (fun _ _ => True) s₁ [(ptr₂, first)] [ptr₂] := by
    have run₀ : Run stacked (fun _ _ => True) .initial [] [] := .start
    have run := run₀.malloc isFirst trivial started
    rwa [allocated, if_neg notNull] at run
  have run₂ : Run stacked (fun _ _ => True) s₂ [] [ptr₂] := by
    simpa using run₁.free (.inr (List.mem_singleton_self _)) freed
  refine ⟨s₃, [ptr₂, ptr₂], ?_, congrArg Prod.snd isSame⟩
  have run := run₂.malloc isNext trivial again
  rwa [allocated, if_neg notNull] at run

/-- A chunk is freed and taken again by a smaller request. -/
theorem reused_listed : ∃ s : Heap, (∃ alloc free, s.Listed alloc free ∧
      (∀ chunk ∈ free, Libc.free (chunk + chunkHeader) s = .error .doubleFree) ∧
      (∀ allocation ∈ [(12300, (40 : Int))], ∃ s', Libc.free allocation.1 s = .ok ((), s')) ∧
      ∀ size ≤ intMax, ∃ result, malloc stacked size s = .ok result) := by
  obtain ⟨s, ptrs, run, -⟩ := @run_again 100 40 12300 [⟨12288, 4096⟩, ⟨8192, 4096⟩, ⟨4096, 4096⟩]
    (by decide) (by decide) (by decide) (by decide +kernel) (by decide +kernel)
  exact ⟨s, run_listed stacked_fresh run⟩

end Example

end Shecc.Libc
