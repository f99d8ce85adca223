import Mathlib.Data.List.Pairwise
import Shecc.Libc.HeapCalls

/-!
# The regions of the allocations

What a program may write is the region from a pointer on, of the size it asked for. The
search of `malloc` compares the size of a free chunk, its header included, with the request
alone. The header takes 12 bytes of a page, so no pointer is aligned to 8.
-/

namespace Shecc.Libc

variable {s s' : Heap} {system : Mmap} {allowed : Heap → Int → Prop} {live : List (Nat × Int)}
  {ptrs : List Nat} {alloc free : List Nat} {size : Int}

/-- The byte is of the region of the allocation. -/
def Occupies (allocation : Nat × Int) (byte : Nat) : Prop :=
  allocation.1 ≤ byte ∧ (byte : Int) < allocation.1 + allocation.2

/-- The regions in use share nothing with each other or with a header, and are mapped. -/
structure Separate (s : Heap) (live : List (Nat × Int)) : Prop where
  disjoint : live.Pairwise fun allocation other =>
    ∀ byte, Occupies allocation byte → ¬Occupies other byte
  headers : ∀ allocation ∈ live, ∀ chunk, s.Valid chunk → ∀ byte, Occupies allocation byte →
    ¬(chunk ≤ byte ∧ byte < chunk + chunkHeader)
  mapped : ∀ allocation ∈ live, ∀ byte, Occupies allocation byte →
    ∃ region ∈ s.mapped, region.start ≤ byte ∧ byte < region.start + region.length

/-- What a program relies on. -/
structure Contract (s : Heap) (live : List (Nat × Int)) : Prop extends Separate s live where
  aligned : ∀ allocation ∈ live, (allocation.1 : Int) % minAlignment = 0

/-- The search of `malloc` for the size may take the chunk. -/
def Heap.Candidate (s : Heap) (size : Int) (chunk : Nat) : Prop :=
  s.Valid chunk ∧ isChunkGetFreed (s.size chunk) = true ∧ s.next chunk ≠ 0 ∧
    alignUp size minAlignment ≤ chunkGetSize (s.size chunk)

/-- A request takes a new chunk, or a free one that has room for its header and the request. -/
def Heap.Roomy (s : Heap) (size : Int) : Prop :=
  0 < size → ∀ region ∈ s.mapped, s.Candidate size region.start →
    (∀ other, s.Candidate size other →
      chunkGetSize (s.size region.start) ≤ chunkGetSize (s.size other)) →
    chunkHeader + size ≤ region.length

theorem Heap.Holds.mem_dropLast_iff (holds : s.Holds alloc free []) {chunk : Nat} :
    chunk ∈ free.dropLast ↔
      s.Valid chunk ∧ isChunkGetFreed (s.size chunk) = true ∧ s.next chunk ≠ 0 := by
  rcases free.eq_nil_or_concat' with rfl | ⟨rest, last, rfl⟩
  · constructor
    · intro member
      cases member
    · rintro ⟨valid, marked, -⟩
      rw [holds.valid_iff, List.nil_append, List.append_nil] at valid
      rw [holds.allocChain.bit chunk valid] at marked
      cases marked
  · rw [List.dropLast_concat]
    constructor
    · intro member
      refine ⟨holds.valid_iff.mpr (by simp [member]), holds.freeChain.bit chunk (by simp [member]),
        ?_⟩
      obtain ⟨front, back, rfl⟩ := List.append_of_mem member
      have linked := holds.freeChain.linked
      rw [List.append_assoc, List.cons_append] at linked
      rw [linked.next_eq]
      intro isNull
      apply holds.null_not_mem
      rw [← isNull]
      cases back <;> simp
    · rintro ⟨valid, marked, notLast⟩
      rw [holds.valid_iff, List.nil_append, List.mem_append, List.mem_append,
        List.mem_singleton] at valid
      rcases valid with inUse | member | rfl
      · rw [holds.allocChain.bit chunk inUse] at marked
        cases marked
      · exact member
      · exact absurd holds.freeChain.linked.next_eq notLast

theorem Heap.Holds.candidate_iff (holds : s.Holds alloc free []) {chunk : Nat} :
    s.Candidate size chunk ↔
      chunk ∈ free.dropLast ∧ alignUp size minAlignment ≤ chunkGetSize (s.size chunk) := by
  rw [holds.mem_dropLast_iff, Heap.Candidate, and_assoc, and_assoc]

theorem Heap.exists_region {chunk : Nat} (valid : s.Valid chunk) :
    ∃ region ∈ s.mapped, region.start = chunk :=
  List.mem_map.mp valid

instance : Std.Symm Region.Apart := ⟨fun _ _ => Or.symm⟩

theorem Heap.Laid.apart_of_ne {chunks : List Nat} (laid : s.Laid chunks) {region other : Region}
    (member : region ∈ s.mapped) (member' : other ∈ s.mapped) (isOther : region ≠ other) :
    region.Apart other :=
  laid.apart.forall member member' isOther

/-- The chunk of a request has room for it if and only if the request is roomy. -/
theorem Heap.Chosen.room_iff {mapped : List Region} {chunk : Nat} (holds : s.Holds alloc free [])
    (more : s.mapped ⊆ mapped) (positive : 0 < size) (isInt : size ≤ intMax)
    (chosen : s.Chosen free size mapped chunk) :
    ∃ region ∈ mapped, region.start = chunk ∧
      (chunkHeader + size ≤ region.length ↔ s.Roomy size) := by
  rcases chosen with ⟨small, isNew⟩ | ⟨isFree, fits, least⟩
  · refine ⟨_, isNew, rfl, fun _ _ region member candidate _ => ?_, fun _ => ?_⟩
    · rw [holds.candidate_iff] at candidate
      exact absurd candidate.2 (not_le.mpr (small _ candidate.1))
    · exact (chunkSize_long positive isInt).2
  · have valid : s.Valid chunk := (holds.mem_dropLast_iff.mp isFree).1
    obtain ⟨region, member, rfl⟩ := Heap.exists_region valid
    have length {region : Region} (member : region ∈ s.mapped)
        (isFree : region.start ∈ free.dropLast) :
        unsigned (chunkGetSize (s.size region.start)) = region.length :=
      holds.laid.lengths region member (by simp [isFree])
    refine ⟨region, more member, rfl, fun room _ other member' candidate minimal => ?_,
      fun roomy => ?_⟩
    · rw [holds.candidate_iff] at candidate
      have atMost := least other.start candidate.1 candidate.2
      have atLeast := minimal region.start (holds.candidate_iff.mpr ⟨isFree, fits⟩)
      rwa [← length member' candidate.1, le_antisymm atLeast atMost, length member isFree]
    · apply roomy positive region member (holds.candidate_iff.mpr ⟨isFree, fits⟩)
      intro other candidate
      rw [holds.candidate_iff] at candidate
      exact least other candidate.1 candidate.2

/-- Each allocation has room in its chunk. -/
def Heap.Houses (s : Heap) (live : List (Nat × Int)) : Prop :=
  ∀ allocation ∈ live, ∃ region ∈ s.mapped, allocation.1 = region.start + chunkHeader ∧
    chunkHeader + allocation.2 ≤ region.length

theorem Heap.Serves.separate (serves : s.Serves live ptrs alloc free) (houses : s.Houses live) :
    Separate s live where
  disjoint := by
    apply (List.pairwise_map.mp serves.distinct).imp_of_mem
    intro allocation other member member' isOther byte occupies occupies'
    obtain ⟨region, isMapped, isPtr, room⟩ := houses allocation member
    obtain ⟨region', isMapped', isPtr', room'⟩ := houses other member'
    have apart : region.Apart region' := by
      apply serves.holds.laid.apart_of_ne isMapped isMapped'
      rintro rfl
      exact isOther (isPtr.trans isPtr'.symm)
    rw [Region.Apart] at apart
    rw [Occupies] at occupies occupies'
    omega
  headers := by
    intro allocation member chunk valid byte occupies header
    obtain ⟨region, isMapped, isPtr, room⟩ := houses allocation member
    obtain ⟨region', isMapped', rfl⟩ := Heap.exists_region valid
    rw [Occupies] at occupies
    by_cases isSame : region = region'
    · rw [← isSame] at header
      omega
    · have apart := serves.holds.laid.apart_of_ne isMapped isMapped' isSame
      have pages := serves.holds.laid.pages region' isMapped'
      rw [Region.Apart] at apart
      rw [chunkHeader] at *
      omega
  mapped := by
    intro allocation member byte occupies
    obtain ⟨region, isMapped, isPtr, room⟩ := houses allocation member
    rw [Occupies] at occupies
    exact ⟨region, isMapped, by omega, by omega⟩

/-- The region behind a chunk without room is not mapped, or starts with a header. -/
theorem Heap.Serves.not_separate {region : Region} (serves : s.Serves live ptrs alloc free)
    (member : region ∈ s.mapped) (isLive : (region.start + chunkHeader, size) ∈ live)
    (noRoom : ¬chunkHeader + size ≤ region.length) : ¬Separate s live := by
  intro separate
  have pages := serves.holds.laid.pages region member
  have occupies : Occupies (region.start + chunkHeader, size) (region.start + region.length) := by
    simp only [Occupies, chunkHeader] at noRoom ⊢
    omega
  obtain ⟨other, member', starts, ends⟩ := separate.mapped _ isLive _ occupies
  have apart : region.Apart other := by
    apply serves.holds.laid.apart_of_ne member member'
    rintro rfl
    omega
  rw [Region.Apart] at apart
  apply separate.headers _ isLive other.start (List.mem_map_of_mem member') _ occupies
  rw [chunkHeader]
  omega

theorem Heap.Serves.not_aligned (serves : s.Serves live ptrs alloc free)
    {allocation : Nat × Int} (isLive : allocation ∈ live) :
    (allocation.1 : Int) % minAlignment ≠ 0 := by
  obtain ⟨chunk, inUse, isPtr⟩ := serves.inUse allocation isLive
  have valid : s.Valid chunk := by
    rw [serves.holds.valid_iff]
    simp [List.mem_of_mem_tail inUse]
  obtain ⟨region, member, rfl⟩ := Heap.exists_region valid
  have pages := serves.holds.laid.pages region member
  rw [isPtr, chunkHeader, minAlignment]
  omega

/-- The allocations of before have room still. -/
theorem Heap.Houses.mono (houses : s.Houses live) (more : s.mapped ⊆ s'.mapped) :
    s'.Houses live := by
  intro allocation isLive
  obtain ⟨region, member, hasRoom⟩ := houses allocation isLive
  exact ⟨region, more member, hasRoom⟩

/-- `malloc` returns `NULL` or a chunk that has room if the request is roomy. -/
theorem Heap.Serves.malloc_room {ptr : Nat} (serves : s.Serves live ptrs alloc free)
    (fresh : system.Fresh) (isInt : size ≤ intMax)
    (result : Libc.malloc system size s = .ok (ptr, s')) :
    ∃ alloc' free', s'.Serves (allocated ptr size live) (ptr :: ptrs) alloc' free' ∧
      s.mapped ⊆ s'.mapped ∧
      (ptr ≠ 0 → ∃ region ∈ s'.mapped, ptr = region.start + chunkHeader ∧
        (chunkHeader + size ≤ region.length ↔ s.Roomy size)) := by
  obtain ⟨alloc', free', serves', more, isChosen⟩ := serves.malloc_ok fresh isInt result
  refine ⟨alloc', free', serves', more, ?_⟩
  intro notNull
  obtain ⟨positive, chunk, isPtr, chosen⟩ := isChosen notNull
  obtain ⟨region, member, rfl, room⟩ := chosen.room_iff serves.holds more positive isInt
  exact ⟨region, member, isPtr, room⟩

theorem Heap.Houses.malloc {ptr : Nat} (houses : s.Houses live) (roomy : s.Roomy size)
    (more : s.mapped ⊆ s'.mapped)
    (hasRoom : ptr ≠ 0 → ∃ region ∈ s'.mapped, ptr = region.start + chunkHeader ∧
      (chunkHeader + size ≤ region.length ↔ s.Roomy size)) :
    s'.Houses (allocated ptr size live) := by
  rw [allocated]
  split_ifs with isNull
  · exact houses.mono more
  · obtain ⟨region, member, isPtr, room⟩ := hasRoom isNull
    exact List.forall_mem_cons.mpr ⟨⟨region, member, isPtr, room.mpr roomy⟩, houses.mono more⟩

/-- In a run of roomy requests each allocation has room. -/
theorem Run.houses (fresh : system.Fresh) (run : Run system Heap.Roomy s live ptrs) :
    ∃ alloc free, s.Serves live ptrs alloc free ∧ s.Houses live := by
  induction run with
  | start => exact ⟨[], [], Heap.Serves.initial, by simp [Heap.Houses]⟩
  | malloc _ isInt roomy result inductionHypothesis =>
      obtain ⟨alloc, free, serves, houses⟩ := inductionHypothesis
      obtain ⟨alloc', free', serves', more, hasRoom⟩ := serves.malloc_room fresh isInt result
      exact ⟨alloc', free', serves', houses.malloc roomy more hasRoom⟩
  | calloc _ roomy result inductionHypothesis =>
      obtain ⟨alloc, free, serves, houses⟩ := inductionHypothesis
      rcases calloc_cases result with ⟨rfl, rfl⟩ | result
      · exact ⟨alloc, free, serves.null, houses⟩
      · obtain ⟨alloc', free', serves', more, hasRoom⟩ :=
          serves.malloc_room fresh (wrap_le _) result
        exact ⟨alloc', free', serves', houses.malloc roomy more hasRoom⟩
  | free _ isPtr result inductionHypothesis =>
      obtain ⟨alloc, free, serves, houses⟩ := inductionHypothesis
      obtain ⟨alloc', free', serves', same⟩ := serves.free_ok isPtr result
      refine ⟨alloc', free', serves', ?_⟩
      intro allocation isLive
      rw [same]
      exact houses allocation (List.mem_of_mem_filter isLive)

/-- A roomy request of `calloc` clears the chunk alone. -/
theorem Heap.Serves.calloc_ok {n size : Int} (serves : s.Serves live ptrs alloc free)
    (fresh : system.Fresh) (roomy : s.Roomy (wrap (n * size))) :
    ∃ result, calloc system n size s = .ok result := by
  rw [calloc]
  split_ifs
  · exact ⟨_, rfl⟩
  · exact ⟨_, rfl⟩
  · dsimp only
    by_cases positive : 0 < wrap (n * size)
    · obtain ⟨s', chunk, _, _, result, _, more, chosen⟩ :=
        serves.malloc fresh positive (wrap_le _)
      obtain ⟨region, member, isChunk, room⟩ :=
        chosen.room_iff serves.holds more positive (wrap_le _)
      have cleared : clear (chunk + chunkHeader) (wrap (n * size)) s' = .ok ((), s') :=
        if_pos ⟨region, member, by rw [isChunk], room.mpr roomy⟩
      rw [bind_eq result, if_neg (by simp [chunkHeader]), bind_eq cleared]
      exact ⟨_, rfl⟩
    · rw [bind_eq (malloc_nonpositive (not_lt.mp positive)), if_pos rfl]
      exact ⟨_, rfl⟩

/-- The contract holds of the runs without an allocation in use. But for the alignment it
holds of the runs of roomy requests, and a request that is not roomy breaks it. -/
theorem contract_iff (fresh : system.Fresh) :
    (∀ allowed s live ptrs, Run system allowed s live ptrs → (Contract s live ↔ live = [])) ∧
      (∀ s live ptrs, Run system Heap.Roomy s live ptrs → Separate s live ∧
        ∀ n size, s.Roomy (wrap (n * size)) → ∃ result, calloc system n size s = .ok result) ∧
      ∀ allowed s live ptrs, Run system allowed s live ptrs → ∀ size ptr s', 0 < size →
        size ≤ intMax → malloc system size s = .ok (ptr, s') → ¬s.Roomy size →
          ¬Separate s' (allocated ptr size live) := by
  refine ⟨?_, ?_, ?_⟩
  · intro allowed s live ptrs run
    obtain ⟨alloc, free, serves⟩ := run.serves fresh
    constructor
    · intro contract
      rcases live with _ | ⟨allocation, live⟩
      · rfl
      · exact absurd (contract.aligned _ List.mem_cons_self)
          (serves.not_aligned List.mem_cons_self)
    · rintro rfl
      exact ⟨⟨List.Pairwise.nil, by simp, by simp⟩, by simp⟩
  · intro s live ptrs run
    obtain ⟨alloc, free, serves, houses⟩ := run.houses fresh
    exact ⟨serves.separate houses, fun _ _ => serves.calloc_ok fresh⟩
  · intro allowed s live ptrs run size ptr s' positive isInt result notRoomy
    obtain ⟨alloc, free, serves⟩ := run.serves fresh
    obtain ⟨alloc', free', serves', -, hasRoom⟩ := serves.malloc_room fresh isInt result
    obtain ⟨_, chunk, _, _, result', -⟩ := serves.malloc fresh positive isInt
    rw [result] at result'
    cases result'
    have notNull : chunk + chunkHeader ≠ 0 := by simp [chunkHeader]
    obtain ⟨region, member, isPtr, room⟩ := hasRoom notNull
    apply serves'.not_separate member _ (mt room.mp notRoomy)
    rw [allocated, if_neg notNull, isPtr]
    exact List.mem_cons_self

/-- A freed chunk of one page is taken by a request of one page, which does not leave room for
the header. -/
theorem reused_not_separate : Mmap.Fresh stacked ∧ ∃ s ptrs,
    Run stacked (fun _ _ => True) s [(12300, 4096)] ptrs ∧ ¬Separate s [(12300, 4096)] ∧
      (12300 : Int) % minAlignment = 4 := by
  obtain ⟨s, ptrs, run, isMapped⟩ := @run_again 4080 4096 12300
    [⟨12288, 4096⟩, ⟨8192, 4096⟩, ⟨4096, 4096⟩]
    (by decide) (by decide) (by decide) (by decide +kernel) (by decide +kernel)
  refine ⟨stacked_fresh, s, ptrs, run, ?_, by decide⟩
  intro separate
  obtain ⟨region, member, starts, ends⟩ :=
    separate.mapped (12300, 4096) (List.mem_singleton_self _) 16384 (by simp [Occupies])
  simp only [isMapped, List.mem_cons, List.not_mem_nil, or_false] at member
  rcases member with rfl | rfl | rfl <;> exact absurd ends (by decide)

theorem reused_contract_iff :
    (∀ allowed s live ptrs, Run stacked allowed s live ptrs → (Contract s live ↔ live = [])) ∧
      (∀ s live ptrs, Run stacked Heap.Roomy s live ptrs → Separate s live ∧
        ∀ n size, s.Roomy (wrap (n * size)) → ∃ result, calloc stacked n size s = .ok result) ∧
      ∀ allowed s live ptrs, Run stacked allowed s live ptrs → ∀ size ptr s', 0 < size →
        size ≤ intMax → malloc stacked size s = .ok (ptr, s') → ¬s.Roomy size →
          ¬Separate s' (allocated ptr size live) :=
  contract_iff stacked_fresh

end Shecc.Libc
