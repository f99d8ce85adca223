import Shecc.Libc.Heap
import Shecc.LinkedList.Doubly

/-!
# What the allocator does to the heap

An equation for each part of `malloc` and `free` on a heap whose links lead to chunks: it
returns, and the links, the sizes and the variables after it are those of an edit of a
doubly linked list.
-/

namespace Shecc.Libc

open Function (update)
open Shecc.DoublyLinked (unlinkNext unlinkPrev)

variable {α β : Type} {s s' : Heap} {chunk : Nat} {system : Mmap}

theorem bind_eq {first : OnHeap α} {rest : α → OnHeap β} {value : α}
    (isOk : first s = .ok (value, s')) : (first >>= rest) s = rest value s' := by
  change (first s).bind (fun result => rest result.1 result.2) = _
  rw [isOk]
  rfl

theorem getNext_eq (valid : s.Valid chunk) : getNext chunk s = .ok (s.next chunk, s) :=
  if_pos valid

theorem getPrev_eq (valid : s.Valid chunk) : getPrev chunk s = .ok (s.prev chunk, s) :=
  if_pos valid

theorem getSize_eq (valid : s.Valid chunk) : getSize chunk s = .ok (s.size chunk, s) :=
  if_pos valid

theorem setNext_eq (valid : s.Valid chunk) (next : Nat) :
    setNext chunk next s = .ok ((), { s with next := update s.next chunk next }) :=
  if_pos valid

theorem setPrev_eq (valid : s.Valid chunk) (prev : Nat) :
    setPrev chunk prev s = .ok ((), { s with prev := update s.prev chunk prev }) :=
  if_pos valid

theorem setSize_eq (valid : s.Valid chunk) (size : Int) :
    setSize chunk size s = .ok ((), { s with size := update s.size chunk size }) :=
  if_pos valid

theorem chunkClearFreed_eq (valid : s.Valid chunk) :
    chunkClearFreed chunk s =
      .ok ((), { s with size := update s.size chunk (chunkGetSize (s.size chunk)) }) := by
  rw [chunkClearFreed, bind_eq (getSize_eq valid), setSize_eq valid]

theorem chunkSetFreed_eq (valid : s.Valid chunk) :
    chunkSetFreed chunk s =
      .ok ((), { s with size := update s.size chunk (chunkGetSize (s.size chunk) + 1) }) := by
  rw [chunkSetFreed, bind_eq (getSize_eq valid), setSize_eq valid]

/-- Where the system maps the next chunk. -/
def Heap.fresh (s : Heap) (system : Mmap) (size : Int) : Nat := system s.mapped (unsigned size)

/-- The heap with a new chunk of the size, and the size field of its header. -/
def Heap.extend (s : Heap) (system : Mmap) (size field : Int) : Heap :=
  { s with
    next := update s.next (s.fresh system size) 0
    prev := update s.prev (s.fresh system size) 0
    size := update s.size (s.fresh system size) field
    mapped := ⟨s.fresh system size, unsigned size⟩ :: s.mapped }

theorem Heap.valid_extend {size field : Int} :
    (s.extend system size field).Valid chunk ↔ chunk = s.fresh system size ∨ s.Valid chunk := by
  simp [Valid, extend]

theorem Heap.extend_size {size field : Int} :
    (s.extend system size field).size (s.fresh system size) = field :=
  Function.update_self ..

/-- A chunk of before stays as it is. -/
theorem Heap.extend_of_ne {size field : Int} (old : chunk ≠ s.fresh system size) :
    (s.extend system size field).next chunk = s.next chunk ∧
      (s.extend system size field).prev chunk = s.prev chunk ∧
      (s.extend system size field).size chunk = s.size chunk :=
  ⟨Function.update_of_ne old .., Function.update_of_ne old .., Function.update_of_ne old ..⟩

theorem valid_of_mapped {start length : Nat} {mapped : List Region}
    (isMapped : s.mapped = ⟨start, length⟩ :: mapped) : s.Valid start := by
  simp [Heap.Valid, isMapped]

theorem initAlloc_eq (isNull : s.allocHead = 0) :
    initAlloc system s = .ok ((), { s.extend system (alignPage chunkHeader) 0 with
      allocHead := s.fresh system (alignPage chunkHeader)
      allocTail := s.fresh system (alignPage chunkHeader) }) := by
  rw [initAlloc, bind_eq rfl, if_pos isNull, bind_eq rfl, bind_eq rfl]
  dsimp only
  rw [bind_eq (setNext_eq (valid_of_mapped rfl) _), bind_eq (setPrev_eq (valid_of_mapped rfl) _),
    setSize_eq (valid_of_mapped rfl)]
  simp [Heap.extend, Heap.fresh]

theorem initFreelist_eq (isNull : s.freelistHead = 0) :
    initFreelist system s = .ok ((), { s.extend system (alignPage chunkHeader) (-1) with
      freelistHead := s.fresh system (alignPage chunkHeader) }) := by
  rw [initFreelist, bind_eq rfl, if_pos isNull, bind_eq rfl, bind_eq rfl]
  dsimp only
  rw [bind_eq (setNext_eq (valid_of_mapped rfl) _), bind_eq (setPrev_eq (valid_of_mapped rfl) _),
    setSize_eq (valid_of_mapped rfl)]
  simp [Heap.extend, Heap.fresh]

/-- The size of a new chunk for a request. -/
def chunkSize (size : Int) : Int := alignPage (wrap (chunkHeader + size))

theorem newChunk_eq (size : Int) :
    newChunk system size s =
      .ok (s.fresh system (chunkSize size), s.extend system (chunkSize size) (chunkSize size)) := by
  rw [newChunk, bind_eq rfl, bind_eq (setSize_eq (valid_of_mapped rfl) _)]
  simp [Heap.extend, Heap.fresh, chunkSize]
  rfl

/-- The heap with a chunk taken out of its list. -/
def Heap.unlink (s : Heap) (chunk : Nat) : Heap :=
  { s with next := unlinkNext 0 s.next s.prev chunk, prev := unlinkPrev 0 s.next s.prev chunk }

/-- The links of a chunk lead to chunks. -/
structure Heap.Connected (s : Heap) (chunk : Nat) : Prop where
  valid : s.Valid chunk
  next : s.next chunk ≠ 0 → s.Valid (s.next chunk)
  prev : s.prev chunk ≠ 0 → s.Valid (s.prev chunk)

theorem removeFree_eq (connected : s.Connected chunk) :
    removeFree chunk s = .ok ((), { s.unlink chunk with
      freelistHead := if s.prev chunk = 0 then s.next chunk else s.freelistHead }) := by
  rw [removeFree, bind_eq (getPrev_eq connected.valid), bind_eq (getNext_eq connected.valid)]
  by_cases isFirst : s.prev chunk = 0
  · rw [if_neg (not_not.mpr isFirst), bind_eq rfl]
    by_cases isLast : s.next chunk = 0
    · rw [if_neg (not_not.mpr isLast)]
      simp [Heap.unlink, unlinkNext, unlinkPrev, isFirst, isLast]
      rfl
    · rw [if_pos isLast]
      apply (setPrev_eq _ _).trans
      · simp [Heap.unlink, unlinkNext, unlinkPrev, isFirst, isLast]
      · exact connected.next isLast
  · rw [if_pos isFirst, bind_eq (setNext_eq (connected.prev isFirst) _)]
    by_cases isLast : s.next chunk = 0
    · rw [if_neg (not_not.mpr isLast)]
      simp [Heap.unlink, unlinkNext, unlinkPrev, isFirst, isLast]
      rfl
    · rw [if_pos isLast]
      apply (setPrev_eq _ _).trans
      · simp [Heap.unlink, unlinkNext, unlinkPrev, isFirst, isLast]
      · exact connected.next isLast

theorem removeAlloc_eq (connected : s.Connected chunk) :
    removeAlloc chunk s = .ok ((), { s.unlink chunk with
      allocHead := if s.prev chunk = 0 then s.next chunk else s.allocHead
      allocTail :=
        if s.next chunk = 0 ∧ s.prev chunk ≠ 0 then s.prev chunk else s.allocTail }) := by
  rw [removeAlloc, bind_eq (getPrev_eq connected.valid), bind_eq (getNext_eq connected.valid)]
  by_cases isFirst : s.prev chunk = 0
  · rw [if_neg (not_not.mpr isFirst), bind_eq rfl]
    by_cases isLast : s.next chunk = 0
    · rw [if_neg (not_not.mpr isLast), if_neg (not_not.mpr isFirst)]
      simp [Heap.unlink, unlinkNext, unlinkPrev, isFirst, isLast]
      rfl
    · rw [if_pos isLast]
      apply (setPrev_eq _ _).trans
      · simp [Heap.unlink, unlinkNext, unlinkPrev, isFirst, isLast]
      · exact connected.next isLast
  · rw [if_pos isFirst, bind_eq (setNext_eq (connected.prev isFirst) _)]
    by_cases isLast : s.next chunk = 0
    · rw [if_neg (not_not.mpr isLast), if_pos isFirst]
      apply (bind_eq (setNext_eq _ _)).trans
      · simp [Heap.unlink, unlinkNext, unlinkPrev, isFirst, isLast]
        rfl
      · exact connected.prev isFirst
    · rw [if_pos isLast]
      apply (setPrev_eq _ _).trans
      · simp [Heap.unlink, unlinkNext, unlinkPrev, isFirst, isLast]
      · exact connected.next isLast

theorem appendAlloc_eq (valid : s.Valid chunk) (tail : s.Valid s.allocTail) :
    appendAlloc chunk s = .ok ((), { s with
      next := update (update s.next s.allocTail chunk) chunk 0
      prev := update s.prev chunk s.allocTail
      size := update s.size chunk (chunkGetSize (s.size chunk))
      allocTail := chunk }) := by
  rw [appendAlloc, bind_eq rfl, bind_eq (setNext_eq tail _)]
  apply (bind_eq (setPrev_eq _ _)).trans
  · apply (bind_eq rfl).trans
    apply (bind_eq (setNext_eq _ _)).trans
    · exact chunkClearFreed_eq valid
    · exact valid
  · exact valid

theorem pushFree_eq (valid : s.Valid chunk) (head : s.freelistHead ≠ 0)
    (validHead : s.Valid s.freelistHead) :
    pushFree chunk s = .ok ((), { s with
      next := update s.next chunk s.freelistHead
      prev := update (update s.prev chunk 0) s.freelistHead chunk
      size := update s.size chunk (chunkGetSize (s.size chunk) + 1)
      freelistHead := chunk }) := by
  rw [pushFree, bind_eq rfl, bind_eq (setNext_eq valid _)]
  apply (bind_eq (setPrev_eq _ _)).trans
  · apply (bind_eq (chunkSetFreed_eq _)).trans
    · rw [if_pos head]
      apply (bind_eq (setPrev_eq _ _)).trans
      · rfl
      · exact validHead
    · exact valid
  · exact valid

end Shecc.Libc
