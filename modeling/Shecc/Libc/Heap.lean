import Mathlib.Logic.Function.Basic
import Shecc.Libc.Integers

/-!
# The heap of the runtime library

`malloc`, `calloc` and `free`. A chunk starts with a header of two links and its size, the
lowest bit of which says that the chunk is free. The chunks in use and the free ones are
two doubly linked lists, with a chunk of its own at the start of the first and at the end
of the second. The system answers `mmap2` and is not part of the library. Addresses are
natural numbers, and 0 is `NULL`.
-/

namespace Shecc.Libc

open Function (update)

/-- What `mmap2` maps. -/
structure Region where
  start : Nat
  length : Nat
  deriving DecidableEq

/-- The headers of the chunks, what is mapped, and the variables of the allocator. -/
structure Heap where
  next : Nat → Nat
  prev : Nat → Nat
  size : Nat → Int
  mapped : List Region
  allocHead : Nat
  allocTail : Nat
  freelistHead : Nat

/-- Why a call does not return. -/
inductive Fault
  | segmentation
  | doubleFree
  | outOfBounds
  | outOfFuel
  deriving DecidableEq

/-- A computation on the heap. -/
abbrev OnHeap := StateT Heap (Except Fault)

/-- Where the system maps a region of the length, given what is mapped. -/
abbrev Mmap := List Region → (length : Nat) → Nat

/-! ## Constants -/

/-- `PAGESIZE`. -/
def pageSize : Int := 4096

/-- `MIN_ALIGNMENT`. -/
def minAlignment : Int := 8

/-- `sizeof(chunk_t)`. -/
def chunkHeader : Nat := 12

/-- `ALIGN_UP`. -/
def alignUp (val align : Int) : Int := wrap (val + align - 1) / align * align

/-- `__align_up`. -/
def alignPage (size : Int) : Int := alignUp size pageSize

/-- `CHUNK_GET_SIZE`. -/
def chunkGetSize (size : Int) : Int := size - size % 2

/-- `IS_CHUNK_GET_FREED`. -/
def isChunkGetFreed (size : Int) : Bool := size % 2 == 1

/-! ## Memory -/

/-- A chunk starts here. -/
def Heap.Valid (s : Heap) (chunk : Nat) : Prop := chunk ∈ s.mapped.map Region.start

instance (s : Heap) (chunk : Nat) : Decidable (s.Valid chunk) :=
  inferInstanceAs (Decidable (chunk ∈ s.mapped.map Region.start))

/-- An access to a header. -/
def access {α : Type} (chunk : Nat) (result : Heap → α × Heap) : OnHeap α := fun s =>
  if s.Valid chunk then .ok (result s) else .error .segmentation

/-- `chunk->next`. -/
def getNext (chunk : Nat) : OnHeap Nat := access chunk fun s => (s.next chunk, s)

/-- `chunk->prev`. -/
def getPrev (chunk : Nat) : OnHeap Nat := access chunk fun s => (s.prev chunk, s)

/-- `chunk->size`. -/
def getSize (chunk : Nat) : OnHeap Int := access chunk fun s => (s.size chunk, s)

/-- `chunk->next = next`. -/
def setNext (chunk next : Nat) : OnHeap Unit :=
  access chunk fun s => ((), { s with next := update s.next chunk next })

/-- `chunk->prev = prev`. -/
def setPrev (chunk prev : Nat) : OnHeap Unit :=
  access chunk fun s => ((), { s with prev := update s.prev chunk prev })

/-- `chunk->size = size`. -/
def setSize (chunk : Nat) (size : Int) : OnHeap Unit :=
  access chunk fun s => ((), { s with size := update s.size chunk size })

/-- `chunk_set_freed`. -/
def chunkSetFreed (chunk : Nat) : OnHeap Unit := do
  let size ← getSize chunk
  setSize chunk (chunkGetSize size + 1)

/-- `chunk_clear_freed`. -/
def chunkClearFreed (chunk : Nat) : OnHeap Unit := do
  let size ← getSize chunk
  setSize chunk (chunkGetSize size)

/-- `mmap2`, which fills the region with zeros. -/
def mmap (system : Mmap) (length : Int) : OnHeap Nat := fun s =>
  let start := system s.mapped (unsigned length)
  .ok (start, { s with
    next := update s.next start 0
    prev := update s.prev start 0
    size := update s.size start 0
    mapped := ⟨start, unsigned length⟩ :: s.mapped })

/-! ## The functions -/

/-- `malloc` makes the chunk at the start of the allocated list. -/
def initAlloc (system : Mmap) : OnHeap Unit := do
  let s ← get
  if s.allocHead = 0 then do
    let tmp ← mmap system (alignPage chunkHeader)
    modify fun s => { s with allocHead := tmp, allocTail := tmp }
    setNext tmp 0
    setPrev tmp 0
    setSize tmp 0

/-- `malloc` makes the chunk at the end of the free list. -/
def initFreelist (system : Mmap) : OnHeap Unit := do
  let s ← get
  if s.freelistHead = 0 then do
    let tmp ← mmap system (alignPage chunkHeader)
    modify fun s => { s with freelistHead := tmp }
    setNext tmp 0
    setPrev tmp 0
    setSize tmp (-1)

/-- The search of `malloc` for the smallest chunk of at least `size`, cut off after `fuel`
rounds. -/
def bestFit (size : Int) : (fuel : Nat) → (fh best : Nat) → (bestSize : Int) → OnHeap Nat
  | 0, _, _, _ => fun _ => .error .outOfFuel
  | fuel + 1, fh, best, bestSize => do
      let next ← getNext fh
      if next = 0 then return best
      else do
        let field ← getSize fh
        if chunkGetSize field ≥ size ∧ (best = 0 ∨ chunkGetSize field < bestSize) then
          bestFit size fuel next fh (chunkGetSize field)
        else bestFit size fuel next best bestSize

/-- `malloc` takes the chunk out of the free list. -/
def removeFree (chunk : Nat) : OnHeap Unit := do
  let prev ← getPrev chunk
  let next ← getNext chunk
  if prev ≠ 0 then setNext prev next else modify fun s => { s with freelistHead := next }
  if next ≠ 0 then setPrev next prev

/-- What `malloc` finds in the free list. -/
def takeFree (size : Int) : OnHeap Nat := do
  let s ← get
  let next ← getNext s.freelistHead
  if next = 0 then return 0
  else do
    let chunk ← bestFit size s.mapped.length s.freelistHead 0 0
    if chunk ≠ 0 then removeFree chunk
    return chunk

/-- A new chunk for `malloc`. -/
def newChunk (system : Mmap) (size : Int) : OnHeap Nat := do
  let chunk ← mmap system (alignPage (wrap (chunkHeader + size)))
  setSize chunk (alignPage (wrap (chunkHeader + size)))
  return chunk

/-- `malloc` puts the chunk at the end of the allocated list. -/
def appendAlloc (chunk : Nat) : OnHeap Unit := do
  let s ← get
  setNext s.allocTail chunk
  setPrev chunk s.allocTail
  modify fun s => { s with allocTail := chunk }
  setNext chunk 0
  chunkClearFreed chunk

/-- `malloc`. -/
def malloc (system : Mmap) (size : Int) : OnHeap Nat :=
  if size ≤ 0 then return 0
  else do
    let size := alignUp size minAlignment
    initAlloc system
    initFreelist system
    let found ← takeFree size
    let chunk ← if found = 0 then newChunk system size else pure found
    appendAlloc chunk
    return chunk + chunkHeader

/-- `memset` with zeros, which stays in the chunk of its pointer. -/
def clear (ptr : Nat) (size : Int) : OnHeap Unit := fun s =>
  if ∃ region ∈ s.mapped, region.start + chunkHeader = ptr ∧
      chunkHeader + size ≤ region.length then .ok ((), s)
  else .error .outOfBounds

/-- `calloc`. -/
def calloc (system : Mmap) (n size : Int) : OnHeap Nat :=
  if n = 0 ∨ size = 0 then return 0
  else if n > intMax.tdiv size then return 0
  else do
    let total := wrap (n * size)
    let p ← malloc system total
    if p = 0 then return 0
    else do
      clear p total
      return p

/-- `free` takes the chunk out of the allocated list. -/
def removeAlloc (cur : Nat) : OnHeap Unit := do
  let prev ← getPrev cur
  let next ← getNext cur
  if prev ≠ 0 then setNext prev next else modify fun s => { s with allocHead := next }
  if next ≠ 0 then setPrev next prev
  else if prev ≠ 0 then do
    setNext prev 0
    modify fun s => { s with allocTail := prev }

/-- `free` puts the chunk at the start of the free list. -/
def pushFree (cur : Nat) : OnHeap Unit := do
  let s ← get
  setNext cur s.freelistHead
  setPrev cur 0
  chunkSetFreed cur
  if s.freelistHead ≠ 0 then setPrev s.freelistHead cur
  modify fun s => { s with freelistHead := cur }

/-- `free`. -/
def free (ptr : Nat) : OnHeap Unit :=
  if ptr = 0 then return ()
  else do
    let cur := ptr - chunkHeader
    let size ← getSize cur
    if isChunkGetFreed size then fun _ => .error .doubleFree
    else do
      removeAlloc cur
      pushFree cur

/-- The heap before the first call. -/
def Heap.initial : Heap := ⟨fun _ => 0, fun _ => 0, fun _ => 0, [], 0, 0, 0⟩

end Shecc.Libc
