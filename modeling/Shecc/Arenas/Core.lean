import Shecc.Libc.Integers

/-!
# Arenas

An arena is a chain of blocks, each a buffer of which the bytes up to an offset are handed
out. The functions of `globals.c` on an arena, with the arithmetic of an `int`. Where `malloc`
puts the buffer of a new block is an argument, and memory is what is stored at each address.
-/

namespace Shecc.Arenas

open Libc (wrap intMax)

/-- The machine that runs the compiler. -/
inductive Host
  | narrow
  | wide
  deriving DecidableEq

/-- `sizeof(void *)`. -/
def Host.pointerSize : Host → Int
  | .narrow => 4
  | .wide => 8

/-- `arena_block_t`. -/
structure Block where
  memory : Int
  capacity : Int
  offset : Int
  deriving DecidableEq

/-- `arena_t`: the blocks from `head` on. -/
structure Arena where
  blocks : List Block
  totalBytes : Int
  blockSize : Int

/-- What is stored at an address. -/
abbrev Bytes := Int → BitVec 8

/-- `DEFAULT_ARENA_SIZE`. -/
def defaultArenaSize : Int := 262144

/-- `arena_init`. -/
def arenaInit (memory initialCapacity : Int) : Arena where
  blocks := [⟨memory, initialCapacity, 0⟩]
  totalBytes := initialCapacity
  blockSize := initialCapacity

/-- `(size + alignment - 1) & ~(alignment - 1)`. -/
def alignSize (host : Host) (size : Int) : Int :=
  let size := wrap (size + host.pointerSize - 1)
  size - size % host.pointerSize

/-- The capacity of a block that is created for a request. -/
def Arena.newCapacity (arena : Arena) (size : Int) : Int :=
  let base := if arena.blockSize > defaultArenaSize then arena.blockSize else defaultArenaSize
  if size > base then size else base

/-- The request needs a new block. -/
def Arena.needsBlock (arena : Arena) (size : Int) : Bool :=
  match arena.blocks with
  | [] => true
  | head :: _ => wrap (head.offset + size) > head.capacity

/-- A new block in front of the others. -/
def Arena.addBlock (arena : Arena) (memory size : Int) : Arena :=
  { arena with
    blocks := ⟨memory, arena.newCapacity size, 0⟩ :: arena.blocks
    totalBytes := wrap (arena.totalBytes + arena.newCapacity size) }

/-- Hand out the next bytes of the first block. -/
def Arena.take (arena : Arena) (size : Int) : Option (Int × Arena) :=
  match arena.blocks with
  | [] => none
  | head :: rest =>
      some (head.memory + head.offset,
        { arena with blocks := { head with offset := wrap (head.offset + size) } :: rest })

/-- `arena_alloc`, which aborts for a size that is not positive. -/
def arenaAlloc (host : Host) (memory : Int) (arena : Arena) (size : Int) :
    Option (Int × Arena) :=
  if size ≤ 0 then none
  else
    let size := alignSize host size
    let arena := if arena.needsBlock size then arena.addBlock memory size else arena
    arena.take size

/-- `memset(ptr, 0, count)`. -/
def Bytes.clear (bytes : Bytes) (ptr count : Int) : Bytes := fun address =>
  if ptr ≤ address ∧ address < ptr + count then 0 else bytes address

/-- `memcpy(dest, src, count)`. -/
def Bytes.copy (bytes : Bytes) (dest src count : Int) : Bytes := fun address =>
  if dest ≤ address ∧ address < dest + count then bytes (src + (address - dest))
  else bytes address

/-- `arena_calloc`, which aborts for no bytes. -/
def arenaCalloc (host : Host) (memory : Int) (arena : Arena) (bytes : Bytes) (n size : Int) :
    Option (Int × Arena × Bytes) :=
  if wrap (n * size) = 0 then none
  else do
    let total := wrap (n * size)
    let (ptr, arena) ← arenaAlloc host memory arena total
    return (ptr, arena, bytes.clear ptr total)

/-- `arena_realloc`, where `oldptr` is 0 for `NULL`. -/
def arenaRealloc (host : Host) (memory : Int) (arena : Arena) (bytes : Bytes)
    (oldptr oldsz newsz : Int) : Option (Int × Arena × Bytes) :=
  if oldptr = 0 then
    if oldsz ≠ 0 then none
    else do
      let (ptr, arena) ← arenaAlloc host memory arena newsz
      return (ptr, arena, bytes)
  else if oldsz = 0 then none
  else if newsz ≤ oldsz then some (oldptr, arena, bytes)
  else
    match arena.blocks with
    | [] => none
    | blk :: rest =>
        let delta := wrap (newsz - oldsz)
        if oldptr + oldsz = blk.memory + blk.offset ∧ wrap (blk.offset + delta) ≤ blk.capacity then
          some (oldptr,
            { arena with blocks := { blk with offset := wrap (blk.offset + delta) } :: rest },
            bytes)
        else do
          let (newptr, arena) ← arenaAlloc host memory arena newsz
          return (newptr, arena, bytes.copy newptr oldptr oldsz)

/-- The blocks up to the last one in use, or the first if none is. -/
def keptBlocks (blocks : List Block) : List Block :=
  let used := (blocks.reverse.dropWhile fun block => !decide (block.offset > 0)).reverse
  if used = [] then blocks.take 1 else used

/-- `arena_free_trailing_blocks`: the bytes freed, and the arena. -/
def arenaFreeTrailingBlocks (arena : Arena) : Int × Arena :=
  let kept := keptBlocks arena.blocks
  let freed := arena.blocks.drop kept.length
  (freed.foldl (fun sum block => wrap (sum + block.capacity)) 0,
    { arena with
      blocks := kept
      totalBytes := freed.foldl (fun sum block => wrap (sum - block.capacity)) arena.totalBytes })

/-! ## Programs that use an arena -/

/-- A call of the allocator, or a store to memory. -/
inductive Request
  | alloc (size : Int)
  | calloc (n size : Int)
  | realloc (oldptr oldsz newsz : Int)
  | compact
  | store (address : Int) (byte : BitVec 8)
  deriving DecidableEq

/-- The bytes a caller was given: where they are and how many. -/
structure Region where
  ptr : Int
  size : Int
  deriving DecidableEq

/-- The address is of the region. -/
def Region.Covers (region : Region) (address : Int) : Prop :=
  region.ptr ≤ address ∧ address < region.ptr + region.size

/-- An arena, the memory, and the regions that were returned and not superseded. -/
structure State where
  arena : Arena
  bytes : Bytes
  live : List Region

/-- The state after a request that does not abort. -/
def serve (host : Host) (memory : Int) (s : State) : Request → Option State
  | .alloc size => do
      let (ptr, arena) ← arenaAlloc host memory s.arena size
      return { s with arena := arena, live := ⟨ptr, size⟩ :: s.live }
  | .calloc n size => do
      let (ptr, arena, bytes) ← arenaCalloc host memory s.arena s.bytes n size
      return { arena := arena, bytes := bytes, live := ⟨ptr, n * size⟩ :: s.live }
  | .realloc oldptr oldsz newsz => do
      let (ptr, arena, bytes) ← arenaRealloc host memory s.arena s.bytes oldptr oldsz newsz
      return { arena := arena, bytes := bytes, live := ⟨ptr, newsz⟩ :: s.live.erase ⟨oldptr, oldsz⟩ }
  | .compact => some { s with arena := (arenaFreeTrailingBlocks s.arena).2 }
  | .store address byte => some { s with bytes := Function.update s.bytes address byte }

/-- A program passes `arena_realloc` `NULL` or a region it was given, with its size, and stores
to regions it was given. -/
def Allowed (s : State) : Request → Prop
  | .realloc oldptr oldsz _ => oldptr = 0 ∨ 0 ≤ oldsz ∧ ⟨oldptr, oldsz⟩ ∈ s.live
  | .store address _ => ∃ region ∈ s.live, region.Covers address
  | _ => True

/-- The size the request asks `arena_alloc` for. -/
def Request.wanted : Request → Int
  | .alloc size => size
  | .calloc n size => wrap (n * size)
  | .realloc _ _ newsz => newsz
  | _ => 0

/-- What `malloc` guarantees of the buffer of a block: it is aligned, not at `NULL`, and apart
from the buffers that are not freed. -/
structure Supplies (host : Host) (arena : Arena) (memory capacity : Int) : Prop where
  positive : 0 < memory
  aligned : memory % host.pointerSize = 0
  apart : ∀ block ∈ arena.blocks,
    memory + capacity ≤ block.memory ∨ block.memory + block.capacity ≤ memory

/-- A step of a program. -/
inductive Step (host : Host) (s : State) (request : Request) (s' : State) : Prop where
  | intro (memory : Int) (allowed : Allowed s request)
      (supplies : Supplies host s.arena memory
        (s.arena.newCapacity (alignSize host request.wanted)))
      (served : serve host memory s request = some s')

/-- A run from an arena that was just set up, every step of which meets `ok`. -/
inductive Runs (host : Host) (ok : State → Request → Prop) : State → Prop where
  | start {memory initialCapacity : Int} (bytes : Bytes) (positive : 0 < initialCapacity)
      (isInt : initialCapacity ≤ intMax) (isMemory : 0 < memory)
      (aligned : memory % host.pointerSize = 0) :
      Runs host ok ⟨arenaInit memory initialCapacity, bytes, []⟩
  | step {s s' : State} {request : Request} (before : Runs host ok s) (meets : ok s request)
      (step : Step host s request s') : Runs host ok s'

end Shecc.Arenas
