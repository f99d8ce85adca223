import Shecc.Arenas.Runs
import Shecc.HashMaps.Refines

/-!
# Interning strings

`intern_string` of `globals.c`. The keys and the values of the map are pointers into the two
arenas, so what a key is depends on the memory.
-/

namespace Shecc.Interning

open Libc (wrap intMax)
open Arenas (Host Block Arena Bytes Region arenaAlloc arenaInit alignSize)
open HashMaps (Str Stop HashMap hashmapGet hashmapPut hashmapCreate)

/-- The characters from an address on, up to one that is 0. -/
def readChars (bytes : Bytes) : Nat → Int → Str
  | 0, _ => []
  | limit + 1, ptr => if bytes ptr = 0 then [] else bytes ptr :: readChars bytes limit (ptr + 1)

/-- How many addresses there are. -/
def addressSpace : Host → Nat
  | .narrow => 4294967296
  | .wide => 18446744073709551616

/-- The string at an address. -/
def readStr (host : Host) (bytes : Bytes) (ptr : Int) : Str :=
  readChars bytes (addressSpace host) ptr

/-- The loop of `strlen`. -/
def countChars (bytes : Bytes) : Nat → Int → Int
  | 0, _ => 0
  | limit + 1, ptr => if bytes ptr = 0 then 0 else countChars bytes limit (ptr + 1) + 1

/-- `strlen`. -/
def strlen (host : Host) (bytes : Bytes) (ptr : Int) : Int :=
  countChars bytes (addressSpace host) ptr

/-- `GENERAL_ARENA`, `HASHMAP_ARENA`, the memory and the map of `string_pool`, once they are set
up. -/
structure Pool where
  general : Arena
  keys : Arena
  bytes : Bytes
  strings : HashMap Int Int

/-- `arena_strdup`, in `HASHMAP_ARENA`. -/
def arenaStrdup (host : Host) (memory str : Int) (s : Arena × Bytes) :
    Except Stop (Int × Arena × Bytes) :=
  let n := wrap (strlen host s.2 str)
  match arenaAlloc host memory s.1 (wrap (n + 1)) with
  | none => .error (.abort "arena_alloc: size must be positive")
  | some (dup, keys) => .ok (dup, keys, Function.update (s.2.copy dup str n) (dup + n) 0)

/-- What `intern_string` does with a string that is not in the map. -/
def internNew (host : Host) (signedChar granted : Bool) (memory keysMemory : Int) (pool : Pool)
    (str : Int) : Except Stop (Int × Pool) :=
  match arenaAlloc host memory pool.general (wrap (strlen host pool.bytes str + 1)) with
  | none => .error (.abort "arena_alloc: size must be positive")
  | some (interned, general) =>
      let bytes := pool.bytes.copy interned str (strlen host pool.bytes str + 1)
      (hashmapPut signedChar (readStr host bytes) granted pool.strings (readStr host bytes interned)
        (some interned) (arenaStrdup host keysMemory interned) (pool.keys, bytes)).map
        fun put => (interned, ⟨general, put.2.1, put.2.2, put.1⟩)

/-- `intern_string`, where 0 is `NULL`. -/
def internString (host : Host) (signedChar granted : Bool) (memory keysMemory : Int) (pool : Pool)
    (str : Int) : Except Stop (Int × Pool) :=
  if str = 0 then .ok (0, pool)
  else
    match hashmapGet signedChar (readStr host pool.bytes) pool.strings (readStr host pool.bytes str) with
    | .error stop => .error stop
    | .ok (some interned) => .ok (interned, pool)
    | .ok none => internNew host signedChar granted memory keysMemory pool str

/-! ## Programs that intern strings -/

/-- A pool, the regions of its arenas that others hold, and the strings interned so far with the
pointers that were returned. -/
structure State where
  pool : Pool
  heldGeneral : List Region
  heldKeys : List Region
  interned : List (Str × Int)

/-- What a program does: it interns a string, uses one of the arenas, or stores to memory that
is not of the arenas. -/
inductive Action
  | intern (str : Int)
  | general (request : Arenas.Request)
  | keys (request : Arenas.Request)
  | store (address : Int) (byte : BitVec 8)

/-- `GENERAL_ARENA` as those see it who hold regions of it. -/
def State.generalSide (s : State) : Arenas.State := ⟨s.pool.general, s.pool.bytes, s.heldGeneral⟩

/-- `HASHMAP_ARENA` as those see it who hold regions of it. -/
def State.keysSide (s : State) : Arenas.State := ⟨s.pool.keys, s.pool.bytes, s.heldKeys⟩

/-- The buffers that `malloc` may supply to the two arenas, for sizes that are wanted. -/
structure Supplied (host : Host) (pool : Pool) (fresh freshKeys : Block) : Prop where
  general : Arenas.Supplies host pool.general fresh.memory fresh.capacity
  keys : Arenas.Supplies host pool.keys freshKeys.memory freshKeys.capacity
  generalApart : ∀ block ∈ pool.keys.blocks, fresh.Apart block
  keysApart : ∀ block ∈ pool.general.blocks, freshKeys.Apart block
  apart : fresh.Apart freshKeys

/-- The block that an arena would create for a size. -/
def freshBlock (host : Host) (arena : Arena) (memory size : Int) : Block :=
  ⟨memory, arena.newCapacity (alignSize host size), 0⟩

/-- A step of a program. -/
inductive Step (host : Host) (signedChar : Bool) (s : State) : Action → State → Prop where
  | internNull : Step host signedChar s (.intern 0) s
  | intern {str ptr memory keysMemory : Int} {granted : Bool} {pool : Pool} (isString : str ≠ 0)
      (ends : s.pool.bytes (str + strlen host s.pool.bytes str) = 0)
      (supplied : Supplied host s.pool
        (freshBlock host s.pool.general memory (strlen host s.pool.bytes str + 1))
        (freshBlock host s.pool.keys keysMemory (strlen host s.pool.bytes str + 1)))
      (returned : internString host signedChar granted memory keysMemory s.pool str =
        .ok (ptr, pool)) :
      Step host signedChar s (.intern str)
        { s with pool := pool, interned := (readStr host s.pool.bytes str, ptr) :: s.interned }
  | general {request : Arenas.Request} {memory : Int} {side : Arenas.State}
      (allowed : Arenas.Allowed s.generalSide request)
      (supplies : Arenas.Supplies host s.pool.general memory
        (s.pool.general.newCapacity (alignSize host request.wanted)))
      (apart : ∀ block ∈ s.pool.keys.blocks,
        (freshBlock host s.pool.general memory request.wanted).Apart block)
      (served : Arenas.serve host memory s.generalSide request = some side) :
      Step host signedChar s (.general request)
        { s with
          pool := { s.pool with general := side.arena, bytes := side.bytes }
          heldGeneral := side.live }
  | keys {request : Arenas.Request} {memory : Int} {side : Arenas.State}
      (allowed : Arenas.Allowed s.keysSide request)
      (supplies : Arenas.Supplies host s.pool.keys memory
        (s.pool.keys.newCapacity (alignSize host request.wanted)))
      (apart : ∀ block ∈ s.pool.general.blocks,
        (freshBlock host s.pool.keys memory request.wanted).Apart block)
      (served : Arenas.serve host memory s.keysSide request = some side) :
      Step host signedChar s (.keys request)
        { s with
          pool := { s.pool with keys := side.arena, bytes := side.bytes }
          heldKeys := side.live }
  | store {address : Int} {byte : BitVec 8}
      (outside : ∀ block ∈ s.pool.general.blocks ++ s.pool.keys.blocks,
        ¬(block.memory ≤ address ∧ address < block.memory + block.capacity)) :
      Step host signedChar s (.store address byte)
        { s with pool := { s.pool with bytes := Function.update s.pool.bytes address byte } }

/-- A run from the arenas and the map that were just set up, every step of which meets `ok`. -/
inductive Runs (host : Host) (signedChar : Bool) (ok : State → Action → Prop) : State → Prop where
  | start {memory capacity keysMemory keysCapacity cap : Int} {granted : Bool}
      {strings : HashMap Int Int} (bytes : Bytes) (positive : 0 < capacity)
      (isInt : capacity ≤ intMax) (keysPositive : 0 < keysCapacity)
      (keysIsInt : keysCapacity ≤ intMax) (isMemory : 0 < memory) (isKeysMemory : 0 < keysMemory)
      (aligned : memory % host.pointerSize = 0) (keysAligned : keysMemory % host.pointerSize = 0)
      (apart : (⟨memory, capacity, 0⟩ : Block).Apart ⟨keysMemory, keysCapacity, 0⟩)
      (capPositive : 0 < cap) (capIsInt : cap ≤ intMax)
      (created : hashmapCreate granted cap = some strings) :
      Runs host signedChar ok
        ⟨⟨arenaInit memory capacity, arenaInit keysMemory keysCapacity, bytes, strings⟩, [], [], []⟩
  | step {s s' : State} {action : Action} (before : Runs host signedChar ok s)
      (meets : ok s action) (step : Step host signedChar s action s') :
      Runs host signedChar ok s'

/-! ## What a program relies on -/

/-- Interning is canonical: equal strings have the same pointer, and the characters are still
those of the string. -/
structure Canonical (host : Host) (s : State) : Prop where
  same : ∀ entry ∈ s.interned, ∀ other ∈ s.interned, entry.2 = other.2 ↔ entry.1 = other.1
  chars : ∀ entry ∈ s.interned, readStr host s.pool.bytes entry.2 = entry.1

/-- The condition under which an action is served right. -/
def Fits (host : Host) (s : State) : Action → Prop
  | .intern str => str ≠ 0 →
      (∀ node, some node ∈ s.pool.strings.table →
        readStr host s.pool.bytes node.key ≠ readStr host s.pool.bytes str) →
      Arenas.Takes host 1 s.pool.general (strlen host s.pool.bytes str + 1) ∧
        Arenas.Takes host 1 s.pool.keys (strlen host s.pool.bytes str + 1)
  | .general request => Arenas.FitsWith (Arenas.Takes host 1) s.generalSide request
  | .keys request => Arenas.FitsWith (Arenas.Takes host 1) s.keysSide request
  | .store _ _ => True

end Shecc.Interning
