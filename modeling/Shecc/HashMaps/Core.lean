import Shecc.Libc.Integers

/-!
# Hash maps

The open addressing of `globals.c`. What a bucket stores as its key is a parameter, with the
characters found there, so that it may be the string or a pointer to it. Whether `calloc` has
memory is an argument.
-/

namespace Shecc.HashMaps

open Libc (wrap)

/-- The characters of a string, up to the one that ends it. -/
abbrev Str := List (BitVec 8)

/-- `hashmap_node_t`, of a bucket that is occupied. -/
@[ext]
structure Node (K V : Type) where
  key : K
  val : Option V
  deriving DecidableEq

/-- `hashmap_t`. -/
structure HashMap (K V : Type) where
  size : Int
  cap : Int
  table : List (Option (Node K V))

/-- What ends the program, or what would. -/
inductive Stop
  | abort (message : String)
  /-- A loop that does not end, or a read outside of the table. -/
  | stuck
  deriving DecidableEq

/-- The value of a `char`. -/
def charValue (signedChar : Bool) (c : BitVec 8) : BitVec 32 :=
  if signedChar then c.signExtend 32 else c.setWidth 32

/-- `hashmap_hash_index`. -/
def hashmapHashIndex (signedChar : Bool) (size : Int) (key : Str) : Nat :=
  let hash := key.foldl
    (fun hash c => (hash ^^^ charValue signedChar c) * 0x01000193#32) 0x811c9dc5#32
  let mask := hash.sshiftRight 31
  (((hash ^^^ mask) - mask) &&& BitVec.ofInt 32 (size - 1)).toNat

/-- `round_up_pow2`. -/
def roundUpPow2 (v : Int) : Int :=
  let v := BitVec.ofInt 32 v - 1
  let v := v ||| v.sshiftRight 1
  let v := v ||| v.sshiftRight 2
  let v := v ||| v.sshiftRight 4
  let v := v ||| v.sshiftRight 8
  let v := v ||| v.sshiftRight 16
  (v + 1).toInt

section Tables

variable {K V σ : Type}

/-- `calloc` of a table, which has no memory for a count that is negative. -/
def callocTable (granted : Bool) (count : Int) : Option (List (Option (Node K V))) :=
  if granted && decide (0 ≤ count) then some (List.replicate count.toNat none) else none

/-- `hashmap_create`. -/
def hashmapCreate (granted : Bool) (cap : Int) : Option (HashMap K V) :=
  let cap := roundUpPow2 cap
  (callocTable granted cap).map fun table => { size := 0, cap := cap, table := table }

/-- Where a probe ends. -/
inductive Slot
  | free (index : Nat)
  | found (index : Nat)
  | full
  deriving DecidableEq

/-- The loop over buckets from `index` on: it ends at a free bucket, at a key that is the same,
or back at `start`. -/
def probe (table : List (Option (Node K V))) (cap : Int) (same : K → Bool) (start : Nat) :
    Nat → Nat → Option Slot
  | 0, _ => none
  | fuel + 1, index =>
      match table[index]? with
      | none => none
      | some none => some (.free index)
      | some (some node) =>
          if same node.key then some (.found index)
          else
            let index := (index + 1) &&& (cap - 1).toNat
            if index = start then some .full else probe table cap same start fuel index

/-- The probe for a string. -/
def HashMap.probe (map : HashMap K V) (signedChar : Bool) (same : K → Bool) (key : Str) :
    Option Slot :=
  let index := hashmapHashIndex signedChar map.cap key
  HashMaps.probe map.table map.cap same index map.cap.toNat index

/-- A free bucket becomes occupied. -/
def HashMap.occupy (map : HashMap K V) (index : Nat) (node : Node K V) : HashMap K V :=
  { map with size := wrap (map.size + 1), table := map.table.set index (some node) }

/-- The table when the node in a bucket gets another value. -/
def revalue (table : List (Option (Node K V))) (index : Nat) (val : Option V) :
    List (Option (Node K V)) :=
  table.modify index (Option.map fun node => { node with val := val })

variable (signedChar : Bool) (chars : K → Str)

/-- The body of the loop of `hashmap_rehash`. -/
def rehashNode (map : HashMap K V) (node : Node K V) : Except Stop (HashMap K V) :=
  match map.probe signedChar (fun _ => false) (chars node.key) with
  | some (.free index) => .ok (map.occupy index node)
  | some .full => .error (.abort "Error: New table is full during rehash")
  | _ => .error .stuck

/-- `hashmap_rehash`. -/
def hashmapRehash (granted : Bool) (map : HashMap K V) : Except Stop (HashMap K V) :=
  let cap := wrap (2 * map.cap)
  match callocTable granted cap with
  | none => .ok map
  | some table =>
      (map.table.filterMap id).foldlM (rehashNode signedChar chars)
        { size := 0, cap := cap, table := table }

/-- What `hashmap_put` does first: a table of which half is occupied is replaced. -/
def makeRoom (granted : Bool) (map : HashMap K V) : Except Stop (HashMap K V) :=
  if map.cap >>> (1 : Nat) ≤ map.size then hashmapRehash signedChar chars granted map else .ok map

/-- `hashmap_put`, where `strdup` stores a copy of the key. -/
def hashmapPut (granted : Bool) (map : HashMap K V) (key : Str) (val : Option V)
    (strdup : σ → Except Stop (K × σ)) (s : σ) : Except Stop (HashMap K V × σ) := do
  let map ← makeRoom signedChar chars granted map
  match map.probe signedChar (fun other => chars other = key) key with
  | some (.found index) =>
      return ({ map with table := revalue map.table index val }, s)
  | some (.free index) =>
      let (dup, s) ← strdup s
      return (map.occupy index ⟨dup, val⟩, s)
  | some .full => .error (.abort "Error: Hashmap is full")
  | none => .error .stuck

/-- `hashmap_get_node`. -/
def hashmapGetNode (map : HashMap K V) (key : Str) : Except Stop (Option (Node K V)) :=
  match map.probe signedChar (fun other => chars other = key) key with
  | some (.found index) => .ok (map.table[index]?.join)
  | some _ => .ok none
  | none => .error .stuck

/-- `hashmap_get`. -/
def hashmapGet (map : HashMap K V) (key : Str) : Except Stop (Option V) := do
  let node ← hashmapGetNode signedChar chars map key
  return node.bind Node.val

/-- `hashmap_contains`. -/
def hashmapContains (map : HashMap K V) (key : Str) : Except Stop Bool := do
  let node ← hashmapGetNode signedChar chars map key
  return node.isSome

end Tables

end Shecc.HashMaps
