import Shecc.Arenas.Frame
import Shecc.Interning.Core

/-!
# Interning is canonical

Each string that was interned has a region of its own for its key and one for its value, in which
nobody else stores, so its characters stay and the map finds it again.
-/

namespace Shecc.Interning

open Libc (wrap intMax wrap_eq)
open Arenas (Host Block Arena Bytes Region arenaAlloc arenaInit alignSize)
open HashMaps (Str Stop HashMap Node hashmapGet hashmapPut hashmapCreate)

variable {host : Host} {signedChar : Bool} {bytes bytes' : Bytes}

/-! ## Strings in memory -/

/-- What is read depends on the characters up to the end. -/
theorem readChars_congr {limit : Nat} {ptr ptr' : Int}
    (agree : ∀ i : Nat, i ≤ (readChars bytes limit ptr).length →
      bytes' (ptr' + i) = bytes (ptr + i)) :
    readChars bytes' limit ptr' = readChars bytes limit ptr := by
  induction limit generalizing ptr ptr' with
  | zero => rfl
  | succ limit inductionHypothesis =>
      have first := agree 0 (Nat.zero_le _)
      simp only [Nat.cast_zero, Int.add_zero] at first
      rw [readChars, readChars, first]
      split_ifs with ends
      · rfl
      · congr 1
        apply inductionHypothesis
        intro i inRange
        have later := agree (i + 1) (by
          rw [readChars, if_neg ends, List.length_cons]
          omega)
        push_cast at later
        rwa [Int.add_assoc, Int.add_comm 1, Int.add_assoc, Int.add_comm 1]

/-- A string starts with the character at its address. -/
theorem readStr_head (host : Host) {ptr : Int} (notEnd : bytes ptr ≠ 0) :
    (readStr host bytes ptr).head? = some (bytes ptr) := by
  have more : ∃ limit, addressSpace host = limit + 1 := by
    cases host
    · exact ⟨4294967295, rfl⟩
    · exact ⟨18446744073709551615, rfl⟩
  obtain ⟨limit, isLimit⟩ := more
  rw [readStr, isLimit, readChars, if_neg notEnd]
  rfl

theorem countChars_eq (bytes : Bytes) (limit : Nat) (ptr : Int) :
    countChars bytes limit ptr = (readChars bytes limit ptr).length := by
  induction limit generalizing ptr with
  | zero => rfl
  | succ limit inductionHypothesis =>
      rw [countChars, readChars]
      split_ifs
      · rfl
      · rw [inductionHypothesis, List.length_cons]
        push_cast
        rfl

theorem strlen_eq (host : Host) (bytes : Bytes) (ptr : Int) :
    strlen host bytes ptr = (readStr host bytes ptr).length :=
  countChars_eq bytes _ ptr

/-- The string is stored in a region. -/
structure Stored (host : Host) (bytes : Bytes) (own : List Region) (ptr : Int) (str : Str) : Prop where
  region : ⟨ptr, str.length + 1⟩ ∈ own
  chars : readStr host bytes ptr = str

/-- The memories have the same bytes in the region. -/
def Agree (bytes bytes' : Bytes) (region : Region) : Prop :=
  ∀ address, region.Covers address → bytes' address = bytes address

theorem Stored.frame {own own' : List Region} {ptr : Int} {str : Str}
    (stored : Stored host bytes own ptr str) (more : own ⊆ own')
    (agree : ∀ region ∈ own, Agree bytes bytes' region) : Stored host bytes' own' ptr str where
  region := more stored.region
  chars := by
    have chars := stored.chars
    rw [readStr] at chars
    rw [readStr, ← chars]
    apply readChars_congr
    intro i inRange
    apply agree _ stored.region
    rw [chars] at inRange
    rw [Region.Covers]
    simp only
    omega

/-! ## The invariant -/

/-- What holds in every run: the two arenas are apart, and every string of the map is stored in
the regions of the pool. -/
structure Inv (host : Host) (signedChar : Bool) (s : State) (own ownKeys : List Region) :
    Prop where
  general : Arenas.Inv host 1 s.pool.general (s.heldGeneral ++ own)
  keys : Arenas.Inv host 1 s.pool.keys (s.heldKeys ++ ownKeys)
  across : ∀ block ∈ s.pool.general.blocks, ∀ other ∈ s.pool.keys.blocks, block.Apart other
  strings : HashMaps.Inv signedChar (readStr host s.pool.bytes) s.pool.strings
  nodes : ∀ node, some node ∈ s.pool.strings.table → ∃ str ptr, node.val = some ptr ∧
    Stored host s.pool.bytes ownKeys node.key str ∧ Stored host s.pool.bytes own ptr str
  interned : ∀ entry ∈ s.interned, ∃ node, some node ∈ s.pool.strings.table ∧
    readStr host s.pool.bytes node.key = entry.1 ∧ node.val = some entry.2

/-- Regions of arenas that are apart are apart. -/
theorem apart_of_across {arena other : Arena} {live live' : List Region}
    (inv : Arenas.Inv host 1 arena live) (inv' : Arenas.Inv host 1 other live')
    (across : ∀ block ∈ arena.blocks, ∀ block' ∈ other.blocks, block.Apart block')
    {region region' : Region} (member : region ∈ live) (member' : region' ∈ live') :
    region.Apart region' := by
  intro address covers covers'
  obtain ⟨-, block, isBlock, inBlock⟩ := inv.placed region member
  obtain ⟨-, block', isBlock', inBlock'⟩ := inv'.placed region' member'
  have high := (inv.valid block isBlock).high
  have high' := (inv'.valid block' isBlock').high
  have low := inBlock.low
  have ends := inBlock.ends
  have low' := inBlock'.low
  have ends' := inBlock'.ends
  rw [Region.Covers] at covers covers'
  rcases across block isBlock block' isBlock' with below | above
  · omega
  · omega

theorem agree_of_apart {region other : Region} (apart : region.Apart other)
    (touched : ∀ address, bytes' address ≠ bytes address → region.Covers address) :
    Agree bytes bytes' other := by
  intro address covers
  by_contra changed
  exact apart address (touched address changed) covers

namespace Inv

variable {s : State} {own ownKeys : List Region}

theorem canonical (inv : Inv host signedChar s own ownKeys) : Canonical host s where
  same := by
    intro entry member other member'
    obtain ⟨node, isNode, isKey, isVal⟩ := inv.interned entry member
    obtain ⟨node', isNode', isKey', isVal'⟩ := inv.interned other member'
    obtain ⟨str, ptr, hasVal, storedKey, stored⟩ := inv.nodes node isNode
    obtain ⟨str', ptr', hasVal', storedKey', stored'⟩ := inv.nodes node' isNode'
    constructor
    · intro samePtr
      obtain rfl := Option.some.inj (hasVal.symm.trans isVal)
      obtain rfl := Option.some.inj (hasVal'.symm.trans isVal')
      rw [← isKey, ← isKey', storedKey.chars, storedKey'.chars, ← stored.chars, ← stored'.chars,
        samePtr]
    · intro sameStr
      obtain ⟨i, bucket⟩ := List.mem_iff_getElem?.mp isNode
      obtain ⟨j, bucket'⟩ := List.mem_iff_getElem?.mp isNode'
      obtain rfl := inv.strings.distinct i j node node' bucket bucket'
        (isKey.trans (sameStr.trans isKey'.symm))
      obtain rfl := Option.some.inj (Option.some.inj (bucket.symm.trans bucket'))
      exact Option.some.inj (isVal.symm.trans isVal')
  chars := by
    intro entry member
    obtain ⟨node, isNode, isKey, isVal⟩ := inv.interned entry member
    obtain ⟨str, ptr, hasVal, storedKey, stored⟩ := inv.nodes node isNode
    obtain rfl := Option.some.inj (hasVal.symm.trans isVal)
    rw [stored.chars, ← storedKey.chars, isKey]

/-- What leaves the regions of the keys alone leaves the keys. -/
theorem sameKey (inv : Inv host signedChar s own ownKeys)
    (agreeKeys : ∀ region ∈ ownKeys, Agree s.pool.bytes bytes' region) (node : Node Int Int)
    (member : some node ∈ s.pool.strings.table) :
    readStr host bytes' node.key = readStr host s.pool.bytes node.key := by
  obtain ⟨str, ptr, -, storedKey, -⟩ := inv.nodes node member
  rw [storedKey.chars, (storedKey.frame (List.Subset.refl _) agreeKeys).chars]

/-- What leaves the regions of the pool alone keeps the invariant. -/
theorem frame {general keys : Arena} {heldGeneral heldKeys own' ownKeys' : List Region}
    (inv : Inv host signedChar s own ownKeys)
    (generalInv : Arenas.Inv host 1 general (heldGeneral ++ own'))
    (keysInv : Arenas.Inv host 1 keys (heldKeys ++ ownKeys'))
    (across : ∀ block ∈ general.blocks, ∀ other ∈ keys.blocks, block.Apart other)
    (more : own ⊆ own') (moreKeys : ownKeys ⊆ ownKeys')
    (agree : ∀ region ∈ own, Agree s.pool.bytes bytes' region)
    (agreeKeys : ∀ region ∈ ownKeys, Agree s.pool.bytes bytes' region) :
    Inv host signedChar
      ⟨⟨general, keys, bytes', s.pool.strings⟩, heldGeneral, heldKeys, s.interned⟩
      own' ownKeys' := by
  have sameKey := inv.sameKey agreeKeys
  constructor
  · exact generalInv
  · exact keysInv
  · exact across
  · exact inv.strings.congr sameKey
  · intro node member
    obtain ⟨str, ptr, isVal, storedKey, stored⟩ := inv.nodes node member
    exact ⟨str, ptr, isVal, storedKey.frame moreKeys agreeKeys, stored.frame more agree⟩
  · intro entry member
    obtain ⟨node, isNode, isKey, isVal⟩ := inv.interned entry member
    exact ⟨node, isNode, (sameKey node isNode).trans isKey, isVal⟩

/-- A request on `GENERAL_ARENA` by those who hold regions of it. -/
theorem serveGeneral {memory : Int} {request : Arenas.Request} {side : Arenas.State}
    (inv : Inv host signedChar s own ownKeys)
    (allowed : Arenas.Allowed s.generalSide request)
    (supplies : Arenas.Supplies host s.pool.general memory
      (s.pool.general.newCapacity (alignSize host request.wanted)))
    (apart : ∀ block ∈ s.pool.keys.blocks,
      (freshBlock host s.pool.general memory request.wanted).Apart block)
    (fits : Arenas.FitsWith (Arenas.Takes host 1) s.generalSide request)
    (served : Arenas.serve host memory s.generalSide request = some side) :
    Inv host signedChar
      { s with
        pool := { s.pool with general := side.arena, bytes := side.bytes }
        heldGeneral := side.live } own ownKeys := by
  have sideInv : Arenas.Inv host 1 s.generalSide.arena s.generalSide.live :=
    inv.general.sublist (List.sublist_append_left _ _)
  have general := @Arenas.Inv.serve_shared _ _ _ s.generalSide _ _ own inv.general allowed supplies
    fits served
  have across : ∀ block ∈ side.arena.blocks, ∀ other ∈ s.pool.keys.blocks, block.Apart other :=
    fun block member other isOther =>
      (Arenas.serve_from sideInv allowed fits served member).apart
        (fun old isOld => inv.across old isOld other isOther) (apart other isOther)
  apply inv.frame general inv.keys across (List.Subset.refl _) (List.Subset.refl _)
  · intro region member address covers
    by_contra changed
    obtain ⟨held, isHeld, covers'⟩ := Arenas.serve_touches sideInv allowed fits served changed
    exact (List.pairwise_append.mp general.disjoint).2.2 held isHeld region member address covers'
      covers
  · intro region member address covers
    by_contra changed
    obtain ⟨held, isHeld, covers'⟩ := Arenas.serve_touches sideInv allowed fits served changed
    exact apart_of_across general inv.keys across (List.mem_append_left _ isHeld)
      (List.mem_append_right _ member) address covers' covers

/-- A request on `HASHMAP_ARENA` by those who hold regions of it. -/
theorem serveKeys {memory : Int} {request : Arenas.Request} {side : Arenas.State}
    (inv : Inv host signedChar s own ownKeys)
    (allowed : Arenas.Allowed s.keysSide request)
    (supplies : Arenas.Supplies host s.pool.keys memory
      (s.pool.keys.newCapacity (alignSize host request.wanted)))
    (apart : ∀ block ∈ s.pool.general.blocks,
      (freshBlock host s.pool.keys memory request.wanted).Apart block)
    (fits : Arenas.FitsWith (Arenas.Takes host 1) s.keysSide request)
    (served : Arenas.serve host memory s.keysSide request = some side) :
    Inv host signedChar
      { s with
        pool := { s.pool with keys := side.arena, bytes := side.bytes }
        heldKeys := side.live } own ownKeys := by
  have sideInv : Arenas.Inv host 1 s.keysSide.arena s.keysSide.live :=
    inv.keys.sublist (List.sublist_append_left _ _)
  have keys := @Arenas.Inv.serve_shared _ _ _ s.keysSide _ _ ownKeys inv.keys allowed supplies
    fits served
  have across : ∀ block ∈ s.pool.general.blocks, ∀ other ∈ side.arena.blocks, block.Apart other :=
    fun block member other isOther =>
      ((Arenas.serve_from sideInv allowed fits served isOther).apart
        (fun old isOld => (inv.across block member old isOld).symm) (apart block member)).symm
  apply inv.frame inv.general keys across (List.Subset.refl _) (List.Subset.refl _)
  · intro region member address covers
    by_contra changed
    obtain ⟨held, isHeld, covers'⟩ := Arenas.serve_touches sideInv allowed fits served changed
    exact apart_of_across inv.general keys across (List.mem_append_right _ member)
      (List.mem_append_left _ isHeld) address covers covers'
  · intro region member address covers
    by_contra changed
    obtain ⟨held, isHeld, covers'⟩ := Arenas.serve_touches sideInv allowed fits served changed
    exact (List.pairwise_append.mp keys.disjoint).2.2 held isHeld region member address covers'
      covers

/-- A store to memory that is not of the arenas. -/
theorem storeOutside {address : Int} (inv : Inv host signedChar s own ownKeys)
    (outside : ∀ block ∈ s.pool.general.blocks ++ s.pool.keys.blocks,
      ¬(block.memory ≤ address ∧ address < block.memory + block.capacity)) (byte : BitVec 8) :
    Inv host signedChar
      { s with pool := { s.pool with bytes := Function.update s.pool.bytes address byte } }
      own ownKeys := by
  have other {arena : Arena} {live : List Region} (inArena : Arenas.Inv host 1 arena live)
      (outside : ∀ block ∈ arena.blocks,
        ¬(block.memory ≤ address ∧ address < block.memory + block.capacity))
      {region : Region} (member : region ∈ live) :
      Agree s.pool.bytes (Function.update s.pool.bytes address byte) region := by
    intro address' covers
    apply Function.update_of_ne
    rintro rfl
    obtain ⟨-, block, isBlock, inBlock⟩ := inArena.placed region member
    have high := (inArena.valid block isBlock).high
    have low := inBlock.low
    have ends := inBlock.ends
    rw [Region.Covers] at covers
    exact outside block isBlock ⟨by omega, by omega⟩
  exact inv.frame inv.general inv.keys inv.across (List.Subset.refl _) (List.Subset.refl _)
    (fun region member => other inv.general
      (fun block isBlock => outside block (List.mem_append_left _ isBlock))
      (List.mem_append_right _ member))
    (fun region member => other inv.keys
      (fun block isBlock => outside block (List.mem_append_right _ isBlock))
      (List.mem_append_right _ member))

/-- A region of `GENERAL_ARENA` is taken and written. -/
theorem takeGeneral {memory size ptr : Int} {general : Arena}
    (inv : Inv host signedChar s own ownKeys) (takes : Arenas.Takes host 1 s.pool.general size)
    (supplies : Arenas.Supplies host s.pool.general memory
      (s.pool.general.newCapacity (alignSize host size)))
    (apart : ∀ block ∈ s.pool.keys.blocks,
      (freshBlock host s.pool.general memory size).Apart block)
    (returned : arenaAlloc host memory s.pool.general size = some (ptr, general))
    (touched : ∀ address, bytes' address ≠ s.pool.bytes address →
      Region.Covers ⟨ptr, size⟩ address) :
    Inv host signedChar
      ⟨⟨general, s.pool.keys, bytes', s.pool.strings⟩, s.heldGeneral, s.heldKeys, s.interned⟩
      (⟨ptr, size⟩ :: own) ownKeys ∧
    ∀ region ∈ ownKeys, Agree s.pool.bytes bytes' region := by
  have generalInv := inv.general.alloc (fun _ => takes) supplies returned
  have across : ∀ block ∈ general.blocks, ∀ other ∈ s.pool.keys.blocks, block.Apart other :=
    fun block member other isOther => (Arenas.arenaAlloc_from returned member).apart
      (fun old isOld => inv.across old isOld other isOther) (apart other isOther)
  have agree : ∀ region ∈ own, Agree s.pool.bytes bytes' region := fun region member =>
    agree_of_apart ((List.pairwise_cons.mp generalInv.disjoint).1 region
      (List.mem_append_right _ member)) touched
  have agreeKeys : ∀ region ∈ ownKeys, Agree s.pool.bytes bytes' region := fun region member =>
    agree_of_apart (apart_of_across generalInv inv.keys across List.mem_cons_self
      (List.mem_append_right _ member)) touched
  exact ⟨inv.frame (generalInv.perm List.perm_middle) inv.keys across (List.subset_cons_self _ _)
    (List.Subset.refl _) agree agreeKeys, agreeKeys⟩

/-- A region of `HASHMAP_ARENA` is taken and written. -/
theorem takeKeys {memory size ptr : Int} {keys : Arena}
    (inv : Inv host signedChar s own ownKeys) (takes : Arenas.Takes host 1 s.pool.keys size)
    (supplies : Arenas.Supplies host s.pool.keys memory
      (s.pool.keys.newCapacity (alignSize host size)))
    (apart : ∀ block ∈ s.pool.general.blocks,
      (freshBlock host s.pool.keys memory size).Apart block)
    (returned : arenaAlloc host memory s.pool.keys size = some (ptr, keys))
    (touched : ∀ address, bytes' address ≠ s.pool.bytes address →
      Region.Covers ⟨ptr, size⟩ address) :
    Inv host signedChar
      ⟨⟨s.pool.general, keys, bytes', s.pool.strings⟩, s.heldGeneral, s.heldKeys, s.interned⟩
      own (⟨ptr, size⟩ :: ownKeys) ∧
    (∀ region ∈ own, Agree s.pool.bytes bytes' region) ∧
      ∀ region ∈ ownKeys, Agree s.pool.bytes bytes' region := by
  have keysInv := inv.keys.alloc (fun _ => takes) supplies returned
  have across : ∀ block ∈ s.pool.general.blocks, ∀ other ∈ keys.blocks, block.Apart other :=
    fun block member other isOther => ((Arenas.arenaAlloc_from returned isOther).apart
      (fun old isOld => (inv.across block member old isOld).symm) (apart block member)).symm
  have agree : ∀ region ∈ own, Agree s.pool.bytes bytes' region := fun region member =>
    agree_of_apart (apart_of_across inv.general keysInv across (List.mem_append_right _ member)
      List.mem_cons_self).symm touched
  have agreeKeys : ∀ region ∈ ownKeys, Agree s.pool.bytes bytes' region := fun region member =>
    agree_of_apart ((List.pairwise_cons.mp keysInv.disjoint).1 region
      (List.mem_append_right _ member)) touched
  exact ⟨inv.frame inv.general (keysInv.perm List.perm_middle) across (List.Subset.refl _)
    (List.subset_cons_self _ _) agree agreeKeys, agree, agreeKeys⟩

/-- A string that is stored gets a node. -/
theorem addNode {map : HashMap Int Int} {same : Int → Bool} {index : Nat} {dup ptr : Int}
    {text : Str} (inv : Inv host signedChar s own ownKeys)
    (mapInv : HashMaps.Inv signedChar (readStr host s.pool.bytes) map)
    (nodes : ∀ node, some node ∈ map.table ↔ some node ∈ s.pool.strings.table)
    (free : map.probe signedChar same text = some (.free index))
    (absent : ∀ node, some node ∈ s.pool.strings.table → readStr host s.pool.bytes node.key ≠ text)
    (storedKey : Stored host s.pool.bytes ownKeys dup text)
    (stored : Stored host s.pool.bytes own ptr text) :
    Inv host signedChar
      { s with
        pool := { s.pool with strings := map.occupy index ⟨dup, some ptr⟩ }
        interned := (text, ptr) :: s.interned } own ownKeys := by
  have isKey := storedKey.chars
  obtain ⟨occupied, -⟩ : HashMaps.Inv signedChar (readStr host s.pool.bytes)
      (map.occupy index ⟨dup, some ptr⟩) ∧ _ :=
    mapInv.occupy (by rw [isKey]; exact free) (by
      intro other member
      rw [isKey]
      exact absent other ((nodes other).mp member))
  have members := HashMaps.mem_occupy (mapInv.isFree free).1 ⟨dup, some ptr⟩
  constructor
  · exact inv.general
  · exact inv.keys
  · exact inv.across
  · exact occupied
  · intro node member
    rcases (members node).mp member with rfl | isOld
    · exact ⟨text, ptr, rfl, storedKey, stored⟩
    · exact inv.nodes node ((nodes node).mp isOld)
  · intro entry member
    rcases List.mem_cons.mp member with rfl | isOld
    · exact ⟨_, (members _).mpr (.inl rfl), isKey, rfl⟩
    · obtain ⟨node, isNode, isEntry⟩ := inv.interned entry isOld
      exact ⟨node, (members node).mpr (.inr ((nodes node).mpr isNode)), isEntry⟩

end Inv

/-- A copy of a string is the string. -/
theorem readStr_copy {str ptr : Int} :
    readStr host (bytes.copy ptr str (strlen host bytes str + 1)) ptr = readStr host bytes str := by
  apply readChars_congr
  intro i inRange
  have inRange : (i : Int) ≤ strlen host bytes str := by
    rw [strlen_eq, readStr]
    exact_mod_cast inRange
  rw [Bytes.copy, if_pos ⟨by omega, by omega⟩]
  congr 1
  omega

/-- The copy that `arena_strdup` makes is the string. -/
theorem readStr_strdup {str ptr : Int} (ends : bytes (str + strlen host bytes str) = 0) :
    readStr host (Function.update (bytes.copy ptr str (strlen host bytes str)) (ptr + strlen host bytes str) 0)
      ptr = readStr host bytes str := by
  apply readChars_congr
  intro i inRange
  have inRange : (i : Int) ≤ strlen host bytes str := by
    rw [strlen_eq, readStr]
    exact_mod_cast inRange
  rcases Int.lt_or_eq_of_le inRange with before | isEnd
  · rw [Function.update_of_ne (by omega), Bytes.copy, if_pos ⟨by omega, by omega⟩]
    congr 1
    omega
  · rw [isEnd, Function.update_self, ends]

namespace Inv

variable {s : State} {own ownKeys : List Region}

/-- `intern_string` keeps the invariant. -/
theorem intern {str ptr memory keysMemory : Int} {granted : Bool} {pool : Pool}
    (inv : Inv host signedChar s own ownKeys) (isString : str ≠ 0)
    (ends : s.pool.bytes (str + strlen host s.pool.bytes str) = 0)
    (supplied : Supplied host s.pool
      (freshBlock host s.pool.general memory (strlen host s.pool.bytes str + 1))
      (freshBlock host s.pool.keys keysMemory (strlen host s.pool.bytes str + 1)))
    (fits : Fits host s (.intern str))
    (returned : internString host signedChar granted memory keysMemory s.pool str =
      .ok (ptr, pool)) :
    ∃ own' ownKeys', Inv host signedChar
      { s with pool := pool, interned := (readStr host s.pool.bytes str, ptr) :: s.interned }
      own' ownKeys' := by
  rw [internString, if_neg isString] at returned
  rcases inv.strings.getNode (readStr host s.pool.bytes str) with
    ⟨node, member, isKey, isGet⟩ | ⟨absent, isGet⟩
  · obtain ⟨text, interned, isVal, -, -⟩ := inv.nodes node member
    have isFound : hashmapGet signedChar (readStr host s.pool.bytes) s.pool.strings
        (readStr host s.pool.bytes str) = .ok (some interned) := by
      rw [hashmapGet, isGet, ← isVal]
      rfl
    simp only [isFound, Except.ok.injEq, Prod.mk.injEq] at returned
    obtain ⟨rfl, rfl⟩ := returned
    refine ⟨own, ownKeys, { inv with interned := ?_ }⟩
    intro entry isEntry
    rcases List.mem_cons.mp isEntry with rfl | isOld
    · exact ⟨node, member, isKey, isVal⟩
    · exact inv.interned entry isOld
  · obtain ⟨takes, takesKeys⟩ := fits isString absent
    have rounds := takes.rounds
    have positive := host.pointerSize_pos
    have nonNegative : 0 ≤ strlen host s.pool.bytes str := by
      rw [strlen_eq]
      exact Int.natCast_nonneg _
    have isLen : wrap (strlen host s.pool.bytes str + 1) = strlen host s.pool.bytes str + 1 :=
      wrap_eq (by omega) (by omega)
    have notFound : hashmapGet signedChar (readStr host s.pool.bytes) s.pool.strings
        (readStr host s.pool.bytes str) = .ok none := by
      rw [hashmapGet, isGet]
      rfl
    simp only [notFound] at returned
    unfold internNew at returned
    generalize alloc : arenaAlloc host memory s.pool.general
      (wrap (strlen host s.pool.bytes str + 1)) = taken at returned
    cases taken with
    | none => exact absurd returned (by simp)
    | some taken =>
        obtain ⟨interned, general⟩ := taken
        simp only at returned
        rw [isLen] at alloc
        have touched (address : Int) (changed : s.pool.bytes.copy interned str
            (strlen host s.pool.bytes str + 1) address ≠ s.pool.bytes address) :
            Region.Covers ⟨interned, strlen host s.pool.bytes str + 1⟩ address := by
          by_contra outside
          exact changed (if_neg outside)
        obtain ⟨first, agreeKeys⟩ := inv.takeGeneral takes supplied.general supplied.generalApart
          alloc touched
        have sameKey := inv.sameKey agreeKeys
        generalize isBytes : s.pool.bytes.copy interned str (strlen host s.pool.bytes str + 1) = bytes
          at first sameKey returned
        have isText : readStr host bytes interned = readStr host s.pool.bytes str := by
          rw [← isBytes]
          exact readStr_copy
        have isStrlen : strlen host bytes interned = strlen host s.pool.bytes str := by
          rw [strlen_eq, isText, strlen_eq]
        have absent' : ∀ node, some node ∈ s.pool.strings.table →
            readStr host bytes node.key ≠ readStr host bytes interned := by
          intro node member
          rw [sameKey node member, isText]
          exact absent node member
        obtain ⟨moved, isMoved, ⟨-, aborts⟩ | ⟨index, free, isPut⟩⟩ :=
          @HashMaps.Inv.put_absent _ _ _ _ _ _ granted _ (some interned)
            (arenaStrdup host keysMemory interned) (s.pool.keys, bytes) first.strings absent'
        · rw [aborts] at returned
          exact absurd returned (by simp [Except.map])
        · rw [isPut] at returned
          cases isDup : arenaStrdup host keysMemory interned (s.pool.keys, bytes) with
          | error stop =>
              rw [isDup] at returned
              exact absurd returned (by simp [Except.map])
          | ok taken =>
              obtain ⟨dup, keys, bytes'⟩ := taken
              rw [isDup] at returned
              simp only [Except.map, Except.ok.injEq, Prod.mk.injEq] at returned
              obtain ⟨rfl, rfl⟩ := returned
              unfold arenaStrdup at isDup
              have isN : wrap (strlen host bytes interned) = strlen host s.pool.bytes str := by
                rw [isStrlen]
                exact wrap_eq (by omega) (by omega)
              simp only [isN, isLen] at isDup
              generalize allocKeys : arenaAlloc host keysMemory s.pool.keys
                (strlen host s.pool.bytes str + 1) = taken at isDup
              cases taken with
              | none => exact absurd isDup (by simp)
              | some taken =>
                  obtain ⟨dup', keys'⟩ := taken
                  simp only [Except.ok.injEq, Prod.mk.injEq] at isDup
                  obtain ⟨rfl, rfl, isBytes'⟩ := isDup
                  have endsThere : bytes (interned + strlen host bytes interned) = 0 := by
                    rw [isStrlen, ← isBytes, Bytes.copy, if_pos ⟨by omega, by omega⟩, ← ends]
                    congr 1
                    omega
                  have isText' : readStr host bytes' dup' = readStr host s.pool.bytes str := by
                    rw [← isText, ← readStr_strdup endsThere, isStrlen, isBytes']
                  have touched' (address : Int) (changed : bytes' address ≠ bytes address) :
                      Region.Covers ⟨dup', strlen host s.pool.bytes str + 1⟩ address := by
                    by_contra outside
                    rw [Region.Covers] at outside
                    apply changed
                    rw [← isBytes', Function.update_of_ne (by simp only at outside; omega)]
                    exact if_neg fun inside => outside ⟨inside.1, by simp only; omega⟩
                  obtain ⟨second, agree, agreeKeys'⟩ := first.takeKeys takesKeys supplied.keys
                    (fun block member => ((Arenas.arenaAlloc_from alloc member).apart
                      (fun old isOld => (supplied.keysApart old isOld).symm)
                      supplied.apart).symm)
                    allocKeys touched'
                  have sameKey' := first.sameKey agreeKeys'
                  have textLen := strlen_eq host s.pool.bytes str
                  have stored : Stored host bytes
                      (⟨interned, strlen host s.pool.bytes str + 1⟩ :: own) interned
                      (readStr host s.pool.bytes str) :=
                    ⟨by rw [← textLen]; exact List.mem_cons_self, isText⟩
                  refine ⟨_, _, second.addNode
                    (isMoved.inv.congr fun node member =>
                      sameKey' node ((isMoved.nodes node).mp member))
                    isMoved.nodes (isText ▸ free) ?_ ⟨?_, isText'⟩
                    (stored.frame (List.Subset.refl _) agree)⟩
                  · intro node member
                    rw [sameKey' node member, sameKey node member]
                    exact absent node member
                  · rw [← textLen]
                    exact List.mem_cons_self

end Inv

/-! ## Runs -/

/-- The arenas and the map that were just set up. -/
theorem inv_start {memory capacity keysMemory keysCapacity cap : Int} {granted : Bool}
    {strings : HashMap Int Int} (bytes : Bytes) (positive : 0 < capacity)
    (isInt : capacity ≤ intMax) (keysPositive : 0 < keysCapacity)
    (keysIsInt : keysCapacity ≤ intMax) (isMemory : 0 < memory) (isKeysMemory : 0 < keysMemory)
    (aligned : memory % host.pointerSize = 0) (keysAligned : keysMemory % host.pointerSize = 0)
    (apart : (⟨memory, capacity, 0⟩ : Block).Apart ⟨keysMemory, keysCapacity, 0⟩)
    (capPositive : 0 < cap) (capIsInt : cap ≤ intMax)
    (created : hashmapCreate granted cap = some strings) :
    Inv host signedChar
      ⟨⟨arenaInit memory capacity, arenaInit keysMemory keysCapacity, bytes, strings⟩, [], [], []⟩
      [] [] := by
  obtain ⟨stringsInv, noNodes, -⟩ := @HashMaps.inv_hashmapCreate _ _ (readStr host bytes)
    signedChar _ _ _ capPositive capIsInt created
  constructor
  · exact Arenas.inv_arenaInit positive isInt isMemory aligned (one_dvd _)
  · exact Arenas.inv_arenaInit keysPositive keysIsInt isKeysMemory keysAligned (one_dvd _)
  · intro block member other isOther
    obtain rfl := List.mem_singleton.mp member
    obtain rfl := List.mem_singleton.mp isOther
    exact apart
  · exact stringsInv
  · intro node member
    exact absurd member (noNodes node)
  · intro entry member
    exact absurd member List.not_mem_nil

/-- The invariant holds in every run. -/
theorem Runs.inv {s : State} (runs : Runs host signedChar (Fits host) s) :
    ∃ own ownKeys, Inv host signedChar s own ownKeys := by
  induction runs with
  | start bytes positive isInt keysPositive keysIsInt isMemory isKeysMemory aligned keysAligned
      apart capPositive capIsInt created =>
      exact ⟨[], [], inv_start bytes positive isInt keysPositive keysIsInt isMemory isKeysMemory
        aligned keysAligned apart capPositive capIsInt created⟩
  | step before meets step inductionHypothesis =>
      obtain ⟨own, ownKeys, inv⟩ := inductionHypothesis
      cases step with
      | internNull => exact ⟨own, ownKeys, inv⟩
      | intern isString ends supplied returned =>
          exact inv.intern isString ends supplied meets returned
      | general allowed supplies apart served =>
          exact ⟨own, ownKeys, inv.serveGeneral allowed supplies apart meets served⟩
      | keys allowed supplies apart served =>
          exact ⟨own, ownKeys, inv.serveKeys allowed supplies apart meets served⟩
      | store outside => exact ⟨own, ownKeys, inv.storeOutside outside _⟩

/-- Interning is canonical in every run whose requests are served right. -/
theorem runs_canonical {s : State} (runs : Runs host signedChar (Fits host) s) :
    Canonical host s := by
  obtain ⟨own, ownKeys, inv⟩ := runs.inv
  exact inv.canonical

/-! ## A program -/

/-- A memory with the string `"a"` at 16. -/
def letterA : Bytes := fun address => if address = 16 then 97 else 0

/-- The arenas at two addresses, with an offset for the first. -/
def smallPool (offset : Int) : Pool :=
  ⟨⟨[⟨8589934592, 64, offset⟩], 64, 64⟩, ⟨[⟨4294967296, 64, 0⟩], 64, 64⟩, letterA,
    ⟨0, 1, [none]⟩⟩

theorem smallPool_runs (ok : State → Action → Prop) :
    Runs .wide true ok ⟨smallPool 0, [], [], []⟩ := by
  have created : hashmapCreate true 1 = some (⟨0, 1, [none]⟩ : HashMap Int Int) := rfl
  exact .start letterA (by decide) (by decide) (by decide) (by decide) (by decide) (by decide)
    (by decide) (by decide) (.inr (by decide)) (by decide) (by decide) created

theorem readStr_letterA : readStr .wide letterA 16 = [97] := by
  decide +kernel

theorem strlen_letterA : strlen .wide letterA 16 = 1 := by
  rw [strlen_eq, readStr_letterA]
  rfl

/-- What `malloc` supplies for the string. -/
theorem smallPool_supplied :
    Supplied .wide (smallPool 0) (freshBlock .wide (smallPool 0).general 1099511627776 2)
      (freshBlock .wide (smallPool 0).keys 2199023255552 2) where
  general := by
    refine ⟨by decide, by decide, ?_⟩
    intro block member
    obtain rfl := List.mem_singleton.mp member
    exact .inr (by decide)
  keys := by
    refine ⟨by decide, by decide, ?_⟩
    intro block member
    obtain rfl := List.mem_singleton.mp member
    exact .inr (by decide)
  generalApart := by
    intro block member
    obtain rfl := List.mem_singleton.mp member
    exact .inr (by decide)
  keysApart := by
    intro block member
    obtain rfl := List.mem_singleton.mp member
    exact .inr (by decide)
  apart := .inl (by decide)

/-- `"a"` is interned where the first block is handed out to. -/
theorem smallPool_intern (held : List Region) : ∃ pool,
    pool.general.blocks = [⟨8589934592, 64, 8⟩] ∧ pool.keys.blocks = [⟨4294967296, 64, 8⟩] ∧
    Step .wide true ⟨smallPool 0, held, [], []⟩ (.intern 16)
      ⟨pool, held, [], [([97], 8589934592)]⟩ := by
  have isPtr : ((internString .wide true true 1099511627776 2199023255552 (smallPool 0) 16).map
      fun result => (result.1, result.2.general.blocks, result.2.keys.blocks)).toOption =
      some (8589934592, [⟨8589934592, 64, 8⟩], [⟨4294967296, 64, 8⟩]) := by
    decide +kernel
  cases returned : internString .wide true true 1099511627776 2199023255552 (smallPool 0) 16 with
  | error stop =>
      rw [returned] at isPtr
      exact absurd isPtr (by simp [Except.map, Except.toOption])
  | ok result =>
      obtain ⟨ptr, pool⟩ := result
      rw [returned] at isPtr
      simp only [Except.map, Except.toOption, Option.some.injEq, Prod.mk.injEq] at isPtr
      obtain ⟨rfl, general, keys⟩ := isPtr
      have step := @Step.intern .wide true ⟨smallPool 0, held, [], []⟩ 16 _ _ _ _ _ (by decide)
        (by
          simp only [smallPool, strlen_letterA]
          decide)
        (by
          simp only [smallPool, strlen_letterA]
          exact smallPool_supplied)
        returned
      simp only [smallPool, readStr_letterA] at step
      exact ⟨pool, general, keys, step⟩

/-- One string is interned. -/
theorem smallPool_canonical : ∃ pool, Canonical .wide ⟨pool, [], [], [([97], 8589934592)]⟩ := by
  obtain ⟨pool, -, -, step⟩ := smallPool_intern []
  have takes (memory : Int) : Arenas.Takes .wide 1 ⟨[⟨memory, 64, 0⟩], 64, 64⟩ 2 := by
    constructor
    · decide
    · intro head isHead
      obtain rfl := Option.mem_some.mp isHead
      exact show (0 : Int) + alignSize .wide 2 ≤ intMax by decide
    · intro head _ _
      exact Int.emod_one _
  have fits : Fits .wide ⟨smallPool 0, [], [], []⟩ (.intern 16) := by
    intro _ _
    simp only [smallPool, strlen_letterA]
    exact ⟨takes _, takes _⟩
  exact ⟨pool, runs_canonical ((smallPool_runs _).step fits step)⟩

/-- The regions that are held after two requests of which the second makes the offset overflow,
and two more that bring it back to 0. -/
def overlapping : List Region :=
  [⟨8589934584, 8⟩, ⟨6442450944, 2147483640⟩, ⟨8589934600, 2147483640⟩, ⟨8589934592, 8⟩]

/-- A request for so many bytes that the offset leaves the range of an `int` makes the arena hand
out bytes twice. -/
theorem overflow_not_canonical :
    ¬∀ s, Runs .wide true (fun _ _ => True) s → Canonical .wide s := by
  intro canonical
  have alloc (offset size ptr offset' : Int) (held : List Region)
      (served : Arenas.serve .wide 1099511627776 ⟨(smallPool offset).general, letterA, held⟩
        (.alloc size) = some ⟨(smallPool offset').general, letterA, ⟨ptr, size⟩ :: held⟩)
      (runs : Runs .wide true (fun _ _ => True) ⟨smallPool offset, held, [], []⟩) :
      Runs .wide true (fun _ _ => True) ⟨smallPool offset', ⟨ptr, size⟩ :: held, [], []⟩ := by
    have step := @Step.general .wide true ⟨smallPool offset, held, [], []⟩ (.alloc size)
      1099511627776 _ trivial (by
        refine ⟨by decide, by decide, ?_⟩
        intro block member
        obtain rfl := List.mem_singleton.mp member
        exact .inr (by simp)) (by
        intro block member
        obtain rfl := List.mem_singleton.mp member
        exact .inr (by simp [freshBlock])) served
    exact runs.step trivial step
  have first := alloc 0 8 8589934592 8 [] rfl (smallPool_runs _)
  have huge := alloc 8 2147483640 8589934600 (-2147483648) _ rfl first
  have again := alloc (-2147483648) 2147483640 6442450944 (-8) _ rfl huge
  have last := alloc (-8) 8 8589934584 0 _ rfl again
  obtain ⟨pool, general, keys, interns⟩ := smallPool_intern overlapping
  -- The string is where the first region is, and that region is held.
  have stores := @Step.general .wide true ⟨pool, overlapping, [], [([97], 8589934592)]⟩
    (.store 8589934592 98) 1099511627776 _
    ⟨⟨8589934592, 8⟩, by simp [State.generalSide, overlapping], by simp [Region.Covers]⟩
    (by
      refine ⟨by decide, by decide, ?_⟩
      intro block member
      rw [general] at member
      obtain rfl := List.mem_singleton.mp member
      exact .inr (by simp))
    (by
      intro block member
      rw [keys] at member
      obtain rfl := List.mem_singleton.mp member
      exact .inr (by simp [freshBlock]))
    rfl
  have chars := (canonical _ ((last.step trivial interns).step trivial stores)).chars
    ([97], 8589934592) List.mem_cons_self
  have overwritten := readStr_head .wide
    (show Function.update pool.bytes 8589934592 98 8589934592 ≠ (0 : BitVec 8) by simp)
  have isRead : readStr .wide (Function.update pool.bytes 8589934592 98) 8589934592 = [97] := chars
  rw [isRead, Function.update_self] at overwritten
  exact absurd overwritten (by decide)

end Shecc.Interning
