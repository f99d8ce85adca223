import Shecc.HashMaps.Probing

/-!
# Updates of a hash map

A bucket that becomes occupied leaves the keys reachable, so moving all nodes to a larger table
does, and a put leaves each key in one bucket.
-/

namespace Shecc.HashMaps

open Libc (wrap intMax wrap_eq)

variable {K V σ : Type} {signedChar : Bool} {chars : K → Str} {map : HashMap K V}

@[simp]
theorem nth_set (table : List (Option (Node K V))) (index : Nat) (bucket : Option (Node K V)) :
    nth (table.set index bucket) = nth table := by
  funext start steps
  rw [nth, nth, List.length_set]

@[simp]
theorem nth_modify (table : List (Option (Node K V))) (index : Nat)
    (f : Option (Node K V) → Option (Node K V)) : nth (table.modify index f) = nth table := by
  funext start steps
  rw [nth, nth, List.length_modify]

/-- The nodes after a free bucket is occupied. -/
theorem mem_occupy {index : Nat} (isFree : map.table[index]? = some none) (node other : Node K V) :
    some other ∈ (map.occupy index node).table ↔ other = node ∨ some other ∈ map.table := by
  obtain ⟨inTable, isNone⟩ := List.getElem?_eq_some_iff.mp isFree
  rw [HashMap.occupy, List.mem_iff_getElem?, List.mem_iff_getElem?]
  simp only [List.getElem?_set]
  constructor
  · rintro ⟨i, bucket⟩
    split_ifs at bucket with isIndex
    · exact .inl (Option.some.inj (Option.some.inj bucket)).symm
    · exact .inr ⟨i, bucket⟩
  · rintro (rfl | ⟨i, bucket⟩)
    · exact ⟨index, by rw [if_pos rfl, if_pos inTable]⟩
    · refine ⟨i, ?_⟩
      rw [if_neg]
      · exact bucket
      · rintro rfl
        rw [isFree] at bucket
        exact absurd bucket (by simp)

namespace Inv

/-- Only the characters of the keys that are stored matter. -/
theorem congr {chars' : K → Str} (inv : Inv signedChar chars map)
    (agree : ∀ node, some node ∈ map.table → chars' node.key = chars node.key) :
    Inv signedChar chars' map where
  isPow := inv.isPow
  length := inv.length
  size := inv.size
  placed := by
    intro i node bucket
    rw [agree node (List.mem_of_getElem? bucket)]
    exact inv.placed i node bucket
  distinct := by
    intro i j node other bucket bucket' same
    rw [agree node (List.mem_of_getElem? bucket), agree other (List.mem_of_getElem? bucket')]
      at same
    exact inv.distinct i j node other bucket bucket' same

theorem cap_bounds (inv : Inv signedChar chars map) : 0 < map.cap ∧ map.cap ≤ 1073741824 := by
  obtain ⟨k, small, isPow⟩ := inv.isPow
  have bound : (2 : Int) ^ k ≤ 2 ^ 30 := by
    exact_mod_cast Nat.pow_le_pow_right (by decide) small
  rw [isPow]
  exact ⟨Int.pow_pos (by decide), bound⟩

/-- The bucket where a probe ends is free. -/
theorem isFree (inv : Inv signedChar chars map) {same : K → Bool} {key : Str} {index : Nat}
    (free : map.probe signedChar same key = some (.free index)) :
    map.table[index]? = some none ∧ ∃ steps < map.table.length,
      index = nth map.table (hashmapHashIndex signedChar map.cap key) steps ∧
      ∀ earlier < steps, Occupied map.table
        (nth map.table (hashmapHashIndex signedChar map.cap key) earlier) := by
  obtain ⟨slot, ended, ends⟩ := inv.probe_ends same key
  obtain rfl := Option.some.inj (free.symm.trans ended)
  obtain ⟨steps, inTable, isNth, isFree, passed⟩ := ends
  refine ⟨isFree, steps, inTable, isNth, ?_⟩
  intro earlier before
  obtain ⟨node, bucket, -⟩ := passed earlier before
  exact ⟨node, bucket⟩

theorem size_lt (inv : Inv signedChar chars map) {index : Nat}
    (isFree : map.table[index]? = some none) : map.size < map.cap := by
  have some_lt : map.table.countP Option.isSome < map.table.length := by
    apply lt_of_le_of_ne List.countP_le_length
    rw [Ne, List.countP_eq_length]
    intro all
    exact absurd (all none (List.mem_of_getElem? isFree)) Bool.false_ne_true
  rw [inv.size, ← inv.length]
  exact_mod_cast some_lt

/-- A free bucket where the probe for its key ends becomes occupied. -/
theorem occupy {node : Node K V} {same : K → Bool} {index : Nat}
    (inv : Inv signedChar chars map)
    (free : map.probe signedChar same (chars node.key) = some (.free index))
    (absent : ∀ other, some other ∈ map.table → chars other.key ≠ chars node.key) :
    Inv signedChar chars (map.occupy index node) ∧
      (map.occupy index node).size = map.size + 1 := by
  obtain ⟨isFree, steps, inRange, isNth, passed⟩ := inv.isFree free
  obtain ⟨inTable, isNone⟩ := List.getElem?_eq_some_iff.mp isFree
  have size_lt := inv.size_lt isFree
  have bounds := inv.cap_bounds
  have isSize : wrap (map.size + 1) = map.size + 1 := by
    apply wrap_eq
    · rw [inv.size]
      omega
    · rw [intMax]
      omega
  have set (i : Nat) : (map.table.set index (some node))[i]? =
      if index = i then some (some node) else map.table[i]? := by
    rw [List.getElem?_set]
    split_ifs <;> rfl
  have stays {i : Nat} (occupied : Occupied map.table i) :
      Occupied (map.table.set index (some node)) i := by
    obtain ⟨other, bucket⟩ := occupied
    rw [Occupied, set]
    split_ifs
    · exact ⟨node, rfl⟩
    · exact ⟨other, bucket⟩
  refine ⟨⟨inv.isPow, ?_, ?_, ?_, ?_⟩, isSize⟩
  · rw [HashMap.occupy, List.length_set]
    exact inv.length
  · simp only [HashMap.occupy, isSize]
    rw [List.countP_set inTable, isNone, inv.size]
    simp
  · intro i other bucket
    simp only [HashMap.occupy, List.length_set, nth_set] at bucket ⊢
    rw [set] at bucket
    split_ifs at bucket with isIndex
    · obtain rfl := Option.some.inj (Option.some.inj bucket)
      exact ⟨steps, inRange, isIndex ▸ isNth, fun earlier before => stays (passed earlier before)⟩
    · obtain ⟨steps', inRange', isNth', occupied⟩ := inv.placed i other bucket
      exact ⟨steps', inRange', isNth', fun earlier before => stays (occupied earlier before)⟩
  · intro i j first second bucket bucket' sameKey
    simp only [HashMap.occupy, set] at bucket bucket'
    split_ifs at bucket bucket' with isIndex isIndex' isIndex'
    · exact isIndex.symm.trans isIndex'
    · obtain rfl := Option.some.inj (Option.some.inj bucket)
      exact absurd sameKey.symm (absent second (List.mem_of_getElem? bucket'))
    · obtain rfl := Option.some.inj (Option.some.inj bucket')
      exact absurd sameKey (absent first (List.mem_of_getElem? bucket))
    · exact inv.distinct i j first second bucket bucket' sameKey

end Inv

theorem getElem?_revalue (table : List (Option (Node K V))) (index i : Nat) (val : Option V)
    (node : Node K V) : (revalue table index val)[i]? = some (some node) ↔
      ∃ old, table[i]? = some (some old) ∧ node.key = old.key ∧
        node.val = if index = i then val else old.val := by
  rw [revalue, List.getElem?_modify]
  cases bucket : table[i]? with
  | none => simp
  | some content =>
      cases content with
      | none => split_ifs <;> simp
      | some old =>
          have same (content : Node K V) : some (some old) = some (some content) ↔
              old = content := by simp
          simp only [same, exists_eq_left']
          split_ifs
          · simp [Node.ext_iff, eq_comm]
          · simp [Node.ext_iff, eq_comm]

theorem Occupied.revalue {table : List (Option (Node K V))} {i : Nat} (occupied : Occupied table i)
    (index : Nat) (val : Option V) : Occupied (HashMaps.revalue table index val) i := by
  obtain ⟨node, bucket⟩ := occupied
  by_cases isIndex : index = i
  · exact ⟨⟨node.key, val⟩,
      (getElem?_revalue _ _ _ _ _).mpr ⟨node, bucket, rfl, (if_pos isIndex).symm⟩⟩
  · exact ⟨node, (getElem?_revalue _ _ _ _ _).mpr ⟨node, bucket, rfl, (if_neg isIndex).symm⟩⟩

theorem isSome_revalue (table : List (Option (Node K V))) (index : Nat) (val : Option V) :
    (revalue table index val).map Option.isSome = table.map Option.isSome := by
  apply List.ext_getElem?
  intro i
  rw [revalue, List.getElem?_map, List.getElem?_map, List.getElem?_modify]
  cases table[i]? with
  | none => rfl
  | some content => split_ifs <;> cases content <;> rfl

namespace Inv

/-- A node gets another value. -/
theorem revalue (inv : Inv signedChar chars map) (index : Nat) (val : Option V) :
    Inv signedChar chars { map with table := HashMaps.revalue map.table index val } where
  isPow := inv.isPow
  length := by
    rw [HashMaps.revalue, List.length_modify]
    exact inv.length
  size := by
    have counts (table : List (Option (Node K V))) :
        table.countP Option.isSome = (table.map Option.isSome).countP id := by
      rw [List.countP_map]
      rfl
    rw [inv.size, counts, counts (HashMaps.revalue _ _ _), isSome_revalue]
  placed := by
    intro i node bucket
    obtain ⟨old, isOld, sameKey, -⟩ := (getElem?_revalue _ _ _ _ _).mp bucket
    obtain ⟨steps, inRange, isNth, occupied⟩ := inv.placed i old isOld
    rw [sameKey]
    simp only [HashMaps.revalue, List.length_modify, nth_modify] at *
    exact ⟨steps, inRange, isNth, fun earlier before =>
      (occupied earlier before).revalue index val⟩
  distinct := by
    intro i j node other bucket bucket' same
    obtain ⟨old, isOld, sameKey, -⟩ := (getElem?_revalue _ _ _ _ _).mp bucket
    obtain ⟨old', isOld', sameKey', -⟩ := (getElem?_revalue _ _ _ _ _).mp bucket'
    rw [sameKey, sameKey'] at same
    exact inv.distinct i j old old' isOld isOld' same

end Inv

/-! ## Moving to a larger table -/

/-- An empty table is well formed. -/
theorem inv_replicate {cap : Int} {k : Nat} (isPow : cap = 2 ^ k) (small : k ≤ 30) :
    Inv signedChar chars
      ({ size := 0, cap := cap, table := List.replicate cap.toNat none } : HashMap K V) where
  isPow := ⟨k, small, isPow⟩
  length := by
    have positive : (0 : Int) < 2 ^ k := Int.pow_pos (by decide)
    rw [List.length_replicate, Int.toNat_of_nonneg (by omega)]
  size := by simp [List.countP_replicate]
  placed := by
    intro i node bucket
    simp [List.getElem?_replicate] at bucket
  distinct := by
    intro i j node other bucket
    simp [List.getElem?_replicate] at bucket

/-- Nodes with keys that differ are all moved. -/
theorem foldlM_rehashNode {nodes : List (Node K V)} (inv : Inv signedChar chars map)
    (differ : nodes.Pairwise fun node other => chars node.key ≠ chars other.key)
    (absent : ∀ node ∈ nodes, ∀ other, some other ∈ map.table →
      chars other.key ≠ chars node.key)
    (room : map.size + nodes.length < map.cap) :
    ∃ map', nodes.foldlM (rehashNode signedChar chars) map = .ok map' ∧
      Inv signedChar chars map' ∧ map'.cap = map.cap ∧ map'.size = map.size + nodes.length ∧
      ∀ node, some node ∈ map'.table ↔ node ∈ nodes ∨ some node ∈ map.table := by
  induction nodes generalizing map with
  | nil => exact ⟨map, rfl, inv, rfl, by simp, fun node => by simp⟩
  | cons node nodes inductionHypothesis =>
      obtain ⟨differs, differ⟩ := List.pairwise_cons.mp differ
      rw [List.length_cons] at room
      push_cast at room
      obtain ⟨slot, ended, ends⟩ := inv.probe_ends (fun _ => false) (chars node.key)
      cases slot with
      | found index =>
          obtain ⟨-, -, -, ⟨other, -, isSame⟩, -⟩ := ends
          exact absurd isSame Bool.false_ne_true
      | full =>
          have := inv.not_full ended
          omega
      | free index =>
          have isAbsent := absent node List.mem_cons_self
          obtain ⟨occupied, size⟩ := inv.occupy ended isAbsent
          have members := mem_occupy (inv.isFree ended).1 node
          obtain ⟨map', moved, inv', cap, size', members'⟩ := inductionHypothesis occupied differ
            (by
              intro later isLater other member
              rcases (members other).mp member with rfl | isOld
              · exact differs later isLater
              · exact absent later (List.mem_cons_of_mem _ isLater) other isOld)
            (by
              rw [size]
              simp only [HashMap.occupy]
              omega)
          refine ⟨map', ?_, inv', cap, ?_, ?_⟩
          · rw [List.foldlM_cons, rehashNode, ended]
            exact moved
          · rw [size', size, List.length_cons]
            push_cast
            omega
          · intro other
            rw [members', members, List.mem_cons]
            tauto

namespace Inv

/-- The nodes of a table have different keys. -/
theorem pairwise (inv : Inv signedChar chars map) :
    (map.table.filterMap id).Pairwise fun node other => chars node.key ≠ chars other.key := by
  rw [List.pairwise_filterMap, List.pairwise_iff_getElem]
  rintro i j inTable inTable' before node isNode other isOther same
  have bucket : map.table[i]? = some (some node) := by
    rw [List.getElem?_eq_getElem inTable]
    exact congrArg some isNode
  have bucket' : map.table[j]? = some (some other) := by
    rw [List.getElem?_eq_getElem inTable']
    exact congrArg some isOther
  exact absurd (inv.distinct i j node other bucket bucket' same) (Nat.ne_of_lt before)

theorem size_eq (inv : Inv signedChar chars map) :
    map.size = (map.table.filterMap id).length := by
  rw [inv.size, List.length_filterMap_eq_countP]
  rfl

/-- Half of the buckets are free, or the table cannot grow. -/
def Roomy (map : HashMap K V) : Prop :=
  2 * map.size ≤ map.cap ∨ map.cap = 1073741824

/-- The map has the same nodes, perhaps in a larger table. -/
structure Moved (signedChar : Bool) (chars : K → Str) (granted : Bool)
    (map map' : HashMap K V) : Prop where
  inv : Inv signedChar chars map'
  nodes : ∀ node, some node ∈ map'.table ↔ some node ∈ map.table
  size : map'.size = map.size
  room : granted = true → Roomy map → 2 * (map'.size + 1) ≤ map'.cap ∨ map'.cap = 1073741824

/-- `hashmap_rehash` keeps the nodes. -/
theorem rehash (inv : Inv signedChar chars map) (granted : Bool)
    (full : map.cap >>> (1 : Nat) ≤ map.size) :
    ∃ map', hashmapRehash signedChar chars granted map = .ok map' ∧
      Moved signedChar chars granted map map' := by
  obtain ⟨positive, large⟩ := inv.cap_bounds
  have size_le := inv.size_le
  obtain ⟨k, small, isPow⟩ := inv.isPow
  rw [hashmapRehash]
  simp only [callocTable]
  cases granted with
  | false => exact ⟨map, rfl, inv, fun _ => Iff.rfl, rfl, fun granted => by simp at granted⟩
  | true =>
      rcases Nat.lt_or_ge k 30 with canGrow | isMax
      · have isDouble : 2 * map.cap = 2 ^ (k + 1) := by
          rw [isPow, Int.pow_succ, Int.mul_comm]
        have bound : (2 : Int) ^ (k + 1) ≤ 2 ^ 30 := by
          exact_mod_cast Nat.pow_le_pow_right (by decide) canGrow
        have isCap : wrap (2 * map.cap) = 2 * map.cap :=
          wrap_eq (by omega) (by rw [intMax]; omega)
        have nonNegative : 0 ≤ 2 * map.cap := by omega
        have size_eq := inv.size_eq
        obtain ⟨map', moved, inv', cap, size, nodes⟩ :=
          foldlM_rehashNode (inv_replicate (V := V) isDouble canGrow) inv.pairwise
            (by
              intro node _ other member
              simp [List.mem_replicate] at member)
            (by
              simp only
              omega)
        refine ⟨map', ?_, inv', ?_, ?_, ?_⟩
        · simp only [isCap, nonNegative, decide_true, Bool.and_self, if_true]
          exact moved
        · intro node
          rw [nodes]
          simp [List.mem_replicate]
        · rw [size, size_eq, Int.zero_add]
        · intro _ roomy
          rw [size, cap, Int.zero_add, ← size_eq]
          rcases roomy with half | isTop
          · simp only
            omega
          · simp only
            omega
      · obtain rfl : k = 30 := by omega
        have isTop : map.cap = 1073741824 := isPow
        have isNegative : ¬0 ≤ wrap (2 * map.cap) := by
          rw [isTop]
          decide
        simp only [isNegative, decide_false, Bool.and_false, Bool.false_eq_true, if_false]
        exact ⟨map, rfl, inv, fun _ => Iff.rfl, rfl, fun _ _ => .inr isTop⟩

/-- Before a put there is room, unless the table cannot grow. -/
theorem makesRoom (inv : Inv signedChar chars map) (granted : Bool) :
    ∃ map', makeRoom signedChar chars granted map = .ok map' ∧
      Moved signedChar chars granted map map' := by
  rw [makeRoom]
  split_ifs with full
  · exact inv.rehash granted full
  · refine ⟨map, rfl, inv, fun _ => Iff.rfl, rfl, fun _ _ => .inl ?_⟩
    rw [Int.shiftRight_eq_div_pow] at full
    omega

end Inv

/-- `hashmap_get_node` returns the node of the key. -/
theorem Inv.getNode (inv : Inv signedChar chars map) (key : Str) :
    (∃ node, some node ∈ map.table ∧ chars node.key = key ∧
      hashmapGetNode signedChar chars map key = .ok (some node)) ∨
    ((∀ node, some node ∈ map.table → chars node.key ≠ key) ∧
      hashmapGetNode signedChar chars map key = .ok none) := by
  by_cases stored : ∃ node, some node ∈ map.table ∧ chars node.key = key
  · left
    obtain ⟨node, member, isKey⟩ := stored
    obtain ⟨i, bucket⟩ := List.mem_iff_getElem?.mp member
    refine ⟨node, member, isKey, ?_⟩
    rw [hashmapGetNode, inv.probe_found bucket isKey]
    simp only [bucket]
    rfl
  · right
    have absent (node : Node K V) (member : some node ∈ map.table) : chars node.key ≠ key :=
      fun isKey => stored ⟨node, member, isKey⟩
    refine ⟨absent, ?_⟩
    rw [hashmapGetNode]
    rcases inv.probe_absent absent with full | ⟨index, free⟩
    · rw [full]
    · rw [free]

/-! ## Putting a key -/

section Put

variable {granted : Bool} {key : Str} {val : Option V} {strdup : σ → Except Stop (K × σ)} {s : σ}

/-- Putting a key that is stored replaces its value. -/
theorem Inv.put_present (inv : Inv signedChar chars map) {node : Node K V}
    (member : some node ∈ map.table) (isKey : chars node.key = key) :
    ∃ map', hashmapPut signedChar chars granted map key val strdup s = .ok (map', s) ∧
      Inv signedChar chars map' ∧ map'.size = map.size ∧
      (granted = true → Inv.Roomy map → Inv.Roomy map') ∧
      ∀ node', some node' ∈ map'.table ↔ ∃ old, some old ∈ map.table ∧ node'.key = old.key ∧
        node'.val = if chars old.key = key then val else old.val := by
  obtain ⟨moved, makesRoom, inv', nodes, size, room⟩ := inv.makesRoom granted
  obtain ⟨i, bucket⟩ := List.mem_iff_getElem?.mp ((nodes node).mpr member)
  have found := inv'.probe_found bucket isKey
  refine ⟨{ moved with table := HashMaps.revalue moved.table i val }, ?_, inv'.revalue i val, size, ?_, ?_⟩
  · rw [hashmapPut, makesRoom]
    simp only [bind, Except.bind, found]
    rfl
  · intro isGranted roomy
    have := room isGranted roomy
    simp only [Inv.Roomy]
    omega
  · intro node'
    simp only [List.mem_iff_getElem?, getElem?_revalue, ← nodes]
    constructor
    · rintro ⟨j, old, isOld, sameKey, isVal⟩
      refine ⟨old, ⟨j, isOld⟩, sameKey, isVal.trans ?_⟩
      by_cases isIndex : i = j
      · subst isIndex
        obtain rfl := Option.some.inj (Option.some.inj (bucket.symm.trans isOld))
        rw [if_pos rfl, if_pos isKey]
      · rw [if_neg isIndex, if_neg]
        intro isOldKey
        exact isIndex (inv'.distinct i j node old bucket isOld (isKey.trans isOldKey.symm))
    · rintro ⟨old, ⟨j, isOld⟩, sameKey, isVal⟩
      refine ⟨j, old, isOld, sameKey, isVal.trans ?_⟩
      by_cases isOldKey : chars old.key = key
      · rw [if_pos isOldKey, if_pos]
        exact inv'.distinct i j node old bucket isOld (isKey.trans isOldKey.symm)
      · rw [if_neg isOldKey, if_neg]
        rintro rfl
        obtain rfl := Option.some.inj (Option.some.inj (bucket.symm.trans isOld))
        exact isOldKey isKey

/-- Putting a key that is not stored occupies a bucket, or the table is full. -/
theorem Inv.put_absent (inv : Inv signedChar chars map)
    (absent : ∀ node, some node ∈ map.table → chars node.key ≠ key) :
    ∃ moved, Moved signedChar chars granted map moved ∧
      ((moved.size = moved.cap ∧ hashmapPut signedChar chars granted map key val strdup s =
          .error (.abort "Error: Hashmap is full")) ∨
        ∃ index, moved.probe signedChar (fun other => chars other = key) key =
            some (.free index) ∧
          hashmapPut signedChar chars granted map key val strdup s =
            (strdup s).map fun dup => (moved.occupy index ⟨dup.1, val⟩, dup.2)) := by
  obtain ⟨moved, makesRoom, isMoved⟩ := inv.makesRoom granted
  refine ⟨moved, isMoved, ?_⟩
  rw [hashmapPut, makesRoom]
  rcases isMoved.inv.probe_absent fun node member => absent node ((isMoved.nodes node).mp member)
    with full | ⟨index, free⟩
  · exact .inl ⟨isMoved.inv.not_full full, by simp only [bind, Except.bind, full]⟩
  · refine .inr ⟨index, free, ?_⟩
    simp only [bind, Except.bind, free]
    cases strdup s <;> rfl

end Put

end Shecc.HashMaps
