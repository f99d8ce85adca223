import Mathlib.Data.Nat.Size
import Shecc.HashMaps.Updates

/-!
# Hash maps are finite maps

After any puts, a hash map holds the value of the latest put of each key, in one bucket.
-/

namespace Shecc.HashMaps

open Libc (wrap intMax wrap_eq)

/-! ## The capacity -/

/-- The bits of `y` are those of `x` moved down by less than `count`. -/
def Smeared (x y : BitVec 32) (count : Nat) : Prop :=
  y.msb = false ∧ ∀ i, y.getLsbD i = true ↔ ∃ d < count, x.getLsbD (i + d) = true

theorem Smeared.double {x y : BitVec 32} {count : Nat} (smeared : Smeared x y count) :
    Smeared x (y ||| y.sshiftRight count) (2 * count) := by
  obtain ⟨isPositive, bits⟩ := smeared
  rw [BitVec.sshiftRight_eq_of_msb_false isPositive]
  constructor
  · cases count with
    | zero => simp [isPositive]
    | succ count => simp [isPositive, BitVec.msb_ushiftRight]
  · intro i
    rw [BitVec.getLsbD_or, BitVec.getLsbD_ushiftRight, Bool.or_eq_true, bits, bits]
    constructor
    · rintro (⟨d, below, bit⟩ | ⟨d, below, bit⟩)
      · exact ⟨d, by omega, bit⟩
      · exact ⟨count + d, by omega, by rwa [← Nat.add_assoc, Nat.add_comm i count]⟩
    · rintro ⟨d, below, bit⟩
      rcases Nat.lt_or_ge d count with small | large
      · exact .inl ⟨d, small, bit⟩
      · exact .inr ⟨d - count, by omega, by
          rwa [Nat.add_right_comm, Nat.add_sub_cancel' large, Nat.add_comm]⟩

/-- Moved down by all amounts, the bits below the highest are set. -/
theorem Smeared.toNat_eq {x y : BitVec 32} (smeared : Smeared x y 32) :
    y.toNat = 2 ^ x.toNat.size - 1 := by
  apply Nat.eq_of_testBit_eq
  intro i
  rw [Nat.testBit_two_pow_sub_one, BitVec.testBit_toNat, Bool.eq_iff_iff, smeared.2 i,
    decide_eq_true_iff, Nat.lt_size]
  constructor
  · rintro ⟨d, -, bit⟩
    rw [← BitVec.testBit_toNat] at bit
    exact (Nat.pow_le_pow_right (by decide) (Nat.le_add_right i d)).trans
      (Nat.ge_two_pow_of_testBit bit)
  · intro large
    obtain ⟨j, above, bit⟩ := Nat.exists_ge_and_testBit_of_ge_two_pow large
    rw [BitVec.testBit_toNat] at bit
    have inRange : j < 32 := BitVec.lt_of_getLsbD bit
    exact ⟨j - i, by omega, by rwa [Nat.add_sub_cancel' above]⟩

theorem toInt_succ {y : BitVec 32} {n : Nat} (isAll : y.toNat = 2 ^ n - 1) (small : n ≤ 31) :
    (∃ k ≤ 30, (y + 1).toInt = 2 ^ k) ∨ (y + 1).toInt < 0 := by
  have positive := Nat.two_pow_pos n
  have bound : 2 ^ n ≤ 2 ^ 31 := Nat.pow_le_pow_right (by decide) small
  have isOne : (1 : BitVec 32).toNat = 1 := rfl
  have isSum : (y + 1).toNat = 2 ^ n := by
    rw [BitVec.toNat_add, isAll, isOne]
    omega
  rw [BitVec.toInt_eq_toNat_cond, isSum]
  rcases Nat.lt_or_ge n 31 with fits | isMax
  · have bound : 2 ^ n ≤ 2 ^ 30 := Nat.pow_le_pow_right (by decide) (by omega)
    left
    refine ⟨n, by omega, ?_⟩
    rw [if_pos (by omega)]
    norm_cast
  · obtain rfl : n = 31 := by omega
    right
    decide

/-- `round_up_pow2` gives a power of two, or overflows. -/
theorem roundUpPow2_eq {cap : Int} (positive : 0 < cap) (isInt : cap ≤ intMax) :
    (∃ k ≤ 30, roundUpPow2 cap = 2 ^ k) ∨ roundUpPow2 cap < 0 := by
  rw [intMax] at isInt
  have isNat : (BitVec.ofInt 32 cap - 1).toNat = (cap - 1).toNat := by
    have isOne : (1 : BitVec 32).toNat = 1 := rfl
    rw [BitVec.toNat_sub, BitVec.toNat_ofInt, isOne]
    omega
  have isPositive : (BitVec.ofInt 32 cap - 1).msb = false := by
    rw [BitVec.msb_eq_false_iff_two_mul_lt, isNat]
    omega
  have start : Smeared (BitVec.ofInt 32 cap - 1) (BitVec.ofInt 32 cap - 1) 1 :=
    ⟨isPositive, fun i => ⟨fun bit => ⟨0, Nat.one_pos, bit⟩, by
      rintro ⟨d, below, bit⟩
      rwa [Nat.lt_one_iff.mp below] at bit⟩⟩
  have smeared := start.double.double.double.double.double
  have isAll := smeared.toNat_eq
  have size : (BitVec.ofInt 32 cap - 1).toNat.size ≤ 31 := by
    rw [Nat.size_le, isNat]
    omega
  exact toInt_succ isAll size

/-! ## Puts -/

variable {V : Type}

/-- A call of `hashmap_put`, and whether `calloc` has memory during it. -/
structure Put (V : Type) where
  key : Str
  val : Option V
  granted : Bool

/-- `hashmap_put` of a string, which is stored itself. -/
def put (signedChar : Bool) (map : HashMap Str V) (put : Put V) :
    Except Stop (HashMap Str V) :=
  (hashmapPut signedChar id put.granted map put.key put.val (fun s => .ok (put.key, s)) ()).map
    Prod.fst

/-- The finite map: the value of the latest put of each key. -/
def latest (puts : List (Put V)) : Str → Option (Option V) :=
  puts.foldl (fun values put => Function.update values put.key (some put.val)) fun _ => none

/-- The hash map holds the finite map. -/
structure Holds (signedChar : Bool) (map : HashMap Str V) (values : Str → Option (Option V)) :
    Prop where
  inv : Inv signedChar id map
  values : ∀ key val, values key = some val ↔ some ⟨key, val⟩ ∈ map.table

/-- What a caller of the hash map may rely on. -/
structure Refines (signedChar : Bool) (map : HashMap Str V) (values : Str → Option (Option V)) :
    Prop where
  get : ∀ key, hashmapGet signedChar id map key = .ok (values key).join
  contains : ∀ key, hashmapContains signedChar id map key = .ok (values key).isSome
  oneBucket : ∀ key val, values key = some val →
    ∃! i : Nat, ∃ node : Node Str V, map.table[i]? = some (some node) ∧ node.key = key
  onlyPut : ∀ node : Node Str V, some node ∈ map.table → values node.key = some node.val
  replaces : ∀ p : Put V, values p.key ≠ none → ∃ map', put signedChar map p = .ok map' ∧
    map'.size = map.size ∧ hashmapGet signedChar id map' p.key = .ok p.val

section Step

variable {signedChar : Bool} {map : HashMap Str V} {values : Str → Option (Option V)}

theorem Holds.getNode (holds : Holds signedChar map values) (key : Str) :
    hashmapGetNode signedChar id map key = .ok ((values key).map fun val => ⟨key, val⟩) := by
  rcases holds.inv.getNode key with ⟨node, member, rfl, isGet⟩ | ⟨absent, isGet⟩
  · rw [isGet, id, (holds.values node.key node.val).mpr member]
    rfl
  · rw [isGet]
    cases stored : values key with
    | none => rfl
    | some val => exact absurd rfl (absent _ ((holds.values key val).mp stored))

theorem Holds.get (holds : Holds signedChar map values) (key : Str) :
    hashmapGet signedChar id map key = .ok (values key).join := by
  rw [hashmapGet, holds.getNode]
  cases values key <;> rfl

/-- A put updates the finite map. -/
theorem Holds.put (holds : Holds signedChar map values) (p : Put V) :
    (∃ map', put signedChar map p = .ok map' ∧
      Holds signedChar map' (Function.update values p.key (some p.val)) ∧
      map'.size ≤ map.size + 1 ∧ (values p.key ≠ none → map'.size = map.size) ∧
      (p.granted = true → Inv.Roomy map → Inv.Roomy map')) ∨
    (put signedChar map p = .error (.abort "Error: Hashmap is full") ∧ values p.key = none ∧
      (p.granted = true → Inv.Roomy map → 1073741824 ≤ map.size)) := by
  cases stored : values p.key with
  | some val =>
      left
      obtain ⟨map', isPut, inv', size, roomy, nodes⟩ :=
        @Inv.put_present _ _ _ _ _ _ p.granted p.key p.val (fun s => .ok (p.key, s)) ()
          holds.inv ⟨p.key, val⟩ ((holds.values p.key val).mp stored) rfl
      refine ⟨map', by rw [HashMaps.put, isPut]; rfl, ⟨inv', ?_⟩, by omega, fun _ => size, roomy⟩
      intro key val'
      simp only [nodes, id]
      by_cases isKey : key = p.key
      · subst isKey
        rw [Function.update_self, Option.some.injEq]
        constructor
        · rintro rfl
          exact ⟨⟨p.key, val⟩, (holds.values p.key val).mp stored, rfl, (if_pos rfl).symm⟩
        · rintro ⟨old, -, sameKey, isVal⟩
          rw [if_pos sameKey.symm] at isVal
          exact isVal.symm
      · rw [Function.update_of_ne isKey, holds.values]
        constructor
        · intro member
          exact ⟨_, member, rfl, (if_neg isKey).symm⟩
        · rintro ⟨⟨oldKey, oldVal⟩, member, rfl, isVal⟩
          rw [if_neg isKey] at isVal
          rw [isVal]
          exact member
  | none =>
      have absent (node : Node Str V) (member : some node ∈ map.table) :
          id node.key ≠ p.key := by
        intro same
        rw [← same, id, (holds.values node.key node.val).mpr member] at stored
        exact absurd stored (by simp)
      obtain ⟨moved, isMoved, ⟨isFull, aborts⟩ | ⟨index, free, isPut⟩⟩ :=
        @Inv.put_absent _ _ _ _ _ _ p.granted p.key p.val (fun s => .ok (p.key, s)) ()
          holds.inv absent
      · right
        refine ⟨by rw [HashMaps.put, aborts]; rfl, rfl, ?_⟩
        intro isGranted roomy
        have room := isMoved.room isGranted roomy
        have size := isMoved.size
        have positive := isMoved.inv.cap_bounds.1
        omega
      · left
        obtain ⟨occupied, size⟩ : Inv signedChar id (moved.occupy index ⟨p.key, p.val⟩) ∧
            (moved.occupy index ⟨p.key, p.val⟩).size = moved.size + 1 :=
          isMoved.inv.occupy free fun other member =>
            absent other ((isMoved.nodes other).mp member)
        have sameSize := isMoved.size
        refine ⟨_, by rw [HashMaps.put, isPut]; rfl, ⟨occupied, ?_⟩, by omega,
          fun isStored => absurd rfl isStored, ?_⟩
        · intro key val'
          rw [mem_occupy (isMoved.inv.isFree free).1, isMoved.nodes]
          by_cases isKey : key = p.key
          · subst isKey
            rw [Function.update_self, Option.some.injEq, Node.mk.injEq]
            constructor
            · rintro rfl
              exact .inl ⟨rfl, rfl⟩
            · rintro (⟨-, isVal⟩ | member)
              · exact isVal.symm
              · exact absurd rfl (absent _ member)
          · rw [Function.update_of_ne isKey, holds.values, Node.mk.injEq]
            constructor
            · exact .inr
            · rintro (⟨same, -⟩ | member)
              · exact absurd same isKey
              · exact member
        · intro isGranted roomy
          have room := isMoved.room isGranted roomy
          simp only [Inv.Roomy, size]
          simp only [HashMap.occupy]
          omega

theorem Holds.refines (holds : Holds signedChar map values) : Refines signedChar map values where
  get := holds.get
  contains := by
    intro key
    rw [hashmapContains, holds.getNode]
    cases values key <;> rfl
  oneBucket := by
    intro key val stored
    obtain ⟨i, bucket⟩ := List.mem_iff_getElem?.mp ((holds.values key val).mp stored)
    refine ⟨i, ⟨_, bucket, rfl⟩, ?_⟩
    rintro j ⟨node, isNode, sameKey⟩
    exact holds.inv.distinct j i node _ isNode bucket sameKey
  onlyPut := fun node member => (holds.values node.key node.val).mpr member
  replaces := by
    intro p stored
    rcases holds.put p with ⟨map', isPut, holds', -, size, -⟩ | ⟨-, absent, -⟩
    · refine ⟨map', isPut, size stored, ?_⟩
      rw [holds'.get, Function.update_self]
      rfl
    · exact absurd absent stored

end Step

/-- What any puts leave. -/
theorem foldlM_put {signedChar : Bool} {map : HashMap Str V}
    {values : Str → Option (Option V)} (holds : Holds signedChar map values)
    (puts : List (Put V)) :
    match puts.foldlM (put signedChar) map with
    | .ok map' =>
        Holds signedChar map' (puts.foldl
          (fun values put => Function.update values put.key (some put.val)) values) ∧
        ((∀ p ∈ puts, p.granted = true) → Inv.Roomy map → Inv.Roomy map')
    | .error stop => stop = .abort "Error: Hashmap is full" ∧
        ((∀ p ∈ puts, p.granted = true) → Inv.Roomy map →
          1073741824 < map.size + puts.length) := by
  induction puts generalizing map values with
  | nil => exact ⟨holds, fun _ roomy => roomy⟩
  | cons p puts inductionHypothesis =>
      rw [List.foldlM_cons]
      rcases holds.put p with ⟨map', isPut, holds', size, -, roomy⟩ | ⟨aborts, -, isLarge⟩
      · have rest := inductionHypothesis holds'
        rw [isPut]
        simp only [bind, Except.bind]
        cases final : puts.foldlM (put signedChar) map' with
        | ok last =>
            rw [final] at rest
            refine ⟨rest.1, fun granted isRoomy => rest.2 ?_ ?_⟩
            · exact fun later member => granted later (List.mem_cons_of_mem _ member)
            · exact roomy (granted p List.mem_cons_self) isRoomy
        | error stop =>
            rw [final] at rest
            refine ⟨rest.1, fun granted isRoomy => ?_⟩
            have large := rest.2
              (fun later member => granted later (List.mem_cons_of_mem _ member))
              (roomy (granted p List.mem_cons_self) isRoomy)
            rw [List.length_cons]
            push_cast
            omega
      · rw [aborts]
        refine ⟨rfl, fun granted isRoomy => ?_⟩
        have large := isLarge (granted p List.mem_cons_self) isRoomy
        rw [List.length_cons]
        push_cast
        omega

/-- A hash map that was just created is empty. -/
theorem inv_hashmapCreate {K : Type} {chars : K → Str} {signedChar granted : Bool} {cap : Int}
    {map : HashMap K V} (positive : 0 < cap) (isInt : cap ≤ intMax)
    (created : hashmapCreate granted cap = some map) :
    Inv signedChar chars map ∧ (∀ node, some node ∉ map.table) ∧ map.size = 0 := by
  rw [hashmapCreate, Option.map_eq_some_iff] at created
  obtain ⟨table, isTable, rfl⟩ := created
  rw [callocTable, Option.ite_none_right_eq_some, Bool.and_eq_true, decide_eq_true_iff] at isTable
  obtain ⟨⟨-, nonNegative⟩, isTable⟩ := isTable
  obtain rfl := Option.some.inj isTable
  rcases roundUpPow2_eq positive isInt with ⟨k, small, isPow⟩ | isNegative
  · refine ⟨inv_replicate isPow small, ?_, rfl⟩
    intro node
    simp [List.mem_replicate]
  · omega

/-- An empty bucket remains where there is one. -/
theorem exists_free {signedChar : Bool} {map : HashMap Str V} (inv : Inv signedChar id map)
    (room : map.size < map.cap) : none ∈ map.table := by
  by_contra noneFree
  have all : map.table.countP Option.isSome = map.table.length := by
    rw [List.countP_eq_length]
    intro bucket member
    cases bucket with
    | none => exact absurd member noneFree
    | some node => rfl
  have size := inv.size
  have length := inv.length
  omega

/-- A hash map refines the finite map of the latest puts. An empty bucket remains as long as
`calloc` has memory and the capacity is in the range of an `int`; after that `hashmap_put` aborts
when the table is full. -/
theorem puts_refine (signedChar granted : Bool) {cap : Int} (positive : 0 < cap)
    (isInt : cap ≤ intMax) {map : HashMap Str V} (created : hashmapCreate granted cap = some map)
    (puts : List (Put V)) :
    match puts.foldlM (put signedChar) map with
    | .ok map' =>
        Refines signedChar map' (latest puts) ∧
        ((∀ p ∈ puts, p.granted = true) → map'.size < 1073741824 → none ∈ map'.table)
    | .error stop => stop = .abort "Error: Hashmap is full" ∧
        ((∀ p ∈ puts, p.granted = true) → 1073741824 < puts.length) := by
  obtain ⟨inv, noNodes, isEmpty⟩ :=
    @inv_hashmapCreate _ _ id signedChar _ _ _ positive isInt created
  have holds : Holds signedChar map fun _ => none :=
    ⟨inv, fun key val => by simp [noNodes]⟩
  have roomy : Inv.Roomy map := by
    have := holds.inv.cap_bounds.1
    left
    omega
  have all := foldlM_put holds puts
  cases final : puts.foldlM (put signedChar) map with
  | ok map' =>
      rw [final] at all
      refine ⟨all.1.refines, fun isGranted isSmall => exists_free all.1.inv ?_⟩
      have isRoomy := all.2 isGranted roomy
      have positive := all.1.inv.cap_bounds.1
      rw [Inv.Roomy] at isRoomy
      omega
  | error stop =>
      rw [final] at all
      refine ⟨all.1, fun isGranted => ?_⟩
      have large := all.2 isGranted roomy
      rw [isEmpty] at large
      exact_mod_cast (by omega : (1073741824 : Int) < puts.length)

/-- Two keys, of which one is put twice, in a map that starts with one bucket. -/
theorem puts_refine_twoKeys :
    ∃ map', [⟨[97], some 1, true⟩, ⟨[98], some 2, true⟩, ⟨[97], some 3, true⟩].foldlM (put true)
        (⟨0, 1, [none]⟩ : HashMap Str Nat) = .ok map' ∧
      hashmapGet true id map' [97] = .ok (some 3) := by
  have all := @puts_refine Nat true true 1 (by decide) (by decide) ⟨0, 1, [none]⟩ rfl
    [⟨[97], some 1, true⟩, ⟨[98], some 2, true⟩, ⟨[97], some 3, true⟩]
  split at all
  next map' isRun => exact ⟨map', isRun, all.1.get [97]⟩
  next stop _ => exact absurd (all.2 (by decide)) (by decide)

/-- Without memory for a larger table, no empty bucket remains. -/
theorem no_free_bucket :
    ¬∀ (granted : Bool) (cap : Int) (map map' : HashMap Str Nat) (puts : List (Put Nat)),
      0 < cap → cap ≤ intMax → hashmapCreate granted cap = some map →
      puts.foldlM (put true) map = .ok map' → none ∈ map'.table := by
  intro remains
  have free := remains true 1 ⟨0, 1, [none]⟩ ⟨1, 1, [some ⟨[97], some 1⟩]⟩
    [⟨[97], some 1, false⟩] (by decide) (by decide) rfl rfl
  exact absurd free (by decide)

end Shecc.HashMaps
