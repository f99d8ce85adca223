import Shecc.Peephole.Driver

/-!
# Load and store elimination

`eliminate_load_store_pairs` and `triple_pattern_optimization` compare the fields
of adjacent loads and stores. A store keeps its register in `src0` and its slot
in `src1`, a load its slot in `src0`, and neither pattern looks at
`ofs_based_on_stack_top`. This file proves for each pattern exactly when the
rewriting preserves every read.
-/

namespace Shecc.Peephole

/-- `eliminate_load_store_pairs`. -/
def eliminateLoadStorePairs (ir next : Ph2Ir) : Option (List Ph2Ir) :=
  let moved : Ph2Ir := { next with op := .assign, src0 := ir.dest, src1 := 0 }
  if ir.op = .store ∧ next.op = .store ∧ ir.src0 = next.src0 ∧ ir.src1 = next.src1 ∧
      0 ≤ ir.src0 ∧ 0 ≤ ir.src1 then
    some [{ ir with dest := next.dest }]
  else if ir.op = .load ∧ next.op = .load ∧ ir.src0 = next.src0 ∧ ir.src1 = next.src1 ∧
      0 ≤ ir.src0 ∧ 0 ≤ ir.src1 then
    some [ir, moved]
  else if ir.op = .store ∧ next.op = .load ∧ ir.src0 = next.src0 ∧ ir.src1 = next.src1 ∧
      0 ≤ ir.src0 ∧ 0 ≤ ir.dest then
    some [ir, moved]
  else if ir.op = .load ∧ next.op = .store ∧ ir.dest = next.dest ∧ ir.src0 = next.src0 ∧
      ir.src1 = next.src1 ∧ 0 ≤ ir.src0 then
    some [ir]
  else if ir.op = .globalStore ∧ next.op = .globalStore ∧ ir.src0 = next.src0 ∧
      ir.src1 = next.src1 then
    some [{ ir with dest := next.dest }]
  else if ir.op = .globalLoad ∧ next.op = .globalLoad ∧ ir.src0 = next.src0 ∧
      ir.src1 = next.src1 then
    some [ir, moved]
  else
    none

/-- The first pattern of `triple_pattern_optimization`: a store, a load and a
store. -/
def StoreLoadStore (ir second third : Ph2Ir) : Prop :=
  ir.op = .store ∧ second.op = .load ∧ third.op = .store ∧ ir.src1 = second.src0 ∧
    ir.dest = second.src1 ∧ second.src0 = third.src1 ∧ second.src1 = third.dest ∧
    third.src0 ≠ second.dest

/-- The second pattern: three stores. -/
def ThreeStores (ir second third : Ph2Ir) : Prop :=
  ir.op = .store ∧ second.op = .store ∧ third.op = .store ∧ ir.src1 = second.src1 ∧
    ir.dest = second.dest ∧ second.src1 = third.src1 ∧ second.dest = third.dest

instance (ir second third : Ph2Ir) : Decidable (StoreLoadStore ir second third) :=
  inferInstanceAs (Decidable (_ ∧ _))

instance (ir second third : Ph2Ir) : Decidable (ThreeStores ir second third) :=
  inferInstanceAs (Decidable (_ ∧ _))

/-- `triple_pattern_optimization`. -/
def triplePatternOptimization (ir second third : Ph2Ir) : Option (List Ph2Ir) :=
  if StoreLoadStore ir second third then
    some [ir, third]
  else if ThreeStores ir second third then
    some [{ ir with src0 := third.src0 }]
  else
    none

/-! ## The conditions -/

/-- The condition of a pair. Two stores or two loads must address their slot the
same way. A load after a store must read the slot just stored, and the stored
register must be the one in the unused `dest` field; a store after a load must
write the loaded register back to the slot it came from. -/
def PairSafe (P : Platform) (ir next : Ph2Ir) (rest : List Ph2Ir) : Prop :=
  match ir.op, next.op with
  | .store, .store => ir.ofsBasedOnStackTop = next.ofsBasedOnStackTop
  | .load, .load =>
      P.live rest next.dest = true → ir.ofsBasedOnStackTop = next.ofsBasedOnStackTop
  | .store, .load =>
      P.live rest next.dest = true →
        (ir.ofsBasedOnStackTop = next.ofsBasedOnStackTop ∧
          BitVec.ofInt 32 ir.src1 = BitVec.ofInt 32 next.src0) ∧ ir.dest = ir.src0
  | .load, .store =>
      (ir.ofsBasedOnStackTop = next.ofsBasedOnStackTop ∧
        BitVec.ofInt 32 ir.src0 = BitVec.ofInt 32 next.src1) ∧ next.src0 = ir.dest
  | _, _ => True

/-- The condition of a triple. The loaded register must be dead or hold the
stored value anyway; three stores must address their slot the same way. -/
def TripleSafe (P : Platform) (ir second third : Ph2Ir) (rest : List Ph2Ir) : Prop :=
  if second.op = .load then
    P.live rest second.dest = true →
      ir.ofsBasedOnStackTop = second.ofsBasedOnStackTop ∧ ir.src0 = second.dest
  else
    ir.ofsBasedOnStackTop = second.ofsBasedOnStackTop ∧
      ir.ofsBasedOnStackTop = third.ofsBasedOnStackTop

/-! ## Loads and stores on the machine -/

variable {P : Platform} {s : Machine} {ir next second third : Ph2Ir} {rest left : List Ph2Ir}

theorem step_store (running : s.outcome = none) (isStore : ir.op = .store) :
    P.step s ir = s.setMemory
      (s.memory.storeWord (s.slot ir.ofsBasedOnStackTop ir.src1) (s.reg ir.src0)) := by
  rw [Platform.step_of_running running, Platform.exec, isStore]
  rfl

theorem step_globalStore (running : s.outcome = none) (isStore : ir.op = .globalStore) :
    P.step s ir = s.setMemory
      (s.memory.storeWord (s.gp + BitVec.ofInt 32 ir.src1) (s.reg ir.src0)) := by
  rw [Platform.step_of_running running, Platform.exec, isStore]
  rfl

theorem step_load (running : s.outcome = none) (isLoad : ir.op = .load) :
    P.step s ir =
      s.setReg ir.dest (s.memory.loadWord (s.slot ir.ofsBasedOnStackTop ir.src0)) := by
  rw [Platform.step_of_givesValue running (by rw [isLoad]; rfl), Platform.value, isLoad]

theorem step_globalLoad (running : s.outcome = none) (isLoad : ir.op = .globalLoad) :
    P.step s ir = s.setReg ir.dest (s.memory.loadWord (s.gp + ir.imm)) := by
  rw [Platform.step_of_givesValue running (by rw [isLoad]; rfl), Platform.value, isLoad]

theorem step_assign (running : s.outcome = none) (isAssign : ir.op = .assign) :
    P.step s ir = s.setReg ir.dest (s.reg ir.src0) := by
  rw [Platform.step_of_givesValue running (by rw [isAssign]; rfl), Platform.value, isAssign]

/-- A running machine whose frame has a given height. -/
def framed (top : Word) (reg : Int → Word) (m : Memory) : Machine :=
  { reg := reg, memory := m, callTarget := 0, sp := 0, stackTop := top, gp := 0, outcome := none }

/-- Two slots that are not addressed alike lie apart in some frame. -/
theorem exists_slot_ne {f f' : Bool} {o o' : Int}
    (different : ¬(f = f' ∧ BitVec.ofInt 32 o = BitVec.ofInt 32 o')) :
    ∃ top, ∀ reg m, (framed top reg m).slot f o ≠ (framed top reg m).slot f' o' := by
  by_cases sameOffset : BitVec.ofInt 32 o = BitVec.ofInt 32 o'
  · refine ⟨1, fun reg m same => different ⟨?_, sameOffset⟩⟩
    unfold Machine.slot framed at same
    rw [sameOffset] at same
    have bases := add_right_cancel same
    cases f <;> cases f' <;> first | rfl | exact absurd bases (by simp)
  · refine ⟨0, fun reg m same => sameOffset ?_⟩
    unfold Machine.slot framed at same
    simpa using same

/-- Slots with the same address in every frame are addressed alike. -/
theorem slot_eq_iff {f f' : Bool} {o o' : Int} :
    (∀ s : Machine, s.outcome = none → s.slot f o = s.slot f' o') ↔
      f = f' ∧ BitVec.ofInt 32 o = BitVec.ofInt 32 o' := by
  constructor
  · intro same
    by_contra different
    obtain ⟨top, unequal⟩ := exists_slot_ne different
    exact unequal _ _ (same (framed top (fun _ => 0) fun _ => 0) rfl)
  · rintro ⟨rfl, same⟩ s _
    rw [Machine.slot, Machine.slot, same]

/-- A load that finds a certain value after a store, in every state, reads the
slot just stored. -/
theorem forwards_iff {f f' : Bool} {o o' : Int} {r r' : Int} :
    (∀ s : Machine, s.outcome = none →
        (s.memory.storeWord (s.slot f o) (s.reg r)).loadWord (s.slot f' o') = s.reg r') ↔
      (f = f' ∧ BitVec.ofInt 32 o = BitVec.ofInt 32 o') ∧ r' = r := by
  constructor
  · intro forwards
    have sameSlot : f = f' ∧ BitVec.ofInt 32 o = BitVec.ofInt 32 o' := by
      by_contra different
      obtain ⟨top, unequal⟩ := exists_slot_ne different
      obtain ⟨m, other⟩ :=
        Memory.exists_loadWord_ne (unequal (fun _ => 0) fun _ => 0) 0 0
      exact other (forwards (framed top (fun _ => 0) m) rfl)
    refine ⟨sameSlot, ?_⟩
    by_contra different
    have same := forwards (framed 0 (fun x => if x = r then 1 else 0) fun _ => 0) rfl
    rw [slot_eq_iff.mpr sameSlot _ rfl, Memory.loadWord_storeWord_same] at same
    simp [framed, different] at same
  · rintro ⟨sameSlot, rfl⟩ s running
    rw [slot_eq_iff.mpr sameSlot s running, Memory.loadWord_storeWord_same]

/-- Two loads find the same value, in every state, where they address their slots
alike. -/
theorem loads_iff {f f' : Bool} {o o' : Int} :
    (∀ s : Machine, s.outcome = none →
        s.memory.loadWord (s.slot f' o') = s.memory.loadWord (s.slot f o)) ↔
      f = f' ∧ BitVec.ofInt 32 o = BitVec.ofInt 32 o' := by
  constructor
  · intro loads
    by_contra different
    obtain ⟨top, unequal⟩ := exists_slot_ne different
    obtain ⟨m, other⟩ := Memory.exists_loadWord_ne (unequal (fun _ => 0) fun _ => 0) 0 0
    have same := loads (framed top (fun _ => 0)
      (m.storeWord ((framed top (fun _ => 0) fun _ => 0).slot f o) 0)) rfl
    exact other (same.trans (Memory.loadWord_storeWord_same _ _ _))
  · intro sameSlot s running
    rw [slot_eq_iff.mpr sameSlot s running]

/-! ## Pairs -/

theorem two_stores_iff (isStore : ir.op = .store) (isStore' : next.op = .store)
    (sameReg : ir.src0 = next.src0) (sameOffset : ir.src1 = next.src1) :
    Preserves P (ir :: next :: rest) ⟨2, [{ ir with dest := next.dest }]⟩ ↔
      ir.ofsBasedOnStackTop = next.ofsBasedOnStackTop := by
  have before (s : Machine) (running : s.outcome = none) : P.run [ir, next] s =
      s.setMemory ((s.memory.storeWord (s.slot ir.ofsBasedOnStackTop ir.src1)
        (s.reg ir.src0)).storeWord (s.slot next.ofsBasedOnStackTop ir.src1) (s.reg ir.src0)) := by
    rw [Platform.run_cons, Platform.run_cons, Platform.run_nil, step_store running isStore,
      step_store (by exact running) isStore', sameReg, sameOffset]
    rfl
  have after (s : Machine) (running : s.outcome = none) :
      P.run [{ ir with dest := next.dest }] s =
        s.setMemory (s.memory.storeWord (s.slot ir.ofsBasedOnStackTop ir.src1)
          (s.reg ir.src0)) := by
    rw [Platform.run_cons, Platform.run_nil]
    exact step_store running isStore
  rw [preserves_iff_memory before after]
  constructor
  · intro same
    by_contra different
    obtain ⟨top, unequal⟩ := @exists_slot_ne ir.ofsBasedOnStackTop next.ofsBasedOnStackTop
      ir.src1 ir.src1 fun both => different both.1
    obtain ⟨m, other⟩ := Memory.exists_loadWord_ne (unequal (fun _ => 0) fun _ => 0) 0 0
    have memory := same (framed top (fun _ => 0) m) rfl
    have reloaded := congrArg (fun n => Memory.loadWord n
      ((framed top (fun _ => 0) m).slot next.ofsBasedOnStackTop ir.src1)) memory
    rw [Memory.loadWord_storeWord_same] at reloaded
    exact other reloaded.symm
  · intro same s _
    rw [same, Memory.storeWord_storeWord_same]

theorem two_globalStores (isStore : ir.op = .globalStore) (isStore' : next.op = .globalStore)
    (sameReg : ir.src0 = next.src0) (sameOffset : ir.src1 = next.src1) :
    Preserves P (ir :: next :: rest) ⟨2, [{ ir with dest := next.dest }]⟩ := by
  have before (s : Machine) (running : s.outcome = none) : P.run [ir, next] s =
      s.setMemory ((s.memory.storeWord (s.gp + BitVec.ofInt 32 ir.src1)
        (s.reg ir.src0)).storeWord (s.gp + BitVec.ofInt 32 ir.src1) (s.reg ir.src0)) := by
    rw [Platform.run_cons, Platform.run_cons, Platform.run_nil, step_globalStore running isStore,
      step_globalStore (by exact running) isStore', sameReg, sameOffset]
    rfl
  have after (s : Machine) (running : s.outcome = none) :
      P.run [{ ir with dest := next.dest }] s =
        s.setMemory (s.memory.storeWord (s.gp + BitVec.ofInt 32 ir.src1) (s.reg ir.src0)) := by
    rw [Platform.run_cons, Platform.run_nil]
    exact step_globalStore running isStore
  rw [preserves_iff_memory before after]
  intro s _
  rw [Memory.storeWord_storeWord_same]

/-- A second load replaced by a copy of the first. -/
theorem second_load_iff {a b : Machine → Word} (r d : Int)
    (first : ∀ s, s.outcome = none → P.step s ir = s.setReg r (a s))
    (second : ∀ s, s.outcome = none → P.step s next = s.setReg d (b s))
    (kept : ∀ s w, b (s.setReg r w) = b s) (rEq : ir.dest = r) (dEq : next.dest = d) :
    Preserves P (ir :: next :: rest)
        ⟨2, [ir, { next with op := .assign, src0 := ir.dest, src1 := 0 }]⟩ ↔
      (P.live rest d = true → ∀ s, s.outcome = none → b s = a s) := by
  have before (s : Machine) (running : s.outcome = none) :
      P.run [ir, next] s = (s.setReg r (a s)).setReg d (b s) := by
    rw [Platform.run_cons, Platform.run_cons, Platform.run_nil, first s running,
      second _ (by exact running), kept]
  have after (s : Machine) (running : s.outcome = none) :
      P.run [ir, { next with op := .assign, src0 := ir.dest, src1 := 0 }] s =
        (s.setReg r (a s)).setReg d (a s) := by
    rw [Platform.run_cons, Platform.run_cons, Platform.run_nil, first s running,
      step_assign (by exact running) rfl, rEq, dEq, Machine.setReg_same]
  rw [preserves_iff_values before after]
  constructor
  · intro values isLive s running
    exact (values s running).1 isLive
  · intro values s running
    exact ⟨fun isLive => values isLive s running, fun _ _ => rfl⟩

theorem two_loads_iff (isLoad : ir.op = .load) (isLoad' : next.op = .load)
    (sameOffset : ir.src0 = next.src0) :
    Preserves P (ir :: next :: rest)
        ⟨2, [ir, { next with op := .assign, src0 := ir.dest, src1 := 0 }]⟩ ↔
      (P.live rest next.dest = true → ir.ofsBasedOnStackTop = next.ofsBasedOnStackTop) := by
  rw [second_load_iff ir.dest next.dest (fun s running => step_load running isLoad)
    (fun s running => step_load running isLoad') (fun _ _ => rfl) rfl rfl, loads_iff,
    sameOffset, and_iff_left rfl]

theorem two_globalLoads (isLoad : ir.op = .globalLoad) (isLoad' : next.op = .globalLoad)
    (sameOffset : ir.src0 = next.src0) :
    Preserves P (ir :: next :: rest)
        ⟨2, [ir, { next with op := .assign, src0 := ir.dest, src1 := 0 }]⟩ := by
  rw [second_load_iff ir.dest next.dest (fun s running => step_globalLoad running isLoad)
    (fun s running => step_globalLoad running isLoad') (fun _ _ => rfl) rfl rfl]
  intro _ s _
  rw [Ph2Ir.imm, Ph2Ir.imm, sameOffset]

theorem store_load_iff (isStore : ir.op = .store) (isLoad : next.op = .load) :
    Preserves P (ir :: next :: rest)
        ⟨2, [ir, { next with op := .assign, src0 := ir.dest, src1 := 0 }]⟩ ↔
      (P.live rest next.dest = true →
        (ir.ofsBasedOnStackTop = next.ofsBasedOnStackTop ∧
          BitVec.ofInt 32 ir.src1 = BitVec.ofInt 32 next.src0) ∧ ir.dest = ir.src0) := by
  have before (s : Machine) (running : s.outcome = none) : P.run [ir, next] s =
      (s.setMemory (s.memory.storeWord (s.slot ir.ofsBasedOnStackTop ir.src1)
        (s.reg ir.src0))).setReg next.dest
          ((s.memory.storeWord (s.slot ir.ofsBasedOnStackTop ir.src1) (s.reg ir.src0)).loadWord
            (s.slot next.ofsBasedOnStackTop next.src0)) := by
    rw [Platform.run_cons, Platform.run_cons, Platform.run_nil, step_store running isStore,
      step_load (by exact running) isLoad]
    rfl
  have after (s : Machine) (running : s.outcome = none) :
      P.run [ir, { next with op := .assign, src0 := ir.dest, src1 := 0 }] s =
        (s.setMemory (s.memory.storeWord (s.slot ir.ofsBasedOnStackTop ir.src1)
          (s.reg ir.src0))).setReg next.dest (s.reg ir.dest) := by
    rw [Platform.run_cons, Platform.run_cons, Platform.run_nil, step_store running isStore,
      step_assign (by exact running) rfl]
    rfl
  rw [preserves_iff_effects before after, ← forwards_iff]
  constructor
  · intro effects isLive s running
    exact (effects s running).2 isLive
  · intro forwards s running
    exact ⟨rfl, fun isLive => forwards isLive s running⟩

theorem load_store_iff (isLoad : ir.op = .load) (isStore : next.op = .store) :
    Preserves P (ir :: next :: rest) ⟨2, [ir]⟩ ↔
      (ir.ofsBasedOnStackTop = next.ofsBasedOnStackTop ∧
        BitVec.ofInt 32 ir.src0 = BitVec.ofInt 32 next.src1) ∧ next.src0 = ir.dest := by
  have before (s : Machine) (running : s.outcome = none) : P.run [ir, next] s =
      (s.setMemory (s.memory.storeWord (s.slot next.ofsBasedOnStackTop next.src1)
        ((s.setReg ir.dest (s.memory.loadWord (s.slot ir.ofsBasedOnStackTop ir.src0))).reg
          next.src0))).setReg ir.dest
            (s.memory.loadWord (s.slot ir.ofsBasedOnStackTop ir.src0)) := by
    rw [Platform.run_cons, Platform.run_cons, Platform.run_nil, step_load running isLoad,
      step_store (by exact running) isStore]
    rfl
  have after (s : Machine) (running : s.outcome = none) : P.run [ir] s =
      (s.setMemory s.memory).setReg ir.dest
        (s.memory.loadWord (s.slot ir.ofsBasedOnStackTop ir.src0)) := by
    rw [Platform.run_cons, Platform.run_nil, step_load running isLoad]
    rfl
  rw [preserves_iff_effects before after]
  constructor
  · intro effects
    -- What the store writes is what its slot holds.
    have stored (s : Machine) (running : s.outcome = none) :
        (s.setReg ir.dest (s.memory.loadWord (s.slot ir.ofsBasedOnStackTop ir.src0))).reg
          next.src0 = s.memory.loadWord (s.slot next.ofsBasedOnStackTop next.src1) := by
      have memory := (effects s running).1
      refine (Memory.loadWord_storeWord_same s.memory
        (s.slot next.ofsBasedOnStackTop next.src1) _).symm.trans ?_
      exact congrArg (fun n => Memory.loadWord n _) memory
    have sameReg : next.src0 = ir.dest := by
      by_contra different
      have one := stored (framed 0 (fun _ => 1) fun _ => 0) rfl
      rw [Machine.setReg_ne _ _ different] at one
      exact absurd one (by simp [framed, Memory.loadWord])
    refine ⟨loads_iff.mp fun s running => ?_, sameReg⟩
    rw [← stored s running, sameReg, Machine.setReg_same]
  · rintro ⟨sameSlot, sameReg⟩ s running
    refine ⟨?_, fun _ => rfl⟩
    rw [sameReg, Machine.setReg_same, slot_eq_iff.mpr sameSlot s running,
      Memory.storeWord_loadWord]

/-- A rewriting of a pair preserves meaning exactly under its condition. -/
theorem pair_preserves_iff (matched : eliminateLoadStorePairs ir next = some left) :
    Preserves P (ir :: next :: rest) ⟨2, left⟩ ↔ PairSafe P ir next rest := by
  unfold eliminateLoadStorePairs at matched
  unfold PairSafe
  split_ifs at matched with stores loads forward back globalStores globalLoads
  · obtain ⟨isStore, isStore', sameReg, sameOffset, -⟩ := stores
    obtain rfl := Option.some.inj matched
    rw [two_stores_iff isStore isStore' sameReg sameOffset, isStore, isStore']
  · obtain ⟨isLoad, isLoad', sameOffset, -⟩ := loads
    obtain rfl := Option.some.inj matched
    rw [two_loads_iff isLoad isLoad' sameOffset, isLoad, isLoad']
  · obtain ⟨isStore, isLoad, -⟩ := forward
    obtain rfl := Option.some.inj matched
    rw [store_load_iff isStore isLoad, isStore, isLoad]
  · obtain ⟨isLoad, isStore, -⟩ := back
    obtain rfl := Option.some.inj matched
    rw [load_store_iff isLoad isStore, isLoad, isStore]
  · obtain ⟨isStore, isStore', sameReg, sameOffset⟩ := globalStores
    obtain rfl := Option.some.inj matched
    refine iff_of_true (two_globalStores isStore isStore' sameReg sameOffset) ?_
    rw [isStore, isStore']
    trivial
  · obtain ⟨isLoad, isLoad', sameOffset, -⟩ := globalLoads
    obtain rfl := Option.some.inj matched
    refine iff_of_true (two_globalLoads isLoad isLoad' sameOffset) ?_
    rw [isLoad, isLoad']
    trivial

/-! ## Triples -/

theorem store_load_store_iff (isStore : ir.op = .store) (isLoad : second.op = .load)
    (isStore' : third.op = .store) (sameOffset : ir.src1 = second.src0)
    (unused : third.src0 ≠ second.dest) :
    Preserves P (ir :: second :: third :: rest) ⟨3, [ir, third]⟩ ↔
      (P.live rest second.dest = true →
        ir.ofsBasedOnStackTop = second.ofsBasedOnStackTop ∧ ir.src0 = second.dest) := by
  have before (s : Machine) (running : s.outcome = none) : P.run [ir, second, third] s =
      (s.setMemory ((s.memory.storeWord (s.slot ir.ofsBasedOnStackTop ir.src1)
        (s.reg ir.src0)).storeWord (s.slot third.ofsBasedOnStackTop third.src1)
          (s.reg third.src0))).setReg second.dest
            ((s.memory.storeWord (s.slot ir.ofsBasedOnStackTop ir.src1) (s.reg ir.src0)).loadWord
              (s.slot second.ofsBasedOnStackTop second.src0)) := by
    rw [Platform.run_cons, Platform.run_cons, Platform.run_cons, Platform.run_nil,
      step_store running isStore, step_load (by exact running) isLoad,
      step_store (by exact running) isStore', Machine.setReg_ne _ _ unused]
    rfl
  have after (s : Machine) (running : s.outcome = none) : P.run [ir, third] s =
      (s.setMemory ((s.memory.storeWord (s.slot ir.ofsBasedOnStackTop ir.src1)
        (s.reg ir.src0)).storeWord (s.slot third.ofsBasedOnStackTop third.src1)
          (s.reg third.src0))).setReg second.dest (s.reg second.dest) := by
    rw [Platform.run_cons, Platform.run_cons, Platform.run_nil, step_store running isStore,
      step_store (by exact running) isStore']
    exact (Machine.setReg_self _ _).symm
  rw [preserves_iff_effects before after]
  have condition : (ir.ofsBasedOnStackTop = second.ofsBasedOnStackTop ∧
      BitVec.ofInt 32 ir.src1 = BitVec.ofInt 32 second.src0) ∧ second.dest = ir.src0 ↔
        ir.ofsBasedOnStackTop = second.ofsBasedOnStackTop ∧ ir.src0 = second.dest := by
    rw [sameOffset, and_iff_left rfl, eq_comm (a := second.dest)]
  rw [← condition, ← forwards_iff]
  constructor
  · intro effects isLive s running
    exact (effects s running).2 isLive
  · intro forwards s running
    exact ⟨rfl, fun isLive => forwards isLive s running⟩

/-- Two slots at one offset from the two ends of a frame of 64 bytes are apart. -/
theorem framed_apart {f f' : Bool} (different : f ≠ f') (o : Int) (reg : Int → Word) (m : Memory) :
    Memory.Apart ((framed 64 reg m).slot f o) 4 ((framed 64 reg m).slot f' o) 4 := by
  intro x inFirst inSecond
  unfold Machine.slot framed at inFirst inSecond
  generalize BitVec.ofInt 32 o = w at inFirst inSecond
  cases f <;> cases f' <;> simp only [if_true, Bool.false_eq_true, if_false] at inFirst inSecond
  · exact different rfl
  · bv_omega
  · bv_omega
  · exact different rfl

theorem three_stores_iff (isStore : ir.op = .store) (isStore' : second.op = .store)
    (isStore'' : third.op = .store) (sameOffset : ir.src1 = second.src1)
    (sameOffset' : second.src1 = third.src1) :
    Preserves P (ir :: second :: third :: rest) ⟨3, [{ ir with src0 := third.src0 }]⟩ ↔
      ir.ofsBasedOnStackTop = second.ofsBasedOnStackTop ∧
        ir.ofsBasedOnStackTop = third.ofsBasedOnStackTop := by
  have before (s : Machine) (running : s.outcome = none) : P.run [ir, second, third] s =
      s.setMemory (((s.memory.storeWord (s.slot ir.ofsBasedOnStackTop ir.src1)
        (s.reg ir.src0)).storeWord (s.slot second.ofsBasedOnStackTop ir.src1)
          (s.reg second.src0)).storeWord (s.slot third.ofsBasedOnStackTop ir.src1)
            (s.reg third.src0)) := by
    rw [Platform.run_cons, Platform.run_cons, Platform.run_cons, Platform.run_nil,
      step_store running isStore, step_store (by exact running) isStore',
      step_store (by exact running) isStore'', ← sameOffset', ← sameOffset]
    rfl
  have after (s : Machine) (running : s.outcome = none) :
      P.run [{ ir with src0 := third.src0 }] s =
        s.setMemory (s.memory.storeWord (s.slot ir.ofsBasedOnStackTop ir.src1)
          (s.reg third.src0)) := by
    rw [Platform.run_cons, Platform.run_nil]
    exact step_store running isStore
  rw [preserves_iff_memory before after]
  constructor
  · intro same
    -- With all registers zero a store is seen only where its slot held something else.
    have last : ir.ofsBasedOnStackTop = third.ofsBasedOnStackTop := by
      by_contra different
      obtain ⟨top, unequal⟩ := @exists_slot_ne ir.ofsBasedOnStackTop third.ofsBasedOnStackTop
        ir.src1 ir.src1 fun both => different both.1
      obtain ⟨m, other⟩ := Memory.exists_loadWord_ne (unequal (fun _ => 0) fun _ => 0) 0 0
      have reloaded := congrArg (fun n => Memory.loadWord n
        ((framed top (fun _ => 0) m).slot third.ofsBasedOnStackTop ir.src1))
          (same (framed top (fun _ => 0) m) rfl)
      rw [Memory.loadWord_storeWord_same] at reloaded
      exact other reloaded.symm
    refine ⟨?_, last⟩
    by_contra different
    have apart := framed_apart different ir.src1 (fun _ => 0) fun _ => 0
    have unequal : (framed 64 (fun _ => 0) fun _ => 0).slot ir.ofsBasedOnStackTop ir.src1 ≠
        (framed 64 (fun _ => 0) fun _ => 0).slot second.ofsBasedOnStackTop ir.src1 := by
      intro sameAddress
      rw [sameAddress] at apart
      exact apart _ (by rw [sub_self]; decide) (by rw [sub_self]; decide)
    obtain ⟨m, other⟩ := Memory.exists_loadWord_ne unequal 0 0
    have reloaded := congrArg (fun n => Memory.loadWord n
      ((framed 64 (fun _ => 0) m).slot second.ofsBasedOnStackTop ir.src1))
        (same (framed 64 (fun _ => 0) m) rfl)
    rw [← last] at reloaded
    have hidden : Memory.Apart ((framed 64 (fun _ => 0) m).slot ir.ofsBasedOnStackTop ir.src1) 4
        ((framed 64 (fun _ => 0) m).slot second.ofsBasedOnStackTop ir.src1) 4 := apart
    simp only at reloaded
    rw [Memory.loadWord_storeWord_apart _ hidden, Memory.loadWord_storeWord_same] at reloaded
    exact other reloaded.symm
  · rintro ⟨first, last⟩ s _
    rw [← first, ← last, Memory.storeWord_storeWord_same, Memory.storeWord_storeWord_same]

/-- A rewriting of a triple preserves meaning exactly under its condition. -/
theorem triple_preserves_iff (matched : triplePatternOptimization ir second third = some left) :
    Preserves P (ir :: second :: third :: rest) ⟨3, left⟩ ↔ TripleSafe P ir second third rest := by
  unfold triplePatternOptimization at matched
  unfold TripleSafe
  split_ifs at matched with loads stores
  · obtain ⟨isStore, isLoad, isStore', sameOffset, -, -, -, unused⟩ := loads
    obtain rfl := Option.some.inj matched
    rw [store_load_store_iff isStore isLoad isStore' sameOffset unused, if_pos isLoad]
  · obtain ⟨isStore, isStore', isStore'', sameOffset, -, sameOffset', -⟩ := stores
    obtain rfl := Option.some.inj matched
    rw [three_stores_iff isStore isStore' isStore'' sameOffset sameOffset', if_neg]
    rw [isStore']
    decide

/-! ## The pass -/

/-- The pass with the triple patterns and the load and store pairs switched on. -/
def loadStorePass : List Rule :=
  [tripleRule triplePatternOptimization, pairRule eliminateLoadStorePairs]

theorem loadStorePass_shrinks : ∀ rule ∈ loadStorePass, rule.Shrinks := by
  intro rule isRule
  simp only [loadStorePass, List.mem_cons, List.not_mem_nil, or_false] at isRule
  rcases isRule with rfl | rfl
  · apply tripleRule_shrinks
    intro ir second third left matched
    unfold triplePatternOptimization at matched
    split_ifs at matched <;> obtain rfl := Option.some.inj matched <;> simp
  · apply pairRule_shrinks
    intro ir next left matched
    unfold eliminateLoadStorePairs at matched
    split_ifs at matched <;> obtain rfl := Option.some.inj matched <;> simp

/-- The condition where the pass rewrites something: it drops a self-assignment,
rewrites a triple under the condition of a triple, or a pair under that of a
pair. -/
def SafeAt (P : Platform) : List Ph2Ir → Prop
  | ir :: next :: third :: rest =>
      isSelfAssignment next = true ∨
        if StoreLoadStore ir next third ∨ ThreeStores ir next third then
          TripleSafe P ir next third rest
        else
          PairSafe P ir next (third :: rest)
  | [ir, next] => isSelfAssignment next = true ∨ PairSafe P ir next []
  | _ => True

theorem pair_site_iff {rewrite : Rewrite} (notSelf : isSelfAssignment next = false)
    (matched : (pairRule eliminateLoadStorePairs) (ir :: next :: rest) = some rewrite) :
    Preserves P (ir :: next :: rest) rewrite ↔
      isSelfAssignment next = true ∨ PairSafe P ir next rest := by
  obtain ⟨left, eliminated, rfl⟩ := Option.map_eq_some_iff.mp matched
  rw [pair_preserves_iff eliminated, notSelf, or_iff_right Bool.false_ne_true]

theorem loadStore_site_iff {code : List Ph2Ir} {rewrite : Rewrite}
    (matched : firstMatch loadStorePass code = some rewrite) :
    Preserves P code rewrite ↔ SafeAt P code := by
  rcases code with _ | ⟨ir, _ | ⟨next, rest⟩⟩
  · cases matched
  · cases matched
  · rw [firstMatch, loadStorePass, List.findSome?_cons] at matched
    by_cases isSelf : isSelfAssignment next = true
    · simp only [pairRule, selfAssignment, isSelf, if_true, Option.map_some,
        Option.some.injEq] at matched
      subst matched
      refine iff_of_true (selfAssignment_preserves isSelf) ?_
      cases rest <;> exact Or.inl isSelf
    · have notSelf : isSelfAssignment next = false := by simpa using isSelf
      simp only [pairRule, selfAssignment, notSelf, Bool.false_eq_true, if_false,
        Option.map_none, List.findSome?_cons, List.findSome?_nil] at matched
      cases rest with
      | nil =>
          refine pair_site_iff notSelf ?_
          simp only [tripleRule] at matched
          split at matched
          · rename_i found
            rw [pairRule, found]
            exact matched
          · cases matched
      | cons third rest =>
          rw [SafeAt, notSelf, or_iff_right Bool.false_ne_true]
          simp only [tripleRule] at matched
          cases triple : triplePatternOptimization ir next third with
          | some left =>
              rw [triple] at matched
              obtain rfl := Option.some.inj matched
              rw [triple_preserves_iff triple, if_pos]
              unfold triplePatternOptimization at triple
              split_ifs at triple with loads stores
              · exact Or.inl loads
              · exact Or.inr stores
          | none =>
              rw [triple] at matched
              have noTriple : ¬(StoreLoadStore ir next third ∨ ThreeStores ir next third) := by
                unfold triplePatternOptimization at triple
                split_ifs at triple with loads stores
                exact not_or.mpr ⟨loads, stores⟩
              rw [if_neg noTriple]
              have pair : (pairRule eliminateLoadStorePairs) (ir :: next :: third :: rest) =
                  some rewrite := by
                simp only [Option.map_none] at matched
                split at matched
                · rename_i found
                  rw [pairRule, found]
                  exact matched
                · cases matched
              rw [pair_site_iff notSelf pair, notSelf, or_iff_right Bool.false_ne_true]

/-- Every rewriting of the pass preserves what the rest of the block reads
exactly when it meets its condition, and then the code the pass ends with does
what the original code does. -/
theorem peephole_loadStore (P : Platform) (code : List Ph2Ir) :
    ((∀ site ∈ sites loadStorePass code, Preserves P site.1 site.2) ↔
        ∀ site ∈ sites loadStorePass code, SafeAt P site.1) ∧
      ((∀ site ∈ sites loadStorePass code, SafeAt P site.1) →
        ∀ fuel, code.length ≤ fuel → Equivalent P code (walk loadStorePass fuel code)) :=
  pass_preserves_iff loadStorePass_shrinks (fun _ _ matched => loadStore_site_iff matched) code

/-- Two loads of one slot into two registers. -/
def loadedTwice : List Ph2Ir :=
  [{ op := .load, src0 := 4, dest := 1 }, { op := .load, src0 := 4, dest := 2 },
    { op := .add, src0 := 1, src1 := 2, dest := 0 }, { op := .return_, src0 := 0 }]

/-- The second load becomes a copy. -/
theorem loadedTwice_eliminated :
    walk loadStorePass 4 loadedTwice =
        [{ op := .load, src0 := 4, dest := 1 }, { op := .assign, src0 := 1, dest := 2 },
          { op := .add, src0 := 1, src1 := 2, dest := 0 }, { op := .return_, src0 := 0 }] ∧
      Equivalent plainPlatform loadedTwice (walk loadStorePass 4 loadedTwice) := by
  refine ⟨by decide, (peephole_loadStore plainPlatform loadedTwice).2 ?_ 4 (by decide)⟩
  intro site present
  have only : site.1 = loadedTwice := by
    have all : ∀ site ∈ sites loadStorePass loadedTwice, site.1 = loadedTwice := by
      simp only [loadedTwice]
      decide
    exact all site present
  rw [only]
  exact Or.inr fun _ => rfl

/-- The end of a loop block with two phi stores: register `4` is stored to slot
`0`, and the second operand is loaded from slot `4` and stored to slot `8`. -/
def twoPhiStores : List Ph2Ir :=
  [{ op := .store, src0 := 4, src1 := 0 }, { op := .load, src0 := 4, dest := 5 },
    { op := .store, src0 := 5, src1 := 8 }, { op := .jump }]

/-- The load is taken for one of the register just stored, and becomes a copy of
register `0`. -/
theorem twoPhiStores_not_preserved :
    ¬∀ (P : Platform) (code : List Ph2Ir),
      Equivalent P code (walk loadStorePass code.length code) := by
  intro preserved
  have same := (preserved plainPlatform twoPhiStores (framed 64 (fun _ => 1) fun _ => 0)).memory
  exact absurd (congrFun same 8) (by decide)

end Shecc.Peephole
