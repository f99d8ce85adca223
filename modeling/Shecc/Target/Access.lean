import Shecc.Arm.Transfer
import Shecc.Arm.Address
import Shecc.RiscV.Address
import Shecc.Target.Core

/-!
# Writing and reading back

A value is written and read back by the code of `OP_write` and `OP_read` on both targets.
Both change the same bytes. Both extend a half word by its sign, but only RISC-V does so
with a byte.
-/

namespace Shecc

open Execution Codegen

/-! ## On ARM -/

/-- Code of a write and a read of the same address in memory, about to run. -/
structure Arm.AccessSite (n : Int) (m : Memory) (a v : Word) where
  env : Arm.Env
  p : Program
  elfOffset : BlockId → Nat
  writeSize : Nat
  readSize : Nat
  write : Ph2Ir
  read : Ph2Ir
  writes : List Arm.Insn
  reads : List Arm.Insn
  fetch : Word → Option Word
  base : Word
  state : Arm.State
  isWrite : write.op = .write
  isRead : read.op = .read
  writeBytes : write.dest = n
  readBytes : read.src1 = n
  writeEmitted : Arm.instructions env p elfOffset writeSize write = some writes
  readEmitted : Arm.instructions env p elfOffset readSize read = some reads
  loaded : Loaded Arm.Insn.encode fetch base (writes ++ reads)
  target : Arm.IsAllocated write.src0
  value : Arm.IsAllocated write.src1
  source : Arm.IsAllocated read.src0
  dest : Arm.IsAllocated read.dest
  targetHolds : state.reg write.src0 = a
  valueHolds : state.reg write.src1 = v
  sourceHolds : state.reg read.src0 = a
  memory : state.memory = m

/-- The code runs to its end with the value in its destination, and what was written is in
memory. -/
def Arm.AccessSite.Yields {n : Int} {m : Memory} {a v : Word} (site : Arm.AccessSite n m a v)
    (w : Word) : Prop :=
  ∃ s', Arm.machine.Reaches site.fetch site.base (site.writes ++ site.reads).length
      (site.state, slot site.base 0) (s', slot site.base (site.writes ++ site.reads).length) ∧
    s'.reg site.read.dest = w ∧ s'.memory = m.storeBytes a n.toNat v

namespace Arm.AccessSite

variable {n : Int} {m : Memory} {a v w : Word}

/-- The state after the write. -/
def written (site : Arm.AccessSite n m a v) : Arm.State :=
  { site.state with memory := m.storeBytes a n.toNat v }

/-- One instruction writes and one reads. -/
theorem yields_of (site : Arm.AccessSite n m a v) {writes reads : Arm.Insn}
    (isWrites : site.writes = [writes]) (isReads : site.reads = [reads])
    (validWrites : writes.WideValid) (validReads : reads.WideValid)
    (first : Arm.wideFlow writes.wide site.state = some site.written)
    (second : Arm.wideFlow reads.wide site.written =
      some (site.written.setReg site.read.dest w)) : site.Yields w := by
  have loaded := site.loaded
  have flows : ([writes, reads].map Arm.Insn.wide).foldlM (fun s wide => Arm.wideFlow wide s)
      site.state = some (site.written.setReg site.read.dest w) := by
    rw [List.map_cons, List.foldlM_cons, first, List.map_singleton]
    change Arm.wideFlow reads.wide site.written >>= some = _
    rw [second]
    rfl
  rw [isWrites, isReads] at loaded
  refine ⟨site.written.setReg site.read.dest w, ?_, Arm.State.setReg_reg_same .., rfl⟩
  rw [isWrites, isReads]
  apply Arm.machine_reaches loaded ?_ flows
  simp only [List.singleton_append, List.mem_cons, List.not_mem_nil, or_false]
  rintro insn (rfl | rfl)
  · exact validWrites
  · exact validReads

/-- What was written is read back with the extension of the loads of ARM. -/
theorem yields_load (site : Arm.AccessSite n m a v) :
    site.Yields (Arch.arm.load (m.storeBytes a n.toNat v) a n) := by
  have isTarget := site.target.isReg
  have isValue := site.value.isReg
  have isSource := site.source.isReg
  have isDest := site.dest.isReg
  have notTarget : 15 ≠ site.write.src0 := (site.target.ne (by decide)).symm
  have notValue : 15 ≠ site.write.src1 := (site.value.ne (by decide)).symm
  have notSource : 15 ≠ site.read.src0 := (site.source.ne (by decide)).symm
  have notDest : 15 ≠ site.read.dest := (site.dest.ne (by decide)).symm
  have targetHolds := site.targetHolds
  have valueHolds := site.valueHolds
  have sourceHolds : site.written.reg site.read.src0 = a := site.sourceHolds
  have memory := site.memory
  have writeEmitted := site.writeEmitted
  have readEmitted := site.readEmitted
  have noOffset (x : Word) : x + BitVec.ofInt 32 0 = x := BitVec.add_zero x
  simp only [Arm.instructions, site.isWrite, site.writeBytes] at writeEmitted
  simp only [Arm.instructions, site.isRead, site.readBytes] at readEmitted
  by_cases isByte : n = 1
  · subst isByte
    rw [if_pos rfl] at writeEmitted readEmitted
    apply site.yields_of (Option.some.inj writeEmitted).symm (Option.some.inj readEmitted).symm
      (.inr ⟨isValue, isTarget, by decide, by decide⟩)
      (.inr ⟨isDest, isSource, by decide, by decide⟩)
    · rw [Arm.Insn.wide, Arm.Insn.narrow, Arm.wideFlow_narrow (by
        simp [Arm.Narrow.names, notTarget, notValue]), Arm.Narrow.effect, targetHolds, valueHolds,
        noOffset, memory]
      rfl
    · rw [Arm.Insn.wide, Arm.Insn.narrow, Arm.wideFlow_narrow (by
        simp [Arm.Narrow.names, notSource, notDest]), Arm.Narrow.effect, sourceHolds, noOffset]
      rfl
  by_cases isHalf : n = 2
  · subst isHalf
    rw [if_neg isByte, if_pos rfl] at writeEmitted readEmitted
    apply site.yields_of (Option.some.inj writeEmitted).symm (Option.some.inj readEmitted).symm
      (.inr ⟨isValue, isTarget, by decide, by decide⟩)
      (.inr ⟨isDest, isSource, by decide, by decide⟩)
    · rw [Arm.Insn.wide, Arm.Insn.narrow, Arm.wideFlow_narrow (by
        simp [Arm.Narrow.names, notTarget, notValue]), Arm.Narrow.effect, targetHolds, valueHolds,
        noOffset, memory]
      rfl
    · rw [Arm.Insn.wide, Arm.Insn.narrow, Arm.wideFlow_narrow (by
        simp [Arm.Narrow.names, notSource, notDest]), Arm.Narrow.effect, sourceHolds, noOffset]
      rfl
  by_cases isWord : n = 4
  · subst isWord
    rw [if_neg isByte, if_neg isHalf, if_pos rfl] at writeEmitted readEmitted
    apply site.yields_of (Option.some.inj writeEmitted).symm (Option.some.inj readEmitted).symm
      (.inl ⟨isValue, isTarget, by decide, by decide⟩)
      (.inl ⟨isDest, isSource, by decide, by decide⟩)
    · change Arm.wideFlow (.inr ⟨.al, .str site.write.src1 site.write.src0 0⟩) _ = _
      rw [Arm.wideFlow_word (by simp [Arm.Operation.names, notTarget, notValue]), Arm.effect_str,
        targetHolds, valueHolds, noOffset, memory]
      rfl
    · change Arm.wideFlow (.inr ⟨.al, .ldr site.read.dest site.read.src0 0⟩) _ = _
      rw [Arm.wideFlow_word (by simp [Arm.Operation.names, notSource, notDest]), Arm.effect_ldr,
        sourceHolds, noOffset]
      rfl
  · rw [if_neg isByte, if_neg isHalf, if_neg isWord] at writeEmitted
    cases writeEmitted

theorem length_eq (site : Arm.AccessSite n m a v) : (site.writes ++ site.reads).length = 2 := by
  have writeEmitted := site.writeEmitted
  have readEmitted := site.readEmitted
  simp only [Arm.instructions, site.isWrite] at writeEmitted
  simp only [Arm.instructions, site.isRead] at readEmitted
  rw [List.length_append]
  split_ifs at writeEmitted readEmitted <;>
    rw [← Option.some.inj writeEmitted, ← Option.some.inj readEmitted] <;> rfl

/-- The code leaves one value. -/
theorem yields_iff (site : Arm.AccessSite n m a v) :
    site.Yields w ↔ w = Arch.arm.load (m.storeBytes a n.toNat v) a n := by
  constructor
  · rintro ⟨s', ran, isResult, -⟩
    rcases site.yields_load with ⟨s'', ran', isResult', -⟩
    have same := ran.unique (by rw [site.length_eq]; decide) ran'
    rw [← isResult, ← isResult', same]
  · rintro rfl
    exact site.yields_load

end Arm.AccessSite

/-! ## On RISC-V -/

/-- Code of a write and a read of the same address in memory, about to run. -/
structure RiscV.AccessSite (n : Int) (m : Memory) (a v : Word) where
  env : RiscV.Env
  p : Program
  elfOffset : BlockId → Nat
  writeSize : Nat
  readSize : Nat
  write : Ph2Ir
  read : Ph2Ir
  writes : List RiscV.Insn
  reads : List RiscV.Insn
  fetch : Word → Option Word
  base : Word
  state : RiscV.State
  isWrite : write.op = .write
  isRead : read.op = .read
  writeBytes : write.dest = n
  readBytes : read.src1 = n
  writeEmitted : RiscV.instructions env p elfOffset writeSize write = some writes
  readEmitted : RiscV.instructions env p elfOffset readSize read = some reads
  loaded : Loaded RiscV.Insn.encode fetch base (writes ++ reads)
  target : RiscV.IsAllocated (write.src0 + 10)
  value : RiscV.IsAllocated (write.src1 + 10)
  source : RiscV.IsAllocated (read.src0 + 10)
  dest : RiscV.IsAllocated (read.dest + 10)
  targetHolds : state.get (write.src0 + 10) = a
  valueHolds : state.get (write.src1 + 10) = v
  sourceHolds : state.get (read.src0 + 10) = a
  memory : state.memory = m

/-- The code runs to its end with the value in its destination, and what was written is in
memory. -/
def RiscV.AccessSite.Yields {n : Int} {m : Memory} {a v : Word}
    (site : RiscV.AccessSite n m a v) (w : Word) : Prop :=
  ∃ s', RiscV.machine.Reaches site.fetch site.base (site.writes ++ site.reads).length
      (site.state, slot site.base 0) (s', slot site.base (site.writes ++ site.reads).length) ∧
    s'.get (site.read.dest + 10) = w ∧ s'.memory = m.storeBytes a n.toNat v

namespace RiscV.AccessSite

variable {n : Int} {m : Memory} {a v w : Word}

/-- The state after the write. -/
def written (site : RiscV.AccessSite n m a v) : RiscV.State :=
  { site.state with memory := m.storeBytes a n.toNat v }

/-- One instruction writes and one reads. -/
theorem yields_of (site : RiscV.AccessSite n m a v) {writes reads : RiscV.Insn}
    (isWrites : site.writes = [writes]) (isReads : site.reads = [reads])
    (soundWrites : writes.Sound) (soundReads : reads.Sound)
    (first : RiscV.effect writes.held site.state = some site.written)
    (second : RiscV.effect reads.held site.written =
      some (site.written.set (site.read.dest + 10) w)) : site.Yields w := by
  have loaded := site.loaded
  have ends : RiscV.effects [writes, reads] site.state =
      some (site.written.set (site.read.dest + 10) w) := by
    rw [RiscV.effects_cons_some first, RiscV.effects_cons_some second, RiscV.effects_nil]
  rw [isWrites, isReads] at loaded
  refine ⟨site.written.set (site.read.dest + 10) w, ?_,
    RiscV.State.get_set_same site.dest.ne_zero, rfl⟩
  rw [isWrites, isReads]
  apply RiscV.machine_reaches loaded ?_ ends
  simp only [List.singleton_append, List.mem_cons, List.not_mem_nil, or_false]
  rintro insn (rfl | rfl)
  · exact soundWrites
  · exact soundReads

/-- What was written is read back with the extension of the loads of RISC-V. -/
theorem yields_load (site : RiscV.AccessSite n m a v) :
    site.Yields (Arch.riscv.load (m.storeBytes a n.toNat v) a n) := by
  have isTarget := site.target.isReg
  have isValue := site.value.isReg
  have isSource := site.source.isReg
  have isDest := site.dest.isReg
  have memory := site.memory
  have noOffset (x : Word) : x + BitVec.ofInt 32 0 = x := BitVec.add_zero x
  have writeEmitted := site.writeEmitted
  have readEmitted := site.readEmitted
  simp only [RiscV.instructions, site.isWrite, site.writeBytes] at writeEmitted
  simp only [RiscV.instructions, site.isRead, site.readBytes] at readEmitted
  have soundStore {op : RiscV.Op} (isStore : op.isStore = true) :
      (RiscV.Insn.S op (site.write.src0 + 10) (site.write.src1 + 10) 0).Sound :=
    ⟨⟨isStore, isTarget, isValue⟩, show (-2048 : Int) ≤ 0 ∧ (0 : Int) ≤ 2047 by decide, trivial⟩
  have soundLoad {op : RiscV.Op} (isLoad : op.access.isSome = true ∧ op.isStore = false)
      (noShift : op.isa = none) :
      (RiscV.Insn.I op (site.read.dest + 10) (site.read.src0 + 10) 0).Sound :=
    ⟨.inr ⟨.inr (.inr isLoad), isDest, isSource⟩,
      show (-2048 : Int) ≤ 0 ∧ (0 : Int) ≤ 2047 by decide,
      by simp [RiscV.Insn.InReach, noShift]⟩
  have stores {op : RiscV.Op} (isSize : op.stores = some n.toNat) :
      RiscV.effect (.S op (site.write.src0 + 10) (site.write.src1 + 10) 0) site.state =
        some site.written := by
    rw [RiscV.effect, isSize, Option.map_some, site.targetHolds, site.valueHolds, noOffset, memory]
    rfl
  have loads {op : RiscV.Op} {w : Word} (loaded : op.loads (m.storeBytes a n.toNat v) a = some w) :
      RiscV.effect (.I op (site.read.dest + 10) (site.read.src0 + 10) 0) site.written =
        some (site.written.set (site.read.dest + 10) w) := by
    have isAddress : site.written.get (site.read.src0 + 10) = a := site.sourceHolds
    have isMemory : site.written.memory = m.storeBytes a n.toNat v := rfl
    rw [RiscV.effect, isAddress, noOffset, isMemory, loaded]
  by_cases isByte : n = 1
  · subst isByte
    rw [if_pos rfl] at writeEmitted readEmitted
    exact site.yields_of (Option.some.inj writeEmitted).symm (Option.some.inj readEmitted).symm
      (soundStore rfl) (soundLoad ⟨rfl, rfl⟩ rfl) (stores rfl) (loads rfl)
  by_cases isHalf : n = 2
  · subst isHalf
    rw [if_neg isByte, if_pos rfl] at writeEmitted readEmitted
    exact site.yields_of (Option.some.inj writeEmitted).symm (Option.some.inj readEmitted).symm
      (soundStore rfl) (soundLoad ⟨rfl, rfl⟩ rfl) (stores rfl) (loads rfl)
  by_cases isWord : n = 4
  · subst isWord
    rw [if_neg isByte, if_neg isHalf, if_pos rfl] at writeEmitted readEmitted
    exact site.yields_of (Option.some.inj writeEmitted).symm (Option.some.inj readEmitted).symm
      (soundStore rfl) (soundLoad ⟨rfl, rfl⟩ rfl) (stores rfl) (loads rfl)
  · rw [if_neg isByte, if_neg isHalf, if_neg isWord] at writeEmitted
    cases writeEmitted

theorem length_eq (site : RiscV.AccessSite n m a v) :
    (site.writes ++ site.reads).length = 2 := by
  have writeEmitted := site.writeEmitted
  have readEmitted := site.readEmitted
  simp only [RiscV.instructions, site.isWrite] at writeEmitted
  simp only [RiscV.instructions, site.isRead] at readEmitted
  rw [List.length_append]
  split_ifs at writeEmitted readEmitted <;>
    rw [← Option.some.inj writeEmitted, ← Option.some.inj readEmitted] <;> rfl

/-- The code leaves one value. -/
theorem yields_iff (site : RiscV.AccessSite n m a v) :
    site.Yields w ↔ w = Arch.riscv.load (m.storeBytes a n.toNat v) a n := by
  constructor
  · rintro ⟨s', ran, isResult, -⟩
    rcases site.yields_load with ⟨s'', ran', isResult', -⟩
    have same := ran.unique (by rw [site.length_eq]; decide) ran'
    rw [← isResult, ← isResult', same]
  · rintro rfl
    exact site.yields_load

end RiscV.AccessSite

/-! ## Both targets -/

/-- A byte and its extension by the sign are the same unless the sign is set. -/
theorem setWidth_eq_signExtend_iff (byte : BitVec 8) :
    byte.setWidth 32 = byte.signExtend 32 ↔ byte.getLsbD 7 = false := by
  revert byte
  decide

/-- The loads of the targets differ by the sign of a byte only. -/
theorem load_eq_iff (m : Memory) (a v : Word) (n : Int) :
    Arch.arm.load (m.storeBytes a n.toNat v) a n = Arch.riscv.load (m.storeBytes a n.toNat v) a n ↔
      (n = 1 → v.getLsbD 7 = false) := by
  by_cases isByte : n = 1
  · subst isByte
    have found : m.storeBytes a (1 : Int).toNat v a = v.extractLsb' 0 8 := by
      have inside := m.storeBytes_inside a (n := 1) (i := 0) v (by decide) (by decide)
      rwa [show BitVec.ofNat 32 0 = 0#32 from rfl, BitVec.add_zero] at inside
    change (m.storeBytes a (1 : Int).toNat v a).setWidth 32 =
      (m.storeBytes a (1 : Int).toNat v a).signExtend 32 ↔ _
    rw [found, setWidth_eq_signExtend_iff]
    simp
  · refine iff_of_true ?_ fun isOne => absurd isOne isByte
    rw [Arch.load, Arch.load, if_neg isByte, if_neg isByte]

/-- A write changes the bytes of its size on both targets, and what is read back is the
same, but for a byte with its highest bit set. -/
theorem access_agrees_iff {n : Int} {m : Memory} {a v : Word} (arm : Arm.AccessSite n m a v)
    (riscv : RiscV.AccessSite n m a v) :
    ((∃ w, arm.Yields w) ∧ ∃ w, riscv.Yields w) ∧
      ((∃ w, arm.Yields w ∧ riscv.Yields w) ↔ (n = 1 → v.getLsbD 7 = false)) := by
  refine ⟨⟨⟨_, arm.yields_load⟩, _, riscv.yields_load⟩, ?_⟩
  rw [← load_eq_iff m a v n]
  constructor
  · rintro ⟨w, onArm, onRiscv⟩
    rw [← arm.yields_iff.mp onArm, ← riscv.yields_iff.mp onRiscv]
  · intro same
    refine ⟨_, arm.yields_load, ?_⟩
    rw [same]
    exact riscv.yields_load

/-- A byte with its highest bit set, on ARM. -/
def Arm.negativeByte : Arm.AccessSite 1 (fun _ => 0) 64 128 where
  env := Arm.smallEnv
  p := Arm.plainProgram
  elfOffset := fun _ => 0
  writeSize := 0
  readSize := 4
  write := { op := .write, dest := 1, src0 := 0, src1 := 1 }
  read := { op := .read, dest := 2, src0 := 0, src1 := 1 }
  writes := [.sb .al 1 0 0]
  reads := [.lb .al 2 0 0]
  fetch := store Arm.Insn.encode 0#32 [.sb .al 1 0 0, .lb .al 2 0 0]
  base := 0#32
  state := { Arm.clearState with
    reg := fun r => if r = 0 then 64 else 128
    memory := fun _ => 0 }
  isWrite := rfl
  isRead := rfl
  writeBytes := rfl
  readBytes := rfl
  writeEmitted := rfl
  readEmitted := rfl
  loaded := loaded_store 0#32 (by decide) (by decide)
  target := by decide
  value := by decide
  source := by decide
  dest := by decide
  targetHolds := rfl
  valueHolds := rfl
  sourceHolds := rfl
  memory := rfl

/-- The same byte on RISC-V. -/
def RiscV.negativeByte : RiscV.AccessSite 1 (fun _ => 0) 64 128 where
  env := RiscV.smallEnv
  p := RiscV.branchingProgram
  elfOffset := fun _ => 0
  writeSize := 0
  readSize := 4
  write := { op := .write, dest := 1, src0 := 0, src1 := 1 }
  read := { op := .read, dest := 2, src0 := 0, src1 := 1 }
  writes := [.sb 11 10 0]
  reads := [.lb 12 10 0]
  fetch := store RiscV.Insn.encode 0#32 [.sb 11 10 0, .lb 12 10 0]
  base := 0#32
  state := ⟨fun r => if r = 10 then 64 else 128, fun _ => 0⟩
  isWrite := rfl
  isRead := rfl
  writeBytes := rfl
  readBytes := rfl
  writeEmitted := rfl
  readEmitted := rfl
  loaded := loaded_store 0#32 (by decide) (by decide)
  target := by decide
  value := by decide
  source := by decide
  dest := by decide
  targetHolds := rfl
  valueHolds := rfl
  sourceHolds := rfl
  memory := rfl

/-- The byte 128 is read back as 128 on ARM and as -128 on RISC-V. -/
theorem negativeByte_differs :
    (Arm.negativeByte.Yields 128#32 ∧ RiscV.negativeByte.Yields (-128)) ∧
      ¬∃ w, Arm.negativeByte.Yields w ∧ RiscV.negativeByte.Yields w := by
  have onArm : Arm.negativeByte.Yields 128#32 := Arm.negativeByte.yields_iff.mpr (by decide)
  have onRiscv : RiscV.negativeByte.Yields (-128) := RiscV.negativeByte.yields_iff.mpr (by decide)
  refine ⟨⟨onArm, onRiscv⟩, ?_⟩
  rintro ⟨w, first, second⟩
  rw [Arm.negativeByte.yields_iff] at first onArm
  rw [RiscV.negativeByte.yields_iff] at second onRiscv
  have same : (128#32 : Word) = -128 := by
    rw [onArm, ← first, second, ← onRiscv]
  exact absurd same (by decide)

end Shecc
