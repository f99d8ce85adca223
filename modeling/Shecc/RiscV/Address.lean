import Shecc.RiscV.Format
import Shecc.RiscV.Multiply
import Shecc.Memory.Core

/-!
# Constants and addresses on RISC-V

With memory beside the registers the loads and stores run too. A value outside of the
short immediates is put together by `lui` and `addi`: the upper part is rounded, since the
lower one is a signed number. Constants arrive and slots are addressed in both forms, and
only `t0` is used on the way.
-/

namespace Shecc.RiscV

open Execution Codegen

/-! ## Registers and memory -/

/-- Registers and memory. -/
structure State where
  regs : Regs
  memory : Memory

namespace State

/-- Read a register. -/
def get (s : State) (r : Int) : Word := s.regs.get r

/-- Write a register. -/
def set (s : State) (r : Int) (w : Word) : State := { s with regs := s.regs.set r w }

@[simp] theorem set_memory (s : State) (r : Int) (w : Word) : (s.set r w).memory = s.memory := rfl

@[simp] theorem get_zero (s : State) : s.get 0 = 0#32 := rfl

theorem get_set_same {s : State} {r : Int} {w : Word} (nonzero : r ≠ 0) : (s.set r w).get r = w :=
  Regs.get_set_same nonzero

theorem get_set_other {s : State} {r r' : Int} {w : Word} (different : r' ≠ r) :
    (s.set r w).get r' = s.get r' :=
  Regs.get_set_other different

end State

/-- What a load finds at an address. -/
def Op.loads : Op → Memory → Word → Option Word
  | .lb, m, a => some ((m a).signExtend 32)
  | .lh, m, a => some ((m (a + 1) ++ m a).signExtend 32)
  | .lw, m, a => some (m.loadWord a)
  | .lbu, m, a => some ((m a).setWidth 32)
  | .lhu, m, a => some ((m (a + 1) ++ m a).setWidth 32)
  | _, _, _ => none

/-- How many bytes a store writes. -/
def Op.stores : Op → Option Nat
  | .sb => some 1
  | .sh => some 2
  | .sw => some 4
  | _ => none

/-- What an instruction does that goes on to the next one. -/
def effect : Insn → State → Option State
  | .I op rd rs1 imm, s =>
      match op.loads s.memory (s.get rs1 + BitVec.ofInt 32 imm) with
      | some w => some (s.set rd w)
      | none => (flow (.I op rd rs1 imm) s.regs).map fun h => { s with regs := h }
  | .S op rs1 rs2 imm, s =>
      op.stores.map fun n =>
        { s with memory := s.memory.storeBytes (s.get rs1 + BitVec.ofInt 32 imm) n (s.get rs2) }
  | insn, s => (flow insn s.regs).map fun h => { s with regs := h }

/-- The processor with its memory. -/
def machine : Processor Insn State where
  decode := decodeFull
  exec insn a s :=
    match effect insn s with
    | some s' => some (s', a + 4#32)
    | none => (exec insn a s.regs).map fun next => ({ s with regs := next.1 }, next.2)

theorem straight_effect : Placed.Straight machine effect := by
  intro insn a s s' ends
  change (match effect insn s with
    | some s' => some (s', a + 4#32)
    | none => _) = _
  rw [ends]

/-- The immediate is accepted, and the format holds it but for bits it always drops. -/
def Insn.Sound (insn : Insn) : Prop := insn.OfFormat ∧ insn.Accepted ∧ insn.InReach

theorem means_held {insns : List Insn} (sound : ∀ insn ∈ insns, insn.Sound) :
    List.Forall₂ (machine.Means Insn.encode) insns (insns.map Insn.held) := by
  rw [List.forall₂_map_right_iff, List.forall₂_same]
  intro insn member
  rcases sound insn member with ⟨ofFormat, accepted, inReach⟩
  rcases Option.isSome_iff_exists.mp ((encode_isSome_iff insn).mpr accepted) with ⟨w, encoded⟩
  exact ⟨w, encoded, decodeFull_held ofFormat inReach encoded⟩

/-- What instructions do one after the other, as they are read back. -/
def effects (insns : List Insn) (s : State) : Option State :=
  (insns.map Insn.held).foldlM (fun s insn => effect insn s) s

@[simp] theorem effects_nil (s : State) : effects [] s = some s := rfl

theorem effects_cons_some {insn : Insn} {rest : List Insn} {s s' : State}
    (ends : effect insn.held s = some s') : effects (insn :: rest) s = effects rest s' := by
  change (effect insn.held s >>= effects rest) = _
  rw [ends]
  rfl

theorem effects_append_some {first second : List Insn} {s s' : State}
    (ends : effects first s = some s') : effects (first ++ second) s = effects second s' := by
  change List.foldlM _ _ _ = _
  rw [List.map_append, List.foldlM_append]
  change effects first s >>= effects second = _
  rw [ends]
  rfl

/-- Loaded instructions that go straight on. -/
theorem machine_reaches {insns : List Insn} {fetch : Word → Option Word} {base : Word}
    {s s' : State} (loaded : Loaded Insn.encode fetch base insns)
    (sound : ∀ insn ∈ insns, insn.Sound) (ends : effects insns s = some s') :
    machine.Reaches fetch base insns.length (s, slot base 0) (s', slot base insns.length) := by
  have ran := @Placed.Runs.line _ _ _ _ (loaded.placed (means_held sound)) 0 s s' _
    straight_effect (insns.map Insn.held) (by rw [List.drop_zero]) ends
  rwa [Placed.Runs, Nat.zero_add, List.length_map] at ran

/-! ## Values in two parts -/

theorem rvLo_range (val : Int) : -2048 ≤ rvLo val ∧ rvLo val ≤ 2047 := by
  rw [rvLo, bit11]
  omega

/-- The upper part with its low bits cleared and the lower part make the value. -/
theorem rvHi_add_rvLo (val : Int) : (rvHi val / 2 ^ 12 * 2 ^ 12 + rvLo val) % 2 ^ 32 =
    val % 2 ^ 32 := by
  rw [rvHi, rvLo, bit11]
  omega

theorem upper_add_lower (val : Int) :
    BitVec.ofInt 32 (rvHi val / 2 ^ 12 % 2 ^ 20 * 2 ^ 12) + BitVec.ofInt 32 (rvLo val) =
      BitVec.ofInt 32 val := by
  rw [← BitVec.ofInt_add]
  apply BitVec.eq_of_toNat_eq
  rw [BitVec.toNat_ofInt, BitVec.toNat_ofInt]
  exact congrArg Int.toNat (hi_lo val)

section Effects

variable (s : State) (rd rs1 rs2 imm : Int)

theorem effect_add : effect (.add rd rs1 rs2) s = some (s.set rd (s.get rs1 + s.get rs2)) := rfl

theorem effect_lw : effect (.lw rd rs1 imm) s =
    some (s.set rd (s.memory.loadWord (s.get rs1 + BitVec.ofInt 32 imm))) := rfl

theorem effect_sw : effect (.sw rd rs1 imm) s = some { s with
    memory := s.memory.storeWord (s.get rs1 + BitVec.ofInt 32 imm) (s.get rd) } := rfl

end Effects

/-- The same but for registers that may change. -/
structure SameBut (changed : List Int) (s s' : State) : Prop where
  memory : s'.memory = s.memory
  get : ∀ r, r ∉ changed → s'.get r = s.get r

theorem SameBut.refl (changed : List Int) (s : State) : SameBut changed s s :=
  ⟨rfl, fun _ _ => rfl⟩

theorem SameBut.set {changed : List Int} {s s' : State} {r : Int} {w : Word}
    (same : SameBut changed s s') (mayChange : r ∈ changed) :
    SameBut changed s (s'.set r w) where
  memory := same.memory
  get := by
    intro r' kept
    have different : r' ≠ r := by
      intro isSame
      exact kept (isSame ▸ mayChange)
    rw [State.get_set_other different, same.get r' kept]

/-- `lui` and `addi` leave the value and change nothing else. -/
theorem effects_loadValue {rd : Int} (nonzero : rd ≠ 0) (val : Int) (s : State) :
    ∃ s', effects (loadValue rd val) s = some s' ∧ s'.get rd = BitVec.ofInt 32 val ∧
      SameBut [rd] s s' := by
  refine ⟨_, rfl, ?_, ?_⟩
  · change ((State.set _ _ _).set rd _).get rd = _
    rw [State.get_set_same nonzero]
    change (State.set _ rd _).get rd + _ = _
    rw [State.get_set_same nonzero]
    exact upper_add_lower val
  · exact ((SameBut.refl [rd] s).set (by simp)).set (by simp)

theorem sound_loadValue {rd : Int} (isRd : IsReg rd) (val : Int) :
    ∀ insn ∈ loadValue rd val, insn.Sound := by
  have range := rvLo_range val
  have upper : (Insn.lui rd (rvHi val)).Sound := ⟨⟨.inl rfl, isRd⟩, trivial, trivial⟩
  have lower : (Insn.addi rd rd (rvLo val)).Sound :=
    ⟨.inr ⟨.inl rfl, isRd, isRd⟩, range, fun isShift => by cases isShift⟩
  intro insn member
  rcases List.mem_pair.mp member with rfl | rfl
  · exact upper
  · exact lower

/-- The same register written on both sides. -/
theorem SameBut.set_both {changed : List Int} {s s' : State} (same : SameBut changed s s')
    {r : Int} (nonzero : r ≠ 0) (w : Word) : SameBut changed (s.set r w) (s'.set r w) where
  memory := same.memory
  get := by
    intro r' kept
    by_cases isSame : r' = r
    · rw [isSame, State.get_set_same nonzero, State.get_set_same nonzero]
    · rw [State.get_set_other isSame, State.get_set_other isSame, same.get r' kept]

/-! ## The accesses -/

/-- The register a slot is addressed from. -/
def baseOf : Opcode → Int
  | .globalAddressOf | .globalLoad | .globalStore => gp
  | _ => sp

/-- What a constant, an address, a load or a store is to do. -/
def accomplished (env : Env) (ir : Ph2Ir) (s : State) : State :=
  match ir.op with
  | .loadConstant => s.set (ir.dest + 10) (BitVec.ofInt 32 ir.src0)
  | .loadDataAddress => s.set (ir.dest + 10) (BitVec.ofInt 32 (env.elfDataStart + ir.src0))
  | .loadRodataAddress => s.set (ir.dest + 10) (BitVec.ofInt 32 (env.elfRodataStart + ir.src0))
  | .addressOf | .globalAddressOf =>
      s.set (ir.dest + 10) (s.get (baseOf ir.op) + BitVec.ofInt 32 ir.src0)
  | .load | .globalLoad =>
      s.set (ir.dest + 10) (s.memory.loadWord (s.get (baseOf ir.op) + BitVec.ofInt 32 ir.src0))
  | .store | .globalStore =>
      { s with
        memory := s.memory.storeWord (s.get (baseOf ir.op) + BitVec.ofInt 32 ir.src1)
          (s.get (ir.src0 + 10)) }
  | _ => s

/-- A constant, an address, a load or a store on an allocated register. -/
def IsAccess (ir : Ph2Ir) : Prop :=
  match ir.op with
  | .loadConstant | .loadDataAddress | .loadRodataAddress | .addressOf | .globalAddressOf
  | .load | .globalLoad => IsAllocated (ir.dest + 10)
  | .store | .globalStore => IsAllocated (ir.src0 + 10)
  | _ => False

/-- The instructions run one after the other and leave a state but for `t0`. -/
def Leaves (insns : List Insn) (s wanted : State) : Prop :=
  (∀ insn ∈ insns, insn.Sound) ∧ ∃ s', effects insns s = some s' ∧ SameBut [t0] wanted s'

/-- A register slots are addressed from. -/
theorem baseOf_spec (op : Opcode) : IsReg (baseOf op) ∧ baseOf op ∉ [t0] := by
  cases op <;> decide

theorem fitsImm_range {val : Int} (fits : fitsImm val = true) : -2048 ≤ val ∧ val ≤ 2047 := by
  simpa [fitsImm] using fits

theorem sound_addi {rd rs1 imm : Int} (isRd : IsReg rd) (isRs1 : IsReg rs1)
    (range : -2048 ≤ imm ∧ imm ≤ 2047) : (Insn.addi rd rs1 imm).Sound :=
  ⟨.inr ⟨.inl rfl, isRd, isRs1⟩, range, fun isShift => by cases isShift⟩

theorem sound_add {rd rs1 rs2 : Int} (isRd : IsReg rd) (isRs1 : IsReg rs1) (isRs2 : IsReg rs2) :
    (Insn.add rd rs1 rs2).Sound :=
  ⟨⟨rfl, isRd, isRs1, isRs2⟩, trivial, trivial⟩

theorem sound_lw {rd rs1 imm : Int} (isRd : IsReg rd) (isRs1 : IsReg rs1)
    (range : -2048 ≤ imm ∧ imm ≤ 2047) : (Insn.lw rd rs1 imm).Sound :=
  ⟨.inr ⟨.inr (.inr ⟨rfl, rfl⟩), isRd, isRs1⟩, range, fun isShift => by cases isShift⟩

theorem sound_sw {rd rs1 imm : Int} (isRd : IsReg rd) (isRs1 : IsReg rs1)
    (range : -2048 ≤ imm ∧ imm ≤ 2047) : (Insn.sw rd rs1 imm).Sound :=
  ⟨⟨rfl, isRs1, isRd⟩, range, trivial⟩

/-- The address is put together in `t0`. -/
theorem effects_base {interm : Int} (val : Int) (s : State) (notT0 : interm ∉ [t0]) :
    ∃ s', effects (loadValue t0 val ++ [.add t0 interm t0]) s = some s' ∧
      s'.get t0 = s.get interm + BitVec.ofInt 32 val ∧ SameBut [t0] s s' := by
  rcases effects_loadValue (by decide : t0 ≠ 0) val s with ⟨s₁, ends, isValue, same⟩
  refine ⟨_, (effects_append_some ends).trans (effects_cons_some (effect_add ..)), ?_, ?_⟩
  · rw [State.get_set_same (by decide), isValue, same.get interm notT0]
  · exact same.set (by simp)

section Leaving

variable {rd interm : Int} (isRd : IsAllocated rd) (val : Int) (s : State)

include isRd

theorem leaves_value :
    Leaves (loadValue rd val) s (s.set rd (BitVec.ofInt 32 val)) := by
  refine ⟨sound_loadValue isRd.isReg val, ?_⟩
  rcases effects_loadValue isRd.ne_zero val s with ⟨s', ends, isValue, same⟩
  refine ⟨s', ends, same.memory, ?_⟩
  intro r _
  by_cases isDest : r = rd
  · rw [isDest, isValue, State.get_set_same isRd.ne_zero]
  · rw [State.get_set_other isDest, same.get r (by simpa using isDest)]

theorem leaves_constant : Leaves (if fitsImm val then [.addi rd zero val] else loadValue rd val) s
    (s.set rd (BitVec.ofInt 32 val)) := by
  split
  · rename_i fits
    refine ⟨List.forall_mem_singleton.mpr
      (sound_addi isRd.isReg (by decide) (fitsImm_range fits)), _, rfl, ?_⟩
    change SameBut [t0] _ (s.set rd (s.get 0 + BitVec.ofInt 32 val))
    rw [State.get_zero, BitVec.zero_add]
    exact SameBut.refl _ _
  · exact leaves_value isRd val s

theorem leaves_address (isInterm : IsReg interm) (notT0 : interm ∉ [t0]) :
    Leaves (if fitsImm val then [.addi rd interm val] else loadValue t0 val ++ [.add rd interm t0])
      s (s.set rd (s.get interm + BitVec.ofInt 32 val)) := by
  split
  · rename_i fits
    exact ⟨List.forall_mem_singleton.mpr (sound_addi isRd.isReg isInterm (fitsImm_range fits)),
      _, rfl, SameBut.refl _ _⟩
  · refine ⟨List.forall_mem_append.mpr ⟨sound_loadValue (by decide) val,
      List.forall_mem_singleton.mpr (sound_add isRd.isReg isInterm (by decide))⟩, ?_⟩
    rcases effects_loadValue (by decide : t0 ≠ 0) val s with ⟨s₁, ends, isValue, same⟩
    refine ⟨_, (effects_append_some ends).trans (effects_cons_some (effect_add ..)), ?_⟩
    rw [isValue, same.get interm notT0]
    exact same.set_both isRd.ne_zero _

/-- A load from the address put together in `t0`. -/
theorem leaves_load (isInterm : IsReg interm) (notT0 : interm ∉ [t0]) :
    Leaves (if fitsImm val then [.lw rd interm val]
        else loadValue t0 val ++ [.add t0 interm t0, .lw rd t0 0]) s
      (s.set rd (s.memory.loadWord (s.get interm + BitVec.ofInt 32 val))) := by
  split
  · rename_i fits
    exact ⟨List.forall_mem_singleton.mpr (sound_lw isRd.isReg isInterm (fitsImm_range fits)),
      _, rfl, SameBut.refl _ _⟩
  · rcases effects_base val s notT0 with ⟨s₁, ends, isBase, same⟩
    have sound : (Insn.lw rd t0 0).Sound := sound_lw isRd.isReg (by decide) (by decide)
    refine ⟨List.forall_mem_append.mpr ⟨sound_loadValue (by decide) val,
      List.forall_mem_cons.mpr ⟨sound_add (by decide) isInterm (by decide),
        List.forall_mem_singleton.mpr sound⟩⟩, ?_⟩
    rw [List.append_cons]
    refine ⟨_, (effects_append_some ends).trans (effects_cons_some (effect_lw ..)), ?_⟩
    rw [isBase, same.memory, show BitVec.ofInt 32 0 = 0#32 from rfl, BitVec.add_zero]
    exact same.set_both isRd.ne_zero _

/-- A store to the address put together in `t0`. -/
theorem leaves_store (isInterm : IsReg interm) (notT0 : interm ∉ [t0]) :
    Leaves (if fitsImm val then [.sw rd interm val]
        else loadValue t0 val ++ [.add t0 interm t0, .sw rd t0 0]) s
      { s with
        memory := s.memory.storeWord (s.get interm + BitVec.ofInt 32 val) (s.get rd) } := by
  split
  · rename_i fits
    exact ⟨List.forall_mem_singleton.mpr (sound_sw isRd.isReg isInterm (fitsImm_range fits)),
      _, rfl, SameBut.refl _ _⟩
  · rcases effects_base val s notT0 with ⟨s₁, ends, isBase, same⟩
    have sound : (Insn.sw rd t0 0).Sound := sound_sw isRd.isReg (by decide) (by decide)
    have notDest : rd ∉ [t0] := by
      rw [List.mem_singleton]
      rintro rfl
      exact absurd isRd (by decide)
    refine ⟨List.forall_mem_append.mpr ⟨sound_loadValue (by decide) val,
      List.forall_mem_cons.mpr ⟨sound_add (by decide) isInterm (by decide),
        List.forall_mem_singleton.mpr sound⟩⟩, ?_⟩
    rw [List.append_cons]
    refine ⟨_, (effects_append_some ends).trans (effects_cons_some (effect_sw ..)), ?_⟩
    rw [isBase, same.memory, same.get rd notDest, show BitVec.ofInt 32 0 = 0#32 from rfl,
      BitVec.add_zero]
    exact ⟨rfl, same.get⟩

end Leaving

/-- What is emitted for an access does what the access is to do, whatever form it has. -/
theorem leaves_access {env : Env} {p : Program} {elfOffset : BlockId → Nat} {size : Nat}
    {ir : Ph2Ir} {insns : List Insn} (isAccess : IsAccess ir)
    (emitted : instructions env p elfOffset size ir = some insns) (s : State) :
    Leaves insns s (accomplished env ir s) := by
  rcases baseOf_spec ir.op with ⟨isReg, notT0⟩
  rcases ir with ⟨op, src0, src1, dest, funcName, nextBb, thenBb, elseBb, detached, onTop⟩
  cases op <;> first | exact isAccess.elim | skip
  case loadConstant =>
    simp only [instructions] at emitted
    have leaves := leaves_constant isAccess src0 s
    split_ifs at emitted leaves <;> cases emitted <;> exact leaves
  case loadDataAddress =>
    cases emitted
    exact leaves_value isAccess _ s
  case loadRodataAddress =>
    cases emitted
    exact leaves_value isAccess _ s
  case addressOf =>
    simp only [instructions, if_true] at emitted
    have leaves := leaves_address isAccess src0 s isReg notT0
    split_ifs at emitted leaves <;> cases emitted <;> exact leaves
  case globalAddressOf =>
    simp only [instructions, reduceCtorEq, if_false] at emitted
    have leaves := leaves_address isAccess src0 s isReg notT0
    split_ifs at emitted leaves <;> cases emitted <;> exact leaves
  case load =>
    simp only [instructions, if_true] at emitted
    have leaves := leaves_load isAccess src0 s isReg notT0
    split_ifs at emitted leaves <;> cases emitted <;> exact leaves
  case globalLoad =>
    simp only [instructions, reduceCtorEq, if_false] at emitted
    have leaves := leaves_load isAccess src0 s isReg notT0
    split_ifs at emitted leaves <;> cases emitted <;> exact leaves
  case store =>
    simp only [instructions, if_true] at emitted
    have leaves := leaves_store isAccess src1 s isReg notT0
    split_ifs at emitted leaves <;> cases emitted <;> exact leaves
  case globalStore =>
    simp only [instructions, reduceCtorEq, if_false] at emitted
    have leaves := leaves_store isAccess src1 s isReg notT0
    split_ifs at emitted leaves <;> cases emitted <;> exact leaves

/-- The two parts of a value add up to it, the lower one is a short immediate, and every
constant arrives and every slot is addressed through them: nothing is rejected, and nothing
else changes but `t0`. -/
theorem access_exact :
    (∀ val : Int, -2048 ≤ rvLo val ∧ rvLo val ≤ 2047 ∧
      (rvHi val / 2 ^ 12 * 2 ^ 12 + rvLo val) % 2 ^ 32 = val % 2 ^ 32) ∧
    ∀ {env : Env} {p : Program} {elfOffset : BlockId → Nat} {size : Nat} {ir : Ph2Ir}
      {insns : List Insn}, IsAccess ir → instructions env p elfOffset size ir = some insns →
      (∀ insn ∈ insns, insn.encode.isSome = true) ∧
        ∀ {fetch : Word → Option Word} {base : Word}, Loaded Insn.encode fetch base insns →
        ∀ s : State, ∃ s',
          machine.Reaches fetch base insns.length (s, slot base 0) (s', slot base insns.length) ∧
            SameBut [t0] (accomplished env ir s) s' := by
  refine ⟨fun val => ⟨(rvLo_range val).1, (rvLo_range val).2, rvHi_add_rvLo val⟩, ?_⟩
  intro env p elfOffset size ir insns isAccess emitted
  refine ⟨fun insn member => ?_, ?_⟩
  · rcases leaves_access isAccess emitted ⟨fun _ => 0#32, fun _ => 0#8⟩ with ⟨sound, -⟩
    exact (encode_isSome_iff insn).mpr (sound insn member).2.1
  · intro fetch base loaded s
    rcases leaves_access isAccess emitted s with ⟨sound, s', ends, same⟩
    exact ⟨s', machine_reaches loaded sound ends, same⟩

/-- A word far up in the frame: the upper part is rounded up. -/
theorem access_exact_far :
    ∃ s', machine.Reaches (store Insn.encode 0#32
          [.lui t0 12192, .addi t0 t0 (-96), .add t0 sp t0, .lw 13 t0 0]) 0#32 4
        (⟨fun _ => 0#32, fun _ => 1#8⟩, slot 0#32 0) (s', slot 0#32 4) ∧
      SameBut [t0] (accomplished smallEnv { op := .load, dest := 3, src0 := 8096 }
        ⟨fun _ => 0#32, fun _ => 1#8⟩) s' :=
  (@access_exact.2 smallEnv branchingProgram (fun _ => 0) 0
    { op := .load, dest := 3, src0 := 8096 } _ (show IsAllocated 13 by decide) rfl).2
    (loaded_store 0#32 (by decide) (by decide)) _

end Shecc.RiscV
