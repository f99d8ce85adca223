import Shecc.Arm.Machine
import Shecc.Arm.Layout

/-!
# Constants and addresses on ARM

A constant is moved to its register in halves, as a byte or as the opposite of its
opposite, and an offset that does not fit an instruction goes through `r8`. The register
holds the constant, and the slot is addressed, whatever path was chosen.
-/

namespace Shecc.Arm

open Execution Codegen

/-- The registers the allocator hands out. -/
def IsAllocated (r : Int) : Prop := 0 ≤ r ∧ r < 8

instance (r : Int) : Decidable (IsAllocated r) := inferInstanceAs (Decidable (_ ∧ _))

theorem IsAllocated.isReg {r : Int} (isAllocated : IsAllocated r) : IsReg r := by
  rcases isAllocated with ⟨low, high⟩
  constructor <;> omega

/-- The flags and all registers but some are the same. -/
structure KeepsBut (changed : List Int) (s s' : State) : Prop where
  reg : ∀ r, r ∉ changed → s'.reg r = s.reg r
  n : s'.n = s.n
  z : s'.z = s.z
  c : s'.c = s.c
  v : s'.v = s.v

/-- The register a slot is addressed from. -/
def baseOf : Opcode → Int
  | .globalAddressOf | .globalLoad | .globalStore => r12
  | _ => sp

/-- What a constant, an address, a load and a store are to do, besides changing `r8`. -/
def Accomplishes (ir : Ph2Ir) (s s' : State) : Prop :=
  match ir.op with
  | .loadConstant =>
      s'.reg ir.dest = BitVec.ofInt 32 ir.src0 ∧ s'.memory = s.memory ∧
        KeepsBut [ir.dest, r8] s s'
  | .addressOf | .globalAddressOf =>
      s'.reg ir.dest = s.reg (baseOf ir.op) + BitVec.ofInt 32 ir.src0 ∧ s'.memory = s.memory ∧
        KeepsBut [ir.dest, r8] s s'
  | .load | .globalLoad =>
      s'.reg ir.dest = s.memory.loadWord (s.reg (baseOf ir.op) + BitVec.ofInt 32 ir.src0) ∧
        s'.memory = s.memory ∧ KeepsBut [ir.dest, r8] s s'
  | .store | .globalStore =>
      s'.memory = s.memory.storeWord (s.reg (baseOf ir.op) + BitVec.ofInt 32 ir.src1)
        (s.reg ir.src0) ∧ KeepsBut [r8] s s'
  | _ => False

/-- Two halves make a word. -/
theorem halves_or (val : Int) :
    BitVec.ofInt 32 (val / 2 ^ 16 % 2 ^ 16 * 2 ^ 16) |||
        (BitVec.ofInt 32 (val % 2 ^ 16) &&& 0xFFFF#32) = BitVec.ofInt 32 val := by
  apply BitVec.eq_of_toNat_eq
  obtain ⟨low, isLow⟩ := Int.eq_ofNat_of_zero_le (show 0 ≤ val % 2 ^ 16 by omega)
  obtain ⟨high, isHigh⟩ := Int.eq_ofNat_of_zero_le (show 0 ≤ val / 2 ^ 16 % 2 ^ 16 by omega)
  have lowSmall : low < 2 ^ 16 := by omega
  have highSmall : high < 2 ^ 16 := by omega
  have upper : (BitVec.ofInt 32 (val / 2 ^ 16 % 2 ^ 16 * 2 ^ 16)).toNat = high <<< 16 := by
    rw [BitVec.toNat_ofInt, isHigh, Nat.shiftLeft_eq]
    omega
  have lower : (BitVec.ofInt 32 (val % 2 ^ 16) &&& 0xFFFF#32).toNat = low := by
    rw [BitVec.toNat_and, BitVec.toNat_ofInt, isLow]
    have mask : (0xFFFF#32 : Word).toNat = 2 ^ 16 - 1 := rfl
    rw [mask, Nat.and_two_pow_sub_one_eq_mod]
    omega
  rw [BitVec.toNat_or, upper, lower, ← Nat.shiftLeft_add_eq_or_of_lt lowSmall, Nat.shiftLeft_eq,
    BitVec.toNat_ofInt]
  omega

/-- Move a value to a register in halves. -/
def moveHalves (rd val : Int) : List Operation :=
  [.movw rd (val % 2 ^ 16), .movt rd (val / 2 ^ 16 % 2 ^ 16)]

theorem effects_moveHalves (s : State) (rd val : Int) :
    effects (moveHalves rd val) s = some (s.setReg rd (BitVec.ofInt 32 val)) := by
  rw [moveHalves, effects_cons_some (effect_movw s rd _), effects_cons_some (effect_movt ..),
    State.setReg_reg_same, State.setReg_setReg_same, halves_or, effects_nil]

/-- Writing a register that may change. -/
theorem KeepsBut.setReg {changed : List Int} {s s' : State} {r : Int} {w : Word}
    (keeps : KeepsBut changed s s') (mayChange : r ∈ changed) :
    KeepsBut changed s (s'.setReg r w) where
  reg := by
    intro r' kept
    have different : r' ≠ r := by
      intro same
      exact kept (same ▸ mayChange)
    rw [State.setReg_reg_other different, keeps.reg r' kept]
  n := keeps.n
  z := keeps.z
  c := keeps.c
  v := keeps.v

theorem KeepsBut.refl (changed : List Int) (s : State) : KeepsBut changed s s :=
  ⟨fun _ _ => rfl, rfl, rfl, rfl, rfl⟩

theorem KeepsBut.setMemory {changed : List Int} {s s' : State} {m : Memory}
    (keeps : KeepsBut changed s s') : KeepsBut changed s { s' with memory := m } :=
  ⟨keeps.reg, keeps.n, keeps.z, keeps.c, keeps.v⟩

section Accesses

variable {insns : List Insn} {fetch : Word → Option Word} {base : Word} {rd interm val : Int}

theorem IsAllocated.ne {r r' : Int} (isAllocated : IsAllocated r) (isOther : ¬IsAllocated r') :
    r ≠ r' := by
  intro same
  exact isOther (same ▸ isAllocated)

theorem reaches_constant (isRd : IsAllocated rd)
    (isCode : insns = if val < 0 then [.movw .al r8 (-val), .movt .al r8 (-val), .rsbI .al rd 0 r8]
      else if val > 255 then [.movw .al rd val, .movt .al rd val] else [.movI .al rd val])
    (loaded : Loaded Insn.encode fetch base insns) (s : State) :
    ∃ s', processor.Reaches fetch base insns.length (s, slot base 0) (s', slot base insns.length) ∧
      s'.reg rd = BitVec.ofInt 32 val ∧ s'.memory = s.memory ∧ KeepsBut [rd, r8] s s' := by
  have isReg := isRd.isReg
  have notPc : 15 ≠ rd := (isRd.ne (by decide)).symm
  by_cases negative : val < 0
  · rw [if_pos negative] at isCode
    subst isCode
    have ends : effects (moveHalves r8 (-val) ++ [.data .rsb false r8 rd (.imm 0 0)]) s =
        some ((s.setReg r8 (BitVec.ofInt 32 (-val))).setReg rd (BitVec.ofInt 32 val)) := by
      rw [effects_append_some (effects_moveHalves ..),
        effects_cons_some (effect_rsbI ..), State.setReg_reg_same]
      simp [BitVec.ofInt_neg]
    refine ⟨_, reaches_line loaded (by simp [Insn.Valid, isReg]; decide) _ rfl
      (by simp [moveHalves, Operation.names, Operand.names, notPc]) ends, ?_, rfl, ?_⟩
    · rw [State.setReg_reg_same]
    · exact ((KeepsBut.refl _ s).setReg (by simp)).setReg (by simp)
  · rw [if_neg negative] at isCode
    by_cases large : val > 255
    · rw [if_pos large] at isCode
      subst isCode
      refine ⟨_, reaches_line loaded (by simp [Insn.Valid, isReg]) _ rfl
        (by simp [moveHalves, Operation.names, notPc]) (effects_moveHalves s rd val), ?_, rfl, ?_⟩
      · rw [State.setReg_reg_same]
      · exact (KeepsBut.refl _ s).setReg (by simp)
    · rw [if_neg large] at isCode
      subst isCode
      have isByte : IsByte val := ⟨by omega, by omega⟩
      have ends : effects [.data .mov false 0 rd (.imm val 0)] s =
          some (s.setReg rd (BitVec.ofInt 32 val)) :=
        effects_cons_some (effect_movI ..)
      refine ⟨_, reaches_line loaded (by simp [Insn.Valid, isReg, isByte]) _ rfl
        (by simp [Operation.names, Operand.names, notPc]) ends, ?_, rfl, ?_⟩
      · rw [State.setReg_reg_same]
      · exact (KeepsBut.refl _ s).setReg (by simp)

/-- A register slots are addressed from. -/
def IsBase (r : Int) : Prop := r = sp ∨ r = r12

theorem IsBase.isReg {r : Int} (isBase : IsBase r) : IsReg r := by
  rcases isBase with rfl | rfl <;> decide

theorem IsBase.ne {r r' : Int} (isBase : IsBase r) (isOther : r' ≠ sp ∧ r' ≠ r12) : r ≠ r' := by
  rcases isBase with rfl | rfl
  · exact isOther.1.symm
  · exact isOther.2.symm

theorem baseOf_isBase (op : Opcode) : IsBase (baseOf op) := by
  cases op <;> first | exact .inl rfl | exact .inr rfl

/-- An address that does not fit an instruction is put together in `r8`. -/
theorem effects_address (s : State) (isInterm : IsBase interm) (rd val : Int) :
    effects (moveHalves r8 val ++ [.data .add false interm rd (.shifted r8 .logicLs 0)]) s =
      some ((s.setReg r8 (BitVec.ofInt 32 val)).setReg rd
        (s.reg interm + BitVec.ofInt 32 val)) := by
  rw [effects_append_some (effects_moveHalves ..),
    effects_cons_some (effect_addR ..), State.setReg_reg_same,
    State.setReg_reg_other (isInterm.ne (by decide)), effects_nil]

theorem reaches_address (isRd : IsAllocated rd) (isInterm : IsBase interm) (nonneg : 0 ≤ val)
    (isCode : insns = if val > 255 then
      [.movw .al r8 val, .movt .al r8 val, .addR .al rd interm r8] else [.addI .al rd interm val])
    (loaded : Loaded Insn.encode fetch base insns) (s : State) :
    ∃ s', processor.Reaches fetch base insns.length (s, slot base 0) (s', slot base insns.length) ∧
      s'.reg rd = s.reg interm + BitVec.ofInt 32 val ∧ s'.memory = s.memory ∧
        KeepsBut [rd, r8] s s' := by
  have isReg := isRd.isReg
  have isRegInterm := isInterm.isReg
  have notPc : 15 ≠ rd := (isRd.ne (by decide)).symm
  have notPcInterm : 15 ≠ interm := (isInterm.ne (by decide)).symm
  by_cases large : val > 255
  · rw [if_pos large] at isCode
    subst isCode
    refine ⟨_, reaches_line loaded (by simp [Insn.Valid, isReg, isRegInterm]; decide) _ rfl
      (by simp [moveHalves, Operation.names, Operand.names, notPc, notPcInterm])
      (effects_address s isInterm rd val), ?_, rfl, ?_⟩
    · rw [State.setReg_reg_same]
    · exact ((KeepsBut.refl _ s).setReg (by simp)).setReg (by simp)
  · rw [if_neg large] at isCode
    subst isCode
    have isByte : IsByte val := ⟨nonneg, by omega⟩
    have ends : effects [.data .add false interm rd (.imm val 0)] s =
        some (s.setReg rd (s.reg interm + BitVec.ofInt 32 val)) :=
      effects_cons_some (effect_addI ..)
    refine ⟨_, reaches_line loaded (by simp [Insn.Valid, isReg, isRegInterm, isByte]) _ rfl
      (by simp [Operation.names, Operand.names, notPc, notPcInterm]) ends, ?_, rfl, ?_⟩
    · rw [State.setReg_reg_same]
    · exact (KeepsBut.refl _ s).setReg (by simp)

theorem reaches_load (isRd : IsAllocated rd) (isInterm : IsBase interm) (nonneg : 0 ≤ val)
    (isCode : insns = if val > 4095 then
      [.movw .al r8 val, .movt .al r8 val, .addR .al r8 interm r8, .lw .al rd r8 0]
      else [.lw .al rd interm val])
    (loaded : Loaded Insn.encode fetch base insns) (s : State) :
    ∃ s', processor.Reaches fetch base insns.length (s, slot base 0) (s', slot base insns.length) ∧
      s'.reg rd = s.memory.loadWord (s.reg interm + BitVec.ofInt 32 val) ∧
        s'.memory = s.memory ∧ KeepsBut [rd, r8] s s' := by
  have isReg := isRd.isReg
  have isRegInterm := isInterm.isReg
  have notPc : 15 ≠ rd := (isRd.ne (by decide)).symm
  have notPcInterm : 15 ≠ interm := (isInterm.ne (by decide)).symm
  by_cases large : val > 4095
  · rw [if_pos large] at isCode
    subst isCode
    have ends : effects (moveHalves r8 val ++
        [.data .add false interm r8 (.shifted r8 .logicLs 0)] ++ [.ldr rd r8 0]) s =
          some (((s.setReg r8 (BitVec.ofInt 32 val)).setReg r8
            (s.reg interm + BitVec.ofInt 32 val)).setReg rd
              (s.memory.loadWord (s.reg interm + BitVec.ofInt 32 val))) := by
      rw [effects_append_some (effects_address s isInterm r8 val),
        effects_cons_some (effect_ldr ..), State.setReg_reg_same]
      simp
    refine ⟨_, reaches_line loaded (by simp [Insn.Valid, isReg, isRegInterm]; decide) _ rfl
      (by simp [moveHalves, Operation.names, Operand.names, notPc, notPcInterm]) ends, ?_, rfl, ?_⟩
    · rw [State.setReg_reg_same]
    · exact (((KeepsBut.refl _ s).setReg (by simp)).setReg (by simp)).setReg (by simp)
  · rw [if_neg large] at isCode
    subst isCode
    refine ⟨_, reaches_line loaded (by simp [Insn.Valid, isReg, isRegInterm]; omega)
      [.ldr rd interm val]
      rfl (by simp [Operation.names, notPc, notPcInterm]) (effects_cons_some (effect_ldr ..)), ?_,
        rfl, ?_⟩
    · rw [State.setReg_reg_same]
    · exact (KeepsBut.refl _ s).setReg (by simp)

theorem reaches_store (isRn : IsAllocated rd) (isInterm : IsBase interm) (nonneg : 0 ≤ val)
    (isCode : insns = if val > 4095 then
      [.movw .al r8 val, .movt .al r8 val, .addR .al r8 interm r8, .sw .al rd r8 0]
      else [.sw .al rd interm val])
    (loaded : Loaded Insn.encode fetch base insns) (s : State) :
    ∃ s', processor.Reaches fetch base insns.length (s, slot base 0) (s', slot base insns.length) ∧
      s'.memory = s.memory.storeWord (s.reg interm + BitVec.ofInt 32 val) (s.reg rd) ∧
        KeepsBut [r8] s s' := by
  have isReg := isRn.isReg
  have isRegInterm := isInterm.isReg
  have notPc : 15 ≠ rd := (isRn.ne (by decide)).symm
  have notPcInterm : 15 ≠ interm := (isInterm.ne (by decide)).symm
  by_cases large : val > 4095
  · rw [if_pos large] at isCode
    subst isCode
    have ends : effects (moveHalves r8 val ++
        [.data .add false interm r8 (.shifted r8 .logicLs 0)] ++ [.str rd r8 0]) s =
          some { (s.setReg r8 (BitVec.ofInt 32 val)).setReg r8
            (s.reg interm + BitVec.ofInt 32 val) with
              memory := s.memory.storeWord (s.reg interm + BitVec.ofInt 32 val) (s.reg rd) } := by
      rw [effects_append_some (effects_address s isInterm r8 val),
        effects_cons_some (effect_str ..), State.setReg_reg_same,
        State.setReg_reg_other (isRn.ne (by decide)), State.setReg_reg_other (isRn.ne (by decide))]
      simp
    refine ⟨_, reaches_line loaded (by simp [Insn.Valid, isReg, isRegInterm]; decide) _ rfl
      (by simp [moveHalves, Operation.names, Operand.names, notPc, notPcInterm]) ends, rfl, ?_⟩
    exact (((KeepsBut.refl _ s).setReg (by simp)).setReg (by simp)).setMemory
  · rw [if_neg large] at isCode
    subst isCode
    refine ⟨_, reaches_line loaded (by simp [Insn.Valid, isReg, isRegInterm]; omega)
      [.str rd interm val]
      rfl (by simp [Operation.names, notPc, notPcInterm]) (effects_cons_some (effect_str ..)), rfl,
      ?_⟩
    exact (KeepsBut.refl _ s).setMemory

end Accesses

/-- A constant, an address, a load or a store. Its register is allocated, and its offset
is not negative. -/
def IsAccess (ir : Ph2Ir) : Prop :=
  match ir.op with
  | .loadConstant => IsAllocated ir.dest
  | .addressOf | .globalAddressOf | .load | .globalLoad => IsAllocated ir.dest ∧ 0 ≤ ir.src0
  | .store | .globalStore => IsAllocated ir.src0 ∧ 0 ≤ ir.src1
  | _ => False

/-- Every constant arrives and every slot is addressed, and nothing changes but the
destination and `r8`. -/
theorem access_accomplishes {env : Env} {p : Program} {elfOffset : BlockId → Nat} {size : Nat}
    {ir : Ph2Ir} {insns : List Insn} (isAccess : IsAccess ir)
    (emitted : instructions env p elfOffset size ir = some insns) {fetch : Word → Option Word}
    {base : Word} (loaded : Loaded Insn.encode fetch base insns) (s : State) :
    ∃ s', processor.Reaches fetch base insns.length (s, slot base 0) (s', slot base insns.length) ∧
      Accomplishes ir s s' := by
  have isBase := baseOf_isBase ir.op
  rcases ir with ⟨op, src0, src1, dest, funcName, nextBb, thenBb, elseBb, detached, onTop⟩
  cases op <;> first | exact isAccess.elim | skip
  case loadConstant =>
    apply reaches_constant isAccess ?_ loaded
    simp only [instructions] at emitted
    split_ifs at emitted ⊢ <;> exact (Option.some.inj emitted).symm
  case addressOf =>
    apply reaches_address isAccess.1 isBase isAccess.2 ?_ loaded
    simp only [instructions, if_true] at emitted
    split_ifs at emitted ⊢ <;> exact (Option.some.inj emitted).symm
  case globalAddressOf =>
    apply reaches_address isAccess.1 isBase isAccess.2 ?_ loaded
    simp only [instructions, reduceCtorEq, if_false] at emitted
    split_ifs at emitted ⊢ <;> exact (Option.some.inj emitted).symm
  case load =>
    apply reaches_load isAccess.1 isBase isAccess.2 ?_ loaded
    simp only [instructions, if_true] at emitted
    split_ifs at emitted ⊢ <;> exact (Option.some.inj emitted).symm
  case globalLoad =>
    apply reaches_load isAccess.1 isBase isAccess.2 ?_ loaded
    simp only [instructions, reduceCtorEq, if_false] at emitted
    split_ifs at emitted ⊢ <;> exact (Option.some.inj emitted).symm
  case store =>
    apply reaches_store isAccess.1 isBase isAccess.2 ?_ loaded
    simp only [instructions, if_true] at emitted
    split_ifs at emitted ⊢ <;> exact (Option.some.inj emitted).symm
  case globalStore =>
    apply reaches_store isAccess.1 isBase isAccess.2 ?_ loaded
    simp only [instructions, reduceCtorEq, if_false] at emitted
    split_ifs at emitted ⊢ <;> exact (Option.some.inj emitted).symm

/-- Everything is zero. -/
def clearState : State := ⟨fun _ => 0#32, false, false, false, false, fun _ => 0#8⟩

/-- The smallest number, through its opposite. -/
theorem smallest_accomplishes :
    ∃ s', processor.Reaches (store Insn.encode 0#32
          [.movw .al r8 2147483648, .movt .al r8 2147483648, .rsbI .al 3 0 r8]) 0#32 3
        (clearState, slot 0#32 0) (s', slot 0#32 3) ∧
      Accomplishes { op := .loadConstant, dest := 3, src0 := -2147483648 } clearState s' :=
  @access_accomplishes smallEnv plainProgram (fun _ => 0) 0
    { op := .loadConstant, dest := 3, src0 := -2147483648 } _ (show IsAllocated 3 by decide) rfl _
    0#32 (loaded_of_valid 0#32 (by decide) (by simp [Insn.Valid]; decide)) clearState

end Shecc.Arm
