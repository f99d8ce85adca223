import Shecc.Target.Access
import Shecc.Parser.Operand

/-!
# Sign extension on the targets

A promotion packs the sizes of the source and the target into one number. ARM extends a
byte or a half word to a whole word. RISC-V shifts by the distance of the two sizes, which
is right only for a target of a whole word.
-/

namespace Shecc

open Execution Codegen

/-- The low `n` bytes of a word, sign-extended. -/
def Word.signExtendBytes (n : Nat) (w : Word) : Word := (w.setWidth (8 * n)).signExtend 32

/-- The number a promotion packs its sizes into. -/
def packedSizes (source target : Int) : Int :=
  ((BitVec.ofInt 32 source <<< 16) ||| BitVec.ofInt 32 target).toInt

/-- A promotion emits an extension with its sizes packed. -/
theorem promoteUnchecked_eq (ctx : Parser.Context) (var : VarId)
    (targetType : Option Parser.TypeId) (targetPtr : Nat) :
    Parser.promoteUnchecked ctx var targetType targetPtr = (do
      let rd ← Parser.requireTypedPtrVar ctx targetType targetPtr
      Parser.genNameTo rd
      let record ← Parser.varOf var
      let source ← ctx.typeOf record.type
      let target ← ctx.typeOf targetType
      Parser.emit
        { opcode := .signExt, rd := some rd, rs1 := some var,
          sz := packedSizes source.size (if targetPtr ≠ 0 then Parser.ptrSize else target.size) }
      pure rd) := rfl

/-- The source size, as the back ends unpack it. -/
def sourceOf (packed : Int) : Int := packed / 2 ^ 16 % 2 ^ 16

/-- The target size, as the back ends unpack it. -/
def targetOf (packed : Int) : Int := packed % 2 ^ 16

theorem packedSizes_fields {source target : Int} (sourceRange : 0 ≤ source ∧ source < 2 ^ 16)
    (targetRange : 0 ≤ target ∧ target < 2 ^ 16) :
    sourceOf (packedSizes source target) = source ∧
      targetOf (packedSizes source target) = target := by
  have value : ((BitVec.ofInt 32 source <<< 16) ||| BitVec.ofInt 32 target).toNat =
      source.toNat * 2 ^ 16 + target.toNat := by
    have first : (BitVec.ofInt 32 source).toNat = source.toNat := by
      rw [BitVec.toNat_ofInt]
      omega
    have second : (BitVec.ofInt 32 target).toNat = target.toNat := by
      rw [BitVec.toNat_ofInt]
      omega
    have shifted : (source.toNat <<< 16) % 2 ^ 32 = source.toNat <<< 16 := by
      rw [Nat.shiftLeft_eq]
      omega
    rw [BitVec.toNat_or, BitVec.toNat_shiftLeft, first, second, shifted,
      ← Nat.shiftLeft_add_eq_or_of_lt (by omega), Nat.shiftLeft_eq]
  rw [sourceOf, targetOf, packedSizes, BitVec.toInt_eq_toNat_bmod, value, Int.bmod_def]
  constructor <;> split <;> omega

/-! ## On ARM -/

/-- The code of an extension of these sizes leaves `w` of `v`, whatever the registers. -/
def Arm.Extends (packed : Int) (v w : Word) : Prop :=
  ∀ (env : Arm.Env) (p : Program) (elfOffset : BlockId → Nat) (size : Nat) (ir : Ph2Ir),
    ir.op = .signExt → ir.src1 = packed → Arm.IsAllocated ir.dest → Arm.IsAllocated ir.src0 →
    ∃ insns, Arm.instructions env p elfOffset size ir = some insns ∧
      (∀ insn ∈ insns, insn.encode.isSome = true) ∧
      ∀ (fetch : Word → Option Word) (base : Word), Loaded Arm.Insn.encode fetch base insns →
      ∀ s : Arm.State, s.reg ir.src0 = v →
      ∃ s', Arm.machine.Reaches fetch base insns.length (s, slot base 0)
          (s', slot base insns.length) ∧ s'.reg ir.dest = w

/-- The same on RISC-V. -/
def RiscV.Extends (packed : Int) (v w : Word) : Prop :=
  ∀ (env : RiscV.Env) (p : Program) (elfOffset : BlockId → Nat) (size : Nat) (ir : Ph2Ir),
    ir.op = .signExt → ir.src1 = packed → RiscV.IsAllocated (ir.dest + 10) →
    RiscV.IsAllocated (ir.src0 + 10) →
    ∃ insns, RiscV.instructions env p elfOffset size ir = some insns ∧
      (∀ insn ∈ insns, insn.encode.isSome = true) ∧
      ∀ (fetch : Word → Option Word) (base : Word), Loaded RiscV.Insn.encode fetch base insns →
      ∀ s : RiscV.State, s.get (ir.src0 + 10) = v →
      ∃ s', RiscV.machine.Reaches fetch base insns.length (s, slot base 0)
          (s', slot base insns.length) ∧ s'.get (ir.dest + 10) = w

namespace Arm

/-- ARM extends a byte or a half word to a word. -/
theorem extends_signExtend (packed : Int) (v : Word) :
    Extends packed v (Arch.arm.signExtend packed v) := by
  intro env p elfOffset size ir isExtension isPacked isDest isSource
  have notDest : 15 ≠ ir.dest := (isDest.ne (by decide)).symm
  have notSource : 15 ≠ ir.src0 := (isSource.ne (by decide)).symm
  have valid {insn : Insn} (isValid : insn.NarrowValid) : insn.encode.isSome = true := by
    rcases Insn.narrow_sound isValid with ⟨w, -, encoded, -⟩
    rw [encoded]
    rfl
  by_cases isHalf : packed / 2 ^ 16 % 2 ^ 16 = 2
  · have fits : (Insn.sxth .al ir.dest ir.src0 0).NarrowValid :=
      ⟨isDest.isReg, isSource.isReg, rfl⟩
    refine ⟨[.sxth .al ir.dest ir.src0 0], ?_, List.forall_mem_singleton.mpr (valid fits), ?_⟩
    · simp only [instructions, isExtension, isPacked, isHalf, if_true]
    · intro fetch base loaded s holds
      refine ⟨_, machine_reaches_narrow loaded fits rfl (by
        simp [Narrow.names, notDest, notSource]) s, ?_⟩
      rw [Narrow.effect, State.setReg_reg_same, holds]
      simp only [Arch.signExtend, isHalf, if_true]
  · have fits : (Insn.sxtb .al ir.dest ir.src0 0).NarrowValid :=
      ⟨isDest.isReg, isSource.isReg, rfl⟩
    refine ⟨[.sxtb .al ir.dest ir.src0 0], ?_, List.forall_mem_singleton.mpr (valid fits), ?_⟩
    · simp only [instructions, isExtension, isPacked, isHalf, if_false]
    · intro fetch base loaded s holds
      refine ⟨_, machine_reaches_narrow loaded fits rfl (by
        simp [Narrow.names, notDest, notSource]) s, ?_⟩
      rw [Narrow.effect, State.setReg_reg_same, holds]
      simp only [Arch.signExtend, isHalf, if_false]

/-- The code of an extension leaves nothing else. -/
theorem extends_iff {packed : Int} {v w : Word} :
    Extends packed v w ↔ w = Arch.arm.signExtend packed v := by
  constructor
  · intro ext
    rcases ext smallEnv plainProgram (fun _ => 0) 0 { op := .signExt, src1 := packed } rfl rfl
      (show IsAllocated 0 by decide) (show IsAllocated 0 by decide) with
      ⟨insns, emitted, encodable, runs⟩
    rcases extends_signExtend packed v smallEnv plainProgram (fun _ => 0) 0
      { op := .signExt, src1 := packed } rfl rfl (show IsAllocated 0 by decide)
      (show IsAllocated 0 by decide) with ⟨insns', emitted', -, runs'⟩
    cases Option.some.inj (emitted.symm.trans emitted')
    have short : 4 * insns.length < 2 ^ 32 := by
      simp only [instructions] at emitted
      split_ifs at emitted <;> cases emitted <;> decide
    let s : State := { clearState with reg := fun _ => v }
    rcases runs _ 0#32 (loaded_store 0#32 short encodable) s rfl with ⟨t, ran, isResult⟩
    rcases runs' _ 0#32 (loaded_store 0#32 short encodable) s rfl with ⟨t', ran', isResult'⟩
    rw [← isResult, ← isResult', ran.unique short ran']
  · rintro rfl
    exact extends_signExtend packed v

end Arm

namespace RiscV

section Effects

variable (s : State) (rd rs1 imm : Int)

theorem effect_andi : effect (.andi rd rs1 imm) s =
    some (s.set rd (s.get rs1 &&& BitVec.ofInt 32 imm)) := rfl

theorem effect_slli : effect (.slli rd rs1 imm) s =
    some (s.set rd (s.get rs1 <<< ((BitVec.ofInt 32 imm).toNat % 32))) := rfl

theorem effect_srai : effect (.srai rd rs1 imm) s =
    some (s.set rd ((s.get rs1).sshiftRight ((BitVec.ofInt 32 imm).toNat % 32))) := rfl

end Effects

/-- The amount of a shift by a constant. -/
theorem shift_amount (imm : Int) : (BitVec.ofInt 32 imm).toNat % 32 = (imm % 32).toNat := by
  rw [BitVec.toNat_ofInt]
  omega

theorem sound_shift {op : Op} {rd rs1 imm : Int} (isShift : op.isa.map Prod.fst = some .shift)
    (isRd : IsReg rd) (isRs1 : IsReg rs1) (low : 0 ≤ imm) (high : imm < 32) :
    (Insn.I op rd rs1 imm).Sound :=
  ⟨.inr ⟨.inr (.inl isShift), isRd, isRs1⟩, ⟨by omega, by omega⟩, fun _ => ⟨low, high⟩⟩

theorem sound_andi {rd rs1 imm : Int} (isRd : IsReg rd) (isRs1 : IsReg rs1)
    (range : -2048 ≤ imm ∧ imm ≤ 2047) : (Insn.andi rd rs1 imm).Sound :=
  ⟨.inr ⟨.inl rfl, isRd, isRs1⟩, range, fun isShift => by cases isShift⟩

/-- RISC-V shifts by the distance of the sizes and back, if the formats hold it. -/
theorem extends_signExtend {packed : Int}
    (near : 0 ≤ targetOf packed - sourceOf packed ∧ targetOf packed - sourceOf packed < 4)
    (v : Word) : Extends packed v (Arch.riscv.signExtend packed v) := by
  intro env p elfOffset size ir isExtension isPacked isDest isSource
  rcases near with ⟨low, high⟩
  rw [targetOf, sourceOf] at low high
  have isRd := isDest.isReg
  have isRs := isSource.isReg
  have nonzero := isDest.ne_zero
  let distance := (packed % 2 ^ 16 - packed / 2 ^ 16 % 2 ^ 16) * 8
  have distanceLow : 0 ≤ distance := by omega
  have distanceHigh : distance < 32 := by omega
  have encodable {insn : Insn} (sound : insn.Sound) : insn.encode.isSome = true :=
    (encode_isSome_iff insn).mpr sound.2.1
  have left : (Insn.slli (ir.dest + 10) (ir.dest + 10) distance).Sound :=
    sound_shift rfl isRd isRd distanceLow distanceHigh
  have right : (Insn.srai (ir.dest + 10) (ir.dest + 10) distance).Sound :=
    sound_shift rfl isRd isRd distanceLow distanceHigh
  by_cases isHalf : packed / 2 ^ 16 % 2 ^ 16 = 2
  · have first : (Insn.slli (ir.dest + 10) (ir.src0 + 10) distance).Sound :=
      sound_shift rfl isRd isRs distanceLow distanceHigh
    have sound := List.forall_mem_cons.mpr ⟨first, List.forall_mem_singleton.mpr right⟩
    refine ⟨_, ?_, fun insn member => encodable (sound insn member), ?_⟩
    · simp only [instructions, isExtension, sourceSize, isPacked, isHalf, if_true, distance]
    · intro fetch base loaded s holds
      have shifted : effects [.slli (ir.dest + 10) (ir.src0 + 10) distance,
          .srai (ir.dest + 10) (ir.dest + 10) distance] s = _ :=
        effects_cons_some (effect_slli ..)
      refine ⟨_, machine_reaches loaded sound
        (shifted.trans (effects_cons_some (effect_srai ..))), ?_⟩
      rw [State.get_set_same nonzero, State.get_set_same nonzero, holds, shift_amount]
      simp only [Arch.signExtend, isHalf, if_true, distance]
  · have first : (Insn.andi (ir.dest + 10) (ir.src0 + 10) 0xFF).Sound :=
      sound_andi isRd isRs (by decide)
    have sound := List.forall_mem_cons.mpr
      ⟨first, List.forall_mem_cons.mpr ⟨left, List.forall_mem_singleton.mpr right⟩⟩
    refine ⟨_, ?_, fun insn member => encodable (sound insn member), ?_⟩
    · simp only [instructions, isExtension, sourceSize, isPacked, isHalf, if_false, distance]
    · intro fetch base loaded s holds
      have masked : effects [.andi (ir.dest + 10) (ir.src0 + 10) 0xFF,
          .slli (ir.dest + 10) (ir.dest + 10) distance,
          .srai (ir.dest + 10) (ir.dest + 10) distance] s = _ :=
        effects_cons_some (effect_andi ..)
      refine ⟨_, machine_reaches loaded sound ((masked.trans
        (effects_cons_some (effect_slli ..))).trans (effects_cons_some (effect_srai ..))), ?_⟩
      rw [State.get_set_same nonzero, State.get_set_same nonzero, State.get_set_same nonzero,
        holds, shift_amount]
      simp only [Arch.signExtend, isHalf, if_false, distance]
      rfl

theorem findOp_slli_far {funct7 : Int} (notZero : funct7 ≠ 0) : findOp 0x13 1 funct7 = none := by
  have nothing : Op.all.find? (fun op => op.matches 0x13 1 funct7) = none := by
    rw [List.find?_eq_none]
    intro op _
    cases op <;> simp [Op.matches, Op.isa, notZero]
  rw [findOp, nothing]
  rfl

/-- A shift by an amount its format does not hold is no instruction. -/
theorem decodeFull_slli_far {rd rs1 imm : Int} {w : Word} (isRd : IsReg rd) (isRs1 : IsReg rs1)
    (far : ¬(0 ≤ imm ∧ imm < 32)) (encoded : (Insn.slli rd rs1 imm).encode = some w) :
    decodeFull w = none := by
  rcases encodeI_eq_some encoded with ⟨low, high, isWord⟩
  rcases wrapImm_range low high with ⟨fieldLow, fieldHigh, same⟩
  have isa : Op.slli.isa = some (.shift, 0x13, 1, 0) := rfl
  rcases fields_of_upper isa isRd isRs1 ⟨by omega, by omega⟩ isWord with
    ⟨isOpcode, -, isFunct3, -, -, isHigh⟩
  have notZero : (w.toNat : Int) / 2 ^ 25 ≠ 0 := by
    rw [isHigh]
    split at same <;> omega
  have noAccess : findAccess 0x13 1 = none := by decide
  have noOp := findOp_slli_far notZero
  rw [decodeFull, if_neg (by omega), if_neg (by omega), isOpcode, isFunct3, noAccess]
  change decode w = none
  rw [decode, isOpcode, isFunct3, noOp]
  rfl

/-- Nothing runs past a word that is no instruction. -/
theorem step_eq_none {fetch : Word → Option Word} {a w : Word} {s : State}
    (fetched : fetch a = some w) (isNone : decodeFull w = none) :
    machine.step fetch (s, a) = none := by
  change fetch a >>= _ = none
  rw [fetched]
  change decodeFull w >>= _ = none
  rw [isNone]
  rfl

/-- A word that is an instruction is executed. -/
theorem step_eq_some {fetch : Word → Option Word} {a w : Word} {s s' : State} {insn : Insn}
    (fetched : fetch a = some w) (decoded : decodeFull w = some insn)
    (ends : effect insn s = some s') : machine.step fetch (s, a) = some (s', a + 4#32) := by
  change fetch a >>= _ = _
  rw [fetched]
  change decodeFull w >>= _ = _
  rw [decoded]
  exact straight_effect insn a s s' ends

/-- The code of an extension leaves nothing else, and nothing at all if a format does not
hold the shift distance. -/
theorem extends_iff {packed : Int} {v w : Word} :
    Extends packed v w ↔
      (0 ≤ targetOf packed - sourceOf packed ∧ targetOf packed - sourceOf packed < 4) ∧
        w = Arch.riscv.signExtend packed v := by
  constructor
  · intro ext
    let ir : Ph2Ir := { op := .signExt, src1 := packed }
    have isReg : IsAllocated 10 := by decide
    rcases ext smallEnv branchingProgram (fun _ => 0) 0 ir rfl rfl isReg isReg with
      ⟨insns, emitted, encodable, runs⟩
    have short : 4 * insns.length < 2 ^ 32 := by
      simp only [instructions, ir] at emitted
      split_ifs at emitted <;> cases emitted <;> simp
    have loaded := loaded_store 0#32 short encodable
    let s : State := ⟨fun _ => v, fun _ => 0#8⟩
    rcases runs _ 0#32 loaded s rfl with ⟨t, ran, isResult⟩
    by_cases near : 0 ≤ targetOf packed - sourceOf packed ∧ targetOf packed - sourceOf packed < 4
    · refine ⟨near, ?_⟩
      rcases extends_signExtend near v smallEnv branchingProgram (fun _ => 0) 0 ir rfl rfl isReg
        isReg with ⟨insns', emitted', -, runs'⟩
      cases Option.some.inj (emitted.symm.trans emitted')
      rcases runs' _ 0#32 loaded s rfl with ⟨t', ran', isResult'⟩
      rw [← isResult, ← isResult', ran.unique short ran']
    · exfalso
      rw [targetOf, sourceOf] at near
      let distance := (packed % 2 ^ 16 - packed / 2 ^ 16 % 2 ^ 16) * 8
      have far : ¬(0 ≤ distance ∧ distance < 32) := by omega
      by_cases isHalf : packed / 2 ^ 16 % 2 ^ 16 = 2
      · simp only [distance, isHalf] at far
        simp only [instructions, ir, sourceSize, isHalf, if_true] at emitted
        cases emitted
        rcases loaded 0 _ rfl with ⟨w, encoded, fetched⟩
        have isNone := decodeFull_slli_far isReg.isReg isReg.isReg far encoded
        have stuck := ran.of_stuck (step_eq_none fetched isNone)
        exact absurd (congrArg Prod.snd stuck) (show slot 0#32 2 ≠ slot 0#32 0 by decide)
      · simp only [instructions, ir, sourceSize, isHalf, if_false] at emitted
        cases emitted
        rcases loaded 0 _ rfl with ⟨w, encoded, fetched⟩
        have masks := @decodeFull_held (.andi 10 10 0xFF) w
          (.inr ⟨.inl rfl, isReg.isReg, isReg.isReg⟩) (fun isShift => by cases isShift) encoded
        rcases ran.of_step (step_eq_some fetched masks (effect_andi ..)) with early | others
        · exact absurd (congrArg Prod.snd early) (show slot 0#32 3 ≠ slot 0#32 0 by decide)
        · rcases loaded 1 _ rfl with ⟨w, encoded, fetched⟩
          have isNone := decodeFull_slli_far isReg.isReg isReg.isReg far encoded
          have stuck := others.of_stuck (step_eq_none fetched isNone)
          exact absurd (congrArg Prod.snd stuck) (show slot 0#32 3 ≠ slot 0#32 1 by decide)
  · rintro ⟨near, rfl⟩
    exact extends_signExtend near v

end RiscV

/-! ## Both targets -/

/-- Shifting left and back extends what is left. -/
theorem sshiftRight_shiftLeft (v : Word) {n : Nat} (small : n ≤ 3) :
    (v <<< (8 * n)).sshiftRight (8 * n) = Word.signExtendBytes (4 - n) v := by
  rw [Word.signExtendBytes]
  apply BitVec.eq_of_getLsbD_eq
  intro i inside
  interval_cases n
  case «0» => simp
  all_goals
    rw [BitVec.getLsbD_sshiftRight, BitVec.getLsbD_signExtend, BitVec.getLsbD_setWidth]
    simp [inside, BitVec.msb_eq_getLsbD_last]
    grind

/-- The lowest byte of a word. -/
theorem and_byte (v : Word) : v &&& 0xFF = (v.setWidth 8).setWidth 32 := by
  apply BitVec.eq_of_toNat_eq
  rw [BitVec.toNat_and, BitVec.toNat_setWidth, BitVec.toNat_setWidth]
  change v.toNat &&& (2 ^ 8 - 1) = _
  rw [Nat.and_two_pow_sub_one_eq_mod]
  omega

/-- A byte is its own extension from more than a byte. -/
theorem signExtendBytes_and (v : Word) {n : Nat} (large : 2 ≤ n) (small : n ≤ 4) :
    Word.signExtendBytes n (v &&& 0xFF) = v &&& 0xFF := by
  rw [and_byte]
  generalize v.setWidth 8 = byte
  rw [Word.signExtendBytes]
  apply BitVec.eq_of_getLsbD_eq
  intro i inside
  rw [BitVec.getLsbD_signExtend, BitVec.msb_eq_getLsbD_last]
  simp [inside]
  grind

/-- The lowest byte is the only one that is extended. -/
theorem signExtendBytes_one_and (v : Word) :
    Word.signExtendBytes 1 (v &&& 0xFF) = Word.signExtendBytes 1 v := by
  rw [Word.signExtendBytes, Word.signExtendBytes, and_byte]
  congr 1
  simp

theorem and_byte_eq_iff (v : Word) :
    v &&& 0xFF = Word.signExtendBytes 1 v ↔ v.getLsbD 7 = false := by
  rw [and_byte]
  change (v.setWidth 8).setWidth 32 = (v.setWidth 8).signExtend 32 ↔ _
  rw [setWidth_eq_signExtend_iff]
  simp

/-- When both targets extend `v` from the source size: as they unpack the sizes, the target
is at most three bytes wider, what ARM extends is what the source holds, and the shifts of
RISC-V keep the same. -/
def ExtendsAlike (source target : Int) (v : Word) : Prop :=
  let unpackedSource := sourceOf (packedSizes source target)
  let unpackedTarget := targetOf (packedSizes source target)
  (0 ≤ unpackedTarget - unpackedSource ∧ unpackedTarget - unpackedSource < 4) ∧
    if unpackedSource = 2 then
      Word.signExtendBytes 2 v = Word.signExtendBytes source.toNat v ∧
        Word.signExtendBytes (6 - unpackedTarget).toNat v = Word.signExtendBytes source.toNat v
    else
      Word.signExtendBytes 1 v = Word.signExtendBytes source.toNat v ∧
        (unpackedTarget - unpackedSource = 3 ∨ v.getLsbD 7 = false)

/-- What RISC-V makes of a half word. -/
theorem riscv_signExtend_half {packed : Int} (v : Word) (isHalf : sourceOf packed = 2)
    (near : 0 ≤ targetOf packed - sourceOf packed ∧ targetOf packed - sourceOf packed < 4) :
    Arch.riscv.signExtend packed v = Word.signExtendBytes (6 - targetOf packed).toNat v := by
  rw [isHalf] at near
  have distance : ((packed % 2 ^ 16 - 2) * 8 % 32).toNat = 8 * (targetOf packed - 2).toNat := by
    rw [targetOf] at near ⊢
    omega
  have rest : (6 - targetOf packed).toNat = 4 - (targetOf packed - 2).toNat := by omega
  rw [sourceOf] at isHalf
  rw [rest, ← sshiftRight_shiftLeft v (by omega), ← distance]
  simp only [Arch.signExtend, isHalf, if_true]

/-- What RISC-V makes of anything else. -/
theorem riscv_signExtend_byte {packed : Int} (v : Word) (isByte : sourceOf packed ≠ 2)
    (near : 0 ≤ targetOf packed - sourceOf packed ∧ targetOf packed - sourceOf packed < 4) :
    Arch.riscv.signExtend packed v =
      if targetOf packed - sourceOf packed = 3 then Word.signExtendBytes 1 v else v &&& 0xFF := by
  have small : (targetOf packed - sourceOf packed).toNat ≤ 3 := by omega
  have distance : ((packed % 2 ^ 16 - packed / 2 ^ 16 % 2 ^ 16) * 8 % 32).toNat =
      8 * (targetOf packed - sourceOf packed).toNat := by
    rw [targetOf, sourceOf] at near ⊢
    omega
  have shifted : Arch.riscv.signExtend packed v =
      Word.signExtendBytes (4 - (targetOf packed - sourceOf packed).toNat) (v &&& 0xFF) := by
    rw [sourceOf] at isByte
    rw [← sshiftRight_shiftLeft _ small, ← distance]
    simp only [Arch.signExtend, isByte, if_false]
  rw [shifted]
  split
  · rename_i isWord
    rw [isWord]
    exact signExtendBytes_one_and v
  · exact signExtendBytes_and v (by omega) (by omega)

/-- Both targets extend the source to a word exactly where the condition on the sizes and
the value holds. -/
theorem signExtension_iff (source target : Int) (v : Word) :
    (Arm.Extends (packedSizes source target) v (Word.signExtendBytes source.toNat v) ∧
      RiscV.Extends (packedSizes source target) v (Word.signExtendBytes source.toNat v)) ↔
    ExtendsAlike source target v := by
  rw [Arm.extends_iff, RiscV.extends_iff, ExtendsAlike]
  generalize packedSizes source target = packed
  by_cases near : 0 ≤ targetOf packed - sourceOf packed ∧ targetOf packed - sourceOf packed < 4
  case neg => exact iff_of_false (fun both => near both.2.1) (fun both => near both.1)
  by_cases isHalf : sourceOf packed = 2
  · have onArm : Arch.arm.signExtend packed v = Word.signExtendBytes 2 v := if_pos isHalf
    rw [onArm, riscv_signExtend_half v isHalf near, if_pos isHalf]
    constructor
    · rintro ⟨arm, -, riscv⟩
      exact ⟨near, arm.symm, riscv.symm⟩
    · rintro ⟨-, arm, riscv⟩
      exact ⟨arm.symm, near, riscv.symm⟩
  · have onArm : Arch.arm.signExtend packed v = Word.signExtendBytes 1 v := if_neg isHalf
    rw [onArm, riscv_signExtend_byte v isHalf near, if_neg isHalf]
    by_cases isWord : targetOf packed - sourceOf packed = 3
    · rw [if_pos isWord]
      constructor
      · rintro ⟨arm, -, -⟩
        exact ⟨near, arm.symm, .inl isWord⟩
      · rintro ⟨-, arm, -⟩
        exact ⟨arm.symm, near, arm.symm⟩
    · rw [if_neg isWord]
      constructor
      · rintro ⟨arm, -, riscv⟩
        refine ⟨near, arm.symm, .inr ?_⟩
        rw [← and_byte_eq_iff, ← riscv, arm]
      · rintro ⟨-, arm, word | positive⟩
        · exact absurd word isWord
        · refine ⟨arm.symm, near, ?_⟩
          rw [← arm]
          exact ((and_byte_eq_iff v).mpr positive).symm

/-- From a `char` or a `short` to an `int` the condition always holds, from a `char` to a
`short` it does for what is not negative. -/
theorem extendsAlike_scalar (v : Word) :
    ExtendsAlike 1 4 v ∧ ExtendsAlike 2 4 v ∧ (ExtendsAlike 1 2 v ↔ v.getLsbD 7 = false) := by
  have isOne := @packedSizes_fields 1 4 (by decide) (by decide)
  have isTwo := @packedSizes_fields 2 4 (by decide) (by decide)
  have isShort := @packedSizes_fields 1 2 (by decide) (by decide)
  refine ⟨?_, ?_, ?_⟩
  · simp [ExtendsAlike, isOne]
  · simp [ExtendsAlike, isTwo]
  · simp [ExtendsAlike, isShort]

/-- A `char` of -1 becomes a `short` of 255 on RISC-V. -/
theorem minusOne_not_extended :
    RiscV.Extends (packedSizes 1 2) 0xFF 0xFF ∧
      ¬RiscV.Extends (packedSizes 1 2) 0xFF (Word.signExtendBytes 1 0xFF) := by
  rw [RiscV.extends_iff, RiscV.extends_iff]
  decide

end Shecc
