import Shecc.Arm.Machine

/-!
# Bytes and half words on ARM

The loads and stores of less than a word, and the extensions of a register. They have
encodings of their own, beside the words read before. A byte is loaded without its sign, a
half word with it.
-/

namespace Shecc.Arm

open Execution

/-- What is done with less than a word. The extensions do not rotate their operand. -/
inductive Narrow
  | ldrb (rd rn ofs : Int)
  | strb (rd rn ofs : Int)
  | ldrsh (rd rn ofs : Int)
  | strh (rd rn ofs : Int)
  | sxtb (rd rm : Int)
  | sxth (rd rm : Int)
  deriving DecidableEq

/-- The offset of a half word, in two fields around its kind. -/
def halfOfs (op2 : Int) : Int := op2 / 2 ^ 8 * 2 ^ 4 + op2 % 2 ^ 4

/-- The operation on less than a word with these fields. -/
def decodeNarrowOperation (opcode rn rd op2 : Int) : Option Narrow :=
  if opcode = 0x5C then some (.strb rd rn op2)
  else if opcode = 0x54 then some (.strb rd rn (-op2))
  else if opcode = 0x5D then some (.ldrb rd rn op2)
  else if opcode = 0x55 then some (.ldrb rd rn (-op2))
  else if opcode = 0x1C ∧ op2 / 2 ^ 4 % 2 ^ 4 = 0xB then some (.strh rd rn (halfOfs op2))
  else if opcode = 0x14 ∧ op2 / 2 ^ 4 % 2 ^ 4 = 0xB then some (.strh rd rn (-halfOfs op2))
  else if opcode = 0x1D ∧ op2 / 2 ^ 4 % 2 ^ 4 = 0xF then some (.ldrsh rd rn (halfOfs op2))
  else if opcode = 0x15 ∧ op2 / 2 ^ 4 % 2 ^ 4 = 0xF then some (.ldrsh rd rn (-halfOfs op2))
  else if opcode = 0x6A ∧ rn = 15 ∧ op2 / 2 ^ 4 = 7 then some (.sxtb rd (op2 % 2 ^ 4))
  else if opcode = 0x6B ∧ rn = 15 ∧ op2 / 2 ^ 4 = 7 then some (.sxth rd (op2 % 2 ^ 4))
  else none

/-- The instruction of a word, if it is one on less than a word. -/
def decodeNarrow (w : Word) : Option (Cond × Narrow) := do
  let n : Int := w.toNat
  let cond ← decodeCond (n / 2 ^ 28)
  let operation ← decodeNarrowOperation (n / 2 ^ 20 % 2 ^ 8) (n / 2 ^ 16 % 2 ^ 4)
    (n / 2 ^ 12 % 2 ^ 4) (n % 2 ^ 12)
  some (cond, operation)

/-- An instruction on less than a word, or another one. -/
abbrev Wide := (Cond × Narrow) ⊕ Decoded

/-- The instruction of a word. -/
def decodeFull (w : Word) : Option Wide :=
  match decodeNarrow w with
  | some narrow => some (.inl narrow)
  | none => (decode w).map .inr

/-! ## What the instructions do -/

/-- The registers an operation names. -/
def Narrow.names : Narrow → List Int
  | ldrb rd rn _ | strb rd rn _ | ldrsh rd rn _ | strh rd rn _ => [rd, rn]
  | sxtb rd rm | sxth rd rm => [rd, rm]

/-- What an operation on less than a word does. -/
def Narrow.effect : Narrow → State → State
  | ldrb rd rn ofs, s =>
      s.setReg rd ((s.memory (s.reg rn + BitVec.ofInt 32 ofs)).setWidth 32)
  | strb rd rn ofs, s =>
      { s with memory := s.memory.storeBytes (s.reg rn + BitVec.ofInt 32 ofs) 1 (s.reg rd) }
  | ldrsh rd rn ofs, s =>
      let a := s.reg rn + BitVec.ofInt 32 ofs
      s.setReg rd ((s.memory (a + 1) ++ s.memory a).signExtend 32)
  | strh rd rn ofs, s =>
      { s with memory := s.memory.storeBytes (s.reg rn + BitVec.ofInt 32 ofs) 2 (s.reg rd) }
  | sxtb rd rm, s => s.setReg rd (((s.reg rm).setWidth 8).signExtend 32)
  | sxth rd rm, s => s.setReg rd (((s.reg rm).setWidth 16).signExtend 32)

/-- What an instruction does that goes on to the next one. -/
def wideFlow : Wide → State → Option State
  | .inl (cond, operation), s =>
      if 15 ∈ operation.names then none
      else if cond.holds s then some (operation.effect s)
      else some s
  | .inr d, s => flow d s

/-- The processor with all its loads and stores. -/
def machine : Processor Wide State where
  decode := decodeFull
  exec
    | .inl narrow, a, s => (wideFlow (.inl narrow) s).map fun s' => (s', a + 4#32)
    | .inr d, a, s => exec d a s

theorem straight_wideFlow : Placed.Straight machine wideFlow := by
  intro wide a s s' flowed
  cases wide with
  | inl narrow =>
      change (wideFlow (.inl narrow) s).map _ = _
      rw [flowed]
      rfl
  | inr d => exact straight_flow d a s s' flowed

/-! ## The encoders agree with the fields -/

/-- A word is decoded by the fields it was put together from. -/
theorem decodeNarrow_armEncode {cond : Cond} {opcode rn rd op2 : Int}
    (opcodeRange : 0 ≤ opcode ∧ opcode < 2 ^ 8) (isRn : IsReg rn) (isRd : IsReg rd)
    (op2Range : 0 ≤ op2 ∧ op2 < 2 ^ 12) :
    decodeNarrow (armEncode cond opcode rn rd op2) =
      (decodeNarrowOperation opcode rn rd op2).map (cond, ·) := by
  have condRange := cond.code_range
  rcases isRn with ⟨rnLow, rnHigh⟩
  rcases isRd with ⟨rdLow, rdHigh⟩
  have value : ((armEncode cond opcode rn rd op2).toNat : Int) =
      cond.code * 2 ^ 28 + opcode * 2 ^ 20 + rn * 2 ^ 16 + rd * 2 ^ 12 + op2 := by
    rw [armEncode, BitVec.toNat_ofInt]
    omega
  have isCond : ((armEncode cond opcode rn rd op2).toNat : Int) / 2 ^ 28 = cond.code := by
    rw [value]
    omega
  have isOpcode : ((armEncode cond opcode rn rd op2).toNat : Int) / 2 ^ 20 % 2 ^ 8 = opcode := by
    rw [value]
    omega
  have isRn : ((armEncode cond opcode rn rd op2).toNat : Int) / 2 ^ 16 % 2 ^ 4 = rn := by
    rw [value]
    omega
  have isRd : ((armEncode cond opcode rn rd op2).toNat : Int) / 2 ^ 12 % 2 ^ 4 = rd := by
    rw [value]
    omega
  have isOp2 : ((armEncode cond opcode rn rd op2).toNat : Int) % 2 ^ 12 = op2 := by
    rw [value]
    omega
  rw [decodeNarrow]
  simp only [isCond, isOpcode, isRn, isRd, isOp2, decodeCond_code, Option.bind_eq_bind,
    Option.bind_some]
  rw [Option.map_eq_bind]
  rfl

/-- What an instruction on less than a word is to do. -/
def Insn.narrow : Insn → Option (Cond × Narrow)
  | lb cond rd rn ofs => some (cond, .ldrb rd rn ofs)
  | sb cond rd rn ofs => some (cond, .strb rd rn ofs)
  | lh cond rd rn ofs => some (cond, .ldrsh rd rn ofs)
  | sh cond rd rn ofs => some (cond, .strh rd rn ofs)
  | sxtb cond rd rm _ => some (cond, .sxtb rd rm)
  | sxth cond rd rm _ => some (cond, .sxth rd rm)
  | _ => none

/-- The operands of an instruction on less than a word fit its fields. -/
def Insn.NarrowValid : Insn → Prop
  | lb _ rd rn ofs | sb _ rd rn ofs => IsReg rd ∧ IsReg rn ∧ -4096 < ofs ∧ ofs < 4096
  | lh _ rd rn ofs | sh _ rd rn ofs => IsReg rd ∧ IsReg rn ∧ -256 < ofs ∧ ofs < 256
  | sxtb _ rd rm rotation | sxth _ rd rm rotation => IsReg rd ∧ IsReg rm ∧ rotation = 0
  | _ => False

theorem orBits_extension {rm : Int} (isReg : IsReg rm) :
    orBits rm (BitVec.ofInt 32 (0 / 8 * 1024) ||| 0x70) = rm + 0x70 := by
  rcases isReg with ⟨low, high⟩
  interval_cases rm <;> rfl

/-- The word of a load or store of a byte. -/
theorem transfer_byte {cond : Cond} {l rn rd ofs : Int} (low : -4096 < ofs) (high : ofs < 4096) :
    transfer cond l 1 rn rd ofs =
      armEncode cond (if ofs < 0 then 0x54 + l else 0x5C + l) rn rd |ofs| := by
  have small : |ofs| < 4096 := abs_lt.mpr ⟨low, high⟩
  rw [transfer, if_pos rfl, Int.emod_eq_of_lt (abs_nonneg ofs) small]
  congr 1
  split <;> omega

/-- The word of a load or store of a half word. -/
theorem halfwordTransfer_eq {cond : Cond} {l rn rd ofs : Int} (signedOp : Int) (low : -256 < ofs)
    (high : ofs < 256) :
    halfwordTransfer cond l rn rd ofs signedOp =
      some (armEncode cond (if ofs < 0 then 0x14 + l else 0x1C + l) rn rd
        (|ofs| / 16 * 256 + 0xB0 + |ofs| % 16 + signedOp * 64)) := by
  have small : |ofs| < 256 := abs_lt.mpr ⟨low, high⟩
  simp only [halfwordTransfer]
  rw [if_neg (by omega)]
  congr 2

/-- The kind and the offset of a half word. -/
theorem half_fields {size : Int} (signedOp : Int) (nonneg : 0 ≤ size) (small : size < 256)
    (isFlag : signedOp = 0 ∨ signedOp = 1) :
    (size / 16 * 256 + 0xB0 + size % 16 + signedOp * 64) / 2 ^ 4 % 2 ^ 4 =
        0xB + signedOp * 4 ∧
      halfOfs (size / 16 * 256 + 0xB0 + size % 16 + signedOp * 64) = size := by
  rw [halfOfs]
  rcases isFlag with rfl | rfl <;> constructor <;> omega

theorem decode_ldrsh {rn rd op2 ofs : Int} (kind : op2 / 2 ^ 4 % 2 ^ 4 = 0xB + 1 * 4)
    (distance : halfOfs op2 = |ofs|) :
    decodeNarrowOperation (if ofs < 0 then 0x14 + 1 else 0x1C + 1) rn rd op2 =
      some (.ldrsh rd rn ofs) := by
  by_cases negative : ofs < 0
  · rw [abs_of_neg negative] at distance
    simp [decodeNarrowOperation, negative, show op2 / 16 % 16 = 15 from kind, distance]
  · rw [abs_of_nonneg (by omega)] at distance
    simp [decodeNarrowOperation, negative, show op2 / 16 % 16 = 15 from kind, distance]

theorem decode_strh {rn rd op2 ofs : Int} (kind : op2 / 2 ^ 4 % 2 ^ 4 = 0xB + 0 * 4)
    (distance : halfOfs op2 = |ofs|) :
    decodeNarrowOperation (if ofs < 0 then 0x14 + 0 else 0x1C + 0) rn rd op2 =
      some (.strh rd rn ofs) := by
  by_cases negative : ofs < 0
  · rw [abs_of_neg negative] at distance
    simp [decodeNarrowOperation, negative, show op2 / 16 % 16 = 11 from kind, distance]
  · rw [abs_of_nonneg (by omega)] at distance
    simp [decodeNarrowOperation, negative, show op2 / 16 % 16 = 11 from kind, distance]

/-- The word of an instruction on less than a word is decoded to what it is to do. -/
theorem Insn.narrow_sound {insn : Insn} (valid : insn.NarrowValid) :
    ∃ w narrow, insn.encode = some w ∧ insn.narrow = some narrow ∧
      decodeFull w = some (.inl narrow) := by
  suffices encoded : ∃ cond opcode rn rd op2 operation,
      insn.encode = some (armEncode cond opcode rn rd op2) ∧
        insn.narrow = some (cond, operation) ∧ (0 ≤ opcode ∧ opcode < 2 ^ 8) ∧ IsReg rn ∧
          IsReg rd ∧ (0 ≤ op2 ∧ op2 < 2 ^ 12) ∧
            decodeNarrowOperation opcode rn rd op2 = some operation by
    rcases encoded with ⟨cond, opcode, rn, rd, op2, operation, isWord, meant, opcodeRange, isRn,
      isRd, op2Range, decoded⟩
    refine ⟨_, _, isWord, meant, ?_⟩
    rw [decodeFull, decodeNarrow_armEncode opcodeRange isRn isRd op2Range, decoded]
    rfl
  cases insn <;> first | exact valid.elim | skip
  case lb cond rd rn ofs =>
    rcases valid with ⟨isRd, isRn, low, high⟩
    refine ⟨cond, _, rn, rd, |ofs|, .ldrb rd rn ofs,
      congrArg some (transfer_byte (l := 1) low high), rfl, ?_, isRn, isRd,
      ⟨abs_nonneg ofs, abs_lt.mpr ⟨low, high⟩⟩, ?_⟩
    · split <;> decide
    · by_cases negative : ofs < 0
      · rw [if_pos negative, abs_of_neg negative]
        simp [decodeNarrowOperation]
      · rw [if_neg negative, abs_of_nonneg (by omega)]
        rfl
  case sb cond rd rn ofs =>
    rcases valid with ⟨isRd, isRn, low, high⟩
    refine ⟨cond, _, rn, rd, |ofs|, .strb rd rn ofs,
      congrArg some (transfer_byte (l := 0) low high), rfl, ?_, isRn, isRd,
      ⟨abs_nonneg ofs, abs_lt.mpr ⟨low, high⟩⟩, ?_⟩
    · split <;> decide
    · by_cases negative : ofs < 0
      · rw [if_pos negative, abs_of_neg negative]
        simp [decodeNarrowOperation]
      · rw [if_neg negative, abs_of_nonneg (by omega)]
        rfl
  case lh cond rd rn ofs =>
    rcases valid with ⟨isRd, isRn, low, high⟩
    have small : |ofs| < 256 := abs_lt.mpr ⟨low, high⟩
    have nonneg := abs_nonneg ofs
    refine ⟨cond, _, rn, rd, _, .ldrsh rd rn ofs, halfwordTransfer_eq (l := 1) 1 low high, rfl, ?_,
      isRn, isRd, by omega, ?_⟩
    · split <;> decide
    · rcases half_fields 1 nonneg small (by decide) with ⟨kind, distance⟩
      exact decode_ldrsh kind distance
  case sh cond rd rn ofs =>
    rcases valid with ⟨isRd, isRn, low, high⟩
    have small : |ofs| < 256 := abs_lt.mpr ⟨low, high⟩
    have nonneg := abs_nonneg ofs
    refine ⟨cond, _, rn, rd, _, .strh rd rn ofs, halfwordTransfer_eq (l := 0) 0 low high, rfl, ?_,
      isRn, isRd, by omega, ?_⟩
    · split <;> decide
    · rcases half_fields 0 nonneg small (by decide) with ⟨kind, distance⟩
      exact decode_strh kind distance
  case sxtb cond rd rm rotation =>
    rcases valid with ⟨isRd, isRm, rfl⟩
    have regRange := isRm
    rcases regRange with ⟨low, high⟩
    refine ⟨cond, 0x6A, 0xF, rd, rm + 0x70, .sxtb rd rm, ?_, rfl, by decide, by decide, isRd,
      by omega, ?_⟩
    · change signExtend _ _ _ _ _ = _
      rw [signExtend, if_pos (.inl rfl), orBits_extension isRm]
    · rw [decodeNarrowOperation]
      simp only [show (rm + 0x70) / 2 ^ 4 = 7 by omega, show (rm + 0x70) % 2 ^ 4 = rm by omega]
      rfl
  case sxth cond rd rm rotation =>
    rcases valid with ⟨isRd, isRm, rfl⟩
    have regRange := isRm
    rcases regRange with ⟨low, high⟩
    refine ⟨cond, 0x6B, 0xF, rd, rm + 0x70, .sxth rd rm, ?_, rfl, by decide, by decide, isRd,
      by omega, ?_⟩
    · change signExtend _ _ _ _ _ = _
      rw [signExtend, if_pos (.inl rfl), orBits_extension isRm]
    · rw [decodeNarrowOperation]
      simp only [show (rm + 0x70) / 2 ^ 4 = 7 by omega, show (rm + 0x70) % 2 ^ 4 = rm by omega]
      rfl

/-! ## The words read before stay what they were -/

theorem decodeOperation_half {w : Word} {opcode rn rd op2 : Int}
    (range : 0 < opcode ∧ opcode < 0x20)
    (kind : op2 / 2 ^ 4 % 2 ^ 4 = 0xB ∨ op2 / 2 ^ 4 % 2 ^ 4 = 0xF) :
    decodeOperation w opcode rn rd op2 = none := by
  have bits : op2 / 2 ^ 4 % 2 = 1 ∧ op2 / 2 ^ 7 % 2 = 1 := by omega
  rw [decodeOperation, if_neg (by omega), if_neg (by omega), if_pos range.2, if_pos bits,
    if_neg (by omega)]

theorem decodeOperation_eq_none {w : Word} {opcode rn rd op2 : Int} {operation : Narrow}
    (narrow : decodeNarrowOperation opcode rn rd op2 = some operation) :
    decodeOperation w opcode rn rd op2 = none := by
  rw [decodeNarrowOperation] at narrow
  split_ifs at narrow with strb strb' ldrb ldrb' strh strh' ldrsh ldrsh' sxtb sxth
  · rw [strb]
    rfl
  · rw [strb']
    rfl
  · rw [ldrb]
    rfl
  · rw [ldrb']
    rfl
  · exact decodeOperation_half (by omega) (.inl strh.2)
  · exact decodeOperation_half (by omega) (.inl strh'.2)
  · exact decodeOperation_half (by omega) (.inr ldrsh.2)
  · exact decodeOperation_half (by omega) (.inr ldrsh'.2)
  · rw [sxtb.1]
    rfl
  · rw [sxth.1]
    rfl

/-- What was decoded before is decoded to the same. -/
theorem decodeFull_of_decode {w : Word} {d : Decoded} (decoded : decode w = some d) :
    decodeFull w = some (.inr d) := by
  cases isNarrow : decodeNarrow w with
  | none => rw [decodeFull, isNarrow, decoded, Option.map_some]
  | some narrow =>
      rcases Option.bind_eq_some_iff.mp isNarrow with ⟨cond, isCond, isNarrow⟩
      rcases Option.bind_eq_some_iff.mp isNarrow with ⟨operation, isOperation, -⟩
      rw [decode] at decoded
      simp only [isCond, decodeOperation_eq_none isOperation, Option.bind_eq_bind,
        Option.bind_some, Option.bind_none, reduceCtorEq] at decoded

/-! ## Running -/

/-- The operands of an instruction fit its fields. -/
def Insn.WideValid (insn : Insn) : Prop := insn.Valid ∨ insn.NarrowValid

/-- What the word of an instruction is decoded to. -/
def Insn.wide (insn : Insn) : Wide :=
  match insn.narrow with
  | some narrow => .inl narrow
  | none => .inr insn.decoded

theorem Insn.means_wide {insn : Insn} (valid : insn.WideValid) :
    machine.Means Insn.encode insn insn.wide := by
  rcases valid with valid | valid
  · rcases Insn.sound valid with ⟨w, d, encoded, meant, decoded⟩
    have notNarrow : insn.narrow = none := by
      cases insn <;> first | rfl | exact valid.elim
    refine ⟨w, encoded, ?_⟩
    rw [Insn.wide, notNarrow, Insn.decoded, meant]
    exact decodeFull_of_decode decoded
  · rcases Insn.narrow_sound valid with ⟨w, narrow, encoded, meant, decoded⟩
    refine ⟨w, encoded, ?_⟩
    rw [Insn.wide, meant]
    exact decoded

/-- An operation on less than a word without a condition. -/
theorem wideFlow_narrow {operation : Narrow} {s : State} (noPc : 15 ∉ operation.names) :
    wideFlow (.inl (.al, operation)) s = some (operation.effect s) := by
  rw [wideFlow, if_neg noPc]
  rfl

/-- An operation on words without a condition. -/
theorem wideFlow_word {operation : Operation} {s : State} (noPc : 15 ∉ operation.names) :
    wideFlow (.inr ⟨.al, operation⟩) s = operation.effect s := by
  rw [wideFlow, flow, if_neg noPc]
  rfl

/-- Loaded instructions that go straight on. -/
theorem machine_reaches {insns : List Insn} {fetch : Word → Option Word} {base : Word}
    {s s' : State} (loaded : Loaded Insn.encode fetch base insns)
    (valid : ∀ insn ∈ insns, insn.WideValid)
    (flows : (insns.map Insn.wide).foldlM (fun s wide => wideFlow wide s) s = some s') :
    machine.Reaches fetch base insns.length (s, slot base 0) (s', slot base insns.length) := by
  have means : List.Forall₂ (machine.Means Insn.encode) insns (insns.map Insn.wide) := by
    rw [List.forall₂_map_right_iff, List.forall₂_same]
    exact fun insn member => Insn.means_wide (valid insn member)
  have ran := @Placed.Runs.line _ _ _ _ (loaded.placed means) 0 s s' _ straight_wideFlow
    (insns.map Insn.wide) (by rw [List.drop_zero]) flows
  rwa [Placed.Runs, Nat.zero_add, List.length_map] at ran

/-- One instruction on less than a word. -/
theorem machine_reaches_narrow {insn : Insn} {operation : Narrow} {fetch : Word → Option Word}
    {base : Word} (loaded : Loaded Insn.encode fetch base [insn]) (valid : insn.NarrowValid)
    (meant : insn.narrow = some (.al, operation)) (noPc : 15 ∉ operation.names) (s : State) :
    machine.Reaches fetch base 1 (s, slot base 0) (operation.effect s, slot base 1) := by
  apply machine_reaches loaded (List.forall_mem_singleton.mpr (.inr valid))
  rw [List.map_singleton, Insn.wide, meant]
  change wideFlow (.inl (.al, operation)) s >>= some = _
  rw [wideFlow_narrow noPc]
  rfl

end Shecc.Arm
