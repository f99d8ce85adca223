import Shecc.Ir.Core

/-!
# Encoding RISC-V instructions

The instructions the RISC-V back end emits and their encodings. C integers are
exact integers here and a word is formed at the end. An encoder that gives up on
an immediate has no word.
-/

namespace Shecc.RiscV

/-- The operations: `rv_op`. -/
inductive Op where
  | add | sub | xor | or | and | sll | srl | sra | slt | sltu
  | addi | xori | ori | andi | slli | srli | srai | slti | sltiu
  | lb | lh | lw | lbu | lhu | sb | sh | sw
  | beq | bne | blt | bge | bltu | bgeu
  | jal | jalr | lui | auipc | ecall
  | mul | div | mod
  deriving DecidableEq, Repr

/-- The fixed bits of an operation. -/
def Op.code : Op → Int
  | add => 51
  | sub => 1073741875
  | xor => 16435
  | or => 24627
  | and => 28723
  | sll => 4147
  | srl => 20531
  | sra => 1073762355
  | slt => 8243
  | sltu => 12339
  | addi => 19
  | xori => 16403
  | ori => 24595
  | andi => 28691
  | slli => 4115
  | srli => 20499
  | srai => 1073762323
  | slti => 8211
  | sltiu => 12307
  | lb => 3
  | lh => 4099
  | lw => 8195
  | lbu => 16387
  | lhu => 20483
  | sb => 35
  | sh => 4131
  | sw => 8227
  | beq => 99
  | bne => 4195
  | blt => 16483
  | bge => 20579
  | bltu => 24675
  | bgeu => 28771
  | jal => 111
  | jalr => 103
  | lui => 55
  | auipc => 23
  | ecall => 115
  | mul => 33554483
  | div => 33570867
  | mod => 33579059

abbrev zero : Int := 0
abbrev ra : Int := 1
abbrev sp : Int := 2
abbrev gp : Int := 3
abbrev t0 : Int := 5
abbrev t1 : Int := 6
abbrev t2 : Int := 7
abbrev s0 : Int := 8
abbrev a0 : Int := 10
abbrev a1 : Int := 11
abbrev a2 : Int := 12
abbrev a3 : Int := 13
abbrev a4 : Int := 14
abbrev a5 : Int := 15
abbrev a6 : Int := 16
abbrev a7 : Int := 17
abbrev t3 : Int := 28
abbrev t4 : Int := 29
abbrev t5 : Int := 30

/-- An instruction in the format it is encoded in. -/
inductive Insn where
  | R (op : Op) (rd rs1 rs2 : Int)
  | I (op : Op) (rd rs1 imm : Int)
  | S (op : Op) (rs1 rs2 imm : Int)
  | B (op : Op) (rs1 rs2 imm : Int)
  | J (op : Op) (rd imm : Int)
  | U (op : Op) (rd imm : Int)
  deriving DecidableEq, Repr

namespace Insn

abbrev add := R .add
abbrev sub := R .sub
abbrev xor := R .xor
abbrev or := R .or
abbrev and := R .and
abbrev sll := R .sll
abbrev sra := R .sra
abbrev slt := R .slt
abbrev sltu := R .sltu
abbrev mul := R .mul
abbrev div := R .div
abbrev mod := R .mod
abbrev addi := I .addi
abbrev xori := I .xori
abbrev andi := I .andi
abbrev slli := I .slli
abbrev srli := I .srli
abbrev srai := I .srai
abbrev lb := I .lb
abbrev lh := I .lh
abbrev lw := I .lw
abbrev jalr := I .jalr
abbrev ecall := I .ecall zero zero 0
/-- The stores take the stored register first. -/
abbrev sb (rd rs1 imm : Int) := S .sb rs1 rd imm
abbrev sh (rd rs1 imm : Int) := S .sh rs1 rd imm
abbrev sw (rd rs1 imm : Int) := S .sw rs1 rd imm
abbrev beq := B .beq
abbrev bne := B .bne
abbrev bltu := B .bltu
abbrev jal := J .jal
abbrev lui := U .lui

end Insn

/-- Bit 11 of a value. -/
def bit11 (val : Int) : Int := val / 2 ^ 11 % 2

/-- `rv_hi`. -/
def rvHi (val : Int) : Int := val + bit11 val * 2 ^ 12

/-- `rv_lo`. -/
def rvLo (val : Int) : Int := val % 2 ^ 12 - bit11 val * 2 ^ 12

/-- `rv_extract_bits`: bits `iStart` to `iEnd`, moved to `dStart`. -/
def extractBits (imm : Int) (iStart iEnd dStart : Nat) : Int :=
  imm / 2 ^ iStart % 2 ^ (iEnd - iStart + 1) * 2 ^ dStart

/-- A negative immediate of twelve bits. -/
def wrapImm (imm : Int) : Int := if imm < 0 then (imm + 4096) % 2 ^ 13 else imm

/-- `rv_encode_R`. -/
def encodeR (op : Op) (rd rs1 rs2 : Int) : Option Word :=
  some (BitVec.ofInt 32 (op.code + rd * 2 ^ 7 + rs1 * 2 ^ 15 + rs2 * 2 ^ 20))

/-- `rv_encode_I`. -/
def encodeI (op : Op) (rd rs1 imm : Int) : Option Word :=
  if imm > 2047 ∨ imm < -2048 then none
  else some (BitVec.ofInt 32 (op.code + rd * 2 ^ 7 + rs1 * 2 ^ 15 + wrapImm imm * 2 ^ 20))

/-- `rv_encode_S`. -/
def encodeS (op : Op) (rs1 rs2 imm : Int) : Option Word :=
  if imm > 2047 ∨ imm < -2048 then none
  else some (BitVec.ofInt 32 (op.code + rs1 * 2 ^ 15 + rs2 * 2 ^ 20 +
    extractBits (wrapImm imm) 0 4 7 + extractBits (wrapImm imm) 5 11 25))

/-- `rv_encode_B`. -/
def encodeB (op : Op) (rs1 rs2 imm : Int) : Option Word :=
  if imm > 4095 ∨ imm < -4096 then none
  else some (BitVec.ofInt 32 (op.code + rs1 * 2 ^ 15 + rs2 * 2 ^ 20 + extractBits imm 11 11 7 +
    extractBits imm 1 4 8 + extractBits imm 5 10 25 + if imm < 0 then 2 ^ 31 else 0))

/-- `rv_encode_J`. Nothing checks that the displacement fits. -/
def encodeJ (op : Op) (rd imm : Int) : Option Word :=
  let field := if imm < 0 then 2 ^ 21 - -imm else imm
  some (BitVec.ofInt 32 (op.code + rd * 2 ^ 7 + extractBits field 1 10 21 +
    extractBits field 11 11 20 + extractBits field 12 19 12 + if imm < 0 then 2 ^ 31 else 0))

/-- `rv_encode_U`. -/
def encodeU (op : Op) (rd imm : Int) : Option Word :=
  some (BitVec.ofInt 32 (op.code + rd * 2 ^ 7 + extractBits imm 12 31 12))

/-- The word of an instruction. -/
def Insn.encode : Insn → Option Word
  | R op rd rs1 rs2 => encodeR op rd rs1 rs2
  | I op rd rs1 imm => encodeI op rd rs1 imm
  | S op rs1 rs2 imm => encodeS op rs1 rs2 imm
  | B op rs1 rs2 imm => encodeB op rs1 rs2 imm
  | J op rd imm => encodeJ op rd imm
  | U op rd imm => encodeU op rd imm

/-! ## Reading the words back -/

/-- How far from its own address a `jal` word jumps. -/
def jalDisplacement (w : Word) : Int :=
  (w.toNat : Int) / 2 ^ 21 % 2 ^ 10 * 2 + (w.toNat : Int) / 2 ^ 20 % 2 * 2 ^ 11 +
    (w.toNat : Int) / 2 ^ 12 % 2 ^ 8 * 2 ^ 12 - (w.toNat : Int) / 2 ^ 31 * 2 ^ 20

/-- The upper immediate of a word. -/
def upperImm (w : Word) : Int := (w.toNat : Int) / 2 ^ 12 * 2 ^ 12

/-- The twelve-bit immediate of a word, sign-extended. -/
def lowerImm (w : Word) : Int :=
  if (w.toNat : Int) / 2 ^ 20 < 2 ^ 11 then (w.toNat : Int) / 2 ^ 20
  else (w.toNat : Int) / 2 ^ 20 - 2 ^ 12

/-- Where `lui`, `addi` to the same register and `jalr` through it lead. The
jump clears the lowest bit. -/
def jalrTarget (lui addi jalr : Word) : Int :=
  (upperImm lui + lowerImm addi + lowerImm jalr) % 2 ^ 32 / 2 * 2

/-- A displacement `jal` can hold. -/
structure Reachable (ofs : Int) : Prop where
  aligned : ofs % 2 = 0
  low : -1048576 ≤ ofs
  high : ofs < 1048576

/-- The fields of a jump word do not overlap. -/
theorem jalDisplacement_fields {w : Word} {low high middle bits sign : Int}
    (lowRange : 0 ≤ low ∧ low < 2 ^ 12) (highRange : 0 ≤ high ∧ high < 2 ^ 8)
    (middleRange : 0 ≤ middle ∧ middle < 2) (bitsRange : 0 ≤ bits ∧ bits < 2 ^ 10)
    (signRange : 0 ≤ sign ∧ sign < 2)
    (isWord : w = BitVec.ofInt 32 (low + bits * 2 ^ 21 + middle * 2 ^ 20 + high * 2 ^ 12 +
      sign * 2 ^ 31)) :
    jalDisplacement w = bits * 2 + middle * 2 ^ 11 + high * 2 ^ 12 - sign * 2 ^ 20 := by
  have value : (w.toNat : Int) =
      low + bits * 2 ^ 21 + middle * 2 ^ 20 + high * 2 ^ 12 + sign * 2 ^ 31 := by
    rw [isWord, BitVec.toNat_ofInt]
    omega
  rw [jalDisplacement, value]
  omega

theorem jalDisplacement_bits {rd field sign : Int} (isReg : 0 ≤ rd ∧ rd < 32)
    (signRange : 0 ≤ sign ∧ sign < 2) :
    jalDisplacement (BitVec.ofInt 32 (Op.code .jal + rd * 2 ^ 7 + extractBits field 1 10 21 +
        extractBits field 11 11 20 + extractBits field 12 19 12 + sign * 2 ^ 31)) =
      field / 2 % 2 ^ 10 * 2 + field / 2 ^ 11 % 2 * 2 ^ 11 + field / 2 ^ 12 % 2 ^ 8 * 2 ^ 12 -
        sign * 2 ^ 20 := by
  have lowRange : 0 ≤ 111 + rd * 2 ^ 7 ∧ 111 + rd * 2 ^ 7 < 2 ^ 12 := by omega
  have highRange : 0 ≤ field / 2 ^ 12 % 2 ^ 8 ∧ field / 2 ^ 12 % 2 ^ 8 < 2 ^ 8 := by omega
  have middleRange : 0 ≤ field / 2 ^ 11 % 2 ∧ field / 2 ^ 11 % 2 < 2 := by omega
  have bitsRange : 0 ≤ field / 2 % 2 ^ 10 ∧ field / 2 % 2 ^ 10 < 2 ^ 10 := by omega
  exact jalDisplacement_fields lowRange highRange middleRange bitsRange signRange rfl

/-- The word of a jump holds the displacement it was encoded from. -/
theorem jalDisplacement_encode {rd ofs : Int} (isReg : 0 ≤ rd ∧ rd < 32)
    (reachable : Reachable ofs) :
    ∃ w, (Insn.jal rd ofs).encode = some w ∧ jalDisplacement w = ofs := by
  have aligned := reachable.aligned
  have low := reachable.low
  have high := reachable.high
  refine ⟨_, rfl, ?_⟩
  by_cases negative : ofs < 0
  · simp only [negative, if_true]
    have decoded := @jalDisplacement_bits rd (2 ^ 21 - -ofs) 1 isReg (by omega)
    rw [one_mul] at decoded
    rw [decoded]
    omega
  · simp only [negative, if_false]
    have decoded := @jalDisplacement_bits rd ofs 0 isReg (by omega)
    rw [zero_mul] at decoded
    rw [decoded]
    omega

/-- The upper immediate keeps everything from bit 12 on. -/
theorem upperImm_encode {rd val : Int} (isReg : 0 ≤ rd ∧ rd < 32) :
    ∃ w, (Insn.lui rd val).encode = some w ∧ upperImm w = val / 2 ^ 12 % 2 ^ 20 * 2 ^ 12 := by
  refine ⟨_, rfl, ?_⟩
  rw [upperImm, BitVec.toNat_ofInt]
  simp only [Op.code, extractBits]
  omega

theorem encodeI_eq_some {op : Op} {rd rs1 imm : Int} {w : Word}
    (encoded : (Insn.I op rd rs1 imm).encode = some w) :
    -2048 ≤ imm ∧ imm ≤ 2047 ∧
      w = BitVec.ofInt 32 (op.code + rd * 2 ^ 7 + rs1 * 2 ^ 15 + wrapImm imm * 2 ^ 20) := by
  change encodeI op rd rs1 imm = some w at encoded
  unfold encodeI at encoded
  split at encoded
  · cases encoded
  · rename_i inside
    refine ⟨by omega, by omega, ?_⟩
    exact (Option.some.inj encoded).symm

theorem wrapImm_range {imm : Int} (low : -2048 ≤ imm) (high : imm ≤ 2047) :
    0 ≤ wrapImm imm ∧ wrapImm imm < 2 ^ 12 ∧
      imm = if wrapImm imm < 2 ^ 11 then wrapImm imm else wrapImm imm - 2 ^ 12 := by
  rw [wrapImm]
  split <;> split <;> omega

/-- The lower immediate is the one that was encoded. -/
theorem lowerImm_encode {op : Op} {rd rs1 imm : Int} {w : Word} (isOp : 0 ≤ op.code)
    (isReg : 0 ≤ rd) (isReg1 : 0 ≤ rs1 ∧ rs1 < 32) (noOverlap : op.code + rd * 2 ^ 7 < 2 ^ 15)
    (encoded : (Insn.I op rd rs1 imm).encode = some w) : lowerImm w = imm := by
  rcases encodeI_eq_some encoded with ⟨low, high, isWord⟩
  rcases wrapImm_range low high with ⟨fieldLow, fieldHigh, same⟩
  have value : (w.toNat : Int) = op.code + rd * 2 ^ 7 + rs1 * 2 ^ 15 + wrapImm imm * 2 ^ 20 := by
    rw [isWord, BitVec.toNat_ofInt]
    omega
  have field : (w.toNat : Int) / 2 ^ 20 = wrapImm imm := by
    rw [value]
    omega
  unfold lowerImm
  rw [field, ← same]

/-- The upper immediate of `rv_hi` and the lower of `rv_lo` make the value. -/
theorem hi_lo (val : Int) :
    (rvHi val / 2 ^ 12 % 2 ^ 20 * 2 ^ 12 + rvLo val) % 2 ^ 32 = val % 2 ^ 32 := by
  rw [rvHi, rvLo, bit11]
  omega

/-- An absolute jump through `t0` leads to its address, as long as that is even. -/
theorem jalrTarget_encode {val : Int} (isAddress : 0 ≤ val ∧ val < 2 ^ 32) (even : val % 2 = 0)
    {first second third : Word} (luiEq : (Insn.lui t0 (rvHi val)).encode = some first)
    (addiEq : (Insn.addi t0 t0 (rvLo val)).encode = some second)
    (jalrEq : (Insn.jalr zero t0 0).encode = some third) :
    jalrTarget first second third = val := by
  rcases @upperImm_encode t0 (rvHi val) (by decide) with ⟨w, encoded, upper⟩
  cases Option.some.inj (luiEq.symm.trans encoded)
  have lower := lowerImm_encode (by decide) (by decide) (by decide) (by decide) addiEq
  have none_ := lowerImm_encode (by decide) (by decide) (by decide) (by decide) jalrEq
  have sum := hi_lo val
  unfold jalrTarget
  rw [upper, lower, none_]
  omega

end Shecc.RiscV
