import Shecc.Ir.Core

/-!
# Encoding ARM instructions

The instructions the ARM back end emits and their encodings. C integers are
exact integers here; a word is formed at the end, so the sums and shifts of the
source wrap as they do there. An encoder that gives up has no word.
-/

namespace Shecc.Arm

/-- Condition codes: `arm_cond_t`. -/
inductive Cond where
  | eq | ne | cs | cc | ls | ge | lt | gt | le | al
  deriving DecidableEq, Repr

/-- The code of a condition. -/
def Cond.code : Cond → Int
  | eq => 0
  | ne => 1
  | cs => 2
  | cc => 3
  | ls => 9
  | ge => 10
  | lt => 11
  | gt => 12
  | le => 13
  | al => 14

/-- Shift kinds: `shift_type`. -/
inductive Shift where
  | logicLs | logicRs | arithRs | rotatRs
  deriving DecidableEq, Repr

/-- The code of a shift. -/
def Shift.code : Shift → Int
  | logicLs => 0
  | logicRs => 1
  | arithRs => 2
  | rotatRs => 3

abbrev r0 : Int := 0
abbrev r1 : Int := 1
abbrev r2 : Int := 2
abbrev r3 : Int := 3
abbrev r4 : Int := 4
abbrev r5 : Int := 5
abbrev r6 : Int := 6
abbrev r7 : Int := 7
abbrev r8 : Int := 8
abbrev r9 : Int := 9
abbrev r10 : Int := 10
abbrev r11 : Int := 11
abbrev r12 : Int := 12
abbrev sp : Int := 13
abbrev lr : Int := 14
abbrev pc : Int := 15

/-- The instructions, named after the functions that encode them. -/
inductive Insn where
  | svc
  | andR (cond : Cond) (rd rs rm : Int)
  | orR (cond : Cond) (rd rs rm : Int)
  | eorR (cond : Cond) (rd rs rm : Int)
  | mvnR (cond : Cond) (rd rm : Int)
  | movw (cond : Cond) (rd imm : Int)
  | movt (cond : Cond) (rd imm : Int)
  | movI (cond : Cond) (rd imm : Int)
  | movR (cond : Cond) (rd rs : Int)
  | srlAmt (cond : Cond) (s : Int) (shift : Shift) (rd rm amt : Int)
  | sll (cond : Cond) (rd rm rs : Int)
  | sllAmt (cond : Cond) (s : Int) (shift : Shift) (rd rm amt : Int)
  | sra (cond : Cond) (rd rm rs : Int)
  | addI (cond : Cond) (rd rs imm : Int)
  | addR (cond : Cond) (rd rs ro : Int)
  | subR (cond : Cond) (rd rs ro : Int)
  | andI (cond : Cond) (rd rs imm : Int)
  | lw (cond : Cond) (rd rn ofs : Int)
  | lb (cond : Cond) (rd rn ofs : Int)
  | sw (cond : Cond) (rd rn ofs : Int)
  | sb (cond : Cond) (rd rn ofs : Int)
  | lh (cond : Cond) (rd rn ofs : Int)
  | sh (cond : Cond) (rd rn ofs : Int)
  | stmdb (cond : Cond) (w rn regList : Int)
  | ldm (cond : Cond) (w rn regList : Int)
  | pushReg (cond : Cond) (rt : Int)
  | popWord (cond : Cond) (rt : Int)
  | b (cond : Cond) (ofs : Int)
  | bl (cond : Cond) (ofs : Int)
  | bx (cond : Cond) (rm : Int)
  | blx (cond : Cond) (rd : Int)
  | mul (cond : Cond) (rd r1 r2 : Int)
  | div (cond : Cond) (rd r1 r2 : Int)
  | rsbI (cond : Cond) (rd imm rn : Int)
  | cmpR (cond : Cond) (r1 r2 : Int)
  | cmpI (cond : Cond) (rn imm : Int)
  | teq (rd : Int)
  | sxtb (cond : Cond) (rd rm rotation : Int)
  | sxth (cond : Cond) (rd rm rotation : Int)
  deriving DecidableEq, Repr

/-- `__zero`. -/
abbrev Insn.zero (rd : Int) : Insn := .movI .al rd 0

/-- `arm_extract_bits`: bits `iStart` to `iEnd`, moved to `dStart`. -/
def extractBits (imm : Int) (iStart iEnd dStart : Nat) : Int :=
  imm / 2 ^ iStart % 2 ^ (iEnd - iStart + 1) * 2 ^ dStart

/-- `arm_encode`. -/
def armEncode (cond : Cond) (opcode rn rd op2 : Int) : Word :=
  BitVec.ofInt 32 (cond.code * 2 ^ 28 + opcode * 2 ^ 20 + rn * 2 ^ 16 + rd * 2 ^ 12 + op2)

/-- The loop of `__mov` that shifts an immediate right by two bits at a time. A
word leaves it after at most fifteen rounds. -/
def rotateImm : Nat → Int → Int → Int × Int
  | 0, op2, shift => (op2, shift)
  | fuel + 1, op2, shift =>
      if op2 % 4 = 0 then rotateImm fuel (op2 / 4) (shift - 1) else (op2, shift)

/-- `__mov`. It gives up on a value that spans more than eight bits. -/
def mov (cond : Cond) (io opcode s rn rd op2 : Int) : Option Word :=
  let rotated := if op2 > 255 then rotateImm 16 op2 16 else (op2, 0)
  if rotated.1 > 255 then none
  else some (armEncode cond (s + opcode * 2 + io * 32) rn rd (rotated.2 * 256 + rotated.1 % 256))

/-- `arm_halfword_transfer`. -/
def halfwordTransfer (cond : Cond) (l rn rd ofs signedOp : Int) : Option Word :=
  let opcode := if ofs < 0 then 16 + 4 + l else 16 + 8 + 4 + l
  let size := |ofs|
  if size > 255 then none
  else some (armEncode cond opcode rn rd (size / 16 * 256 + 0xB0 + size % 16 + signedOp * 64))

/-- `arm_transfer`. -/
def transfer (cond : Cond) (l size rn rd ofs : Int) : Word :=
  let opcode := 64 + 16 + 8 + l + if size = 1 then 4 else 0
  armEncode cond (if ofs < 0 then opcode - 8 else opcode) rn rd (|ofs| % 4096)

/-- The bitwise or of an operand with constant bits. -/
def orBits (operand : Int) (bits : Word) : Int :=
  (BitVec.ofInt 32 operand ||| bits).toInt

/-- `__sxtb` and `__sxth`: any other rotation is an error. -/
def signExtend (cond : Cond) (opcode rd rm rotation : Int) : Option Word :=
  if rotation = 0 ∨ rotation = 8 ∨ rotation = 16 ∨ rotation = 24 then
    some (armEncode cond opcode 0xF rd
      (orBits rm (BitVec.ofInt 32 (rotation / 8 * 1024) ||| 0x70)))
  else none

/-- The displacement field of `__b` and `__bl`. -/
def branchField (ofs : Int) : Int :=
  (ofs - 8) / 4 % 2 ^ 24

/-- The word the encoder of the instruction returns. -/
def Insn.encode : Insn → Option Word
  | svc => some (armEncode .al 240 0 0 0)
  | andR cond rd rs rm => mov cond 0 0 0 rs rd rm
  | orR cond rd rs rm => mov cond 0 12 0 rs rd rm
  | eorR cond rd rs rm => mov cond 0 1 0 rs rd rm
  | mvnR cond rd rm => mov cond 0 15 0 0 rd rm
  | movw cond rd imm =>
      some (armEncode cond 48 0 rd 0 +
        BitVec.ofInt 32 (extractBits imm 0 11 0 + extractBits imm 12 15 16))
  | movt cond rd imm =>
      some (armEncode cond 52 0 rd 0 + BitVec.ofInt 32
        (extractBits (imm / 2 ^ 16) 0 11 0 + extractBits (imm / 2 ^ 16) 12 15 16))
  | movI cond rd imm => mov cond 1 13 0 0 rd imm
  | movR cond rd rs => mov cond 0 13 0 0 rd rs
  | srlAmt cond s shift rd rm amt =>
      some (armEncode cond (s + 26) 0 rd (rm + shift.code * 32 + amt * 128))
  | sll cond rd rm rs => some (armEncode cond 26 0 rd (rm + 16 + rs * 256))
  | sllAmt cond s shift rd rm amt =>
      some (armEncode cond (s + 26) 0 rd (rm + shift.code * 32 + amt * 128))
  | sra cond rd rm rs => some (armEncode cond 26 0 rd (rm + 16 + 64 + rs * 256))
  | addI cond rd rs imm =>
      if imm ≥ 0 then mov cond 1 4 0 rs rd imm else mov cond 1 2 0 rs rd (-imm)
  | addR cond rd rs ro => mov cond 0 4 0 rs rd ro
  | subR cond rd rs ro => mov cond 0 2 0 rs rd ro
  | andI cond rd rs imm => mov cond 1 0 0 rs rd imm
  | lw cond rd rn ofs => some (transfer cond 1 4 rn rd ofs)
  | lb cond rd rn ofs => some (transfer cond 1 1 rn rd ofs)
  | sw cond rd rn ofs => some (transfer cond 0 4 rn rd ofs)
  | sb cond rd rn ofs => some (transfer cond 0 1 rn rd ofs)
  | lh cond rd rn ofs => halfwordTransfer cond 1 rn rd ofs 1
  | sh cond rd rn ofs => halfwordTransfer cond 0 rn rd ofs 0
  | stmdb cond w rn regList => some (armEncode cond (16 + 128 + w * 2) rn 0 regList)
  | ldm cond w rn regList => some (armEncode cond (9 + 128 + w * 2) rn 0 regList)
  | pushReg cond rt => some (armEncode cond 0x52 0xD rt 4)
  | popWord cond rt => some (armEncode cond 0x49 0xD rt 4)
  | b cond ofs => some (armEncode cond 160 0 0 0 + BitVec.ofInt 32 (branchField ofs))
  | bl cond ofs => some (armEncode cond 176 0 0 0 + BitVec.ofInt 32 (branchField ofs))
  | bx cond rm =>
      some (BitVec.ofInt 32 (cond.code * 2 ^ 28) ||| 0x012FFF10 ||| BitVec.ofInt 32 rm)
  | blx cond rd => some (armEncode cond 18 15 15 (rd + 3888))
  | mul cond rd r1 r2 => some (armEncode cond 0 rd 0 (r1 * 256 + 144 + r2))
  | div cond rd r1 r2 => some (armEncode cond 113 rd 15 (r1 * 256 + 16 + r2))
  | rsbI cond rd imm rn => mov cond 1 3 0 rn rd imm
  | cmpR cond r1 r2 => mov cond 0 10 1 r1 0 r2
  | cmpI cond rn imm => mov cond 1 10 1 rn 0 imm
  | teq rd => mov .al 1 9 1 rd 0 0
  | sxtb cond rd rm rotation => signExtend cond 106 rd rm rotation
  | sxth cond rd rm rotation => signExtend cond 107 rd rm rotation

/-- A field of 24 bits, read as a signed number. -/
def signed24 (field : Int) : Int :=
  if field < 8388608 then field else field - 16777216

/-- How far from its own address a branch word jumps: the signed field in words,
counted from two instructions ahead. -/
def branchDisplacement (w : Word) : Int :=
  4 * signed24 ((w.toNat : Int) % 2 ^ 24) + 8

/-- A displacement a branch can hold. -/
structure Reachable (ofs : Int) : Prop where
  aligned : ofs % 4 = 0
  low : -33554424 ≤ ofs
  high : ofs < 33554440

theorem branchWord_field {opcode : Int} (cond : Cond) (isBranch : opcode = 160 ∨ opcode = 176)
    (ofs : Int) :
    ((armEncode cond opcode 0 0 0 + BitVec.ofInt 32 (branchField ofs)).toNat : Int) % 2 ^ 24 =
      branchField ofs := by
  rw [armEncode, ← BitVec.ofInt_add, BitVec.toNat_ofInt, branchField]
  rcases isBranch with isB | isBl
  · rw [isB]
    omega
  · rw [isBl]
    omega

/-- The field of a branch word is the displacement it was encoded from. -/
theorem branchDisplacement_encode {opcode ofs : Int} (cond : Cond)
    (isBranch : opcode = 160 ∨ opcode = 176) (reachable : Reachable ofs) :
    branchDisplacement (armEncode cond opcode 0 0 0 + BitVec.ofInt 32 (branchField ofs)) =
      ofs := by
  have aligned := reachable.aligned
  have low := reachable.low
  have high := reachable.high
  rw [branchDisplacement, branchWord_field cond isBranch, branchField, signed24]
  split <;> omega

theorem branchDisplacement_b {ofs : Int} (cond : Cond) (reachable : Reachable ofs) :
    ∃ w, (Insn.b cond ofs).encode = some w ∧ branchDisplacement w = ofs :=
  ⟨_, rfl, branchDisplacement_encode cond (.inl rfl) reachable⟩

theorem branchDisplacement_bl {ofs : Int} (cond : Cond) (reachable : Reachable ofs) :
    ∃ w, (Insn.bl cond ofs).encode = some w ∧ branchDisplacement w = ofs :=
  ⟨_, rfl, branchDisplacement_encode cond (.inr rfl) reachable⟩

/-- The sixteen bits a `movw` or `movt` word moves. -/
def movImm (w : Word) : Int :=
  (w.toNat : Int) / 2 ^ 16 % 2 ^ 4 * 2 ^ 12 + (w.toNat : Int) % 2 ^ 12

/-- The words of `movw` and `movt`, field by field. -/
theorem movWord_fields {cond : Cond} {opcode rd imm : Int} {w : Word}
    (isMove : opcode = 48 ∨ opcode = 52) (isReg : 0 ≤ rd ∧ rd < 16)
    (isWord : w = armEncode cond opcode 0 rd 0 +
      BitVec.ofInt 32 (extractBits imm 0 11 0 + extractBits imm 12 15 16)) :
    movImm w = imm % 2 ^ 16 ∧ (w.toNat : Int) / 2 ^ 20 = cond.code * 2 ^ 8 + opcode ∧
      (w.toNat : Int) / 2 ^ 12 % 2 ^ 4 = rd := by
  have condRange : 0 ≤ cond.code ∧ cond.code < 16 := by cases cond <;> decide
  have opcodeRange : 0 ≤ opcode ∧ opcode < 256 ∧ opcode % 4 = 0 := by
    rcases isMove with rfl | rfl <;> decide
  have value : (w.toNat : Int) = cond.code * 2 ^ 28 + opcode * 2 ^ 20 + rd * 2 ^ 12 +
      imm % 2 ^ 12 + imm / 2 ^ 12 % 2 ^ 4 * 2 ^ 16 := by
    rw [isWord, armEncode, ← BitVec.ofInt_add, BitVec.toNat_ofInt, extractBits, extractBits]
    omega
  unfold movImm
  rw [value]
  refine ⟨?_, ?_, ?_⟩ <;> omega

/-- The address a PLT entry loads `pc` from, read off its words: `movw` and `movt`
to `r12` and a load of `pc` from there. -/
def pltSlot (low high load : Word) : Option Int :=
  if (low.toNat : Int) / 2 ^ 20 = 0xE30 ∧ (low.toNat : Int) / 2 ^ 12 % 2 ^ 4 = 12 ∧
      (high.toNat : Int) / 2 ^ 20 = 0xE34 ∧ (high.toNat : Int) / 2 ^ 12 % 2 ^ 4 = 12 ∧
      load = 0xE59CF000#32 then
    some (movImm high * 2 ^ 16 + movImm low)
  else none

/-- A PLT entry jumps through the slot it was made for. -/
theorem pltSlot_encode (addr : Int) :
    ∃ low high load, (Insn.movw .al r12 addr).encode = some low ∧
      (Insn.movt .al r12 addr).encode = some high ∧ (Insn.lw .al pc r12 0).encode = some load ∧
        pltSlot low high load = some (addr % 2 ^ 32) := by
  refine ⟨_, _, _, rfl, rfl, rfl, ?_⟩
  have isR12 : (0 : Int) ≤ r12 ∧ r12 < 16 := by decide
  rcases @movWord_fields .al 48 r12 addr _ (.inl rfl) isR12 rfl with ⟨low, lowOp, lowReg⟩
  rcases @movWord_fields .al 52 r12 (addr / 2 ^ 16) _ (.inr rfl) isR12 rfl with
    ⟨high, highOp, highReg⟩
  unfold pltSlot
  rw [if_pos ⟨lowOp, lowReg, highOp, highReg, by decide⟩, low, high]
  congr 1
  omega

end Shecc.Arm
