import Shecc.RiscV.Encode

/-!
# Decoding RISC-V instructions

A word is split into the fields the architecture gives it, and the operation is looked
up in a table of their fixed values. The encoders of the back end put every operand
where its field is read. Loads, stores and calls of the system are left out.
-/

namespace Shecc.RiscV

/-! ## The fields of a word -/

/-- The formats an operation is encoded in. A shift by a constant has the upper
immediate bits of its own. -/
inductive Format
  | R | I | shift | B
  deriving DecidableEq

/-- The format, `opcode`, `funct3` and `funct7` of the modelled operations. -/
def Op.isa : Op → Option (Format × Int × Int × Int)
  | .add => some (.R, 0x33, 0, 0)
  | .sub => some (.R, 0x33, 0, 0x20)
  | .sll => some (.R, 0x33, 1, 0)
  | .slt => some (.R, 0x33, 2, 0)
  | .sltu => some (.R, 0x33, 3, 0)
  | .xor => some (.R, 0x33, 4, 0)
  | .srl => some (.R, 0x33, 5, 0)
  | .sra => some (.R, 0x33, 5, 0x20)
  | .or => some (.R, 0x33, 6, 0)
  | .and => some (.R, 0x33, 7, 0)
  | .mul => some (.R, 0x33, 0, 1)
  | .div => some (.R, 0x33, 4, 1)
  | .mod => some (.R, 0x33, 6, 1)
  | .addi => some (.I, 0x13, 0, 0)
  | .slti => some (.I, 0x13, 2, 0)
  | .sltiu => some (.I, 0x13, 3, 0)
  | .xori => some (.I, 0x13, 4, 0)
  | .ori => some (.I, 0x13, 6, 0)
  | .andi => some (.I, 0x13, 7, 0)
  | .slli => some (.shift, 0x13, 1, 0)
  | .srli => some (.shift, 0x13, 5, 0)
  | .srai => some (.shift, 0x13, 5, 0x20)
  | .beq => some (.B, 0x63, 0, 0)
  | .bne => some (.B, 0x63, 1, 0)
  | .blt => some (.B, 0x63, 4, 0)
  | .bge => some (.B, 0x63, 5, 0)
  | .bltu => some (.B, 0x63, 6, 0)
  | .bgeu => some (.B, 0x63, 7, 0)
  | _ => none

/-- The modelled operations. -/
def Op.all : List Op :=
  [.add, .sub, .sll, .slt, .sltu, .xor, .srl, .sra, .or, .and, .mul, .div, .mod, .addi, .slti,
    .sltiu, .xori, .ori, .andi, .slli, .srli, .srai, .beq, .bne, .blt, .bge, .bltu, .bgeu]

/-- The operation has these fixed fields. `funct7` counts where it is fixed. -/
def Op.matches (op : Op) (opcode funct3 funct7 : Int) : Bool :=
  match op.isa with
  | none => false
  | some (format, opcode', funct3', funct7') =>
      opcode == opcode' && funct3 == funct3' &&
        (format == .I || format == .B || funct7 == funct7')

/-- The operation with these fixed fields. -/
def findOp (opcode funct3 funct7 : Int) : Option (Op × Format) := do
  let op ← Op.all.find? fun op => op.matches opcode funct3 funct7
  let isa ← op.isa
  some (op, isa.1)

/-- How far from its own address a branch word jumps. -/
def branchDisplacement (w : Word) : Int :=
  (w.toNat : Int) / 2 ^ 8 % 2 ^ 4 * 2 + (w.toNat : Int) / 2 ^ 25 % 2 ^ 6 * 2 ^ 5 +
    (w.toNat : Int) / 2 ^ 7 % 2 * 2 ^ 11 - (w.toNat : Int) / 2 ^ 31 * 2 ^ 12

/-- The instruction of a word. -/
def decode (w : Word) : Option Insn :=
  let n : Int := w.toNat
  let opcode := n % 2 ^ 7
  let rd := n / 2 ^ 7 % 2 ^ 5
  let rs1 := n / 2 ^ 15 % 2 ^ 5
  let rs2 := n / 2 ^ 20 % 2 ^ 5
  if opcode = 0x6F then some (.J .jal rd (jalDisplacement w))
  else if opcode = 0x37 then some (.U .lui rd (upperImm w))
  else
    match findOp opcode (n / 2 ^ 12 % 2 ^ 3) (n / 2 ^ 25) with
    | some (op, .R) => some (.R op rd rs1 rs2)
    | some (op, .I) => some (.I op rd rs1 (lowerImm w))
    | some (op, .shift) => some (.I op rd rs1 rs2)
    | some (op, .B) => some (.B op rs1 rs2 (branchDisplacement w))
    | none => none

/-- A register. -/
def IsReg (r : Int) : Prop := 0 ≤ r ∧ r < 32

instance (r : Int) : Decidable (IsReg r) := inferInstanceAs (Decidable (_ ∧ _))

/-- The operation and the operands of an instruction fit its format. -/
def Insn.Valid : Insn → Prop
  | .R op rd rs1 rs2 => (op.isa.map Prod.fst = some .R) ∧ IsReg rd ∧ IsReg rs1 ∧ IsReg rs2
  | .I op rd rs1 imm => IsReg rd ∧ IsReg rs1 ∧
      (op.isa.map Prod.fst = some .I ∧ -2048 ≤ imm ∧ imm ≤ 2047 ∨
        op.isa.map Prod.fst = some .shift ∧ 0 ≤ imm ∧ imm < 32)
  | .B op rs1 rs2 imm => (op.isa.map Prod.fst = some .B) ∧ IsReg rs1 ∧ IsReg rs2 ∧
      imm % 2 = 0 ∧ -4096 ≤ imm ∧ imm ≤ 4095
  | .J op rd imm => op = .jal ∧ IsReg rd ∧ Reachable imm
  | .U op rd imm => op = .lui ∧ IsReg rd ∧ imm % 2 ^ 12 = 0 ∧ 0 ≤ imm ∧ imm < 2 ^ 32
  | .S _ _ _ _ => False

/-! ## The encoders agree with the fields -/

/-- The fixed bits of an operation are its fields. -/
theorem code_eq {op : Op} {format : Format} {opcode funct3 funct7 : Int}
    (isa : op.isa = some (format, opcode, funct3, funct7)) :
    op.code = opcode + funct3 * 2 ^ 12 + funct7 * 2 ^ 25 := by
  cases op <;> cases isa <;> rfl

theorem isa_range {op : Op} {format : Format} {opcode funct3 funct7 : Int}
    (isa : op.isa = some (format, opcode, funct3, funct7)) :
    (0 ≤ opcode ∧ opcode < 2 ^ 7 ∧ opcode ≠ 0x6F ∧ opcode ≠ 0x37) ∧
      (0 ≤ funct3 ∧ funct3 < 2 ^ 3) ∧ (0 ≤ funct7 ∧ funct7 < 2 ^ 7) ∧
        (format = .I ∨ format = .B → funct7 = 0) := by
  cases op <;> cases isa <;> decide

/-- An operation is found from its fields, whatever stands where `funct7` is not
fixed. -/
theorem findOp_isa {op : Op} {format : Format} {opcode funct3 funct7 other : Int}
    (isa : op.isa = some (format, opcode, funct3, funct7))
    (fixed : format = .R ∨ format = .shift → other = funct7) :
    findOp opcode funct3 other = some (op, format) := by
  by_cases isFixed : format = .R ∨ format = .shift
  · rw [fixed isFixed]
    cases op <;> cases isa <;> rfl
  · rw [not_or] at isFixed
    rcases isFixed with ⟨notR, notShift⟩
    cases op <;> cases isa <;> first | rfl | exact absurd rfl notR | exact absurd rfl notShift

/-- The fields of a word that is a sum of fields. -/
theorem fields_of_sum {opcode low funct3 middle upper high : Int}
    (opcodeRange : 0 ≤ opcode ∧ opcode < 2 ^ 7) (lowRange : 0 ≤ low ∧ low < 2 ^ 5)
    (funct3Range : 0 ≤ funct3 ∧ funct3 < 2 ^ 3) (middleRange : 0 ≤ middle ∧ middle < 2 ^ 5)
    (upperRange : 0 ≤ upper ∧ upper < 2 ^ 5) (highRange : 0 ≤ high ∧ high < 2 ^ 7) {w : Word}
    (isWord : w = BitVec.ofInt 32 (opcode + low * 2 ^ 7 + funct3 * 2 ^ 12 + middle * 2 ^ 15 +
      upper * 2 ^ 20 + high * 2 ^ 25)) :
    (w.toNat : Int) % 2 ^ 7 = opcode ∧ (w.toNat : Int) / 2 ^ 7 % 2 ^ 5 = low ∧
      (w.toNat : Int) / 2 ^ 12 % 2 ^ 3 = funct3 ∧ (w.toNat : Int) / 2 ^ 15 % 2 ^ 5 = middle ∧
        (w.toNat : Int) / 2 ^ 20 % 2 ^ 5 = upper ∧ (w.toNat : Int) / 2 ^ 25 = high := by
  have value : (w.toNat : Int) = opcode + low * 2 ^ 7 + funct3 * 2 ^ 12 + middle * 2 ^ 15 +
      upper * 2 ^ 20 + high * 2 ^ 25 := by
    rw [isWord, BitVec.toNat_ofInt]
    omega
  rw [value]
  refine ⟨?_, ?_, ?_, ?_, ?_, ?_⟩ <;> omega

theorem decode_R {op : Op} {rd rs1 rs2 : Int} (valid : (Insn.R op rd rs1 rs2).Valid) :
    ∃ w, (Insn.R op rd rs1 rs2).encode = some w ∧ decode w = some (.R op rd rs1 rs2) := by
  rcases valid with ⟨format, isRd, isRs1, isRs2⟩
  rcases Option.map_eq_some_iff.mp format with ⟨⟨_, opcode, funct3, funct7⟩, isa, rfl⟩
  rcases isa_range isa with ⟨⟨opLow, opHigh, notJal, notLui⟩, funct3Range, funct7Range, -⟩
  refine ⟨_, rfl, ?_⟩
  rcases @fields_of_sum opcode rd funct3 rs1 rs2 funct7 ⟨opLow, opHigh⟩ isRd funct3Range isRs1
    isRs2 funct7Range _ rfl with ⟨isOpcode, isLow, isFunct3, isMiddle, isUpper, isHigh⟩
  rw [code_eq isa]
  have sum : opcode + funct3 * 2 ^ 12 + funct7 * 2 ^ 25 + rd * 2 ^ 7 + rs1 * 2 ^ 15 +
      rs2 * 2 ^ 20 = opcode + rd * 2 ^ 7 + funct3 * 2 ^ 12 + rs1 * 2 ^ 15 + rs2 * 2 ^ 20 +
        funct7 * 2 ^ 25 := by ring
  rw [sum, decode]
  simp only [isOpcode, isLow, isFunct3, isMiddle, isUpper, isHigh, notJal, notLui, if_false,
    findOp_isa isa fun _ => rfl]

/-- The fields of an instruction whose upper twelve bits hold `field`. -/
theorem fields_of_upper {op : Op} {format : Format} {opcode funct3 funct7 rd rs1 field : Int}
    (isa : op.isa = some (format, opcode, funct3, funct7)) (isRd : IsReg rd) (isRs1 : IsReg rs1)
    (range : 0 ≤ funct7 * 2 ^ 5 + field ∧ funct7 * 2 ^ 5 + field < 2 ^ 12) {w : Word}
    (isWord : w = BitVec.ofInt 32 (op.code + rd * 2 ^ 7 + rs1 * 2 ^ 15 + field * 2 ^ 20)) :
    (w.toNat : Int) % 2 ^ 7 = opcode ∧ (w.toNat : Int) / 2 ^ 7 % 2 ^ 5 = rd ∧
      (w.toNat : Int) / 2 ^ 12 % 2 ^ 3 = funct3 ∧ (w.toNat : Int) / 2 ^ 15 % 2 ^ 5 = rs1 ∧
        (w.toNat : Int) / 2 ^ 20 % 2 ^ 5 = field % 2 ^ 5 ∧
          (w.toNat : Int) / 2 ^ 25 = funct7 + field / 2 ^ 5 := by
  rcases isa_range isa with ⟨⟨opLow, opHigh, -, -⟩, funct3Range, -, -⟩
  have upperRange : 0 ≤ field % 2 ^ 5 ∧ field % 2 ^ 5 < 2 ^ 5 := by omega
  have highRange : 0 ≤ funct7 + field / 2 ^ 5 ∧ funct7 + field / 2 ^ 5 < 2 ^ 7 := by omega
  apply fields_of_sum ⟨opLow, opHigh⟩ isRd funct3Range isRs1 upperRange highRange
  rw [isWord, code_eq isa]
  congr 1
  omega

/-- The upper twelve bits from their two fields. -/
theorem upper_of_fields {n field : Int} (isUpper : n / 2 ^ 20 % 2 ^ 5 = field % 2 ^ 5)
    (isHigh : n / 2 ^ 25 = 0 + field / 2 ^ 5) : n / 2 ^ 20 = field := by
  omega

theorem decode_I {op : Op} {rd rs1 imm : Int} (isRd : IsReg rd) (isRs1 : IsReg rs1)
    (format : op.isa.map Prod.fst = some .I) (low : -2048 ≤ imm) (high : imm ≤ 2047) :
    ∃ w, (Insn.I op rd rs1 imm).encode = some w ∧ decode w = some (.I op rd rs1 imm) := by
  rcases Option.map_eq_some_iff.mp format with ⟨⟨_, opcode, funct3, funct7⟩, isa, rfl⟩
  rcases isa_range isa with ⟨⟨-, -, notJal, notLui⟩, -, -, none_⟩
  have isZero : funct7 = 0 := none_ (Or.inl rfl)
  subst isZero
  rcases wrapImm_range low high with ⟨fieldLow, fieldHigh, same⟩
  have encoded : (Insn.I op rd rs1 imm).encode = some (BitVec.ofInt 32
      (op.code + rd * 2 ^ 7 + rs1 * 2 ^ 15 + wrapImm imm * 2 ^ 20)) := by
    change encodeI op rd rs1 imm = _
    rw [encodeI, if_neg (by omega)]
  generalize isWord : BitVec.ofInt 32 (op.code + rd * 2 ^ 7 + rs1 * 2 ^ 15 +
    wrapImm imm * 2 ^ 20) = w at encoded
  refine ⟨w, encoded, ?_⟩
  rcases fields_of_upper isa isRd isRs1 ⟨by omega, by omega⟩ isWord.symm with
    ⟨isOpcode, isLow, isFunct3, isMiddle, isUpper, isHigh⟩
  clear isWord encoded
  have field := upper_of_fields isUpper isHigh
  have isImm : lowerImm w = imm := by
    unfold lowerImm
    rw [field, ← same]
  rw [decode]
  have found := @findOp_isa op .I opcode funct3 0 ((w.toNat : Int) / 2 ^ 25) isa (by simp)
  simp only [isOpcode, isLow, isFunct3, isMiddle, notJal, notLui, if_false, found, isImm]

theorem decode_shift {op : Op} {rd rs1 imm : Int} (isRd : IsReg rd) (isRs1 : IsReg rs1)
    (format : op.isa.map Prod.fst = some .shift) (low : 0 ≤ imm) (high : imm < 32) :
    ∃ w, (Insn.I op rd rs1 imm).encode = some w ∧ decode w = some (.I op rd rs1 imm) := by
  rcases Option.map_eq_some_iff.mp format with ⟨⟨_, opcode, funct3, funct7⟩, isa, rfl⟩
  rcases isa_range isa with ⟨⟨-, -, notJal, notLui⟩, -, funct7Range, -⟩
  have encoded : (Insn.I op rd rs1 imm).encode = some (BitVec.ofInt 32
      (op.code + rd * 2 ^ 7 + rs1 * 2 ^ 15 + imm * 2 ^ 20)) := by
    change encodeI op rd rs1 imm = _
    rw [encodeI, if_neg (by omega), wrapImm, if_neg (by omega)]
  generalize isWord : BitVec.ofInt 32 (op.code + rd * 2 ^ 7 + rs1 * 2 ^ 15 + imm * 2 ^ 20) = w
    at encoded
  refine ⟨w, encoded, ?_⟩
  rcases fields_of_upper isa isRd isRs1 ⟨by omega, by omega⟩ isWord.symm with
    ⟨isOpcode, isLow, isFunct3, isMiddle, isUpper, isHigh⟩
  have noHigh : imm / 2 ^ 5 = 0 := Int.ediv_eq_zero_of_lt low high
  have allUpper : imm % 2 ^ 5 = imm := Int.emod_eq_of_lt low high
  rw [noHigh, add_zero] at isHigh
  rw [allUpper] at isUpper
  rw [decode]
  simp only [isOpcode, isLow, isFunct3, isMiddle, isUpper, isHigh, notJal, notLui, if_false,
    findOp_isa isa fun _ => rfl]

/-- A displacement from its bits. -/
theorem bits_of_displacement {imm : Int} (even : imm % 2 = 0) (low : -4096 ≤ imm)
    (high : imm ≤ 4095) : imm / 2 % 2 ^ 4 * 2 + imm / 2 ^ 5 % 2 ^ 6 * 2 ^ 5 +
      imm / 2 ^ 11 % 2 * 2 ^ 11 - imm / 2 ^ 12 % 2 * 2 ^ 12 = imm := by
  have from5 : imm / 2 ^ 5 = imm / 2 / 2 ^ 4 := by omega
  have from11 : imm / 2 ^ 11 = imm / 2 / 2 ^ 4 / 2 ^ 6 := by omega
  have from12 : imm / 2 ^ 12 = imm / 2 / 2 ^ 4 / 2 ^ 6 / 2 := by omega
  rw [from12, from11, from5]
  omega

/-- The displacement from the two fields around `funct3`. -/
theorem displacement_of_fields {w : Word} {imm : Int} (even : imm % 2 = 0) (low : -4096 ≤ imm)
    (high : imm ≤ 4095)
    (isLow : (w.toNat : Int) / 2 ^ 7 % 2 ^ 5 = imm / 2 ^ 11 % 2 + imm / 2 % 2 ^ 4 * 2)
    (isHigh : (w.toNat : Int) / 2 ^ 25 = imm / 2 ^ 5 % 2 ^ 6 + imm / 2 ^ 12 % 2 * 2 ^ 6) :
    branchDisplacement w = imm := by
  have bits1to4 : (w.toNat : Int) / 2 ^ 8 % 2 ^ 4 = imm / 2 % 2 ^ 4 := by
    have next : (w.toNat : Int) / 2 ^ 8 = (w.toNat : Int) / 2 ^ 7 / 2 := by omega
    have halved : (w.toNat : Int) / 2 ^ 7 / 2 % 2 ^ 4 = (w.toNat : Int) / 2 ^ 7 % 2 ^ 5 / 2 := by
      generalize (w.toNat : Int) / 2 ^ 7 = upper
      omega
    rw [next, halved, isLow]
    omega
  have bits5to10 : (w.toNat : Int) / 2 ^ 25 % 2 ^ 6 = imm / 2 ^ 5 % 2 ^ 6 := by omega
  have bit11 : (w.toNat : Int) / 2 ^ 7 % 2 = imm / 2 ^ 11 % 2 := by omega
  have bit12 : (w.toNat : Int) / 2 ^ 31 = imm / 2 ^ 12 % 2 := by omega
  rw [branchDisplacement, bits1to4, bits5to10, bit11, bit12]
  exact bits_of_displacement even low high

theorem decode_B {op : Op} {rs1 rs2 imm : Int} (valid : (Insn.B op rs1 rs2 imm).Valid) :
    ∃ w, (Insn.B op rs1 rs2 imm).encode = some w ∧ decode w = some (.B op rs1 rs2 imm) := by
  rcases valid with ⟨format, isRs1, isRs2, even, low, high⟩
  rcases Option.map_eq_some_iff.mp format with ⟨⟨_, opcode, funct3, funct7⟩, isa, rfl⟩
  rcases isa_range isa with ⟨⟨opLow, opHigh, notJal, notLui⟩, funct3Range, -, none_⟩
  have isZero : funct7 = 0 := none_ (Or.inr rfl)
  subst isZero
  have encoded : (Insn.B op rs1 rs2 imm).encode = some (BitVec.ofInt 32
      (op.code + rs1 * 2 ^ 15 + rs2 * 2 ^ 20 + extractBits imm 11 11 7 + extractBits imm 1 4 8 +
        extractBits imm 5 10 25 + if imm < 0 then 2 ^ 31 else 0)) := by
    change encodeB op rs1 rs2 imm = _
    rw [encodeB, if_neg (by omega)]
  have sign : (if imm < 0 then 2 ^ 31 else 0 : Int) = (imm / 2 ^ 12 % 2) * 2 ^ 31 := by
    split <;> omega
  -- The twelve bits of the displacement lie in the two fields around `funct3`.
  have lowRange : 0 ≤ imm / 2 ^ 11 % 2 + imm / 2 % 2 ^ 4 * 2 ∧
      imm / 2 ^ 11 % 2 + imm / 2 % 2 ^ 4 * 2 < 2 ^ 5 := by omega
  have highRange : 0 ≤ imm / 2 ^ 5 % 2 ^ 6 + imm / 2 ^ 12 % 2 * 2 ^ 6 ∧
      imm / 2 ^ 5 % 2 ^ 6 + imm / 2 ^ 12 % 2 * 2 ^ 6 < 2 ^ 7 := by omega
  have sum : op.code + rs1 * 2 ^ 15 + rs2 * 2 ^ 20 + extractBits imm 11 11 7 +
      extractBits imm 1 4 8 + extractBits imm 5 10 25 + (if imm < 0 then 2 ^ 31 else 0 : Int) =
        opcode + (imm / 2 ^ 11 % 2 + imm / 2 % 2 ^ 4 * 2) * 2 ^ 7 + funct3 * 2 ^ 12 +
          rs1 * 2 ^ 15 + rs2 * 2 ^ 20 +
            (imm / 2 ^ 5 % 2 ^ 6 + imm / 2 ^ 12 % 2 * 2 ^ 6) * 2 ^ 25 := by
    rw [sign, code_eq isa]
    simp only [extractBits]
    ring_nf
  rw [sum] at encoded
  refine ⟨_, encoded, ?_⟩
  rcases fields_of_sum ⟨opLow, opHigh⟩ lowRange funct3Range isRs1 isRs2 highRange rfl with
    ⟨isOpcode, isLow, isFunct3, isMiddle, isUpper, isHigh⟩
  revert isOpcode isLow isFunct3 isMiddle isUpper isHigh
  generalize BitVec.ofInt 32 (opcode + (imm / 2 ^ 11 % 2 + imm / 2 % 2 ^ 4 * 2) * 2 ^ 7 +
    funct3 * 2 ^ 12 + rs1 * 2 ^ 15 + rs2 * 2 ^ 20 +
      (imm / 2 ^ 5 % 2 ^ 6 + imm / 2 ^ 12 % 2 * 2 ^ 6) * 2 ^ 25) = w
  intro isOpcode isLow isFunct3 isMiddle isUpper isHigh
  have displacement : branchDisplacement w = imm :=
    displacement_of_fields even low high isLow isHigh
  have found := @findOp_isa op .B opcode funct3 0 ((w.toNat : Int) / 2 ^ 25) isa (by simp)
  rw [decode]
  simp only [isOpcode, isFunct3, isMiddle, isUpper, notJal, notLui, if_false, found, displacement]

/-- The two lowest fields do not depend on the others. -/
theorem low_fields {opcode rd upper : Int} (opcodeRange : 0 ≤ opcode ∧ opcode < 2 ^ 7)
    (isRd : IsReg rd) {w : Word}
    (isWord : w = BitVec.ofInt 32 (opcode + rd * 2 ^ 7 + upper * 2 ^ 12)) :
    (w.toNat : Int) % 2 ^ 7 = opcode ∧ (w.toNat : Int) / 2 ^ 7 % 2 ^ 5 = rd := by
  rcases isRd with ⟨low, high⟩
  have value : (w.toNat : Int) = (opcode + rd * 2 ^ 7 + upper * 2 ^ 12) % 2 ^ 32 := by
    rw [isWord, BitVec.toNat_ofInt]
    omega
  rw [value]
  constructor <;> omega

theorem decode_J {rd imm : Int} (isRd : IsReg rd) (reachable : Reachable imm) :
    ∃ w, (Insn.jal rd imm).encode = some w ∧ decode w = some (.jal rd imm) := by
  rcases jalDisplacement_encode isRd reachable with ⟨w, encoded, displacement⟩
  refine ⟨w, encoded, ?_⟩
  have isWord := (Option.some.inj encoded).symm
  dsimp only [extractBits, Op.code] at isWord
  generalize (if imm < 0 then 2 ^ 21 - -imm else imm) = field at isWord
  rcases @low_fields 111 rd (field / 2 ^ 1 % 2 ^ (10 - 1 + 1) * 2 ^ 9 +
      field / 2 ^ 11 % 2 ^ (11 - 11 + 1) * 2 ^ 8 + field / 2 ^ 12 % 2 ^ (19 - 12 + 1) +
        if imm < 0 then 2 ^ 19 else 0) (by decide) isRd w (by
      rw [isWord]
      congr 1
      split <;> omega) with ⟨isOpcode, isRd'⟩
  rw [decode]
  simp only [isOpcode, isRd', displacement, if_true]

theorem decode_U {rd imm : Int} (isRd : IsReg rd) (aligned : imm % 2 ^ 12 = 0) (low : 0 ≤ imm)
    (high : imm < 2 ^ 32) :
    ∃ w, (Insn.lui rd imm).encode = some w ∧ decode w = some (.lui rd imm) := by
  rcases @upperImm_encode rd imm isRd with ⟨w, encoded, upper⟩
  refine ⟨w, encoded, ?_⟩
  have isWord := (Option.some.inj encoded).symm
  dsimp only [extractBits, Op.code] at isWord
  rcases @low_fields 0x37 rd (imm / 2 ^ 12 % 2 ^ (31 - 12 + 1)) (by decide) isRd w isWord with
    ⟨isOpcode, isRd'⟩
  have isImm : upperImm w = imm := by
    rw [upper]
    omega
  rw [decode]
  simp only [isOpcode, isRd', isImm, if_true]
  rfl

/-- The encoders put an instruction where the architecture reads it. -/
theorem decode_encode {insn : Insn} (valid : insn.Valid) :
    ∃ w, insn.encode = some w ∧ decode w = some insn := by
  cases insn with
  | R op rd rs1 rs2 => exact decode_R valid
  | I op rd rs1 imm =>
      rcases valid with ⟨isRd, isRs1, ⟨format, low, high⟩ | ⟨format, low, high⟩⟩
      · exact decode_I isRd isRs1 format low high
      · exact decode_shift isRd isRs1 format low high
  | S op rs1 rs2 imm => exact valid.elim
  | B op rs1 rs2 imm => exact decode_B valid
  | J op rd imm =>
      rcases valid with ⟨rfl, isRd, reachable⟩
      exact decode_J isRd reachable
  | U op rd imm =>
      rcases valid with ⟨rfl, isRd, aligned, low, high⟩
      exact decode_U isRd aligned low high

end Shecc.RiscV
