import Shecc.RiscV.Decode

/-!
# All formats of RISC-V

Loads, stores, jumps through a register, `auipc` and the system call join the words that
are read back. An immediate comes back as far as its format holds it: a branch drops the
lowest bit and an upper immediate the twelve lowest ones.
-/

namespace Shecc.RiscV

/-! ## Loads, stores and the rest -/

/-- The opcode and `funct3` of the loads, the jump through a register and the stores. -/
def Op.access : Op → Option (Int × Int)
  | .lb => some (0x03, 0)
  | .lh => some (0x03, 1)
  | .lw => some (0x03, 2)
  | .lbu => some (0x03, 4)
  | .lhu => some (0x03, 5)
  | .jalr => some (0x67, 0)
  | .sb => some (0x23, 0)
  | .sh => some (0x23, 1)
  | .sw => some (0x23, 2)
  | _ => none

/-- The operation stores a register. -/
def Op.isStore : Op → Bool
  | .sb | .sh | .sw => true
  | _ => false

/-- The load, store or jump with these fixed fields. -/
def findAccess (opcode funct3 : Int) : Option Op :=
  [Op.lb, .lh, .lw, .lbu, .lhu, .jalr, .sb, .sh, .sw].find? fun op =>
    op.access == some (opcode, funct3)

/-- Twelve bits, read as a signed number. -/
def signed12 (field : Int) : Int := if field < 2 ^ 11 then field else field - 2 ^ 12

/-- The immediate of a store word, sign-extended. -/
def storeImm (w : Word) : Int :=
  signed12 ((w.toNat : Int) / 2 ^ 25 * 2 ^ 5 + (w.toNat : Int) / 2 ^ 7 % 2 ^ 5)

/-- The instruction of a word of any format. -/
def decodeFull (w : Word) : Option Insn :=
  let n : Int := w.toNat
  let opcode := n % 2 ^ 7
  let rd := n / 2 ^ 7 % 2 ^ 5
  let rs1 := n / 2 ^ 15 % 2 ^ 5
  let rs2 := n / 2 ^ 20 % 2 ^ 5
  if n = 0x73 then some .ecall
  else if opcode = 0x17 then some (.U .auipc rd (upperImm w))
  else
    match findAccess opcode (n / 2 ^ 12 % 2 ^ 3) with
    | some op =>
        some (if op.isStore then .S op rs1 rs2 (storeImm w) else .I op rd rs1 (lowerImm w))
    | none => decode w

namespace Insn

/-- The operation belongs to the format and the registers are registers. -/
def OfFormat : Insn → Prop
  | R op rd rs1 rs2 => op.isa.map Prod.fst = some .R ∧ IsReg rd ∧ IsReg rs1 ∧ IsReg rs2
  | I op rd rs1 imm =>
      I op rd rs1 imm = ecall ∨
        (op.isa.map Prod.fst = some .I ∨ op.isa.map Prod.fst = some .shift ∨
          op.access.isSome = true ∧ op.isStore = false) ∧ IsReg rd ∧ IsReg rs1
  | S op rs1 rs2 _ => op.isStore = true ∧ IsReg rs1 ∧ IsReg rs2
  | B op rs1 rs2 _ => op.isa.map Prod.fst = some .B ∧ IsReg rs1 ∧ IsReg rs2
  | J op rd _ => op = .jal ∧ IsReg rd
  | U op rd _ => (op = .lui ∨ op = .auipc) ∧ IsReg rd

/-- The immediates the encoders do not reject. -/
def Accepted : Insn → Prop
  | I _ _ _ imm | S _ _ _ imm => -2048 ≤ imm ∧ imm ≤ 2047
  | B _ _ _ imm => -4096 ≤ imm ∧ imm ≤ 4095
  | _ => True

/-- A shift by a constant stays inside a word, a jump inside its reach. -/
def InReach : Insn → Prop
  | I op _ _ imm => op.isa.map Prod.fst = some .shift → 0 ≤ imm ∧ imm < 32
  | J _ _ imm => Reachable imm
  | _ => True

/-- The instruction with the bits of its immediate that the format holds. -/
def held : Insn → Insn
  | B op rs1 rs2 imm => B op rs1 rs2 (imm - imm % 2)
  | U op rd imm => U op rd (imm / 2 ^ 12 % 2 ^ 20 * 2 ^ 12)
  | insn => insn

end Insn

/-! ## The words read before stay what they were -/

theorem findOp_opcode {opcode funct3 funct7 : Int} {op : Op} {format : Format}
    (found : findOp opcode funct3 funct7 = some (op, format)) :
    opcode = 0x33 ∨ opcode = 0x13 ∨ opcode = 0x63 := by
  rcases Option.bind_eq_some_iff.mp found with ⟨op', isOp, rest⟩
  have same := List.find?_some isOp
  cases isa : op'.isa with
  | none =>
      rw [Op.matches, isa] at same
      cases same
  | some fields =>
      rcases fields with ⟨format', opcode', funct3', funct7'⟩
      rw [Op.matches, isa] at same
      simp only [Bool.and_eq_true, beq_iff_eq] at same
      rw [same.1.1]
      cases op' <;> cases isa <;> decide

/-- What is decoded without loads and stores has the opcode of something else. -/
theorem opcode_of_decode {w : Word} {insn : Insn} (decoded : decode w = some insn) :
    (w.toNat : Int) % 2 ^ 7 ∈ [0x6F, 0x37, 0x33, 0x13, 0x63] := by
  rw [decode] at decoded
  split at decoded
  · rename_i isJal
    rw [isJal]
    decide
  · split at decoded
    · rename_i isLui
      rw [isLui]
      decide
    · cases found : findOp ((w.toNat : Int) % 2 ^ 7) ((w.toNat : Int) / 2 ^ 12 % 2 ^ 3)
          ((w.toNat : Int) / 2 ^ 25) with
      | none =>
          rw [found] at decoded
          cases decoded
      | some entry =>
          rcases findOp_opcode found with isOpcode | isOpcode | isOpcode <;> rw [isOpcode] <;>
            decide

theorem findAccess_eq_none {opcode funct3 : Int} (other : opcode ∈ [0x6F, 0x37, 0x33, 0x13, 0x63]) :
    findAccess opcode funct3 = none := by
  rw [findAccess, List.find?_eq_none]
  intro op member
  have different : opcode ≠ 0x03 ∧ opcode ≠ 0x67 ∧ opcode ≠ 0x23 := by
    simp only [List.mem_cons, List.not_mem_nil, or_false] at other
    omega
  have notLoad := Ne.symm different.1
  have notJump := Ne.symm different.2.1
  have notStore := Ne.symm different.2.2
  simp only [List.mem_cons, List.not_mem_nil, or_false] at member
  rcases member with rfl | rfl | rfl | rfl | rfl | rfl | rfl | rfl | rfl <;>
    simp [Op.access, notLoad, notJump, notStore]

/-- What was decoded before is decoded to the same. -/
theorem decodeFull_of_decode {w : Word} {insn : Insn} (decoded : decode w = some insn) :
    decodeFull w = some insn := by
  have opcode := opcode_of_decode decoded
  have isNone := @findAccess_eq_none _ ((w.toNat : Int) / 2 ^ 12 % 2 ^ 3) opcode
  simp only [List.mem_cons, List.not_mem_nil, or_false] at opcode
  rw [decodeFull]
  rw [if_neg (by omega), if_neg (by omega), isNone]
  exact decoded

theorem decodeFull_encode {insn : Insn} {w : Word} (valid : insn.Valid)
    (encoded : insn.encode = some w) : decodeFull w = some insn := by
  rcases decode_encode valid with ⟨w', encoded', decoded⟩
  cases Option.some.inj (encoded.symm.trans encoded')
  exact decodeFull_of_decode decoded

/-! ## Loads and stores -/

theorem access_code {op : Op} {opcode funct3 : Int} (access : op.access = some (opcode, funct3)) :
    op.code = opcode + funct3 * 2 ^ 12 ∧ (opcode = 0x03 ∨ opcode = 0x67 ∨ opcode = 0x23) ∧
      (0 ≤ funct3 ∧ funct3 < 2 ^ 3) ∧ findAccess opcode funct3 = some op := by
  cases op <;> cases access <;> decide

theorem signed12_wrapImm {imm : Int} (low : -2048 ≤ imm) (high : imm ≤ 2047) :
    signed12 (wrapImm imm) = imm := by
  rcases wrapImm_range low high with ⟨-, -, same⟩
  rw [signed12, ← same]

/-- A word with the opcode of a load or store. -/
theorem decodeFull_access {w : Word} {op : Op} {opcode funct3 : Int}
    (access : op.access = some (opcode, funct3)) (isOpcode : (w.toNat : Int) % 2 ^ 7 = opcode)
    (isFunct3 : (w.toNat : Int) / 2 ^ 12 % 2 ^ 3 = funct3) :
    decodeFull w = some (if op.isStore then
      .S op ((w.toNat : Int) / 2 ^ 15 % 2 ^ 5) ((w.toNat : Int) / 2 ^ 20 % 2 ^ 5) (storeImm w)
    else .I op ((w.toNat : Int) / 2 ^ 7 % 2 ^ 5) ((w.toNat : Int) / 2 ^ 15 % 2 ^ 5)
      (lowerImm w)) := by
  rcases access_code access with ⟨-, known, -, found⟩
  rw [decodeFull]
  rw [if_neg (by omega), if_neg (by omega), isOpcode, isFunct3, found]

theorem decodeFull_I {op : Op} {rd rs1 imm : Int} {w : Word} (isAccess : op.access.isSome = true)
    (isLoad : op.isStore = false) (isRd : IsReg rd) (isRs1 : IsReg rs1)
    (encoded : (Insn.I op rd rs1 imm).encode = some w) :
    decodeFull w = some (.I op rd rs1 imm) := by
  rcases Option.isSome_iff_exists.mp isAccess with ⟨⟨opcode, funct3⟩, access⟩
  rcases access_code access with ⟨code, known, funct3Range, -⟩
  rcases encodeI_eq_some encoded with ⟨low, high, isWord⟩
  rcases wrapImm_range low high with ⟨fieldLow, fieldHigh, same⟩
  have opcodeRange : 0 ≤ opcode ∧ opcode < 2 ^ 7 := by omega
  have upperRange : 0 ≤ wrapImm imm % 2 ^ 5 ∧ wrapImm imm % 2 ^ 5 < 2 ^ 5 := by omega
  have highRange : 0 ≤ wrapImm imm / 2 ^ 5 ∧ wrapImm imm / 2 ^ 5 < 2 ^ 7 := by omega
  rcases fields_of_sum opcodeRange isRd funct3Range isRs1 upperRange highRange (w := w) (by
    rw [isWord, code]
    congr 1
    omega) with ⟨isOpcode, isLow, isFunct3, isMiddle, isUpper, isHigh⟩
  have field : (w.toNat : Int) / 2 ^ 20 = wrapImm imm := by omega
  have isImm : lowerImm w = imm := by
    unfold lowerImm
    rw [field]
    exact same.symm
  rw [decodeFull_access access isOpcode isFunct3, isLoad, isLow, isMiddle, isImm]
  rfl

theorem decodeFull_S {op : Op} {rs1 rs2 imm : Int} {w : Word} (isStore : op.isStore = true)
    (isRs1 : IsReg rs1) (isRs2 : IsReg rs2)
    (encoded : (Insn.S op rs1 rs2 imm).encode = some w) :
    -2048 ≤ imm ∧ imm ≤ 2047 ∧ decodeFull w = some (.S op rs1 rs2 imm) := by
  have isAccess : op.access.isSome = true := by cases op <;> cases isStore <;> rfl
  rcases Option.isSome_iff_exists.mp isAccess with ⟨⟨opcode, funct3⟩, access⟩
  rcases access_code access with ⟨code, known, funct3Range, -⟩
  change encodeS op rs1 rs2 imm = some w at encoded
  rw [encodeS] at encoded
  split at encoded
  · cases encoded
  rename_i inside
  have low : -2048 ≤ imm := by omega
  have high : imm ≤ 2047 := by omega
  have isWord := (Option.some.inj encoded).symm
  rcases wrapImm_range low high with ⟨fieldLow, fieldHigh, -⟩
  have opcodeRange : 0 ≤ opcode ∧ opcode < 2 ^ 7 := by omega
  have lowRange : 0 ≤ wrapImm imm % 2 ^ 5 ∧ wrapImm imm % 2 ^ 5 < 2 ^ 5 := by omega
  have highRange : 0 ≤ wrapImm imm / 2 ^ 5 ∧ wrapImm imm / 2 ^ 5 < 2 ^ 7 := by omega
  rcases fields_of_sum opcodeRange lowRange funct3Range isRs1 isRs2 highRange (w := w) (by
    rw [isWord, code, extractBits, extractBits]
    congr 1
    omega) with ⟨isOpcode, isLow, isFunct3, isMiddle, isUpper, isHigh⟩
  have field : (w.toNat : Int) / 2 ^ 25 * 2 ^ 5 + (w.toNat : Int) / 2 ^ 7 % 2 ^ 5 =
      wrapImm imm := by
    rw [isHigh, isLow]
    omega
  refine ⟨low, high, ?_⟩
  rw [decodeFull_access access isOpcode isFunct3, isStore, isMiddle, isUpper, storeImm, field,
    signed12_wrapImm low high]
  rfl

/-! ## What the formats hold -/

/-- A branch word does not depend on the lowest bit. -/
theorem encodeB_even (op : Op) (rs1 rs2 imm : Int) :
    (Insn.B op rs1 rs2 (imm - imm % 2)).encode = (Insn.B op rs1 rs2 imm).encode := by
  change encodeB _ _ _ _ = encodeB _ _ _ _
  have bits1 : (imm - imm % 2) / 2 ^ 1 = imm / 2 ^ 1 := by omega
  have bits5 : (imm - imm % 2) / 2 ^ 5 = imm / 2 ^ 5 := by omega
  have bits11 : (imm - imm % 2) / 2 ^ 11 = imm / 2 ^ 11 := by omega
  have sign : (imm - imm % 2 < 0) = (imm < 0) := propext (by omega)
  have range : (imm - imm % 2 > 4095 ∨ imm - imm % 2 < -4096) = (imm > 4095 ∨ imm < -4096) :=
    propext (by omega)
  simp only [encodeB, extractBits, bits1, bits5, bits11, sign, range]

theorem decodeFull_B {op : Op} {rs1 rs2 imm : Int} {w : Word}
    (format : op.isa.map Prod.fst = some .B) (isRs1 : IsReg rs1) (isRs2 : IsReg rs2)
    (encoded : (Insn.B op rs1 rs2 imm).encode = some w) :
    -4096 ≤ imm ∧ imm ≤ 4095 ∧ decodeFull w = some (.B op rs1 rs2 (imm - imm % 2)) := by
  have inside : ¬(imm > 4095 ∨ imm < -4096) := by
    intro outside
    change encodeB op rs1 rs2 imm = some w at encoded
    rw [encodeB, if_pos outside] at encoded
    cases encoded
  refine ⟨by omega, by omega, ?_⟩
  rw [← encodeB_even] at encoded
  exact decodeFull_encode ⟨format, isRs1, isRs2, by omega, by omega, by omega⟩ encoded

theorem decodeFull_U {op : Op} {rd imm : Int} {w : Word} (isUpper : op = .lui ∨ op = .auipc)
    (isRd : IsReg rd) (encoded : (Insn.U op rd imm).encode = some w) :
    decodeFull w = some (.U op rd (imm / 2 ^ 12 % 2 ^ 20 * 2 ^ 12)) := by
  have isWord : w = BitVec.ofInt 32 (op.code + rd * 2 ^ 7 + imm / 2 ^ 12 % 2 ^ 20 * 2 ^ 12) :=
    (Option.some.inj encoded).symm
  have upper : upperImm w = imm / 2 ^ 12 % 2 ^ 20 * 2 ^ 12 := by
    have regRange := isRd
    rcases regRange with ⟨low, high⟩
    rw [upperImm, isWord, BitVec.toNat_ofInt]
    rcases isUpper with rfl | rfl
    · change ((((55 : Int) + rd * 2 ^ 7 + _) % _).toNat : Int) / _ * _ = _
      omega
    · change ((((23 : Int) + rd * 2 ^ 7 + _) % _).toNat : Int) / _ * _ = _
      omega
  rcases isUpper with rfl | rfl
  · rcases @low_fields 0x37 rd (imm / 2 ^ 12 % 2 ^ 20) (by decide) isRd w isWord with
      ⟨isOpcode, isRd'⟩
    apply decodeFull_of_decode
    rw [decode]
    simp only [isOpcode, isRd', upper, if_true]
    rfl
  · rcases @low_fields 0x17 rd (imm / 2 ^ 12 % 2 ^ 20) (by decide) isRd w isWord with
      ⟨isOpcode, isRd'⟩
    rw [decodeFull]
    rw [if_neg (by omega), if_pos isOpcode, isRd', upper]

theorem decodeFull_immediate {op : Op} {rd rs1 imm : Int} {w : Word}
    (ofFormat : (Insn.I op rd rs1 imm).OfFormat)
    (shifts : op.isa.map Prod.fst = some .shift → 0 ≤ imm ∧ imm < 32)
    (encoded : (Insn.I op rd rs1 imm).encode = some w) :
    decodeFull w = some (.I op rd rs1 imm) := by
  rcases encodeI_eq_some encoded with ⟨low, high, -⟩
  rcases ofFormat with isEcall | ⟨isI | isShift | ⟨isAccess, isLoad⟩, isRd, isRs1⟩
  · cases isEcall
    cases encoded
    rfl
  · exact decodeFull_encode ⟨isRd, isRs1, .inl ⟨isI, low, high⟩⟩ encoded
  · exact decodeFull_encode ⟨isRd, isRs1, .inr ⟨isShift, shifts isShift⟩⟩ encoded
  · exact decodeFull_I isAccess isLoad isRd isRs1 encoded

/-- The encoders reject what lies outside of their ranges. -/
theorem encode_isSome_iff (insn : Insn) : insn.encode.isSome = true ↔ insn.Accepted := by
  cases insn with
  | R op rd rs1 rs2 => exact iff_of_true rfl trivial
  | J op rd imm => exact iff_of_true rfl trivial
  | U op rd imm => exact iff_of_true rfl trivial
  | I op rd rs1 imm =>
      change (encodeI op rd rs1 imm).isSome = true ↔ -2048 ≤ imm ∧ imm ≤ 2047
      rw [encodeI]
      split
      · exact iff_of_false (by simp) (by omega)
      · exact iff_of_true rfl (by omega)
  | S op rs1 rs2 imm =>
      change (encodeS op rs1 rs2 imm).isSome = true ↔ -2048 ≤ imm ∧ imm ≤ 2047
      rw [encodeS]
      split
      · exact iff_of_false (by simp) (by omega)
      · exact iff_of_true rfl (by omega)
  | B op rs1 rs2 imm =>
      change (encodeB op rs1 rs2 imm).isSome = true ↔ -4096 ≤ imm ∧ imm ≤ 4095
      rw [encodeB]
      split
      · exact iff_of_false (by simp) (by omega)
      · exact iff_of_true rfl (by omega)

/-- The word of an instruction is read back as far as the format holds the immediate. -/
theorem decodeFull_held {insn : Insn} {w : Word} (ofFormat : insn.OfFormat)
    (inReach : insn.InReach) (encoded : insn.encode = some w) :
    decodeFull w = some insn.held := by
  cases insn with
  | R op rd rs1 rs2 => exact decodeFull_encode ofFormat encoded
  | I op rd rs1 imm => exact decodeFull_immediate ofFormat inReach encoded
  | S op rs1 rs2 imm =>
      rcases ofFormat with ⟨isStore, isRs1, isRs2⟩
      exact (decodeFull_S isStore isRs1 isRs2 encoded).2.2
  | B op rs1 rs2 imm =>
      rcases ofFormat with ⟨format, isRs1, isRs2⟩
      exact (decodeFull_B format isRs1 isRs2 encoded).2.2
  | J op rd imm => exact decodeFull_encode ⟨ofFormat.1, ofFormat.2, inReach⟩ encoded
  | U op rd imm => exact decodeFull_U ofFormat.1 ofFormat.2 encoded

end Shecc.RiscV
