import Shecc.Arm.Encode

/-!
# Decoding ARM instructions

The fields the architecture gives a word, and the operation they stand for. What the
encoders of the back end put together is taken apart into what the instruction is to do.
The conditions and operations the back end does not use are left out, and so are bytes,
half words, calls and the system.
-/

namespace Shecc.Arm

/-! ## The fields of a word -/

/-- The operations on registers and immediates, in the order of their codes. -/
inductive DataOp
  | and | eor | sub | rsb | add | adc | sbc | rsc | tst | teq | cmp | cmn | orr | mov | bic | mvn
  deriving DecidableEq

namespace DataOp

/-- All operations, by their codes. -/
def all : List DataOp :=
  [and, eor, sub, rsb, add, adc, sbc, rsc, tst, teq, cmp, cmn, orr, mov, bic, mvn]

/-- The four bits of an operation. -/
def code (op : DataOp) : Int := all.idxOf op

/-- The operation only sets the flags. -/
def isTest : DataOp → Bool
  | tst | teq | cmp | cmn => true
  | _ => false

end DataOp

/-- The second operand: a rotated byte, or a register shifted by a constant or by
another register. -/
inductive Operand
  | imm (value rotate : Int)
  | shifted (rm : Int) (shift : Shift) (amt : Int)
  | shiftedBy (rm : Int) (shift : Shift) (rs : Int)
  deriving DecidableEq

/-- What an instruction does. Blocks of registers write the base back. -/
inductive Operation
  | data (op : DataOp) (s : Bool) (rn rd : Int) (operand : Operand)
  | movw (rd imm : Int)
  | movt (rd imm : Int)
  | mul (rd rn rm : Int)
  | sdiv (rd rn rm : Int)
  | ldr (rd rn ofs : Int)
  | str (rd rn ofs : Int)
  | stmdb (rn regList : Int)
  | ldm (rn regList : Int)
  | b (ofs : Int)
  deriving DecidableEq

/-- An operation under a condition. -/
structure Decoded where
  cond : Cond
  operation : Operation
  deriving DecidableEq

/-- The condition of a code. -/
def decodeCond (code : Int) : Option Cond :=
  [Cond.eq, .ne, .cs, .cc, .ls, .ge, .lt, .gt, .le, .al].find? fun cond => cond.code == code

/-- The shift of a code. -/
def decodeShift (code : Int) : Shift :=
  if code = 0 then .logicLs
  else if code = 1 then .logicRs
  else if code = 2 then .arithRs
  else .rotatRs

/-- A register as the second operand. -/
def decodeOperand (op2 : Int) : Operand :=
  if op2 / 2 ^ 4 % 2 = 0 then
    .shifted (op2 % 2 ^ 4) (decodeShift (op2 / 2 ^ 5 % 2 ^ 2)) (op2 / 2 ^ 7)
  else .shiftedBy (op2 % 2 ^ 4) (decodeShift (op2 / 2 ^ 5 % 2 ^ 2)) (op2 / 2 ^ 8)

/-- An operation on data. The codes of the tests mean something else where the flags
are not set. -/
def decodeData (opcode rn rd : Int) (operand : Operand) : Option Operation := do
  let op ← DataOp.all[(opcode / 2 % 2 ^ 4).toNat]?
  if op.isTest && opcode % 2 == 0 then none
  else some (.data op (opcode % 2 == 1) rn rd operand)

/-- The operation of a word with these fields. -/
def decodeOperation (w : Word) (opcode rn rd op2 : Int) : Option Operation :=
  if opcode = 0x30 then some (.movw rd (rn * 2 ^ 12 + op2))
  else if opcode = 0x34 then some (.movt rd (rn * 2 ^ 12 + op2))
  else if opcode < 0x20 then
    if op2 / 2 ^ 4 % 2 = 1 ∧ op2 / 2 ^ 7 % 2 = 1 then
      if opcode = 0 ∧ op2 / 2 ^ 4 % 2 ^ 4 = 9 then some (.mul rn (op2 % 2 ^ 4) (op2 / 2 ^ 8))
      else none
    else decodeData opcode rn rd (decodeOperand op2)
  else if opcode < 0x40 then decodeData opcode rn rd (.imm (op2 % 2 ^ 8) (op2 / 2 ^ 8))
  else if opcode = 0x50 then some (.str rd rn (-op2))
  else if opcode = 0x51 then some (.ldr rd rn (-op2))
  else if opcode = 0x58 then some (.str rd rn op2)
  else if opcode = 0x59 then some (.ldr rd rn op2)
  else if opcode = 0x71 then
    if rd = 15 ∧ op2 / 2 ^ 4 % 2 ^ 4 = 1 then some (.sdiv rn (op2 % 2 ^ 4) (op2 / 2 ^ 8)) else none
  else if opcode = 0x92 then some (.stmdb rn (rd * 2 ^ 12 + op2))
  else if opcode = 0x8B then some (.ldm rn (rd * 2 ^ 12 + op2))
  else if 0xA0 ≤ opcode ∧ opcode < 0xB0 then some (.b (branchDisplacement w))
  else none

/-- The instruction of a word. -/
def decode (w : Word) : Option Decoded := do
  let n : Int := w.toNat
  let cond ← decodeCond (n / 2 ^ 28)
  let operation ← decodeOperation w (n / 2 ^ 20 % 2 ^ 8) (n / 2 ^ 16 % 2 ^ 4) (n / 2 ^ 12 % 2 ^ 4)
    (n % 2 ^ 12)
  some ⟨cond, operation⟩

/-! ## What the instructions are to do -/

/-- A register. -/
def IsReg (r : Int) : Prop := 0 ≤ r ∧ r < 16

instance (r : Int) : Decidable (IsReg r) := inferInstanceAs (Decidable (_ ∧ _))

/-- An operand of eight bits. -/
def IsByte (imm : Int) : Prop := 0 ≤ imm ∧ imm < 256

instance (imm : Int) : Decidable (IsByte imm) := inferInstanceAs (Decidable (_ ∧ _))

/-- What an instruction of the back end is to do. -/
def Insn.meaning : Insn → Option Decoded
  | andR cond rd rs rm => some ⟨cond, .data .and false rs rd (.shifted rm .logicLs 0)⟩
  | orR cond rd rs rm => some ⟨cond, .data .orr false rs rd (.shifted rm .logicLs 0)⟩
  | eorR cond rd rs rm => some ⟨cond, .data .eor false rs rd (.shifted rm .logicLs 0)⟩
  | mvnR cond rd rm => some ⟨cond, .data .mvn false 0 rd (.shifted rm .logicLs 0)⟩
  | movw cond rd imm => some ⟨cond, .movw rd (imm % 2 ^ 16)⟩
  | movt cond rd imm => some ⟨cond, .movt rd (imm / 2 ^ 16 % 2 ^ 16)⟩
  | movI cond rd imm => some ⟨cond, .data .mov false 0 rd (.imm imm 0)⟩
  | movR cond rd rs => some ⟨cond, .data .mov false 0 rd (.shifted rs .logicLs 0)⟩
  | srlAmt cond s shift rd rm amt | sllAmt cond s shift rd rm amt =>
      some ⟨cond, .data .mov (s == 1) 0 rd (.shifted rm shift amt)⟩
  | sll cond rd rm rs => some ⟨cond, .data .mov false 0 rd (.shiftedBy rm .logicLs rs)⟩
  | sra cond rd rm rs => some ⟨cond, .data .mov false 0 rd (.shiftedBy rm .arithRs rs)⟩
  | addI cond rd rs imm => some ⟨cond, .data .add false rs rd (.imm imm 0)⟩
  | addR cond rd rs ro => some ⟨cond, .data .add false rs rd (.shifted ro .logicLs 0)⟩
  | subR cond rd rs ro => some ⟨cond, .data .sub false rs rd (.shifted ro .logicLs 0)⟩
  | lw cond rd rn ofs => some ⟨cond, .ldr rd rn ofs⟩
  | sw cond rd rn ofs => some ⟨cond, .str rd rn ofs⟩
  | stmdb cond _ rn regList => some ⟨cond, .stmdb rn regList⟩
  | ldm cond _ rn regList => some ⟨cond, .ldm rn regList⟩
  | b cond ofs => some ⟨cond, .b ofs⟩
  | mul cond rd r1 r2 => some ⟨cond, .mul rd r2 r1⟩
  | div cond rd r1 r2 => some ⟨cond, .sdiv rd r2 r1⟩
  | rsbI cond rd imm rn => some ⟨cond, .data .rsb false rn rd (.imm imm 0)⟩
  | cmpR cond r1 r2 => some ⟨cond, .data .cmp true r1 0 (.shifted r2 .logicLs 0)⟩
  | cmpI cond rn imm => some ⟨cond, .data .cmp true rn 0 (.imm imm 0)⟩
  | _ => none

/-- The operands of an instruction fit its fields. -/
def Insn.Valid : Insn → Prop
  | andR _ rd rs rm | orR _ rd rs rm | eorR _ rd rs rm | addR _ rd rs rm | subR _ rd rs rm =>
      IsReg rd ∧ IsReg rs ∧ IsReg rm
  | mvnR _ rd rm | movR _ rd rm => IsReg rd ∧ IsReg rm
  | movw _ rd _ | movt _ rd _ => IsReg rd
  | movI _ rd imm => IsReg rd ∧ IsByte imm
  | srlAmt _ s _ rd rm amt | sllAmt _ s _ rd rm amt =>
      (s = 0 ∨ s = 1) ∧ IsReg rd ∧ IsReg rm ∧ 0 ≤ amt ∧ amt < 32
  | sll _ rd rm rs | sra _ rd rm rs => IsReg rd ∧ IsReg rm ∧ IsReg rs
  | addI _ rd rs imm => IsReg rd ∧ IsReg rs ∧ IsByte imm
  | lw _ rd rn ofs | sw _ rd rn ofs => IsReg rd ∧ IsReg rn ∧ -4096 < ofs ∧ ofs < 4096
  | stmdb _ w rn regList | ldm _ w rn regList => w = 1 ∧ IsReg rn ∧ 0 ≤ regList ∧ regList < 2 ^ 16
  | b _ ofs => Reachable ofs
  | mul _ rd r1 r2 | div _ rd r1 r2 => IsReg rd ∧ IsReg r1 ∧ IsReg r2
  | rsbI _ rd imm rn => IsReg rd ∧ IsByte imm ∧ IsReg rn
  | cmpR _ r1 r2 => IsReg r1 ∧ IsReg r2
  | cmpI _ rn imm => IsReg rn ∧ IsByte imm
  | _ => False

/-! ## The encoders agree with the fields -/

theorem decodeCond_code (cond : Cond) : decodeCond cond.code = some cond := by
  cases cond <;> rfl

theorem Cond.code_range (cond : Cond) : 0 ≤ cond.code ∧ cond.code < 2 ^ 4 := by
  cases cond <;> decide

theorem decodeShift_code (shift : Shift) : decodeShift shift.code = shift := by
  cases shift <;> rfl

theorem Shift.code_range (shift : Shift) : 0 ≤ shift.code ∧ shift.code < 2 ^ 2 := by
  cases shift <;> decide

/-- A word is decoded by the fields it was put together from. -/
theorem decode_armEncode {cond : Cond} {opcode rn rd op2 : Int}
    (opcodeRange : 0 ≤ opcode ∧ opcode < 2 ^ 8) (isRn : IsReg rn) (isRd : IsReg rd)
    (op2Range : 0 ≤ op2 ∧ op2 < 2 ^ 12) :
    decode (armEncode cond opcode rn rd op2) =
      (decodeOperation (armEncode cond opcode rn rd op2) opcode rn rd op2).map (⟨cond, ·⟩) := by
  have condRange := cond.code_range
  rcases isRn with ⟨rnLow, rnHigh⟩
  rcases isRd with ⟨rdLow, rdHigh⟩
  have value : ((armEncode cond opcode rn rd op2).toNat : Int) =
      cond.code * 2 ^ 28 + opcode * 2 ^ 20 + rn * 2 ^ 16 + rd * 2 ^ 12 + op2 := by
    rw [armEncode, BitVec.toNat_ofInt]
    omega
  have isCond : ((armEncode cond opcode rn rd op2).toNat : Int) / 2 ^ 28 = cond.code := by
    rw [value]
    omega
  have isOpcode : ((armEncode cond opcode rn rd op2).toNat : Int) / 2 ^ 20 % 2 ^ 8 = opcode := by
    rw [value]
    omega
  have isRn : ((armEncode cond opcode rn rd op2).toNat : Int) / 2 ^ 16 % 2 ^ 4 = rn := by
    rw [value]
    omega
  have isRd : ((armEncode cond opcode rn rd op2).toNat : Int) / 2 ^ 12 % 2 ^ 4 = rd := by
    rw [value]
    omega
  have isOp2 : ((armEncode cond opcode rn rd op2).toNat : Int) % 2 ^ 12 = op2 := by
    rw [value]
    omega
  rw [decode]
  simp only [isCond, isOpcode, isRn, isRd, isOp2, decodeCond_code, Option.bind_eq_bind,
    Option.bind_some]
  rw [Option.map_eq_bind]
  rfl

/-- The word of an instruction is decoded to what the instruction is to do. -/
def Insn.Sound (insn : Insn) : Prop :=
  ∃ w d, insn.encode = some w ∧ insn.meaning = some d ∧ decode w = some d

theorem DataOp.code_range (op : DataOp) : 0 ≤ op.code ∧ op.code < 2 ^ 4 := by
  cases op <;> decide

theorem decodeData_code {op : DataOp} {s : Int} (isFlag : s = 0 ∨ s = 1)
    (tests : op.isTest = true → s = 1) (rn rd : Int) (operand : Operand) :
    decodeData (s + op.code * 2) rn rd operand = some (.data op (s == 1) rn rd operand) := by
  rcases isFlag with rfl | rfl
  · cases op <;> first | rfl | exact absurd (tests rfl) (by decide)
  · cases op <;> rfl

/-- An operation that is not a move of half words or a test without flags. -/
theorem mov_register {cond : Cond} {op : DataOp} {s rn rd rm : Int} (isFlag : s = 0 ∨ s = 1)
    (tests : op.isTest = true → s = 1) (isRn : IsReg rn) (isRd : IsReg rd) (isRm : IsReg rm) :
    ∃ w, mov cond 0 op.code s rn rd rm = some w ∧
      decode w = some ⟨cond, .data op (s == 1) rn rd (.shifted rm .logicLs 0)⟩ := by
  rcases isRm with ⟨low, high⟩
  have codeRange := op.code_range
  have encoded : mov cond 0 op.code s rn rd rm =
      some (armEncode cond (s + op.code * 2) rn rd rm) := by
    rw [mov]
    simp only [show ¬rm > 255 by omega, if_false]
    congr 2
    · omega
    · omega
  refine ⟨_, encoded, ?_⟩
  rw [decode_armEncode (by omega) isRn isRd (by omega), decodeOperation, if_neg (by omega),
    if_neg (by omega), if_pos (by omega), if_neg (by omega), decodeData_code isFlag tests]
  have isOperand : decodeOperand rm = .shifted rm .logicLs 0 := by
    rw [decodeOperand, if_pos (by omega), show rm % 2 ^ 4 = rm by omega,
      show rm / 2 ^ 5 % 2 ^ 2 = 0 by omega, show rm / 2 ^ 7 = 0 by omega]
    rfl
  rw [isOperand]
  rfl

/-- The codes of an operation on a byte are not those of moves of half words. -/
theorem immediate_opcode {op : DataOp} {s : Int} (isFlag : s = 0 ∨ s = 1)
    (tests : op.isTest = true → s = 1) :
    s + op.code * 2 + 32 ≠ 0x30 ∧ s + op.code * 2 + 32 ≠ 0x34 := by
  rcases isFlag with rfl | rfl
  · cases op <;> first | decide | exact absurd (tests rfl) (by decide)
  · cases op <;> decide

theorem mov_byte {cond : Cond} {op : DataOp} {s rn rd imm : Int} (isFlag : s = 0 ∨ s = 1)
    (tests : op.isTest = true → s = 1) (isRn : IsReg rn) (isRd : IsReg rd) (isByte : IsByte imm) :
    ∃ w, mov cond 1 op.code s rn rd imm = some w ∧
      decode w = some ⟨cond, .data op (s == 1) rn rd (.imm imm 0)⟩ := by
  rcases isByte with ⟨low, high⟩
  have codeRange := op.code_range
  have notMove := immediate_opcode isFlag tests
  have encoded : mov cond 1 op.code s rn rd imm =
      some (armEncode cond (s + op.code * 2 + 32) rn rd imm) := by
    rw [mov]
    simp only [show ¬imm > 255 by omega, if_false]
    congr 2
    omega
  refine ⟨_, encoded, ?_⟩
  have upper : decodeData (s + op.code * 2 + 32) rn rd (.imm imm 0) =
      decodeData (s + op.code * 2) rn rd (.imm imm 0) := by
    rw [decodeData, decodeData, show (s + op.code * 2 + 32) / 2 % 2 ^ 4 =
      (s + op.code * 2) / 2 % 2 ^ 4 by omega, show (s + op.code * 2 + 32) % 2 =
        (s + op.code * 2) % 2 by omega]
  rw [decode_armEncode (by omega) isRn isRd (by omega), decodeOperation, if_neg notMove.1,
    if_neg notMove.2, if_neg (by omega), if_pos (by omega), show imm % 2 ^ 8 = imm by omega,
    show imm / 2 ^ 8 = 0 by omega, upper, decodeData_code isFlag tests]
  rfl

theorem shift_amount {cond : Cond} {s rd rm amt : Int} {shift : Shift} (isFlag : s = 0 ∨ s = 1)
    (isRd : IsReg rd) (isRm : IsReg rm) (amount : 0 ≤ amt ∧ amt < 32) :
    decode (armEncode cond (s + 26) 0 rd (rm + shift.code * 32 + amt * 128)) =
      some ⟨cond, .data .mov (s == 1) 0 rd (.shifted rm shift amt)⟩ := by
  rcases isRm with ⟨low, high⟩
  have shiftRange := shift.code_range
  have isOperand : decodeOperand (rm + shift.code * 32 + amt * 128) = .shifted rm shift amt := by
    rw [decodeOperand, if_pos (by omega),
      show (rm + shift.code * 32 + amt * 128) % 2 ^ 4 = rm by omega,
      show (rm + shift.code * 32 + amt * 128) / 2 ^ 5 % 2 ^ 2 = shift.code by omega,
      show (rm + shift.code * 32 + amt * 128) / 2 ^ 7 = amt by omega, decodeShift_code]
  have isMov : decodeData (s + 26) 0 rd (.shifted rm shift amt) =
      some (.data .mov (s == 1) 0 rd (.shifted rm shift amt)) :=
    @decodeData_code .mov s isFlag (by intro test; cases test) 0 rd _
  rw [decode_armEncode (by omega) (by decide) isRd (by omega), decodeOperation, if_neg (by omega),
    if_neg (by omega), if_pos (by omega), if_neg (by omega), isOperand, isMov]
  rfl

theorem shift_register {cond : Cond} {rd rm rs : Int} {shift : Shift} (isRd : IsReg rd)
    (isRm : IsReg rm) (isRs : IsReg rs) :
    decode (armEncode cond 26 0 rd (rm + 16 + shift.code * 32 + rs * 256)) =
      some ⟨cond, .data .mov false 0 rd (.shiftedBy rm shift rs)⟩ := by
  rcases isRm with ⟨low, high⟩
  rcases isRs with ⟨rsLow, rsHigh⟩
  have shiftRange := shift.code_range
  have isOperand : decodeOperand (rm + 16 + shift.code * 32 + rs * 256) =
      .shiftedBy rm shift rs := by
    rw [decodeOperand, if_neg (by omega),
      show (rm + 16 + shift.code * 32 + rs * 256) % 2 ^ 4 = rm by omega,
      show (rm + 16 + shift.code * 32 + rs * 256) / 2 ^ 5 % 2 ^ 2 = shift.code by omega,
      show (rm + 16 + shift.code * 32 + rs * 256) / 2 ^ 8 = rs by omega, decodeShift_code]
  rw [decode_armEncode (by decide) (by decide) isRd (by omega), decodeOperation,
    if_neg (by decide), if_neg (by decide), if_pos (by decide), if_neg (by omega), isOperand]
  rfl

/-- The sixteen bits of a move lie in two fields. -/
theorem movWord {cond : Cond} {opcode rd imm : Int} :
    armEncode cond opcode 0 rd 0 +
        BitVec.ofInt 32 (extractBits imm 0 11 0 + extractBits imm 12 15 16) =
      armEncode cond opcode (imm / 2 ^ 12 % 2 ^ 4) rd (imm % 2 ^ 12) := by
  rw [armEncode, armEncode, ← BitVec.ofInt_add, extractBits, extractBits]
  congr 1
  omega

theorem decode_movw {cond : Cond} {rd imm : Int} (isRd : IsReg rd) :
    decode (armEncode cond 48 (imm / 2 ^ 12 % 2 ^ 4) rd (imm % 2 ^ 12)) =
      some ⟨cond, .movw rd (imm % 2 ^ 16)⟩ := by
  rw [decode_armEncode (by decide) ⟨by omega, by omega⟩ isRd (by omega), decodeOperation,
    if_pos rfl, show imm / 2 ^ 12 % 2 ^ 4 * 2 ^ 12 + imm % 2 ^ 12 = imm % 2 ^ 16 by omega]
  rfl

theorem decode_movt {cond : Cond} {rd imm : Int} (isRd : IsReg rd) :
    decode (armEncode cond 52 (imm / 2 ^ 12 % 2 ^ 4) rd (imm % 2 ^ 12)) =
      some ⟨cond, .movt rd (imm % 2 ^ 16)⟩ := by
  rw [decode_armEncode (by decide) ⟨by omega, by omega⟩ isRd (by omega), decodeOperation,
    if_neg (by decide), if_pos rfl,
    show imm / 2 ^ 12 % 2 ^ 4 * 2 ^ 12 + imm % 2 ^ 12 = imm % 2 ^ 16 by omega]
  rfl

theorem decode_transfer {cond : Cond} {rn rd ofs : Int} (isRn : IsReg rn) (isRd : IsReg rd)
    (low : -4096 < ofs) (high : ofs < 4096) :
    decode (transfer cond 1 4 rn rd ofs) = some ⟨cond, .ldr rd rn ofs⟩ ∧
      decode (transfer cond 0 4 rn rd ofs) = some ⟨cond, .str rd rn ofs⟩ := by
  have size : |ofs| % 4096 = |ofs| := Int.emod_eq_of_lt (abs_nonneg ofs) (abs_lt.mpr ⟨low, high⟩)
  have sizeRange : 0 ≤ |ofs| ∧ |ofs| < 2 ^ 12 := ⟨abs_nonneg ofs, abs_lt.mpr ⟨low, high⟩⟩
  rw [transfer, transfer, size]
  by_cases negative : ofs < 0
  · rw [if_pos negative, if_pos negative, abs_of_neg negative] at *
    constructor
    · rw [decode_armEncode (by decide) isRn isRd sizeRange]
      change some _ = _
      rw [neg_neg]
    · rw [decode_armEncode (by decide) isRn isRd sizeRange]
      change some _ = _
      rw [neg_neg]
  · rw [if_neg negative, if_neg negative, abs_of_nonneg (not_lt.mp negative)] at *
    constructor
    · rw [decode_armEncode (by decide) isRn isRd sizeRange]
      rfl
    · rw [decode_armEncode (by decide) isRn isRd sizeRange]
      rfl

/-- A list of registers lies in two fields. -/
theorem blockWord {cond : Cond} {opcode rn regList : Int} :
    armEncode cond opcode rn 0 regList =
      armEncode cond opcode rn (regList / 2 ^ 12) (regList % 2 ^ 12) := by
  rw [armEncode, armEncode]
  congr 1
  omega

theorem decode_block {cond : Cond} {rn regList : Int} (isRn : IsReg rn) (low : 0 ≤ regList)
    (high : regList < 2 ^ 16) :
    decode (armEncode cond 0x92 rn 0 regList) = some ⟨cond, .stmdb rn regList⟩ ∧
      decode (armEncode cond 0x8B rn 0 regList) = some ⟨cond, .ldm rn regList⟩ := by
  have whole : regList / 2 ^ 12 * 2 ^ 12 + regList % 2 ^ 12 = regList := by omega
  rw [blockWord, blockWord]
  constructor
  · rw [decode_armEncode (by decide) isRn ⟨by omega, by omega⟩ (by omega)]
    change some _ = _
    rw [whole]
  · rw [decode_armEncode (by decide) isRn ⟨by omega, by omega⟩ (by omega)]
    change some _ = _
    rw [whole]

/-- A displacement lies in four fields. -/
theorem branchWord {cond : Cond} {field : Int} :
    armEncode cond 160 0 0 0 + BitVec.ofInt 32 field =
      armEncode cond (160 + field / 2 ^ 20) (field / 2 ^ 16 % 2 ^ 4) (field / 2 ^ 12 % 2 ^ 4)
        (field % 2 ^ 12) := by
  rw [armEncode, armEncode, ← BitVec.ofInt_add]
  congr 1
  omega

theorem decode_b {cond : Cond} {ofs : Int} (reachable : Reachable ofs) :
    decode (armEncode cond 160 0 0 0 + BitVec.ofInt 32 (branchField ofs)) =
      some ⟨cond, .b ofs⟩ := by
  have displacement := branchDisplacement_encode cond (.inl rfl) reachable
  have fieldRange : 0 ≤ branchField ofs ∧ branchField ofs < 2 ^ 24 := by
    rw [branchField]
    omega
  rw [branchWord] at displacement ⊢
  generalize branchField ofs = field at *
  rw [decode_armEncode (by omega) ⟨by omega, by omega⟩ ⟨by omega, by omega⟩ (by omega),
    decodeOperation, if_neg (by omega), if_neg (by omega), if_neg (by omega), if_neg (by omega),
    if_neg (by omega), if_neg (by omega), if_neg (by omega), if_neg (by omega), if_neg (by omega),
    if_neg (by omega), if_neg (by omega), if_pos (by omega), displacement]
  rfl

theorem decode_mul {cond : Cond} {rd r1 r2 : Int} (isRd : IsReg rd) (is1 : IsReg r1)
    (is2 : IsReg r2) : decode (armEncode cond 0 rd 0 (r1 * 256 + 144 + r2)) =
      some ⟨cond, .mul rd r2 r1⟩ := by
  rcases is1 with ⟨low1, high1⟩
  rcases is2 with ⟨low2, high2⟩
  rw [decode_armEncode (by decide) isRd (by decide) (by omega), decodeOperation,
    if_neg (by decide), if_neg (by decide), if_pos (by decide), if_pos (by omega),
    if_pos (by omega), show (r1 * 256 + 144 + r2) % 2 ^ 4 = r2 by omega,
    show (r1 * 256 + 144 + r2) / 2 ^ 8 = r1 by omega]
  rfl

theorem decode_div {cond : Cond} {rd r1 r2 : Int} (isRd : IsReg rd) (is1 : IsReg r1)
    (is2 : IsReg r2) : decode (armEncode cond 113 rd 15 (r1 * 256 + 16 + r2)) =
      some ⟨cond, .sdiv rd r2 r1⟩ := by
  rcases is1 with ⟨low1, high1⟩
  rcases is2 with ⟨low2, high2⟩
  have fields : (15 : Int) = 15 ∧ (r1 * 256 + 16 + r2) / 2 ^ 4 % 2 ^ 4 = 1 := ⟨rfl, by omega⟩
  have first : (r1 * 256 + 16 + r2) % 2 ^ 4 = r2 := by omega
  have second : (r1 * 256 + 16 + r2) / 2 ^ 8 = r1 := by omega
  rw [decode_armEncode (by decide) isRd (by decide) (by omega)]
  change Option.map _ (if (15 : Int) = 15 ∧ (r1 * 256 + 16 + r2) / 2 ^ 4 % 2 ^ 4 = 1 then
    some (Operation.sdiv rd ((r1 * 256 + 16 + r2) % 2 ^ 4) ((r1 * 256 + 16 + r2) / 2 ^ 8))
      else none) = _
  rw [if_pos fields, first, second]
  rfl

/-- The encoders put an instruction where the architecture reads it. -/
theorem Insn.sound {insn : Insn} (valid : insn.Valid) : insn.Sound := by
  cases insn with
  | andR cond rd rs rm =>
      rcases @mov_register cond .and 0 rs rd rm (.inl rfl) (by decide) valid.2.1 valid.1 valid.2.2
        with ⟨w, encoded, decoded⟩
      exact ⟨w, _, encoded, rfl, decoded⟩
  | orR cond rd rs rm =>
      rcases @mov_register cond .orr 0 rs rd rm (.inl rfl) (by decide) valid.2.1 valid.1 valid.2.2
        with ⟨w, encoded, decoded⟩
      exact ⟨w, _, encoded, rfl, decoded⟩
  | eorR cond rd rs rm =>
      rcases @mov_register cond .eor 0 rs rd rm (.inl rfl) (by decide) valid.2.1 valid.1 valid.2.2
        with ⟨w, encoded, decoded⟩
      exact ⟨w, _, encoded, rfl, decoded⟩
  | addR cond rd rs rm =>
      rcases @mov_register cond .add 0 rs rd rm (.inl rfl) (by decide) valid.2.1 valid.1 valid.2.2
        with ⟨w, encoded, decoded⟩
      exact ⟨w, _, encoded, rfl, decoded⟩
  | subR cond rd rs rm =>
      rcases @mov_register cond .sub 0 rs rd rm (.inl rfl) (by decide) valid.2.1 valid.1 valid.2.2
        with ⟨w, encoded, decoded⟩
      exact ⟨w, _, encoded, rfl, decoded⟩
  | mvnR cond rd rm =>
      rcases @mov_register cond .mvn 0 0 rd rm (.inl rfl) (by decide) (by decide) valid.1 valid.2
        with ⟨w, encoded, decoded⟩
      exact ⟨w, _, encoded, rfl, decoded⟩
  | movR cond rd rm =>
      rcases @mov_register cond .mov 0 0 rd rm (.inl rfl) (by decide) (by decide) valid.1 valid.2
        with ⟨w, encoded, decoded⟩
      exact ⟨w, _, encoded, rfl, decoded⟩
  | cmpR cond r1 r2 =>
      rcases @mov_register cond .cmp 1 r1 0 r2 (.inr rfl) (fun _ => rfl) valid.1 (by decide) valid.2
        with ⟨w, encoded, decoded⟩
      exact ⟨w, _, encoded, rfl, decoded⟩
  | movI cond rd imm =>
      rcases @mov_byte cond .mov 0 0 rd imm (.inl rfl) (by decide) (by decide) valid.1 valid.2
        with ⟨w, encoded, decoded⟩
      exact ⟨w, _, encoded, rfl, decoded⟩
  | addI cond rd rs imm =>
      rcases valid with ⟨isRd, isRs, isByte⟩
      rcases @mov_byte cond .add 0 rs rd imm (.inl rfl) (by decide) isRs isRd isByte
        with ⟨w, encoded, decoded⟩
      refine ⟨w, _, ?_, rfl, decoded⟩
      change (if imm ≥ 0 then mov cond 1 4 0 rs rd imm else mov cond 1 2 0 rs rd (-imm)) = _
      rw [if_pos isByte.1]
      exact encoded
  | rsbI cond rd imm rn =>
      rcases @mov_byte cond .rsb 0 rn rd imm (.inl rfl) (by decide) valid.2.2 valid.1 valid.2.1
        with ⟨w, encoded, decoded⟩
      exact ⟨w, _, encoded, rfl, decoded⟩
  | cmpI cond rn imm =>
      rcases @mov_byte cond .cmp 1 rn 0 imm (.inr rfl) (fun _ => rfl) valid.1 (by decide) valid.2
        with ⟨w, encoded, decoded⟩
      exact ⟨w, _, encoded, rfl, decoded⟩
  | movw cond rd imm =>
      refine ⟨_, _, rfl, rfl, ?_⟩
      rw [movWord]
      exact decode_movw valid
  | movt cond rd imm =>
      refine ⟨_, _, rfl, rfl, ?_⟩
      rw [movWord]
      exact decode_movt valid
  | srlAmt cond s shift rd rm amt =>
      exact ⟨_, _, rfl, rfl, shift_amount valid.1 valid.2.1 valid.2.2.1 valid.2.2.2⟩
  | sllAmt cond s shift rd rm amt =>
      exact ⟨_, _, rfl, rfl, shift_amount valid.1 valid.2.1 valid.2.2.1 valid.2.2.2⟩
  | sll cond rd rm rs =>
      refine ⟨_, _, rfl, rfl, ?_⟩
      have decoded := @shift_register cond rd rm rs .logicLs valid.1 valid.2.1 valid.2.2
      rwa [Shift.code, zero_mul, add_zero] at decoded
  | sra cond rd rm rs =>
      exact ⟨_, _, rfl, rfl, @shift_register cond rd rm rs .arithRs valid.1 valid.2.1 valid.2.2⟩
  | lw cond rd rn ofs =>
      exact ⟨_, _, rfl, rfl, (decode_transfer valid.2.1 valid.1 valid.2.2.1 valid.2.2.2).1⟩
  | sw cond rd rn ofs =>
      exact ⟨_, _, rfl, rfl, (decode_transfer valid.2.1 valid.1 valid.2.2.1 valid.2.2.2).2⟩
  | stmdb cond w rn regList =>
      rcases valid with ⟨rfl, isRn, low, high⟩
      exact ⟨_, _, rfl, rfl, (decode_block isRn low high).1⟩
  | ldm cond w rn regList =>
      rcases valid with ⟨rfl, isRn, low, high⟩
      exact ⟨_, _, rfl, rfl, (decode_block isRn low high).2⟩
  | b cond ofs => exact ⟨_, _, rfl, rfl, decode_b valid⟩
  | mul cond rd r1 r2 => exact ⟨_, _, rfl, rfl, decode_mul valid.1 valid.2.1 valid.2.2⟩
  | div cond rd r1 r2 => exact ⟨_, _, rfl, rfl, decode_div valid.1 valid.2.1 valid.2.2⟩
  | _ => exact valid.elim

end Shecc.Arm
