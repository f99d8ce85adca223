import Shecc.Arm.Encode
import Shecc.Codegen.Emission

/-!
# The ARM code generator

`update_elf_offset` counts the bytes of an instruction before anything is
emitted, `cfg_flatten` lays the blocks out with these counts, and `emit_ph2_ir`
and `code_generate` emit the code. A definition returns nothing where the source
aborts, gives up or follows a null pointer.
-/

namespace Shecc.Arm

open Codegen TwoPass

/-- The options and addresses the code generator reads. -/
structure Env where
  hardMulDiv : Bool
  elfCodeStart : Int
  elfDataStart : Int
  elfRodataStart : Int
  elfPltStart : Int

/-- `ALIGN_UP(val, MIN_ALIGNMENT)`. -/
def alignUp (val : Int) : Int := (val + 7) / 8 * 8

/-- `PLT_FIXUP_SIZE`. -/
def pltFixupSize : Int := 20

/-- `update_elf_offset`: the bytes counted for an instruction. -/
def updateElfOffset (hardMulDiv : Bool) (p : Program) (ir : Ph2Ir) : Option Nat :=
  match ir.op with
  | .loadConstant => some (if ir.src0 < 0 then 12 else if ir.src0 > 255 then 8 else 4)
  | .addressOf | .globalAddressOf =>
      if ir.src0 > 255 then some 12 else if ir.src0 ≥ 0 then some 4 else none
  | .assign => some (if ir.dest ≠ ir.src0 then 4 else 0)
  | .load | .globalLoad =>
      if ir.src0 > 4095 then some 16 else if ir.src0 ≥ 0 then some 4 else none
  | .store | .globalStore =>
      if ir.src1 > 4095 then some 16 else if ir.src1 ≥ 0 then some 4 else none
  | .read | .write | .jump | .loadFunc | .indirect | .add | .sub | .mul | .lshift | .rshift
  | .bitAnd | .bitOr | .bitXor | .negate | .bitNot => some 4
  | .call => do
      let func ← p.callee ir.funcName
      if func.bbs.isSome then some 4 else if p.dynlink then some 16 else none
  | .div => some (if hardMulDiv then 4 else 116)
  | .mod => some (if hardMulDiv then 12 else 116)
  | .loadDataAddress | .loadRodataAddress => some 8
  | .addressOfFunc | .eq | .neq | .gt | .lt | .geq | .leq | .logNot => some 12
  | .branch => some (if ir.isBranchDetached then 12 else 8)
  | .return_ => some 24
  | .trunc => some (if ir.src1 = 2 then 8 else 4)
  | .signExt => some 4
  | .cast => some 4
  | _ => none

/-- The last adjustment `cfg_flatten` makes: slots counted from the top of the
frame, and the frame size a return gives back. -/
def adjust (f : CodeFunc) (ir : Ph2Ir) : Ph2Ir :=
  let stackTopOfs := alignUp f.stackSize + 40
  let moved :=
    if ir.ofsBasedOnStackTop then
      match ir.op with
      | .load | .addressOf => { ir with src0 := ir.src0 + stackTopOfs }
      | .store => { ir with src1 := ir.src1 + stackTopOfs }
      | _ => ir
    else ir
  if ir.op = .return_ then { moved with src1 := f.stackSize } else moved

/-- The constants of `cfg_flatten`. -/
def flattener (hardMulDiv : Bool) (p : Program) : Flattener where
  start := if p.dynlink then 100 else 112
  mainCall := if p.dynlink then 28 else 32
  prologue := 28
  sizeOf := updateElfOffset hardMulDiv p
  adjust := adjust

/-- `cfg_flatten`. A block starts with offset zero; `__syscall` gets its own. -/
def cfgFlatten (hardMulDiv : Bool) (p : Program) : Option Layout :=
  let offsets : BlockId → Nat := fun b => if p.syscallBlock = some b then 60 else 0
  (flattener hardMulDiv p).cfgFlatten offsets p

/-- `arm_get_cond`. -/
def getCond : Opcode → Cond
  | .eq => .eq
  | .neq => .ne
  | .lt => .lt
  | .geq => .ge
  | .gt => .gt
  | .leq => .le
  | _ => .al

/-- `(1 << rn) | (1 << rm)`. -/
def regPair (rn rm : Int) : Int := ((1 <<< rn.toNat ||| 1 <<< rm.toNat : Nat) : Int)

/-- The emulated division and remainder. -/
def softDiv (isDiv : Bool) (rd rn rm : Int) : List Insn :=
  [.stmdb .al 1 sp (regPair rn rm),
   .srlAmt .al 0 .arithRs r8 rn 31,
   .addR .al rn rn r8,
   .eorR .al rn rn r8,
   .srlAmt .al 0 .arithRs r9 rm 31,
   .addR .al rm rm r9,
   .eorR .al rm rm r9,
   if isDiv then .eorR .al r10 r8 r9 else .movR .al r10 r8,
   .zero r8,
   .movI .al r9 1,
   .cmpI .al rm 0,
   .b .eq 52,
   .cmpI .al rn 0,
   .b .eq 44,
   .cmpR .al rm rn,
   .sllAmt .cc 0 .logicLs rm rm 1,
   .sllAmt .cc 0 .logicLs r9 r9 1,
   .b .cc (-12),
   .cmpR .al rn rm,
   .subR .cs rn rn rm,
   .addR .cs r8 r8 r9,
   .srlAmt .al 1 .logicRs r9 r9 1,
   .srlAmt .cc 0 .logicRs rm rm 1,
   .b .cc (-20),
   .movR .al r9 rn,
   .ldm .al 1 sp (regPair rn rm),
   .movR .al rd (if isDiv then r8 else r9),
   .cmpI .al r10 0,
   .rsbI .ne rd 0 rd]

/-- The address `OP_address_of_func` stores. -/
def funcAddress (env : Env) (p : Program) (elfOffset : BlockId → Nat) (func : Callee) :
    Option Int :=
  match func.bbs with
  | some bbs => some (env.elfCodeStart + elfOffset bbs)
  | none => if p.dynlink then some (env.elfPltStart + func.pltOffset) else none

/-- The instructions `emit_ph2_ir` emits when `size` bytes of code precede them. -/
def instructions (env : Env) (p : Program) (elfOffset : BlockId → Nat) (size : Nat)
    (ir : Ph2Ir) : Option (List Insn) :=
  let rd := ir.dest
  let rn := ir.src0
  let rm := ir.src1
  match ir.op with
  | .define =>
      let ofs := alignUp ir.src0 + 4
      some [.stmdb .al 1 sp 0x4FF0, .movw .al r8 env.elfDataStart, .movt .al r8 env.elfDataStart,
        .lw .al r12 r8 0, .movw .al r8 ofs, .movt .al r8 ofs, .subR .al sp sp r8]
  | .loadConstant =>
      if ir.src0 < 0 then
        some [.movw .al r8 (-ir.src0), .movt .al r8 (-ir.src0), .rsbI .al rd 0 r8]
      else if ir.src0 > 255 then some [.movw .al rd ir.src0, .movt .al rd ir.src0]
      else some [.movI .al rd ir.src0]
  | .addressOf | .globalAddressOf =>
      let interm := if ir.op = .addressOf then sp else r12
      if ir.src0 > 255 then
        some [.movw .al r8 ir.src0, .movt .al r8 ir.src0, .addR .al rd interm r8]
      else some [.addI .al rd interm ir.src0]
  | .assign => some [.movR .al rd rn]
  | .load | .globalLoad =>
      let interm := if ir.op = .load then sp else r12
      if ir.src0 > 4095 then
        some [.movw .al r8 ir.src0, .movt .al r8 ir.src0, .addR .al r8 interm r8, .lw .al rd r8 0]
      else some [.lw .al rd interm ir.src0]
  | .store | .globalStore =>
      let interm := if ir.op = .store then sp else r12
      if ir.src1 > 4095 then
        some [.movw .al r8 ir.src1, .movt .al r8 ir.src1, .addR .al r8 interm r8, .sw .al rn r8 0]
      else some [.sw .al rn interm ir.src1]
  | .read =>
      if ir.src1 = 1 then some [.lb .al rd rn 0]
      else if ir.src1 = 2 then some [.lh .al rd rn 0]
      else if ir.src1 = 4 then some [.lw .al rd rn 0]
      else none
  | .write =>
      if ir.dest = 1 then some [.sb .al rm rn 0]
      else if ir.dest = 2 then some [.sh .al rm rn 0]
      else if ir.dest = 4 then some [.sw .al rm rn 0]
      else none
  | .branch =>
      if ir.isBranchDetached then
        ir.elseBb.map fun elseBb =>
          [.teq rn, .b .ne 8, .b .al (elfOffset elseBb - (size + 8))]
      else ir.thenBb.map fun thenBb => [.teq rn, .b .ne (elfOffset thenBb - (size + 4))]
  | .jump => ir.nextBb.map fun nextBb => [.b .al (elfOffset nextBb - size)]
  | .call => do
      let func ← p.callee ir.funcName
      match func.bbs with
      | some bbs => some [.bl .al (elfOffset bbs - size)]
      | none =>
          if p.dynlink then
            let ofs := env.elfPltStart + func.pltOffset - (env.elfCodeStart + size)
            some [.bl .al ofs, .movw .al r8 env.elfDataStart, .movt .al r8 env.elfDataStart,
              .lw .al r12 r8 0]
          else none
  | .loadDataAddress =>
      some [.movw .al rd (ir.src0 + env.elfDataStart), .movt .al rd (ir.src0 + env.elfDataStart)]
  | .loadRodataAddress =>
      some [.movw .al rd (ir.src0 + env.elfRodataStart),
        .movt .al rd (ir.src0 + env.elfRodataStart)]
  | .addressOfFunc => do
      let func ← p.callee ir.funcName
      let ofs ← funcAddress env p elfOffset func
      some [.movw .al r8 ofs, .movt .al r8 ofs, .sw .al r8 rn 0]
  | .loadFunc => some [.movR .al r8 rn]
  | .indirect => some [.blx .al r8]
  | .return_ =>
      let ofs := alignUp ir.src1 + 4
      some [.movR .al r0 (if ir.src0 = -1 then r0 else rn), .movw .al r8 ofs, .movt .al r8 ofs,
        .addR .al sp sp r8, .ldm .al 1 sp 0x4FF0, .bx .al lr]
  | .add => some [.addR .al rd rn rm]
  | .sub => some [.subR .al rd rn rm]
  | .mul => some [.mul .al rd rn rm]
  | .div =>
      if env.hardMulDiv then some [.div .al rd rm rn] else some (softDiv true rd rn rm)
  | .mod =>
      if env.hardMulDiv then
        some [.div .al r8 rm rn, .mul .al r8 rm r8, .subR .al rd rn r8]
      else some (softDiv false rd rn rm)
  | .lshift => some [.sll .al rd rn rm]
  | .rshift => some [.sra .al rd rn rm]
  | .eq | .neq | .gt | .lt | .geq | .leq =>
      some [.cmpR .al rn rm, .zero rd, .movI (getCond ir.op) rd 1]
  | .negate => some [.rsbI .al rd 0 rn]
  | .bitNot => some [.mvnR .al rd rn]
  | .bitAnd => some [.andR .al rd rn rm]
  | .bitOr => some [.orR .al rd rn rm]
  | .bitXor => some [.eorR .al rd rn rm]
  | .logNot => some [.cmpI .al rn 0, .movI .ne rd 0, .movI .eq rd 1]
  | .trunc =>
      if rm = 1 then some [.andI .al rd rn 0xFF]
      else if rm = 2 then
        some [.sllAmt .al 0 .logicLs rd rn 16, .sllAmt .al 0 .logicRs rd rd 16]
      else if rm = 4 then some [.movR .al rd rn]
      else none
  | .signExt =>
      if rm / 2 ^ 16 % 2 ^ 16 = 2 then some [.sxth .al rd rn 0] else some [.sxtb .al rd rn 0]
  | .cast => some [.movR .al rd rn]
  | _ => none

/-- The start of a dynamically linked program up to the main wrapper. -/
def libcStart (env : Env) : List Insn :=
  let mainWrapperOffset : Int := 32 + 28
  [.movI .al r11 0, .movI .al lr 0, .popWord .al r1, .movR .al r2 sp, .pushReg .al r2,
   .pushReg .al r0, .movI .al r12 0, .pushReg .al r12,
   .movw .al r0 (env.elfCodeStart + mainWrapperOffset),
   .movt .al r0 (env.elfCodeStart + mainWrapperOffset),
   .movI .al r3 0,
   .bl .al (env.elfPltStart + pltFixupSize - (env.elfCodeStart + 44)),
   .movI .al r0 127, .movI .al r7 1, .svc,
   .stmdb .al 1 sp 0x4FF0, .movR .al r9 r0, .movR .al r10 r1]

/-- The space of the global stack. -/
def globalOfs (p : Program) : Int :=
  alignUp p.globalStackSize + if p.dynlink then 4 else 0

/-- Reserve the global stack and store its address in front of the data. -/
def globalStack (env : Env) (p : Program) : List Insn :=
  [.movw .al r8 (globalOfs p), .movt .al r8 (globalOfs p), .subR .al sp sp r8, .movR .al r12 sp,
   .movw .al r8 env.elfDataStart, .movt .al r8 env.elfDataStart, .sw .al r12 r8 0]

/-- `__syscall` of a statically linked program. -/
def syscallCode : List Insn :=
  [.lw .al r4 sp 0, .lw .al r5 sp 4, .lw .al r6 sp 8, .lw .al r7 sp 12, .movR .al r7 r0,
   .movR .al r0 r1, .movR .al r1 r2, .movR .al r2 r3, .movR .al r3 r4, .movR .al r4 r5,
   .movR .al r5 r6, .svc, .bx .al lr]

/-- The call of the global initialisation, exit and `__syscall` of a statically
linked program, behind 28 bytes. -/
def staticStart (p : Program) (elfOffset : BlockId → Nat) : List Insn :=
  [.bl .al (elfOffset p.globalBlock - 28),
   .b .al 56,
   .movw .al r8 (globalOfs p), .movt .al r8 (globalOfs p), .addR .al sp sp r8, .movR .al r0 r0,
   .movI .al r7 1, .svc] ++ syscallCode

/-- Everything in front of the global initialisation. -/
def startup (env : Env) (p : Program) (elfOffset : BlockId → Nat) : List Insn :=
  if p.dynlink then libcStart env ++ globalStack env p
  else globalStack env p ++ staticStart p elfOffset

/-- The call of `main` behind `size` bytes. -/
def mainCall (p : Program) (elfOffset : BlockId → Nat) (size : Nat) : List Insn :=
  match p.mainBb with
  | none => []
  | some mainBb =>
      if p.dynlink then
        [.movR .al r0 r9, .movR .al r1 r10, .bl .al (elfOffset mainBb - (size + 8)),
         .movw .al r8 (globalOfs p), .movt .al r8 (globalOfs p), .addR .al sp sp r8,
         .ldm .al 1 sp 0x8FF0]
      else
        [.movw .al r8 (globalOfs p), .movt .al r8 (globalOfs p), .addR .al r8 r12 r8,
         .lw .al r0 r8 0, .addI .al r1 r8 4, .bl .al (elfOffset mainBb - (size + 20)),
         .movI .al r7 1, .svc]

/-- What is emitted for a program. -/
def emitter (env : Env) (p : Program) (elfOffset : BlockId → Nat) : Emitter Insn where
  encode := Insn.encode
  instructions := instructions env p elfOffset
  startup := startup env p elfOffset
  mainCall := mainCall p elfOffset

/-- `code_generate`, without the PLT. -/
def codeGenerate (env : Env) (p : Program) (L : Layout) : Option (Image Insn) :=
  (emitter env p L.blockOffset).codeGenerate p.globals L.flatten

/-- PLT0, which calls the resolver. -/
def pltHead (elfGotStart : Int) : List Insn :=
  let addrOfGot := elfGotStart + 4 * 2
  [.pushReg .al lr, .movw .al r10 addrOfGot, .movt .al r10 addrOfGot, .movR .al lr r10,
   .lw .al pc lr 0]

/-- A PLT entry, which jumps through a slot behind the three reserved ones. -/
def pltEntry (elfGotStart : Int) (i : Nat) : List Insn :=
  let addrOfGot := elfGotStart + 4 * (i + 3)
  [.movw .al r12 addrOfGot, .movt .al r12 addrOfGot, .lw .al pc r12 0]

/-- The words of the section `.plt`: `plt_generate`. -/
def pltGenerate (elfGotStart : Int) (pltSize : Nat) : List Insn :=
  pltHead elfGotStart ++
    (List.range ((pltSize - 20 + 11) / 12)).flatMap (pltEntry elfGotStart)

end Shecc.Arm
