import Shecc.RiscV.Encode
import Shecc.Codegen.Emission

/-!
# The RISC-V code generator

As on ARM, `update_elf_offset` counts the bytes of an instruction, `cfg_flatten`
lays the blocks out with these counts, and `emit_ph2_ir` and `code_generate` emit
the code. Programs are linked statically. A definition returns nothing where the
source aborts, gives up or follows a null pointer.
-/

namespace Shecc.RiscV

open Codegen TwoPass

/-- The options and addresses the code generator reads. The code starts behind
headers of whole words. -/
structure Env where
  hardMulDiv : Bool
  elfCodeStart : Int
  elfDataStart : Int
  elfRodataStart : Int
  aligned : elfCodeStart % 4 = 0
  positive : 0 ≤ elfCodeStart

/-- The immediate of an `I` or `S` instruction holds the value. -/
def fitsImm (val : Int) : Bool := -2048 ≤ val && val ≤ 2047

/-- The upper half of `src1`: the size to extend from. -/
def sourceSize (ir : Ph2Ir) : Int := ir.src1 / 2 ^ 16 % 2 ^ 16

/-- `update_elf_offset`: the bytes counted for an instruction. -/
def updateElfOffset (hardMulDiv : Bool) (ir : Ph2Ir) : Option Nat :=
  match ir.op with
  | .loadConstant => some (if fitsImm ir.src0 then 4 else 8)
  | .addressOf | .globalAddressOf => some (if fitsImm ir.src0 then 4 else 12)
  | .assign => some 4
  | .load | .globalLoad => some (if fitsImm ir.src0 then 4 else 16)
  | .store | .globalStore => some (if fitsImm ir.src1 then 4 else 16)
  | .read | .write | .jump | .call | .loadFunc | .indirect | .add | .sub | .lshift | .rshift
  | .gt | .lt | .bitAnd | .bitOr | .bitXor | .negate | .bitNot => some 4
  | .mul => some (if hardMulDiv then 4 else 52)
  | .div | .mod => some (if hardMulDiv then 4 else 108)
  | .loadDataAddress | .loadRodataAddress | .neq | .geq | .leq | .logNot => some 8
  | .addressOfFunc | .eq => some 12
  | .branch => some 20
  | .return_ => some 24
  | .trunc => some (if ir.src1 = 2 then 8 else 4)
  | .signExt => some (if sourceSize ir = 2 then 8 else 12)
  | .cast => some 4
  | _ => none

/-- The last adjustment `cfg_flatten` makes: the frame size a return gives back. -/
def adjust (f : CodeFunc) (ir : Ph2Ir) : Ph2Ir :=
  if ir.op = .return_ then { ir with src1 := f.stackSize } else ir

/-- The constants of `cfg_flatten`. -/
def flattener (hardMulDiv : Bool) : Flattener where
  start := 60
  mainCall := 24
  prologue := 16
  sizeOf := updateElfOffset hardMulDiv
  adjust := adjust

/-- `cfg_flatten`. A block starts with offset zero; `__syscall` has to be there and
gets its own. -/
def cfgFlatten (hardMulDiv : Bool) (p : Program) : Option Layout := do
  let syscall ← p.syscallBlock
  (flattener hardMulDiv).cfgFlatten (Function.update (fun _ => 0) syscall 24) p

/-- Load an absolute value into a register. -/
def loadValue (rd val : Int) : List Insn :=
  [.lui rd (rvHi val), .addi rd rd (rvLo val)]

/-- The emulated multiplication. -/
def softMul (rd rs1 rs2 : Int) : List Insn :=
  [.addi t0 zero 0, .addi t1 zero 0, .addi t3 rs1 0, .addi t4 rs2 0, .beq t3 zero 32,
   .beq t4 zero 28, .andi t1 t4 1, .beq t1 zero 8, .add t0 t0 t3, .slli t3 t3 1, .srli t4 t4 1,
   .jal zero (-28), .addi rd t0 0]

/-- The emulated division and remainder. -/
def softDiv (isMod : Bool) (rd rs1 rs2 : Int) : List Insn :=
  let interm := if isMod then t2 else t0
  let divisorMask := if isMod then zero else t1
  [.addi t2 rs1 0, .addi t3 rs2 0, .srai t0 t2 31, .add t2 t2 t0, .xor t2 t2 t0, .srai t1 t3 31,
   .add t3 t3 t1, .xor t3 t3 t1, .xor t5 t0 divisorMask, .addi t0 zero 0, .addi t1 zero 1,
   .beq t3 zero 52, .beq t2 zero 48, .beq t2 t3 20, .bltu t2 t3 16, .slli t3 t3 1, .slli t1 t1 1,
   .jal zero (-16), .bltu t2 t3 12, .sub t2 t2 t3, .add t0 t0 t1, .srli t1 t1 1, .srli t3 t3 1,
   .bne t1 zero (-20), .addi rd interm 0, .beq t5 zero 8, .sub rd zero rd]

/-- The instructions `emit_ph2_ir` emits when `size` bytes of code precede them. -/
def instructions (env : Env) (p : Program) (elfOffset : BlockId → Nat) (size : Nat)
    (ir : Ph2Ir) : Option (List Insn) :=
  let rd := ir.dest + 10
  let rs1 := ir.src0 + 10
  let rs2 := ir.src1 + 10
  match ir.op with
  | .define => some ([.sw ra sp (-4)] ++ loadValue t0 (ir.src0 + 4) ++ [.sub sp sp t0])
  | .loadConstant =>
      if fitsImm ir.src0 then some [.addi rd zero ir.src0] else some (loadValue rd ir.src0)
  | .addressOf | .globalAddressOf =>
      let interm := if ir.op = .addressOf then sp else gp
      if fitsImm ir.src0 then some [.addi rd interm ir.src0]
      else some (loadValue t0 ir.src0 ++ [.add rd interm t0])
  | .assign => some [.addi rd rs1 0]
  | .load | .globalLoad =>
      let interm := if ir.op = .load then sp else gp
      if fitsImm ir.src0 then some [.lw rd interm ir.src0]
      else some (loadValue t0 ir.src0 ++ [.add t0 interm t0, .lw rd t0 0])
  | .store | .globalStore =>
      let interm := if ir.op = .store then sp else gp
      if fitsImm ir.src1 then some [.sw rs1 interm ir.src1]
      else some (loadValue t0 ir.src1 ++ [.add t0 interm t0, .sw rs1 t0 0])
  | .read =>
      if ir.src1 = 1 then some [.lb rd rs1 0]
      else if ir.src1 = 2 then some [.lh rd rs1 0]
      else if ir.src1 = 4 then some [.lw rd rs1 0]
      else none
  | .write =>
      if ir.dest = 1 then some [.sb rs2 rs1 0]
      else if ir.dest = 2 then some [.sh rs2 rs1 0]
      else if ir.dest = 4 then some [.sw rs2 rs1 0]
      else none
  | .branch => do
      let thenBb ← ir.thenBb
      let elseBb ← ir.elseBb
      some (loadValue t0 (env.elfCodeStart + elfOffset thenBb) ++
        [.beq rs1 zero 8, .jalr zero t0 0, .jal zero (elfOffset elseBb - (size + 16))])
  | .jump => ir.nextBb.map fun nextBb => [.jal zero (elfOffset nextBb - size)]
  | .call => do
      let func ← p.callee ir.funcName
      let bbs ← func.bbs
      some [.jal ra (elfOffset bbs - size)]
  | .loadDataAddress => some (loadValue rd (env.elfDataStart + ir.src0))
  | .loadRodataAddress => some (loadValue rd (env.elfRodataStart + ir.src0))
  | .addressOfFunc => do
      let func ← p.callee ir.funcName
      let bbs ← func.bbs
      some (loadValue t0 (env.elfCodeStart + elfOffset bbs) ++ [.sw t0 rs1 0])
  | .loadFunc => some [.addi t0 rs1 0]
  | .indirect => some [.jalr ra t0 0]
  | .return_ =>
      some ([if ir.src0 = -1 then .addi zero zero 0 else .addi a0 rs1 0] ++
        loadValue t0 (ir.src1 + 4) ++ [.add sp sp t0, .lw ra sp (-4), .jalr zero ra 0])
  | .add => some [.add rd rs1 rs2]
  | .sub => some [.sub rd rs1 rs2]
  | .mul => if env.hardMulDiv then some [.mul rd rs1 rs2] else some (softMul rd rs1 rs2)
  | .div => if env.hardMulDiv then some [.div rd rs1 rs2] else some (softDiv false rd rs1 rs2)
  | .mod => if env.hardMulDiv then some [.mod rd rs1 rs2] else some (softDiv true rd rs1 rs2)
  | .lshift => some [.sll rd rs1 rs2]
  | .rshift => some [.sra rd rs1 rs2]
  | .eq => some [.sub rd rs1 rs2, .sltu rd zero rd, .xori rd rd 1]
  | .neq => some [.sub rd rs1 rs2, .sltu rd zero rd]
  | .gt => some [.slt rd rs2 rs1]
  | .geq => some [.slt rd rs1 rs2, .xori rd rd 1]
  | .lt => some [.slt rd rs1 rs2]
  | .leq => some [.slt rd rs2 rs1, .xori rd rd 1]
  | .negate => some [.sub rd zero rs1]
  | .bitNot => some [.xori rd rs1 (-1)]
  | .bitAnd => some [.and rd rs1 rs2]
  | .bitOr => some [.or rd rs1 rs2]
  | .bitXor => some [.xor rd rs1 rs2]
  | .logNot => some [.sltu rd zero rs1, .xori rd rd 1]
  | .trunc =>
      if ir.src1 = 1 then some [.andi rd rs1 0xFF]
      else if ir.src1 = 2 then some [.slli rd rs1 16, .srli rd rd 16]
      else if ir.src1 = 4 then some [.add rd rs1 zero]
      else none
  | .signExt =>
      let shiftAmount := (ir.src1 % 2 ^ 16 - sourceSize ir) * 8
      if sourceSize ir = 2 then some [.slli rd rs1 shiftAmount, .srai rd rd shiftAmount]
      else some [.andi rd rs1 0xFF, .slli rd rd shiftAmount, .srai rd rd shiftAmount]
  | .cast => some [.addi rd rs1 0]
  | _ => none

/-- `__syscall`. -/
def syscallCode : List Insn :=
  [.addi a7 a0 0, .addi a0 a1 0, .addi a1 a2 0, .addi a2 a3 0, .addi a3 a4 0, .addi a4 a5 0,
   .addi a5 a6 0, .ecall, .jalr zero ra 0]

/-- Everything in front of the global initialisation. -/
def startup (p : Program) (elfOffset : BlockId → Nat) : List Insn :=
  [.addi s0 sp 0] ++ loadValue t0 p.globalStackSize ++
    [.sub sp sp t0, .addi gp sp 0, .jal ra (elfOffset p.globalBlock - 20)] ++ syscallCode

/-- The call of `main` behind `size` bytes. -/
def mainCall (p : Program) (elfOffset : BlockId → Nat) (size : Nat) : List Insn :=
  match p.mainBb with
  | none => []
  | some mainBb =>
      [.addi t0 s0 0, .lw a0 t0 0, .addi a1 t0 4, .jal ra (elfOffset mainBb - (size + 12)),
       .addi a7 zero 93, .ecall]

/-- What is emitted for a program. -/
def emitter (env : Env) (p : Program) (elfOffset : BlockId → Nat) : Emitter Insn where
  encode := Insn.encode
  instructions := instructions env p elfOffset
  startup := startup p elfOffset
  mainCall := mainCall p elfOffset

/-- `code_generate`. -/
def codeGenerate (env : Env) (p : Program) (L : Layout) : Option (Image Insn) :=
  (emitter env p L.blockOffset).codeGenerate p.globals L.flatten

end Shecc.RiscV
