import Shecc.Memory.Core

/-!
# What the two back ends do with a word

The ARM and the RISC-V back end translate most operations alike. They differ
where a byte is loaded and where a value is sign extended.
-/

namespace Shecc

/-- The architecture the compiler was configured for. -/
inductive Arch where
  | arm
  | riscv
  deriving DecidableEq, Repr

/-- Load `sz` bytes: `OP_read`. ARM loads a byte unsigned, RISC-V signed. -/
def Arch.load (arch : Arch) (m : Memory) (a : Word) (sz : Int) : Word :=
  if sz = 1 then
    match arch with
    | .arm => (m a).setWidth 32
    | .riscv => (m a).signExtend 32
  else if sz = 2 then
    (m (a + 1) ++ m a).signExtend 32
  else
    m.loadWord a

/-- The truncation of `value` to `sz` bytes: `OP_trunc`. -/
def truncateWord (sz : Int) (value : Word) : Option Word :=
  if sz = 1 then some (value &&& 0xFF)
  else if sz = 2 then some (value &&& 0xFFFF)
  else if sz = 4 then some value
  else none

/-- The sign extension of `value`: `OP_sign_ext`. The size holds the source size
in its upper and the target size in its lower half. -/
def Arch.signExtend (arch : Arch) (sz : Int) (value : Word) : Word :=
  let source := sz / 2 ^ 16 % 2 ^ 16
  let shift := ((sz % 2 ^ 16 - source) * 8 % 32).toNat
  match arch with
  | .arm =>
      if source = 2 then (value.setWidth 16).signExtend 32
      else (value.setWidth 8).signExtend 32
  | .riscv =>
      if source = 2 then (value <<< shift).sshiftRight shift
      else ((value &&& 0xFF) <<< shift).sshiftRight shift

end Shecc
