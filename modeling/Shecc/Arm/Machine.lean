import Shecc.Arm.Decode
import Shecc.Execution.Core
import Shecc.Memory.Core

/-!
# Executing ARM instructions

What decoded instructions do to the registers, the flags and the memory. The program
counter is not one of the registers: an instruction that names it as an operand has no
meaning here.
-/

namespace Shecc.Arm

open Execution

/-- Registers, flags and memory. -/
structure State where
  reg : Int → Word
  n : Bool
  z : Bool
  c : Bool
  v : Bool
  memory : Memory

namespace State

/-- Write a register. -/
def setReg (s : State) (r : Int) (w : Word) : State :=
  { s with reg := Function.update s.reg r w }

@[simp] theorem setReg_reg_same (s : State) (r : Int) (w : Word) : (s.setReg r w).reg r = w :=
  Function.update_self ..

theorem setReg_reg_other {s : State} {r r' : Int} {w : Word} (different : r' ≠ r) :
    (s.setReg r w).reg r' = s.reg r' :=
  Function.update_of_ne different ..

@[simp] theorem setReg_setReg_same (s : State) (r : Int) (w w' : Word) :
    (s.setReg r w).setReg r w' = s.setReg r w' := by
  rw [setReg, setReg, setReg, Function.update_idem]

@[simp] theorem setReg_memory (s : State) (r : Int) (w : Word) :
    (s.setReg r w).memory = s.memory := rfl

@[simp] theorem setReg_n (s : State) (r : Int) (w : Word) : (s.setReg r w).n = s.n := rfl
@[simp] theorem setReg_z (s : State) (r : Int) (w : Word) : (s.setReg r w).z = s.z := rfl
@[simp] theorem setReg_c (s : State) (r : Int) (w : Word) : (s.setReg r w).c = s.c := rfl
@[simp] theorem setReg_v (s : State) (r : Int) (w : Word) : (s.setReg r w).v = s.v := rfl

end State

/-- The flags meet the condition. -/
def Cond.holds : Cond → State → Bool
  | eq, s => s.z
  | ne, s => !s.z
  | cs, s => s.c
  | cc, s => !s.c
  | ls, s => !s.c || s.z
  | ge, s => s.n == s.v
  | lt, s => s.n != s.v
  | gt, s => !s.z && s.n == s.v
  | le, s => s.z || s.n != s.v
  | al, _ => true

/-! ## Operands and results -/

/-- A shift by an amount and the carry it leaves. A shift by nothing keeps the carry. -/
def Shift.apply (shift : Shift) (w : Word) (amt : Nat) (carry : Bool) : Word × Bool :=
  if amt = 0 then (w, carry)
  else
    match shift with
    | .logicLs => (w <<< amt, amt ≤ 32 && w.getLsbD (32 - amt))
    | .logicRs => (w >>> amt, w.getLsbD (amt - 1))
    | .arithRs => (w.sshiftRight amt, if amt ≤ 32 then w.getLsbD (amt - 1) else w.msb)
    | .rotatRs => (w.rotateRight amt, (w.rotateRight amt).msb)

/-- The value of the second operand, and the carry its shift leaves. The codes for a
shift by no constant mean 32, or one through the carry for a rotation. -/
def Operand.value : Operand → State → Word × Bool
  | .imm value rotate, s =>
      let w := (BitVec.ofInt 32 value).rotateRight (2 * rotate.toNat)
      (w, if rotate = 0 then s.c else w.msb)
  | .shifted rm shift amt, s =>
      if amt ≠ 0 then shift.apply (s.reg rm) amt.toNat s.c
      else
        match shift with
        | .logicLs => (s.reg rm, s.c)
        | .logicRs | .arithRs => shift.apply (s.reg rm) 32 s.c
        | .rotatRs => ((s.reg rm >>> 1) ||| (if s.c then 0x80000000#32 else 0#32),
            (s.reg rm).getLsbD 0)
  | .shiftedBy rm shift rs, s => shift.apply (s.reg rm) ((s.reg rs).toNat % 256) s.c

/-- A sum with a carry, the carry it leaves and whether it is wrong as a signed
number. -/
def addWithCarry (x y : Word) (carry : Bool) : Word × Bool × Bool :=
  let sum := x.toNat + y.toNat + carry.toNat
  let w := BitVec.ofNat 32 sum
  (w, decide (2 ^ 32 ≤ sum), decide (x.toInt + y.toInt + carry.toNat ≠ w.toInt))

/-- The result of an operation, the carry and the overflow. Where nothing is added, the
carry is that of the shift. -/
def DataOp.result (op : DataOp) (x : Word) (operand : Word × Bool) (s : State) :
    Word × Bool × Bool :=
  let y := operand.1
  match op with
  | .and | .tst => (x &&& y, operand.2, s.v)
  | .eor | .teq => (x ^^^ y, operand.2, s.v)
  | .sub | .cmp => addWithCarry x (~~~y) true
  | .rsb => addWithCarry (~~~x) y true
  | .add | .cmn => addWithCarry x y false
  | .adc => addWithCarry x y s.c
  | .sbc => addWithCarry x (~~~y) s.c
  | .rsc => addWithCarry (~~~x) y s.c
  | .orr => (x ||| y, operand.2, s.v)
  | .mov => (y, operand.2, s.v)
  | .bic => (x &&& ~~~y, operand.2, s.v)
  | .mvn => (~~~y, operand.2, s.v)

theorem addWithCarry_add (x y : Word) : (addWithCarry x y false).1 = x + y := by
  apply BitVec.eq_of_toNat_eq
  rw [addWithCarry, BitVec.toNat_ofNat, BitVec.toNat_add]
  rfl

theorem addWithCarry_sub (x y : Word) : (addWithCarry x (~~~y) true).1 = x - y := by
  apply BitVec.eq_of_toNat_eq
  have bound := y.isLt
  rw [addWithCarry, BitVec.toNat_ofNat, BitVec.toNat_not, BitVec.toNat_sub, Bool.toNat_true]
  congr 1
  omega

/-- Nothing is borrowed if nothing is missing. -/
theorem addWithCarry_sub_carry (x y : Word) :
    (addWithCarry x (~~~y) true).2.1 = decide (y.toNat ≤ x.toNat) := by
  have bound := y.isLt
  rw [addWithCarry, BitVec.toNat_not, Bool.toNat_true]
  exact decide_eq_decide.mpr (by omega)

theorem addWithCarry_rsb (x y : Word) : (addWithCarry (~~~x) y true).1 = y - x := by
  rw [← addWithCarry_sub, addWithCarry, addWithCarry, Nat.add_comm (~~~x).toNat]

/-- An immediate that is not rotated. -/
@[simp] theorem Operand.value_imm (value : Int) (s : State) :
    (Operand.imm value 0).value s = (BitVec.ofInt 32 value, s.c) := by
  rw [Operand.value, if_pos rfl]
  congr 1
  rw [BitVec.rotateRight_def]
  exact (BitVec.or_comm ..).trans (by simp)

/-- A register that is not shifted. -/
@[simp] theorem Operand.value_register (rm : Int) (s : State) :
    (Operand.shifted rm .logicLs 0).value s = (s.reg rm, s.c) := rfl

/-- The flags of a result. -/
def State.setFlags (s : State) (result : Word × Bool × Bool) : State :=
  { s with n := result.1.msb, z := result.1 == 0#32, c := result.2.1, v := result.2.2 }

/-- The flags of a comparison. -/
def State.compared (s : State) (x y : Word) : State := s.setFlags (addWithCarry x (~~~y) true)

namespace State

variable (s : State) (x y : Word)

@[simp] theorem compared_reg : (s.compared x y).reg = s.reg := rfl

@[simp] theorem compared_memory : (s.compared x y).memory = s.memory := rfl

theorem compared_c : (s.compared x y).c = decide (y.toNat ≤ x.toNat) :=
  addWithCarry_sub_carry x y

theorem compared_z : (s.compared x y).z = decide (x = y) := by
  change ((addWithCarry x (~~~y) true).1 == 0#32) = _
  rw [addWithCarry_sub, Bool.eq_iff_iff, beq_iff_eq, decide_eq_true_iff]
  exact sub_eq_zero

end State

/-! ## Blocks of registers -/

/-- The registers of a list, the lowest first. -/
def registers (regList : Int) : List Int :=
  ((List.range 16).filter fun i => regList.toNat.testBit i).map Int.ofNat

/-- Store words one behind the other. -/
def storeAll (m : Memory) (a : Word) : List Word → Memory
  | [] => m
  | w :: rest => storeAll (m.storeWord a w) (a + 4#32) rest

/-- Load registers from words one behind the other. -/
def State.loadAll (s : State) (a : Word) : List Int → State
  | [] => s
  | r :: rest => (s.setReg r (s.memory.loadWord a)).loadAll (a + 4#32) rest

/-! ## Instructions -/

/-- The registers an operand names. -/
def Operand.names : Operand → List Int
  | .imm _ _ => []
  | .shifted rm _ _ => [rm]
  | .shiftedBy rm _ rs => [rm, rs]

/-- The registers an operation names. -/
def Operation.names : Operation → List Int
  | .data _ _ rn rd operand => rn :: rd :: operand.names
  | .movw rd _ | .movt rd _ => [rd]
  | .mul rd rn rm | .sdiv rd rn rm => [rd, rn, rm]
  | .ldr rd rn _ | .str rd rn _ => [rd, rn]
  | .stmdb rn regList | .ldm rn regList => rn :: registers regList
  | .b _ => []

/-- What an operation does that goes on to the next one. -/
def Operation.effect : Operation → State → Option State
  | .data op setFlags rn rd operand, s =>
      let result := op.result (s.reg rn) (operand.value s) s
      let s := if setFlags then s.setFlags result else s
      some (if op.isTest then s else s.setReg rd result.1)
  | .movw rd imm, s => some (s.setReg rd (BitVec.ofInt 32 imm))
  | .movt rd imm, s =>
      some (s.setReg rd (BitVec.ofInt 32 (imm * 2 ^ 16) ||| (s.reg rd &&& 0xFFFF#32)))
  | .mul rd rn rm, s => some (s.setReg rd (s.reg rn * s.reg rm))
  | .sdiv rd rn rm, s => some (s.setReg rd ((s.reg rn).sdiv (s.reg rm)))
  | .ldr rd rn ofs, s => some (s.setReg rd (s.memory.loadWord (s.reg rn + BitVec.ofInt 32 ofs)))
  | .str rd rn ofs, s =>
      some { s with memory := s.memory.storeWord (s.reg rn + BitVec.ofInt 32 ofs) (s.reg rd) }
  | .stmdb rn regList, s =>
      let a := s.reg rn - BitVec.ofNat 32 (4 * (registers regList).length)
      some { s.setReg rn a with memory := storeAll s.memory a ((registers regList).map s.reg) }
  | .ldm rn regList, s =>
      let a := s.reg rn
      some ((s.setReg rn (a + BitVec.ofNat 32 (4 * (registers regList).length))).loadAll a
        (registers regList))
  | .b _, _ => none

/-- What operations do one after the other. -/
def effects (line : List Operation) (s : State) : Option State :=
  line.foldlM (fun s operation => operation.effect s) s

theorem effects_append_some {first second : List Operation} {s s' : State}
    (ends : effects first s = some s') : effects (first ++ second) s = effects second s' := by
  change List.foldlM _ _ _ = _
  rw [List.foldlM_append]
  change effects first s >>= effects second = _
  rw [ends]
  rfl

theorem effects_cons (operation : Operation) (rest : List Operation) (s : State) :
    effects (operation :: rest) s = operation.effect s >>= effects rest :=
  List.foldlM_cons

@[simp] theorem effects_nil (s : State) : effects [] s = some s := rfl

/-- The first of some operations. -/
@[simp] theorem effects_cons_some {operation : Operation} {rest : List Operation} {s s' : State}
    (effect : operation.effect s = some s') : effects (operation :: rest) s = effects rest s' := by
  rw [effects_cons, effect]
  rfl

section Effects

variable (s : State) (rd rn rm imm : Int)

@[simp] theorem effect_movw :
    (Operation.movw rd imm).effect s = some (s.setReg rd (BitVec.ofInt 32 imm)) := rfl

@[simp] theorem effect_movt :
    (Operation.movt rd imm).effect s =
      some (s.setReg rd (BitVec.ofInt 32 (imm * 2 ^ 16) ||| (s.reg rd &&& 0xFFFF#32))) := rfl

@[simp] theorem effect_ldr : (Operation.ldr rd rn imm).effect s =
    some (s.setReg rd (s.memory.loadWord (s.reg rn + BitVec.ofInt 32 imm))) := rfl

@[simp] theorem effect_str : (Operation.str rd rn imm).effect s =
    some { s with
      memory := s.memory.storeWord (s.reg rn + BitVec.ofInt 32 imm) (s.reg rd) } := rfl

@[simp] theorem effect_addR :
    (Operation.data .add false rn rd (.shifted rm .logicLs 0)).effect s =
      some (s.setReg rd (s.reg rn + s.reg rm)) :=
  congrArg (fun w => some (s.setReg rd w)) (addWithCarry_add _ _)

@[simp] theorem effect_addI :
    (Operation.data .add false rn rd (.imm imm 0)).effect s =
      some (s.setReg rd (s.reg rn + BitVec.ofInt 32 imm)) := by
  have operand := congrArg Prod.fst (Operand.value_imm imm s)
  exact congrArg (fun w => some (s.setReg rd w))
    ((addWithCarry_add _ _).trans (congrArg (s.reg rn + ·) operand))

@[simp] theorem effect_subR :
    (Operation.data .sub false rn rd (.shifted rm .logicLs 0)).effect s =
      some (s.setReg rd (s.reg rn - s.reg rm)) :=
  congrArg (fun w => some (s.setReg rd w)) (addWithCarry_sub _ _)

@[simp] theorem effect_rsbI :
    (Operation.data .rsb false rn rd (.imm imm 0)).effect s =
      some (s.setReg rd (BitVec.ofInt 32 imm - s.reg rn)) := by
  have operand := congrArg Prod.fst (Operand.value_imm imm s)
  exact congrArg (fun w => some (s.setReg rd w))
    ((addWithCarry_rsb _ _).trans (congrArg (· - s.reg rn) operand))

@[simp] theorem effect_eorR :
    (Operation.data .eor false rn rd (.shifted rm .logicLs 0)).effect s =
      some (s.setReg rd (s.reg rn ^^^ s.reg rm)) := rfl

@[simp] theorem effect_movR :
    (Operation.data .mov false rn rd (.shifted rm .logicLs 0)).effect s =
      some (s.setReg rd (s.reg rm)) := rfl

@[simp] theorem effect_movI :
    (Operation.data .mov false rn rd (.imm imm 0)).effect s =
      some (s.setReg rd (BitVec.ofInt 32 imm)) := by
  have operand := congrArg Prod.fst (Operand.value_imm imm s)
  exact congrArg (fun w => some (s.setReg rd w)) operand

@[simp] theorem effect_cmpR :
    (Operation.data .cmp true rn rd (.shifted rm .logicLs 0)).effect s =
      some (s.compared (s.reg rn) (s.reg rm)) := rfl

@[simp] theorem effect_cmpI :
    (Operation.data .cmp true rn rd (.imm imm 0)).effect s =
      some (s.compared (s.reg rn) (BitVec.ofInt 32 imm)) := by
  have operand := congrArg Prod.fst (Operand.value_imm imm s)
  exact congrArg (fun w => some (s.compared (s.reg rn) w)) operand

end Effects

/-- What an instruction does that goes on to the next one. -/
def flow (d : Decoded) (s : State) : Option State :=
  if 15 ∈ d.operation.names then none
  else if d.cond.holds s then d.operation.effect s
  else some s

/-- What an instruction at an address does, and where the next one is. -/
def exec (d : Decoded) (a : Word) (s : State) : Option (State × Word) :=
  match d.operation with
  | .b ofs => some (s, a + BitVec.ofInt 32 (if d.cond.holds s then ofs else 4))
  | _ => (flow d s).map fun s' => (s', a + 4#32)

/-- The processor. -/
def processor : Processor Decoded State where
  decode := decode
  exec := exec

theorem straight_flow : Placed.Straight processor flow := by
  rintro ⟨cond, operation⟩ a s s' flowed
  cases operation with
  | b ofs =>
      change (if cond.holds s then none else some s) = some s' at flowed
      change some (s, a + BitVec.ofInt 32 (if cond.holds s then ofs else 4)) = _
      split at flowed
      · cases flowed
      · rename_i fails
        cases flowed
        rw [if_neg fails]
        rfl
  | _ => exact congrArg (Option.map fun s' => (s', a + 4#32)) flowed

/-- What the word of an instruction is decoded to. -/
def Insn.decoded (insn : Insn) : Decoded := insn.meaning.getD ⟨.al, .b 0⟩

/-- Valid instructions have the meaning they are to have. -/
theorem means_decoded {insns : List Insn} (valid : ∀ insn ∈ insns, insn.Valid) :
    List.Forall₂ (processor.Means Insn.encode) insns (insns.map Insn.decoded) := by
  rw [List.forall₂_map_right_iff, List.forall₂_same]
  intro insn member
  rcases Insn.sound (valid insn member) with ⟨w, d, encoded, meant, decoded⟩
  refine ⟨w, encoded, ?_⟩
  rw [Insn.decoded, meant]
  exact decoded

/-- Valid instructions in a memory of their own. -/
theorem loaded_of_valid {insns : List Insn} (base : Word) (short : 4 * insns.length < 2 ^ 32)
    (valid : ∀ insn ∈ insns, insn.Valid) :
    Loaded Insn.encode (store Insn.encode base insns) base insns := by
  apply loaded_store base short
  intro insn member
  rcases Insn.sound (valid insn member) with ⟨w, d, encoded, -, -⟩
  rw [encoded]
  rfl

variable {code : List Decoded} {placed : Placed processor code} {i j : Nat} {s s' : State}

/-- A straight piece of the code without conditions. -/
theorem runs_line (line : List Operation) (here : line.map (Decoded.mk .al) <+: code.drop i)
    (noPc : ∀ operation ∈ line, 15 ∉ operation.names)
    (ends : effects line s = some s') : placed.Runs (i, s) (i + line.length, s') := by
  have length : line.length = (line.map (Decoded.mk .al)).length := (List.length_map _).symm
  rw [length]
  apply Placed.Runs.line straight_flow here
  clear here length
  induction line generalizing s with
  | nil => exact ends
  | cons operation rest inductionHypothesis =>
      rw [effects_cons, Option.bind_eq_bind, Option.bind_eq_some_iff] at ends
      rcases ends with ⟨s₁, effect, ends⟩
      have flows : flow ⟨.al, operation⟩ s = some s₁ := by
        rw [flow, if_neg (noPc operation List.mem_cons_self)]
        exact effect
      rw [List.map_cons, List.foldlM_cons, flows]
      exact inductionHypothesis (fun other member => noPc other (.tail _ member)) ends

/-- Loaded instructions that go straight on without conditions. -/
theorem reaches_line {insns : List Insn} {fetch : Word → Option Word} {base : Word}
    (loaded : Loaded Insn.encode fetch base insns) (valid : ∀ insn ∈ insns, insn.Valid)
    (line : List Operation) (meanings : insns.map Insn.decoded = line.map (Decoded.mk .al))
    (noPc : ∀ operation ∈ line, 15 ∉ operation.names) (ends : effects line s = some s') :
    processor.Reaches fetch base insns.length (s, slot base 0) (s', slot base insns.length) := by
  have ran := @runs_line _ (loaded.placed (means_decoded valid)) 0 s s' line
    ⟨[], by rw [List.append_nil, List.drop_zero, meanings]⟩ noPc ends
  have same : line.length = insns.length := by
    simpa using (congrArg List.length meanings).symm
  rwa [Placed.Runs, List.length_map, Nat.zero_add, same] at ran

/-- An instruction whose condition holds. -/
theorem runs_effect {cond : Cond} {operation : Operation}
    (here : code[i]? = some ⟨cond, operation⟩) (noPc : 15 ∉ operation.names)
    (holds : cond.holds s = true) (effect : operation.effect s = some s') :
    placed.Runs (i, s) (i + 1, s') := by
  apply Placed.Runs.step here
  rw [← slot_next]
  apply straight_flow
  rw [flow, if_neg noPc, if_pos holds]
  exact effect

/-- An instruction whose condition does not hold. -/
theorem runs_skip {cond : Cond} {operation : Operation}
    (here : code[i]? = some ⟨cond, operation⟩) (noPc : 15 ∉ operation.names)
    (fails : cond.holds s = false) : placed.Runs (i, s) (i + 1, s) := by
  apply Placed.Runs.step here
  rw [← slot_next]
  apply straight_flow
  rw [flow, if_neg noPc, fails]
  rfl

/-- A branch. -/
theorem runs_branch {cond : Cond} {ofs : Int} {taken : Bool}
    (here : code[i]? = some ⟨cond, .b ofs⟩) (condition : cond.holds s = taken)
    (leads : 4 * (i : Int) + (if taken then ofs else 4) = 4 * j) : placed.Runs (i, s) (j, s) := by
  apply Placed.Runs.step here
  change some (s, _ + BitVec.ofInt 32 (if cond.holds s then ofs else 4)) = _
  rw [condition, slot_add leads]

end Shecc.Arm
