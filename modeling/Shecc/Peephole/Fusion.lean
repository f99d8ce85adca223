import Shecc.Peephole.Driver

/-!
# Instruction fusion

`insn_fusion` merges an instruction with the one that follows it. It looks at the
two instructions only, so it takes the register between them for dead. This file
proves exactly when a fusion preserves meaning: when that register is not read
later, unless the merged instruction defines it or leaves it as it was, and when
the operation does not read a loaded constant twice.
-/

namespace Shecc.Peephole

/-- `is_fusible_insn`. -/
def isFusibleInsn (ir : Ph2Ir) : Bool :=
  match ir.op with
  | .add | .sub | .mul | .div | .mod | .lshift | .rshift | .bitAnd | .bitOr | .bitXor
  | .logAnd | .logOr | .logNot | .negate | .load | .globalLoad | .loadDataAddress
  | .loadRodataAddress => true
  | _ => false

/-- One instruction in place of both: `ir` with a new opcode and operand and the
destination of `next`. -/
def replacement (ir next : Ph2Ir) (op : Opcode) (src0 : Int) : Ph2Ir :=
  { ir with op := op, src0 := src0, dest := next.dest }

/-- Arithmetic identities with zero. -/
def fuseZero (ir next : Ph2Ir) : Option (List Ph2Ir) :=
  if next.op = .add ∧ (ir.dest = next.src0 ∨ ir.dest = next.src1) then
    some [replacement ir next .assign (if ir.dest = next.src0 then next.src1 else next.src0)]
  else if next.op = .sub ∧ ir.dest = next.src1 then
    some [replacement ir next .assign next.src0]
  else if next.op = .sub ∧ ir.dest = next.src0 then
    some [replacement ir next .negate next.src1]
  else if next.op = .mul ∧ (ir.dest = next.src0 ∨ ir.dest = next.src1) then
    some [replacement ir next .loadConstant 0]
  else
    none

/-- The multiplicative identity. -/
def fuseOne (ir next : Ph2Ir) : Option (List Ph2Ir) :=
  if next.op = .mul ∧ (ir.dest = next.src0 ∨ ir.dest = next.src1) then
    some [replacement ir next .assign (if ir.dest = next.src0 then next.src1 else next.src0)]
  else
    none

/-- The identities with the constant as right operand: `and` with all ones, a
shift by zero, `or` with zero. -/
def fuseBitwise (ir next : Ph2Ir) : Option (List Ph2Ir) :=
  if (ir.src0 = -1 ∧ next.op = .bitAnd ∨
      ir.src0 = 0 ∧ (next.op = .lshift ∨ next.op = .rshift) ∨
      ir.src0 = 0 ∧ next.op = .bitOr) ∧ ir.dest = next.src1 then
    some [replacement ir next .assign next.src0]
  else
    none

/-- Multiplication by a power of two becomes a shift. -/
def fusePowerOfTwo (ir next : Ph2Ir) : Option (List Ph2Ir) :=
  if next.op = .mul ∧ ir.dest = next.src1 ∧ Word.isPowerOfTwo ir.imm then
    some [{ ir with src0 := Word.countHalvings 32 ir.imm 0 }, { next with op := .lshift }]
  else
    none

/-- `xor` with zero. -/
def fuseXor (ir next : Ph2Ir) : Option (List Ph2Ir) :=
  if ir.src0 = 0 ∧ next.op = .bitXor ∧ ir.dest = next.src1 then
    some [replacement ir next .assign next.src0]
  else
    none

/-- The multiplicative identity with the constant on the left, tried once more. -/
def fuseOneLeft (ir next : Ph2Ir) : Option (List Ph2Ir) :=
  if ir.src0 = 1 ∧ next.op = .mul ∧ ir.dest = next.src0 then
    some [replacement ir next .assign next.src1]
  else
    none

/-- The branches of `insn_fusion` on a constant and an operation that follows
it, in the order of the source. -/
def fuseConstant (ir next : Ph2Ir) : Option (List Ph2Ir) :=
  (if ir.src0 = 0 then fuseZero ir next else none).or <|
    (if ir.src0 = 1 then fuseOne ir next else none).or <|
      (fuseBitwise ir next).or <|
        (fusePowerOfTwo ir next).or <|
          (fuseXor ir next).or (fuseOneLeft ir next)

/-- `insn_fusion`. -/
def insnFusion (ir next : Ph2Ir) : Option (List Ph2Ir) :=
  if next.op = .assign ∧ isFusibleInsn ir ∧ ir.dest = next.src0 then
    some [{ ir with dest := next.dest }]
  else if ir.op = .loadConstant then
    fuseConstant ir next
  else
    none

/-! ## What a fusion is -/

/-- The value of a copy or a negation. -/
def moved (op : Opcode) (x : Word) : Word :=
  if op = .negate then -x else x

/-- The kinds of fusion: a result computed straight into the target of a move, an
operation of which a constant is the neutral operand on the right or the left, a
product with zero, and a product with a power of two. -/
inductive Fusion (ir next : Ph2Ir) : List Ph2Ir → Prop where
  | move (isAssign : next.op = .assign) (fusible : isFusibleInsn ir = true)
      (same : next.src0 = ir.dest) : Fusion ir next [{ ir with dest := next.dest }]
  | right {op : Opcode} (isConstant : ir.op = .loadConstant)
      (kind : op = .assign ∨ op = .negate) (second : next.src1 = ir.dest)
      (identity : ∀ x, next.op.binary x ir.imm = some (moved op x))
      (notZero : next.op ≠ .mul ∨ ir.imm ≠ 0) :
      Fusion ir next [replacement ir next op next.src0]
  | left {op : Opcode} (isConstant : ir.op = .loadConstant)
      (kind : op = .assign ∨ op = .negate) (first : next.src0 = ir.dest)
      (identity : ∀ x, next.op.binary ir.imm x = some (moved op x))
      (notZero : next.op ≠ .mul ∨ ir.imm ≠ 0) :
      Fusion ir next [replacement ir next op next.src1]
  | absorb (isConstant : ir.op = .loadConstant) (isMul : next.op = .mul) (zero : ir.imm = 0)
      (reads : next.src0 = ir.dest ∨ next.src1 = ir.dest) :
      Fusion ir next [replacement ir next .loadConstant 0]
  | shift {n : Nat} (isConstant : ir.op = .loadConstant) (isMul : next.op = .mul)
      (small : n < 31) (power : ir.imm = Word.pow2 n)
      (second : next.src1 = ir.dest) :
      Fusion ir next [{ ir with src0 := n }, { next with op := .lshift }]

section Cases

variable {ir next : Ph2Ir} {left : List Ph2Ir} (isConstant : ir.op = .loadConstant)

include isConstant

theorem fuseZero_fusion (zero : ir.imm = 0) (fused : fuseZero ir next = some left) :
    Fusion ir next left := by
  unfold fuseZero at fused
  split_ifs at fused with add first subRight subLeft mul
  · obtain rfl := Option.some.inj fused
    refine .left isConstant (Or.inl rfl) first.symm (fun x => ?_) (Or.inl (by simp [add.1]))
    simp [add.1, zero, Opcode.binary, moved]
  · obtain rfl := Option.some.inj fused
    refine .right isConstant (Or.inl rfl) (add.2.resolve_left first).symm (fun x => ?_)
      (Or.inl (by simp [add.1]))
    simp [add.1, zero, Opcode.binary, moved]
  · obtain rfl := Option.some.inj fused
    refine .right isConstant (Or.inl rfl) subRight.2.symm (fun x => ?_)
      (Or.inl (by simp [subRight.1]))
    simp [subRight.1, zero, Opcode.binary, moved]
  · obtain rfl := Option.some.inj fused
    refine .left isConstant (Or.inr rfl) subLeft.2.symm (fun x => ?_)
      (Or.inl (by simp [subLeft.1]))
    simp [subLeft.1, zero, Opcode.binary, moved]
  · obtain rfl := Option.some.inj fused
    exact .absorb isConstant mul.1 zero (mul.2.imp Eq.symm Eq.symm)

theorem one_left (one : ir.imm = 1) (isMul : next.op = .mul) (first : ir.dest = next.src0) :
    Fusion ir next [replacement ir next .assign next.src1] := by
  refine .left isConstant (Or.inl rfl) first.symm (fun x => ?_) (Or.inr (by simp [one]))
  simp [isMul, one, Opcode.binary, moved]

theorem fuseOne_fusion (one : ir.imm = 1) (fused : fuseOne ir next = some left) :
    Fusion ir next left := by
  unfold fuseOne at fused
  split_ifs at fused with mul first
  · obtain rfl := Option.some.inj fused
    exact one_left isConstant one mul.1 first
  · obtain rfl := Option.some.inj fused
    refine .right isConstant (Or.inl rfl) (mul.2.resolve_left first).symm (fun x => ?_)
      (Or.inr (by simp [one]))
    simp [mul.1, one, Opcode.binary, moved]

theorem fuseBitwise_fusion (fused : fuseBitwise ir next = some left) : Fusion ir next left := by
  unfold fuseBitwise at fused
  split_ifs at fused with matched
  obtain rfl := Option.some.inj fused
  obtain ⟨⟨allOnes, isAnd⟩ | ⟨zero, isLshift | isRshift⟩ | ⟨zero, isOr⟩, second⟩ := matched
  · have mask : ir.imm = BitVec.allOnes 32 := by
      rw [Ph2Ir.imm, allOnes]
      decide
    refine .right isConstant (Or.inl rfl) second.symm (fun x => ?_) (Or.inl (by simp [isAnd]))
    rw [isAnd, mask, Opcode.binary, BitVec.and_allOnes]
    rfl
  · refine .right isConstant (Or.inl rfl) second.symm (fun x => ?_) (Or.inl (by simp [isLshift]))
    simp [isLshift, Ph2Ir.imm, zero, Opcode.binary, moved]
  · refine .right isConstant (Or.inl rfl) second.symm (fun x => ?_) (Or.inl (by simp [isRshift]))
    simp [isRshift, Ph2Ir.imm, zero, Opcode.binary, moved]
  · refine .right isConstant (Or.inl rfl) second.symm (fun x => ?_) (Or.inl (by simp [isOr]))
    simp [isOr, Ph2Ir.imm, zero, Opcode.binary, moved]

theorem fusePowerOfTwo_fusion (fused : fusePowerOfTwo ir next = some left) :
    Fusion ir next left := by
  unfold fusePowerOfTwo at fused
  split_ifs at fused with matched
  obtain ⟨isMul, second, accepted⟩ := matched
  obtain ⟨n, small, power⟩ := (Word.isPowerOfTwo_iff ir.imm).mp accepted
  rw [power, Word.countHalvings_pow2 small (by omega), Nat.zero_add] at fused
  obtain rfl := Option.some.inj fused
  exact .shift isConstant isMul small power second.symm

theorem fuseXor_fusion (fused : fuseXor ir next = some left) : Fusion ir next left := by
  unfold fuseXor at fused
  split_ifs at fused with matched
  obtain ⟨zero, isXor, second⟩ := matched
  obtain rfl := Option.some.inj fused
  refine .right isConstant (Or.inl rfl) second.symm (fun x => ?_) (Or.inl (by simp [isXor]))
  simp [isXor, Ph2Ir.imm, zero, Opcode.binary, moved]

theorem fuseConstant_fusion (fused : fuseConstant ir next = some left) :
    Fusion ir next left := by
  have imm {k : Int} (value : ir.src0 = k) : ir.imm = BitVec.ofInt 32 k := by
    rw [Ph2Ir.imm, value]
  simp only [fuseConstant, Option.or_eq_some_iff] at fused
  rcases fused with fused | ⟨-, fused | ⟨-, fused | ⟨-, fused | ⟨-, fused | ⟨-, fused⟩⟩⟩⟩⟩
  · split_ifs at fused with zero
    exact fuseZero_fusion isConstant (imm zero) fused
  · split_ifs at fused with one
    exact fuseOne_fusion isConstant (imm one) fused
  · exact fuseBitwise_fusion isConstant fused
  · exact fusePowerOfTwo_fusion isConstant fused
  · exact fuseXor_fusion isConstant fused
  · unfold fuseOneLeft at fused
    split_ifs at fused with matched
    obtain ⟨one, isMul, first⟩ := matched
    obtain rfl := Option.some.inj fused
    exact one_left isConstant (imm one) isMul first

end Cases

theorem insnFusion_fusion {ir next : Ph2Ir} {left : List Ph2Ir}
    (fused : insnFusion ir next = some left) : Fusion ir next left := by
  unfold insnFusion at fused
  split_ifs at fused with move isConstant
  · obtain rfl := Option.some.inj fused
    exact .move move.1 move.2.1 move.2.2.symm
  · exact fuseConstant_fusion isConstant fused

/-! ## When a fusion preserves meaning -/

/-- The instruction leaves its destination as it was: `x & x` or `x | x` on the
register itself. -/
def LeavesDest (ir : Ph2Ir) : Prop :=
  (ir.op = .bitAnd ∨ ir.op = .bitOr) ∧ ir.src0 = ir.dest ∧ ir.src1 = ir.dest

/-- The condition of a fusion: the register between the two instructions is
redefined by the second, dead afterwards or left as it was, and a constant is not
both operands of the operation, unless it is the zero of a product or the result
is dead. -/
structure FusionSafe (P : Platform) (ir next : Ph2Ir) (rest : List Ph2Ir) : Prop where
  intermediate : ir.dest = next.dest ∨ P.live rest ir.dest = false ∨ LeavesDest ir
  operand : ir.op = .loadConstant → (next.op = .mul ∧ ir.imm = 0) ∨
    ¬(next.src0 = ir.dest ∧ next.src1 = ir.dest) ∨ P.live rest next.dest = false

section Values

variable {P : Platform} {rest : List Ph2Ir} {r d : Int} {a a' b b' : Machine → Word}

/-- The values of a fusion that does not keep the loaded constant. -/
theorem values_iff {claim : Prop} (second : (∀ s, s.outcome = none → b s = b' s) ↔ claim)
    (first : ∃ s : Machine, s.outcome = none ∧ a s ≠ a' s) :
    (∀ s, s.outcome = none → (P.live rest d = true → b s = b' s) ∧
        (r ≠ d → P.live rest r = true → a s = a' s)) ↔
      (P.live rest d = true → claim) ∧ (r ≠ d → P.live rest r = false) := by
  constructor
  · intro values
    constructor
    · intro isLive
      exact second.mp fun s running => (values s running).1 isLive
    · intro different
      obtain ⟨s, running, unequal⟩ := first
      by_contra isLive
      exact unequal ((values s running).2 different (by simpa using isLive))
  · rintro ⟨holds, dead⟩ s running
    constructor
    · intro isLive
      exact second.mpr (holds isLive) s running
    · intro different isLive
      rw [dead different] at isLive
      cases isLive

end Values

variable {P : Platform} {ir next : Ph2Ir} {rest left : List Ph2Ir}

theorem givesValue_of_isFusibleInsn (fusible : isFusibleInsn ir = true) :
    ir.op.givesValue = true := by
  rcases ir with ⟨op⟩
  cases op <;> first | rfl | cases fusible

theorem value_of_binary {s : Machine} {w : Word}
    (value : ir.op.binary (s.reg ir.src0) (s.reg ir.src1) = some w) : P.value s ir = w := by
  have isBinary := Opcode.isBinary_of_binary_eq_some value
  rcases ir with ⟨op, src0, src1⟩
  unfold Platform.value
  cases op <;> cases isBinary <;> simp only [Opcode.isBinary, if_true] <;> rw [value] <;> rfl

theorem value_moved {op : Opcode} (kind : op = .assign ∨ op = .negate) (opEq : ir.op = op)
    (s : Machine) : P.value s ir = moved op (s.reg ir.src0) := by
  rcases kind with rfl | rfl
  · rw [Platform.value, opEq]
    rfl
  · rw [Platform.value, opEq]
    rfl

theorem moved_injective {op : Opcode} {x y : Word} (same : moved op x = moved op y) : x = y := by
  unfold moved at same
  split at same
  · exact neg_injective same
  · exact same

/-- The condition of a fusion whose first instruction loads a constant. -/
theorem fusionSafe_iff_of_constant (isConstant : ir.op = .loadConstant) :
    FusionSafe P ir next rest ↔
      (P.live rest next.dest = true → (next.op = .mul ∧ ir.imm = 0) ∨
        ¬(next.src0 = ir.dest ∧ next.src1 = ir.dest)) ∧
      (ir.dest ≠ next.dest → P.live rest ir.dest = false) := by
  constructor
  · rintro ⟨intermediate, operand⟩
    constructor
    · intro isLive
      rcases operand isConstant with absorbs | single | dead
      · exact Or.inl absorbs
      · exact Or.inr single
      · rw [dead] at isLive
        cases isLive
    · intro different
      rcases intermediate with same | dead | ⟨isAnd | isOr, -⟩
      · exact absurd same different
      · exact dead
      · rw [isConstant] at isAnd
        cases isAnd
      · rw [isConstant] at isOr
        cases isOr
  · rintro ⟨operand, intermediate⟩
    constructor
    · by_cases same : ir.dest = next.dest
      · exact Or.inl same
      · exact Or.inr (Or.inl (intermediate same))
    · intro _
      by_cases isLive : P.live rest next.dest = true
      · rcases operand isLive with absorbs | single
        · exact Or.inl absorbs
        · exact Or.inr (Or.inl single)
      · exact Or.inr (Or.inr (by simpa using isLive))

/-- Loading a constant and then computing a value from it. -/
theorem run_constant (isConstant : ir.op = .loadConstant) (gives : next.op.givesValue = true)
    {s : Machine} (running : s.outcome = none) {w : Word}
    (value : P.value (s.setReg ir.dest ir.imm) next = w) :
    P.run [ir, next] s = (s.setReg ir.dest ir.imm).setReg next.dest w := by
  have loads : P.value s ir = ir.imm := by rw [Platform.value, isConstant]
  have givesConstant : ir.op.givesValue = true := by
    rw [isConstant]
    rfl
  have next_running : (s.setReg ir.dest ir.imm).outcome = none := running
  rw [Platform.run_cons, Platform.run_cons, Platform.run_nil,
    Platform.step_of_givesValue running givesConstant, loads,
    Platform.step_of_givesValue next_running gives, value]

/-- One instruction in place of two keeps the register between them. -/
theorem run_single {ir' : Ph2Ir} (gives : ir'.op.givesValue = true) {s : Machine}
    (running : s.outcome = none) (r : Int) :
    P.run [ir'] s = (s.setReg r (s.reg r)).setReg ir'.dest (P.value s ir') := by
  rw [Platform.run_cons, Platform.run_nil, Platform.step_of_givesValue running gives,
    Machine.setReg_self]

theorem add_one_ne (w : Word) : w ≠ w + 1 := by
  simp

/-- The operation has a neutral constant: the other operand `o` is copied or
negated. -/
theorem identity_preserves_iff {op : Opcode} {o : Int} (isConstant : ir.op = .loadConstant)
    (kind : op = .assign ∨ op = .negate) (isBinary : next.op.isBinary = true)
    (value : ∀ s : Machine, s.reg ir.dest = ir.imm → P.value s next = moved op (s.reg o))
    (both : next.src0 = ir.dest ∧ next.src1 = ir.dest ↔ o = ir.dest)
    (notZero : next.op ≠ .mul ∨ ir.imm ≠ 0) :
    Preserves P (ir :: next :: rest) ⟨2, [replacement ir next op o]⟩ ↔
      FusionSafe P ir next rest := by
  have gives : next.op.givesValue = true := by
    revert isBinary
    cases next.op <;> simp [Opcode.isBinary, Opcode.givesValue]
  have replaces : (replacement ir next op o).op.givesValue = true := by
    rcases kind with rfl | rfl <;> rfl
  rw [preserves_iff_values
    (fun s running => run_constant isConstant gives running (value _ (Machine.setReg_same _ _ _)))
    (fun s running => run_single replaces running ir.dest),
    fusionSafe_iff_of_constant isConstant]
  apply values_iff
  · have notAbsorbing : ¬(next.op = .mul ∧ ir.imm = 0) := by
      rintro ⟨isMul, zero⟩
      rcases notZero with notMul | nonzero
      · exact notMul isMul
      · exact nonzero zero
    rw [or_iff_right notAbsorbing, both]
    constructor
    · intro same isDest
      have unequal := same (machineWith fun _ => ir.imm + 1) rfl
      rw [isDest, Machine.setReg_same, value_moved kind rfl] at unequal
      exact add_one_ne ir.imm (moved_injective unequal)
    · intro other s _
      rw [Machine.setReg_ne _ _ other, value_moved kind rfl]
      rfl
  · exact ⟨machineWith fun _ => ir.imm + 1, rfl, add_one_ne ir.imm⟩

/-- A product with zero is zero. -/
theorem absorb_preserves_iff (isConstant : ir.op = .loadConstant) (isMul : next.op = .mul)
    (zero : ir.imm = 0) (reads : next.src0 = ir.dest ∨ next.src1 = ir.dest) :
    Preserves P (ir :: next :: rest) ⟨2, [replacement ir next .loadConstant 0]⟩ ↔
      FusionSafe P ir next rest := by
  have gives : next.op.givesValue = true := by
    rw [isMul]
    rfl
  have product (s : Machine) : P.value (s.setReg ir.dest ir.imm) next = 0 := by
    apply value_of_binary
    rw [isMul, zero]
    rcases reads with first | second
    · rw [first, Machine.setReg_same, Opcode.binary, zero_mul]
    · rw [second, Machine.setReg_same, Opcode.binary, mul_zero]
  rw [preserves_iff_values
    (fun s running => run_constant isConstant gives running (product s))
    (fun s running => @run_single P (replacement ir next .loadConstant 0) rfl s running ir.dest),
    fusionSafe_iff_of_constant isConstant]
  apply values_iff
  · constructor
    · intro _
      exact Or.inl ⟨isMul, zero⟩
    · intro _ s _
      rfl
  · exact ⟨machineWith fun _ => ir.imm + 1, rfl, add_one_ne ir.imm⟩

/-- Loading `n` for `2 ^ n` is a different constant, and shifting it by itself is
not the square. -/
theorem pow2_ne_exponent {n : Nat} (small : n < 31) :
    Word.pow2 n ≠ BitVec.ofNat 32 n ∧
      Word.pow2 n * Word.pow2 n ≠ BitVec.ofNat 32 n <<< n := by
  interval_cases n <;> decide

/-- A product with a power of two becomes a shift. -/
theorem shift_preserves_iff {n : Nat} (isConstant : ir.op = .loadConstant)
    (isMul : next.op = .mul) (small : n < 31) (power : ir.imm = Word.pow2 n)
    (second : next.src1 = ir.dest) :
    Preserves P (ir :: next :: rest) ⟨2, [{ ir with src0 := n }, { next with op := .lshift }]⟩ ↔
      FusionSafe P ir next rest := by
  have exponent : ({ ir with src0 := n } : Ph2Ir).imm = BitVec.ofNat 32 n := by
    rw [Ph2Ir.imm, BitVec.ofInt_natCast]
  have product (s : Machine) : P.value (s.setReg ir.dest ir.imm) next =
      (s.setReg ir.dest ir.imm).reg next.src0 * Word.pow2 n := by
    apply value_of_binary
    rw [isMul, second, Machine.setReg_same, power]
    rfl
  have shifted (s : Machine) :
      P.value (s.setReg ir.dest (BitVec.ofNat 32 n)) { next with op := .lshift } =
        (s.setReg ir.dest (BitVec.ofNat 32 n)).reg next.src0 <<< n := by
    apply value_of_binary
    have amount : (BitVec.ofNat 32 n).toNat = n := by
      rw [BitVec.toNat_ofNat, Nat.mod_eq_of_lt (by omega)]
    simp only [second, Machine.setReg_same, Opcode.binary, amount]
    rw [if_pos (by omega)]
  have after {s : Machine} (running : s.outcome = none) :
      P.run [{ ir with src0 := n }, { next with op := .lshift }] s =
        (s.setReg ir.dest (BitVec.ofNat 32 n)).setReg next.dest
          ((s.setReg ir.dest (BitVec.ofNat 32 n)).reg next.src0 <<< n) := by
    rw [← exponent] at shifted ⊢
    exact @run_constant P { ir with src0 := n } { next with op := .lshift } isConstant rfl s
      running _ (shifted s)
  have gives : next.op.givesValue = true := by
    rw [isMul]
    rfl
  rw [preserves_iff_values
    (fun s running => run_constant isConstant gives running (product s))
    (fun s running => after running), fusionSafe_iff_of_constant isConstant]
  obtain ⟨differs, square⟩ := pow2_ne_exponent small
  apply values_iff
  · have nonzero : ir.imm ≠ 0 := by
      rw [power]
      exact Word.pow2_ne_zero small
    rw [or_iff_right (fun absorbs => nonzero absorbs.2)]
    constructor
    · rintro same ⟨first, -⟩
      have unequal := same (machineWith fun _ => 0) rfl
      rw [first, Machine.setReg_same, Machine.setReg_same, power] at unequal
      exact square unequal
    · intro other s _
      have notFirst : next.src0 ≠ ir.dest := fun first => other ⟨first, second⟩
      rw [Machine.setReg_ne _ _ notFirst, Machine.setReg_ne _ _ notFirst, Word.mul_pow2]
  · refine ⟨machineWith fun _ => 0, rfl, ?_⟩
    rw [power]
    exact differs

/-- An operator that changes its first operand, its second operand, and a common
operand; only `and` and `or` keep the last. -/
theorem operator_changes {op : Opcode} (isBinary : op.isBinary = true) :
    (∃ y w, op.binary 2 y = some w ∧ w ≠ 2) ∧ (∃ y w, op.binary y 2 = some w ∧ w ≠ 2) ∧
      (op = .bitAnd ∨ op = .bitOr ∨ ∃ w, op.binary 2 2 = some w ∧ w ≠ 2) := by
  cases op <;> cases isBinary
  case bitAnd => exact ⟨⟨0, 0, rfl, by decide⟩, ⟨0, 0, rfl, by decide⟩, Or.inl rfl⟩
  case bitOr => exact ⟨⟨3, 3, rfl, by decide⟩, ⟨3, 3, rfl, by decide⟩, Or.inr (Or.inl rfl)⟩
  all_goals
    exact ⟨⟨2, _, rfl, by decide⟩, ⟨2, _, rfl, by decide⟩, Or.inr (Or.inr ⟨_, rfl, by decide⟩)⟩

/-- A value that does not read its destination differs from it somewhere. -/
theorem dest_read_of_leaves (gives : ir.op.givesValue = true)
    (leaves : ∀ s : Machine, s.outcome = none → P.value s ir = s.reg ir.dest) :
    ir.dest ∈ P.reads ir := by
  by_contra unread
  have agree : P.Agree [ir] (machineWith fun _ => 0)
      ((machineWith fun _ => 0).setReg ir.dest (0 + 1)) := by
    constructor <;> try rfl
    intro _ r isLive
    rw [Machine.setReg_ne]
    rintro rfl
    rw [Platform.live, Platform.live, Bool.and_false, Bool.or_false,
      List.contains_iff_mem] at isLive
    exact unread isLive
  have same := agree.value_eq rfl gives
  rw [leaves _ rfl, leaves _ rfl, Machine.setReg_same] at same
  exact add_one_ne _ same

/-- A fusible instruction leaves its destination as it was in every state exactly
when it is `x & x` or `x | x`. -/
theorem leaves_iff (fusible : isFusibleInsn ir = true) :
    (∀ s : Machine, s.outcome = none → P.value s ir = s.reg ir.dest) ↔ LeavesDest ir := by
  constructor
  · intro leaves
    have isRead := dest_read_of_leaves (givesValue_of_isFusibleInsn fusible) leaves
    have differs {reg : Int → Word} {w : Word}
        (value : ir.op.binary (reg ir.src0) (reg ir.src1) = some w) : w = reg ir.dest := by
      have computed : P.value (machineWith reg) ir = w := value_of_binary value
      exact computed.symm.trans (leaves (machineWith reg) rfl)
    by_cases isBinary : ir.op.isBinary = true
    · obtain ⟨⟨y, w, firstEq, first⟩, ⟨y', w', secondEq, second⟩, common⟩ :=
        operator_changes isBinary
      by_cases isFirst : ir.src0 = ir.dest
      · by_cases isSecond : ir.src1 = ir.dest
        · rcases common with isAnd | isOr | ⟨u, commonEq, changes⟩
          · exact ⟨Or.inl isAnd, isFirst, isSecond⟩
          · exact ⟨Or.inr isOr, isFirst, isSecond⟩
          · exact absurd (@differs (fun _ => 2) u commonEq) changes
        · refine absurd (@differs (fun r => if r = ir.dest then 2 else y) w ?_) ?_
          · rw [if_pos isFirst, if_neg isSecond]
            exact firstEq
          · rw [if_pos rfl]
            exact first
      · by_cases isSecond : ir.src1 = ir.dest
        · refine absurd (@differs (fun r => if r = ir.dest then 2 else y') w' ?_) ?_
          · rw [if_neg isFirst, if_pos isSecond]
            exact secondEq
          · rw [if_pos rfl]
            exact second
        · rcases ir with ⟨op, src0, src1, dest⟩
          cases op <;> cases isBinary <;>
            simp [Platform.reads, Opcode.isBinary, Ne.symm isFirst, Ne.symm isSecond] at isRead
    · have two := leaves (machineWith fun _ => 2) rfl
      rcases ir with ⟨op, src0, src1, dest⟩
      cases op with
      | logNot => exact absurd (show (0 : Word) = 2 from two) (by decide)
      | negate => exact absurd (show (-2 : Word) = 2 from two) (by decide)
      | _ =>
          first | exact absurd rfl isBinary | exact absurd isRead List.not_mem_nil | cases fusible
  · rintro ⟨isAnd | isOr, first, second⟩ s _
    · apply value_of_binary
      rw [isAnd, first, second, Opcode.binary, BitVec.and_self]
    · apply value_of_binary
      rw [isOr, first, second, Opcode.binary, BitVec.or_self]

/-- Computing straight into the target of a move. -/
theorem move_preserves_iff (isAssign : next.op = .assign) (fusible : isFusibleInsn ir = true)
    (same : next.src0 = ir.dest) :
    Preserves P (ir :: next :: rest) ⟨2, [{ ir with dest := next.dest }]⟩ ↔
      FusionSafe P ir next rest := by
  have gives := givesValue_of_isFusibleInsn fusible
  have before {s : Machine} (running : s.outcome = none) :
      P.run [ir, next] s = (s.setReg ir.dest (P.value s ir)).setReg next.dest (P.value s ir) := by
    have still : (s.setReg ir.dest (P.value s ir)).outcome = none := running
    have copies : next.op.givesValue = true := by
      rw [isAssign]
      rfl
    have copied : P.value (s.setReg ir.dest (P.value s ir)) next = P.value s ir := by
      rw [Platform.value, isAssign, same, Machine.setReg_same]
    rw [Platform.run_cons, Platform.run_cons, Platform.run_nil,
      Platform.step_of_givesValue running gives, Platform.step_of_givesValue still copies, copied]
  have notConstant : ir.op ≠ .loadConstant := by
    rintro isConstant
    rw [isFusibleInsn, isConstant] at fusible
    cases fusible
  rw [preserves_iff_values (fun s running => before running)
    (fun s running => @run_single P { ir with dest := next.dest } gives s running ir.dest)]
  constructor
  · intro values
    constructor
    · by_cases sameDest : ir.dest = next.dest
      · exact Or.inl sameDest
      · by_cases isLive : P.live rest ir.dest = true
        · refine Or.inr (Or.inr ((leaves_iff (P := P) fusible).mp fun s running => ?_))
          exact (values s running).2 sameDest isLive
        · exact Or.inr (Or.inl (by simpa using isLive))
    · intro isConstant
      exact absurd isConstant notConstant
  · rintro ⟨intermediate, -⟩ s running
    constructor
    · intro _
      rfl
    · intro different isLive
      rcases intermediate with sameDest | dead | leaves
      · exact absurd sameDest different
      · rw [dead] at isLive
        cases isLive
      · exact (leaves_iff fusible).mpr leaves s running

/-- A fusion preserves meaning exactly under its condition. -/
theorem insnFusion_preserves_iff (fused : insnFusion ir next = some left) :
    Preserves P (ir :: next :: rest) ⟨2, left⟩ ↔ FusionSafe P ir next rest := by
  have binary_of {x y w : Word} (value : next.op.binary x y = some w) :
      next.op.isBinary = true := Opcode.isBinary_of_binary_eq_some value
  cases insnFusion_fusion fused with
  | move isAssign fusible same => exact move_preserves_iff isAssign fusible same
  | right isConstant kind second identity notZero =>
      refine identity_preserves_iff isConstant kind (binary_of (identity 0)) ?_
        (and_iff_left second) notZero
      intro s loaded
      apply value_of_binary
      rw [second, loaded]
      exact identity _
  | left isConstant kind first identity notZero =>
      refine identity_preserves_iff isConstant kind (binary_of (identity 0)) ?_
        (and_iff_right first) notZero
      intro s loaded
      apply value_of_binary
      rw [first, loaded]
      exact identity _
  | absorb isConstant isMul zero reads => exact absorb_preserves_iff isConstant isMul zero reads
  | shift isConstant isMul small power second =>
      exact shift_preserves_iff isConstant isMul small power second

/-! ## The pass -/

/-- The pass with fusion switched on. -/
def fusionPass : List Rule := [pairRule insnFusion]

theorem insnFusion_length (fused : insnFusion ir next = some left) : left.length ≤ 2 := by
  cases insnFusion_fusion fused <;> simp

theorem fusionPass_shrinks : ∀ rule ∈ fusionPass, rule.Shrinks := by
  intro rule isRule
  obtain rfl := List.mem_singleton.mp isRule
  exact pairRule_shrinks fun _ _ _ => insnFusion_length

/-- The condition where the pass rewrites something: it drops a self-assignment,
or fuses under the condition of a fusion. -/
def SafeThere (P : Platform) : List Ph2Ir → Prop
  | ir :: next :: rest => isSelfAssignment next = true ∨ FusionSafe P ir next rest
  | _ => True

theorem fusion_site_iff {code : List Ph2Ir} {rewrite : Rewrite}
    (matched : firstMatch fusionPass code = some rewrite) :
    Preserves P code rewrite ↔ SafeThere P code := by
  obtain ⟨ir, next, rest, rfl, ⟨isSelf, rfl⟩ | ⟨notSelf, left, fused, rfl⟩⟩ :=
    firstMatch_pair matched
  · exact iff_of_true (selfAssignment_preserves isSelf) (Or.inl isSelf)
  · rw [insnFusion_preserves_iff fused, SafeThere, notSelf, or_iff_right Bool.false_ne_true]

/-- Every rewriting of the pass preserves what the rest of the block reads
exactly when every fusion it makes meets its condition, and then the code the
pass ends with does what the original code does. -/
theorem peephole_fusion (P : Platform) (code : List Ph2Ir) :
    ((∀ site ∈ sites fusionPass code, Preserves P site.1 site.2) ↔
        ∀ site ∈ sites fusionPass code, SafeThere P site.1) ∧
      ((∀ site ∈ sites fusionPass code, SafeThere P site.1) →
        ∀ fuel, code.length ≤ fuel → Equivalent P code (walk fusionPass fuel code)) :=
  pass_preserves_iff fusionPass_shrinks (fun _ _ matched => fusion_site_iff matched) code

/-- The code of `x + 0` returned. -/
def sumWithZero : List Ph2Ir :=
  [{ op := .loadConstant, src0 := 0, dest := 1 }, { op := .add, src0 := 0, src1 := 1, dest := 2 },
    { op := .return_, src0 := 2 }]

/-- Fusing that code preserves what it does. -/
theorem sumWithZero_fused :
    walk fusionPass 3 sumWithZero =
        [{ op := .assign, src0 := 0, dest := 2 }, { op := .return_, src0 := 2 }] ∧
      Equivalent plainPlatform sumWithZero (walk fusionPass 3 sumWithZero) := by
  refine ⟨by decide, (peephole_fusion plainPlatform sumWithZero).2 ?_ 3 (by decide)⟩
  intro site present
  have only : site.1 = sumWithZero := by
    have all : ∀ site ∈ sites fusionPass sumWithZero, site.1 = sumWithZero := by
      simp only [sumWithZero]
      decide
    exact all site present
  rw [only]
  refine Or.inr ⟨Or.inr (Or.inl (by decide)), fun _ => Or.inr (Or.inl (by decide))⟩

/-- The code of `int x = a + b; int y = a + b; return x * y`, after the second
sum has become a copy of the first. -/
def sumCopiedTwice : List Ph2Ir :=
  [{ op := .add, src0 := 0, src1 := 1, dest := 2 }, { op := .assign, src0 := 2, dest := 3 },
    { op := .assign, src0 := 2, dest := 0 }, { op := .assign, src0 := 0, dest := 1 },
    { op := .mul, src0 := 3, src1 := 1, dest := 0 }, { op := .return_, src0 := 0 }]

/-- Fusing the sum with the first copy makes the second copy read an old value. -/
theorem sumCopiedTwice_not_fused :
    ¬∀ (P : Platform) (code : List Ph2Ir),
      Equivalent P code (walk fusionPass code.length code) := by
  intro preserved
  have same := (preserved plainPlatform sumCopiedTwice (machineWith fun r => r.toNat)).outcome
  exact absurd same (by decide)

end Shecc.Peephole
