import Shecc.Arm.Address
import Shecc.Arm.Stack
import Shecc.Word.Division

/-!
# The emulated division of ARM

The absolute values of the operands are divided in their own registers, which are saved
on the stack before and loaded again after. The sign of the divisor is looked at when
the dividend is an absolute value already: where both are in one register, the sign of
a negative operand is counted once.
-/

namespace Shecc.Arm

open Execution Word Codegen

namespace State

theorem setReg_reg_allocated {s : State} {r r' : Int} {w : Word} (isR' : IsAllocated r')
    (isOther : ¬IsAllocated r) : (s.setReg r w).reg r' = s.reg r' :=
  setReg_reg_other (isR'.ne isOther)

theorem setReg_reg_temporary {s : State} {r r' : Int} {w : Word} (isR : IsAllocated r)
    (isOther : ¬IsAllocated r') : (s.setReg r w).reg r' = s.reg r' :=
  setReg_reg_other (isR.ne isOther).symm

end State

namespace SoftDiv

/-- The code of the division, as it is decoded. -/
abbrev code (isDiv : Bool) (rd rn rm : Int) : List Decoded :=
  (softDiv isDiv rd rn rm).map Insn.decoded

variable {isDiv : Bool} {rd rn rm : Int} {placed : Placed processor (code isDiv rd rn rm)}

/-- What the division proper leaves alone. -/
structure Kept (rn rm : Int) (s s' : State) : Prop where
  memory : s'.memory = s.memory
  reg : ∀ r, r ∉ [r8, r9, rn, rm] → s'.reg r = s.reg r

theorem Kept.refl (s : State) : Kept rn rm s s := ⟨rfl, fun _ _ => rfl⟩

theorem Kept.trans {s s' s'' : State} (first : Kept rn rm s s') (second : Kept rn rm s' s'') :
    Kept rn rm s s'' :=
  ⟨second.memory.trans first.memory, fun r kept => (second.reg r kept).trans (first.reg r kept)⟩

theorem Kept.setReg {s s' : State} {r : Int} {w : Word} (kept : Kept rn rm s s')
    (mayChange : r ∈ [r8, r9, rn, rm]) : Kept rn rm s (s'.setReg r w) where
  memory := kept.memory
  reg := by
    intro r' isOther
    have different : r' ≠ r := by
      intro same
      exact isOther (same ▸ mayChange)
    rw [State.setReg_reg_other different, kept.reg r' isOther]

theorem Kept.setFlags {s s' : State} {result : Word × Bool × Bool} (kept : Kept rn rm s s') :
    Kept rn rm s (s'.setFlags result) :=
  ⟨kept.memory, kept.reg⟩

theorem effect_asr (s : State) (r r' : Int) :
    (Operation.data .mov false 0 r (.shifted r' .arithRs 31)).effect s =
      some (s.setReg r (signMask (s.reg r'))) := rfl

/-- Split the sign off a register. -/
theorem effects_split (s : State) {r mask : Int} (different : r ≠ mask) :
    effects [.data .mov false 0 mask (.shifted r .arithRs 31),
        .data .add false r r (.shifted mask .logicLs 0),
        .data .eor false r r (.shifted mask .logicLs 0)] s =
      some ((s.setReg mask (signMask (s.reg r))).setReg r (magnitude (s.reg r))) := by
  rw [effects_cons_some (effect_asr s mask r), effects_cons_some (effect_addR ..),
    effects_cons_some (effect_eorR ..), State.setReg_reg_other different,
    State.setReg_reg_other different.symm, State.setReg_reg_same, State.setReg_reg_same,
    State.setReg_setReg_same, effects_nil]
  rfl

/-- The mask in `r10` once the signs have been split off: where both operands are in one
register, the divisor is an absolute value by then. -/
def resultMask (isDiv : Bool) (rn rm : Int) (n d : Word) : Word :=
  if isDiv then signMask n ^^^ signMask (if rn = rm then magnitude n else d) else signMask n

/-- The operations in front of the loops. -/
def setup (isDiv : Bool) (rn rm : Int) : List Operation :=
  [.data .mov false 0 r8 (.shifted rn .arithRs 31), .data .add false rn rn (.shifted r8 .logicLs 0),
    .data .eor false rn rn (.shifted r8 .logicLs 0)] ++
  [.data .mov false 0 r9 (.shifted rm .arithRs 31), .data .add false rm rm (.shifted r9 .logicLs 0),
    .data .eor false rm rm (.shifted r9 .logicLs 0)] ++
  [if isDiv then .data .eor false r8 r10 (.shifted r9 .logicLs 0)
    else .data .mov false 0 r10 (.shifted r8 .logicLs 0),
    .data .mov false 0 r8 (.imm 0 0), .data .mov false 0 r9 (.imm 1 0)]

theorem effects_setup (s : State) (isRn : IsAllocated rn) (isRm : IsAllocated rm) :
    ∃ s', effects (setup isDiv rn rm) s = some s' ∧ s'.reg r8 = 0#32 ∧ s'.reg r9 = 1#32 ∧
      s'.reg rn = magnitude (s.reg rn) ∧ s'.reg rm = magnitude (s.reg rm) ∧
        s'.reg r10 = resultMask isDiv rn rm (s.reg rn) (s.reg rm) ∧ s'.memory = s.memory ∧
          ∀ r, r ∉ [r8, r9, r10, rn, rm] → s'.reg r = s.reg r := by
  let s₁ := (s.setReg r8 (signMask (s.reg rn))).setReg rn (magnitude (s.reg rn))
  let s₂ := (s₁.setReg r9 (signMask (s₁.reg rm))).setReg rm (magnitude (s₁.reg rm))
  have divisor : s₁.reg rm = if rn = rm then magnitude (s.reg rn) else s.reg rm := by
    split
    · rename_i same
      rw [← same]
      exact State.setReg_reg_same ..
    · rename_i different
      rw [State.setReg_reg_other (Ne.symm different), State.setReg_reg_allocated isRm (by decide)]
  have isDivisor : magnitude (s₁.reg rm) = magnitude (s.reg rm) := by
    rw [divisor]
    split
    · rename_i same
      rw [magnitude_magnitude, same]
    · rfl
  have mask8 : s₂.reg r8 = signMask (s.reg rn) := by
    rw [State.setReg_reg_temporary isRm (by decide), State.setReg_reg_other (by decide),
      State.setReg_reg_temporary isRn (by decide), State.setReg_reg_same]
  have mask9 : s₂.reg r9 = signMask (s₁.reg rm) := by
    rw [State.setReg_reg_temporary isRm (by decide), State.setReg_reg_same]
  have ends : ∀ w, (if isDiv then Operation.data .eor false r8 r10 (.shifted r9 .logicLs 0)
      else .data .mov false 0 r10 (.shifted r8 .logicLs 0)).effect s₂ = some (s₂.setReg r10 w) →
        effects (setup isDiv rn rm) s =
          some (((s₂.setReg r10 w).setReg r8 0#32).setReg r9 1#32) := by
    intro w effect
    have notR8 : rn ≠ r8 := isRn.ne (by decide)
    have notR9 : rm ≠ r9 := isRm.ne (by decide)
    have both := (effects_append_some (effects_split s notR8)).trans (effects_split s₁ notR9)
    rw [setup, effects_append_some both, effects_cons_some effect,
      effects_cons_some (effect_movI ..), effects_cons_some (effect_movI ..)]
    rfl
  refine ⟨_, ends (resultMask isDiv rn rm (s.reg rn) (s.reg rm)) ?_, ?_, ?_, ?_, ?_, ?_, rfl, ?_⟩
  · cases isDiv with
    | false =>
        change some (s₂.setReg r10 (s₂.reg r8)) = _
        rw [mask8]
        rfl
    | true =>
        change some (s₂.setReg r10 (s₂.reg r8 ^^^ s₂.reg r9)) = _
        rw [mask8, mask9, divisor]
        rfl
  · rw [State.setReg_reg_other (by decide), State.setReg_reg_same]
  · rw [State.setReg_reg_same]
  · rw [State.setReg_reg_allocated isRn (by decide), State.setReg_reg_allocated isRn (by decide),
      State.setReg_reg_allocated isRn (by decide)]
    by_cases same : rn = rm
    · subst same
      rw [State.setReg_reg_same, isDivisor]
    · rw [State.setReg_reg_other same, State.setReg_reg_allocated isRn (by decide),
        State.setReg_reg_same]
  · rw [State.setReg_reg_allocated isRm (by decide), State.setReg_reg_allocated isRm (by decide),
      State.setReg_reg_allocated isRm (by decide), State.setReg_reg_same, isDivisor]
  · rw [State.setReg_reg_other (by decide), State.setReg_reg_other (by decide),
      State.setReg_reg_same]
  · intro r other
    simp only [List.mem_cons, List.not_mem_nil, or_false, not_or] at other
    rcases other with ⟨not8, not9, not10, notRn, notRm⟩
    rw [State.setReg_reg_other not9, State.setReg_reg_other not8, State.setReg_reg_other not10,
      State.setReg_reg_other notRm, State.setReg_reg_other not9, State.setReg_reg_other notRn,
      State.setReg_reg_other not8]

/-! ## The loops -/

theorem effect_double (s : State) (r : Int) :
    (Operation.data .mov false 0 r (.shifted r .logicLs 1)).effect s =
      some (s.setReg r (s.reg r <<< 1)) := rfl

theorem effect_halve (s : State) (r : Int) :
    (Operation.data .mov false 0 r (.shifted r .logicRs 1)).effect s =
      some (s.setReg r (s.reg r >>> 1)) := rfl

/-- Halving with the lowest bit as the carry. -/
theorem effect_halve_carry (s : State) (r : Int) :
    (Operation.data .mov true 0 r (.shifted r .logicRs 1)).effect s =
      some ((s.setFlags (s.reg r >>> 1, (s.reg r).getLsbD 0, s.v)).setReg r (s.reg r >>> 1)) := rfl

/-- What holds while the divisor grows. -/
structure Growing (dividend₀ divisor₀ : Nat) (rn rm : Int) (s₀ s : State) : Prop where
  scaled : ∃ k, Scaled divisor₀ k (s.reg rm) (s.reg r9)
  quotient : s.reg r8 = 0#32
  dividend : (s.reg rn).toNat = dividend₀
  kept : Kept rn rm s₀ s

/-- What holds while the divisor shrinks. -/
structure Shrinking (dividend₀ divisor₀ : Nat) (rn rm : Int) (s₀ s : State) : Prop where
  scaled : ∃ k, Scaled divisor₀ k (s.reg rm) (s.reg r9)
  dividing : Dividing dividend₀ divisor₀ (s.reg r8) (s.reg rn)
  below : (s.reg rn).toNat < 2 * (s.reg rm).toNat
  kept : Kept rn rm s₀ s

/-- What the loops leave. -/
structure Divided (dividend₀ divisor₀ : Nat) (rn rm : Int) (s₀ s : State) : Prop where
  quotient : (s.reg r8).toNat = dividend₀ / divisor₀
  remainder : (s.reg rn).toNat = dividend₀ % divisor₀
  kept : Kept rn rm s₀ s

variable {dividend₀ divisor₀ : Nat} {s₀ s : State}

/-- An operation that names allocated registers and temporaries does not name the
program counter. -/
theorem noPc_data {op : DataOp} {setFlags : Bool} {r r' : Int} {operand : Operand}
    (first : 15 ≠ r) (second : 15 ≠ r') (others : 15 ∉ operand.names) :
    15 ∉ (Operation.data op setFlags r r' operand).names := by
  simp only [Operation.names, List.mem_cons, not_or]
  exact ⟨first, second, others⟩

/-- Comparing two registers. -/
theorem runs_compare {i : Nat} {r r' : Int}
    (here : (code isDiv rd rn rm)[i]? = some ⟨.al, .data .cmp true r 0 (.shifted r' .logicLs 0)⟩)
    (notPc : 15 ≠ r) (notPc' : 15 ≠ r') :
    placed.Runs (i, s) (i + 1, s.compared (s.reg r) (s.reg r')) :=
  runs_effect here (noPc_data notPc (by decide) (by simpa [Operand.names] using notPc')) rfl
    (effect_cmpR ..)

/-- The divisor is doubled until it is not below the dividend. -/
theorem runs_grow (isRn : IsAllocated rn) (isRm : IsAllocated rm) (different : rn ≠ rm)
    (growing : Growing dividend₀ divisor₀ rn rm s₀ s) (positive : 0 < divisor₀)
    (fits : dividend₀ ≤ 2 ^ 31) :
    ∃ s', placed.Runs (14, s) (18, s') ∧ Shrinking dividend₀ divisor₀ rn rm s₀ s' := by
  have notPcN : 15 ≠ rn := (isRn.ne (by decide)).symm
  have notPcM : 15 ≠ rm := (isRm.ne (by decide)).symm
  apply Placed.Runs.loop (fun s => dividend₀ - (s.reg rm).toNat) ?_ growing
  intro s growing
  rcases growing.scaled with ⟨k, scaled⟩
  have divisorPositive : 0 < (s.reg rm).toNat := by
    rw [scaled.divisor_eq]
    exact Nat.mul_pos positive (Nat.two_pow_pos k)
  have compared := @runs_compare _ _ _ _ placed s 14 rm rn rfl notPcM notPcN
  have isCarry := s.compared_c (s.reg rm) (s.reg rn)
  rw [growing.dividend] at isCarry
  by_cases reached : dividend₀ ≤ (s.reg rm).toNat
  · rw [decide_eq_true reached] at isCarry
    have fails : Cond.holds .cc (s.compared (s.reg rm) (s.reg rn)) = false := by
      rw [Cond.holds, isCarry]
      rfl
    have first := @runs_skip _ placed 15 _ .cc _ rfl
      (noPc_data (by decide) notPcM (by simpa [Operand.names] using notPcM)) fails
    have second := @runs_skip _ placed 16 _ .cc _ rfl (by decide) fails
    have third := @runs_branch _ placed 17 18 _ .cc (-12) false rfl fails rfl
    refine .inr ⟨_, ((compared.trans first).trans second).trans third, growing.scaled, ⟨?_⟩, ?_, ?_⟩
    · rw [State.compared_reg, growing.quotient, growing.dividend, BitVec.toNat_ofNat]
      simp
    · rw [State.compared_reg, growing.dividend]
      omega
    · exact growing.kept.setFlags
  · rw [decide_eq_false reached] at isCarry
    have holds : Cond.holds .cc (s.compared (s.reg rm) (s.reg rn)) = true := by
      rw [Cond.holds, isCarry]
      rfl
    have first := @runs_effect _ placed 15 _ _ .cc _ rfl
      (noPc_data (by decide) notPcM (by simpa [Operand.names] using notPcM)) holds
      (effect_double _ rm)
    have second := @runs_effect _ placed 16
      ((s.compared (s.reg rm) (s.reg rn)).setReg rm (s.reg rm <<< 1)) _ .cc _ rfl (by decide) holds
      (effect_double _ r9)
    have third := fun w => @runs_branch _ placed 17 14
      (((s.compared (s.reg rm) (s.reg rn)).setReg rm (s.reg rm <<< 1)).setReg r9 w) .cc (-12) true
      rfl holds rfl
    refine .inl ⟨_, ((compared.trans first).trans second).trans (third _),
      ⟨⟨k + 1, ?_⟩, ?_, ?_, ?_⟩, ?_⟩
    · rw [State.setReg_reg_allocated isRm (by decide), State.setReg_reg_same,
        State.setReg_reg_same, State.setReg_reg_temporary isRm (by decide), State.compared_reg]
      exact scaled.double positive (by omega)
    · rw [State.setReg_reg_other (by decide), State.setReg_reg_temporary isRm (by decide)]
      exact growing.quotient
    · rw [State.setReg_reg_allocated isRn (by decide), State.setReg_reg_other different]
      exact growing.dividend
    · exact (growing.kept.setFlags.setReg (by simp)).setReg (by simp)
    · rw [State.setReg_reg_allocated isRm (by decide), State.setReg_reg_same,
        toNat_double (by omega)]
      omega

/-- The divisor is subtracted if it is not above what is left. -/
theorem runs_subtract (isRn : IsAllocated rn) (isRm : IsAllocated rm) (different : rn ≠ rm)
    (shrinking : Shrinking dividend₀ divisor₀ rn rm s₀ s) (positive : 0 < divisor₀)
    (fits : dividend₀ ≤ 2 ^ 31) :
    ∃ s', placed.Runs (18, s) (21, s') ∧ Dividing dividend₀ divisor₀ (s'.reg r8) (s'.reg rn) ∧
      (s'.reg rn).toNat < (s'.reg rm).toNat ∧ s'.reg rm = s.reg rm ∧ s'.reg r9 = s.reg r9 ∧
        Kept rn rm s₀ s' := by
  have notPcN : 15 ≠ rn := (isRn.ne (by decide)).symm
  have notPcM : 15 ≠ rm := (isRm.ne (by decide)).symm
  have compared := @runs_compare _ _ _ _ placed s 18 rn rm rfl notPcN notPcM
  have isCarry := s.compared_c (s.reg rn) (s.reg rm)
  by_cases notBelow : (s.reg rm).toNat ≤ (s.reg rn).toNat
  · rw [decide_eq_true notBelow] at isCarry
    have first := @runs_effect _ placed 19 _ _ .cs _ rfl
      (noPc_data notPcN notPcN (by simpa [Operand.names] using notPcM)) isCarry
      (effect_subR _ rn rn rm)
    have second := @runs_effect _ placed 20
      ((s.compared (s.reg rn) (s.reg rm)).setReg rn (s.reg rn - s.reg rm)) _ .cs _ rfl (by decide)
      isCarry (effect_addR _ r8 r8 r9)
    rcases shrinking.scaled with ⟨k, scaled⟩
    refine ⟨_, (compared.trans first).trans second, ?_, ?_, ?_, ?_, ?_⟩
    · rw [State.setReg_reg_same, State.setReg_reg_allocated isRn (by decide),
        State.setReg_reg_same, State.setReg_reg_temporary isRn (by decide),
        State.setReg_reg_temporary isRn (by decide), State.compared_reg]
      exact shrinking.dividing.subtract scaled positive (by omega) notBelow
    · rw [State.setReg_reg_allocated isRn (by decide), State.setReg_reg_same,
        State.setReg_reg_allocated isRm (by decide), State.setReg_reg_other different.symm,
        State.compared_reg, BitVec.toNat_sub_of_le (BitVec.le_def.mpr notBelow)]
      have isBelow := shrinking.below
      omega
    · rw [State.setReg_reg_allocated isRm (by decide), State.setReg_reg_other different.symm,
        State.compared_reg]
    · rw [State.setReg_reg_other (by decide), State.setReg_reg_temporary isRn (by decide),
        State.compared_reg]
    · exact (shrinking.kept.setFlags.setReg (by simp)).setReg (by simp)
  · rw [decide_eq_false notBelow] at isCarry
    have first := @runs_skip _ placed 19 _ .cs _ rfl
      (noPc_data notPcN notPcN (by simpa [Operand.names] using notPcM)) isCarry
    have second := @runs_skip _ placed 20 _ .cs _ rfl (by decide) isCarry
    exact ⟨_, (compared.trans first).trans second, shrinking.dividing, not_le.mp notBelow, rfl, rfl,
      shrinking.kept.setFlags⟩

/-- The lowest bit of a power of two. -/
theorem getLsbD_pow {w : Word} {k : Nat} (isPower : w.toNat = 2 ^ k) :
    w.getLsbD 0 = decide (k = 0) := by
  rw [BitVec.getLsbD, isPower, Nat.testBit_two_pow]

/-- Multiples of the divisor are subtracted until the divisor itself was. -/
theorem runs_shrink (isRn : IsAllocated rn) (isRm : IsAllocated rm) (different : rn ≠ rm)
    (shrinking : Shrinking dividend₀ divisor₀ rn rm s₀ s) (positive : 0 < divisor₀)
    (fits : dividend₀ ≤ 2 ^ 31) :
    ∃ s', placed.Runs (18, s) (24, s') ∧ Divided dividend₀ divisor₀ rn rm s₀ s' := by
  have notPcM : 15 ≠ rm := (isRm.ne (by decide)).symm
  apply Placed.Runs.loop (fun s => (s.reg r9).toNat) ?_ shrinking
  intro s shrinking
  rcases @runs_subtract _ _ _ _ placed _ _ _ s isRn isRm different shrinking positive fits with
    ⟨s₁, subtracted, dividing, isBelow, sameDivisor, sameBit, kept⟩
  have halved := @runs_effect _ placed 21 s₁ _ .al _ rfl (by decide) rfl (effect_halve_carry s₁ r9)
  rcases shrinking.scaled with ⟨k, scaled⟩
  rw [← sameDivisor, ← sameBit] at scaled
  have isCarry := getLsbD_pow scaled.bit_eq
  cases k with
  | zero =>
      have fails : Cond.holds .cc ((s₁.setFlags (s₁.reg r9 >>> 1, (s₁.reg r9).getLsbD 0,
          s₁.v)).setReg r9 (s₁.reg r9 >>> 1)) = false := by
        rw [Cond.holds, State.setReg_c, State.setFlags, isCarry]
        rfl
      have first := @runs_skip _ placed 22 _ .cc _ rfl
        (noPc_data (by decide) notPcM (by simpa [Operand.names] using notPcM)) fails
      have second := @runs_branch _ placed 23 24 _ .cc (-20) false rfl fails rfl
      have isDivisor := scaled.divisor_eq
      rw [pow_zero, mul_one] at isDivisor
      rw [isDivisor] at isBelow
      rcases dividing.finished isBelow with ⟨quotient, remainder⟩
      refine .inr ⟨_, ((subtracted.trans halved).trans first).trans second, ?_, ?_, ?_⟩
      · rw [State.setReg_reg_other (by decide)]
        exact quotient
      · rw [State.setReg_reg_allocated isRn (by decide)]
        exact remainder
      · exact kept.setFlags.setReg (by simp)
  | succ k =>
      have holds : Cond.holds .cc ((s₁.setFlags (s₁.reg r9 >>> 1, (s₁.reg r9).getLsbD 0,
          s₁.v)).setReg r9 (s₁.reg r9 >>> 1)) = true := by
        rw [Cond.holds, State.setReg_c, State.setFlags, isCarry]
        rfl
      have first := @runs_effect _ placed 22 _ _ .cc _ rfl
        (noPc_data (by decide) notPcM (by simpa [Operand.names] using notPcM)) holds
        (effect_halve _ rm)
      have second := fun w => @runs_branch _ placed 23 18
        (((s₁.setFlags (s₁.reg r9 >>> 1, (s₁.reg r9).getLsbD 0, s₁.v)).setReg r9
          (s₁.reg r9 >>> 1)).setReg rm w) .cc (-20) true rfl holds rfl
      have halvedBoth := scaled.halve
      have isDivisor := scaled.divisor_eq
      have isHalf := halvedBoth.divisor_eq
      rw [pow_succ, ← mul_assoc] at isDivisor
      refine .inl ⟨_, ((subtracted.trans halved).trans first).trans (second _),
        ⟨⟨k, ?_⟩, ?_, ?_, ?_⟩, ?_⟩
      · rw [State.setReg_reg_same, State.setReg_reg_temporary isRm (by decide),
          State.setReg_reg_same, State.setReg_reg_allocated isRm (by decide)]
        exact halvedBoth
      · rw [State.setReg_reg_temporary isRm (by decide), State.setReg_reg_other (by decide),
          State.setReg_reg_other different, State.setReg_reg_allocated isRn (by decide)]
        exact dividing
      · rw [State.setReg_reg_other different, State.setReg_reg_allocated isRn (by decide),
          State.setReg_reg_same, State.setReg_reg_allocated isRm (by decide)]
        change (s₁.reg rn).toNat < 2 * (s₁.reg rm >>> 1).toNat
        omega
      · exact (kept.setFlags.setReg (by simp)).setReg (by simp)
      · rw [State.setReg_reg_temporary isRm (by decide), State.setReg_reg_same, ← sameBit,
          halvedBoth.bit_eq, scaled.bit_eq, pow_succ]
        have bitPositive := Nat.two_pow_pos k
        omega

/-- A register divided by itself: the divisor is subtracted from itself once. -/
theorem runs_same {placed : Placed processor (code isDiv rd rn rn)} (isRn : IsAllocated rn)
    (quotient : s.reg r8 = 0#32) (bit : s.reg r9 = 1#32) (positive : 0 < (s.reg rn).toNat) :
    ∃ s', placed.Runs (14, s) (24, s') ∧
      Divided (s.reg rn).toNat (s.reg rn).toNat rn rn s s' := by
  have notPc : 15 ≠ rn := (isRn.ne (by decide)).symm
  have compared := @runs_compare _ _ _ _ placed s 14 rn rn rfl notPc notPc
  have isCarry := s.compared_c (s.reg rn) (s.reg rn)
  rw [decide_eq_true le_rfl] at isCarry
  have fails : Cond.holds .cc (s.compared (s.reg rn) (s.reg rn)) = false := by
    rw [Cond.holds, isCarry]
    rfl
  have first := @runs_skip _ placed 15 _ .cc _ rfl
    (noPc_data (by decide) notPc (by simpa [Operand.names] using notPc)) fails
  have second := @runs_skip _ placed 16 _ .cc _ rfl (by decide) fails
  have third := @runs_branch _ placed 17 18 _ .cc (-12) false rfl fails rfl
  have entered := ((compared.trans first).trans second).trans third
  let s₁ := (s.compared (s.reg rn) (s.reg rn)).compared (s.reg rn) (s.reg rn)
  have comparedAgain : placed.Runs (18, s.compared (s.reg rn) (s.reg rn)) (19, s₁) :=
    @runs_compare _ _ _ _ placed (s.compared (s.reg rn) (s.reg rn)) 18 rn rn rfl notPc notPc
  have isCarry₁ : s₁.c = true := by
    rw [State.compared_c]
    exact decide_eq_true le_rfl
  have subtracted := @runs_effect _ placed 19 s₁ _ .cs _ rfl
    (noPc_data notPc notPc (by simpa [Operand.names] using notPc)) isCarry₁ (effect_subR _ rn rn rn)
  have counted := @runs_effect _ placed 20 (s₁.setReg rn (s₁.reg rn - s₁.reg rn)) _ .cs _ rfl
    (by decide) isCarry₁ (effect_addR _ r8 r8 r9)
  let s₂ := (s₁.setReg rn (s₁.reg rn - s₁.reg rn)).setReg r8
    ((s₁.setReg rn (s₁.reg rn - s₁.reg rn)).reg r8 + (s₁.setReg rn (s₁.reg rn - s₁.reg rn)).reg r9)
  have isBit : s₂.reg r9 = 1#32 := by
    rw [State.setReg_reg_other (by decide), State.setReg_reg_temporary isRn (by decide)]
    exact bit
  have halved := @runs_effect _ placed 21 s₂ _ .al _ rfl (by decide) rfl (effect_halve_carry s₂ r9)
  have fails₂ : Cond.holds .cc ((s₂.setFlags (s₂.reg r9 >>> 1, (s₂.reg r9).getLsbD 0,
      s₂.v)).setReg r9 (s₂.reg r9 >>> 1)) = false := by
    rw [Cond.holds, State.setReg_c, State.setFlags, isBit]
    rfl
  have skipped := @runs_skip _ placed 22 _ .cc _ rfl
    (noPc_data (by decide) notPc (by simpa [Operand.names] using notPc)) fails₂
  have left_ := @runs_branch _ placed 23 24 _ .cc (-20) false rfl fails₂ rfl
  refine ⟨_, ((((((entered.trans comparedAgain).trans subtracted).trans counted).trans
    halved).trans skipped).trans left_), ?_, ?_, ?_⟩
  · rw [State.setReg_reg_other (by decide), Nat.div_self positive]
    change (s₂.reg r8).toNat = 1
    rw [State.setReg_reg_same, State.setReg_reg_temporary isRn (by decide),
      State.setReg_reg_temporary isRn (by decide)]
    change (s.reg r8 + s.reg r9).toNat = 1
    rw [quotient, bit]
    rfl
  · rw [State.setReg_reg_allocated isRn (by decide), Nat.mod_self]
    change (s₂.reg rn).toNat = 0
    rw [State.setReg_reg_allocated isRn (by decide), State.setReg_reg_same, BitVec.sub_self]
    rfl
  · have untouched : Kept rn rn s s₁ := (Kept.refl s).setFlags.setFlags
    exact ((untouched.setReg (by simp)).setReg (by simp)).setFlags.setReg (by simp)

/-- The absolute values are divided. -/
theorem runs_divide (isRn : IsAllocated rn) (isRm : IsAllocated rm) (quotient : s.reg r8 = 0#32)
    (bit : s.reg r9 = 1#32) (nonzero : s.reg rm ≠ 0#32) (fits : (s.reg rn).toNat ≤ 2 ^ 31) :
    ∃ s', placed.Runs (10, s) (24, s') ∧
      Divided (s.reg rn).toNat (s.reg rm).toNat rn rm s s' := by
  have notPcN : 15 ≠ rn := (isRn.ne (by decide)).symm
  have notPcM : 15 ≠ rm := (isRm.ne (by decide)).symm
  have positive : 0 < (s.reg rm).toNat := by
    apply Nat.pos_of_ne_zero
    intro isZero
    exact nonzero (BitVec.eq_of_toNat_eq isZero)
  let s₁ := s.compared (s.reg rm) (BitVec.ofInt 32 0)
  let s₂ := s₁.compared (s.reg rn) (BitVec.ofInt 32 0)
  have compared : placed.Runs (10, s) (11, s₁) :=
    @runs_effect _ placed 10 s _ .al _ rfl (noPc_data notPcM (by decide) (by simp [Operand.names]))
      rfl (effect_cmpI ..)
  have isZero₁ : Cond.holds .eq s₁ = false :=
    (State.compared_z ..).trans (decide_eq_false nonzero)
  have entered := @runs_branch _ placed 11 12 s₁ .eq 52 false rfl isZero₁ rfl
  have comparedToo : placed.Runs (12, s₁) (13, s₂) :=
    @runs_effect _ placed 12 s₁ _ .al _ rfl (noPc_data notPcN (by decide) (by simp [Operand.names]))
      rfl (effect_cmpI ..)
  have untouched : Kept rn rm s s₂ := (Kept.refl s).setFlags.setFlags
  by_cases isZero : s.reg rn = 0#32
  · have isZero₂ : Cond.holds .eq s₂ = true :=
      (State.compared_z ..).trans (decide_eq_true isZero)
    refine ⟨s₂, ((compared.trans entered).trans comparedToo).trans
      (@runs_branch _ placed 13 24 s₂ .eq 44 true rfl isZero₂ rfl), ?_, ?_, untouched⟩
    · change (s.reg r8).toNat = _
      rw [quotient, isZero, BitVec.toNat_ofNat, Nat.zero_mod, Nat.zero_div]
    · change (s.reg rn).toNat = _
      rw [isZero, BitVec.toNat_ofNat, Nat.zero_mod, Nat.zero_mod]
  · have isZero₂ : Cond.holds .eq s₂ = false :=
      (State.compared_z ..).trans (decide_eq_false isZero)
    have started := @runs_branch _ placed 13 14 s₂ .eq 44 false rfl isZero₂ rfl
    have reached := ((compared.trans entered).trans comparedToo).trans started
    by_cases same : rn = rm
    · subst same
      rcases @runs_same _ _ _ s₂ placed isRn quotient bit positive with ⟨s₃, ran, divided⟩
      exact ⟨s₃, reached.trans ran, divided.quotient, divided.remainder,
        untouched.trans divided.kept⟩
    · have growing : Growing (s.reg rn).toNat (s.reg rm).toNat rn rm s s₂ :=
        ⟨⟨0, by change Scaled _ 0 (s.reg rm) (s.reg r9); rw [bit]; exact scaled_zero _⟩, quotient,
          rfl, untouched⟩
      rcases @runs_grow _ _ _ _ placed _ _ _ _ isRn isRm same growing positive fits with
        ⟨s₃, grown, shrinking⟩
      rcases @runs_shrink _ _ _ _ placed _ _ _ _ isRn isRm same shrinking positive fits with
        ⟨s₄, shrunk, divided⟩
      exact ⟨s₄, (reached.trans grown).trans shrunk, divided⟩

/-! ## In front of the loops and behind them -/

/-- The list of the operands names them and no other register. -/
theorem mem_regPair {r : Int} (isRn : IsAllocated rn) (isRm : IsAllocated rm) :
    r ∈ registers (regPair rn rm) ↔ r = rn ∨ r = rm := by
  rcases isRn with ⟨lowN, highN⟩
  rcases isRm with ⟨lowM, highM⟩
  obtain ⟨n, rfl⟩ := Int.eq_ofNat_of_zero_le lowN
  obtain ⟨m, rfl⟩ := Int.eq_ofNat_of_zero_le lowM
  have bits : ∀ i, (regPair n m).toNat.testBit i = (decide (n = i) || decide (m = i)) := by
    intro i
    rw [regPair, Int.toNat_natCast, Int.toNat_natCast, Int.toNat_natCast, Nat.testBit_or,
      Nat.one_shiftLeft, Nat.one_shiftLeft, Nat.testBit_two_pow, Nat.testBit_two_pow]
  simp only [registers, List.mem_map, List.mem_filter, List.mem_range, bits, Bool.or_eq_true,
    decide_eq_true_iff]
  constructor
  · rintro ⟨i, ⟨-, isN | isM⟩, rfl⟩
    · exact .inl (by rw [isN]; rfl)
    · exact .inr (by rw [isM]; rfl)
  · rintro (rfl | rfl)
    · exact ⟨n, ⟨by omega, .inl rfl⟩, rfl⟩
    · exact ⟨m, ⟨by omega, .inr rfl⟩, rfl⟩

theorem noPc_block (isRn : IsAllocated rn) (isRm : IsAllocated rm) :
    15 ∉ (sp : Int) :: registers (regPair rn rm) := by
  rw [List.mem_cons, mem_regPair isRn isRm]
  rintro (isSp | isN | isM)
  · exact absurd isSp (by decide)
  · exact absurd (isN ▸ isRn) (by decide)
  · exact absurd (isM ▸ isRm) (by decide)

/-- The result gets its sign. -/
def signedResult (isDiv : Bool) (s : State) : Word :=
  if s.reg r10 = 0#32 then s.reg (if isDiv then r8 else r9)
  else -s.reg (if isDiv then r8 else r9)

/-- The result moves to its destination and is negated if the mask says so. -/
theorem runs_sign (isRd : IsAllocated rd) :
    ∃ s', placed.Runs (26, s) (29, s') ∧ s'.reg rd = signedResult isDiv s ∧
      ∀ r, r ≠ rd → s'.reg r = s.reg r := by
  have notPc : 15 ≠ rd := (isRd.ne (by decide)).symm
  have notPcResult : 15 ≠ (if isDiv then r8 else r9) := by
    cases isDiv <;> decide
  let w := s.reg (if isDiv then r8 else r9)
  have moved : placed.Runs (26, s) (27, s.setReg rd w) :=
    @runs_effect _ placed 26 s _ .al _ rfl
      (noPc_data (by decide) notPc (by simpa [Operand.names] using notPcResult)) rfl
      (effect_movR ..)
  let s₁ := (s.setReg rd w).compared ((s.setReg rd w).reg r10) (BitVec.ofInt 32 0)
  have compared : placed.Runs (27, s.setReg rd w) (28, s₁) :=
    @runs_effect _ placed 27 _ _ .al _ rfl (by decide) rfl (effect_cmpI ..)
  have mask : (s.setReg rd w).reg r10 = s.reg r10 := State.setReg_reg_temporary isRd (by decide)
  by_cases nonneg : s.reg r10 = 0#32
  · have isZero : Cond.holds .ne s₁ = false := by
      change (!s₁.z) = false
      rw [State.compared_z, mask, nonneg]
      rfl
    refine ⟨s₁, (moved.trans compared).trans (@runs_skip _ placed 28 s₁ .ne _ rfl
      (noPc_data notPc notPc (by simp [Operand.names])) isZero), ?_, ?_⟩
    · rw [signedResult, if_pos nonneg]
      exact State.setReg_reg_same ..
    · intro r other
      exact State.setReg_reg_other other
  · have nonzero : Cond.holds .ne s₁ = true := by
      change (!s₁.z) = true
      rw [State.compared_z, mask, decide_eq_false (by exact nonneg)]
      rfl
    refine ⟨_, (moved.trans compared).trans (@runs_effect _ placed 28 s₁ _ .ne _ rfl
      (noPc_data notPc notPc (by simp [Operand.names])) nonzero (effect_rsbI ..)), ?_, ?_⟩
    · rw [State.setReg_reg_same, signedResult, if_neg nonneg]
      change BitVec.ofInt 32 0 - (s.setReg rd w).reg rd = _
      rw [State.setReg_reg_same]
      exact BitVec.zero_sub _
    · intro r other
      rw [State.setReg_reg_other other]
      exact State.setReg_reg_other other

/-- What the whole code is to keep: the stack pointer and the other allocated
registers. -/
structure Preserves (rd : Int) (s s' : State) : Prop where
  pointer : s'.reg sp = s.reg sp
  reg : ∀ r, IsAllocated r → r ≠ rd → s'.reg r = s.reg r

theorem noPc_setup (isRn : IsAllocated rn) (isRm : IsAllocated rm) :
    ∀ operation ∈ setup isDiv rn rm, 15 ∉ operation.names := by
  have notPcN : 15 ≠ rn := (isRn.ne (by decide)).symm
  have notPcM : 15 ≠ rm := (isRm.ne (by decide)).symm
  cases isDiv <;> simp [setup, Operation.names, Operand.names, notPcN, notPcM]

/-- The sequence runs to its end. The result has the sign of the mask, and everything
else is restored. -/
theorem runs_all (isRd : IsAllocated rd) (isRn : IsAllocated rn) (isRm : IsAllocated rm)
    (nonzero : s.reg rm ≠ 0#32) :
    ∃ s' result, placed.Runs (0, s) (29, s') ∧ Preserves rd s s' ∧
      s'.reg rd = (if resultMask isDiv rn rm (s.reg rn) (s.reg rm) = 0#32 then result
        else -result) ∧
      result.toNat = if isDiv then (magnitude (s.reg rn)).toNat / (magnitude (s.reg rm)).toNat
        else (magnitude (s.reg rn)).toNat % (magnitude (s.reg rm)).toNat := by
  have notPcN : 15 ≠ rn := (isRn.ne (by decide)).symm
  rcases saved_stmdb s (regPair rn rm) with ⟨s₁, saving, saved, same₁⟩
  have started := @runs_effect _ placed 0 s s₁ .al _ rfl (noPc_block isRn isRm) rfl saving
  have sameN : s₁.reg rn = s.reg rn := same₁ rn (isRn.ne (by decide))
  have sameM : s₁.reg rm = s.reg rm := same₁ rm (isRm.ne (by decide))
  rcases @effects_setup isDiv rn rm s₁ isRn isRm with
    ⟨s₂, setUp, quotient, bit, dividend, divisor, mask, memory₂, same₂⟩
  have split : placed.Runs (1, s₁) (10, s₂) :=
    runs_line (setup isDiv rn rm) ⟨(code isDiv rd rn rm).drop 10, by cases isDiv <;> rfl⟩
      (noPc_setup isRn isRm) setUp
  rw [sameN] at dividend
  rw [sameM] at divisor
  rw [sameN, sameM] at mask
  have nonzero₂ : s₂.reg rm ≠ 0#32 := by
    rw [divisor]
    exact fun isZero => nonzero (magnitude_eq_zero isZero)
  have small : (s₂.reg rn).toNat ≤ 2 ^ 31 := by
    rw [dividend]
    exact magnitude_le _
  rcases @runs_divide _ _ _ _ placed s₂ isRn isRm quotient bit nonzero₂ small with
    ⟨s₃, ran, isDivided⟩
  let s₄ := s₃.setReg r9 (s₃.reg rn)
  have moved : placed.Runs (24, s₃) (25, s₄) :=
    @runs_effect _ placed 24 s₃ s₄ .al _ rfl
      (noPc_data (by decide) (by decide) (by simpa [Operand.names] using notPcN)) rfl
      (effect_movR ..)
  -- The stack pointer and the block on the stack are as they were saved.
  have outside : sp ∉ [r8, r9, rn, rm] ∧ sp ∉ [r8, r9, r10, rn, rm] := by
    have notN : sp ≠ rn := (isRn.ne (by decide)).symm
    have notM : sp ≠ rm := (isRm.ne (by decide)).symm
    simp [notN, notM]
  have saved₄ : Saved (regPair rn rm) s s₄ := by
    constructor
    · rw [State.setReg_reg_other (by decide), isDivided.kept.reg sp outside.1, same₂ sp outside.2,
        saved.pointer]
    · rw [State.setReg_memory, isDivided.kept.memory, memory₂, saved.memory]
  have notSp : sp ∉ registers (regPair rn rm) := by
    rw [mem_regPair isRn isRm]
    rintro (isN | isM)
    · exact absurd (isN ▸ isRn) (by decide)
    · exact absurd (isM ▸ isRm) (by decide)
  rcases saved₄.restored notSp with ⟨s₅, loading, restored, same₅⟩
  have loaded := @runs_effect _ placed 25 s₄ s₅ .al _ rfl (noPc_block isRn isRm) rfl loading
  have temporary : ∀ r, r ≠ sp → ¬IsAllocated r → s₅.reg r = s₄.reg r := by
    intro r notPointer isOther
    apply same₅ r notPointer
    rw [mem_regPair isRn isRm]
    rintro (rfl | rfl)
    · exact isOther isRn
    · exact isOther isRm
  rcases @runs_sign _ _ _ _ placed s₅ isRd with ⟨s₆, finished, isResult, same₆⟩
  refine ⟨s₆, s₅.reg (if isDiv then r8 else r9),
    (((((started.trans split).trans ran).trans moved).trans loaded).trans finished),
    ⟨?_, ?_⟩, ?_, ?_⟩
  · rw [same₆ sp (isRd.ne (by decide)).symm]
    exact restored sp (.inl rfl)
  · intro r isR other
    rw [same₆ r other]
    by_cases isOperand : r = rn ∨ r = rm
    · exact restored r (.inr ((mem_regPair isRn isRm).mpr isOperand))
    · rw [same₅ r (isR.ne (by decide)) (mt (mem_regPair isRn isRm).mp isOperand),
        State.setReg_reg_allocated isR (by decide)]
      rw [not_or] at isOperand
      have not8 : r ≠ r8 := isR.ne (by decide)
      have not9 : r ≠ r9 := isR.ne (by decide)
      have not10 : r ≠ r10 := isR.ne (by decide)
      rw [isDivided.kept.reg r (by simp [not8, not9, isOperand.1, isOperand.2]),
        same₂ r (by simp [not8, not9, not10, isOperand.1, isOperand.2]),
        same₁ r (isR.ne (by decide))]
  · have isMask : s₅.reg r10 = resultMask isDiv rn rm (s.reg rn) (s.reg rm) := by
      have not10N : r10 ≠ rn := (isRn.ne (by decide)).symm
      have not10M : r10 ≠ rm := (isRm.ne (by decide)).symm
      rw [temporary r10 (by decide) (by decide), State.setReg_reg_other (by decide),
        isDivided.kept.reg r10 (by simp [not10N, not10M]), mask]
    rw [isResult, signedResult, isMask]
  · rw [← dividend, ← divisor]
    cases isDiv with
    | true =>
        rw [if_pos rfl, temporary r8 (by decide) (by decide), State.setReg_reg_other (by decide)]
        exact isDivided.quotient
    | false =>
        change (s₅.reg r9).toNat = _
        rw [temporary r9 (by decide) (by decide), State.setReg_reg_same]
        exact isDivided.remainder

end SoftDiv

theorem regPair_range {rn rm : Int} (isRn : IsAllocated rn) (isRm : IsAllocated rm) :
    0 ≤ regPair rn rm ∧ regPair rn rm < 2 ^ 16 := by
  have first : 1 <<< rn.toNat < 2 ^ 16 := by
    rw [Nat.one_shiftLeft]
    exact Nat.pow_lt_pow_right (by decide) (by have := isRn.2; omega)
  have second : 1 <<< rm.toNat < 2 ^ 16 := by
    rw [Nat.one_shiftLeft]
    exact Nat.pow_lt_pow_right (by decide) (by have := isRm.2; omega)
  have both := Nat.or_lt_two_pow first second
  rw [regPair]
  omega

theorem softDiv_valid {isDiv : Bool} {rd rn rm : Int} (isRd : IsAllocated rd)
    (isRn : IsAllocated rn) (isRm : IsAllocated rm) :
    ∀ insn ∈ softDiv isDiv rd rn rm, insn.Valid := by
  have regRd := isRd.isReg
  have regRn := isRn.isReg
  have regRm := isRm.isReg
  have listLow := (regPair_range isRn isRm).1
  have listHigh : regPair rn rm < 65536 := (regPair_range isRn isRm).2
  have branches : Reachable 52 ∧ Reachable 44 ∧ Reachable (-12) ∧ Reachable (-20) :=
    ⟨⟨rfl, by decide, by decide⟩, ⟨rfl, by decide, by decide⟩, ⟨rfl, by decide, by decide⟩,
      ⟨rfl, by decide, by decide⟩⟩
  cases isDiv <;> simp [softDiv, Insn.Valid, regRd, regRn, regRm, listLow, listHigh, branches] <;>
    decide

/-- The mask for a register divided by itself is the right one where its absolute value
is not negative without being the smallest number. -/
theorem selfMask_iff (n : Word) :
    signMask n ^^^ signMask (magnitude n) = 0#32 ↔ 0 ≤ n.toInt ∨ n = 0x80000000#32 := by
  rw [signMask_xor_eq_zero]
  have size := magnitude_toNat n
  have small := magnitude_le n
  have low := BitVec.le_toInt n
  have value := @BitVec.toInt_eq_toNat_cond 32 (magnitude n)
  have high := BitVec.toInt_lt (x := n)
  norm_num at low high
  have smallest : n = 0x80000000#32 ↔ n.toInt = -2147483648 := by
    rw [← BitVec.toInt_inj]
    rfl
  rw [smallest]
  by_cases negative : n.toInt < 0
  · rw [iff_true_left negative]
    split at value <;> constructor <;> omega
  · rw [iff_false_left negative]
    split at value <;> constructor <;> omega

/-- Loaded code runs to one end state. -/
theorem softDiv_reaches {isDiv : Bool} {rd rn rm : Int} (isRd : IsAllocated rd)
    (isRn : IsAllocated rn) (isRm : IsAllocated rm) {fetch : Word → Option Word} {base : Word}
    (loaded : Loaded Insn.encode fetch base (softDiv isDiv rd rn rm)) {s : State}
    (nonzero : s.reg rm ≠ 0#32) :
    ∃ s' result, processor.Reaches fetch base 29 (s, slot base 0) (s', slot base 29) ∧
      (∀ s'', processor.Reaches fetch base 29 (s, slot base 0) (s'', slot base 29) → s'' = s') ∧
      SoftDiv.Preserves rd s s' ∧
      s'.reg rd = (if SoftDiv.resultMask isDiv rn rm (s.reg rn) (s.reg rm) = 0#32 then result
        else -result) ∧
      result.toNat = if isDiv then (magnitude (s.reg rn)).toNat / (magnitude (s.reg rm)).toNat
        else (magnitude (s.reg rn)).toNat % (magnitude (s.reg rm)).toNat := by
  have valid := @softDiv_valid isDiv _ _ _ isRd isRn isRm
  rcases @SoftDiv.runs_all _ _ _ _ (loaded.placed (means_decoded valid)) s isRd isRn isRm nonzero
    with ⟨s', result, ran, others⟩
  exact ⟨s', result, ran, fun s'' ranToo => Processor.Reaches.unique (by decide) ranToo ran, others⟩

/-- The sign is right, except for a quotient of a register by itself where a negative number
that is not the smallest lies in it. -/
theorem SoftDiv.result_eq_iff {isDiv : Bool} {rn rm : Int} {n d result : Word}
    (nonzero : d ≠ 0#32) (self : rn = rm → n = d)
    (value : result.toNat = if isDiv then (magnitude n).toNat / (magnitude d).toNat
      else (magnitude n).toNat % (magnitude d).toNat) :
    (if SoftDiv.resultMask isDiv rn rm n d = 0#32 then result else -result) =
        truncated (!isDiv) n d ↔
      (rn = rm → isDiv = true → 0 ≤ n.toInt ∨ n = 0x80000000#32) := by
  cases isDiv with
  | false => exact iff_of_true (signed_remainder value) fun _ impossible => nomatch impossible
  | true =>
      have quotient := signed_quotient value
      rw [SoftDiv.resultMask, if_pos rfl]
      by_cases same : rn = rm
      · rw [if_pos same]
        rw [← self same] at value quotient nonzero ⊢
        have positive : 0 < (magnitude n).toNat := by
          apply Nat.pos_of_ne_zero
          intro isZero
          exact nonzero (magnitude_eq_zero (BitVec.eq_of_toNat_eq isZero))
        have isOne : result = 1#32 := by
          apply BitVec.eq_of_toNat_eq
          rw [value]
          exact Nat.div_self positive
        rw [BitVec.xor_self, if_pos rfl, isOne] at quotient
        change _ = truncated false n n ↔ _
        rw [← quotient, isOne, ← selfMask_iff]
        constructor
        · intro isRight _ _
          by_contra isNegated
          rw [if_neg isNegated] at isRight
          exact absurd isRight (by decide)
        · intro isMask
          rw [if_pos (isMask same rfl)]
      · rw [if_neg same]
        exact iff_of_true quotient fun isSame => absurd isSame same

/-- The code of a division without the instruction for it. -/
theorem softDiv_of_emitted {env : Env} {p : Program} {elfOffset : BlockId → Nat} {size : Nat}
    {ir : Ph2Ir} {insns : List Insn} (isDivision : ir.op = .div ∨ ir.op = .mod)
    (soft : env.hardMulDiv = false) (emitted : instructions env p elfOffset size ir = some insns) :
    insns = softDiv (ir.op == .div) ir.dest ir.src0 ir.src1 := by
  rcases isDivision with isDiv | isMod
  · rw [isDiv, show (Opcode.div == .div) = true from rfl]
    simpa [instructions, isDiv, soft] using emitted.symm
  · rw [isMod, show (Opcode.mod == .div) = false from rfl]
    simpa [instructions, isMod, soft] using emitted.symm

/-- The emulated division by anything but zero is right, except for a quotient of a
register by itself where a negative number that is not the smallest lies in it. -/
theorem softDiv_right_iff {env : Env} {p : Program} {elfOffset : BlockId → Nat} {size : Nat}
    {ir : Ph2Ir} {insns : List Insn} (isDivision : ir.op = .div ∨ ir.op = .mod)
    (soft : env.hardMulDiv = false) (dest : IsAllocated ir.dest) (src0 : IsAllocated ir.src0)
    (src1 : IsAllocated ir.src1) (emitted : instructions env p elfOffset size ir = some insns)
    {fetch : Word → Option Word} {base : Word} (loaded : Loaded Insn.encode fetch base insns)
    (s : State) (nonzero : s.reg ir.src1 ≠ 0#32) :
    (∃ s', processor.Reaches fetch base insns.length (s, slot base 0)
        (s', slot base insns.length) ∧
      s'.reg ir.dest = truncated (ir.op == .mod) (s.reg ir.src0) (s.reg ir.src1) ∧
        SoftDiv.Preserves ir.dest s s') ↔
      (ir.src0 = ir.src1 → ir.op = .div →
        0 ≤ (s.reg ir.src0).toInt ∨ s.reg ir.src0 = 0x80000000#32) := by
  have isCode := softDiv_of_emitted isDivision soft emitted
  have isLength : insns.length = 29 := by
    rw [isCode]
    rfl
  rw [isLength]
  subst isCode
  rcases softDiv_reaches dest src0 src1 loaded nonzero with
    ⟨s', result, ran, only, preserves, isResult, value⟩
  have isMod : (ir.op == .mod) = !(ir.op == .div) := by
    rcases isDivision with isDiv | isMod
    · rw [isDiv]
      rfl
    · rw [isMod]
      rfl
  have property : (∃ s'', processor.Reaches fetch base 29 (s, slot base 0) (s'', slot base 29) ∧
      s''.reg ir.dest = truncated (ir.op == .mod) (s.reg ir.src0) (s.reg ir.src1) ∧
        SoftDiv.Preserves ir.dest s s'') ↔
      s'.reg ir.dest = truncated (ir.op == .mod) (s.reg ir.src0) (s.reg ir.src1) := by
    constructor
    · rintro ⟨s'', ranToo, isRight, -⟩
      rwa [only s'' ranToo] at isRight
    · intro isRight
      exact ⟨s', ran, isRight, preserves⟩
  rw [property, isResult, isMod,
    SoftDiv.result_eq_iff nonzero (fun same => congrArg s.reg same) value, beq_iff_eq]

/-- Registers 0 and 1 hold -7 and 2. -/
def oddState : State :=
  { clearState with reg := fun r => if r = 0 then -7#32 else if r = 1 then 2#32 else 0#32 }

theorem oddState_divided :
    ∃ s', processor.Reaches (store Insn.encode 0#32 (softDiv true 0 0 1)) 0#32 29
        (oddState, slot 0#32 0) (s', slot 0#32 29) ∧
      s'.reg 0 = truncated false (-7#32) 2#32 ∧ SoftDiv.Preserves 0 oddState s' :=
  (@softDiv_right_iff smallEnv plainProgram (fun _ => 0) 0 { op := .div, src1 := 1 } _ (.inl rfl)
    rfl (by decide) (by decide) (by decide) rfl _ 0#32
    (loaded_of_valid 0#32 (by decide) (softDiv_valid (by decide) (by decide) (by decide))) oddState
    (by decide)).mpr fun same => absurd same (by decide)

/-- Register 0 holds -7. -/
def negativeState : State := { clearState with reg := fun _ => -7#32 }

/-- A negative number divided by itself in its register gives -1. -/
theorem negativeState_notDivided :
    ¬∃ s', processor.Reaches (store Insn.encode 0#32 (softDiv true 0 0 0)) 0#32 29
        (negativeState, slot 0#32 0) (s', slot 0#32 29) ∧
      s'.reg 0 = truncated false (-7#32) (-7#32) ∧ SoftDiv.Preserves 0 negativeState s' := by
  rintro ⟨s', ran, isRight, -⟩
  have isZero : IsAllocated 0 := by decide
  have loaded : Loaded Insn.encode (store Insn.encode 0#32 (softDiv true 0 0 0)) 0#32
      (softDiv true 0 0 0) :=
    loaded_of_valid 0#32 (by decide) (softDiv_valid isZero isZero isZero)
  have nonzero : negativeState.reg 0 ≠ 0#32 := by decide
  rcases softDiv_reaches isZero isZero isZero loaded nonzero with
    ⟨s'', result, -, only, -, isResult, value⟩
  have isOne : result = 1#32 := BitVec.eq_of_toNat_eq value
  rw [only s' ran, isResult, isOne] at isRight
  exact absurd isRight (by decide)

end Shecc.Arm
