import Shecc.Optimize.Fold

/-!
# Algebraic simplification and strength reduction

The rewrites `optimize` applies to an instruction it did not fold, in source
order: the guarded division of a value by itself, the operations of a value on
itself, identity and absorbing constants, and the reduction of a multiplication,
division or remainder by a power of two. The main result says for which values
the simplified instruction still computes what the original one did.
-/

namespace Shecc.Optimize

/-- "Safety guards for division and modulo optimizations". -/
def safetyGuards (vars : Vars) (insn : Insn) : Vars × Insn :=
  match insn.rd, insn.rs1, insn.rs2 with
  | some rd, some rs1, some rs2 =>
      if rs1 = rs2 then
        let isSafe := (vars rs1).isConst && (vars rs1).initVal != 0
        if insn.opcode = .div then
          if isSafe then toLoadConstant vars insn rd 1 else (vars, insn)
        else if insn.opcode = .mod then
          if isSafe then toLoadConstant vars insn rd 0 else (vars, insn)
        else
          (vars, insn)
      else
        (vars, insn)
  | _, _, _ => (vars, insn)

/-- "Self-operation optimizations". -/
def selfOperations (vars : Vars) (insn : Insn) : Vars × Insn :=
  match insn.rd, insn.rs1, insn.rs2 with
  | some rd, some rs1, some rs2 =>
      if rs1 = rs2 then
        match insn.opcode with
        | .sub => toLoadConstant vars insn rd 0
        | .bitXor => toLoadConstant vars insn rd 0
        | .bitAnd => (vars, toAssign insn)
        | .bitOr => (vars, toAssign insn)
        | .eq => toLoadConstant vars insn rd 1
        | .neq => toLoadConstant vars insn rd 0
        | .lt | .gt => toLoadConstant vars insn rd 0
        | .leq | .geq => toLoadConstant vars insn rd 1
        | _ => (vars, insn)
      else
        (vars, insn)
  | _, _, _ => (vars, insn)

/-- "Identity and constant optimizations". -/
def identityAndConstant (vars : Vars) (insn : Insn) : Vars × Insn :=
  match insn.rd, insn.rs2 with
  | some rd, some rs2 =>
      if (vars rs2).isConst then
        let val := (vars rs2).initVal
        if val = 0 then
          match insn.opcode with
          | .add | .sub | .bitOr | .bitXor => (vars, toAssign insn)
          | .mul | .bitAnd => toLoadConstant vars insn rd 0
          | .lshift | .rshift => (vars, toAssign insn)
          | _ => (vars, insn)
        else if val = 1 then
          match insn.opcode with
          | .mul | .div => (vars, toAssign insn)
          | .mod => toLoadConstant vars insn rd 0
          | _ => (vars, insn)
        else if val = -1 then
          match insn.opcode with
          | .bitAnd => (vars, toAssign insn)
          | .bitOr => toLoadConstant vars insn rd (-1)
          | .mul => (vars, { insn with opcode := .negate, rs2 := none })
          | _ => (vars, insn)
        else
          (vars, insn)
      else
        (vars, insn)
  | _, _ => (vars, insn)

/-- "Strength reduction for power-of-2 operations". The constant is edited in
place, in the record of the operand. -/
def strengthReduction (vars : Vars) (insn : Insn) : Vars × Insn :=
  match insn.rd, insn.rs2 with
  | some _, some rs2 =>
      if (vars rs2).isConst then
        let val := (vars rs2).initVal
        if Word.isPowerOfTwo val then
          let shift := Word.countTrailingZeros 32 val 0
          match insn.opcode with
          | .mul =>
              (vars.setInitVal rs2 (BitVec.ofNat 32 shift), { insn with opcode := .lshift })
          | .div =>
              (vars.setInitVal rs2 (BitVec.ofNat 32 shift), { insn with opcode := .rshift })
          | .mod => (vars.setInitVal rs2 (val - 1), { insn with opcode := .bitAnd })
          | _ => (vars, insn)
        else
          (vars, insn)
      else
        (vars, insn)
  | _, _ => (vars, insn)

/-- All simplifications, in source order. -/
def simplify (vars : Vars) (insn : Insn) : Vars × Insn :=
  let guarded := safetyGuards vars insn
  let self := selfOperations guarded.1 guarded.2
  let identity := identityAndConstant self.1 self.2
  strengthReduction identity.1 identity.2

/-- Fold an instruction, or simplify it when folding leaves it alone. -/
def foldOrSimplify (undefined : Opcode → Word → Word → Word) (vars : Vars)
    (prev : Option Insn) (insn : Insn) : Vars × Insn :=
  let folded := constFolding undefined vars prev insn
  if folded.changed then (folded.vars, folded.insn)
  else simplify folded.vars folded.insn

/-! ## The stages that are always right -/

theorem toAssign_computes {vars : Vars} {env : Env} {insn : Insn} {rd rs1 : VarId}
    (destination : insn.rd = some rd) (source : insn.rs1 = some rs1)
    (only : ∀ w, computes vars env insn = some w → w = operand vars env rs1) :
    Computes env (vars, insn) (vars, toAssign insn) := by
  intro w computed
  rcases insn with ⟨op, rd', rs1', rs2, sz, str, useful, idx⟩
  cases destination
  cases source
  simp [toAssign, only w computed]

/-- Every word divided by itself is one, where the quotient is defined. -/
theorem sdiv_self {x : Word} (nonzero : x ≠ 0) : x.sdiv x = 1 := by
  have intNonzero : x.toInt ≠ 0 := by
    intro zero
    exact nonzero (BitVec.eq_of_toInt_eq (by simpa using zero))
  have noOverflow : x ≠ BitVec.intMin 32 ∨ x ≠ -1#32 := by
    by_contra both
    push Not at both
    exact absurd (both.1.symm.trans both.2) (by decide)
  apply BitVec.eq_of_toInt_eq
  rw [BitVec.toInt_sdiv_of_ne_or_ne _ _ noOverflow, Int.tdiv_self intNonzero]
  rfl

theorem srem_self (x : Word) : x.srem x = 0 := by
  apply BitVec.eq_of_toInt_eq
  rw [BitVec.toInt_srem, Int.tmod_self]
  rfl

theorem sdiv_one (x : Word) : x.sdiv 1 = x := by
  apply BitVec.eq_of_toInt_eq
  rw [BitVec.toInt_sdiv_of_ne_or_ne _ _ (Or.inr (by decide))]
  exact Int.tdiv_one _

theorem srem_one (x : Word) : x.srem 1 = 0 := by
  apply BitVec.eq_of_toInt_eq
  rw [BitVec.toInt_srem]
  exact Int.tmod_one _

theorem and_neg_one (x : Word) : x &&& -1 = x :=
  BitVec.and_allOnes

theorem or_neg_one (x : Word) : x ||| -1 = -1 :=
  BitVec.or_allOnes

theorem mul_neg_one (x : Word) : x * -1 = -x := by
  rw [BitVec.mul_neg]
  exact congrArg Neg.neg (BitVec.mul_one x)

/-- The guarded quotient and remainder of a value by itself. -/
theorem safetyGuards_computes (vars : Vars) (env : Env) (insn : Insn) :
    Computes env (vars, insn) (safetyGuards vars insn) := by
  unfold safetyGuards
  split
  · rename_i rd rs1 rs2 rdEq rs1Eq rs2Eq
    by_cases same : rs1 = rs2
    · subst same
      rw [if_pos rfl]
      simp only
      split
      · rename_i isDiv
        split
        · rename_i safe
          refine toLoadConstant_computes rdEq ?_
          intro w computed
          rw [Bool.and_eq_true, bne_iff_ne] at safe
          rw [computes_binary isDiv rdEq rs1Eq rs2Eq rfl] at computed
          simp only [operand_of_const env safe.1, Opcode.binary] at computed
          split at computed
          · rw [sdiv_self safe.2] at computed
            exact (Option.some.inj computed).symm
          · cases computed
        · exact Computes.refl env _
      · split
        · rename_i isMod
          split
          · refine toLoadConstant_computes rdEq ?_
            intro w computed
            rw [computes_binary isMod rdEq rs1Eq rs2Eq rfl] at computed
            simp only [Opcode.binary] at computed
            split at computed
            · rw [srem_self] at computed
              exact (Option.some.inj computed).symm
            · cases computed
          · exact Computes.refl env _
        · exact Computes.refl env _
    · rw [if_neg same]
      exact Computes.refl env _
  · exact Computes.refl env _

/-- A value combined with itself. -/
theorem selfOperations_computes (vars : Vars) (env : Env) (insn : Insn) :
    Computes env (vars, insn) (selfOperations vars insn) := by
  unfold selfOperations
  split
  · rename_i rd rs1 rs2 rdEq rs1Eq rs2Eq
    by_cases same : rs1 = rs2
    · subst same
      rw [if_pos rfl]
      -- What the instruction computes, once its opcode is known.
      have value {op : Opcode} (opcodeEq : insn.opcode = op) (binary : op.isBinary = true) :=
        computes_binary opcodeEq rdEq rs1Eq rs2Eq binary vars env
      split
      case h_3 opcodeEq | h_4 opcodeEq =>
        refine toAssign_computes rdEq rs1Eq ?_
        intro w computed
        rw [value opcodeEq rfl] at computed
        simpa [Opcode.binary] using computed.symm
      case h_11 => exact Computes.refl env _
      all_goals
        rename_i opcodeEq
        refine toLoadConstant_computes rdEq ?_
        intro w computed
        rw [value opcodeEq rfl] at computed
        simpa [Opcode.binary, Word.ofBool, BitVec.slt, BitVec.sle] using computed.symm
    · rw [if_neg same]
      exact Computes.refl env _
  · exact Computes.refl env _

/-- A constant second operand that is neutral or absorbing. -/
theorem identityAndConstant_computes (vars : Vars) (env : Env) (insn : Insn)
    (source : insn.rs1.isSome) :
    Computes env (vars, insn) (identityAndConstant vars insn) := by
  obtain ⟨rs1, rs1Eq⟩ := Option.isSome_iff_exists.mp source
  unfold identityAndConstant
  split
  · rename_i rd rs2 rdEq rs2Eq
    split
    · rename_i constant
      have value {op : Opcode} (opcodeEq : insn.opcode = op) (binary : op.isBinary = true) :
          computes vars env insn =
            op.binary (operand vars env rs1) (vars rs2).initVal := by
        rw [computes_binary opcodeEq rdEq rs1Eq rs2Eq binary vars env,
          operand_of_const env constant]
      simp only
      split
      · rename_i isZero
        rw [isZero] at value
        split
        case h_1 opcodeEq | h_2 opcodeEq | h_3 opcodeEq | h_4 opcodeEq | h_7 opcodeEq |
            h_8 opcodeEq =>
          refine toAssign_computes rdEq rs1Eq ?_
          intro w computed
          rw [value opcodeEq rfl] at computed
          simpa [Opcode.binary] using computed.symm
        case h_5 opcodeEq | h_6 opcodeEq =>
          refine toLoadConstant_computes rdEq ?_
          intro w computed
          rw [value opcodeEq rfl] at computed
          simpa [Opcode.binary] using computed.symm
        case h_9 => exact Computes.refl env _
      · split
        · rename_i isOne
          rw [isOne] at value
          split
          case h_1 opcodeEq =>
            refine toAssign_computes rdEq rs1Eq ?_
            intro w computed
            rw [value opcodeEq rfl] at computed
            simpa [Opcode.binary] using computed.symm
          case h_2 opcodeEq =>
            refine toAssign_computes rdEq rs1Eq ?_
            intro w computed
            rw [value opcodeEq rfl] at computed
            simp only [Opcode.binary, sdiv_one] at computed
            split at computed
            · exact (Option.some.inj computed).symm
            · cases computed
          case h_3 opcodeEq =>
            refine toLoadConstant_computes rdEq ?_
            intro w computed
            rw [value opcodeEq rfl] at computed
            simp only [Opcode.binary, srem_one] at computed
            split at computed
            · exact (Option.some.inj computed).symm
            · cases computed
          case h_4 => exact Computes.refl env _
        · split
          · rename_i isNegOne
            rw [isNegOne] at value
            split
            case h_1 opcodeEq =>
              refine toAssign_computes rdEq rs1Eq ?_
              intro w computed
              rw [value opcodeEq rfl] at computed
              rw [Opcode.binary, and_neg_one] at computed
              exact (Option.some.inj computed).symm
            case h_2 opcodeEq =>
              refine toLoadConstant_computes rdEq ?_
              intro w computed
              rw [value opcodeEq rfl] at computed
              rw [Opcode.binary, or_neg_one] at computed
              exact (Option.some.inj computed).symm
            case h_3 opcodeEq =>
              intro w computed
              rw [value opcodeEq rfl] at computed
              rw [Opcode.binary, mul_neg_one] at computed
              rw [computes]
              simp only [rdEq, rs1Eq, Opcode.unary]
              exact computed
            case h_4 => exact Computes.refl env _
          · exact Computes.refl env _
    · exact Computes.refl env _
  · exact Computes.refl env _

/-! ## Which stage acts -/

theorem safetyGuards_ne (vars : Vars) {insn : Insn} (different : insn.rs1 ≠ insn.rs2) :
    safetyGuards vars insn = (vars, insn) := by
  unfold safetyGuards
  split
  · rename_i rs1Eq rs2Eq
    rw [rs1Eq, rs2Eq] at different
    rw [if_neg (fun same => different (congrArg some same))]
  · rfl

theorem selfOperations_ne (vars : Vars) {insn : Insn} (different : insn.rs1 ≠ insn.rs2) :
    selfOperations vars insn = (vars, insn) := by
  unfold selfOperations
  split
  · rename_i rs1Eq rs2Eq
    rw [rs1Eq, rs2Eq] at different
    rw [if_neg (fun same => different (congrArg some same))]
  · rfl

theorem selfOperations_rs2_none (vars : Vars) {insn : Insn} (missing : insn.rs2 = none) :
    selfOperations vars insn = (vars, insn) := by
  unfold selfOperations
  split
  · rename_i rs2Eq
    cases missing.symm.trans rs2Eq
  · rfl

theorem identityAndConstant_rs2_none (vars : Vars) {insn : Insn} (missing : insn.rs2 = none) :
    identityAndConstant vars insn = (vars, insn) := by
  unfold identityAndConstant
  split
  · rename_i rs2Eq
    cases missing.symm.trans rs2Eq
  · rfl

theorem strengthReduction_rs2_none (vars : Vars) {insn : Insn} (missing : insn.rs2 = none) :
    strengthReduction vars insn = (vars, insn) := by
  unfold strengthReduction
  split
  · rename_i rs2Eq
    cases missing.symm.trans rs2Eq
  · rfl

/-- A stage either leaves the site alone or drops the second operand, after
which no later stage acts. -/
def Settles (site result : Vars × Insn) : Prop :=
  result = site ∨
    result.2.rs2 = none ∧ Benign site.1 site.2 result.1 result.2 ∧
      site.2.opcode.isBinary = true

theorem settles_loadConstant {vars : Vars} {insn : Insn} {rd : VarId} {value : Word}
    (rdEq : insn.rd = some rd) (binary : insn.opcode.isBinary = true) :
    Settles (vars, insn) (toLoadConstant vars insn rd value) :=
  Or.inr ⟨rfl, .constant rdEq rdEq rfl (Or.inr (Or.inl binary)), binary⟩

theorem settles_assign {vars : Vars} {insn : Insn} (binary : insn.opcode.isBinary = true) :
    Settles (vars, insn) (vars, toAssign insn) :=
  Or.inr ⟨rfl, .move rfl (Or.inl rfl) binary, binary⟩

theorem safetyGuards_settles (vars : Vars) (insn : Insn) :
    Settles (vars, insn) (safetyGuards vars insn) := by
  unfold safetyGuards
  split
  · rename_i rd rs1 rs2 rdEq rs1Eq rs2Eq
    split
    · simp only
      split
      · rename_i isDiv
        split
        · exact settles_loadConstant rdEq (by rw [isDiv]; rfl)
        · exact Or.inl rfl
      · split
        · rename_i isMod
          split
          · exact settles_loadConstant rdEq (by rw [isMod]; rfl)
          · exact Or.inl rfl
        · exact Or.inl rfl
    · exact Or.inl rfl
  · exact Or.inl rfl

theorem selfOperations_settles (vars : Vars) (insn : Insn) :
    Settles (vars, insn) (selfOperations vars insn) := by
  unfold selfOperations
  split
  · rename_i rd rs1 rs2 rdEq rs1Eq rs2Eq
    split
    · split <;> first
        | exact Or.inl rfl
        | (rename_i opcodeEq
           first
             | exact settles_loadConstant rdEq (by rw [opcodeEq]; rfl)
             | exact settles_assign (by rw [opcodeEq]; rfl))
    · exact Or.inl rfl
  · exact Or.inl rfl

theorem identityAndConstant_settles (vars : Vars) (insn : Insn) :
    Settles (vars, insn) (identityAndConstant vars insn) := by
  unfold identityAndConstant
  split
  · rename_i rd rs2 rdEq rs2Eq
    split
    · simp only
      split
      · split <;> first
          | exact Or.inl rfl
          | (rename_i opcodeEq
             first
               | exact settles_loadConstant rdEq (by rw [opcodeEq]; rfl)
               | exact settles_assign (by rw [opcodeEq]; rfl))
      · split
        · split <;> first
            | exact Or.inl rfl
            | (rename_i opcodeEq
               first
                 | exact settles_loadConstant rdEq (by rw [opcodeEq]; rfl)
                 | exact settles_assign (by rw [opcodeEq]; rfl))
        · split
          · split
            case h_1 opcodeEq => exact settles_assign (by rw [opcodeEq]; rfl)
            case h_2 opcodeEq => exact settles_loadConstant rdEq (by rw [opcodeEq]; rfl)
            case h_3 opcodeEq =>
              have binary : insn.opcode.isBinary = true := by rw [opcodeEq]; rfl
              exact Or.inr ⟨rfl, .move rfl (Or.inr ⟨rfl, rfl⟩) binary, binary⟩
            case h_4 => exact Or.inl rfl
          · exact Or.inl rfl
    · exact Or.inl rfl
  · exact Or.inl rfl

/-- The four stages as alternatives: an earlier stage finishes the instruction
with a value it also had before, or only strength reduction sees it. -/
theorem simplify_cases (vars : Vars) (insn : Insn) :
    (Benign vars insn (simplify vars insn).1 (simplify vars insn).2 ∧
        insn.opcode.isBinary = true ∧
        ∀ env, insn.rs1.isSome → Computes env (vars, insn) (simplify vars insn)) ∨
      identityAndConstant vars insn = (vars, insn) ∧
        simplify vars insn = strengthReduction vars insn := by
  have finished {site : Vars × Insn} (missing : site.2.rs2 = none) :
      strengthReduction site.1 site.2 = site := strengthReduction_rs2_none site.1 missing
  unfold simplify
  simp only
  rcases safetyGuards_settles vars insn with same | ⟨missing, benign, binary⟩
  · rw [same]
    rcases selfOperations_settles vars insn with same | ⟨missing, benign, binary⟩
    · rw [same]
      rcases identityAndConstant_settles vars insn with same | ⟨missing, benign, binary⟩
      · rw [same]
        exact Or.inr ⟨rfl, rfl⟩
      · left
        rw [finished missing]
        exact ⟨benign, binary, fun env source => identityAndConstant_computes vars env insn source⟩
    · left
      rw [identityAndConstant_rs2_none _ missing, finished missing]
      exact ⟨benign, binary, fun env _ => selfOperations_computes vars env insn⟩
  · left
    rw [selfOperations_rs2_none _ missing, identityAndConstant_rs2_none _ missing,
      finished missing]
    exact ⟨benign, binary, fun env _ => safetyGuards_computes vars env insn⟩

/-! ## Strength reduction -/

theorem strengthReduction_not_const {vars : Vars} {op : Opcode} {rd x y : VarId}
    (variable_ : (vars y).isConst = false) :
    strengthReduction vars (Insn.binary op rd x y) = (vars, Insn.binary op rd x y) := by
  simp [strengthReduction, variable_]

theorem strengthReduction_not_pow2 {vars : Vars} {op : Opcode} {rd x y : VarId}
    (other : Word.isPowerOfTwo (vars y).initVal = false) :
    strengthReduction vars (Insn.binary op rd x y) = (vars, Insn.binary op rd x y) := by
  simp [strengthReduction, other]

/-- Strength reduction leaves the site alone or edits the power of two in the
record of the second operand. -/
theorem strengthReduction_cases (vars : Vars) (insn : Insn) :
    strengthReduction vars insn = (vars, insn) ∨
      ∃ y n value op,
        (insn.opcode = .mul ∨ insn.opcode = .div ∨ insn.opcode = .mod) ∧
          insn.rs2 = some y ∧ (vars y).isConst = true ∧ n < 31 ∧
          (vars y).initVal = Word.pow2 n ∧ (1 ≤ n → value ≠ Word.pow2 n) ∧
          op.isBinary = true ∧ op ≠ .add ∧
          strengthReduction vars insn = (vars.setInitVal y value, { insn with opcode := op }) := by
  unfold strengthReduction
  split
  · rename_i rd y rdEq rs2Eq
    split
    · rename_i constant
      simp only
      split
      · rename_i power
        obtain ⟨n, small, value⟩ := (Word.isPowerOfTwo_iff _).mp power
        have shift : Word.countTrailingZeros 32 (vars y).initVal 0 = n := by
          rw [value, Word.countTrailingZeros_pow2 small (by omega), Nat.zero_add]
        have exponentBelow : BitVec.ofNat 32 n ≠ Word.pow2 n := by
          intro equal
          have natEqual := congrArg BitVec.toNat equal
          rw [Word.pow2_toNat small, BitVec.toNat_ofNat, Nat.mod_eq_of_lt (by omega)] at natEqual
          exact absurd natEqual (Nat.ne_of_lt Nat.lt_two_pow_self)
        have maskBelow : Word.pow2 n - 1 ≠ Word.pow2 n := by
          intro equal
          have one : (1 : Word) = 0 := sub_eq_self.mp equal
          exact absurd one (by decide)
        split
        · rename_i isMul
          exact Or.inr ⟨y, n, _, .lshift, Or.inl isMul, rs2Eq, constant, small, value,
            fun _ => by rw [shift]; exact exponentBelow, rfl, by decide, rfl⟩
        · rename_i isDiv
          exact Or.inr ⟨y, n, _, .rshift, Or.inr (Or.inl isDiv), rs2Eq, constant, small, value,
            fun _ => by rw [shift]; exact exponentBelow, rfl, by decide, rfl⟩
        · rename_i isMod
          exact Or.inr ⟨y, n, _, .bitAnd, Or.inr (Or.inr isMod), rs2Eq, constant, small, value,
            fun _ => by rw [value]; exact maskBelow, rfl, by decide, rfl⟩
        · exact Or.inl rfl
      · exact Or.inl rfl
    · exact Or.inl rfl
  · exact Or.inl rfl

/-- The identities keep a multiplication, division or remainder by one away from
strength reduction. -/
theorem exponent_positive {vars : Vars} {insn : Insn} {rd y : VarId} {n : Nat}
    (rdEq : insn.rd = some rd) (rs2Eq : insn.rs2 = some y) (constant : (vars y).isConst = true)
    (power : (vars y).initVal = Word.pow2 n)
    (source : insn.opcode = .mul ∨ insn.opcode = .div ∨ insn.opcode = .mod)
    (same : identityAndConstant vars insn = (vars, insn)) : 1 ≤ n := by
  by_contra zero
  obtain rfl : n = 0 := by omega
  have one : (vars y).initVal = 1 := power
  have missing : (identityAndConstant vars insn).2.rs2 = none := by
    unfold identityAndConstant
    rcases source with opcodeEq | opcodeEq | opcodeEq <;>
      simp [rdEq, rs2Eq, constant, one, opcodeEq, toAssign, toLoadConstant]
  rw [same, rs2Eq] at missing
  cases missing

/-- An operation of a variable by a constant power of two from two on goes
straight to strength reduction. -/
theorem simplify_pow2 {vars : Vars} {insn : Insn} {x y : VarId} {n : Nat}
    (rs1Eq : insn.rs1 = some x) (rs2Eq : insn.rs2 = some y)
    (dividend : (vars x).isConst = false) (constant : (vars y).isConst = true)
    (positive : 1 ≤ n) (small : n < 31) (power : (vars y).initVal = Word.pow2 n) :
    simplify vars insn = strengthReduction vars insn := by
  have different : insn.rs1 ≠ insn.rs2 := by
    rw [rs1Eq, rs2Eq]
    intro same
    rw [Option.some.inj same, constant] at dividend
    cases dividend
  have notZero : Word.pow2 n ≠ 0 := Word.pow2_ne_zero small
  have notOne : Word.pow2 n ≠ 1 := by
    intro one
    have exponent := Word.pow2_injective small (show 0 < 31 by omega) one
    omega
  have notNegOne : Word.pow2 n ≠ -1 := Word.pow2_ne_neg_one small
  have unchanged : identityAndConstant vars insn = (vars, insn) := by
    unfold identityAndConstant
    split
    · rename_i rs2Eq'
      obtain rfl := Option.some.inj (rs2Eq.symm.trans rs2Eq')
      simp only [power, notZero, notOne, notNegOne, if_false, ite_self]
    · rfl
  rw [simplify, safetyGuards_ne vars different]
  simp only
  rw [selfOperations_ne vars different]
  simp only [unchanged]

/-- A dividend that is negative and not a multiple of the power of two in the
second operand: the only place where a shift or a mask goes wrong. -/
def RoundsDown (vars : Vars) (env : Env) (op : Opcode) (x y : VarId) : Prop :=
  (op = .div ∨ op = .mod) ∧ (vars x).isConst = false ∧ (vars y).isConst = true ∧
    ∃ n, 1 ≤ n ∧ n < 31 ∧ (vars y).initVal = Word.pow2 n ∧
      (env x).toInt < 0 ∧ ¬(2 ^ n : Int) ∣ (env x).toInt

/-- The values around the reduction of `x op 2 ^ n`. -/
theorem strengthReduction_pow2 {vars : Vars} {env : Env} {op : Opcode} {rd x y : VarId}
    {n : Nat} (small : n < 31) (dividend : (vars x).isConst = false)
    (constant : (vars y).isConst = true) (power : (vars y).initVal = Word.pow2 n) :
    Computes env (vars, Insn.binary op rd x y)
        (strengthReduction vars (Insn.binary op rd x y)) ↔
      (op = .div ∨ op = .mod → 0 ≤ (env x).toInt ∨ (2 ^ n : Int) ∣ (env x).toInt) := by
  have different : x ≠ y := by
    rintro rfl
    rw [dividend] at constant
    cases constant
  have fires : Word.isPowerOfTwo (vars y).initVal = true :=
    (Word.isPowerOfTwo_iff _).mpr ⟨n, small, power⟩
  have shift : Word.countTrailingZeros 32 (vars y).initVal 0 = n := by
    rw [power, Word.countTrailingZeros_pow2 small (by omega), Nat.zero_add]
  have shiftNat : (BitVec.ofNat 32 n).toNat = n := by
    rw [BitVec.toNat_ofNat, Nat.mod_eq_of_lt (by omega)]
  have readX (value : Word) : operand (vars.setInitVal y value) env x = env x := by
    rw [operand_congr (Vars.setInitVal_ne vars value different),
      operand_of_not_const env dividend]
  have readY (value : Word) : operand (vars.setInitVal y value) env y = value := by
    rw [operand_of_const env (by simpa using constant)]
    simp
  have before : computes vars env (Insn.binary op rd x y) = op.binary (env x) (Word.pow2 n) ∨
      op.isBinary = false := by
    by_cases binary : op.isBinary = true
    · left
      rw [computes_binary rfl rfl rfl rfl binary, operand_of_not_const env dividend,
        operand_of_const env constant, power]
    · exact Or.inr (by simpa using binary)
  by_cases isMul : op = .mul
  · subst isMul
    rcases before with before | impossible
    · constructor
      · rintro - (isDiv | isMod)
        · cases isDiv
        · cases isMod
      · intro _ w computed
        rw [before, Opcode.binary, Word.mul_pow2] at computed
        simp only [strengthReduction, constant, fires, shift, if_true]
        rw [computes_binary rfl rfl rfl rfl rfl, readX, readY, Opcode.binary, shiftNat,
          if_pos (by omega)]
        exact computed
    · cases impossible
  · by_cases isDiv : op = .div
    · subst isDiv
      rcases before with before | impossible
      · have after : computes (strengthReduction vars (Insn.binary .div rd x y)).1 env
            (strengthReduction vars (Insn.binary .div rd x y)).2 =
              some ((env x).sshiftRight n) := by
          simp only [strengthReduction, constant, fires, shift, if_true]
          rw [computes_binary rfl rfl rfl rfl rfl, readX, readY, Opcode.binary, shiftNat,
            if_pos (by omega)]
        rw [Opcode.binary, if_pos (Word.divides_pow2 _ small)] at before
        rw [Computes, before, after]
        constructor
        · intro agree _
          exact (Word.sdiv_pow2_eq_sshiftRight_iff (env x) small).mp
            (Option.some.inj (agree _ rfl))
        · intro exactDividend w computed
          rw [← computed, (Word.sdiv_pow2_eq_sshiftRight_iff (env x) small).mpr
            (exactDividend (Or.inl rfl))]
      · cases impossible
    · by_cases isMod : op = .mod
      · subst isMod
        rcases before with before | impossible
        · have after : computes (strengthReduction vars (Insn.binary .mod rd x y)).1 env
              (strengthReduction vars (Insn.binary .mod rd x y)).2 =
                some (env x &&& (Word.pow2 n - 1#32)) := by
            simp only [strengthReduction, constant, fires, if_true]
            rw [computes_binary rfl rfl rfl rfl rfl, readX, readY, Opcode.binary, power]
            rfl
          rw [Opcode.binary, if_pos (Word.divides_pow2 _ small)] at before
          rw [Computes, before, after]
          constructor
          · intro agree _
            exact (Word.srem_pow2_eq_and_iff (env x) small).mp
              (Option.some.inj (agree _ rfl))
          · intro exactDividend w computed
            rw [← computed, (Word.srem_pow2_eq_and_iff (env x) small).mpr
              (exactDividend (Or.inr rfl))]
        · cases impossible
      · have unchanged : strengthReduction vars (Insn.binary op rd x y) =
            (vars, Insn.binary op rd x y) := by
          unfold strengthReduction
          simp only [constant, fires, if_true]
        rw [unchanged]
        constructor
        · rintro - (divides | remains)
          · exact absurd divides isDiv
          · exact absurd remains isMod
        · intro _
          exact Computes.refl env _

/-! ## Folding and simplification together -/

variable (undefined : Opcode → Word → Word → Word)

/-- An instruction that was not folded has a variable operand, or a zero
divisor. -/
theorem not_folded {vars : Vars} {op : Opcode} {rd x y : VarId}
    (binary : op.isBinary = true)
    (unchanged : (evalConstArithmetic undefined vars (Insn.binary op rd x y)).changed = false) :
    evalConstArithmetic undefined vars (Insn.binary op rd x y) =
        ⟨false, vars, Insn.binary op rd x y⟩ ∧
      ((vars x).isConst = false ∨ (vars y).isConst = false ∨ (vars y).initVal = 0) := by
  simp only [evalConstArithmetic] at unchanged ⊢
  split at unchanged
  · rename_i constants
    rw [if_pos constants]
    split at unchanged
    · cases unchanged
    · rename_i early
      refine ⟨rfl, Or.inr (Or.inr ?_)⟩
      simp only [foldBinary, binary, Bool.true_eq_false, if_false] at early
      split at early
      · rename_i zero
        exact zero.2
      · cases early
  · rename_i notBoth
    rw [if_neg notBoth]
    refine ⟨rfl, ?_⟩
    cases dividend : (vars x).isConst
    · exact Or.inl rfl
    · refine Or.inr (Or.inl ?_)
      simpa [dividend] using notBoth

/-- Folding and simplification keep the value of `rd = x op y` exactly when the
instruction is not a division or remainder of a negative value by a power of two
that does not divide it. -/
theorem foldOrSimplify_computes_iff (vars : Vars) (prev : Option Insn) (env : Env)
    (op : Opcode) (binary : op.isBinary = true) (rd x y : VarId) :
    Computes env (vars, Insn.binary op rd x y)
        (foldOrSimplify undefined vars prev (Insn.binary op rd x y)) ↔
      ¬RoundsDown vars env op x y := by
  rw [foldOrSimplify, constFolding_binary undefined binary]
  by_cases changed :
      (evalConstArithmetic undefined vars (Insn.binary op rd x y)).changed = true
  · rw [if_pos changed]
    obtain ⟨agree, constant⟩ := evalConstArithmetic_binary undefined env changed
    constructor
    · rintro - ⟨-, variable_, -⟩
      rw [constant] at variable_
      cases variable_
    · intro _
      exact agree
  · obtain ⟨same, reason⟩ := not_folded undefined binary (by simpa using changed)
    rw [if_neg changed, same]
    simp only
    constructor
    · rintro agree ⟨isDivision, dividend, constant, n, positive, small, power, negative, partial_⟩
      have reduced : simplify vars (Insn.binary op rd x y) =
          strengthReduction vars (Insn.binary op rd x y) :=
        simplify_pow2 rfl rfl dividend constant positive small power
      rw [reduced, strengthReduction_pow2 small dividend constant power] at agree
      rcases agree isDivision with nonnegative | divides
      · omega
      · exact partial_ divides
    · intro exactDividend
      rcases simplify_cases vars (Insn.binary op rd x y) with ⟨-, -, agree⟩ | ⟨-, reduced⟩
      · exact agree env rfl
      · rw [reduced]
        cases constant : (vars y).isConst with
        | false =>
            rw [strengthReduction_not_const constant]
            exact Computes.refl env _
        | true =>
            cases power : Word.isPowerOfTwo (vars y).initVal with
            | false =>
                rw [strengthReduction_not_pow2 power]
                exact Computes.refl env _
            | true =>
                obtain ⟨n, small, value⟩ := (Word.isPowerOfTwo_iff _).mp power
                have dividend : (vars x).isConst = false := by
                  rcases reason with dividend | variable_ | zero
                  · exact dividend
                  · rw [constant] at variable_
                    cases variable_
                  · exact absurd (value.symm.trans zero) (Word.pow2_ne_zero small)
                rw [strengthReduction_pow2 small dividend constant value]
                intro isDivision
                by_contra neither
                push Not at neither
                refine exactDividend
                  ⟨isDivision, dividend, constant, n, ?_, small, value, neither.1, neither.2⟩
                by_contra zeroExponent
                obtain rfl : n = 0 := by omega
                exact neither.2 (by simp)

/-- The records of a division by the constant two: the divisor is variable
`1`. -/
def divideByTwo : Vars :=
  fun v => if v = 1 then { isConst := true, initVal := 2 } else {}

/-- On six the two instructions agree. -/
theorem half_of_six :
    Computes (fun _ => 6) (divideByTwo, Insn.binary .div 2 0 1)
      (foldOrSimplify (fun _ _ _ => 0) divideByTwo none (Insn.binary .div 2 0 1)) :=
  (foldOrSimplify_computes_iff (fun _ _ _ => 0) divideByTwo none (fun _ => 6) .div rfl 2 0
    1).mpr fun roundsDown => by
      obtain ⟨-, -, -, n, -, -, -, negative, -⟩ := roundsDown
      exact absurd negative (by decide)

/-- Minus seven halved is minus three, and the shift gives minus four. -/
theorem half_of_minus_seven :
    computes divideByTwo (fun _ => -7) (Insn.binary .div 2 0 1) = some (-3) ∧
      (let left := foldOrSimplify (fun _ _ _ => 0) divideByTwo none (Insn.binary .div 2 0 1)
       computes left.1 (fun _ => -7) left.2) = some (-4) := by
  decide

end Shecc.Optimize
