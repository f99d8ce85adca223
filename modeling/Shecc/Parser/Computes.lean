import Shecc.Parser.Records

/-!
# What straight code computes

Code that gives a new variable a value and changes nothing else that was known
before: the pieces the parser emits are put together by what they compute.
-/

namespace Shecc.Parser

/-- The result has a value, and beyond new variables nothing else changed. -/
structure Delivers (world : World) (vars : Vars) (known : Nat) (result : VarId) (value : Word)
    (s s' : State) : Prop where
  value : s'.value world vars result = value
  memory : s'.memory = s.memory
  args : s'.args = s.args
  ret : s'.ret = s.ret
  env : ∀ v < known, s'.env v = s.env v

section

variable {world : World} {vars : Vars} {known : Nat} {result val : VarId} {value : Word}
  {s t : State}

theorem Delivers.mono {other : Nat} (delivers : Delivers world vars known result value t s)
    (less : other ≤ known) : Delivers world vars other result value t s :=
  ⟨delivers.value, delivers.memory, delivers.args, delivers.ret,
    fun v old => delivers.env v (Nat.lt_of_lt_of_le old less)⟩

/-- A new variable gets a value. -/
theorem delivers_assign (notResident : resident vars val = false) (new : known ≤ val) :
    Delivers world vars known val value s (s.assign world vars val value) := by
  refine ⟨State.value_assign_same _ _ _ _ _, ?_, ?_, ?_, ?_⟩
  case refine_4 =>
    intro v old
    have other : v ≠ val := Nat.ne_of_lt (Nat.lt_of_lt_of_le old new)
    simp [State.assign, notResident, other]
  all_goals simp [State.assign, notResident]

theorem Delivers.trans {middle : State} {last : VarId} {w : Word}
    (first : Delivers world vars known val w t middle)
    (second : Delivers world vars known last value middle s) :
    Delivers world vars known last value t s where
  value := second.value
  memory := second.memory.trans first.memory
  args := second.args.trans first.args
  ret := second.ret.trans first.ret
  env v old := (second.env v old).trans (first.env v old)

end

/-- Code that always runs, and then the result has a value. -/
structure Computes (world : World) (vars : Vars) (code : List Insn) (known : Nat) (result : VarId)
    (value : State → Word) : Prop where
  runs : ∀ t, ∃ s, Executes world vars code t s
  delivers : ∀ {t s}, Executes world vars code t s →
    Delivers world vars known result (value t) t s

/-- An assignment of what was computed. -/
theorem Computes.assign {world : World} {vars : Vars} {code : List Insn} {known : Nat}
    {result last : VarId} {value : State → Word}
    (computes : Computes world vars code known result value)
    (notResident : resident vars last = false) (new : known ≤ last) :
    Computes world vars
      (code ++ [{ opcode := .assign, rd := some last, rs1 := some result }]) known last value where
  runs t := by
    rcases computes.runs t with ⟨middle, executes⟩
    exact ⟨_, Executes.append_iff.mpr ⟨middle, executes, .cons (exec_assign_iff.mpr rfl) (.nil _)⟩⟩
  delivers := by
    intro t s executes
    rcases Executes.append_iff.mp executes with ⟨middle, before, behind⟩
    rcases Executes.cons_iff.mp behind with ⟨last, step, behind⟩
    cases Executes.nil_iff.mp behind
    cases exec_assign_iff.mp step
    have first := computes.delivers before
    refine first.trans ?_
    rw [first.value]
    exact delivers_assign notResident new

section

variable {world : World} {vars : Vars} {known : Nat} {code others : List Insn}
  {result last : VarId} {value value' : State → Word} {s t : State} {w : Word}

/-- A variable that was known keeps its value. -/
theorem Delivers.value_eq (delivers : Delivers world vars known result w t s) {v : VarId}
    (old : v < known) : s.value world vars v = t.value world vars v := by
  unfold State.value
  rw [delivers.memory, delivers.env v old]

theorem Computes.mono {more : Nat} (computes : Computes world vars code more result value)
    (less : known ≤ more) : Computes world vars code known result value :=
  ⟨computes.runs, fun executes => (computes.delivers executes).mono less⟩

/-- An instruction that gives a new variable a value. -/
theorem computes_of_exec {insn : Insn} (notResident : resident vars result = false)
    (new : known ≤ result)
    (exec : ∀ t s, Exec world vars insn t s ↔ s = t.assign world vars result (value t)) :
    Computes world vars [insn] known result value where
  runs t := ⟨_, .cons ((exec t _).mpr rfl) (.nil _)⟩
  delivers := by
    intro t s executes
    rcases Executes.cons_iff.mp executes with ⟨middle, step, behind⟩
    cases Executes.nil_iff.mp behind
    cases (exec t _).mp step
    exact delivers_assign notResident new

/-- Code behind other code, whose result it may use. -/
theorem Computes.andThen {value'' : State → Word}
    (first : Computes world vars code known result value)
    (second : Computes world vars others known last value')
    (valueEq : ∀ {t s}, Delivers world vars known result (value t) t s → value' s = value'' t) :
    Computes world vars (code ++ others) known last value'' where
  runs t := by
    rcases first.runs t with ⟨middle, before⟩
    rcases second.runs middle with ⟨s, behind⟩
    exact ⟨s, Executes.append_iff.mpr ⟨middle, before, behind⟩⟩
  delivers := by
    intro t s executes
    rcases Executes.append_iff.mp executes with ⟨middle, before, behind⟩
    have delivered := first.delivers before
    rw [← valueEq delivered]
    exact delivered.trans (second.delivers behind)

end

end Shecc.Parser
