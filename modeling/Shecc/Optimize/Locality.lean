import Shecc.Ir.Exec
import Shecc.Optimize.Invariant

/-!
# Rewriting one instruction leaves the others alone

`optimize` rewrites an instruction by editing the instruction itself and the
records of variables. Other instructions see the edit only through the records
they read. This file compares what every other instruction reads and computes
before and after one round of the loop: they agree except when the round reduces
the strength of an operation, because that edit changes the constant itself.
-/

namespace Shecc.Optimize

/-- `other` reads and computes the same under both tables of records. -/
def Undisturbed (vars vars' : Vars) (env : Env) (other : Insn) : Prop :=
  (∀ v ∈ uses other, operand vars' env v = operand vars env v) ∧
    computes vars' env other = computes vars env other

/-- The environment is one in which `insn` has just been executed. -/
def JustExecuted (vars : Vars) (env : Env) (insn : Insn) : Prop :=
  ∃ rd w, insn.rd = some rd ∧ computes vars env insn = some w ∧ env rd = w

variable (undefined : Opcode → Word → Word → Word) (idom : BlockId → BlockId) (fuel : Nat)

/-- Visiting `insn` disturbs no other instruction of the function, whatever the
values of the variables. -/
def Local (c : Cursor) (insn : Insn) (rest : List Insn) : Prop :=
  ∀ env, JustExecuted c.vars env insn → ∀ other ∈ c.behind ++ c.ahead rest,
    Undisturbed c.vars (visit undefined idom fuel c insn rest).vars env other

/-- Instructions see the records only through their operands and the constant
they load. -/
theorem undisturbed_of_reads {vars vars' : Vars} {env : Env} {other : Insn}
    (reads : ∀ v ∈ uses other, operand vars' env v = operand vars env v)
    (loads : other.opcode = .loadConstant → ∀ v ∈ other.rd,
      (vars' v).initVal = (vars v).initVal) :
    Undisturbed vars vars' env other := by
  refine ⟨reads, ?_⟩
  rcases other with ⟨op, rd, rs1, rs2, sz, str, useful, idx⟩
  cases rd with
  | none => cases op <;> rfl
  | some rd =>
      by_cases isLoad : op = .loadConstant
      · subst isLoad
        simp [loads rfl rd rfl]
      · cases rs1 with
        | none => cases op <;> first | rfl | exact absurd rfl isLoad
        | some x =>
            have first := reads x (by simp [uses])
            cases rs2 with
            | none => cases op <;> first | exact absurd rfl isLoad | simp [computes, first]
            | some y =>
                have second := reads y (by simp [uses])
                cases op <;> first | exact absurd rfl isLoad | simp [computes, first, second]

/-- Flagging the destination of the executed instruction with the value it
computed disturbs nobody. -/
theorem undisturbed_setConst {vars : Vars} {other : Insn} {env : Env} {rd : VarId} {k : Word}
    (executed : env rd = k) (was : operand vars env rd = k)
    (loads : other.opcode = .loadConstant → other.rd = some rd → (vars rd).initVal = k) :
    Undisturbed vars (vars.setConst rd k) env other := by
  apply undisturbed_of_reads
  · intro v _
    by_cases same : v = rd
    · subst same
      rw [was, operand_of_const env (by simp)]
      simp
    · exact operand_congr (Vars.setConst_ne vars k same)
  · intro isLoad v rdEq
    by_cases same : v = rd
    · subst same
      rw [loads isLoad rdEq]
      simp
    · rw [Vars.setConst_ne vars k same]

/-- The destination of an arithmetic instruction or a local copy is loaded by no
other instruction and is not flagged. -/
theorem destination_fresh {c : Cursor} {insn : Insn} {rest : List Insn} {rd : VarId}
    (wf : WellFormed c) (pending : c.pending = insn :: rest) (rdEq : insn.rd = some rd)
    (isLocal : (c.vars rd).isGlobal = false) (notPhi : insn.opcode ≠ .unwoundPhi)
    (notLoad : insn.opcode ≠ .loadConstant) :
    (∀ other ∈ c.behind ++ c.ahead rest, other.rd ≠ some rd) ∧
      (c.vars rd).isConst = false := by
  have split := Cursor.insns_eq pending
  have single := wf.ssa.single
  rw [split, List.pairwise_append, List.pairwise_cons] at single
  have others : ∀ other ∈ c.behind ++ c.ahead rest, other.rd ≠ some rd := by
    intro other present same
    have pair : SingleAssignment c.vars insn other := by
      rcases List.mem_append.mp present with earlier | later
      · exact (single.2.2 other earlier insn List.mem_cons_self).symm
      · exact single.2.1.1 other later
    rcases pair rd rdEq same with isGlobal | ⟨isPhi, -⟩ | ⟨isLoad, -⟩
    · rw [isLocal] at isGlobal
      cases isGlobal
    · exact notPhi isPhi
    · exact notLoad isLoad
  refine ⟨others, ?_⟩
  by_contra flagged
  obtain ⟨load, present, isLoad, loadEq⟩ := wf.flagged rd (by simpa using flagged)
  rw [split] at present
  rcases List.mem_append.mp present with earlier | later
  · exact others load (List.mem_append_left _ earlier) loadEq
  · rcases List.mem_cons.mp later with rfl | later
    · exact notLoad isLoad
    · exact others load (List.mem_append_right _ later) loadEq

/-- A benign round disturbs no other instruction. -/
theorem undisturbed_of_benign {c after : Cursor} {insn left other : Insn} {rest : List Insn}
    {env : Env} (wf : WellFormed c) (pending : c.pending = insn :: rest)
    (visited : Visited c insn rest after left) (benign : Benign c.vars insn after.vars left)
    (executed : JustExecuted c.vars env insn) (present : other ∈ c.behind ++ c.ahead rest) :
    Undisturbed c.vars after.vars env other := by
  obtain ⟨rd, w, rdEq, computed, stored⟩ := executed
  have value := visited.value
  have shaped : Shaped c.vars insn :=
    wf.ssa.shaped insn (by rw [Cursor.insns_eq pending]; simp)
  generalize after.vars = vars' at benign value
  cases benign with
  | same => exact undisturbed_of_reads (fun _ _ => rfl) (fun _ _ _ => rfl)
  | @flag target isLoad targetEq =>
      obtain rfl := Option.some.inj (targetEq.symm.trans rdEq)
      have loaded : w = (c.vars target).initVal := by
        rw [computes] at computed
        simpa [isLoad, targetEq] using computed.symm
      have was : operand c.vars env target = (c.vars target).initVal := by
        unfold operand
        split
        · rfl
        · exact stored.trans loaded
      exact undisturbed_setConst (stored.trans loaded) was fun _ _ => rfl
  | @constant target k _ targetEq targetEq' isLoad source =>
      obtain rfl := Option.some.inj (targetEq.symm.trans rdEq)
      have same : w = k := by
        have after := value isLoad env w computed
        rw [computes] at after
        simpa [isLoad, targetEq'] using after.symm
      have isLocal : (c.vars target).isGlobal = false := by
        rcases source with ⟨-, isLocal⟩ | binary | unary
        · exact isLocal
        · obtain ⟨_, -, -, rdEq', -, -, isLocal⟩ := shaped.binary binary
          obtain rfl := Option.some.inj (rdEq.symm.trans rdEq')
          exact isLocal
        · obtain ⟨_, -, rdEq', -, isLocal⟩ := shaped.unary unary
          obtain rfl := Option.some.inj (rdEq.symm.trans rdEq')
          exact isLocal
      have notPhi : insn.opcode ≠ .unwoundPhi := by
        rintro isPhi
        rw [isPhi] at source
        rcases source with ⟨impossible, -⟩ | impossible | impossible <;> cases impossible
      have notLoad : insn.opcode ≠ .loadConstant := by
        rintro isLoad
        rw [isLoad] at source
        rcases source with ⟨impossible, -⟩ | impossible | impossible <;> cases impossible
      obtain ⟨others, unflagged⟩ := destination_fresh wf pending rdEq isLocal notPhi notLoad
      have was : operand c.vars env target = k :=
        (operand_of_not_const env unflagged).trans (stored.trans same)
      exact undisturbed_setConst (stored.trans same) was
        fun _ rdEq' => absurd rdEq' (others other present)
  | move => exact undisturbed_of_reads (fun _ _ => rfl) (fun _ _ _ => rfl)
  | drop => exact undisturbed_of_reads (fun _ _ => rfl) (fun _ _ _ => rfl)

/-- A reducible instruction is reduced: the constant it reads is edited. -/
theorem visit_reduces {c : Cursor} {insn : Insn} {rest : List Insn}
    (reduces : ReducesStrength c insn) :
    ∃ y n value, insn.rs2 = some y ∧ (c.vars y).initVal = Word.pow2 n ∧
      value ≠ Word.pow2 n ∧
      (visit undefined idom fuel c insn rest).vars = c.vars.setInitVal y value := by
  obtain ⟨source, noCopy, rd, x, y, n, rdEq, rs1Eq, rs2Eq, dividend, constant, positive, small,
    power⟩ := reduces
  have binary : insn.opcode.isBinary = true := by
    rcases source with opcodeEq | opcodeEq | opcodeEq <;> rw [opcodeEq] <;> rfl
  have notRead : insn.opcode ≠ .read := by
    rcases source with opcodeEq | opcodeEq | opcodeEq <;> rw [opcodeEq] <;> decide
  have notAssign : insn.opcode ≠ .assign := by
    rcases source with opcodeEq | opcodeEq | opcodeEq <;> rw [opcodeEq] <;> decide
  have fires : strengthReduction c.vars insn ≠ (c.vars, insn) := by
    intro same
    have opcodeSame : (strengthReduction c.vars insn).2.opcode = insn.opcode := by rw [same]
    have accepts : Word.isPowerOfTwo (c.vars y).initVal = true :=
      (Word.isPowerOfTwo_iff _).mpr ⟨n, small, power⟩
    rcases source with opcodeEq | opcodeEq | opcodeEq <;>
      simp [strengthReduction, rdEq, rs2Eq, constant, accepts, opcodeEq] at opcodeSame
  have reached : (visit undefined idom fuel c insn rest).vars =
      (strengthReduction c.vars insn).1 := by
    unfold visit
    simp only [constFolding_variable undefined binary rs1Eq dividend, Bool.false_eq_true,
      if_false]
    rw [arrayAccess_eq_none notRead, noCopy]
    simp only [simplifyOrDrop, notAssign, false_and, if_false]
    rw [simplify_pow2 rs1Eq rs2Eq dividend constant positive small power]
  rcases strengthReduction_cases c.vars insn with same |
    ⟨y', n', value, op, -, rs2Eq', -, small', power', changes, -, -, edit⟩
  · exact absurd same fires
  · obtain rfl := Option.some.inj (rs2Eq.symm.trans rs2Eq')
    obtain rfl := Word.pow2_injective small small' (power.symm.trans power')
    exact ⟨y, n, value, rs2Eq, power, changes positive, by rw [reached, edit]⟩

/-- A round of the loop is local exactly when it does not reduce the strength of
the instruction. -/
theorem local_iff {c : Cursor} {insn : Insn} {rest : List Insn} (wf : WellFormed c)
    (pending : c.pending = insn :: rest) :
    Local undefined idom fuel c insn rest ↔ ¬ReducesStrength c insn := by
  have split := Cursor.insns_eq pending
  constructor
  · intro isLocal reduces
    obtain ⟨y, n, value, rs2Eq, power, changes, edit⟩ :=
      @visit_reduces undefined idom fuel c insn rest reduces
    obtain ⟨source, -, rd, x, y', n', rdEq, rs1Eq, rs2Eq', dividend, constant, -, small',
      power'⟩ := reduces
    obtain rfl := Option.some.inj (rs2Eq.symm.trans rs2Eq')
    -- At zero the instruction computes zero, whichever of the three it is.
    have computed : computes c.vars (fun _ => 0) insn = some 0 := by
      have defined := Word.divides_pow2 0 small'
      rcases source with opcodeEq | opcodeEq | opcodeEq
      · rw [computes_binary opcodeEq rdEq rs1Eq rs2Eq rfl,
          operand_of_not_const _ dividend, Opcode.binary]
        simp
      · rw [computes_binary opcodeEq rdEq rs1Eq rs2Eq rfl, operand_of_not_const _ dividend,
          operand_of_const _ constant, power', Opcode.binary, if_pos defined]
        simp
      · rw [computes_binary opcodeEq rdEq rs1Eq rs2Eq rfl, operand_of_not_const _ dividend,
          operand_of_const _ constant, power', Opcode.binary, if_pos defined]
        simp
    obtain ⟨load, present, isLoad, loadEq⟩ := wf.flagged y constant
    have other : load ∈ c.behind ++ c.ahead rest := by
      rw [split] at present
      rcases List.mem_append.mp present with earlier | later
      · exact List.mem_append_left _ earlier
      · rcases List.mem_cons.mp later with rfl | later
        · rw [isLoad] at source
          rcases source with impossible | impossible | impossible <;> cases impossible
        · exact List.mem_append_right _ later
    have undisturbed := (isLocal (fun _ => 0) ⟨rd, 0, rdEq, computed, rfl⟩ load other).2
    rw [edit, computes, computes] at undisturbed
    simp only [isLoad, loadEq, Vars.setInitVal_same, Option.some.injEq] at undisturbed
    exact changes (undisturbed.trans power)
  · intro notReduced env executed other present
    have shaped : Shaped c.vars insn := wf.ssa.shaped insn (by rw [split]; simp)
    obtain ⟨left, visited⟩ := @visit_visited undefined idom fuel c insn rest shaped
      fun p isHead => wf.loaded p (List.mem_of_mem_head? isHead)
    rcases visited.effect with benign | ⟨reduces, -⟩
    · exact undisturbed_of_benign wf pending visited benign executed present
    · exact absurd reduces notReduced

/-- The instructions of `c = 8; y = x * c; z = x + c`, where variable `1` is `c`
and variable `2` is `x`. -/
def scaledSum : List Insn :=
  [{ opcode := .loadConstant, rd := some 1 }, Insn.binary .mul 3 2 1, Insn.binary .add 4 2 1]

/-- The records of that block before optimisation. -/
def scaledSumVars : Vars :=
  fun v => if v = 1 then { initVal := 8 } else {}

/-- The cursor standing at the product. -/
def atProduct : Cursor :=
  visit (fun _ _ _ => 0) id 1 (Cursor.start scaledSumVars 0 scaledSum [])
    { opcode := .loadConstant, rd := some 1 } scaledSum.tail

theorem scaledSum_ssa : InSsaForm scaledSumVars ([(0, scaledSum)].flatMap Prod.snd) where
  single := by
    simp [scaledSum, SingleAssignment]
  shaped := by
    intro insn present
    simp only [scaledSum, List.flatMap_cons, List.flatMap_nil, List.append_nil, List.mem_cons,
      List.not_mem_nil, or_false] at present
    rcases present with rfl | rfl | rfl
    · exact Shaped.load_of rfl rfl rfl
    · exact ⟨fun _ => ⟨3, 2, 1, rfl, rfl, rfl, rfl⟩, by rintro ⟨⟩, by rintro ⟨⟩, by rintro ⟨⟩⟩
    · exact ⟨fun _ => ⟨4, 2, 1, rfl, rfl, rfl, rfl⟩, by rintro ⟨⟩, by rintro ⟨⟩, by rintro ⟨⟩⟩

end Shecc.Optimize
