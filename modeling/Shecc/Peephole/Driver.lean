import Shecc.Target.Machine

/-!
# The driver of the peephole pass

`peephole` walks over the instructions of a block. At each instruction it first
drops a following self-assignment, else applies the first optimisation whose
pattern starts there, and then moves on by one. An optimisation is a rule on the
code from the cursor on; it replaces the first instructions of that code.

The file also says when a rewriting preserves meaning, and that a pass all of
whose rewritings do preserves what the block does.
-/

namespace Shecc.Peephole

/-- The first `count` instructions at the cursor become `left`. -/
structure Rewrite where
  count : Nat
  left : List Ph2Ir

/-- The code from the cursor on, rewritten. -/
def Rewrite.apply (rewrite : Rewrite) (code : List Ph2Ir) : List Ph2Ir :=
  rewrite.left ++ code.drop rewrite.count

/-- What an optimisation does with the code from the cursor on. -/
abbrev Rule := List Ph2Ir → Option Rewrite

/-- A pattern of two instructions. -/
def pairRule (pattern : Ph2Ir → Ph2Ir → Option (List Ph2Ir)) : Rule
  | ir :: next :: _ => (pattern ir next).map (Rewrite.mk 2)
  | _ => none

/-- A pattern of three instructions. -/
def tripleRule (pattern : Ph2Ir → Ph2Ir → Ph2Ir → Option (List Ph2Ir)) : Rule
  | ir :: second :: third :: _ => (pattern ir second third).map (Rewrite.mk 3)
  | _ => none

/-- The instruction copies a register to itself. -/
def isSelfAssignment (ir : Ph2Ir) : Bool :=
  ir.op == .assign && ir.dest == ir.src0

/-- Drop a self-assignment that follows the cursor. -/
def selfAssignment (ir next : Ph2Ir) : Option (List Ph2Ir) :=
  if isSelfAssignment next then some [ir] else none

/-- The rewriting at the cursor. -/
def firstMatch (optimizations : List Rule) (code : List Ph2Ir) : Option Rewrite :=
  (pairRule selfAssignment :: optimizations).findSome? fun rule => rule code

/-- The code from the cursor on after the body of the loop. -/
def visit (optimizations : List Rule) (code : List Ph2Ir) : List Ph2Ir :=
  match firstMatch optimizations code with
  | some rewrite => rewrite.apply code
  | none => code

/-- The loop over the code from the cursor on, cut off after `fuel` rounds. -/
def walk (optimizations : List Rule) : Nat → List Ph2Ir → List Ph2Ir
  | 0, code => code
  | fuel + 1, code =>
      match visit optimizations code with
      | [] => []
      | ir :: rest => ir :: walk optimizations fuel rest

/-- The pass on the code of a block. -/
def peephole (optimizations : List Rule) (code : List Ph2Ir) : List Ph2Ir :=
  walk optimizations code.length code

/-- Where the loop rewrites something: the code from the cursor on, and how it is
rewritten. -/
def walkSites (optimizations : List Rule) : Nat → List Ph2Ir → List (List Ph2Ir × Rewrite)
  | 0, _ => []
  | fuel + 1, code =>
      ((firstMatch optimizations code).map fun rewrite => (code, rewrite)).toList ++
        match visit optimizations code with
        | [] => []
        | _ :: rest => walkSites optimizations fuel rest

/-- The rewritings of the pass on the code of a block. -/
def sites (optimizations : List Rule) (code : List Ph2Ir) : List (List Ph2Ir × Rewrite) :=
  walkSites optimizations code.length code

/-! ## The loop ends -/

/-- A rule that never makes the code longer. -/
def Rule.Shrinks (rule : Rule) : Prop :=
  ∀ code rewrite, rule code = some rewrite → (rewrite.apply code).length ≤ code.length

theorem pairRule_shrinks {pattern : Ph2Ir → Ph2Ir → Option (List Ph2Ir)}
    (short : ∀ ir next left, pattern ir next = some left → left.length ≤ 2) :
    (pairRule pattern).Shrinks := by
  intro code rewrite applied
  rcases code with _ | ⟨ir, _ | ⟨next, rest⟩⟩
  · cases applied
  · cases applied
  · obtain ⟨left, matched, rfl⟩ := Option.map_eq_some_iff.mp applied
    have := short ir next left matched
    simp only [Rewrite.apply, List.drop_succ_cons, List.drop_zero, List.length_append,
      List.length_cons]
    omega

theorem tripleRule_shrinks {pattern : Ph2Ir → Ph2Ir → Ph2Ir → Option (List Ph2Ir)}
    (short : ∀ ir second third left, pattern ir second third = some left → left.length ≤ 3) :
    (tripleRule pattern).Shrinks := by
  intro code rewrite applied
  rcases code with _ | ⟨ir, _ | ⟨second, _ | ⟨third, rest⟩⟩⟩
  · cases applied
  · cases applied
  · cases applied
  · obtain ⟨left, matched, rfl⟩ := Option.map_eq_some_iff.mp applied
    have := short ir second third left matched
    simp only [Rewrite.apply, List.drop_succ_cons, List.drop_zero, List.length_append,
      List.length_cons]
    omega

theorem selfAssignment_shrinks : (pairRule selfAssignment).Shrinks := by
  apply pairRule_shrinks
  intro ir next left matched
  unfold selfAssignment at matched
  split at matched
  · obtain rfl := Option.some.inj matched
    simp
  · cases matched

theorem visit_length {optimizations : List Rule}
    (shrink : ∀ rule ∈ optimizations, rule.Shrinks) (code : List Ph2Ir) :
    (visit optimizations code).length ≤ code.length := by
  unfold visit
  cases matched : firstMatch optimizations code with
  | none => exact le_refl _
  | some rewrite =>
      obtain ⟨rule, isRule, applied⟩ := List.exists_of_findSome?_eq_some matched
      rcases List.mem_cons.mp isRule with rfl | isRule
      · exact selfAssignment_shrinks code rewrite applied
      · exact shrink rule isRule code rewrite applied

/-- The length of the code bounds the rounds of the loop: more fuel changes
nothing. -/
theorem walk_eq_peephole {optimizations : List Rule}
    (shrink : ∀ rule ∈ optimizations, rule.Shrinks) (fuel : Nat) (code : List Ph2Ir)
    (enough : code.length ≤ fuel) : walk optimizations fuel code = peephole optimizations code := by
  suffices ∀ bound fuel, code.length ≤ bound → code.length ≤ fuel →
      walk optimizations fuel code = walk optimizations bound code from
    this code.length fuel (le_refl _) enough
  clear enough fuel
  intro bound
  induction bound generalizing code with
  | zero =>
      intro fuel short enough
      obtain rfl := List.length_eq_zero_iff.mp (Nat.le_zero.mp short)
      cases fuel with
      | zero => rfl
      | succ fuel =>
          have same := List.length_eq_zero_iff.mp (Nat.le_zero.mp (visit_length shrink []))
          simp only [walk, same]
  | succ bound inductionHypothesis =>
      intro fuel short enough
      have shorter := visit_length shrink code
      cases fuel with
      | zero =>
          obtain rfl := List.length_eq_zero_iff.mp (Nat.le_zero.mp enough)
          simp only [walk, List.length_eq_zero_iff.mp (Nat.le_zero.mp shorter)]
      | succ fuel =>
          rw [walk, walk]
          cases next : visit optimizations code with
          | nil => rfl
          | cons ir rest =>
              rw [next, List.length_cons] at shorter
              simp only [inductionHypothesis rest fuel (by omega) (by omega)]

/-- What the loop does somewhere is the first match there. -/
theorem firstMatch_of_mem_sites {optimizations : List Rule} {code : List Ph2Ir}
    {site : List Ph2Ir × Rewrite} (present : site ∈ sites optimizations code) :
    firstMatch optimizations site.1 = some site.2 := by
  unfold sites at present
  generalize code.length = fuel at present
  induction fuel generalizing code with
  | zero => cases present
  | succ fuel inductionHypothesis =>
      rw [walkSites] at present
      rcases List.mem_append.mp present with here | later
      · obtain ⟨rewrite, matched, rfl⟩ := Option.map_eq_some_iff.mp (Option.mem_toList.mp here)
        exact matched
      · split at later
        · cases later
        · exact inductionHypothesis later

/-! ## Preserving meaning -/

/-- A rewriting preserves meaning: from every state, the rewritten instructions
leave what the rest of the block and the world after it can see as the original
ones do. -/
def Preserves (P : Platform) (code : List Ph2Ir) (rewrite : Rewrite) : Prop :=
  ∀ s, P.Agree (code.drop rewrite.count) (P.run (code.take rewrite.count) s)
    (P.run rewrite.left s)

/-- Two lists of instructions do the same to memory and end the block the same
way. -/
def Equivalent (P : Platform) (code code' : List Ph2Ir) : Prop :=
  ∀ s, P.Agree [] (P.run code s) (P.run code' s)

variable {P : Platform}

theorem Preserves.equivalent {code : List Ph2Ir} {rewrite : Rewrite}
    (preserves : Preserves P code rewrite) : Equivalent P code (rewrite.apply code) := by
  intro s
  have split : P.run code s =
      P.run (code.drop rewrite.count) (P.run (code.take rewrite.count) s) := by
    rw [← Platform.run_append, List.take_append_drop]
  rw [split, Rewrite.apply, Platform.run_append]
  apply Platform.Agree.run
  rw [List.append_nil]
  exact preserves s

/-- Dropping a self-assignment preserves meaning. -/
theorem selfAssignment_preserves {ir next : Ph2Ir} {rest : List Ph2Ir}
    (isSelf : isSelfAssignment next = true) :
    Preserves P (ir :: next :: rest) ⟨2, [ir]⟩ := by
  intro s
  have nothing (t : Machine) : P.step t next = t := by
    rw [isSelfAssignment, Bool.and_eq_true, beq_iff_eq, beq_iff_eq] at isSelf
    by_cases ended : t.outcome.isSome = true
    · exact Platform.step_of_ended ended next
    · have gives : next.op.givesValue = true := by
        rw [isSelf.1]
        rfl
      have copied : P.value t next = t.reg next.dest := by
        rw [Platform.value, isSelf.1, isSelf.2]
      rw [Platform.step_of_givesValue (by simpa using ended) gives, copied, Machine.setReg_self]
  simp only [List.take_succ_cons, List.take_zero, Platform.run_cons, Platform.run_nil, nothing]
  exact Platform.Agree.refl _ _

/-- A pass all of whose rewritings preserve meaning preserves what the block
does. -/
theorem peephole_equivalent {optimizations : List Rule} {code : List Ph2Ir}
    (preserve : ∀ site ∈ sites optimizations code, Preserves P site.1 site.2) :
    Equivalent P code (peephole optimizations code) := by
  unfold sites at preserve
  unfold peephole
  generalize code.length = fuel at preserve
  induction fuel generalizing code with
  | zero => exact fun s => Platform.Agree.refl _ _
  | succ fuel inductionHypothesis =>
      rw [walkSites] at preserve
      have visited : Equivalent P code (visit optimizations code) := by
        unfold visit
        cases matched : firstMatch optimizations code with
        | none => exact fun s => Platform.Agree.refl _ _
        | some rewrite =>
            refine (preserve (code, rewrite) ?_).equivalent
            simp [matched]
      intro s
      refine (visited s).trans ?_
      rw [walk]
      cases next : visit optimizations code with
      | nil => exact Platform.Agree.refl _ _
      | cons ir rest =>
          refine inductionHypothesis (fun site present => preserve site ?_) (P.step s ir)
          rw [next]
          exact List.mem_append_right _ present

/-- A running machine with the given registers. -/
def machineWith (reg : Int → Word) : Machine :=
  { reg := reg, memory := fun _ => 0, callTarget := 0, sp := 0, stackTop := 0, gp := 0,
    outcome := none }

section Windows

variable {ir next : Ph2Ir} {rest left : List Ph2Ir} {r d : Int} {a a' b b' : Machine → Word}

/-- Two pairs of instructions that write the same two registers preserve meaning
exactly when they write equal values to those that are read later. -/
theorem preserves_iff_values
    (before : ∀ s, s.outcome = none → P.run [ir, next] s = (s.setReg r (a s)).setReg d (b s))
    (after : ∀ s, s.outcome = none → P.run left s = (s.setReg r (a' s)).setReg d (b' s)) :
    Preserves P (ir :: next :: rest) ⟨2, left⟩ ↔
      ∀ s, s.outcome = none → (P.live rest d = true → b s = b' s) ∧
        (r ≠ d → P.live rest r = true → a s = a' s) := by
  constructor
  · intro preserves s running
    have agree := preserves s
    simp only [List.take_succ_cons, List.take_zero, List.drop_succ_cons, List.drop_zero,
      before s running, after s running] at agree
    constructor
    · intro isLive
      have same := agree.reg running d isLive
      rwa [Machine.setReg_same, Machine.setReg_same] at same
    · intro different isLive
      have same := agree.reg running r isLive
      rwa [Machine.setReg_ne _ _ different, Machine.setReg_ne _ _ different, Machine.setReg_same,
        Machine.setReg_same] at same
  · intro values s
    simp only [List.take_succ_cons, List.take_zero, List.drop_succ_cons, List.drop_zero]
    by_cases ended : s.outcome.isSome = true
    · rw [Platform.run_of_ended ended, Platform.run_of_ended ended]
      exact Platform.Agree.refl _ _
    · have running : s.outcome = none := by simpa using ended
      obtain ⟨second, first⟩ := values s running
      rw [before s running, after s running]
      constructor <;> try rfl
      intro _ x isLive
      by_cases isD : x = d
      · rw [isD, Machine.setReg_same, Machine.setReg_same]
        exact second (isD ▸ isLive)
      · rw [Machine.setReg_ne _ _ isD, Machine.setReg_ne _ _ isD]
        by_cases isR : x = r
        · rw [isR, Machine.setReg_same, Machine.setReg_same]
          exact first (fun same => isD (isR.trans same)) (isR ▸ isLive)
        · rw [Machine.setReg_ne _ _ isR, Machine.setReg_ne _ _ isR]

/-- Two windows that write memory and then one register preserve meaning exactly
when they leave the same memory, and the same value where it is read later. -/
theorem preserves_iff_effects {code : List Ph2Ir} {rewrite : Rewrite}
    {m m' : Machine → Memory}
    (before : ∀ s, s.outcome = none →
      P.run (code.take rewrite.count) s = (s.setMemory (m s)).setReg r (a s))
    (after : ∀ s, s.outcome = none → P.run rewrite.left s = (s.setMemory (m' s)).setReg r (a' s)) :
    Preserves P code rewrite ↔
      ∀ s, s.outcome = none → m s = m' s ∧
        (P.live (code.drop rewrite.count) r = true → a s = a' s) := by
  constructor
  · intro preserves s running
    have agree := preserves s
    rw [before s running, after s running] at agree
    constructor
    · exact agree.memory
    · intro isLive
      have same := agree.reg running r isLive
      rwa [Machine.setReg_same, Machine.setReg_same] at same
  · intro effects s
    by_cases ended : s.outcome.isSome = true
    · rw [Platform.run_of_ended ended, Platform.run_of_ended ended]
      exact Platform.Agree.refl _ _
    · have running : s.outcome = none := by simpa using ended
      obtain ⟨memory, value⟩ := effects s running
      rw [before s running, after s running, memory]
      constructor <;> try rfl
      intro _ x isLive
      by_cases same : x = r
      · rw [same, Machine.setReg_same, Machine.setReg_same]
        exact value (same ▸ isLive)
      · rw [Machine.setReg_ne _ _ same, Machine.setReg_ne _ _ same]

/-- Two windows that write memory only preserve meaning exactly when they leave
the same memory. -/
theorem preserves_iff_memory {code : List Ph2Ir} {rewrite : Rewrite} {m m' : Machine → Memory}
    (before : ∀ s, s.outcome = none → P.run (code.take rewrite.count) s = s.setMemory (m s))
    (after : ∀ s, s.outcome = none → P.run rewrite.left s = s.setMemory (m' s)) :
    Preserves P code rewrite ↔ ∀ s, s.outcome = none → m s = m' s := by
  have same (s : Machine) (n : Memory) : s.setMemory n = (s.setMemory n).setReg 0 (s.reg 0) :=
    (Machine.setReg_self (s.setMemory n) 0).symm
  rw [preserves_iff_effects (fun s running => (before s running).trans (same s _))
    (fun s running => (after s running).trans (same s _))]
  apply forall₂_congr
  intro s _
  exact and_iff_left fun _ => rfl

end Windows

/-- If a condition decides which rewritings of a pass preserve meaning, all of
them do exactly when the condition holds wherever the pass rewrites something, and
then the code the pass ends with does what the original code does. -/
theorem pass_preserves_iff {optimizations : List Rule} {safe : List Ph2Ir → Prop}
    (shrink : ∀ rule ∈ optimizations, rule.Shrinks)
    (decides : ∀ code rewrite, firstMatch optimizations code = some rewrite →
      (Preserves P code rewrite ↔ safe code)) (code : List Ph2Ir) :
    ((∀ site ∈ sites optimizations code, Preserves P site.1 site.2) ↔
        ∀ site ∈ sites optimizations code, safe site.1) ∧
      ((∀ site ∈ sites optimizations code, safe site.1) →
        ∀ fuel, code.length ≤ fuel → Equivalent P code (walk optimizations fuel code)) := by
  have everywhere : (∀ site ∈ sites optimizations code, Preserves P site.1 site.2) ↔
      ∀ site ∈ sites optimizations code, safe site.1 := by
    apply forall₂_congr
    intro site present
    exact decides site.1 site.2 (firstMatch_of_mem_sites present)
  constructor
  · exact everywhere
  · intro holds fuel enough
    rw [walk_eq_peephole shrink fuel code enough]
    exact peephole_equivalent (everywhere.mpr holds)

/-- Where one pattern of two instructions is switched on, the loop drops a
self-assignment or rewrites with that pattern. -/
theorem firstMatch_pair {pattern : Ph2Ir → Ph2Ir → Option (List Ph2Ir)} {code : List Ph2Ir}
    {rewrite : Rewrite} (matched : firstMatch [pairRule pattern] code = some rewrite) :
    ∃ ir next rest, code = ir :: next :: rest ∧
      ((isSelfAssignment next = true ∧ rewrite = ⟨2, [ir]⟩) ∨
        (isSelfAssignment next = false ∧ ∃ left, pattern ir next = some left ∧
          rewrite = ⟨2, left⟩)) := by
  rcases code with _ | ⟨ir, _ | ⟨next, rest⟩⟩
  · cases matched
  · cases matched
  · refine ⟨ir, next, rest, rfl, ?_⟩
    by_cases isSelf : isSelfAssignment next = true
    · simp only [firstMatch, pairRule, selfAssignment, isSelf, List.findSome?_cons, if_true,
        Option.map_some, Option.some.injEq] at matched
      exact Or.inl ⟨isSelf, matched.symm⟩
    · have notSelf : isSelfAssignment next = false := by simpa using isSelf
      refine Or.inr ⟨notSelf, ?_⟩
      simp only [firstMatch, pairRule, selfAssignment, notSelf, List.findSome?_cons,
        List.findSome?_nil, Bool.false_eq_true, if_false, Option.map_none] at matched
      cases result : pattern ir next with
      | none =>
          rw [result] at matched
          cases matched
      | some left =>
          rw [result] at matched
          exact ⟨left, rfl, (Option.some.inj matched).symm⟩

/-- A platform on which nothing is special. -/
def plainPlatform : Platform where
  arch := .riscv
  undefined _ _ _ := 0
  dataStart := 0
  rodataStart := 0
  funcAddress _ := 0
  passed _ := []
  callee _ _ memory := ⟨fun _ => 0, memory⟩
  calleeAt _ _ memory := ⟨fun _ => 0, memory⟩

end Shecc.Peephole
