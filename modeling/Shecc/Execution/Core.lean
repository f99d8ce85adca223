import Shecc.Word.Core
import Mathlib.Logic.Relation

/-!
# Running code that lies in memory

A processor fetches a word, decodes it and executes the instruction on its data. Code
that is loaded somewhere runs as it was written: what is left of a state is the index
of the next instruction and the data. Nothing here depends on an instruction set. The
code itself is not overwritten.
-/

namespace Shecc.Execution

/-- An instruction set. An instruction at an address changes the data and names the
address to go on at, unless it fails. -/
structure Processor (ι δ : Type) where
  decode : Word → Option ι
  exec : ι → Word → δ → Option (δ × Word)

namespace Processor

variable {ι δ : Type} (P : Processor ι δ)

/-- Fetch, decode and execute. -/
def step (fetch : Word → Option Word) (s : δ × Word) : Option (δ × Word) := do
  let w ← fetch s.2
  let insn ← P.decode w
  P.exec insn s.2 s.1

end Processor

/-- The address of the instruction `i` behind `base`. -/
def slot (base : Word) (i : Nat) : Word := base + BitVec.ofNat 32 (4 * i)

theorem slot_next (base : Word) (i : Nat) : slot base i + 4#32 = slot base (i + 1) := by
  rw [slot, slot, BitVec.add_assoc]
  congr 1
  rw [BitVec.ofNat_add_ofNat]
  rfl

/-- A displacement leads from one slot to another. -/
theorem slot_add {base : Word} {i j : Nat} {ofs : Int} (leads : 4 * (i : Int) + ofs = 4 * j) :
    slot base i + BitVec.ofInt 32 ofs = slot base j := by
  have sum : ((4 * i : Nat) : Int) + ofs = ((4 * j : Nat) : Int) := by
    push_cast
    exact leads
  rw [slot, slot, BitVec.add_assoc, ← BitVec.ofInt_natCast, ← BitVec.ofInt_add, sum,
    BitVec.ofInt_natCast]

/-- One of the `length` instructions behind `base` is executed. -/
def Processor.StepIn {ι δ : Type} (P : Processor ι δ) (fetch : Word → Option Word) (base : Word)
    (length : Nat) (s s' : δ × Word) : Prop :=
  (∃ i < length, s.2 = slot base i) ∧ P.step fetch s = some s'

/-- The processor gets from one state to the other without leaving the instructions
behind `base` before. -/
def Processor.Reaches {ι δ : Type} (P : Processor ι δ) (fetch : Word → Option Word) (base : Word)
    (length : Nat) : δ × Word → δ × Word → Prop :=
  Relation.ReflTransGen (P.StepIn fetch base length)

theorem slot_injective {base : Word} {i j : Nat} (smallI : 4 * i < 2 ^ 32)
    (smallJ : 4 * j < 2 ^ 32) (same : slot base i = slot base j) : i = j := by
  have distance := congrArg BitVec.toNat (add_left_cancel same)
  rw [BitVec.toNat_ofNat, BitVec.toNat_ofNat] at distance
  omega

/-- The code is left in one state only. -/
theorem Processor.Reaches.unique {ι δ : Type} {P : Processor ι δ} {fetch : Word → Option Word}
    {base : Word} {length : Nat} {s : δ × Word} {d d' : δ} (short : 4 * length < 2 ^ 32)
    (first : P.Reaches fetch base length s (d, slot base length))
    (second : P.Reaches fetch base length s (d', slot base length)) : d = d' := by
  have outside : ∀ e t, ¬P.StepIn fetch base length (e, slot base length) t := by
    rintro e t ⟨⟨i, inside, same⟩, -⟩
    have := slot_injective short (by omega) same
    omega
  induction first using Relation.ReflTransGen.head_induction_on with
  | refl =>
      rcases Relation.ReflTransGen.cases_head second with same | ⟨t, stepped, -⟩
      · cases same
        rfl
      · exact (outside d t stepped).elim
  | head stepped _ inductionHypothesis =>
      apply inductionHypothesis
      rcases Relation.ReflTransGen.cases_head second with same | ⟨t, stepped', others⟩
      · cases same
        exact (outside _ _ stepped).elim
      · cases Option.some.inj (stepped.2.symm.trans stepped'.2)
        exact others

/-- Nothing is reached from a state that has no step. -/
theorem Processor.Reaches.of_stuck {ι δ : Type} {P : Processor ι δ} {fetch : Word → Option Word}
    {base : Word} {length : Nat} {s t : δ × Word} (stuck : P.step fetch s = none)
    (reaches : P.Reaches fetch base length s t) : t = s := by
  rcases Relation.ReflTransGen.cases_head reaches with same | ⟨u, stepped, -⟩
  · exact same.symm
  · rw [stepped.2] at stuck
    cases stuck

/-- Everything is reached through the first step. -/
theorem Processor.Reaches.of_step {ι δ : Type} {P : Processor ι δ} {fetch : Word → Option Word}
    {base : Word} {length : Nat} {s t u : δ × Word} (stepped : P.step fetch s = some u)
    (reaches : P.Reaches fetch base length s t) : t = s ∨ P.Reaches fetch base length u t := by
  rcases Relation.ReflTransGen.cases_head reaches with same | ⟨u', stepped', others⟩
  · exact .inl same.symm
  · cases Option.some.inj (stepped.symm.trans stepped'.2)
    exact .inr others

/-! ## Code in memory -/

/-- The words of instructions lie in memory from `base` on. -/
def Loaded {β : Type} (encode : β → Option Word) (fetch : Word → Option Word) (base : Word)
    (insns : List β) : Prop :=
  ∀ i insn, insns[i]? = some insn → ∃ w, encode insn = some w ∧ fetch (slot base i) = some w

/-- Memory that holds the words of instructions and nothing else. -/
def store {β : Type} (encode : β → Option Word) (base : Word) (insns : List β) (a : Word) :
    Option Word :=
  insns[(a - base).toNat / 4]? >>= encode

theorem loaded_store {β : Type} {encode : β → Option Word} (base : Word) {insns : List β}
    (short : 4 * insns.length < 2 ^ 32) (encodable : ∀ insn ∈ insns, (encode insn).isSome) :
    Loaded encode (store encode base insns) base insns := by
  intro i insn here
  rcases Option.isSome_iff_exists.mp (encodable insn (List.mem_of_getElem? here)) with ⟨w, encoded⟩
  have inside : i < insns.length := (List.getElem?_eq_some_iff.mp here).1
  have distance : (slot base i - base).toNat / 4 = i := by
    rw [slot, show base + BitVec.ofNat 32 (4 * i) - base = BitVec.ofNat 32 (4 * i) by ring,
      BitVec.toNat_ofNat]
    omega
  refine ⟨w, encoded, ?_⟩
  rw [store, distance, here]
  exact encoded

/-- Code in memory: words that decode to its instructions. -/
structure Placed {ι δ : Type} (P : Processor ι δ) (code : List ι) where
  fetch : Word → Option Word
  base : Word
  loaded : ∀ i insn, code[i]? = some insn →
    ∃ w, fetch (slot base i) = some w ∧ P.decode w = some insn

/-- The processor decodes the word of `b` to `insn`. -/
def Processor.Means {ι δ β : Type} (P : Processor ι δ) (encode : β → Option Word) (b : β)
    (insn : ι) : Prop :=
  ∃ w, encode b = some w ∧ P.decode w = some insn

/-- Loaded instructions are placed as the code they mean. -/
def Loaded.placed {ι δ β : Type} {P : Processor ι δ} {encode : β → Option Word}
    {fetch : Word → Option Word} {base : Word} {insns : List β} {code : List ι}
    (loaded : Loaded encode fetch base insns)
    (means : List.Forall₂ (P.Means encode) insns code) : Placed P code where
  fetch := fetch
  base := base
  loaded := by
    intro i insn here
    have inside : i < code.length := (List.getElem?_eq_some_iff.mp here).1
    have insideToo : i < insns.length := by
      rw [means.length_eq]
      exact inside
    have meant := means.get insideToo inside
    rcases loaded i _ (List.getElem?_eq_getElem insideToo) with ⟨w, encoded, fetched⟩
    rcases meant with ⟨w', encoded', decoded⟩
    cases Option.some.inj (encoded.symm.trans encoded')
    cases Option.some.inj (here.symm.trans (List.getElem?_eq_getElem inside))
    exact ⟨w, fetched, decoded⟩

namespace Placed

variable {ι δ : Type} {P : Processor ι δ} {code : List ι} (placed : Placed P code)

/-- The code runs from an instruction and data to others. -/
def Runs (s s' : Nat × δ) : Prop :=
  P.Reaches placed.fetch placed.base code.length (s.2, slot placed.base s.1)
    (s'.2, slot placed.base s'.1)

variable {placed} {i j : Nat} {s s' s'' : Nat × δ} {d d' : δ}

theorem Runs.refl (s : Nat × δ) : placed.Runs s s :=
  Relation.ReflTransGen.refl

theorem Runs.trans (first : placed.Runs s s') (second : placed.Runs s' s'') :
    placed.Runs s s'' :=
  Relation.ReflTransGen.trans first second

/-- An instruction of the code is executed. -/
theorem Runs.step {insn : ι} (here : code[i]? = some insn)
    (executed : P.exec insn (slot placed.base i) d = some (d', slot placed.base j)) :
    placed.Runs (i, d) (j, d') := by
  rcases placed.loaded i insn here with ⟨w, fetched, decoded⟩
  apply Relation.ReflTransGen.single
  refine ⟨⟨i, (List.getElem?_eq_some_iff.mp here).1, rfl⟩, ?_⟩
  change (do
    let w ← placed.fetch (slot placed.base i)
    let insn ← P.decode w
    P.exec insn (slot placed.base i) d) = _
  rw [fetched, Option.bind_eq_bind, Option.bind_some, decoded, Option.bind_eq_bind,
    Option.bind_some, executed]

/-- Instructions that go on to the next one, as a change of the data. -/
def Straight (P : Processor ι δ) (flow : ι → δ → Option δ) : Prop :=
  ∀ insn a d d', flow insn d = some d' → P.exec insn a d = some (d', a + 4#32)

/-- A straight piece of the code changes the data by one instruction after the
other. -/
theorem Runs.line {flow : ι → δ → Option δ} (straight : Straight P flow) {line : List ι}
    (here : line <+: code.drop i) (flows : line.foldlM (fun d insn => flow insn d) d = some d') :
    placed.Runs (i, d) (i + line.length, d') := by
  induction line generalizing i d with
  | nil =>
      cases flows
      exact Runs.refl _
  | cons insn rest inductionHypothesis =>
      rcases here with ⟨behind, isCode⟩
      have first : code[i]? = some insn := by
        have head := congrArg (fun l => l[0]?) isCode
        simpa [List.getElem?_drop] using head.symm
      have others : rest <+: code.drop (i + 1) := by
        refine ⟨behind, ?_⟩
        have tail := congrArg List.tail isCode
        simpa [List.tail_drop] using tail
      rw [List.foldlM_cons, Option.bind_eq_bind, Option.bind_eq_some_iff] at flows
      rcases flows with ⟨d₁, flowed, flows⟩
      have executed := straight insn (slot placed.base i) d d₁ flowed
      rw [slot_next] at executed
      have end_ : i + (insn :: rest).length = i + 1 + rest.length := by
        rw [List.length_cons]
        omega
      rw [end_]
      exact (Runs.step first executed).trans (inductionHypothesis others flows)

/-- A loop ends if every round but the last one keeps the invariant and makes a
measure smaller. -/
theorem Runs.loop {Inv Post : δ → Prop} (measure : δ → Nat)
    (round : ∀ d, Inv d → (∃ d', placed.Runs (i, d) (i, d') ∧ Inv d' ∧ measure d' < measure d) ∨
      ∃ d', placed.Runs (i, d) (j, d') ∧ Post d')
    (holds : Inv d) : ∃ d', placed.Runs (i, d) (j, d') ∧ Post d' := by
  induction isMeasure : measure d using Nat.strong_induction_on generalizing d with
  | _ size inductionHypothesis =>
      rcases round d holds with ⟨d₁, ran, holds₁, smaller⟩ | left_
      · rcases inductionHypothesis (measure d₁) (isMeasure ▸ smaller) holds₁ rfl with
          ⟨d₂, ran₂, post⟩
        exact ⟨d₂, ran.trans ran₂, post⟩
      · exact left_

end Placed

end Shecc.Execution
