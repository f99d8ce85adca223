import Mathlib
import Shecc.Preprocessor.Token

/-!
# Macro definitions

`#define` fills a macro record in place, `#undef` disables it. A record that is
defined again keeps its parameters, its variadic parameter and its handler: the
cases are given in which the record is the one of the last directive all the same.
-/

namespace Shecc.Preprocessor

open Cursor

/-- `MAX_PARAMS`. -/
def maxParams : Nat := 8

/-- The functions behind `__FILE__` and `__LINE__`. -/
inductive Handler
  | file | line
  deriving DecidableEq

/-- `macro_t`, which is stored under its name. `paramNames` are the first `param_num`
entries of the array. -/
structure Macro where
  paramNames : List Token := []
  replacement : List Token := []
  isVariadic : Bool := false
  variadicTk : Option Token := none
  isDisabled : Bool := false
  handler : Option Handler := none
  deriving DecidableEq

/-- `MACROS`. -/
abbrev Macros := String → Option Macro

/-- `hashmap_put`. -/
def Macros.put (macros : Macros) (name : String) (record : Macro) : Macros :=
  Function.update macros name (some record)

/-! ## The directives -/

/-- `macro->param_names[macro->param_num++] = tk`. -/
def Macro.addParam (record : Macro) (tk : Token) : Except Failure Macro :=
  if record.paramNames.length < maxParams then
    .ok { record with paramNames := record.paramNames ++ [tk] }
  else .error .outOfBounds

/-- The comma behind a parameter name. -/
def skipComma (c : Cursor) : Except Failure Cursor :=
  if c.ppLexPeekToken .comma true then c.advance true else .ok c

/-- The loop over the parameter names. It runs at most once for each token. -/
def readParams : Nat → Cursor → Macro → Except Failure (Cursor × Macro)
  | 0, c, record => .ok (c, record)
  | fuel + 1, c, record =>
      if c.ppLexPeekToken .identifier true then do
        let c ← c.advance true
        let record ← record.addParam c.tk
        let c ← skipComma c
        readParams fuel c record
      else .ok (c, record)

/-- The ellipsis of a variadic macro. -/
def readElipsis (c : Cursor) (record : Macro) : Except Failure (Cursor × Macro) :=
  if c.ppLexPeekToken .elipsis true then do
    let c ← c.advance true
    .ok (c, { record with isVariadic := true,
                          variadicTk := some { c.tk with literal := "__VA_ARGS__" } })
  else .ok (c, record)

/-- The parameter list of a function-like macro. -/
def readParameterList (c : Cursor) (record : Macro) : Except Failure (Cursor × Macro) :=
  if c.ppLexPeekToken .openBracket false then do
    let c ← c.advance false
    let (c, record) ← readParams c.next.length c record
    let (c, record) ← readElipsis c record
    let c ← c.ppLexExpectToken .closeBracket true
    .ok (c, record)
  else .ok (c, record)

/-- A backslash at the end of a line. The token behind the newline is passed with it. -/
def continueLine (c : Cursor) : Except Failure Cursor := do
  let c ← c.ppLexExpectToken .backslash false
  if c.ppLexPeekToken .newline false then
    let c ← c.ppLexExpectToken .newline false
    c.advance false
  else .error (.errorAt "Backslash and newline must not be separated" c.tk.location)

/-- The loop over the replacement list. It runs at most once for each token, and once
more for the null pointer. -/
def readReplacement : Nat → Cursor → List Token → Except Failure (Cursor × List Token)
  | 0, _, _ => .error .nullPointer
  | fuel + 1, c, replacement =>
      if c.ppLexPeekToken .newline false then .ok (c, replacement)
      else if c.ppLexPeekToken .backslash false then do
        let c ← continueLine c
        readReplacement fuel c replacement
      else do
        let c ← c.advance false
        readReplacement fuel c (replacement ++ [c.tk])

/-- The replacement list up to the end of the line. -/
def readReplacementLine (c : Cursor) : Except Failure (Cursor × List Token) := do
  let c := c.ppLexSkipSpace
  let (c, replacement) ← readReplacement (c.next.length + 1) c []
  let c ← c.ppLexExpectToken .newline false
  .ok (c, replacement)

/-- The record `#define` fills: a new one, or the one there is, enabled. -/
def Macros.opened (macros : Macros) (name : String) : Macro :=
  match macros name with
  | none => {}
  | some record => { record with isDisabled := false }

/-- `#define`, from the cursor at the directive. -/
def ppDefine (c : Cursor) (macros : Macros) : Except Failure (Option Cursor × Macros) := do
  let c ← c.ppLexExpectToken .identifier true
  let name := c.tk.literal
  let (c, record) ← readParameterList c (macros.opened name)
  let (c, replacement) ← readReplacementLine c
  .ok (c.ppLexNextToken false, macros.put name { record with replacement := replacement })

/-- The table with a record disabled, if there is one. -/
def Macros.disable (macros : Macros) (name : String) : Macros :=
  match macros name with
  | none => macros
  | some record => macros.put name { record with isDisabled := true }

/-- `#undef`, from the cursor at the directive. -/
def ppUndef (c : Cursor) (macros : Macros) : Except Failure (Cursor × Macros) := do
  let c ← c.ppLexExpectToken .identifier true
  let name := c.tk.literal
  let c ← c.ppLexExpectToken .newline true
  .ok (c, macros.disable name)

/-- A line with a directive: the cursor at it. -/
inductive Line
  | define (c : Cursor)
  | undef_ (c : Cursor)

/-- The table behind a line. -/
def Line.process (line : Line) (macros : Macros) : Except Failure Macros :=
  match line with
  | .define c => (ppDefine c macros).map Prod.snd
  | .undef_ c => (ppUndef c macros).map Prod.snd

/-- The table behind a sequence of lines. -/
def processLines : List Line → Macros → Except Failure Macros
  | [], macros => .ok macros
  | line :: rest, macros => do
      let macros ← line.process macros
      processLines rest macros

/-- `synth_built_in_loc`. -/
def synthBuiltInLoc : SourceLocation := ⟨0, 1, 1, 1, "<built-in>"⟩

/-- The table `preprocess` starts with. -/
def builtInMacros (archPredefined : String) : Macros :=
  let one : Macro := { replacement := [⟨.numeric, "1", synthBuiltInLoc⟩] }
  (((Macros.put (fun _ => none) "__FILE__" { handler := some .file }).put "__LINE__"
    { handler := some .line }).put archPredefined one).put "__SHECC__" one

/-! ## Uses of a record -/

/-- The record the text is expanded with: none for a disabled one. -/
def Macros.inText (macros : Macros) (name : String) : Option Macro :=
  (macros name).filter fun record => !record.isDisabled

/-- `macro->param_num > 0 || macro->is_variadic`. -/
def Macro.isFunctionLike (record : Macro) : Bool :=
  !record.paramNames.isEmpty || record.isVariadic

/-- The record a conditional expression is expanded with: none for a function-like
one. -/
def Macros.inCondition (macros : Macros) (name : String) : Option Macro :=
  (macros name).filter fun record => !record.isFunctionLike

/-- What a record is used for: everything but the mark of `#undef`. -/
def Macro.meaning (record : Macro) : Macro := { record with isDisabled := false }

/-- Two tables give a name the same meaning. -/
structure SameMeaning (macros others : Macros) (name : String) : Prop where
  inText : (macros.inText name).map Macro.meaning = (others.inText name).map Macro.meaning
  inCondition : (macros.inCondition name).map Macro.meaning =
    (others.inCondition name).map Macro.meaning

/-- Behind the last line the name means what that line alone would make it mean. -/
def Latest (archPredefined : String) (earlier : List Line) (last : Line) (name : String) : Prop :=
  ∃ behind alone, processLines (earlier ++ [last]) (builtInMacros archPredefined) = .ok behind ∧
    processLines [last] (fun _ => none) = .ok alone ∧ SameMeaning behind alone name


/-! ## One directive -/

/-- A record with the parameters a directive adds to it. -/
def Macro.extend (old new : Macro) : Macro :=
  { old with
    isDisabled := false
    paramNames := old.paramNames ++ new.paramNames
    isVariadic := old.isVariadic || new.isVariadic
    variadicTk := new.variadicTk.or old.variadicTk }

/-- A record defined again by a directive that alone makes the other record. -/
def Macro.redefine (old new : Macro) : Macro :=
  { old.extend new with replacement := new.replacement }

/-- The parameters of both records fit the array. -/
def Macro.Fits (old new : Macro) : Prop :=
  old.paramNames.length + new.paramNames.length ≤ maxParams

instance (old new : Macro) : Decidable (old.Fits new) := Nat.decLe _ _

theorem Macro.extend_empty (old : Macro) : old.extend {} = { old with isDisabled := false } := by
  rw [Macro.extend]
  simp

theorem Macros.opened_eq (macros : Macros) (name : String) :
    macros.opened name = ((macros name).getD {}).extend {} := by
  rw [Macros.opened, Macro.extend_empty]
  cases macros name <;> rfl

/-- What a step does to a record it does to every record the directive extends,
unless the array is full. -/
def Extends (old : Macro) (step : Macro → Except Failure (Cursor × Macro)) : Prop :=
  ∀ base behind new, step base = .ok (behind, new) → old.Fits base →
    old.Fits new ∧ step (old.extend base) = .ok (behind, old.extend new) ∨
      ¬ old.Fits new ∧ step (old.extend base) = .error .outOfBounds

/-- The names only grow. -/
def Grows (step : Macro → Except Failure (Cursor × Macro)) : Prop :=
  ∀ base behind new, step base = .ok (behind, new) →
    base.paramNames.length ≤ new.paramNames.length

theorem Macro.Fits.mono {old base new : Macro} (fits : old.Fits new)
    (grows : base.paramNames.length ≤ new.paramNames.length) : old.Fits base :=
  Nat.le_trans (Nat.add_le_add_left grows _) fits

theorem Macro.Fits.empty {old : Macro} (bounded : old.paramNames.length ≤ maxParams) :
    old.Fits {} := bounded

theorem addParam_eq_ok_iff {record new : Macro} {tk : Token} :
    record.addParam tk = .ok new ↔ record.paramNames.length < maxParams ∧
      new = { record with paramNames := record.paramNames ++ [tk] } := by
  rw [Macro.addParam]
  split
  case isTrue room => simp [room, eq_comm]
  case isFalse full => simp [full]

theorem addParam_extend {old base new : Macro} {tk : Token}
    (added : base.addParam tk = .ok new) :
    old.Fits new ∧ (old.extend base).addParam tk = .ok (old.extend new) ∨
      ¬ old.Fits new ∧ (old.extend base).addParam tk = .error .outOfBounds := by
  rcases addParam_eq_ok_iff.mp added with ⟨-, rfl⟩
  have room : (old.extend base).paramNames.length < maxParams ↔
      old.Fits { base with paramNames := base.paramNames ++ [tk] } := by
    simp only [Macro.extend, Macro.Fits, List.length_append, List.length_singleton]
    omega
  rw [Macro.addParam]
  split
  case isTrue inside =>
    left
    refine ⟨room.mp inside, ?_⟩
    simp only [Macro.extend, List.append_assoc]
  case isFalse full =>
    right
    exact ⟨fun fits => full (room.mpr fits), rfl⟩

theorem readParams_succ_ok_iff {fuel : Nat} {c behind : Cursor} {record new : Macro}
    (peek : c.ppLexPeekToken .identifier true = true) :
    readParams (fuel + 1) c record = .ok (behind, new) ↔
      ∃ name, c.advance true = .ok name ∧ ∃ added, record.addParam name.tk = .ok added ∧
        ∃ rest, skipComma name = .ok rest ∧ readParams fuel rest added = .ok (behind, new) := by
  rw [readParams, if_pos peek]
  simp only [bind_ok_iff]

theorem readParams_grows (fuel : Nat) (c : Cursor) : Grows (readParams fuel c) := by
  induction fuel generalizing c with
  | zero =>
      rintro base behind new ⟨⟩
      exact Nat.le_refl _
  | succ fuel inductionHypothesis =>
      intro base behind new read
      by_cases peek : c.ppLexPeekToken .identifier true = true
      · rcases (readParams_succ_ok_iff peek).mp read with
          ⟨name, -, added, isAdded, rest, -, read⟩
        have grows := inductionHypothesis rest added behind new read
        rw [(addParam_eq_ok_iff.mp isAdded).2, List.length_append] at grows
        exact Nat.le_of_succ_le grows
      · rw [readParams, if_neg peek] at read
        cases read
        exact Nat.le_refl _

theorem readParams_extends (old : Macro) (fuel : Nat) (c : Cursor) :
    Extends old (readParams fuel c) := by
  induction fuel generalizing c with
  | zero =>
      rintro base behind new ⟨⟩ fits
      exact Or.inl ⟨fits, rfl⟩
  | succ fuel inductionHypothesis =>
      intro base behind new read fits
      by_cases peek : c.ppLexPeekToken .identifier true = true
      · rcases (readParams_succ_ok_iff peek).mp read with
          ⟨name, advanced, added, isAdded, rest, skipped, read⟩
        rw [readParams, if_pos peek, advanced]
        rcases addParam_extend isAdded with ⟨fits, same⟩ | ⟨full, same⟩
        · rcases inductionHypothesis rest added behind new read fits with
            ⟨fits, same'⟩ | ⟨full, same'⟩
          · left
            refine ⟨fits, ?_⟩
            simp only [bind, Except.bind, same, skipped, same']
          · right
            refine ⟨full, ?_⟩
            simp only [bind, Except.bind, same, skipped, same']
        · right
          constructor
          · intro fits
            exact full (fits.mono (readParams_grows fuel rest added behind new read))
          · simp only [bind, Except.bind, same]
      · rw [readParams, if_neg peek] at read ⊢
        cases read
        exact Or.inl ⟨fits, rfl⟩

/-- The ellipsis adds no name and is there for every record. -/
theorem readElipsis_ok {c behind : Cursor} {base new : Macro}
    (read : readElipsis c base = .ok (behind, new)) :
    new.paramNames = base.paramNames ∧
      ∀ old : Macro, readElipsis c (old.extend base) = .ok (behind, old.extend new) := by
  rw [readElipsis] at read
  split at read
  case isTrue peek =>
    rcases bind_ok_iff.mp read with ⟨name, advanced, ⟨⟩⟩
    refine ⟨rfl, fun old => ?_⟩
    rw [readElipsis, if_pos peek, advanced]
    simp only [bind, Except.bind, Macro.extend, Bool.or_true, Option.some_or]
  case isFalse peek =>
    cases read
    refine ⟨rfl, fun old => ?_⟩
    rw [readElipsis, if_neg peek]

theorem readParameterList_extends (old : Macro) (c : Cursor) :
    Extends old (readParameterList c) := by
  intro base behind new read fits
  rw [readParameterList] at read ⊢
  split at read
  case isTrue peek =>
    rcases bind_ok_iff.mp read with ⟨opened, advanced, read⟩
    rcases bind_ok_iff.mp read with ⟨⟨named, record⟩, names, read⟩
    rcases bind_ok_iff.mp read with ⟨⟨dotted, variadic⟩, dots, read⟩
    rcases bind_ok_iff.mp read with ⟨closed, expected, ⟨⟩⟩
    rcases readElipsis_ok dots with ⟨paramNames, same⟩
    have fits_iff : old.Fits new ↔ old.Fits record := by
      rw [Macro.Fits, Macro.Fits, paramNames]
    rw [if_pos peek, advanced]
    rcases readParams_extends old _ opened base named record names fits with
      ⟨fits, params⟩ | ⟨full, params⟩
    · left
      refine ⟨fits_iff.mpr fits, ?_⟩
      simp only [bind, Except.bind, params, same old, expected]
    · right
      refine ⟨fun fits => full (fits_iff.mp fits), ?_⟩
      simp only [bind, Except.bind, params]
  case isFalse peek =>
    cases read
    rw [if_neg peek]
    exact Or.inl ⟨fits, rfl⟩

/-- The name a directive is for. -/
def Line.name (line : Line) : Option String :=
  let c := match line with | .define c => c | .undef_ c => c
  ((c.ppLexExpectToken .identifier true).toOption).map fun c => c.tk.literal

/-- The record a line alone makes for a name. -/
def Line.record (line : Line) (name : String) : Option Macro :=
  match line.process (fun _ => none) with
  | .ok macros => macros name
  | .error _ => none

/-- The record behind a directive that alone makes a record, or none for `#undef`. -/
def Macro.become (old : Option Macro) : Option Macro → Except Failure (Option Macro)
  | none => .ok (old.map fun record => { record with isDisabled := true })
  | some new =>
      if (old.getD {}).Fits new then .ok (some ((old.getD {}).redefine new))
      else .error .outOfBounds

/-- What a line leaves of a name. -/
def Line.leaves (line : Line) (macros : Macros) (name : String) :
    Except Failure (Option Macro) :=
  (line.process macros).map fun behind => behind name

theorem Macros.put_self (macros : Macros) (name : String) (record : Macro) :
    macros.put name record name = some record :=
  Function.update_self name _ macros

theorem ppDefine_ok {c : Cursor} {macros behind : Macros} {rest : Option Cursor}
    (defined : ppDefine c macros = .ok (rest, behind)) :
    ∃ named listed line record replacement,
      c.ppLexExpectToken .identifier true = .ok named ∧
        readParameterList named (macros.opened named.tk.literal) = .ok (listed, record) ∧
          readReplacementLine listed = .ok (line, replacement) ∧
            rest = line.ppLexNextToken false ∧
              behind = macros.put named.tk.literal { record with replacement := replacement } := by
  rcases bind_ok_iff.mp defined with ⟨named, expected, defined⟩
  rcases bind_ok_iff.mp defined with ⟨⟨listed, record⟩, params, defined⟩
  rcases bind_ok_iff.mp defined with ⟨⟨line, replacement⟩, replaced, ⟨⟩⟩
  exact ⟨named, listed, line, record, replacement, expected, params, replaced, rfl, rfl⟩

theorem processed {α : Type} {step : Except Failure (α × Macros)} {behind : Macros}
    (ran : step.map Prod.snd = .ok behind) : ∃ rest, step = .ok (rest, behind) := by
  cases step with
  | error failure => cases ran
  | ok result =>
      rcases result with ⟨rest, macros⟩
      cases ran
      exact ⟨rest, rfl⟩

theorem define_leaves {c named : Cursor} {alone : Macros} (macros : Macros)
    (expected : c.ppLexExpectToken .identifier true = .ok named)
    (accepted : (Line.define c).process (fun _ => none) = .ok alone)
    (bounded : ((macros named.tk.literal).getD {}).paramNames.length ≤ maxParams) :
    (Line.define c).leaves macros named.tk.literal =
      Macro.become (macros named.tk.literal) (alone named.tk.literal) := by
  rcases processed accepted with ⟨rest, defined⟩
  rcases ppDefine_ok defined with
    ⟨at_, listed, line, record, replacement, expected', params, replaced, -, rfl⟩
  cases Except.ok.inj (expected.symm.trans expected')
  rw [Line.leaves, Line.process, ppDefine, expected, Macros.put_self, Macro.become]
  simp only [bind, Except.bind, Macros.opened_eq]
  rcases readParameterList_extends ((macros named.tk.literal).getD {}) named {} listed record
    params (Macro.Fits.empty bounded) with ⟨fits, same⟩ | ⟨full, same⟩
  · have fits' : ((macros named.tk.literal).getD {}).Fits
        { record with replacement := replacement } := fits
    rw [same, if_pos fits']
    simp only [replaced, Except.map, Macros.put_self]
    rfl
  · have full' : ¬ ((macros named.tk.literal).getD {}).Fits
        { record with replacement := replacement } := full
    rw [same, if_neg full']
    rfl

theorem undef_leaves {c named : Cursor} {alone : Macros} (macros : Macros)
    (expected : c.ppLexExpectToken .identifier true = .ok named)
    (accepted : (Line.undef_ c).process (fun _ => none) = .ok alone) :
    (Line.undef_ c).leaves macros named.tk.literal =
      Macro.become (macros named.tk.literal) (alone named.tk.literal) := by
  rcases processed accepted with ⟨rest, undefined⟩
  rcases bind_ok_iff.mp undefined with ⟨at_, expected', undefined⟩
  rcases bind_ok_iff.mp undefined with ⟨line, ended, ⟨⟩⟩
  cases Except.ok.inj (expected.symm.trans expected')
  rw [Line.leaves, Line.process, ppUndef, expected]
  simp only [bind, Except.bind, ended, Except.map, Macros.disable, Macro.become]
  cases found : macros named.tk.literal with
  | none => exact congrArg Except.ok found
  | some record => exact congrArg Except.ok (Macros.put_self _ _ _)

/-- A line that is accepted alone changes the record of its name by the record it
makes alone. -/
theorem Line.leaves_eq {line : Line} {name : String} {alone : Macros} (macros : Macros)
    (named : line.name = some name) (accepted : line.process (fun _ => none) = .ok alone)
    (bounded : ((macros name).getD {}).paramNames.length ≤ maxParams) :
    line.leaves macros name = Macro.become (macros name) (line.record name) := by
  rw [Line.record, accepted]
  cases line with
  | define c =>
      cases expected : c.ppLexExpectToken .identifier true with
      | error failure => rw [Line.name, expected] at named; cases named
      | ok at_ =>
          rw [Line.name, expected] at named
          cases named
          exact define_leaves macros expected accepted bounded
  | undef_ c =>
      cases expected : c.ppLexExpectToken .identifier true with
      | error failure => rw [Line.name, expected] at named; cases named
      | ok at_ =>
          rw [Line.name, expected] at named
          cases named
          exact undef_leaves macros expected accepted

/-! ## A sequence of directives -/

/-- The token of `__VA_ARGS__` is there exactly for a variadic macro. -/
def Macro.Coherent (record : Macro) : Prop := record.variadicTk.isSome = record.isVariadic

/-- A record as a directive makes it from a new one. -/
structure Macro.New (record : Macro) : Prop where
  coherent : record.Coherent
  enabled : record.isDisabled = false
  handler : record.handler = none

theorem readParams_new {fuel : Nat} {c behind : Cursor} {record new : Macro}
    (read : readParams fuel c record = .ok (behind, new)) (isNew : record.New) : new.New := by
  induction fuel generalizing c record with
  | zero =>
      cases read
      exact isNew
  | succ fuel inductionHypothesis =>
      by_cases peek : c.ppLexPeekToken .identifier true = true
      · rcases (readParams_succ_ok_iff peek).mp read with ⟨name, -, added, isAdded, rest, -, read⟩
        apply inductionHypothesis read
        rw [(addParam_eq_ok_iff.mp isAdded).2]
        exact ⟨isNew.coherent, isNew.enabled, isNew.handler⟩
      · rw [readParams, if_neg peek] at read
        cases read
        exact isNew

theorem readElipsis_new {c behind : Cursor} {record new : Macro}
    (read : readElipsis c record = .ok (behind, new)) (isNew : record.New) : new.New := by
  rw [readElipsis] at read
  split at read
  · rcases bind_ok_iff.mp read with ⟨name, -, ⟨⟩⟩
    exact ⟨rfl, isNew.enabled, isNew.handler⟩
  · cases read
    exact isNew

theorem readParameterList_new {c behind : Cursor} {record new : Macro}
    (read : readParameterList c record = .ok (behind, new)) (isNew : record.New) : new.New := by
  rw [readParameterList] at read
  split at read
  · rcases bind_ok_iff.mp read with ⟨opened, -, read⟩
    rcases bind_ok_iff.mp read with ⟨⟨named, middle⟩, names, read⟩
    rcases bind_ok_iff.mp read with ⟨⟨dotted, variadic⟩, dots, read⟩
    rcases bind_ok_iff.mp read with ⟨closed, -, ⟨⟩⟩
    exact readElipsis_new dots (readParams_new names isNew)
  · cases read
    exact isNew

/-- The record a line alone makes is new, and fits the array. -/
theorem Line.record_new {line : Line} {name : String} {record : Macro}
    (isRecord : line.record name = some record) : record.New ∧
      record.paramNames.length ≤ maxParams := by
  rw [Line.record] at isRecord
  cases processed_ : line.process (fun _ => none) with
  | error failure => rw [processed_] at isRecord; cases isRecord
  | ok alone =>
      rw [processed_] at isRecord
      cases line with
      | define c =>
          rcases processed processed_ with ⟨rest, defined⟩
          rcases ppDefine_ok defined with
            ⟨named, listed, line, new, replacement, -, params, -, -, rfl⟩
          by_cases same : name = named.tk.literal
          · subst same
            simp only [Macros.put_self] at isRecord
            cases isRecord
            have isNew := readParameterList_new params ⟨rfl, rfl, rfl⟩
            refine ⟨⟨isNew.coherent, isNew.enabled, isNew.handler⟩, ?_⟩
            rcases readParameterList_extends {} named {} listed new params (Nat.zero_le _) with
              ⟨fits, -⟩ | ⟨-, failed⟩
            · exact Nat.le_trans (Nat.le_add_left _ _) fits
            · cases params.symm.trans failed
          · simp only [Macros.put, Function.update_of_ne same] at isRecord
            cases isRecord
      | undef_ c =>
          rcases processed processed_ with ⟨rest, undefined⟩
          rcases bind_ok_iff.mp undefined with ⟨at_, -, undefined⟩
          rcases bind_ok_iff.mp undefined with ⟨line, -, ⟨⟩⟩
          cases isRecord

/-- What a sequence of directives leaves of a record: the parameters of all of them,
and the handler the record started with. -/
structure Summary (start : Option Macro) (records : List Macro) (state : Option Macro) :
    Prop where
  isNone : state = none ↔ start = none ∧ records = []
  paramNames : (state.getD {}).paramNames =
    (start.getD {}).paramNames ++ records.flatMap Macro.paramNames
  isVariadic : (state.getD {}).isVariadic =
    ((start.getD {}).isVariadic || records.any Macro.isVariadic)
  handler : (state.getD {}).handler = (start.getD {}).handler
  coherent : (state.getD {}).Coherent

/-- The number of parameters of a list of records. -/
def paramCount (records : List Macro) : Nat :=
  (records.map fun record => record.paramNames.length).sum

/-- A line with the directive for a name that alone makes a record. -/
structure Line.Directs (line : Line) (name : String) : Prop where
  named : line.name = some name
  accepted : ∃ alone, line.process (fun _ => none) = .ok alone

theorem Summary.refl {start : Option Macro} (coherent : (start.getD {}).Coherent) :
    Summary start [] start := by
  constructor
  · simp
  · simp
  · simp
  · rfl
  · exact coherent

theorem Summary.disabled {start state : Option Macro} {records : List Macro}
    (summary : Summary (start.map fun record => { record with isDisabled := true }) records
      state) : Summary start records state := by
  cases start with
  | none => exact summary
  | some record =>
      refine ⟨?_, summary.paramNames, summary.isVariadic, summary.handler, summary.coherent⟩
      simpa using summary.isNone

theorem Macro.Coherent.extend {old new : Macro} (coherent : old.Coherent) (isNew : new.Coherent) :
    (old.redefine new).Coherent := by
  rw [Macro.Coherent] at *
  change (new.variadicTk.or old.variadicTk).isSome = (old.isVariadic || new.isVariadic)
  rw [Option.isSome_or, coherent, isNew, Bool.or_comm]

theorem Summary.defined {start state : Option Macro} {new : Macro} {records : List Macro}
    (summary : Summary (some ((start.getD {}).redefine new)) records state) :
    Summary start (new :: records) state := by
  constructor
  · simpa using summary.isNone
  · rw [summary.paramNames, List.flatMap_cons, ← List.append_assoc]
    rfl
  · rw [summary.isVariadic, List.any_cons, ← Bool.or_assoc]
    rfl
  · exact summary.handler
  · exact summary.coherent

theorem paramCount_cons (new : Macro) (records : List Macro) :
    paramCount (new :: records) = new.paramNames.length + paramCount records := by
  rw [paramCount, List.map_cons, List.sum_cons]
  rfl

/-- A sequence of directives for a name runs exactly as long as all their parameters
fit the array. -/
theorem processLines_summary {lines : List Line} {name : String} (macros : Macros)
    (directs : ∀ line ∈ lines, line.Directs name)
    (coherent : ((macros name).getD {}).Coherent)
    (bounded : ((macros name).getD {}).paramNames.length ≤ maxParams) :
    (((macros name).getD {}).paramNames.length +
        paramCount (lines.filterMap fun line => line.record name) ≤ maxParams ∧
      ∃ behind, processLines lines macros = .ok behind ∧
        Summary (macros name) (lines.filterMap fun line => line.record name) (behind name)) ∨
    (¬ ((macros name).getD {}).paramNames.length +
        paramCount (lines.filterMap fun line => line.record name) ≤ maxParams ∧
      processLines lines macros = .error .outOfBounds) := by
  induction lines generalizing macros with
  | nil => exact Or.inl ⟨bounded, macros, rfl, Summary.refl coherent⟩
  | cons line rest inductionHypothesis =>
      have direct := directs line List.mem_cons_self
      have others := fun other inRest => directs other (List.mem_cons_of_mem _ inRest)
      rcases direct.accepted with ⟨alone, accepted⟩
      have leaves := Line.leaves_eq macros direct.named accepted bounded
      rw [List.filterMap_cons, processLines]
      cases isRecord : line.record name with
      | none =>
          rw [isRecord, Line.leaves] at leaves
          cases ran : line.process macros with
          | error failure => rw [ran] at leaves; cases leaves
          | ok middle =>
              rw [ran] at leaves
              have state : middle name = (macros name).map _ := Except.ok.inj leaves
              have same : ((middle name).getD {}).paramNames =
                  ((macros name).getD {}).paramNames ∧
                    (((macros name).getD {}).Coherent → ((middle name).getD {}).Coherent) := by
                rw [state]
                cases macros name with
                | none => exact ⟨rfl, id⟩
                | some record => exact ⟨rfl, id⟩
              have later := inductionHypothesis middle others (same.2 coherent)
                (same.1 ▸ bounded)
              rw [same.1] at later
              rcases later with ⟨fits, behind, ran', summary⟩ | ⟨full, failed⟩
              · rw [state] at summary
                exact Or.inl ⟨fits, behind, ran', summary.disabled⟩
              · exact Or.inr ⟨full, failed⟩
      | some new =>
          have isNew := Line.record_new isRecord
          rw [isRecord, Line.leaves, Macro.become] at leaves
          simp only [paramCount_cons]
          by_cases fits : ((macros name).getD {}).Fits new
          · rw [if_pos fits] at leaves
            cases ran : line.process macros with
            | error failure => rw [ran] at leaves; cases leaves
            | ok middle =>
                rw [ran] at leaves
                have state : middle name = some (((macros name).getD {}).redefine new) :=
                  Except.ok.inj leaves
                have length : ((middle name).getD {}).paramNames.length =
                    ((macros name).getD {}).paramNames.length + new.paramNames.length := by
                  rw [state]
                  exact List.length_append
                have later := inductionHypothesis middle others
                  (by rw [state]; exact coherent.extend isNew.1.coherent) (length ▸ fits)
                rw [length, Nat.add_assoc] at later
                rcases later with ⟨fits, behind, ran', summary⟩ | ⟨full, failed⟩
                · rw [state] at summary
                  exact Or.inl ⟨fits, behind, ran', summary.defined⟩
                · exact Or.inr ⟨full, failed⟩
          · rw [if_neg fits] at leaves
            cases ran : line.process macros with
            | ok middle => rw [ran] at leaves; cases leaves
            | error failure =>
                rw [ran] at leaves
                cases leaves
                right
                constructor
                · intro all
                  apply fits
                  rw [Macro.Fits]
                  omega
                · rfl

theorem builtIn_record {archPredefined name : String} {record : Macro}
    (found : builtInMacros archPredefined name = some record) :
    record.paramNames = [] ∧ record.isVariadic = false ∧ record.Coherent := by
  simp only [builtInMacros, Macros.put, Function.update_apply] at found
  split at found
  · cases found
    exact ⟨rfl, rfl, rfl⟩
  · split at found
    · cases found
      exact ⟨rfl, rfl, rfl⟩
    · split at found
      · cases found
        exact ⟨rfl, rfl, rfl⟩
      · split at found
        · cases found
          exact ⟨rfl, rfl, rfl⟩
        · cases found

/-- When the last directive decides alone: for `#define`, the name is not one of the
built-in functions, no earlier definition has a parameter, and none is variadic
unless the last is; for `#undef`, there is nothing to disable, or what there is is
function-like. -/
def Decides (builtIn : Option Macro) (earlier : List Macro) : Option Macro → Prop
  | some record => (builtIn.getD {}).handler = none ∧
      ∀ one ∈ earlier, one.paramNames = [] ∧ (one.isVariadic = true → record.isVariadic = true)
  | none => paramCount earlier ≤ maxParams ∧
      ((builtIn = none ∧ earlier = []) ∨ ∃ one ∈ earlier, one.isFunctionLike = true)

theorem processLines_append (lines : List Line) (last : Line) (macros : Macros) :
    processLines (lines ++ [last]) macros = (processLines lines macros).bind last.process := by
  induction lines generalizing macros with
  | nil =>
      change (last.process macros).bind (fun behind => .ok behind) = last.process macros
      cases last.process macros <;> rfl
  | cons line rest inductionHypothesis =>
      rw [List.cons_append, processLines, processLines]
      cases ran : line.process macros with
      | error failure => rfl
      | ok middle => exact inductionHypothesis middle

theorem Line.leaves_ok {line : Line} {macros : Macros} {name : String} {state : Option Macro}
    (leaves : line.leaves macros name = .ok state) :
    ∃ behind, line.process macros = .ok behind ∧ behind name = state := by
  rw [Line.leaves] at leaves
  cases ran : line.process macros with
  | error failure => rw [ran] at leaves; cases leaves
  | ok behind =>
      rw [ran] at leaves
      exact ⟨behind, rfl, Except.ok.inj leaves⟩

theorem flatMap_paramNames_length (records : List Macro) :
    (records.flatMap Macro.paramNames).length = paramCount records := by
  rw [List.length_flatMap, paramCount]

section LastDirective

variable {archPredefined name : String} {earlier : List Line} {last : Line}
  (directs : ∀ line ∈ earlier ++ [last], line.Directs name)

include directs in
/-- Whether the last line decides alone is seen on the record the lines before it
leave, if their parameters fit the array; otherwise it does not. -/
theorem latest_iff_become :
    (paramCount (earlier.filterMap fun line => line.record name) ≤ maxParams ∧
      ∃ middle, Summary (builtInMacros archPredefined name)
          (earlier.filterMap fun line => line.record name) middle ∧
        (Latest archPredefined earlier last name ↔
          ∃ state, Macro.become middle (last.record name) = .ok state ∧
            SameMeaning (fun _ => state) (fun _ => last.record name) name)) ∨
    (¬ paramCount (earlier.filterMap fun line => line.record name) ≤ maxParams ∧
      ¬ Latest archPredefined earlier last name) := by
  have lastDirect := directs last (List.mem_append_right _ List.mem_cons_self)
  rcases lastDirect.accepted with ⟨alone, accepted⟩
  have aloneRecord : alone name = last.record name := by rw [Line.record, accepted]
  have processAlone : processLines [last] (fun _ => none) = .ok alone := by
    rw [processLines, accepted]
    rfl
  have start : ((builtInMacros archPredefined name).getD {}).paramNames = [] ∧
      ((builtInMacros archPredefined name).getD {}).Coherent := by
    cases found : builtInMacros archPredefined name with
    | none => exact ⟨rfl, rfl⟩
    | some record => exact ⟨(builtIn_record found).1, (builtIn_record found).2.2⟩
  have empty : ((builtInMacros archPredefined name).getD {}).paramNames.length = 0 :=
    congrArg List.length start.1
  have ran := @processLines_summary earlier name (builtInMacros archPredefined)
    (fun line inEarlier => directs line (List.mem_append_left _ inEarlier)) start.2
    (empty ▸ Nat.zero_le _)
  rw [empty, Nat.zero_add] at ran
  rcases ran with ⟨fits, middle, ranEarlier, summary⟩ | ⟨full, failed⟩
  · refine Or.inl ⟨fits, middle name, summary, ?_⟩
    have leaves : last.leaves middle name = Macro.become (middle name) (last.record name) := by
      apply Line.leaves_eq middle lastDirect.named accepted
      rw [summary.paramNames, start.1, List.nil_append, flatMap_paramNames_length]
      exact fits
    have all : processLines (earlier ++ [last]) (builtInMacros archPredefined) =
        last.process middle := by
      rw [processLines_append, ranEarlier]
      rfl
    constructor
    · rintro ⟨behind, alone', processed_, processAlone', same⟩
      cases Except.ok.inj (processAlone.symm.trans processAlone')
      rw [all] at processed_
      refine ⟨behind name, ?_, ?_⟩
      · rw [← leaves, Line.leaves, processed_]
        rfl
      · rw [← aloneRecord]
        exact ⟨same.inText, same.inCondition⟩
    · rintro ⟨state, become, same⟩
      rcases Line.leaves_ok (leaves.trans become) with ⟨behind, processed_, rfl⟩
      refine ⟨behind, alone, all.trans processed_, processAlone, ?_⟩
      rw [← aloneRecord] at same
      exact ⟨same.inText, same.inCondition⟩
  · refine Or.inr ⟨full, ?_⟩
    rintro ⟨behind, alone', processed_, -, -⟩
    rw [processLines_append, failed] at processed_
    cases processed_

end LastDirective

theorem sameMeaning_define {old new : Macro} (coherent : old.Coherent) (isNew : new.New)
    (name : String) :
    SameMeaning (fun _ => some (old.redefine new)) (fun _ => some new) name ↔
      old.handler = none ∧ old.paramNames = [] ∧
        (old.isVariadic = true → new.isVariadic = true) := by
  constructor
  · intro same
    have inText := same.inText
    have enabled : (old.redefine new).isDisabled = false := rfl
    simp only [Macros.inText, Option.filter, enabled, isNew.enabled, Bool.not_false, if_true,
      Option.map_some, Option.some.injEq] at inText
    have handler := congrArg Macro.handler inText
    have paramNames := congrArg Macro.paramNames inText
    have isVariadic := congrArg Macro.isVariadic inText
    refine ⟨handler.trans isNew.handler, List.append_left_eq_self.mp paramNames, ?_⟩
    change (old.isVariadic || new.isVariadic) = new.isVariadic at isVariadic
    intro variadic
    rw [variadic] at isVariadic
    exact isVariadic.symm
  · rintro ⟨handler, paramNames, isVariadic⟩
    have variadicTk : new.variadicTk.or old.variadicTk = new.variadicTk := by
      cases found : new.variadicTk with
      | some tk => rfl
      | none =>
          have notNew : new.isVariadic = false := by
            rw [← isNew.coherent, found]
            rfl
          have notOld : old.isVariadic = false := by
            rw [← Bool.not_eq_true]
            intro variadic
            cases notNew.symm.trans (isVariadic variadic)
          rw [Macro.Coherent, notOld, Option.isSome_eq_false_iff, Option.isNone_iff_eq_none]
            at coherent
          exact coherent
    have variadic : (old.isVariadic || new.isVariadic) = new.isVariadic := by
      cases isOld : old.isVariadic with
      | false => rfl
      | true => exact (isVariadic isOld).symm
    have same : old.redefine new = new := by
      rw [Macro.redefine, Macro.extend]
      simp only [paramNames, List.nil_append, variadic, variadicTk, handler]
      rw [← isNew.enabled, ← isNew.handler]
    rw [same]
    exact ⟨rfl, rfl⟩

theorem sameMeaning_undef (state : Option Macro) (name : String) :
    SameMeaning (fun _ => state.map fun record => { record with isDisabled := true })
      (fun _ => none) name ↔ state = none ∨ (state.getD {}).isFunctionLike = true := by
  cases state with
  | none => exact ⟨fun _ => Or.inl rfl, fun _ => ⟨rfl, rfl⟩⟩
  | some record =>
      have kind : ({ record with isDisabled := true } : Macro).isFunctionLike =
          record.isFunctionLike := rfl
      constructor
      · intro same
        right
        have inCondition := same.inCondition
        by_contra objectLike
        simp only [Macros.inCondition, Option.map_some, Option.filter, kind] at inCondition
        rw [Option.getD_some, Bool.not_eq_true] at objectLike
        rw [objectLike] at inCondition
        cases inCondition
      · rintro (⟨⟨⟩⟩ | functionLike)
        rw [Option.getD_some] at functionLike
        constructor
        · rfl
        · simp only [Macros.inCondition, Option.map_some, Option.filter, kind, functionLike]
          rfl

theorem Macro.isFunctionLike_iff {record : Macro} : record.isFunctionLike = true ↔
    record.paramNames ≠ [] ∨ record.isVariadic = true := by
  rw [Macro.isFunctionLike, Bool.or_eq_true, Bool.not_eq_true', List.isEmpty_eq_false_iff]

theorem Summary.isFunctionLike {start state : Option Macro} {records : List Macro}
    (summary : Summary start records state) (names : (start.getD {}).paramNames = [])
    (notVariadic : (start.getD {}).isVariadic = false) :
    (state.getD {}).isFunctionLike = true ↔ ∃ one ∈ records, one.isFunctionLike = true := by
  rw [Macro.isFunctionLike_iff, summary.paramNames, summary.isVariadic, names, notVariadic,
    List.nil_append, Bool.false_or, List.any_eq_true, ne_eq, List.flatMap_eq_nil_iff]
  simp only [Macro.isFunctionLike_iff]
  push Not
  constructor
  · rintro (⟨one, member, names⟩ | ⟨one, member, variadic⟩)
    · exact ⟨one, member, Or.inl names⟩
    · exact ⟨one, member, Or.inr variadic⟩
  · rintro ⟨one, member, names | variadic⟩
    · exact Or.inl ⟨one, member, names⟩
    · exact Or.inr ⟨one, member, variadic⟩

theorem paramCount_eq_zero {records : List Macro} (names : ∀ one ∈ records, one.paramNames = []) :
    paramCount records = 0 := by
  rw [← flatMap_paramNames_length, List.flatMap_eq_nil_iff.mpr names]
  rfl

/-- Behind a sequence of directives for a name it means what the last directive alone
makes it mean exactly if that one decides. -/
theorem latest_iff (archPredefined : String) (earlier : List Line) (last : Line) (name : String)
    (directs : ∀ line ∈ earlier ++ [last], line.Directs name) :
    Latest archPredefined earlier last name ↔
      Decides (builtInMacros archPredefined name)
        (earlier.filterMap fun line => line.record name) (last.record name) := by
  have start : ((builtInMacros archPredefined name).getD {}).paramNames = [] ∧
      ((builtInMacros archPredefined name).getD {}).isVariadic = false := by
    cases found : builtInMacros archPredefined name with
    | none => exact ⟨rfl, rfl⟩
    | some record => exact ⟨(builtIn_record found).1, (builtIn_record found).2.1⟩
  cases isLast : last.record name with
  | some new =>
      have isNew := Line.record_new isLast
      rcases latest_iff_become directs with ⟨fits, middle, summary, become⟩ | ⟨full, fails⟩
      · rw [become, isLast]
        have meaning := sameMeaning_define summary.coherent isNew.1 name
        rw [summary.handler, summary.paramNames, summary.isVariadic, start.1, start.2,
          List.nil_append, Bool.false_or, List.flatMap_eq_nil_iff, List.any_eq_true] at meaning
        constructor
        · rintro ⟨state, became, same⟩
          rw [Macro.become] at became
          split at became
          · cases became
            rcases meaning.mp same with ⟨handler, names, variadic⟩
            refine ⟨handler, fun one member => ⟨names one member, fun isVariadic => ?_⟩⟩
            exact variadic ⟨one, member, isVariadic⟩
          · cases became
        · rintro ⟨handler, decides⟩
          have names := fun one member => (decides one member).1
          have room : (middle.getD {}).Fits new := by
            rw [Macro.Fits, summary.paramNames, start.1, List.nil_append,
              flatMap_paramNames_length, paramCount_eq_zero names, Nat.zero_add]
            exact isNew.2
          refine ⟨_, if_pos room, meaning.mpr ⟨handler, names, ?_⟩⟩
          rintro ⟨one, member, isVariadic⟩
          exact (decides one member).2 isVariadic
      · constructor
        · intro holds
          exact absurd holds fails
        · rintro ⟨-, decides⟩
          apply absurd _ full
          rw [paramCount_eq_zero fun one member => (decides one member).1]
          exact Nat.zero_le _
  | none =>
      rcases latest_iff_become directs with ⟨fits, middle, summary, become⟩ | ⟨full, fails⟩
      · rw [become, isLast]
        have meaning := sameMeaning_undef middle name
        rw [summary.isNone, summary.isFunctionLike start.1 start.2] at meaning
        constructor
        · rintro ⟨state, ⟨⟩, same⟩
          exact ⟨fits, meaning.mp same⟩
        · rintro ⟨-, decides⟩
          exact ⟨_, rfl, meaning.mpr decides⟩
      · constructor
        · intro holds
          exact absurd holds fails
        · rintro ⟨fits, -⟩
          exact absurd fits full

/-! ## Two sequences -/

/-- A token of a line. -/
def lineToken (kind : TokenKind) (literal : String) : Token := ⟨kind, literal, synthBuiltInLoc⟩

/-- A `#define` line. -/
def defineLine (name : String) (rest : List Token) : Line :=
  .define ⟨lineToken .cppdDefine "", lineToken .whitespace "" :: lineToken .identifier name ::
    (rest ++ [lineToken .newline ""])⟩

/-- An `#undef` line. -/
def undefLine (name : String) : Line :=
  .undef_ ⟨lineToken .cppdUndef_ "", [lineToken .whitespace "", lineToken .identifier name,
    lineToken .newline ""]⟩

/-- `#define F(x) x`. -/
def identityLine (parameter : String) : Line :=
  defineLine "F" [lineToken .openBracket "", lineToken .identifier parameter,
    lineToken .closeBracket "", lineToken .whitespace "", lineToken .identifier parameter]

/-- `#define A 1`, `#undef A`, `#define A 2`. -/
theorem redefined_latest :
    Latest "__arm__" [defineLine "A" [lineToken .whitespace "", lineToken .numeric "1"],
      undefLine "A"] (defineLine "A" [lineToken .whitespace "", lineToken .numeric "2"]) "A" := by
  apply (latest_iff "__arm__" _ _ "A" _).mpr
  · refine ⟨rfl, ?_⟩
    decide
  · simp only [List.cons_append, List.nil_append, List.mem_cons, List.not_mem_nil, or_false]
    rintro line (rfl | rfl | rfl)
    · exact ⟨rfl, _, rfl⟩
    · exact ⟨rfl, _, rfl⟩
    · exact ⟨rfl, _, rfl⟩

/-- `#define F(a) a`, `#define F(b) b`: behind the second line `F` takes two
arguments. -/
theorem redefined_notLatest :
    ¬ ∀ (archPredefined : String) (earlier : List Line) (last : Line) (name : String),
      (∀ line ∈ earlier ++ [last], line.Directs name) →
        Latest archPredefined earlier last name := by
  intro claimed
  have directs : ∀ line ∈ [identityLine "a"] ++ [identityLine "b"], line.Directs "F" := by
    simp only [List.cons_append, List.nil_append, List.mem_cons, List.not_mem_nil, or_false]
    rintro line (rfl | rfl)
    · exact ⟨rfl, _, rfl⟩
    · exact ⟨rfl, _, rfl⟩
  rcases claimed "__arm__" _ _ "F" directs with ⟨behind, alone, ran, ranAlone, same⟩
  have inText := same.inText
  cases ran
  cases ranAlone
  revert inText
  decide

end Shecc.Preprocessor
