import Shecc.Parser.Element

/-!
# The dimensions of a declarator

The tokens between square brackets state the dimensions of an array. What the
record of the array keeps of them is their product and the second.
-/

namespace Shecc.Parser

open Shecc.Preprocessor (Token TokenKind SourceLocation Cursor)

/-- The dimensions the tokens ahead state, up to the first token that opens none. -/
inductive Dimensions (ctx : Context) : List Nat → Parsing → Prop where
  | nil {p p' : Parsing} (ends : lexAccept .openSquare p = .ok (false, p')) : Dimensions ctx [] p
  | cons {dim : Nat} {dims : List Nat} {p opened sized closed : Parsing}
      (opens : lexAccept .openSquare p = .ok (true, opened))
      (reads : readDimension ctx opened = .ok (some dim, sized))
      (closes : lexExpect .closeSquare sized = .ok ((), closed))
      (behind : Dimensions ctx dims closed) : Dimensions ctx (dim :: dims) p

/-! ## Reading tokens only -/

/-- Only the tokens ahead are read, and only the cursor moves. -/
def Lexes {α : Type} (step : Parse α) : Prop :=
  ∀ (p p' r : Parsing) (value : α), step p = .ok (value, p') → r.cur = p.cur →
    step r = .ok (value, r.move p'.cur)

namespace Lexes

variable {α β : Type}

theorem pure (value : α) : Lexes (Pure.pure value) := by
  intro p p' r value' ran same
  cases ran
  rw [← same]
  rfl

theorem bind {step : Parse α} {rest : α → Parse β} (first : Lexes step)
    (second : ∀ value, Lexes (rest value)) : Lexes (step >>= rest) := by
  intro p p' r value ran same
  rcases Parse.bind_eq_ok_iff.mp ran with ⟨found, middle, before, behind⟩
  rw [Parse.bind_ok (first _ _ _ _ before same)]
  exact second found _ _ _ _ behind rfl

theorem ahead_eq {p r : Parsing} (same : r.cur = p.cur) : r.ahead = p.ahead := by
  rw [Parsing.ahead, Parsing.ahead, same]

theorem peek_eq {p r : Parsing} (same : r.cur = p.cur) : r.peek = p.peek := by
  rw [Parsing.peek, Parsing.peek, ahead_eq same]

theorem behind_eq {p r : Parsing} (same : r.cur = p.cur) : r.behind = p.behind := by
  rw [Parsing.behind, Parsing.behind, ahead_eq same]

theorem lexAccept (kind : TokenKind) : Lexes (Parser.lexAccept kind) := by
  intro p p' r value ran same
  unfold Parser.lexAccept at ran ⊢
  rw [peek_eq same, ahead_eq same, behind_eq same]
  split at ran <;> cases ran
  · rw [if_pos ‹_›]
    rfl
  · rw [if_neg ‹_›]
    rfl

theorem lexExpect (kind : TokenKind) : Lexes (Parser.lexExpect kind) := by
  intro p p' r value ran same
  unfold Parser.lexExpect at ran ⊢
  rw [peek_eq same, behind_eq same]
  split at ran <;> cases ran
  rw [if_pos ‹_›]
  rfl

theorem lexPeek (kind : TokenKind) : Lexes (Parser.lexPeek kind) := by
  intro p p' r value ran same
  cases ran
  rw [Parser.lexPeek, peek_eq same, ahead_eq same]
  rfl

theorem fail (stop : Stop) : Lexes (Parse.fail stop : Parse α) := by
  intro p p' r value ran
  cases ran

theorem deref (value : Option α) : Lexes (Parse.deref value) := by
  cases value with
  | none => exact fail _
  | some value => exact pure value

theorem copyLiteral (literal : String) (size : Nat) : Lexes (Parser.copyLiteral literal size) := by
  unfold Parser.copyLiteral
  split
  · exact pure _
  · exact fail _

theorem lexPeekInto (ctx : Context) (kind : TokenKind) (size : Nat) :
    Lexes (Parser.lexPeekInto ctx kind size) := by
  unfold Parser.lexPeekInto
  refine bind (lexPeek kind) fun found => ?_
  intro p p' r value ran same
  change (if found = true then _ else _ : Parse _) r = _
  change (if found = true then _ else _ : Parse _) p = _ at ran
  rw [ahead_eq same]
  split at ran
  · rw [if_pos ‹_›]
    exact bind (deref _) (fun next => bind (copyLiteral _ _) fun value => pure _) _ _ _ _ ran same
  · rw [if_neg ‹_›]
    exact pure _ _ _ _ _ ran same

theorem readDimension (ctx : Context) : Lexes (Parser.readDimension ctx) := by
  unfold Parser.readDimension
  refine bind (lexPeekInto _ _ _) fun result => ?_
  rcases result with ⟨buffer, isNumeric⟩
  cases isNumeric with
  | false => exact pure none
  | true =>
      refine bind ?_ fun dim => bind (lexExpect _) fun _ => pure _
      unfold parseDimension
      dsimp only
      split
      · exact pure _
      · exact fail _

end Lexes

variable {ctx : Context} {vd : VarId} {dims : List Nat} {p q p' : Parsing}

/-! ## What the record keeps -/

/-- The record with another number of elements. -/
def VarRecord.elements (record : VarRecord) (count : Nat) : VarRecord :=
  { record with arraySize := count }

/-- The parser with another number of elements in a record. -/
def Parsing.setElements (p : Parsing) (vd : VarId) (count : Nat) : Parsing :=
  p.modifyVar vd (·.elements count)

theorem Parsing.var_setElements (inside : vd < p.vars.length) (count : Nat) :
    (p.setElements vd count).var vd = (p.var vd).elements count :=
  (p.var_modifyVar vd vd _).trans (if_pos ⟨rfl, inside⟩)

theorem multiplyDimension_eq_ok {nextDim : Nat} (isArray : (p.var vd).arraySize ≠ 0)
    (ran : multiplyDimension vd nextDim p = .ok ((), p')) :
    p' = p.setElements vd ((p.var vd).arraySize * nextDim) := by
  unfold multiplyDimension at ran
  rcases Parse.bind_eq_ok_iff.mp ran with ⟨record, _, ranVar, ran⟩
  cases ranVar
  rw [if_pos (Nat.pos_of_ne_zero isArray)] at ran
  split at ran <;> cases ran
  rfl

/-- A dimension is read where the tokens state one. -/
theorem Dimensions.read {dim : Nat} (dimensions : Dimensions ctx (dim :: dims) q)
    (same : p.cur = q.cur) : ∃ opened sized closed,
      lexAccept .openSquare p = .ok (true, p.move opened) ∧
      readDimension ctx (p.move opened) = .ok (some dim, p.move sized) ∧
      (∀ r : Parsing, r.cur = sized → lexExpect .closeSquare r = .ok ((), r.move closed)) ∧
      ∃ behind : Parsing, behind.cur = closed ∧ Dimensions ctx dims behind := by
  cases dimensions with
  | @cons _ _ _ opened sized closed opens reads closes behind =>
      refine ⟨opened.cur, sized.cur, closed.cur, Lexes.lexAccept _ _ _ _ _ opens same, ?_, ?_, _,
        rfl,
        behind⟩
      · exact Lexes.readDimension _ _ _ (p.move opened.cur) _ reads rfl
      · exact fun r same => Lexes.lexExpect _ _ _ _ _ closes same

theorem Dimensions.stop (dimensions : Dimensions ctx [] q) (same : p.cur = q.cur) :
    ∃ cur, lexAccept .openSquare p = .ok (false, p.move cur) := by
  cases dimensions with
  | nil ends => exact ⟨_, Lexes.lexAccept _ _ _ _ _ ends same⟩

/-- Every further dimension multiplies the number of elements. -/
theorem readFurtherDimensions_var {fuel : Nat} (dimensions : Dimensions ctx dims q)
    (same : p.cur = q.cur) (positive : 0 ∉ dims) (inside : vd < p.vars.length)
    (isArray : (p.var vd).arraySize ≠ 0)
    (ran : readFurtherDimensions ctx vd fuel p = .ok ((), p')) :
    p'.var vd = (p.var vd).elements ((p.var vd).arraySize * dims.prod) := by
  induction dims generalizing fuel p q with
  | nil =>
      cases fuel with
      | zero => cases ran
      | succ fuel =>
          rcases dimensions.stop same with ⟨cur, stops⟩
          unfold readFurtherDimensions at ran
          rw [Parse.bind_ok stops, if_neg Bool.false_ne_true] at ran
          cases ran
          simp [VarRecord.elements]
          rfl
  | cons dim dims inductionHypothesis =>
      cases fuel with
      | zero => cases ran
      | succ fuel =>
          rcases dimensions.read same with
            ⟨opened, sized, closed, opens, reads, closes, after, sameCur, behind⟩
          have nonzero : dim ≠ 0 := fun zero => positive (by simp [zero])
          unfold readFurtherDimensions at ran
          rw [Parse.bind_ok opens, if_pos rfl, Parse.bind_ok reads] at ran
          rcases Parse.bind_eq_ok_iff.mp ran with ⟨⟨⟩, multiplied, ranMultiply, ran⟩
          have isMultiplied : multiplied =
              (p.move sized).setElements vd ((p.var vd).arraySize * dim) :=
            multiplyDimension_eq_ok (p := p.move sized) isArray ranMultiply
          have closes : lexExpect .closeSquare multiplied = .ok ((), multiplied.move closed) :=
            closes multiplied (by rw [isMultiplied]; rfl)
          have var : (multiplied.move closed).var vd =
              (p.var vd).elements ((p.var vd).arraySize * dim) := by
            rw [isMultiplied]
            exact Parsing.var_setElements (p := p.move sized) inside _
          have inside : vd < (multiplied.move closed).vars.length := by
            rw [isMultiplied]
            simpa [Parsing.setElements, Parsing.move] using inside
          have isArray : ((multiplied.move closed).var vd).arraySize ≠ 0 := by
            rw [var]
            exact Nat.mul_ne_zero isArray nonzero
          have onward := (Parse.bind_ok closes).symm.trans ran
          rw [inductionHypothesis behind sameCur.symm (fun present => positive (by simp [present]))
            inside isArray onward, var, List.prod_cons, ← Nat.mul_assoc]
          rfl

/-- The record behind the second dimension. -/
theorem secondDimension_var {nextDim : Nat} (inside : vd < p.vars.length)
    (isArray : (p.var vd).arraySize ≠ 0)
    (ran : multiplyDimension vd nextDim (p.modifyVar vd ({ · with arrayDim2 := nextDim })) =
      .ok ((), p')) :
    p'.cur = p.cur ∧ p'.vars.length = p.vars.length ∧
      (p'.var vd).arraySize = (p.var vd).arraySize * nextDim ∧ (p'.var vd).arrayDim2 = nextDim := by
  have var : (p.modifyVar vd ({ · with arrayDim2 := nextDim })).var vd =
      { p.var vd with arrayDim2 := nextDim } :=
    (p.var_modifyVar vd vd _).trans (if_pos ⟨rfl, inside⟩)
  rw [multiplyDimension_eq_ok (by rw [var]; exact isArray) ran]
  refine ⟨rfl, by simp [Parsing.setElements], ?_⟩
  rw [Parsing.var_setElements (by simpa using inside), var]
  exact ⟨rfl, rfl⟩

/-- The dimensions that are read give the record their product and the second. -/
theorem readDimensions_var {fuel first : Nat} (dimensions : Dimensions ctx (first :: dims) q)
    (same : p.cur = q.cur) (positive : 0 ∉ first :: dims) (inside : vd < p.vars.length)
    (ran : readDimensions ctx vd fuel p = .ok ((), p')) :
    (p'.var vd).arraySize = (first :: dims).prod ∧
      (p'.var vd).arrayDim2 = dims.headD (p.var vd).arrayDim2 := by
  have nonzero : first ≠ 0 := fun zero => positive (by simp [zero])
  rcases dimensions.read same with
    ⟨opened, sized, closed, opens, reads, closes, after, sameCur, behind⟩
  unfold readDimensions at ran
  rw [Parse.bind_ok opens, if_pos rfl, Parse.bind_ok reads] at ran
  rcases Parse.bind_eq_ok_iff.mp ran with ⟨⟨⟩, noted, ranSet, ran⟩
  have isNoted : noted = (p.move sized).setElements vd first :=
    (congrArg Prod.snd (Except.ok.inj ranSet)).symm
  have closes : lexExpect .closeSquare noted = .ok ((), noted.move closed) :=
    closes noted (by rw [isNoted]; rfl)
  have ran := (Parse.bind_ok closes).symm.trans ran
  have var : (noted.move closed).var vd = (p.var vd).elements first := by
    rw [isNoted]
    exact Parsing.var_setElements (p := p.move sized) inside _
  have inside : vd < (noted.move closed).vars.length := by
    rw [isNoted]
    simpa [Parsing.setElements, Parsing.move] using inside
  have cur : (noted.move closed).cur = after.cur := sameCur.symm
  generalize noted.move closed = r at ran var inside cur
  cases dims with
  | nil =>
      rcases behind.stop cur with ⟨last, stops⟩
      rw [Parse.bind_ok stops, if_neg Bool.false_ne_true] at ran
      cases ran
      change (r.var vd).arraySize = _ ∧ (r.var vd).arrayDim2 = _
      rw [var]
      simp [VarRecord.elements]
  | cons second dims =>
      have nonzero' : second ≠ 0 := fun zero => positive (by simp [zero])
      rcases behind.read cur with
        ⟨opened, sized, closed, opens, reads, closes, after, sameCur, behind⟩
      rw [Parse.bind_ok opens, if_pos rfl, Parse.bind_ok reads] at ran
      rcases Parse.bind_eq_ok_iff.mp ran with ⟨⟨⟩, marked, ranSet, ran⟩
      cases ranSet
      rcases Parse.bind_eq_ok_iff.mp ran with ⟨⟨⟩, multiplied, ranMultiply, ran⟩
      have isArray : ((r.move sized).var vd).arraySize ≠ 0 := by
        change (r.var vd).arraySize ≠ 0
        rw [var]
        exact nonzero
      rcases secondDimension_var (p := r.move sized) inside isArray ranMultiply with
        ⟨sameCur', length, count, extent⟩
      have closes := closes multiplied sameCur'
      have ran := (Parse.bind_ok closes).symm.trans ran
      have count : ((multiplied.move closed).var vd).arraySize = first * second := by
        refine count.trans ?_
        change (r.var vd).arraySize * second = _
        rw [var]
        rfl
      have inside : vd < (multiplied.move closed).vars.length := by
        change vd < multiplied.vars.length
        rw [length]
        exact inside
      have isArray : ((multiplied.move closed).var vd).arraySize ≠ 0 := by
        rw [count]
        exact Nat.mul_ne_zero nonzero nonzero'
      rw [readFurtherDimensions_var behind sameCur.symm
        (fun present => positive (by simp [present]))
        inside isArray ran, count]
      exact ⟨by simp [VarRecord.elements, Nat.mul_assoc], extent⟩

/-! ## The declarator -/

/-- The second dimension of a record is left alone. -/
structure Undimensioned (vd : VarId) (p p' : Parsing) : Prop where
  length : p'.vars.length = p.vars.length
  arrayDim2 : (p'.var vd).arrayDim2 = (p.var vd).arrayDim2

theorem Undimensioned.of_vars (vars : p'.vars = p.vars) : Undimensioned vd p p' :=
  ⟨by rw [vars], by rw [Parsing.var, vars]; rfl⟩

instance : KeptMoves (Undimensioned vd) where
  refl _ := .of_vars rfl
  trans first second :=
    ⟨second.length.trans first.length, second.arrayDim2.trans first.arrayDim2⟩
  skip _ _ _ := .of_vars rfl

instance : Quiet .const := ⟨by decide⟩

theorem undimensioned_setVar {change : VarRecord → VarRecord}
    (keeps : ∀ record, (change record).arrayDim2 = record.arrayDim2) :
    Along (Undimensioned vd) (setVar vd change) where
  along {p p' _} ran := by
    cases ran
    refine ⟨by simp, ?_⟩
    rw [Parsing.var_modifyVar]
    split
    · exact keeps _
    · rfl

instance : Along (Undimensioned vd) (addPointerLevel vd) := undimensioned_setVar fun _ => rfl

instance (v u : VarId) : Along (Undimensioned v) (varOf u) where
  along ran := by
    cases ran
    exact .of_vars rfl

instance (v u : VarId) : Along (Undimensioned v) (opstackPush u) where
  along ran := by
    rw [opstackPush_eq_ok ran]
    exact .of_vars rfl

instance (fuel : Nat) : Along (Undimensioned vd) (skipConst fuel) := by
  induction fuel with
  | zero => exact .fail _
  | succ fuel inductionHypothesis =>
      unfold skipConst
      infer_instance

instance (fuel : Nat) : Along (Undimensioned vd) (readAsterisks vd fuel) := by
  induction fuel with
  | zero => exact .fail _
  | succ fuel inductionHypothesis =>
      unfold readAsterisks
      infer_instance

instance (isParam : Bool) : Along (Undimensioned vd) (readDeclaredName vd isParam) := by
  unfold readDeclaredName
  refine .andThen inferInstance fun name => .andThen (undimensioned_setVar fun _ => rfl) fun _ => ?_
  infer_instance

instance (anon isParam : Bool) (fuel : Nat) :
    Along (Undimensioned vd) (beginDeclarator vd anon isParam fuel) := by
  unfold beginDeclarator
  refine .andThen (undimensioned_setVar fun _ => rfl) fun _ => ?_
  have resets : Along (Undimensioned vd) (setVar vd ({ · with ptrLevel := 0 })) :=
    undimensioned_setVar fun _ => rfl
  infer_instance

/-- A declarator is read into a record, in which no second dimension is noted, and its tokens state
these dimensions. -/
inductive DeclaresArray (ctx : Context) (vd : VarId) (dims : List Nat) (p p' : Parsing) : Prop where
  | intro {fuel : Nat} {anon isParam : Bool} {named : Parsing} (inside : vd < p.vars.length)
      (fresh : (p.var vd).arrayDim2 = 0)
      (ran : readInnerVarDecl ctx (fuel + 1) vd anon isParam p = .ok ((), p'))
      (begins : beginDeclarator vd anon isParam fuel p = .ok (false, named))
      (dimensions : Dimensions ctx dims named)

/-- The record of an array keeps the product of its dimensions and the second. -/
theorem DeclaresArray.holds (declares : DeclaresArray ctx vd dims p p') (isArray : dims ≠ [])
    (positive : 0 ∉ dims) : (p'.var vd).Holds dims := by
  cases declares with
  | @intro fuel anon isParam named inside fresh ran begins dimensions =>
      have keeps : Undimensioned vd p named := Along.along begins
      rcases List.exists_cons_of_ne_nil isArray with ⟨first, rest, rfl⟩
      unfold readInnerVarDecl at ran
      rw [Parse.bind_ok begins, if_neg Bool.false_ne_true] at ran
      rcases Parse.bind_eq_ok_iff.mp ran with ⟨⟨⟩, measured, ranDimensions, ranSet⟩
      cases ranSet
      rcases readDimensions_var dimensions rfl positive (by rw [keeps.length]; exact inside)
        ranDimensions with ⟨count, extent⟩
      rw [keeps.arrayDim2, fresh] at extent
      have inside : vd < measured.vars.length := by
        by_contra outside
        have none : measured.var vd = {} := List.getD_eq_default _ _ (Nat.le_of_not_lt outside)
        rw [none] at count
        exact List.prod_ne_zero positive count.symm
      rw [Parsing.var_modifyVar, if_pos ⟨rfl, inside⟩]
      refine ⟨rfl, count, extent.trans ?_⟩
      cases rest <;> rfl

end Shecc.Parser
