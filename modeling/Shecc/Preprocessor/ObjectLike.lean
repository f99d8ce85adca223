import Shecc.Preprocessor.Expansion

/-!
# Object-like macros

Whether a name is an invocation with arguments is decided by the next token and not by
the macro. A macro without parameters accepts no argument list, so its name is replaced
exactly where no bracket follows.
-/

namespace Shecc.Preprocessor

open LinkedList Trace

/-! ## Looking ahead -/

section Looking

variable {w w' : World} {tk : Ptr} {kind : TokenKind}

/-- To look at the next token does not change the memory. -/
theorem peekToken_world {isKind : Bool} (ran : peekToken tk kind w = .ok (isKind, w')) :
    w' = w := by
  rcases Run.bind_eq_ok_iff.mp ran with ⟨next, w₁, isNext, ran₁⟩
  rcases readNext_eq_ok isNext with ⟨rfl, -⟩
  by_cases isNull : next = .null
  · rw [if_pos isNull] at ran₁
    cases ran₁
    rfl
  · rw [if_neg isNull] at ran₁
    rcases Run.bind_eq_ok_iff.mp ran₁ with ⟨token, w₂, isToken, ran₂⟩
    rcases Run.bind_eq_ok_iff.mp isToken with ⟨cell, w₃, isCell, done⟩
    cases done
    cases ran₂
    rw [readCell] at isCell
    split at isCell
    case h_1 => cases isCell; rfl
    case h_2 => cases isCell

theorem skipSpace_world {fuel : Nat} {behind : Ptr}
    (ran : skipSpace fuel tk w = .ok (behind, w')) : w' = w := by
  induction fuel generalizing tk with
  | zero => cases ran
  | succ fuel inductionHypothesis =>
      rw [skipSpace] at ran
      rcases Run.bind_eq_ok_iff.mp ran with ⟨whitespace, w₁, peeked, ran⟩
      cases peekToken_world peeked
      rcases Run.bind_eq_ok_iff.mp ran with ⟨tab, w₂, peeked, ran⟩
      cases peekToken_world peeked
      split at ran
      case isTrue isSpace =>
        rcases Run.bind_eq_ok_iff.mp ran with ⟨next, w₃, isNext, passed⟩
        rcases readNext_eq_ok isNext with ⟨rfl, -⟩
        exact inductionHypothesis passed
      case isFalse isSolid =>
        cases ran
        rfl

theorem ppLexPeekToken_world {isKind : Bool}
    (ran : ppLexPeekToken tk kind true w = .ok (isKind, w')) : w' = w := by
  rcases Run.bind_eq_ok_iff.mp ran with ⟨behind, w₁, skipped, peeked⟩
  have same : w₁ = w := skipSpace_world skipped
  subst same
  exact peekToken_world peeked

end Looking

/-! ## The argument list of a macro without parameters -/

section Stops

variable {expand : Expand} {ctx : Context} {hideSet : List String} {record : Macro}
  {argHead : Nat} {macroTk : SourceLocation} {w w' : World}

theorem bindArgument_stops (objectLike : record.isFunctionLike = false) {c c' : Collecting}
    (ran : bindArgument record argHead macroTk c w = .ok (c', w')) : False := by
  rcases Run.bind_eq_ok_iff.mp ran with ⟨first, w₁, -, ran⟩
  rw [Macro.isFunctionLike, Bool.or_eq_false_iff, Bool.not_eq_false'] at objectLike
  rcases objectLike with ⟨noNames, notVariadic⟩
  rw [List.isEmpty_iff.mp noNames] at ran
  simp only [List.getElem?_nil, notVariadic, Bool.false_eq_true, if_false] at ran
  cases ran

/-- The loop's body goes on, or stops with an error. -/
theorem collectToken_continues (objectLike : record.isFunctionLike = false) {c : Collecting}
    {iteration : Iteration} (ran : collectToken record argHead macroTk c w = .ok (iteration, w')) :
    ∃ c', iteration = .continue_ c' := by
  rcases Run.bind_eq_ok_iff.mp ran with ⟨inside, w₁, -, ran⟩
  split at ran
  case isTrue isInside =>
    rcases Run.bind_eq_ok_iff.mp ran with ⟨c', w₂, -, done⟩
    cases done
    exact ⟨c', rfl⟩
  case isFalse isOutside =>
    rcases Run.bind_eq_ok_iff.mp ran with ⟨c', w₂, bound, -⟩
    exact (bindArgument_stops objectLike bound).elim

theorem collect_continues (objectLike : record.isFunctionLike = false) {c : Collecting}
    {iteration : Iteration}
    (ran : collect expand ctx hideSet record argHead macroTk c w = .ok (iteration, w')) :
    ∃ c', iteration = .continue_ c' := by
  rcases Run.bind_eq_ok_iff.mp ran with ⟨depth, w₁, -, ran⟩
  rcases Run.bind_eq_ok_iff.mp ran with ⟨argTk, w₂, -, ran⟩
  split at ran
  case isTrue isNull => exact collectToken_continues objectLike ran
  case isFalse isArgument =>
    rcases Run.bind_eq_ok_iff.mp ran with ⟨c', w₃, -, done⟩
    cases done
    exact ⟨c', rfl⟩

theorem collectLoop_stops (objectLike : record.isFunctionLike = false) {fuel : Nat}
    {c c' : Collecting}
    (ran : collectLoop expand ctx hideSet record argHead macroTk fuel c w = .ok (c', w')) :
    False := by
  induction fuel generalizing c w with
  | zero => cases ran
  | succ fuel inductionHypothesis =>
      rw [collectLoop] at ran
      rcases Run.bind_eq_ok_iff.mp ran with ⟨iteration, w₁, collected, ran⟩
      rcases collect_continues objectLike collected with ⟨next, rfl⟩
      exact inductionHypothesis ran

/-- No argument list is accepted. -/
theorem collectArguments_stops (objectLike : record.isFunctionLike = false) {fuel : Nat} {tk : Ptr}
    {result : Ptr × Args}
    (ran : collectArguments expand ctx hideSet record macroTk fuel tk w = .ok (result, w')) :
    False := by
  rcases Run.bind_eq_ok_iff.mp ran with ⟨argHead, w₁, -, ran⟩
  rcases Run.bind_eq_ok_iff.mp ran with ⟨c, w₂, looped, -⟩
  exact collectLoop_stops objectLike looped

end Stops

/-! ## The rescan -/

namespace Internal

section Object

variable (lexFile : String → Except Failure (List Token)) (ctx : Context) (fuel : Nat) (s : Scan)
  (token : Token)

/-- The preprocessing of the replacement list, with the name in the hide set. -/
def rescan : Run (Ptr × Ptr) := do
  let replacement ← getReplacement token.literal
  ppPreprocessInternal lexFile fuel replacement
    ⟨ctx.hideSet ++ [token.literal], ctx.macroArgs,
      if ctx.expandedFrom = .null then s.tk else ctx.expandedFrom, some true⟩

/-- The rescan returns a list of at least one token. What was emitted before and the name
itself are still there. -/
structure Rescans (pending : Nat → Prop) (w : World) (result : Ptr × Ptr) (w' : World)
    (chain : List (Nat × Token)) (end_ : Nat × Token) : Prop where
  ran : rescan lexFile ctx fuel s token w = .ok (result, w')
  kept : Kept pending w.heap w'.heap
  grows : w.heap.size ≤ w'.heap.size
  delivered : Delivered pending w.heap.size result w' chain end_
  name : ∃ behind, readNext s.tk w' = .ok (behind, w')

/-- The walk is at the name of an object-like macro, outside of its own expansion. -/
structure AtObject (record : Macro) (w : World) : Prop where
  read : readToken s.tk w = .ok (token, w)
  identifier : token.kind = .identifier
  notArgument : Args.get ctx.macroArgs token.literal = .null
  outside : token.literal ∉ ctx.hideSet
  inText : w.macros.inText token.literal = some record
  replaced : record.handler = none
  objectLike : record.isFunctionLike = false

/-- The round emits the rescanned replacement list behind what was emitted before, and the
walk goes on with the token behind the name. -/
def Replaced (pending : Nat → Prop) (head : Nat) (cells : List (Nat × Token))
    (last : Nat × Token) (w : World) : Prop :=
  ∃ result w₁ chain end_ s' w', Rescans lexFile ctx fuel s token
      (With pending (cells ++ [last])) w result w₁ chain end_ ∧
    process lexFile (ppPreprocessInternal lexFile fuel) ctx fuel s token w = .ok (s', w') ∧
      readNext s.tk w' = .ok (s'.tk, w') ∧ s'.ci = s.ci ∧
        Output pending head s' w' (cells ++ [last] ++ chain) end_ ∧
          ∀ rounds, scan lexFile (ppPreprocessInternal lexFile fuel) ctx fuel (rounds + 1) s w =
            scan lexFile (ppPreprocessInternal lexFile fuel) ctx fuel rounds s' w'

end Object

section Object

variable {lexFile : String → Except Failure (List Token)} {ctx : Context} {fuel : Nat} {s : Scan}
  {token : Token} {record : Macro} {w w' : World}

theorem AtObject.notNull (object : AtObject ctx s token record w) : s.tk ≠ .null := by
  intro isNull
  have read := object.read
  rw [isNull, readToken_null] at read
  cases read

/-- The round is the expansion of the macro. -/
theorem AtObject.process (object : AtObject ctx s token record w) :
    process lexFile (ppPreprocessInternal lexFile fuel) ctx fuel s token w =
      expandMacro (ppPreprocessInternal lexFile fuel) ctx fuel s token record
        (if ctx.expandedFrom = .null then s.tk else ctx.expandedFrom) w := by
  have found : getMacro token.literal w = .ok (w.macros token.literal, w) := rfl
  have inText := object.inText
  rw [Macros.inText] at inText
  rw [Internal.process, object.identifier]
  simp only [Internal.identifier, object.notArgument, ne_eq, not_true_eq_false, if_false,
    object.outside]
  rw [Run.bind_ok found]
  simp only [inText, object.replaced]

/-- The loop goes on behind the round. -/
theorem AtObject.scan (object : AtObject ctx s token record w) {s' : Scan}
    (processed : Internal.process lexFile (ppPreprocessInternal lexFile fuel) ctx fuel s token w =
      .ok (s', w')) (rounds : Nat) :
    scan lexFile (ppPreprocessInternal lexFile fuel) ctx fuel (rounds + 1) s w =
      scan lexFile (ppPreprocessInternal lexFile fuel) ctx fuel rounds s' w' := by
  rw [Internal.scan, if_neg object.notNull, Run.bind_ok object.read, Run.bind_ok processed]

/-- Where the round returns, no bracket follows. -/
theorem AtObject.noBracket (object : AtObject ctx s token record w) {s' : Scan}
    (processed : Internal.process lexFile (ppPreprocessInternal lexFile fuel) ctx fuel s token w =
      .ok (s', w')) : ppLexPeekToken s.tk .openBracket true w = .ok (false, w) := by
  rw [object.process] at processed
  rcases Run.bind_eq_ok_iff.mp processed with ⟨isBracket, w₁, peeked, expanded⟩
  cases ppLexPeekToken_world peeked
  cases isBracket with
  | false => exact peeked
  | true =>
      rw [if_pos rfl] at expanded
      rcases Run.bind_eq_ok_iff.mp expanded with ⟨opening, w₂, -, expanded⟩
      rcases Run.bind_eq_ok_iff.mp expanded with ⟨arguments, w₃, collected, -⟩
      exact (collectArguments_stops object.objectLike collected).elim

variable {pending : Nat → Prop} {head : Nat} {cells chain : List (Nat × Token)}
  {last end_ : Nat × Token} {result : Ptr × Ptr} {w₁ : World}

/-- The end of what was emitted is still there behind the rescan, and is not the name. -/
theorem Rescans.setNext (output : Output pending head s w cells last)
    (rescans : Rescans lexFile ctx fuel s token (With pending (cells ++ [last])) w result w₁ chain
      end_) :
    ∃ w', Preprocessor.setNext s.cur result.1 w₁ = .ok ((), w') ∧
      ∃ behind, readNext s.tk w' = .ok (behind, w') := by
  rcases linked_append.mp output.linked with ⟨middle, -, atLast⟩
  rcases linked_singleton.mp atLast with ⟨-, found⟩
  have isPending : With pending (cells ++ [last]) last.1 :=
    Or.inr ⟨last, List.mem_append_right _ List.mem_cons_self, rfl⟩
  have stillFound := (rescans.kept last.1 isPending).trans found
  rw [output.cur, setNext_live stillFound]
  refine ⟨_, rfl, ?_⟩
  rcases rescans.name with ⟨behind, isBehind⟩
  rcases readNext_eq_ok isBehind with ⟨-, address, tk, isCell, isLive⟩
  have different : address ≠ last.1 := by
    rintro rfl
    exact (output.tk _ isCell).2 isPending
  have stillLive : (w₁.heap.put last.1 (.live last.2 result.1)).cells address =
      .live tk behind := by
    rw [Heap.cells_put_of_ne _ different]
    exact isLive
  rw [isCell]
  exact ⟨behind, readNext_live stillLive⟩

/-- Where no bracket follows, the rescanned list is linked behind what was emitted before. -/
theorem AtObject.processed (object : AtObject ctx s token record w)
    (output : Output pending head s w cells last)
    (noBracket : ppLexPeekToken s.tk .openBracket true w = .ok (false, w))
    (rescans : Rescans lexFile ctx fuel s token (With pending (cells ++ [last])) w result w₁ chain
      end_) :
    ∃ s' w', Internal.process lexFile (ppPreprocessInternal lexFile fuel) ctx fuel s token w =
        .ok (s', w') ∧ readNext s.tk w' = .ok (s'.tk, w') ∧ s'.ci = s.ci ∧
          Output pending head s' w' (cells ++ [last] ++ chain) end_ := by
  rcases rescans.setNext output with ⟨w', set, behind, isBehind⟩
  rcases output.append rescans.kept rescans.grows rescans.delivered set with ⟨output', -, -, -⟩
  refine ⟨⟨behind, result.2, s.ci⟩, w', ?_, isBehind, rfl, (output'.advance isBehind).2⟩
  have found : getReplacement token.literal w = .ok (w.replacements token.literal, w) := rfl
  have ran := rescans.ran
  rw [rescan, Run.bind_ok found] at ran
  have spliced : splice (ppPreprocessInternal lexFile fuel) s (w.replacements token.literal)
      ⟨ctx.hideSet ++ [token.literal], ctx.macroArgs,
        if ctx.expandedFrom = .null then s.tk else ctx.expandedFrom, some true⟩ w =
      .ok ({ s with cur := result.2 }, w') := by
    rw [splice, Run.bind_ok ran, Run.bind_ok set]
    rfl
  rw [object.process, expandMacro, Run.bind_ok noBracket]
  simp only [Bool.false_eq_true, if_false]
  rw [Run.bind_ok found, substitute, Run.bind_ok spliced, Run.bind_ok isBehind]
  rfl

/-- Where a bracket follows, the call stops with an error. -/
theorem AtObject.stops (object : AtObject ctx s token record w)
    (bracket : ppLexPeekToken s.tk .openBracket true w = .ok (true, w)) :
    ∃ failure, ∀ rounds, Internal.scan lexFile (ppPreprocessInternal lexFile fuel) ctx fuel
      (rounds + 1) s w = .error failure := by
  cases processed : Internal.process lexFile (ppPreprocessInternal lexFile fuel) ctx fuel s token
      w with
  | ok behind =>
      have noBracket := object.noBracket processed
      rw [bracket] at noBracket
      cases noBracket
  | error failure =>
      refine ⟨failure, fun rounds => ?_⟩
      rw [Internal.scan, if_neg object.notNull, Run.bind_ok object.read, Run.bind_error processed]

/-- A rescan in which every call links something returns a list. -/
theorem rescans_of_links (output : Output pending head s w cells last)
    (free : ctx.Free (With pending (cells ++ [last])) w.heap.size)
    (ran : rescan lexFile ctx fuel s token w = .ok (result, w₁))
    (links : ∀ calls, w₁.returned = w.returned ++ calls → ∀ one ∈ calls, one.Links)
    (name : ∃ behind, readNext s.tk w₁ = .ok (behind, w₁)) :
    ∃ chain end_, Rescans lexFile ctx fuel s token (With pending (cells ++ [last])) w result w₁
      chain end_ := by
  rcases ppPreprocessInternal_expands fuel (With pending (cells ++ [last])) _ _ w result w₁ ran with
    ⟨calls, logged, holds⟩
  have freeFrom : Free (With pending (cells ++ [last])) w.heap.size
      (if ctx.expandedFrom = .null then s.tk else ctx.expandedFrom) := by
    split
    · exact output.tk
    · exact free.expandedFrom
  have isFree := output.safe.replacement token.literal
  rcases (holds ⟨⟨isFree, freeFrom, free.macroArgs⟩, output.safe⟩).2 (links calls logged) with
    ⟨kept, grows, chain, end_, delivered⟩
  exact ⟨chain, end_, ran, kept, grows, delivered, name⟩

/-- The empty list is none: what its rescan returns is the end of no list. -/
theorem not_rescans_empty (empty : w.replacements token.literal = .null) :
    ¬ Rescans lexFile ctx fuel s token pending w result w₁ chain end_ := by
  intro rescans
  have isWild : result.1 = .wild := by
    have found : getReplacement token.literal w = .ok (w.replacements token.literal, w) := rfl
    have ran := rescans.ran
    rw [rescan, Run.bind_ok found, empty] at ran
    rcases fuel with _ | _ | fuel
    · cases ran
    · cases ran
    · rcases Run.bind_eq_ok_iff.mp ran with ⟨head, w₂, started, ran₁⟩
      cases started
      rcases Run.bind_eq_ok_iff.mp ran₁ with ⟨s', w₃, scanned, ran₂⟩
      cases scanned
      rcases Run.bind_eq_ok_iff.mp ran₂ with ⟨list, w₄, isNext, ran₃⟩
      rw [readNext_live (Heap.cells_alloc_self _ _)] at isNext
      cases isNext
      cases ran₃
      rfl
  have linked := rescans.delivered.linked
  rw [isWild] at linked
  cases chain with
  | nil => cases linked.1
  | cons entry rest => cases linked.1

/-- The name of an object-like macro is replaced exactly where no bracket follows and the
rescan returns a list. -/
theorem replaced_iff (object : AtObject ctx s token record w)
    (output : Output pending head s w cells last) :
    Replaced lexFile ctx fuel s token pending head cells last w ↔
      ppLexPeekToken s.tk .openBracket true w = .ok (false, w) ∧
        ∃ result w₁ chain end_, Rescans lexFile ctx fuel s token
          (With pending (cells ++ [last])) w result w₁ chain end_ := by
  constructor
  · rintro ⟨result, w₁, chain, end_, s', w', rescans, processed, -⟩
    exact ⟨object.noBracket processed, result, w₁, chain, end_, rescans⟩
  · rintro ⟨noBracket, result, w₁, chain, end_, rescans⟩
    rcases object.processed output noBracket rescans with
      ⟨s', w', processed, isBehind, sameCi, output'⟩
    exact ⟨result, w₁, chain, end_, s', w', rescans, processed, isBehind, sameCi, output',
      object.scan processed⟩

end Object

end Internal

/-! ## Two uses -/

/-- The memory behind `#define N 5`, with a text. -/
def definedWorld (text : List Token) : World :=
  { textWorld text with
    heap := (Heap.ofList text).alloc (lineToken .numeric "5") .null
    macros := fun name =>
      if name = "N" then some { replacement := [lineToken .numeric "5"] } else none
    replacements := fun name => if name = "N" then .cell text.length else .null }

/-- The memory of the call, with its list. -/
def startedWorld (text : List Token) : World :=
  (definedWorld text).withHeap
    ((definedWorld text).heap.alloc ⟨.start, "", synthBuiltInLoc⟩ .wild)

/-- The text `N;`. -/
def semicolonText : List Token := [lineToken .identifier "N", lineToken .semicolon ""]

/-- The text `N(1)`. -/
def bracketText : List Token :=
  [lineToken .identifier "N", lineToken .openBracket "", lineToken .numeric "1",
    lineToken .closeBracket ""]

theorem definedWorld_sound (text : List Token) : (definedWorld text).Sound := by
  have safe := (textWorld_sound text).alloc (lineToken .numeric "5") free_null
  refine ⟨safe.bounded, safe.inside, safe.next, fun name => ?_,
    fun name p cached => by cases cached⟩
  by_cases isN : name = "N"
  · rintro address isCell
    simp only [definedWorld, if_pos isN] at isCell
    cases isCell
    exact ⟨Nat.lt_succ_self _, id⟩
  · rintro address isCell
    simp only [definedWorld, if_neg isN] at isCell
    cases isCell

theorem semicolonText_replaced : ∃ cells last,
    Internal.Replaced (fun _ => .ok []) fileContext 3 ⟨.cell 0, .cell 3, []⟩
      (lineToken .identifier "N") (fun _ => False) 3 cells last (startedWorld semicolonText) := by
  rcases @Internal.running_start (fun _ => False) (definedWorld semicolonText) (.cell 0)
    (definedWorld_sound semicolonText) (by rintro address ⟨⟩; exact ⟨by decide, id⟩) with
    ⟨cells, last, output⟩
  have object : Internal.AtObject fileContext ⟨.cell 0, .cell 3, []⟩ (lineToken .identifier "N")
      { replacement := [lineToken .numeric "5"] } (startedWorld semicolonText) :=
    ⟨rfl, rfl, rfl, by decide, rfl, rfl, rfl⟩
  refine ⟨cells, last, (Internal.replaced_iff object output).mpr ⟨rfl, ?_⟩⟩
  refine ⟨_, _, Internal.rescans_of_links output ⟨free_null, fun name => free_null⟩ rfl ?_ ?_⟩
  · rintro calls logged
    rw [show (startedWorld semicolonText).returned = [] from rfl, List.nil_append] at logged
    rw [← logged]
    rintro one (_ | ⟨_, ⟨⟩⟩)
    rintro ⟨⟩
  · exact ⟨_, rfl⟩

/-- `N(1)` is refused, although the rescan of `5` returns a list. -/
theorem bracketText_notReplaced :
    ¬ ∀ (lexFile : String → Except Failure (List Token)) (ctx : Context) (fuel : Nat) (s : Scan)
      (token : Token) (record : Macro) (w : World) (pending : Nat → Prop) (head : Nat)
      (cells : List (Nat × Token)) (last : Nat × Token), Internal.AtObject ctx s token record w →
        Output pending head s w cells last →
          (∃ result w₁ chain end_, Internal.Rescans lexFile ctx fuel s token
            (With pending (cells ++ [last])) w result w₁ chain end_) →
          Internal.Replaced lexFile ctx fuel s token pending head cells last w := by
  intro claimed
  rcases @Internal.running_start (fun _ => False) (definedWorld bracketText) (.cell 0)
    (definedWorld_sound bracketText) (by rintro address ⟨⟩; exact ⟨by decide, id⟩) with
    ⟨cells, last, output⟩
  have object : Internal.AtObject fileContext ⟨.cell 0, .cell 5, []⟩ (lineToken .identifier "N")
      { replacement := [lineToken .numeric "5"] } (startedWorld bracketText) :=
    ⟨rfl, rfl, rfl, by decide, rfl, rfl, rfl⟩
  rcases claimed (fun _ => .ok []) fileContext 3 _ _ _ _ _ _ _ _ object output
    ⟨_, _, Internal.rescans_of_links output ⟨free_null, fun name => free_null⟩ rfl (by
      rintro calls logged
      rw [show (startedWorld bracketText).returned = [] from rfl, List.nil_append] at logged
      rw [← logged]
      rintro one (_ | ⟨_, ⟨⟩⟩)
      rintro ⟨⟩) ⟨_, rfl⟩⟩ with
    ⟨_, _, _, _, _, _, -, processed, -⟩
  cases object.noBracket processed

end Shecc.Preprocessor
