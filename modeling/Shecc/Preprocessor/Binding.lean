import Mathlib.Data.Nat.Find
import Shecc.Preprocessor.Collecting

/-!
# The binding of the arguments

The loop finds the arguments split at every comma up to the first closing bracket.
They are what the invocation says exactly if there is no bracket inside it and no
empty argument.
-/

namespace Shecc.Preprocessor

open LinkedList

/-! ## One iteration -/

/-- The failure is not a report of the preprocessor. -/
def Failure.Silent (failure : Failure) : Prop := ∀ msg location, failure ≠ .errorAt msg location

section Iteration

variable {record : Macro} {base : Nat} {start : Heap Token} {done : List (List Token)}
  {part : List Token} {entries : List (Nat × Token)} {c : Collecting} {w : World} {mark : Nat}
  (macroTk : SourceLocation)

/-- The argument is bound, or there is none to bind it to, or the variadic parameter is
stuck. -/
inductive Bound (record : Macro) (base : Nat) (start : Heap Token) (done : List (List Token))
    (part : List Token) (entries : List (Nat × Token)) (c : Collecting) (w : World) :
    Except Failure (Collecting × World) → Prop
  | tooMany (none_ : record.variadicTk = none) (full : record.paramNames.length ≤ done.length) :
      Bound record base start done part entries c w
        (.error (.errorAt "Too many arguments supplied to macro invocation" macroTk))
  | stuck {failure : Failure} (silent : failure.Silent) (some_ : record.variadicTk.isSome = true)
      (full : record.paramNames.length ≤ done.length) (empty : [] ∈ done) :
      Bound record base start done part entries c w (.error failure)
  | bound {argIdx : Nat} {args : Args} {heap : Heap Token}
      (holding : Holding record base start (done ++ [part]) [] entries
        { c with argIdx := argIdx, args := args, argCur := .cell base } heap heap.size)
      (sorted : Sorted record base (done ++ [part]) args heap heap.size []) :
      Bound record base start done part entries c w
        (.ok ({ c with argIdx := argIdx, args := args }, w.withHeap heap))

theorem Sorted.concat_noComma {args : Args} {heap : Heap Token}
    (sorted : Sorted record base done args heap mark part) :
    ∀ argument ∈ done ++ [part], ∀ token ∈ argument, token.kind ≠ .comma := by
  intro argument member
  rcases List.mem_append.mp member with old | new
  · exact sorted.noComma argument old
  · cases List.mem_singleton.mp new
    exact sorted.noCommaPart

theorem not_mem_concat {argument : List Token} (notEmpty : [] ∉ done ++ [argument]) :
    [] ∉ done ∧ argument ≠ [] := by
  constructor
  · intro member
    exact notEmpty (List.mem_append_left _ member)
  · rintro rfl
    exact notEmpty (List.mem_append_right _ List.mem_cons_self)

/-- An argument bound to a parameter. -/
theorem bindArgument_param {param : Token}
    (holding : Holding record base start done part entries c w.heap mark)
    (sorted : Sorted record base done c.args w.heap mark part)
    (isParam : record.paramNames[done.length]? = some param) (index : c.argIdx = done.length) :
    Bound macroTk record base start done part entries c w
      (bindArgument record base macroTk c w) := by
  have inside := (List.getElem?_eq_some_iff.mp isParam).1
  rcases holding.argument.variable_ with ⟨token, first, found, notNull, isOver⟩
  rw [bindArgument, Run.bind_ok (readNext_live found), index, isParam]
  apply Bound.bound
  · apply holding.ended holding.bounded (Nat.le_refl _) (fun _ _ => rfl) holding.closed
    · intro name p bound
      by_cases same : name = param.literal
      · subst same
        rw [Function.update_self] at bound
        cases bound
        exact ⟨isOver, notNull⟩
      · rw [Function.update_of_ne same] at bound
        exact holding.bound name p bound
    · exact (Nat.min_eq_left inside).symm
    · exact fun _ => inside
  · constructor
    · intro notEmpty
      rcases not_mem_concat notEmpty with ⟨notEmpty, notNil⟩
      rcases holding.argument.chain notNil holding.bounded with
        ⟨token', first', chain, found', linked, values, new⟩
      rw [found] at found'
      cases found'
      exact (sorted.good notEmpty).bindParam isParam found linked values notNil new
        holding.base_lt holding.mark_le
    · rintro ⟨j, more, isEmpty, -⟩
      have index := (List.getElem?_eq_some_iff.mp isEmpty).1
      rw [List.length_append, List.length_singleton] at index
      exact absurd (Nat.lt_of_le_of_lt more index) (Nat.not_lt_of_le inside)
    · exact sorted.concat_noComma
    · intro token member
      cases member

/-- The first variadic argument. -/
theorem bindArgument_first {param : Token}
    (holding : Holding record base start done part entries c w.heap mark)
    (sorted : Sorted record base done c.args w.heap mark part)
    (full : record.paramNames.length ≤ done.length) (index : c.argIdx = record.paramNames.length)
    (variadic : record.isVariadic = true) (isParam : record.variadicTk = some param)
    (unbound : c.args param.literal = none) :
    Bound macroTk record base start done part entries c w
      (bindArgument record base macroTk c w) := by
  rcases holding.argument.variable_ with ⟨token, first, found, notNull, isOver⟩
  rw [bindArgument, Run.bind_ok (readNext_live found), index,
    List.getElem?_eq_none (Nat.le_refl _)]
  simp only [variadic, if_true, isParam, unbound]
  apply Bound.bound
  · apply holding.ended holding.bounded (Nat.le_refl _) (fun _ _ => rfl) holding.closed
    · intro name p bound
      by_cases same : name = param.literal
      · subst same
        rw [Function.update_self] at bound
        cases bound
        exact ⟨isOver, notNull⟩
      · rw [Function.update_of_ne same] at bound
        exact holding.bound name p bound
    · exact (Nat.min_eq_right (Nat.le_succ_of_le full)).symm
    · intro notVariadic
      cases notVariadic.symm.trans isParam
  · constructor
    · intro notEmpty
      rcases not_mem_concat notEmpty with ⟨notEmpty, notNil⟩
      rcases holding.argument.chain notNil holding.bounded with
        ⟨token', first', chain, found', linked, values, new⟩
      rw [found] at found'
      cases found'
      exact (sorted.good notEmpty).bindVariadic isParam full unbound found linked values notNil
        new holding.base_lt holding.mark_le
    · intro empty some_ apart
      rcases emptyVariadic_concat empty with before | ⟨notEmpty, rfl, -⟩
      · rcases sorted.stuck before some_ apart with ⟨one, p, isOne, -, bound, -⟩
        cases isOne.symm.trans isParam
        cases bound.symm.trans unbound
      · exact (sorted.good notEmpty).stuck_first sorted.noComma isParam full unbound found
          holding.mark_le
    · exact sorted.concat_noComma
    · intro token member
      cases member

theorem lastToken_silent {fuel : Nat} {p : Ptr} {failure : Failure}
    (ran : lastToken fuel p w = .error failure) : failure.Silent := by
  induction fuel generalizing p with
  | zero =>
      cases ran
      rintro msg location ⟨⟩
  | succ fuel inductionHypothesis =>
      rw [lastToken] at ran
      cases read : readNext p w with
      | error failure' =>
          rw [Run.bind_error read] at ran
          cases ran
          rw [readNext, Run.bind_eq, readCell] at read
          rintro msg location rfl
          cases found : w.heap.get p with
          | some cell => simp only [found] at read; cases read
          | none =>
              simp only [found] at read
              by_cases isNull : p = .null
              · rw [if_pos isNull] at read
                cases read
              · rw [if_neg isNull] at read
                cases read
      | ok result =>
          rcases result with ⟨next, middle⟩
          rcases readNext_eq_ok read with ⟨rfl, -⟩
          rw [Run.bind_ok read] at ran
          by_cases isNull : next = .null
          · rw [if_pos isNull] at ran
            cases ran
          · rw [if_neg isNull] at ran
            exact inductionHypothesis ran

/-- A list is found to end. -/
theorem lastOf_linked {p : Ptr} {cells : List (Nat × Token)} {last : Nat × Token}
    (bounded : w.heap.Bounded) (linked : Linked w.heap p (cells ++ [last]) .null) :
    lastOf p w = .ok (.cell last.1, w) := by
  apply lastToken_linked linked
  have length := linked.length_le bounded
  rw [List.length_append] at length
  exact Nat.lt_succ_of_lt length

theorem Stuck.append {args : Args} {param : Token} {lastToken : Token} {first p : Ptr} {last : Nat}
    {cells : List (Nat × Token)} (stuck : Stuck record base done args w.heap mark)
    (isParam : record.variadicTk = some param) (bound : args param.literal = some p)
    (isList : Linked w.heap p (cells ++ [(last, lastToken)]) .null)
    (mark_le : mark ≤ w.heap.size) :
    Stuck record base (done ++ [part]) args
      (appended w.heap last lastToken (variadicComma param) first) (w.heap.size + 1) := by
  rcases stuck with ⟨one, q, isOne, more, bound', ⟨isEmpty, starts⟩ | cyclic⟩
  · cases isOne.symm.trans isParam
    refine ⟨param, q, isParam, ?_, bound', Or.inl ⟨?_, ?_⟩⟩
    · rw [List.length_append]
      exact Nat.lt_add_right _ more
    · rw [List.getElem?_append_left more]
      exact isEmpty
    · apply starts.kept (Nat.le_succ_of_le mark_le)
      intro address token next _ inside found
      have isNotNew : address ≠ w.heap.size := Nat.ne_of_lt (Nat.lt_of_lt_of_le inside mark_le)
      by_cases isLast : address = last
      · subst isLast
        rcases linked_append.mp isList with ⟨middle, -, atLast⟩
        rw [(linked_singleton.mp atLast).2] at found
        cases found
        refine ⟨.cell w.heap.size, ?_⟩
        rw [appended, Heap.cells_put_of_ne _ isNotNew]
        exact Heap.cells_put_self _ _
      · refine ⟨next, ?_⟩
        rw [cells_appended isLast isNotNew]
        exact found
  · cases isOne.symm.trans isParam
    cases bound.symm.trans bound'
    exact absurd isList cyclic.not_linked

/-- A variadic argument behind the first. -/
theorem bindArgument_later {param : Token} {prev : Ptr}
    (holding : Holding record base start done part entries c w.heap mark)
    (sorted : Sorted record base done c.args w.heap mark part)
    (full : record.paramNames.length ≤ done.length) (index : c.argIdx = record.paramNames.length)
    (variadic : record.isVariadic = true) (isParam : record.variadicTk = some param)
    (bound : c.args param.literal = some prev) :
    Bound macroTk record base start done part entries c w
      (bindArgument record base macroTk c w) := by
  rcases holding.argument.variable_ with ⟨token, first, found, notNull, isOver⟩
  rw [bindArgument, Run.bind_ok (readNext_live found), index,
    List.getElem?_eq_none (Nat.le_refl _)]
  simp only [variadic, if_true, isParam, bound]
  cases ran : lastOf prev w with
  | error failure =>
      have failed : appendVariadic prev first param w = .error failure := Run.bind_error ran
      rw [Run.bind_error failed]
      apply Bound.stuck (lastToken_silent ran) (by rw [isParam]; rfl) full
      by_contra notEmpty
      rcases sorted.good notEmpty with ⟨-, lists, isLists, -⟩
      have linked := isLists.linked _ _ bound
      rw [← List.dropLast_append_getLast (isLists.notNil _ _ bound)] at linked
      rw [lastOf_linked holding.bounded linked] at ran
      cases ran
  | ok result =>
      rcases result with ⟨q, w'⟩
      rcases lastToken_eq_ok ran with ⟨rfl, cells, ⟨last, lastToken⟩, rfl, isList⟩
      rcases linked_append.mp isList with ⟨middle, -, atLast⟩
      have isLive := (linked_singleton.mp atLast).2
      rw [Run.bind_ok (appendVariadic_eq isLive holding.bounded ran)]
      have baseLt : base < w'.heap.size := Nat.lt_of_lt_of_le holding.base_lt holding.mark_le
      have lastOver : base < last :=
        Linked.over isList (holding.bound _ _ bound).1 holding.closed (last, lastToken)
          (List.mem_append_right _ List.mem_cons_self)
      have lastLt := holding.bounded.lt_size isLive
      have same : { c with argIdx := record.paramNames.length, args := c.args } = c := by
        rw [← index]
      rw [Run.pure_eq, ← same]
      apply Bound.bound
      · apply holding.ended
        · exact ((holding.bounded.alloc _ _).put _ (Nat.lt_succ_of_lt lastLt)).put _
            (Nat.lt_succ_self _)
        · exact Nat.le_succ _
        · intro address inside
          exact cells_appended (Nat.ne_of_lt (Nat.lt_of_le_of_lt inside lastOver))
            (Nat.ne_of_lt (Nat.lt_of_le_of_lt inside baseLt))
        · intro address other next inside isOther
          by_cases isNew : address = w'.heap.size
          · subst isNew
            rw [appended, Heap.cells_put_self] at isOther
            cases isOther
            exact isOver
          · by_cases isLast : address = last
            · subst isLast
              rw [appended, Heap.cells_put_of_ne _ isNew, Heap.cells_put_self] at isOther
              cases isOther
              rintro behind ⟨⟩
              exact baseLt
            · rw [cells_appended isLast isNew] at isOther
              exact holding.closed address other next inside isOther
        · exact holding.bound
        · exact (Nat.min_eq_right (Nat.le_succ_of_le full)).symm
        · intro notVariadic
          cases notVariadic.symm.trans isParam
      · constructor
        · intro notEmpty
          rcases not_mem_concat notEmpty with ⟨notEmpty, notNil⟩
          rcases holding.argument.chain notNil holding.bounded with
            ⟨token', first', chain, found', linked, values, new⟩
          rw [found] at found'
          cases found'
          exact (sorted.good notEmpty).appendVariadic holding.bounded isParam full bound isList
            found linked values notNil new holding.base_lt holding.mark_le
        · intro empty some_ apart
          rcases emptyVariadic_concat empty with before | ⟨notEmpty, rfl, -⟩
          · exact (sorted.stuck before some_ apart).append isParam bound isList holding.mark_le
          · exact (sorted.good notEmpty).stuck_later isParam apart full bound isList found
              holding.base_lt holding.mark_le
        · exact sorted.concat_noComma
        · intro token member
          cases member

/-- What binding an argument does. -/
theorem bindArgument_bound (coherent : record.Coherent)
    (holding : Holding record base start done part entries c w.heap mark)
    (sorted : Sorted record base done c.args w.heap mark part) :
    Bound macroTk record base start done part entries c w
      (bindArgument record base macroTk c w) := by
  rcases Nat.lt_or_ge done.length record.paramNames.length with more | full
  · apply bindArgument_param macroTk holding sorted (List.getElem?_eq_getElem more)
    rw [holding.argIdx, Nat.min_eq_left (Nat.le_of_lt more)]
  · have index : c.argIdx = record.paramNames.length := by
      rw [holding.argIdx, Nat.min_eq_right full]
    cases isParam : record.variadicTk with
    | none =>
        have notVariadic : record.isVariadic = false := by
          rw [← coherent, isParam]
          rfl
        rcases holding.argument.variable_ with ⟨token, first, found, -, -⟩
        rw [bindArgument, Run.bind_ok (readNext_live found), index,
          List.getElem?_eq_none (Nat.le_refl _)]
        simp only [notVariadic, Bool.false_eq_true, if_false]
        exact Bound.tooMany isParam full
    | some param =>
        have variadic : record.isVariadic = true := by
          rw [← coherent, isParam]
          rfl
        cases bound : c.args param.literal with
        | none => exact bindArgument_first macroTk holding sorted full index variadic isParam bound
        | some prev =>
            exact bindArgument_later macroTk holding sorted full index variadic isParam bound

end Iteration

/-! ## The loop -/

section Outcome

variable (record : Macro) (base : Nat) (start : Heap Token) (macroTk : SourceLocation)

/-- How the loop ends behind the arguments `done`, in front of tokens with these
arguments. -/
inductive Outcome (done : List (List Token)) :
    List (List Token) × Option (List Token) → Except Failure (Collecting × World) → Prop
  | tooMany {args : List (List Token)} {behind : Option (List Token)}
      (none_ : record.variadicTk = none)
      (full : record.paramNames.length < (done ++ args).length) :
      Outcome done (args, behind)
        (.error (.errorAt "Too many arguments supplied to macro invocation" macroTk))
  | unclosed {args : List (List Token)} {failure : Failure} (silent : failure.Silent)
      (few : record.variadicTk = none → (done ++ args).length ≤ record.paramNames.length) :
      Outcome done (args, none) (.error failure)
  | stuck {args : List (List Token)} {behind : Option (List Token)} {failure : Failure}
      (silent : failure.Silent) (some_ : record.variadicTk.isSome = true)
      (full : record.paramNames.length ≤ (done ++ args).length) (empty : [] ∈ done ++ args) :
      Outcome done (args, behind) (.error failure)
  | closed {args : List (List Token)} {behind : List Token} {entry : Nat × Token}
      {rest : List (Nat × Token)} {c : Collecting} {w : World}
      (closes : entry.2.kind = .closeBracket) (values : rest.map Prod.snd = behind)
      (holding : Holding record base start (done ++ args) [] (entry :: rest) c w.heap w.heap.size)
      (sorted : Sorted record base (done ++ args) c.args w.heap w.heap.size []) :
      Outcome done (args, some behind) (.ok ({ c with tk := .cell entry.1 }, w))

variable {record base start macroTk} {expand : Expand} {ctx : Context} {hideSet : List String}
  {done : List (List Token)} {part : List Token} {entries : List (Nat × Token)} {c : Collecting}
  {w : World} {mark : Nat}

theorem Outcome.concat {arguments : List (List Token)} {behind : Option (List Token)}
    {result : Except Failure (Collecting × World)}
    (outcome : Outcome record base start macroTk (done ++ [part]) (arguments, behind) result) :
    Outcome record base start macroTk done (part :: arguments, behind) result := by
  have same : done ++ [part] ++ arguments = done ++ part :: arguments := by
    rw [List.append_assoc]
    rfl
  cases outcome with
  | tooMany none_ full => exact Outcome.tooMany none_ (same ▸ full)
  | unclosed silent few => exact Outcome.unclosed silent (same ▸ few)
  | stuck silent some_ full empty => exact Outcome.stuck silent some_ (same ▸ full) (same ▸ empty)
  | closed closes values holding sorted =>
      exact Outcome.closed closes values (same ▸ holding) (same ▸ sorted)

/-- The brackets counted. -/
theorem Holding.count (holding : Holding record base start done part entries c w.heap mark) :
    ∃ depth, countBracket c.tk c.bracketDepth w = .ok (depth, w) ∧
      Holding record base start done part entries { c with bracketDepth := depth } w.heap mark := by
  rw [countBracket, Run.bind_ok (holding.peek .openBracket)]
  by_cases opens : headIs entries .openBracket = true
  · refine ⟨c.bracketDepth + 1, ?_, { holding with depth := Or.inl ?_ }⟩
    · rw [if_pos opens]
      rfl
    · have nonneg : 0 ≤ c.bracketDepth := by
        apply holding.depth.resolve_right
        cases entries with
        | nil => cases opens
        | cons entry rest =>
            rw [headIs_cons] at opens ⊢
            rw [opens]
            exact TokenKind.noConfusion
      exact Int.le_add_one nonneg
  · rw [if_neg opens, Run.bind_ok (holding.peek .closeBracket)]
    by_cases closes : headIs entries .closeBracket = true
    · refine ⟨c.bracketDepth - 1, ?_, { holding with depth := Or.inr closes }⟩
      rw [if_pos closes]
      rfl
    · refine ⟨c.bracketDepth, ?_, holding⟩
      rw [if_neg closes]
      rfl

/-- No token of the invocation is a parameter of the enclosing macro. -/
def Plain (ctx : Context) (tokens : List Token) : Prop :=
  ∀ token ∈ tokens, token.kind = .identifier → Args.get ctx.macroArgs token.literal = .null

theorem Holding.enclosing (holding : Holding record base start done part entries c w.heap mark)
    (plain : Plain ctx (entries.map Prod.snd)) : enclosingArgument ctx c.tk w = .ok (.null, w) := by
  rw [enclosingArgument, Run.bind_ok (holding.peek .identifier)]
  by_cases isIdentifier : headIs entries .identifier = true
  · rw [if_pos isIdentifier]
    cases entries with
    | nil => cases isIdentifier
    | cons entry rest =>
        rw [Run.bind_ok holding.readNext, Run.bind_ok holding.readToken]
        rw [plain entry.2 List.mem_cons_self (headIs_cons.mp isIdentifier)]
        rfl
  · rw [if_neg isIdentifier]
    rfl

theorem Holding.inArgument (holding : Holding record base start done part entries c w.heap mark) :
    Preprocessor.inArgument c w = .ok (decide (0 ≤ c.bracketDepth) && !headIs entries .comma &&
      !headIs entries .closeBracket, w) := by
  rw [Preprocessor.inArgument, Run.bind_ok (holding.peek .comma),
    Run.bind_ok (holding.peek .closeBracket)]
  rfl

/-- An iteration where no enclosing argument is expanded. -/
theorem Holding.collect (holding : Holding record base start done part entries c w.heap mark)
    (plain : Plain ctx (entries.map Prod.snd)) :
    ∃ depth, Preprocessor.collect expand ctx hideSet record base macroTk c w =
        collectToken record base macroTk { c with bracketDepth := depth } w ∧
      Holding record base start done part entries { c with bracketDepth := depth } w.heap mark := by
  rcases holding.count with ⟨depth, counted, holding'⟩
  refine ⟨depth, ?_, holding'⟩
  rw [Preprocessor.collect, Run.bind_ok counted, Run.bind_ok (holding'.enclosing plain)]
  rfl

theorem Holding.collectToken_bind {entry : Nat × Token}
    (holding : Holding record base start done part (entry :: entries) c w.heap mark)
    (delimits : entry.2.kind = .comma ∨ entry.2.kind = .closeBracket) :
    collectToken record base macroTk c w = (do
      let c ← bindArgument record base macroTk c
      passDelimiter { c with argCur := .cell base }) w := by
  have outside : (decide (0 ≤ c.bracketDepth) && !headIs (entry :: entries) .comma &&
      !headIs (entry :: entries) .closeBracket) = false := by
    rcases delimits with isComma | closes
    · rw [headIs_cons.mpr isComma]
      simp
    · rw [headIs_cons.mpr closes]
      simp
  have inside := holding.inArgument
  rw [outside] at inside
  rw [collectToken, Run.bind_ok inside]
  rfl

theorem Holding.collectToken_inside {entry : Nat × Token} {c' : Collecting} {w' : World}
    (holding : Holding record base start done part (entry :: entries) c w.heap mark)
    (notClose : entry.2.kind ≠ .closeBracket) (notComma : entry.2.kind ≠ .comma)
    (accumulated : Preprocessor.accumulate c w = .ok (c', w')) :
    collectToken record base macroTk c w = .ok (.continue_ c', w') := by
  have inside := holding.inArgument
  rw [decide_eq_true (holding.count_nonneg notClose),
    Bool.eq_false_iff.mpr (mt headIs_cons.mp notComma),
    Bool.eq_false_iff.mpr (mt headIs_cons.mp notClose)] at inside
  rw [collectToken, Run.bind_ok inside]
  exact Run.bind_ok accumulated

theorem Holding.passDelimiter_comma {entry : Nat × Token}
    (holding : Holding record base start done part (entry :: entries) c w.heap mark)
    (isComma : entry.2.kind = .comma) :
    passDelimiter c w = .ok (.continue_ { c with tk := .cell entry.1 }, w) := by
  rw [passDelimiter, Run.bind_ok (holding.peek .comma), headIs_cons.mpr isComma, if_pos rfl,
    Run.bind_ok holding.readNext]
  rfl

theorem Holding.passDelimiter_close {entry : Nat × Token}
    (holding : Holding record base start done part (entry :: entries) c w.heap mark)
    (closes : entry.2.kind = .closeBracket) :
    passDelimiter c w = .ok (.break_ { c with tk := .cell entry.1 }, w) := by
  have notComma : headIs (entry :: entries) .comma = false := by
    rw [headIs, closes]
    rfl
  rw [passDelimiter, Run.bind_ok (holding.peek .comma), notComma]
  rw [if_neg Bool.false_ne_true, Run.bind_ok (holding.peek .closeBracket),
    headIs_cons.mpr closes, if_pos rfl, Run.bind_ok holding.readNext]
  rfl

/-- The loop finds the arguments that are split at every comma. -/
theorem collectLoop_outcome (coherent : record.Coherent) {fuel : Nat}
    (enough : entries.length < fuel) (plain : Plain ctx (entries.map Prod.snd))
    (holding : Holding record base start done part entries c w.heap mark)
    (sorted : Sorted record base done c.args w.heap mark part) :
    Outcome record base start macroTk done (flatArguments part (entries.map Prod.snd))
      (collectLoop expand ctx hideSet record base macroTk fuel c w) := by
  induction entries generalizing fuel done part c w mark with
  | nil =>
      cases fuel with
      | zero => cases enough
      | succ fuel =>
          rcases @Holding.collect _ _ _ macroTk expand ctx hideSet _ _ _ _ _ _ holding plain with
            ⟨depth, same, holding'⟩
          have failed : collectToken record base macroTk { c with bracketDepth := depth } w =
              .error .nullPointer := by
            have nonneg : 0 ≤ depth := holding'.depth.resolve_right Bool.false_ne_true
            have inside := holding'.inArgument
            rw [decide_eq_true nonneg] at inside
            rw [collectToken, Run.bind_ok inside]
            apply Run.bind_error
            rw [Preprocessor.accumulate, Run.bind_ok holding'.readNext,
              Run.bind_error readToken_null]
          rw [collectLoop, Run.bind_error (same.trans failed)]
          apply Outcome.unclosed
          · rintro msg location ⟨⟩
          · rw [List.append_nil]
            exact holding.few
  | cons entry rest inductionHypothesis =>
      cases fuel with
      | zero => cases enough
      | succ fuel =>
          have enoughRest : rest.length < fuel := Nat.lt_of_succ_lt_succ enough
          have plainRest : Plain ctx (rest.map Prod.snd) :=
            fun token member => plain token (List.mem_cons_of_mem _ member)
          rcases @Holding.collect _ _ _ macroTk expand ctx hideSet _ _ _ _ _ _ holding plain with
            ⟨depth, same, holding'⟩
          rw [List.map_cons, flatArguments, collectLoop]
          by_cases closes : entry.2.kind = .closeBracket
          · rw [if_pos closes]
            have bound := bindArgument_bound macroTk coherent holding' sorted
            have collected := same.trans (holding'.collectToken_bind (Or.inr closes))
            generalize isResult : bindArgument record base macroTk
              { c with bracketDepth := depth } w = result at bound
            cases bound with
            | tooMany none_ full =>
                rw [Run.bind_error (collected.trans (Run.bind_error isResult))]
                apply Outcome.tooMany none_
                rw [List.length_append]
                exact Nat.lt_succ_of_le full
            | stuck silent some_ full empty =>
                rw [Run.bind_error (collected.trans (Run.bind_error isResult))]
                apply Outcome.stuck silent some_
                · rw [List.length_append]
                  exact Nat.le_succ_of_le full
                · exact List.mem_append_left _ empty
            | bound bound sorted' =>
                rw [Run.bind_ok (collected.trans ((Run.bind_ok isResult).trans
                  (bound.passDelimiter_close closes)))]
                exact Outcome.closed closes rfl bound sorted'
          · rw [if_neg closes]
            by_cases isComma : entry.2.kind = .comma
            · rw [if_pos isComma]
              have bound := bindArgument_bound macroTk coherent holding' sorted
              have collected := same.trans (holding'.collectToken_bind (Or.inl isComma))
              generalize isResult : bindArgument record base macroTk
                { c with bracketDepth := depth } w = result at bound
              cases bound with
              | tooMany none_ full =>
                  rw [Run.bind_error (collected.trans (Run.bind_error isResult))]
                  apply Outcome.tooMany none_
                  rw [List.length_append, List.length_cons]
                  omega
              | stuck silent some_ full empty =>
                  rw [Run.bind_error (collected.trans (Run.bind_error isResult))]
                  apply Outcome.stuck silent some_
                  · rw [List.length_append]
                    exact Nat.le_add_right_of_le full
                  · exact List.mem_append_left _ empty
              | bound bound sorted' =>
                  rw [Run.bind_ok (collected.trans ((Run.bind_ok isResult).trans
                    (bound.passDelimiter_comma isComma)))]
                  apply Outcome.concat
                  exact inductionHypothesis enoughRest plainRest (bound.pass closes) sorted'
            · rw [if_neg isComma]
              rcases holding'.accumulate closes with ⟨heap, accumulated, holding'', kept⟩
              have collected := same.trans (holding'.collectToken_inside closes isComma accumulated)
              rw [Run.bind_ok collected]
              exact inductionHypothesis enoughRest plainRest holding'' (sorted.push isComma kept)

end Outcome

/-! ## The binding -/

/-- When the arguments are bound as the invocation says: it has no brackets inside and
no empty argument, a macro without parameters is variadic, a variadic macro gets
variadic arguments and no parameter of its name, and parameters of one name get the
same tokens. Where the invocation is wrong, it is reported when it is wrong without
regard to brackets, and if it is not closed only for too many arguments. -/
def Macro.BindsWhen (record : Macro) (tokens : List Token) : Prop :=
  match record.invocation tokens with
  | some _ => ∃ arguments behind, splitArguments 0 tokens = some (arguments, behind) ∧
      NoBracket arguments ∧ [] ∉ arguments ∧
        (record.variadicTk = none → record.paramNames ≠ []) ∧
        (record.variadicTk.isSome = true → record.paramNames.length < arguments.length) ∧
        VariadicApart record ∧
        ∀ one ∈ record.paramNames.zip arguments, ∀ other ∈ record.paramNames.zip arguments,
          one.1.literal = other.1.literal → one.2 = other.2
  | none =>
      (record.variadicTk = none ∧
        record.paramNames.length < (flatArguments [] tokens).1.length) ∨
      ∃ behind, (flatArguments [] tokens).2 = some behind ∧
        (flatArguments [] tokens).1.length < record.paramNames.length

section Binding

variable {record : Macro} {base : Nat} {start : Heap Token} {arguments : List (List Token)}
  {tokens behind : List Token} {args : Args} {heap : Heap Token} {mark : Nat}

theorem prependAll_nil : prependAll [] arguments = arguments := by
  cases arguments <;> rfl

theorem invocation_eq_some {result : List (Token × List Token) × List Token} :
    record.invocation tokens = some result ↔ ∃ arguments,
      splitArguments 0 tokens = some (arguments, result.2) ∧
        record.binding arguments = some result.1 := by
  rcases result with ⟨bindings, behind⟩
  rw [Macro.invocation]
  constructor
  · intro invoked
    rcases Option.bind_eq_some_iff.mp invoked with ⟨⟨arguments, rest⟩, split, bound⟩
    rcases Option.bind_eq_some_iff.mp bound with ⟨bindings', binding, same⟩
    cases same
    exact ⟨arguments, split, binding⟩
  · rintro ⟨arguments, split, binding⟩
    rw [split]
    change ((record.binding arguments).bind fun bindings => some (bindings, behind)) = _
    rw [binding]
    rfl

/-- Where the loop ends at the closing bracket, it finds the arguments. -/
theorem flatArguments_of_noBracket (split : splitArguments 0 tokens = some (arguments, behind))
    (noBracket : NoBracket arguments) :
    flatArguments [] tokens = (arguments, some behind) := by
  rcases @flatArguments_split [] tokens behind arguments split with ⟨-, flat⟩ | ⟨bracket, -⟩
  · rw [flat, prependAll_nil]
  · exact absurd noBracket bracket

theorem binding_variadic {param : Token} (isParam : record.variadicTk = some param) :
    record.binding arguments =
      if arguments.length < record.paramNames.length then none
      else some (record.paramNames.zip arguments ++
        [(param, joinArguments (variadicComma param)
          (arguments.drop record.paramNames.length))]) := by
  simp only [Macro.binding, isParam]

theorem binding_fixed (isNone : record.variadicTk = none) (parameters : record.paramNames ≠ []) :
    record.binding arguments =
      if arguments.length = record.paramNames.length then
        some (record.paramNames.zip arguments)
      else none := by
  simp only [Macro.binding, isNone, if_neg parameters]

/-- The number of arguments matches. -/
theorem binding_length {bindings : List (Token × List Token)}
    (binding : record.binding arguments = some bindings) :
    record.paramNames.length ≤ arguments.length := by
  cases isParam : record.variadicTk with
  | some param =>
      rw [binding_variadic isParam] at binding
      by_contra few
      rw [if_pos (Nat.lt_of_not_le few)] at binding
      cases binding
  | none =>
      by_cases parameters : record.paramNames = []
      · rw [parameters]
        exact Nat.zero_le _
      · rw [binding_fixed isParam parameters] at binding
        by_cases same : arguments.length = record.paramNames.length
        · exact Nat.le_of_eq same.symm
        · rw [if_neg same] at binding
          cases binding

theorem mem_zip_iff {param : Token} {argument : List Token} :
    (param, argument) ∈ record.paramNames.zip arguments ↔ ∃ i : Nat,
      record.paramNames[i]? = some param ∧ arguments[i]? = some argument := by
  rw [List.mem_iff_getElem?]
  simp only [List.getElem?_zip_eq_some]

/-- A list in the heap without one variable is a list in the heap. -/
theorem linked_of_kill {address : Nat} {p q : Ptr} {cells : List (Nat × Token)}
    (linked : Linked (heap.kill address) p cells q) : Linked heap p cells q := by
  apply linked.frame
  intro entry member
  rcases linked.live entry member with ⟨next, found⟩
  by_cases same : entry.1 = address
  · rw [same, Heap.kill, Heap.cells_put_self] at found
    cases found
  · rw [Heap.kill, Heap.cells_put_of_ne _ same]

theorem holds_of_kill {address : Nat} {p : Ptr} {values : List Token}
    (holds : Holds (heap.kill address) p values) : Holds heap p values := by
  rcases holds with ⟨cells, linked, same⟩
  exact ⟨cells, linked_of_kill linked, same⟩

/-- The variables of the loop before the first iteration. -/
theorem holding_start {w : World} {address : Nat} {token : Token} {entries : List (Nat × Token)}
    (bounded : w.heap.Bounded)
    (linked : Linked w.heap (.cell address) ((address, token) :: entries) .null) :
    Holding record w.heap.size w.heap [] [] entries
      ⟨.cell address, .cell w.heap.size, 0, 0, fun _ => none⟩
      (w.heap.alloc ⟨.start, "", synthBuiltInLoc⟩ .wild) (w.heap.size + 1) := by
  constructor
  case bounded => exact bounded.alloc _ _
  case base_lt => exact Nat.lt_succ_self _
  case mark_le => exact Nat.le_refl _
  case below => exact fun other inside => Heap.cells_alloc_of_ne _ _ (Nat.ne_of_lt inside)
  case input => exact ⟨address, token, rfl, linked, linked.lt_size bounded⟩
  case depth => exact Or.inl (Int.le_refl 0)
  case closed =>
    intro other value next inside found
    by_cases isNew : other = w.heap.size
    · subst isNew
      rw [Heap.cells_alloc_self] at found
      cases found
      rintro behind ⟨⟩
    · rw [Heap.cells_alloc_of_ne _ _ isNew, bounded other inside] at found
      cases found
  case bound =>
    rintro name p ⟨⟩
  case argument =>
    refine ⟨_, .wild, Heap.cells_alloc_self _ _, Ptr.noConfusion, ?_, Or.inl ⟨rfl, rfl⟩⟩
    rintro behind ⟨⟩
  case argIdx => exact (Nat.zero_min _).symm
  case few => exact fun _ => Nat.zero_le _

theorem sorted_start {w : World} :
    Sorted record w.heap.size [] (fun _ => none)
      (w.heap.alloc ⟨.start, "", synthBuiltInLoc⟩ .wild) (w.heap.size + 1) [] := by
  constructor
  · intro _
    constructor
    · intro name
      constructor
      · intro bound
        cases bound
      · rintro (⟨i, one, inside, -⟩ | ⟨one, -, more, -⟩)
        · cases inside
        · cases more
    · refine ⟨fun _ => [], ⟨?_, ?_, ?_, ?_⟩, ⟨?_, ?_⟩, ?_⟩
      · rintro name p ⟨⟩
      · rintro name p ⟨⟩
      · rintro name p ⟨⟩
      · rintro name other p q ⟨⟩
      · rintro name p ⟨⟩
      · rintro name param ⟨-, more, -⟩
        cases more
      · intro _ token first found
        rw [Heap.cells_alloc_self] at found
        cases found
        exact Or.inl ⟨rfl, rfl⟩
  · rintro ⟨j, -, isEmpty, -⟩
    cases isEmpty
  · intro argument member
    cases member
  · intro token member
    cases member

end Binding

section Bindings

variable {record : Macro} {arguments : List (List Token)} {bindings : List (Token × List Token)}

/-- An argument is bound to its parameter. -/
theorem mem_binding_param {param : Token} {argument : List Token} {i : Nat}
    (binding : record.binding arguments = some bindings)
    (isParam : record.paramNames[i]? = some param) (isArgument : arguments[i]? = some argument) :
    (param, argument) ∈ bindings := by
  have member : (param, argument) ∈ record.paramNames.zip arguments :=
    mem_zip_iff.mpr ⟨i, isParam, isArgument⟩
  cases isVariadic : record.variadicTk with
  | some variadic =>
      have enough := Nat.not_lt_of_le (binding_length binding)
      rw [binding_variadic isVariadic, if_neg enough] at binding
      cases binding
      exact List.mem_append_left _ member
  | none =>
      have parameters : record.paramNames ≠ [] := by
        intro isNil
        rw [isNil] at isParam
        cases isParam
      rw [binding_fixed isVariadic parameters] at binding
      by_cases same : arguments.length = record.paramNames.length
      · rw [if_pos same] at binding
        cases binding
        exact member
      · rw [if_neg same] at binding
        cases binding

/-- The arguments behind the parameters are bound to the variadic one. -/
theorem mem_binding_variadic {param : Token} (binding : record.binding arguments = some bindings)
    (isParam : record.variadicTk = some param) :
    (param, joinArguments (variadicComma param) (arguments.drop record.paramNames.length)) ∈
      bindings := by
  have enough := Nat.not_lt_of_le (binding_length binding)
  rw [binding_variadic isParam, if_neg enough] at binding
  cases binding
  exact List.mem_append_right _ List.mem_cons_self

/-- There are no other bindings. -/
theorem mem_binding {one : Token × List Token} (binding : record.binding arguments = some bindings)
    (parameters : record.variadicTk = none → record.paramNames ≠ []) (member : one ∈ bindings) :
    one ∈ record.paramNames.zip arguments ∨ ∃ param, record.variadicTk = some param ∧
      one = (param,
        joinArguments (variadicComma param) (arguments.drop record.paramNames.length)) := by
  cases isVariadic : record.variadicTk with
  | some variadic =>
      have enough := Nat.not_lt_of_le (binding_length binding)
      rw [binding_variadic isVariadic, if_neg enough] at binding
      cases binding
      rcases List.mem_append.mp member with inZip | isLast
      · exact Or.inl inZip
      · exact Or.inr ⟨variadic, rfl, List.mem_singleton.mp isLast⟩
  | none =>
      rw [binding_fixed isVariadic (parameters isVariadic)] at binding
      by_cases same : arguments.length = record.paramNames.length
      · rw [if_pos same] at binding
        cases binding
        exact Or.inl member
      · rw [if_neg same] at binding
        cases binding

end Bindings

/-- A parameter is bound to tokens. -/
def BoundTo (args : Args) (heap : Heap Token) (param : Token) (tokens : List Token) : Prop :=
  ∃ p, args param.literal = some p ∧ Holds heap p tokens

theorem BoundTo.unique {args : Args} {heap : Heap Token} {one other : Token}
    {tokens tokens' : List Token} (bound : BoundTo args heap one tokens)
    (bound' : BoundTo args heap other tokens') (same : one.literal = other.literal) :
    tokens = tokens' := by
  rcases bound with ⟨p, isBound, holds⟩
  rcases bound' with ⟨q, isBound', holds'⟩
  rw [same] at isBound
  cases isBound.symm.trans isBound'
  exact holds.unique holds'

section Closed

variable {record : Macro} {base : Nat} {start : Heap Token} {done : List (List Token)}
  {entry : Nat × Token} {rest : List (Nat × Token)} {c : Collecting} {w : World}
  {bindings : List (Token × List Token)}

/-- No parameter is bound to nothing. -/
theorem Holding.not_boundTo_nil {param : Token}
    (holding : Holding record base start done [] (entry :: rest) c w.heap w.heap.size) :
    ¬ BoundTo c.args (w.heap.kill base) param [] := by
  rintro ⟨p, bound, holds⟩
  exact (holding.bound _ p bound).2 (holds_nil.mp holds)

/-- The closing bracket and the tokens behind it. -/
theorem Holding.holds_behind
    (holding : Holding record base start done [] (entry :: rest) c w.heap w.heap.size) :
    Holds (w.heap.kill base) (.cell entry.1) (entry.2 :: rest.map Prod.snd) := by
  rcases holding.input with ⟨address, token, -, linked, inside⟩
  rcases linked with ⟨-, next, -, linked⟩
  refine ⟨entry :: rest, ?_, rfl⟩
  rw [← linked.1]
  apply linked.frame
  intro one member
  have before := inside one (List.mem_cons_of_mem _ member)
  rw [Heap.kill, Heap.cells_put_of_ne _ (Nat.ne_of_lt before)]
  exact holding.below one.1 before

theorem Lists.boundTo {lists : String → List (Nat × Token)} {param : Token} {p : Ptr}
    (isLists : Lists base c.args w.heap w.heap.size lists)
    (bound : c.args param.literal = some p) :
    BoundTo c.args (w.heap.kill base) param ((lists param.literal).map Prod.snd) := by
  refine ⟨p, bound, lists param.literal, (isLists.linked _ p bound).frame ?_, rfl⟩
  intro one member
  exact Heap.cells_put_of_ne _ (Nat.ne_of_gt (isLists.inside _ p bound one member).1)

/-- Where no argument is empty, the parameters are bound to the arguments. -/
theorem Good.boundTo (good : Good record base done c.args w.heap w.heap.size [])
    (binding : record.binding done = some bindings)
    (parameters : record.variadicTk = none → record.paramNames ≠ [])
    (variadic : record.variadicTk.isSome = true → record.paramNames.length < done.length)
    (apart : VariadicApart record)
    (consistent : ∀ one ∈ record.paramNames.zip done, ∀ other ∈ record.paramNames.zip done,
      one.1.literal = other.1.literal → one.2 = other.2) :
    ∀ one ∈ bindings, BoundTo c.args (w.heap.kill base) one.1 one.2 := by
  rcases good with ⟨isBound, lists, isLists, contents, -⟩
  rintro ⟨param, argument⟩ member
  rcases mem_binding binding parameters member with inZip | ⟨one, isOne, same⟩
  · rcases mem_zip_iff.mp inZip with ⟨i, isParam, isArgument⟩
    have named : IsBound record done param.literal :=
      Or.inl ⟨i, param, (List.getElem?_eq_some_iff.mp isArgument).1, isParam, rfl⟩
    rcases Option.isSome_iff_exists.mp ((isBound _).mpr named) with ⟨p, bound⟩
    have notVariadic : ∀ other, ¬ IsVariadic record done param.literal other := by
      rintro other ⟨isOther, -, same⟩
      exact apart other isOther param (List.mem_of_getElem? isParam) same.symm
    rcases contents.named _ p bound notVariadic with ⟨k, other, isOther, sameName, isDone⟩
    have values := consistent (param, argument) inZip
      (other, (lists param.literal).map Prod.snd) (mem_zip_iff.mpr ⟨k, isOther, isDone⟩)
      sameName.symm
    change argument = _ at values
    rw [values]
    exact isLists.boundTo bound
  · cases same
    have more : record.paramNames.length < done.length := by
      apply variadic
      rw [isOne]
      rfl
    rcases Option.isSome_iff_exists.mp ((isBound _).mpr (Or.inr ⟨param, isOne, more, rfl⟩)) with
      ⟨p, bound⟩
    rcases contents.variadic _ param ⟨isOne, more, rfl⟩ with ⟨before, values, before_iff⟩
    rw [before_iff.mpr (apart param isOne), List.nil_append] at values
    rw [← values]
    exact isLists.boundTo bound

/-- A list that is stuck is not the variadic arguments. -/
theorem Stuck.not_boundTo (stuck : Stuck record base done c.args w.heap w.heap.size) {param : Token}
    (isParam : record.variadicTk = some param) :
    ¬ BoundTo c.args (w.heap.kill base) param
      (joinArguments (variadicComma param) (done.drop record.paramNames.length)) := by
  rintro ⟨q, bound', holds⟩
  have holds' := holds_of_kill holds
  rcases stuck with ⟨one, p, isOne, more, bound, ⟨isEmpty, starts⟩ | cyclic⟩
  · cases isOne.symm.trans isParam
    cases bound.symm.trans bound'
    rcases List.getElem?_eq_some_iff.mp isEmpty with ⟨inside, isNil⟩
    rw [List.drop_eq_getElem_cons inside, isNil] at holds'
    rcases holds' with ⟨cells, linked, values⟩
    cases others : done.drop (record.paramNames.length + 1) with
    | nil =>
        rw [others] at values
        rw [List.map_eq_nil_iff.mp values] at linked
        cases linked
        rcases starts with isWild | ⟨address, token, next, isCell, -⟩
        · cases isWild
        · cases isCell
    | cons second rest' =>
        rw [others] at values
        cases cells with
        | nil => cases values
        | cons first rest'' =>
            have isComma : first.2 = variadicComma param := (List.cons.inj values).1
            rcases linked with ⟨isCell, next, found, -⟩
            rcases starts with isWild | ⟨address, token, next', isCell', -, found', notComma⟩
            · rw [isWild] at isCell
              cases isCell
            · cases isCell.symm.trans isCell'
              cases found.symm.trans found'
              rw [isComma] at notComma
              exact notComma rfl
  · cases isOne.symm.trans isParam
    cases bound.symm.trans bound'
    rcases holds' with ⟨cells, linked, -⟩
    exact cyclic.not_linked linked

/-- The first of the empty arguments. -/
theorem exists_first_empty {arguments : List (List Token)} (empty : [] ∈ arguments) :
    ∃ j : Nat, arguments[j]? = some [] ∧ ∀ i < j, arguments[i]? ≠ some [] := by
  have found : ∃ j : Nat, arguments[j]? = some [] := List.getElem?_of_mem empty
  exact ⟨Nat.find found, Nat.find_spec found, fun i before => Nat.find_min found before⟩

/-- Two variadic arguments have a comma between them. -/
theorem comma_mem_joinArguments (comma : Token) (first second : List Token)
    (others : List (List Token)) :
    comma ∈ joinArguments comma (first :: second :: others) := by
  rw [joinArguments]
  · exact List.mem_append_right _ List.mem_cons_self
  · rintro ⟨⟩

/-- Where the parameters are bound to the arguments, there is a variadic argument. -/
theorem variadic_of_boundTo
    (holding : Holding record base start done [] (entry :: rest) c w.heap w.heap.size)
    (binding : record.binding done = some bindings)
    (bound : ∀ one ∈ bindings, BoundTo c.args (w.heap.kill base) one.1 one.2)
    (variadic : record.variadicTk.isSome = true) : record.paramNames.length < done.length := by
  rcases Option.isSome_iff_exists.mp variadic with ⟨param, isParam⟩
  by_contra few
  have isLast := bound _ (mem_binding_variadic binding isParam)
  rw [List.drop_of_length_le (Nat.le_of_not_lt few)] at isLast
  exact holding.not_boundTo_nil isLast

/-- Where the parameters are bound to the arguments, none of these is empty. -/
theorem notEmpty_of_boundTo
    (holding : Holding record base start done [] (entry :: rest) c w.heap w.heap.size)
    (sorted : Sorted record base done c.args w.heap w.heap.size [])
    (binding : record.binding done = some bindings)
    (bound : ∀ one ∈ bindings, BoundTo c.args (w.heap.kill base) one.1 one.2) : [] ∉ done := by
  intro empty
  rcases exists_first_empty empty with ⟨j, isEmpty, earlier⟩
  have index := (List.getElem?_eq_some_iff.mp isEmpty).1
  rcases Nat.lt_or_ge j record.paramNames.length with inside | more
  · exact holding.not_boundTo_nil
      (bound _ (mem_binding_param binding (List.getElem?_eq_getElem inside) isEmpty))
  · have some_ : record.variadicTk.isSome = true := by
      cases isVariadic : record.variadicTk with
      | none =>
          exact absurd (Nat.lt_of_lt_of_le index (holding.few isVariadic)) (Nat.not_lt_of_le more)
      | some param => rfl
    rcases Option.isSome_iff_exists.mp some_ with ⟨param, isParam⟩
    have isLast := bound _ (mem_binding_variadic binding isParam)
    by_cases apart : VariadicApart record
    · exact (sorted.stuck ⟨j, more, isEmpty, earlier⟩ some_ apart).not_boundTo isParam isLast
    · apply apart
      intro variadic isVariadic one member same
      cases isVariadic.symm.trans isParam
      rcases List.getElem?_of_mem member with ⟨i, isOne⟩
      have before := Nat.lt_of_lt_of_le (List.getElem?_eq_some_iff.mp isOne).1
        (binding_length binding)
      have isNamed := bound _ (mem_binding_param binding isOne (List.getElem?_eq_getElem before))
      have values := isNamed.unique isLast same
      have noComma := sorted.noComma _ (List.getElem_mem before)
      change done[i] = _ at values
      rw [values] at noComma
      -- Without a comma there is one variadic argument, and it is the empty one.
      rw [List.drop_eq_getElem_cons (Nat.lt_of_le_of_lt more index)] at noComma isLast
      cases others : done.drop (record.paramNames.length + 1) with
      | nil =>
          have isOnly : j = record.paramNames.length := by
            have few := List.drop_eq_nil_iff.mp others
            exact Nat.le_antisymm (Nat.le_of_lt_succ (Nat.lt_of_lt_of_le index few)) more
          subst isOnly
          rw [others, (List.getElem?_eq_some_iff.mp isEmpty).2] at isLast
          exact holding.not_boundTo_nil isLast
      | cons second rest' =>
          rw [others] at noComma
          exact noComma _ (comma_mem_joinArguments _ _ _ _) rfl

/-- Where the parameters are bound to the arguments, none has the name of the variadic
one. -/
theorem apart_of_boundTo
    (holding : Holding record base start done [] (entry :: rest) c w.heap w.heap.size)
    (sorted : Sorted record base done c.args w.heap w.heap.size [])
    (binding : record.binding done = some bindings)
    (bound : ∀ one ∈ bindings, BoundTo c.args (w.heap.kill base) one.1 one.2) :
    VariadicApart record := by
  intro param isParam one member same
  have some_ : record.variadicTk.isSome = true := by
    rw [isParam]
    rfl
  have more := variadic_of_boundTo holding binding bound some_
  rcases sorted.good (notEmpty_of_boundTo holding sorted binding bound) with
    ⟨isBound, lists, isLists, contents, -⟩
  rcases Option.isSome_iff_exists.mp ((isBound _).mpr (Or.inr ⟨param, isParam, more, rfl⟩)) with
    ⟨p, isBoundTo⟩
  rcases contents.variadic _ param ⟨isParam, more, rfl⟩ with ⟨before, values, before_iff⟩
  have same' := (isLists.boundTo isBoundTo).unique
    (bound _ (mem_binding_variadic binding isParam)) rfl
  rw [values] at same'
  exact before_iff.mp (List.append_left_eq_self.mp same') one member same

end Closed

/-! ## The call -/

section Call

variable {record : Macro} {macroTk : SourceLocation} {expand : Expand} {ctx : Context}
  {hideSet : List String}

/-- How the call ends in front of tokens with these arguments. -/
inductive Collected (record : Macro) (macroTk : SourceLocation) :
    List (List Token) × Option (List Token) → Except Failure ((Ptr × Args) × World) → Prop
  | tooMany {args : List (List Token)} {behind : Option (List Token)}
      (none_ : record.variadicTk = none) (full : record.paramNames.length < args.length) :
      Collected record macroTk (args, behind)
        (.error (.errorAt "Too many arguments supplied to macro invocation" macroTk))
  | tooFew {args : List (List Token)} {behind : List Token}
      (few : args.length < record.paramNames.length) :
      Collected record macroTk (args, some behind)
        (.error (.errorAt "Too few arguments supplied to macro invocation" macroTk))
  | unclosed {args : List (List Token)} {failure : Failure} (silent : failure.Silent)
      (few : record.variadicTk = none → args.length ≤ record.paramNames.length) :
      Collected record macroTk (args, none) (.error failure)
  | stuck {args : List (List Token)} {behind : Option (List Token)} {failure : Failure}
      (silent : failure.Silent) (some_ : record.variadicTk.isSome = true)
      (full : record.paramNames.length ≤ args.length) (empty : [] ∈ args) :
      Collected record macroTk (args, behind) (.error failure)
  | bound {args : List (List Token)} {base : Nat} {start : Heap Token} {entry : Nat × Token}
      {rest : List (Nat × Token)} {c : Collecting} {w : World}
      (closes : entry.2.kind = .closeBracket)
      (enough : record.paramNames.length ≤ args.length)
      (holding : Holding record base start args [] (entry :: rest) c w.heap w.heap.size)
      (sorted : Sorted record base args c.args w.heap w.heap.size []) :
      Collected record macroTk (args, some (rest.map Prod.snd))
        (.ok ((.cell entry.1, c.args), w.withHeap (w.heap.kill base)))

theorem collectArguments_collected (coherent : record.Coherent) {fuel : Nat} {w : World}
    {tk : Ptr} {entry : Nat × Token} {entries : List (Nat × Token)} (bounded : w.heap.Bounded)
    (linked : Linked w.heap tk (entry :: entries) .null) (enough : entries.length < fuel)
    (plain : Plain ctx (entries.map Prod.snd)) :
    Collected record macroTk (flatArguments [] (entries.map Prod.snd))
      (collectArguments expand ctx hideSet record macroTk fuel tk w) := by
  rcases entry with ⟨address, token⟩
  have isCell := linked.1
  subst isCell
  have outcome := @collectLoop_outcome record w.heap.size w.heap macroTk expand ctx hideSet [] []
    entries _ (w.withHeap (w.heap.alloc ⟨.start, "", synthBuiltInLoc⟩ .wild)) _ coherent fuel enough
    plain (holding_start bounded linked) sorted_start
  rw [collectArguments, Run.bind_ok (rfl : newLocal w = _)]
  generalize flatArguments [] (entries.map Prod.snd) = split at outcome
  generalize isResult : collectLoop expand ctx hideSet record w.heap.size macroTk fuel
    ⟨.cell address, .cell w.heap.size, 0, 0, fun _ => none⟩
    (w.withHeap (w.heap.alloc ⟨.start, "", synthBuiltInLoc⟩ .wild)) = result at outcome
  cases outcome with
  | tooMany none_ full =>
      rw [Run.bind_error isResult]
      exact Collected.tooMany none_ full
  | unclosed silent few =>
      rw [Run.bind_error isResult]
      exact Collected.unclosed silent few
  | stuck silent some_ full empty =>
      rw [Run.bind_error isResult]
      exact Collected.stuck silent some_ full empty
  | @closed args behind entry rest c w' closes values holding sorted =>
      rw [Run.bind_ok isResult]
      change Holding record w.heap.size w.heap args [] (entry :: rest) c w'.heap w'.heap.size
        at holding
      have index : c.argIdx = min args.length record.paramNames.length := holding.argIdx
      by_cases few : args.length < record.paramNames.length
      · rw [if_pos (by rw [index, Nat.min_eq_left (Nat.le_of_lt few)]; exact few)]
        exact Collected.tooFew few
      · rw [if_neg (by rw [index, Nat.min_eq_right (Nat.le_of_not_lt few)]; exact Nat.lt_irrefl _)]
        subst values
        exact @Collected.bound _ _ args _ _ entry rest c w' closes (Nat.le_of_not_lt few) holding
          sorted

/-- An error is reported where the invocation is wrong without regard to brackets. -/
theorem Collected.reported_iff {args : List (List Token)} {behind : Option (List Token)}
    {result : Except Failure ((Ptr × Args) × World)}
    (collected : Collected record macroTk (args, behind) result) :
    (∃ msg location, result = .error (.errorAt msg location)) ↔
      (record.variadicTk = none ∧ record.paramNames.length < args.length) ∨
        ∃ rest, behind = some rest ∧ args.length < record.paramNames.length := by
  cases collected with
  | tooMany none_ full => exact iff_of_true ⟨_, _, rfl⟩ (Or.inl ⟨none_, full⟩)
  | tooFew few => exact iff_of_true ⟨_, _, rfl⟩ (Or.inr ⟨_, rfl, few⟩)
  | unclosed silent few =>
      apply iff_of_false
      · rintro ⟨msg, location, same⟩
        exact silent msg location (Except.error.inj same)
      · rintro (⟨none_, full⟩ | ⟨rest, same, -⟩)
        · exact absurd full (Nat.not_lt_of_le (few none_))
        · cases same
  | stuck silent some_ full empty =>
      apply iff_of_false
      · rintro ⟨msg, location, same⟩
        exact silent msg location (Except.error.inj same)
      · rintro (⟨none_, -⟩ | ⟨-, -, few⟩)
        · rw [none_] at some_
          cases some_
        · exact absurd few (Nat.not_lt_of_le full)
  | bound closes enough holding sorted =>
      apply iff_of_false
      · rintro ⟨msg, location, same⟩
        cases same
      · rintro (⟨none_, full⟩ | ⟨-, -, few⟩)
        · exact absurd full (Nat.not_lt_of_le (holding.few none_))
        · exact absurd few (Nat.not_lt_of_le enough)

/-- The result is a table that binds the parameters, in front of the closing bracket. -/
def Returns (bindings : List (Token × List Token)) (behind : List Token)
    (result : Except Failure ((Ptr × Args) × World)) : Prop :=
  ∃ tk args w, result = .ok ((tk, args), w) ∧
    (∃ closing, closing.kind = .closeBracket ∧ Holds w.heap tk (closing :: behind)) ∧
      ∀ one ∈ bindings, BoundTo args w.heap one.1 one.2

/-- The arguments of an invocation for which the bindings are right. -/
structure Bindable (record : Macro) (arguments : List (List Token)) : Prop where
  noBracket : NoBracket arguments
  notEmpty : [] ∉ arguments
  parameters : record.variadicTk = none → record.paramNames ≠ []
  variadic : record.variadicTk.isSome = true → record.paramNames.length < arguments.length
  apart : VariadicApart record
  consistent : ∀ one ∈ record.paramNames.zip arguments,
    ∀ other ∈ record.paramNames.zip arguments, one.1.literal = other.1.literal → one.2 = other.2

theorem Collected.returns_of_bindable {behind : List Token} {arguments : List (List Token)}
    {bindings : List (Token × List Token)} {result : Except Failure ((Ptr × Args) × World)}
    (collected : Collected record macroTk (arguments, some behind) result)
    (binding : record.binding arguments = some bindings) (bindable : Bindable record arguments) :
    Returns bindings behind result := by
  generalize isSplit : (arguments, some behind) = split at collected
  cases collected with
  | tooMany none_ full =>
      cases isSplit
      rw [binding_fixed none_ (bindable.parameters none_), if_neg (Nat.ne_of_gt full)] at binding
      cases binding
  | tooFew few =>
      cases isSplit
      exact absurd few (Nat.not_lt_of_le (binding_length binding))
  | unclosed silent few => cases isSplit
  | stuck silent some_ full empty =>
      cases isSplit
      exact absurd empty bindable.notEmpty
  | bound closes enough holding sorted =>
      cases isSplit
      refine ⟨_, _, _, rfl, ⟨_, closes, holding.holds_behind⟩, ?_⟩
      exact (sorted.good bindable.notEmpty).boundTo binding bindable.parameters bindable.variadic
        bindable.apart bindable.consistent

theorem Collected.bindable_of_returns {tokens behind : List Token} {arguments : List (List Token)}
    {bindings : List (Token × List Token)} {result : Except Failure ((Ptr × Args) × World)}
    (collected : Collected record macroTk (flatArguments [] tokens) result)
    (split : splitArguments 0 tokens = some (arguments, behind))
    (binding : record.binding arguments = some bindings)
    (returns : Returns bindings behind result) : Bindable record arguments := by
  rcases returns with ⟨tk, args, w, rfl, ⟨closing, -, holdsBehind⟩, bound⟩
  generalize isSplit : flatArguments [] tokens = flat at collected
  cases collected with
  | bound closes enough holding sorted =>
      have sameBehind := (List.cons.inj (holdsBehind.unique holding.holds_behind)).2
      rcases @flatArguments_split [] tokens behind arguments split with
        ⟨noBracket, isFlat⟩ | ⟨-, others, flatBehind, isFlat, shorter⟩
      · rw [isFlat, prependAll_nil] at isSplit
        cases isSplit
        have notEmpty := notEmpty_of_boundTo holding sorted binding bound
        refine ⟨noBracket, notEmpty, ?_, variadic_of_boundTo holding binding bound,
          apart_of_boundTo holding sorted binding bound, ?_⟩
        · intro none_ isNil
          apply splitArguments_ne_nil split
          apply List.eq_nil_of_length_eq_zero
          have few := holding.few none_
          rw [isNil] at few
          exact Nat.eq_zero_of_le_zero few
        · rintro ⟨one, argument⟩ member ⟨other, argument'⟩ member' same
          rcases mem_zip_iff.mp member with ⟨i, isOne, isArgument⟩
          rcases mem_zip_iff.mp member' with ⟨k, isOther, isArgument'⟩
          exact (bound _ (mem_binding_param binding isOne isArgument)).unique
            (bound _ (mem_binding_param binding isOther isArgument')) same
      · rw [isFlat] at isSplit
        cases isSplit
        rw [sameBehind] at shorter
        exact absurd shorter (Nat.lt_irrefl _)

end Call

/-! ## Two invocations -/

/-- `#define MAX(a, b)` with the body of no interest. -/
def maxMacro : Macro :=
  { paramNames := [lineToken .identifier "a", lineToken .identifier "b"] }

/-- The memory with a text. -/
def textWorld (tokens : List Token) : World :=
  ⟨Heap.ofList tokens, fun _ => none, fun _ => .null, fun _ => false, fun _ => none, []⟩

/-- `(1,2)` behind the name. -/
def plainText : List Token :=
  [lineToken .openBracket "", lineToken .numeric "1", lineToken .comma "",
    lineToken .numeric "2", lineToken .closeBracket ""]

/-- `((1),2)` behind the name. -/
def nestedText : List Token :=
  [lineToken .openBracket "", lineToken .openBracket "", lineToken .numeric "1",
    lineToken .closeBracket "", lineToken .comma "", lineToken .numeric "2",
    lineToken .closeBracket ""]

end Shecc.Preprocessor
