import Shecc.Preprocessor.Memory

/-!
# Arguments of a macro invocation

The loop that collects the arguments of a function-like macro. It counts brackets,
but ends an argument at every comma and the list at the first closing bracket, and
what an empty argument is bound to is what the variable for the list held before.
-/

namespace Shecc.Preprocessor

open LinkedList

/-- `macro_args`: the lists bound to the parameters of a macro. -/
abbrev Args := String → Option Ptr

/-- `hashmap_get`: null for a name that is not bound, and for no table. -/
def Args.get (args : Option Args) (name : String) : Ptr :=
  match args with
  | none => .null
  | some args => (args name).getD .null

/-- `preprocess_ctx_t` without `end_of_token`, which a call returns. A `trim_eof` that
was not set is none. -/
structure Context where
  hideSet : List String
  macroArgs : Option Args
  expandedFrom : Ptr
  trimEof : Option Bool

/-- `pp_preprocess_internal`: from the tokens to the list and `end_of_token`. -/
abbrev Expand := Ptr → Context → Run (Ptr × Ptr)

/-- The variables of the loop. -/
structure Collecting where
  tk : Ptr
  argCur : Ptr
  argIdx : Nat
  bracketDepth : Int
  args : Args

/-- How an iteration of the loop ends. -/
inductive Iteration
  | continue_ (c : Collecting)
  | break_ (c : Collecting)

section Loop

variable (expand : Expand) (ctx : Context) (hideSet : List String) (record : Macro)
  (argHead : Nat) (macroTk : SourceLocation)

/-- `bracket_depth++` and `bracket_depth--`. -/
def countBracket (tk : Ptr) (bracketDepth : Int) : Run Int := do
  if ← peekToken tk .openBracket then pure (bracketDepth + 1)
  else if ← peekToken tk .closeBracket then pure (bracketDepth - 1)
  else pure bracketDepth

/-- The list bound to the next token, if it is a parameter of the enclosing macro. -/
def enclosingArgument (tk : Ptr) : Run Ptr := do
  if ← peekToken tk .identifier then
    let next ← readNext tk
    let token ← readToken next
    pure (Args.get ctx.macroArgs token.literal)
  else pure .null

/-- The next token belongs to the argument. -/
def inArgument (c : Collecting) : Run Bool := do
  let comma ← peekToken c.tk .comma
  let closeBracket ← peekToken c.tk .closeBracket
  pure (decide (0 ≤ c.bracketDepth) && !comma && !closeBracket)

/-- The expansion of an enclosing argument becomes part of the argument. -/
def expandArgument (argTk : Ptr) (c : Collecting) : Run Collecting := do
  let next ← readNext c.tk
  let expansion ← expand argTk ⟨hideSet, none, next, none⟩
  let tk ← readNext c.tk
  setNext c.argCur expansion.1
  pure { c with tk := tk, argCur := expansion.2 }

/-- A copy of the next token becomes part of the argument. -/
def accumulate (c : Collecting) : Run Collecting := do
  let tk ← readNext c.tk
  let token ← readToken tk
  let copy ← newToken token
  setNext c.argCur copy
  pure { c with tk := tk, argCur := copy }

/-- The comma between variadic arguments: `new_token(T_comma, &param_tk->location, 1)`. -/
def variadicComma (param : Token) : Token := ⟨.comma, "", { param.location with len := 1 }⟩

/-- The last token of a list, which passes every cell at most once. -/
def lastOf (prev : Ptr) : Run Ptr := fun w => lastToken (w.heap.size + 1) prev w

/-- A variadic argument behind the first. -/
def appendVariadic (prev first : Ptr) (param : Token) : Run Unit := do
  let last ← lastOf prev
  let comma ← newToken (variadicComma param)
  setNext last comma
  setNext comma first

/-- The argument is bound to its parameter. -/
def bindArgument (c : Collecting) : Run Collecting := do
  let first ← readNext (.cell argHead)
  match record.paramNames[c.argIdx]? with
  | some param =>
      pure { c with argIdx := c.argIdx + 1,
                    args := Function.update c.args param.literal (some first) }
  | none =>
      if record.isVariadic then
        match record.variadicTk with
        | none => Run.fail .nullPointer
        | some param =>
            match c.args param.literal with
            | some prev => do
                appendVariadic prev first param
                pure c
            | none => pure { c with args := Function.update c.args param.literal (some first) }
      else
        Run.fail (.errorAt "Too many arguments supplied to macro invocation" macroTk)

/-- The comma or the bracket behind an argument. -/
def passDelimiter (c : Collecting) : Run Iteration := do
  if ← peekToken c.tk .comma then
    let tk ← readNext c.tk
    pure (.continue_ { c with tk := tk })
  else if ← peekToken c.tk .closeBracket then
    let tk ← readNext c.tk
    pure (.break_ { c with tk := tk })
  else pure (.continue_ c)

/-- The loop's body behind the count of brackets and the enclosing arguments. -/
def collectToken (c : Collecting) : Run Iteration := do
  if ← inArgument c then
    let c ← accumulate c
    pure (.continue_ c)
  else
    let c ← bindArgument record argHead macroTk c
    passDelimiter { c with argCur := .cell argHead }

/-- The loop's body. -/
def collect (c : Collecting) : Run Iteration := do
  let bracketDepth ← countBracket c.tk c.bracketDepth
  let c := { c with bracketDepth := bracketDepth }
  let argTk ← enclosingArgument ctx c.tk
  if argTk = .null then collectToken record argHead macroTk c
  else
    let c ← expandArgument expand hideSet argTk c
    pure (.continue_ c)

/-- The loop. -/
def collectLoop : Nat → Collecting → Run Collecting
  | 0, _ => Run.fail .outOfFuel
  | fuel + 1, c => do
      match ← collect expand ctx hideSet record argHead macroTk c with
      | .continue_ c => collectLoop fuel c
      | .break_ c => pure c

end Loop

/-- The arguments of an invocation, from the opening bracket: the closing bracket and
the table. -/
def collectArguments (expand : Expand) (ctx : Context) (hideSet : List String) (record : Macro)
    (macroTk : SourceLocation) (fuel : Nat) (tk : Ptr) : Run (Ptr × Args) := do
  let argHead ← newLocal
  let c ← collectLoop expand ctx hideSet record argHead macroTk fuel
    ⟨tk, .cell argHead, 0, 0, fun _ => none⟩
  if c.argIdx < record.paramNames.length then
    Run.fail (.errorAt "Too few arguments supplied to macro invocation" macroTk)
  else do
    endLocal argHead
    pure (c.tk, c.args)

/-! ## What an invocation says -/

/-- A token before the first of the arguments. -/
def prepend (token : Token) : List (List Token) → List (List Token)
  | [] => [[token]]
  | first :: rest => (token :: first) :: rest

/-- The arguments up to the bracket that closes the invocation, and the tokens behind
it. Commas and brackets within brackets belong to an argument. -/
def splitArguments : Nat → List Token → Option (List (List Token) × List Token)
  | _, [] => none
  | 0, token :: rest =>
      if token.kind = .closeBracket then some ([[]], rest)
      else if token.kind = .comma then
        (splitArguments 0 rest).map fun split => ([] :: split.1, split.2)
      else
        (splitArguments (if token.kind = .openBracket then 1 else 0) rest).map fun split =>
          (prepend token split.1, split.2)
  | depth + 1, token :: rest =>
      let depth' := if token.kind = .openBracket then depth + 2
        else if token.kind = .closeBracket then depth else depth + 1
      (splitArguments depth' rest).map fun split => (prepend token split.1, split.2)

/-- Arguments with a comma between them. -/
def joinArguments (comma : Token) : List (List Token) → List Token
  | [] => []
  | [argument] => argument
  | argument :: rest => argument ++ comma :: joinArguments comma rest

/-- There is nothing but space. -/
def isBlank (tokens : List Token) : Bool :=
  tokens.all fun token => token.kind == .whitespace || token.kind == .tab

/-- What the parameters are bound to, or none if the number of arguments does not
match. -/
def Macro.binding (record : Macro) (arguments : List (List Token)) :
    Option (List (Token × List Token)) :=
  match record.variadicTk with
  | some param =>
      if arguments.length < record.paramNames.length then none
      else some (record.paramNames.zip arguments ++
        [(param, joinArguments (variadicComma param) (arguments.drop record.paramNames.length))])
  | none =>
      if record.paramNames = [] then
        match arguments with
        | [argument] => if isBlank argument then some [] else none
        | _ => none
      else if arguments.length = record.paramNames.length then
        some (record.paramNames.zip arguments)
      else none

/-- What an invocation says: the bindings and the tokens behind it, or none if it is
not closed or the number of arguments does not match. -/
def Macro.invocation (record : Macro) (tokens : List Token) :
    Option (List (Token × List Token) × List Token) := do
  let split ← splitArguments 0 tokens
  let bindings ← record.binding split.1
  pure (bindings, split.2)

/-- The arguments are bound to the tokens the invocation says, and it ends at its
closing bracket; or an error is reported. -/
def Binds (record : Macro) (tokens : List Token)
    (result : Except Failure ((Ptr × Args) × World)) : Prop :=
  match record.invocation tokens with
  | none => ∃ msg location, result = .error (.errorAt msg location)
  | some (bindings, behind) => ∃ tk args w, result = .ok ((tk, args), w) ∧
      (∃ closing, closing.kind = .closeBracket ∧ Holds w.heap tk (closing :: behind)) ∧
        ∀ binding ∈ bindings, ∃ p, args binding.1.literal = some p ∧ Holds w.heap p binding.2

/-! ## The arguments the loop finds -/

/-- The arguments up to the first closing bracket, split at every comma, and the tokens
behind the bracket; what is behind the last comma counts as an argument only if there
is a bracket. -/
def flatArguments : List Token → List Token → List (List Token) × Option (List Token)
  | _, [] => ([], none)
  | part, token :: rest =>
      if token.kind = .closeBracket then ([part], some rest)
      else if token.kind = .comma then
        (part :: (flatArguments [] rest).1, (flatArguments [] rest).2)
      else flatArguments (part ++ [token]) rest

/-- Tokens before the first of the arguments. -/
def prependAll (part : List Token) : List (List Token) → List (List Token)
  | [] => []
  | first :: rest => (part ++ first) :: rest

theorem prependAll_prepend (part : List Token) (token : Token) {arguments : List (List Token)}
    (some_ : arguments ≠ []) :
    prependAll part (prepend token arguments) = prependAll (part ++ [token]) arguments := by
  cases arguments with
  | nil => exact absurd rfl some_
  | cons first rest => simp [prependAll, prepend]

theorem splitArguments_ne_nil {depth : Nat} {tokens behind : List Token}
    {arguments : List (List Token)}
    (split : splitArguments depth tokens = some (arguments, behind)) :
    arguments ≠ [] := by
  induction tokens generalizing depth arguments with
  | nil => cases depth <;> cases split
  | cons token rest inductionHypothesis =>
      cases depth with
      | zero =>
          rw [splitArguments] at split
          split at split
          · cases split
            exact List.cons_ne_nil _ _
          · split at split
            · rcases Option.map_eq_some_iff.mp split with ⟨inner, -, same⟩
              cases same
              exact List.cons_ne_nil _ _
            · rcases Option.map_eq_some_iff.mp split with ⟨inner, -, same⟩
              cases same
              cases inner.1 <;> exact List.cons_ne_nil _ _
      | succ depth =>
          rw [splitArguments] at split
          rcases Option.map_eq_some_iff.mp split with ⟨inner, -, same⟩
          cases same
          cases inner.1 <;> exact List.cons_ne_nil _ _

/-- There is no opening bracket in the arguments. -/
def NoBracket (arguments : List (List Token)) : Prop :=
  ∀ argument ∈ arguments, ∀ token ∈ argument, token.kind ≠ .openBracket

instance (arguments : List (List Token)) : Decidable (NoBracket arguments) :=
  inferInstanceAs (Decidable (∀ argument ∈ arguments, ∀ token ∈ argument, _))

theorem splitArguments_length {depth : Nat} {tokens behind : List Token}
    {arguments : List (List Token)}
    (split : splitArguments depth tokens = some (arguments, behind)) :
    behind.length < tokens.length := by
  induction tokens generalizing depth arguments with
  | nil => cases depth <;> cases split
  | cons token rest inductionHypothesis =>
      rw [List.length_cons]
      cases depth with
      | zero =>
          rw [splitArguments] at split
          split at split
          · cases split
            exact Nat.lt_succ_self _
          · split at split
            · rcases Option.map_eq_some_iff.mp split with ⟨inner, splitInner, same⟩
              cases same
              exact Nat.lt_succ_of_lt (inductionHypothesis splitInner)
            · rcases Option.map_eq_some_iff.mp split with ⟨inner, splitInner, same⟩
              cases same
              exact Nat.lt_succ_of_lt (inductionHypothesis splitInner)
      | succ depth =>
          rw [splitArguments] at split
          rcases Option.map_eq_some_iff.mp split with ⟨inner, splitInner, same⟩
          cases same
          exact Nat.lt_succ_of_lt (inductionHypothesis splitInner)

/-- Within brackets the first closing bracket is before the end of the invocation. -/
theorem flatArguments_nested {depth : Nat} {part tokens behind : List Token}
    {arguments : List (List Token)}
    (split : splitArguments (depth + 1) tokens = some (arguments, behind)) :
    ∃ others flatBehind, flatArguments part tokens = (others, some flatBehind) ∧
      behind.length < flatBehind.length := by
  induction tokens generalizing depth part arguments with
  | nil => cases split
  | cons token rest inductionHypothesis =>
      rw [splitArguments] at split
      rw [flatArguments]
      rcases Option.map_eq_some_iff.mp split with ⟨inner, splitInner, same⟩
      cases same
      by_cases closes : token.kind = .closeBracket
      · rw [if_pos closes]
        exact ⟨_, rest, rfl, splitArguments_length splitInner⟩
      · rw [if_neg closes]
        have inside : ∃ depth', splitArguments (depth' + 1) rest = some inner := by
          by_cases opens : token.kind = .openBracket
          · rw [if_pos opens] at splitInner
            exact ⟨depth + 1, splitInner⟩
          · rw [if_neg opens, if_neg closes] at splitInner
            exact ⟨depth, splitInner⟩
        rcases inside with ⟨depth', splitInner⟩
        by_cases isComma : token.kind = .comma
        · rw [if_pos isComma]
          rcases @inductionHypothesis _ [] _ splitInner with
            ⟨others, flatBehind, flat, shorter⟩
          rw [flat]
          exact ⟨_, flatBehind, rfl, shorter⟩
        · rw [if_neg isComma]
          exact inductionHypothesis splitInner

/-- Without brackets in the arguments they are the ones the loop finds, otherwise it
ends before the invocation does. -/
theorem flatArguments_split {part tokens behind : List Token} {arguments : List (List Token)}
    (split : splitArguments 0 tokens = some (arguments, behind)) :
    (NoBracket arguments ∧
      flatArguments part tokens = (prependAll part arguments, some behind)) ∨
    (¬ NoBracket arguments ∧ ∃ others flatBehind,
      flatArguments part tokens = (others, some flatBehind) ∧
        behind.length < flatBehind.length) := by
  induction tokens generalizing part arguments with
  | nil => cases split
  | cons token rest inductionHypothesis =>
      rw [splitArguments] at split
      rw [flatArguments]
      by_cases closes : token.kind = .closeBracket
      · rw [if_pos closes] at split ⊢
        cases split
        left
        constructor
        · intro argument member token inside
          cases List.mem_singleton.mp member
          cases inside
        · simp [prependAll]
      · rw [if_neg closes] at split ⊢
        by_cases isComma : token.kind = .comma
        · rw [if_pos isComma] at split ⊢
          rcases Option.map_eq_some_iff.mp split with ⟨inner, splitInner, same⟩
          cases same
          rcases @inductionHypothesis [] _ splitInner with
            ⟨noBracket, flat⟩ | ⟨bracket, others, flatBehind, flat, shorter⟩
          · left
            constructor
            · rintro argument (_ | ⟨_, member⟩)
              · intro token inside
                cases inside
              · exact noBracket argument member
            · rw [flat]
              cases inner.1 <;> simp [prependAll]
          · right
            constructor
            · intro noBracket
              apply bracket
              intro argument member
              exact noBracket argument (List.mem_cons_of_mem _ member)
            · rw [flat]
              exact ⟨_, flatBehind, rfl, shorter⟩
        · rw [if_neg isComma] at split ⊢
          rcases Option.map_eq_some_iff.mp split with ⟨inner, splitInner, same⟩
          cases same
          have notNil := splitArguments_ne_nil splitInner
          by_cases opens : token.kind = .openBracket
          · right
            rw [if_pos opens] at splitInner
            constructor
            · intro noBracket
              cases found : inner.1 with
              | nil => exact notNil found
              | cons first others =>
                  rw [found] at noBracket
                  exact noBracket (token :: first) List.mem_cons_self token List.mem_cons_self
                    opens
            · exact flatArguments_nested splitInner
          · rw [if_neg opens] at splitInner
            have bracket_iff : NoBracket (prepend token inner.1) ↔ NoBracket inner.1 := by
              cases found : inner.1 with
              | nil => exact absurd found notNil
              | cons first others =>
                  constructor
                  · rintro noBracket argument (_ | ⟨_, member⟩)
                    · intro token inside
                      exact noBracket _ List.mem_cons_self token
                        (List.mem_cons_of_mem _ inside)
                    · exact noBracket argument (List.mem_cons_of_mem _ member)
                  · rintro noBracket argument (_ | ⟨_, member⟩)
                    · rintro token (_ | ⟨_, inside⟩)
                      · exact opens
                      · exact noBracket first List.mem_cons_self token inside
                    · exact noBracket argument (List.mem_cons_of_mem _ member)
            rw [bracket_iff, prependAll_prepend part token notNil]
            exact inductionHypothesis splitInner

end Shecc.Preprocessor
