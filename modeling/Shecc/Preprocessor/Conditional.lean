import Shecc.Preprocessor.Expansion

/-!
# Conditional inclusion

What C says about a chain of groups: the first group whose condition holds is kept,
or the group of its `#else` when none does, and the others are dropped with all the
chains inside them. The loop over a list follows this as long as no dropped group has
a chain inside: `pp_skip_cond_incl` then calls `pp_skip_inner_cond_incl` at the inner
directive itself, which is counted twice.
-/

namespace Shecc.Preprocessor

open LinkedList

/-! ## Nesting -/

/-- The directives that end a group. -/
def TokenKind.endsGroup : TokenKind → Bool
  | .cppdElif | .cppdElse | .cppdEndif => true
  | _ => false

/-- The directives of conditional inclusion. -/
def TokenKind.isConditional (kind : TokenKind) : Bool := kind.opensCondition || kind.endsGroup

/-- The open chains behind a token, if it may stand here. Of each open chain it is known
whether its `#else` has been seen, the innermost one first. -/
def nest (kind : TokenKind) (chains : List Bool) : Option (List Bool) :=
  match kind, chains with
  | .cppdIf, chains | .cppdIfdef_, chains | .cppdIfndef_, chains => some (false :: chains)
  | .cppdElif, false :: outer => some (false :: outer)
  | .cppdElse, false :: outer => some (true :: outer)
  | .cppdEndif, _ :: outer => some outer
  | .cppdElif, _ | .cppdElse, _ | .cppdEndif, _ | .eof, _ => none
  | _, chains => some chains

/-- The chains of a text are well nested, within some open ones that it closes. -/
def wellNested (chains : List Bool) : List TokenKind → Bool
  | [] => chains.isEmpty
  | kind :: rest =>
      match nest kind chains with
      | none => false
      | some chains => wellNested chains rest

/-- The kinds of the tokens in cells. -/
def kinds (cells : List (Nat × Token)) : List TokenKind := cells.map fun entry => entry.2.kind

/-- A group without a chain inside. -/
def Flat (cells : List (Nat × Token)) : Prop :=
  ∀ kind ∈ kinds cells, kind.opensCondition = false

/-! ## Kept and dropped groups -/

/-- A token to come, the end of the list that is built, and the memory. -/
structure Place where
  tk : Ptr
  cur : Ptr
  w : World

/-- The token of a place. -/
def Place.token (p : Place) : Option Token := (p.w.heap.get p.tk).map Prod.fst

/-- The group from a place on is dropped: the next place is the directive of the same
nesting level that ends it. -/
def Dropped (allowed : List (Nat × Token) → Prop) (p p' : Place) : Prop :=
  ∃ cells directive behind, p.w.heap.Bounded ∧
    Linked p.w.heap p.tk (cells ++ directive :: behind) .null ∧
      wellNested [] (kinds cells) = true ∧ directive.2.kind.endsGroup = true ∧
        allowed cells ∧ p' = ⟨.cell directive.1, p.cur, p.w⟩

section Kept

variable (lexFile : String → Except Failure (List Token)) (expand : Expand) (ctx : Context)
  (fuel : Nat)

/-- The name of `#ifdef`, or of `#ifndef` where `wanted` is false. -/
def namedCondition (wanted : Bool) (tk : Ptr) : Run (Ptr × Bool) := do
  let tk ← ppLexExpectToken tk .identifier true
  let name ← readToken tk
  let defined_ ← isMacroDefined name.literal
  if defined_ == wanted then do
    let tk ← ppLexExpectToken tk .newline true
    pure (tk, true)
  else pure (tk, false)

/-- The condition of a directive. -/
def condition (kind : TokenKind) (tk : Ptr) : Run (Ptr × Bool) :=
  match kind with
  | .cppdIfdef_ => namedCondition true tk
  | .cppdIfndef_ => namedCondition false tk
  | _ => do
      let (tk, value) ← ppReadConstantExpr expand fuel tk
      pure (tk, value.truth)

/-- What is ahead: a group, or the directives of a chain no group of which has been kept,
of a chain one group of which has, or of a chain whose `#else` has been passed. -/
inductive Part
  | group | searching | found | last
  deriving DecidableEq

/-- From one place to another, over a number of tokens and directives, exactly the tokens
are kept that C keeps. A dropped group is one of the allowed ones. -/
inductive Keeps (allowed : List (Nat × Token) → Prop) : Part → Nat → Place → Place → Prop
  | nil (p : Place) : Keeps allowed .group 0 p p
  | text {p p' : Place} {token : Token} {tk cur : Ptr} {w : World} {n : Nat} :
      p.token = some token → token.kind.isConditional = false →
      Internal.process lexFile expand ctx fuel ⟨p.tk, p.cur, []⟩ token p.w =
        .ok (⟨tk, cur, []⟩, w) →
      Keeps allowed .group n ⟨tk, cur, w⟩ p' → Keeps allowed .group (n + 1) p p'
  | taken {p p₁ p₂ p' : Place} {token : Token} {tk : Ptr} {w : World} {n m k : Nat} :
      p.token = some token → token.kind.opensCondition = true →
      condition expand fuel token.kind p.tk p.w = .ok ((tk, true), w) →
      Keeps allowed .group n ⟨tk, p.cur, w⟩ p₁ → Keeps allowed .found m p₁ p₂ →
      Keeps allowed .group k p₂ p' → Keeps allowed .group (n + m + k + 1) p p'
  | passed {p p₁ p₂ p' : Place} {token : Token} {tk : Ptr} {w : World} {m k : Nat} :
      p.token = some token → token.kind.opensCondition = true →
      condition expand fuel token.kind p.tk p.w = .ok ((tk, false), w) →
      Dropped allowed ⟨tk, p.cur, w⟩ p₁ → Keeps allowed .searching m p₁ p₂ →
      Keeps allowed .group k p₂ p' → Keeps allowed .group (m + k + 1) p p'
  | elifTaken {p p₁ p' : Place} {token : Token} {tk : Ptr} {w : World} {n m : Nat} :
      p.token = some token → token.kind = .cppdElif →
      condition expand fuel .cppdElif p.tk p.w = .ok ((tk, true), w) →
      Keeps allowed .group n ⟨tk, p.cur, w⟩ p₁ → Keeps allowed .found m p₁ p' →
      Keeps allowed .searching (n + m + 1) p p'
  | elifPassed {p p₁ p' : Place} {token : Token} {tk : Ptr} {w : World} {m : Nat} :
      p.token = some token → token.kind = .cppdElif →
      condition expand fuel .cppdElif p.tk p.w = .ok ((tk, false), w) →
      Dropped allowed ⟨tk, p.cur, w⟩ p₁ → Keeps allowed .searching m p₁ p' →
      Keeps allowed .searching (m + 1) p p'
  | elseTaken {p p₁ p' : Place} {token : Token} {tk : Ptr} {n m : Nat} :
      p.token = some token → token.kind = .cppdElse →
      ppLexExpectToken p.tk .newline true p.w = .ok (tk, p.w) →
      Keeps allowed .group n ⟨tk, p.cur, p.w⟩ p₁ → Keeps allowed .last m p₁ p' →
      Keeps allowed .searching (n + m + 1) p p'
  | elifDropped {p p₁ p' : Place} {token : Token} {tk : Ptr} {included : Bool} {w : World}
      {m : Nat} :
      p.token = some token → token.kind = .cppdElif →
      condition expand fuel .cppdElif p.tk p.w = .ok ((tk, included), w) →
      Dropped allowed ⟨tk, p.cur, w⟩ p₁ → Keeps allowed .found m p₁ p' →
      Keeps allowed .found (m + 1) p p'
  | elseDropped {p p₁ p' : Place} {token : Token} {tk : Ptr} {m : Nat} :
      p.token = some token → token.kind = .cppdElse →
      ppLexExpectToken p.tk .newline true p.w = .ok (tk, p.w) →
      Dropped allowed ⟨tk, p.cur, p.w⟩ p₁ → Keeps allowed .last m p₁ p' →
      Keeps allowed .found (m + 1) p p'
  | endif {part : Part} {p : Place} {token : Token} {tk : Ptr} :
      part ≠ .group → p.token = some token → token.kind = .cppdEndif →
      ppLexExpectToken p.tk .newline true p.w = .ok (tk, p.w) →
      Keeps allowed part 1 p ⟨tk, p.cur, p.w⟩

end Kept

/-! ## Open conditions do not matter to text -/

section Text

variable {lexFile : String → Except Failure (List Token)} {expand : Expand} {ctx : Context}
  {fuel : Nat} {tk cur : Ptr} {ci : List CondIncl} {token : Token}

/-- A scan with other open conditions. -/
def Scan.withConditions (ci : List CondIncl) (s : Scan) : Scan := { s with ci := ci }

theorem copyThrough_conditions : Internal.copyThrough ⟨tk, cur, ci⟩ token =
    Scan.withConditions ci <$> Internal.copyThrough ⟨tk, cur, []⟩ token := by
  simp [Internal.copyThrough, Scan.withConditions]

theorem substitute_conditions {list : Ptr} {expansionCtx : Context} :
    Internal.substitute expand ⟨tk, cur, ci⟩ list expansionCtx =
      Scan.withConditions ci <$> Internal.substitute expand ⟨tk, cur, []⟩ list expansionCtx := by
  simp [Internal.substitute, Internal.splice, Scan.withConditions]

theorem expandMacro_conditions {record : Macro} {expandedFrom : Ptr} :
    Internal.expandMacro expand ctx fuel ⟨tk, cur, ci⟩ token record expandedFrom =
      Scan.withConditions ci <$>
        Internal.expandMacro expand ctx fuel ⟨tk, cur, []⟩ token record expandedFrom := by
  simp only [Internal.expandMacro, map_bind]
  congr 1
  funext isCall
  cases isCall with
  | false => simp [@substitute_conditions expand _ cur ci]
  | true => simp [@substitute_conditions expand _ cur ci]

theorem handle_conditions {handler : Handler} {expandedFrom : Ptr} :
    Internal.handle ⟨tk, cur, ci⟩ handler expandedFrom =
      Scan.withConditions ci <$> Internal.handle ⟨tk, cur, []⟩ handler expandedFrom := by
  simp [Internal.handle, Scan.withConditions]

theorem identifier_conditions : Internal.identifier expand ctx fuel ⟨tk, cur, ci⟩ token =
    Scan.withConditions ci <$> Internal.identifier expand ctx fuel ⟨tk, cur, []⟩ token := by
  simp only [Internal.identifier]
  generalize (if ctx.expandedFrom = .null then tk else ctx.expandedFrom) = expandedFrom
  split_ifs with isArgument isHidden
  · exact substitute_conditions
  · exact copyThrough_conditions
  · rw [map_bind]
    congr 1
    funext record
    cases record.filter fun record => !record.isDisabled with
    | none => exact copyThrough_conditions
    | some record =>
        cases made : record.handler with
        | none => simp only [made, @expandMacro_conditions expand ctx fuel tk cur ci]
        | some handler => simp only [made, @handle_conditions tk cur ci]

theorem includeFile_conditions : Internal.includeFile lexFile expand ctx ⟨tk, cur, ci⟩ =
    Scan.withConditions ci <$> Internal.includeFile lexFile expand ctx ⟨tk, cur, []⟩ := by
  simp only [Internal.includeFile, Internal.splice, map_bind]
  congr 1; funext name; congr 1; funext token; congr 1; funext path
  congr 1; funext line; congr 1; funext behind; congr 1; funext isOnce
  cases isOnce with
  | true => simp [Scan.withConditions]
  | false => simp [Scan.withConditions]

theorem cppdInclude_conditions : Internal.cppdInclude lexFile expand ctx ⟨tk, cur, ci⟩ =
    Scan.withConditions ci <$> Internal.cppdInclude lexFile expand ctx ⟨tk, cur, []⟩ := by
  simp only [Internal.cppdInclude, map_bind]
  congr 1
  funext isString
  cases isString with
  | true => simp [@includeFile_conditions lexFile expand ctx tk cur ci]
  | false => simp [Internal.ignoreInclude, Scan.withConditions]

theorem cppdDefine_conditions : Internal.cppdDefine ⟨tk, cur, ci⟩ =
    Scan.withConditions ci <$> Internal.cppdDefine ⟨tk, cur, []⟩ := by
  simp [Internal.cppdDefine, Scan.withConditions]

theorem cppdUndef_conditions : Internal.cppdUndef_ ⟨tk, cur, ci⟩ =
    Scan.withConditions ci <$> Internal.cppdUndef_ ⟨tk, cur, []⟩ := by
  simp [Internal.cppdUndef_, Scan.withConditions]

theorem cppdPragma_conditions : Internal.cppdPragma ⟨tk, cur, ci⟩ =
    Scan.withConditions ci <$> Internal.cppdPragma ⟨tk, cur, []⟩ := by
  simp [Internal.cppdPragma, Scan.withConditions]

theorem map_errorAt {α β : Type} (f : α → β) {msg : String} :
    f <$> (errorAt msg tk : Run α) = errorAt msg tk := by
  rw [errorAt, errorAt, map_bind]
  rfl

theorem cppdError_conditions : Internal.cppdError ⟨tk, cur, ci⟩ =
    Scan.withConditions ci <$> Internal.cppdError ⟨tk, cur, []⟩ := by
  simp only [Internal.cppdError, map_bind]
  congr 1
  funext isString
  cases isString with
  | true =>
      simp only [if_true, map_bind]
      rfl
  | false => exact (map_errorAt _).symm

theorem eof_conditions : Internal.eof ctx ⟨tk, cur, ci⟩ token =
    Scan.withConditions ci <$> Internal.eof ctx ⟨tk, cur, []⟩ token := by
  rw [Internal.eof, Internal.eof]
  cases ctx.trimEof with
  | none => rfl
  | some trimmed =>
      cases trimmed with
      | true => simp [Scan.withConditions]
      | false => exact copyThrough_conditions

theorem process_conditions (plain : token.kind.isConditional = false) :
    Internal.process lexFile expand ctx fuel ⟨tk, cur, ci⟩ token =
      Scan.withConditions ci <$>
        Internal.process lexFile expand ctx fuel ⟨tk, cur, []⟩ token := by
  rw [Internal.process, Internal.process]
  cases isKind : token.kind <;> rw [isKind] at plain
  case cppdIf | cppdElif | cppdElse | cppdEndif | cppdIfdef_ | cppdIfndef_ => cases plain
  case identifier => exact identifier_conditions
  case eof => exact eof_conditions
  case cppdInclude => exact cppdInclude_conditions
  case cppdDefine => exact cppdDefine_conditions
  case cppdUndef_ => exact cppdUndef_conditions
  case cppdError => exact cppdError_conditions
  case cppdPragma => exact cppdPragma_conditions
  case backslash => exact (map_errorAt _).symm
  all_goals exact copyThrough_conditions

end Text

/-! ## Skipping -/

section Nesting

variable {chains : List Bool} {kind : TokenKind} {rest : List TokenKind}

theorem nest_opens (opens : kind.opensCondition = true) :
    nest kind chains = some (false :: chains) := by
  cases kind <;> first | rfl | cases opens

theorem nest_text (plain : kind.isConditional = false) (notEof : kind ≠ .eof) :
    nest kind chains = some chains := by
  cases kind <;> first | rfl | exact absurd rfl notEof | cases plain

/-- A text begins with a token that may stand there. -/
theorem wellNested_cons_iff : wellNested chains (kind :: rest) = true ↔
    ∃ chains', nest kind chains = some chains' ∧ wellNested chains' rest = true := by
  rw [wellNested]
  cases nest kind chains with
  | none => simp
  | some chains' => simp

/-- Outside of all chains there is text, or a chain begins. -/
theorem text_or_opens (nested : wellNested [] (kind :: rest) = true) :
    kind.opensCondition = true ∨ kind.isConditional = false ∧ kind ≠ .eof := by
  rcases wellNested_cons_iff.mp nested with ⟨chains', isNest, -⟩
  cases kind <;>
    first | exact .inl rfl | exact .inr ⟨rfl, TokenKind.noConfusion⟩ | simp [nest] at isNest

/-- Before the first chain of a well nested group there is only text. -/
theorem text_of_flat {text group : List TokenKind} (nested : wellNested [] (text ++ group) = true)
    (flat : ∀ kind ∈ text, kind.opensCondition = false) :
    ∀ kind ∈ text, kind.isConditional = false ∧ kind ≠ .eof := by
  induction text with
  | nil => simp
  | cons kind rest inductionHypothesis =>
      have isText : kind.isConditional = false ∧ kind ≠ .eof := by
        rcases text_or_opens nested with opens | isText
        · rw [flat kind List.mem_cons_self] at opens
          cases opens
        · exact isText
      rw [List.cons_append, wellNested, nest_text isText.1 isText.2] at nested
      have behind := inductionHypothesis nested fun kind inRest =>
        flat kind (List.mem_cons_of_mem _ inRest)
      simpa using ⟨isText, behind⟩

theorem wellNested_text_append {text group : List TokenKind}
    (isText : ∀ kind ∈ text, kind.isConditional = false ∧ kind ≠ .eof) :
    wellNested chains (text ++ group) = wellNested chains group := by
  induction text with
  | nil => rfl
  | cons kind rest inductionHypothesis =>
      rcases isText kind List.mem_cons_self with ⟨plain, notEof⟩
      rw [List.cons_append, wellNested, nest_text plain notEof]
      exact inductionHypothesis fun kind inRest => isText kind (List.mem_cons_of_mem _ inRest)

/-- What a directive adds to the number of open chains. -/
def TokenKind.opening (kind : TokenKind) : Int :=
  if kind.opensCondition then 1 else if kind = .cppdEndif then -1 else 0

/-- The chains that are opened and not closed. -/
def opened (group : List TokenKind) : Int := (group.map TokenKind.opening).sum

@[simp]
theorem opened_nil : opened [] = 0 := rfl

@[simp]
theorem opened_cons : opened (kind :: rest) = kind.opening + opened rest := by simp [opened]

@[simp]
theorem opened_append (first second : List TokenKind) :
    opened (first ++ second) = opened first + opened second := by simp [opened]

theorem opening_text (plain : kind.isConditional = false) : kind.opening = 0 := by
  rw [TokenKind.isConditional, Bool.or_eq_false_iff] at plain
  rw [TokenKind.opening, plain.1, if_neg Bool.false_ne_true, if_neg]
  rintro rfl
  cases plain.2

/-- The number of open chains behind a token. -/
theorem nest_length {chains' : List Bool} (isNest : nest kind chains = some chains') :
    (chains'.length : Int) = chains.length + kind.opening := by
  by_cases plain : kind.isConditional = false
  · by_cases isEof : kind = .eof
    · rw [isEof] at isNest
      cases isNest
    · rw [nest_text plain isEof] at isNest
      cases isNest
      rw [opening_text plain, add_zero]
  · by_cases opens : kind.opensCondition = true
    · rw [nest_opens opens] at isNest
      cases isNest
      simp [TokenKind.opening, opens]
    · cases kind <;> first | exact absurd rfl plain | exact absurd rfl opens | skip
      all_goals
        rcases chains with _ | ⟨_ | _, outer⟩ <;> cases isNest
      all_goals simp [TokenKind.opening, TokenKind.opensCondition]

/-- In a well nested text no more chains are closed than have been opened. -/
theorem opened_of_wellNested {first second : List TokenKind}
    (nested : wellNested chains (first ++ second) = true) :
    -(chains.length : Int) ≤ opened first := by
  induction first generalizing chains with
  | nil => simp
  | cons kind rest inductionHypothesis =>
      rcases wellNested_cons_iff.mp nested with ⟨chains', isNest, nested'⟩
      have behind := inductionHypothesis nested'
      rw [nest_length isNest] at behind
      rw [opened_cons]
      omega

end Nesting

section Skipping

variable {w w' : World} {fuel : Nat} {p p' : Ptr} {cells : List (Nat × Token)}

/-- A directive does not stand right behind another one. -/
def Separated (group : List TokenKind) : Prop :=
  group.IsChain fun kind kind' => kind.isConditional = true → kind'.isConditional = false

@[simp]
theorem kinds_cons (cell : Nat × Token) (rest : List (Nat × Token)) :
    kinds (cell :: rest) = cell.2.kind :: kinds rest := rfl

theorem kinds_append (first second : List (Nat × Token)) :
    kinds (first ++ second) = kinds first ++ kinds second := List.map_append

/-- The loop passes over a token that is no directive. -/
theorem skipCondIncl_step {address : Nat} {token : Token} {next : Ptr}
    (found : w.heap.cells address = .live token next)
    (isText : token.kind.isConditional = false ∧ token.kind ≠ .eof) :
    skipCondIncl (fuel + 1) (.cell address) w = skipCondIncl fuel next w := by
  rcases isText with ⟨plain, notEof⟩
  rw [TokenKind.isConditional, Bool.or_eq_false_iff] at plain
  have notEnd : ¬ (token.kind = .cppdElif ∨ token.kind = .cppdElse ∨
      token.kind = .cppdEndif) := by
    rintro (isKind | isKind | isKind) <;> simp [isKind, TokenKind.endsGroup] at plain
  rw [skipCondIncl, Run.bind_ok (readToken_live found), if_neg notEof, plain.1,
    if_neg Bool.false_ne_true, if_neg notEnd, Run.bind_ok (readNext_live found)]

/-- The loop passes over text. -/
theorem skipCondIncl_text {text : List (Nat × Token)} {q : Ptr} {more : Nat}
    (linked : Linked w.heap p text q)
    (isText : ∀ kind ∈ kinds text, kind.isConditional = false ∧ kind ≠ .eof) :
    skipCondIncl (text.length + more) p w = skipCondIncl more q w := by
  induction text generalizing p with
  | nil =>
      rw [linked_nil.mp linked]
      simp
  | cons entry rest inductionHypothesis =>
      rcases entry with ⟨address, token⟩
      rcases linked with ⟨rfl, next, found, linked⟩
      rw [List.length_cons, Nat.add_right_comm,
        skipCondIncl_step found (isText token.kind List.mem_cons_self)]
      exact inductionHypothesis linked fun kind inRest => isText kind
        (List.mem_cons_of_mem _ inRest)

/-- A loop that returns has passed the text in front. -/
theorem skipCondIncl_of_text {text : List (Nat × Token)} {q : Ptr}
    (linked : Linked w.heap p text q)
    (isText : ∀ kind ∈ kinds text, kind.isConditional = false ∧ kind ≠ .eof)
    (ran : skipCondIncl fuel p w = .ok (p', w')) :
    ∃ more, skipCondIncl more q w = .ok (p', w') := by
  induction text generalizing p fuel with
  | nil =>
      rw [linked_nil.mp linked] at ran
      exact ⟨fuel, ran⟩
  | cons entry rest inductionHypothesis =>
      rcases entry with ⟨address, token⟩
      rcases linked with ⟨rfl, next, found, linked⟩
      cases fuel with
      | zero => cases ran
      | succ fuel =>
          rw [skipCondIncl_step found (isText token.kind List.mem_cons_self)] at ran
          exact inductionHypothesis linked
            (fun kind inRest => isText kind (List.mem_cons_of_mem _ inRest)) ran

/-- The loop stops at a directive that ends the group. -/
theorem skipCondIncl_ends {address : Nat} {token : Token} {next : Ptr}
    (found : w.heap.cells address = .live token next) (ends : token.kind.endsGroup = true) :
    skipCondIncl (fuel + 1) (.cell address) w = .ok (.cell address, w) := by
  rw [skipCondIncl, Run.bind_ok (readToken_live found)]
  cases isKind : token.kind <;> rw [isKind] at ends <;>
    first | rfl | cases ends

/-- Both loops stop at the end of the file. -/
theorem skipCondIncl_eof {address : Nat} {token : Token} {next : Ptr}
    (found : w.heap.cells address = .live token next) (isEof : token.kind = .eof) :
    skipCondIncl (fuel + 1) (.cell address) w = .ok (.cell address, w) := by
  rw [skipCondIncl, Run.bind_ok (readToken_live found), if_pos isEof]
  rfl

theorem skipInnerCondIncl_eof {address : Nat} {token : Token} {next : Ptr}
    (found : w.heap.cells address = .live token next) (isEof : token.kind = .eof) :
    skipInnerCondIncl (fuel + 1) (.cell address) w = .ok (.cell address, w) := by
  rw [skipInnerCondIncl, Run.bind_ok (readToken_live found), if_pos isEof]
  rfl

/-- The token behind the next one, where there is one. -/
theorem twoBehind_linked (linked : Linked w.heap p cells .null)
    (ran : twoBehind p w = .ok (p', w')) :
    w' = w ∧ ∃ first second rest, cells = first :: second :: rest ∧
      Linked w.heap p' rest .null ∧ rest ≠ [] := by
  rw [twoBehind] at ran
  rcases Run.bind_eq_ok_iff.mp ran with ⟨next, w₁, isNext, ranNext⟩
  rcases readNext_eq_ok isNext with ⟨rfl, address, token, rfl, found⟩
  by_cases isLast : next = .null
  · rw [if_pos isLast, errorAt, Run.bind_ok (readToken_live found)] at ranNext
    cases ranNext
  · rw [if_neg isLast] at ranNext
    rcases Run.bind_eq_ok_iff.mp ranNext with ⟨behind, w₂, isBehind, ranBehind⟩
    rcases readNext_eq_ok isBehind with ⟨rfl, address', token', rfl, found'⟩
    by_cases isEnd : behind = .null
    · rw [if_pos isEnd, errorAt, Run.bind_ok (readToken_live found)] at ranBehind
      cases ranBehind
    · rw [if_neg isEnd] at ranBehind
      cases ranBehind
      refine ⟨rfl, ?_⟩
      rcases cells with _ | ⟨⟨address₁, token₁⟩, _ | ⟨⟨address₂, token₂⟩, rest⟩⟩
      · cases linked
      · rcases linked with ⟨⟨⟩, next, found₁, isNull⟩
        rw [found] at found₁
        cases found₁
        cases isNull
      · rcases linked with ⟨⟨⟩, next, found₁, ⟨isCell, next', found₂, linked⟩⟩
        rw [found] at found₁
        cases found₁
        cases isCell
        rw [found'] at found₂
        cases found₂
        refine ⟨_, _, _, rfl, linked, ?_⟩
        rintro rfl
        exact isEnd linked

/-- Where a skipping loop is in a list: it has passed some cells of it. -/
def Passes (w : World) (cells : List (Nat × Token)) (p' : Ptr)
    (post : List (Nat × Token) → List (Nat × Token) → Prop) : Prop :=
  ∃ passed rest, cells = passed ++ rest ∧ Linked w.heap p' rest .null ∧ post passed rest

/-- The rest of a list begins with the end of the file. -/
def AtEof (rest : List (Nat × Token)) : Prop :=
  ∃ cell later, rest = cell :: later ∧ cell.2.kind = .eof

/-- A list that goes on behind a cell. -/
theorem linked_of_found {address : Nat} {token : Token} {next : Ptr}
    (linked : Linked w.heap (.cell address) cells .null)
    (found : w.heap.cells address = .live token next) :
    ∃ rest, cells = (address, token) :: rest ∧ Linked w.heap next rest .null := by
  cases cells with
  | nil => cases linked
  | cons entry rest =>
      rcases entry with ⟨address', token'⟩
      rcases linked with ⟨⟨⟩, next', found', linked⟩
      rw [found] at found'
      cases found'
      exact ⟨rest, rfl, linked⟩

theorem readToken_eq_ok {token : Token} (ran : readToken p w = .ok (token, w')) :
    w' = w ∧ ∃ address next, p = .cell address ∧ w.heap.cells address = .live token next := by
  rcases Run.bind_eq_ok_iff.mp ran with ⟨⟨token', next⟩, middle, read, ⟨⟩⟩
  cases p with
  | null => cases read
  | wild => cases read
  | cell address =>
      cases found : w.heap.cells address with
      | dead => simp only [readCell, Heap.get, found] at read; cases read
      | live token next =>
          rw [readCell_live found] at read
          cases read
          exact ⟨rfl, address, next, rfl, found⟩

theorem Separated.behind {cell : Nat × Token} {rest : List (Nat × Token)}
    (separated : Separated (kinds (cell :: rest))) : Separated (kinds rest) :=
  List.IsChain.tail separated

theorem Separated.append {first second : List (Nat × Token)}
    (separated : Separated (kinds (first ++ second))) : Separated (kinds second) := by
  rw [kinds_append] at separated
  exact separated.right_of_append

theorem Separated.text {cell cell' : Nat × Token} {rest : List (Nat × Token)}
    (separated : Separated (kinds (cell :: cell' :: rest)))
    (isConditional : cell.2.kind.isConditional = true) : cell'.2.kind.opening = 0 :=
  opening_text ((List.isChain_cons_cons.mp separated).1 isConditional)

theorem TokenKind.isConditional_of_opens {kind : TokenKind} (opens : kind.opensCondition = true) :
    kind.isConditional = true := by
  rw [TokenKind.isConditional, opens, Bool.true_or]

/-- The inner loop closes one chain more than it opens. -/
theorem skipInnerCondIncl_passes (linked : Linked w.heap p cells .null)
    (separated : Separated (kinds cells)) (ran : skipInnerCondIncl fuel p w = .ok (p', w')) :
    w' = w ∧ Passes w cells p' fun passed rest => AtEof rest ∨ opened (kinds passed) = -1 := by
  induction fuel generalizing p p' w' cells with
  | zero => cases ran
  | succ fuel inductionHypothesis =>
      rw [skipInnerCondIncl] at ran
      rcases Run.bind_eq_ok_iff.mp ran with ⟨token, w₁, isToken, ranToken⟩
      rcases readToken_eq_ok isToken with ⟨rfl, address, next, rfl, found⟩
      rcases linked_of_found linked found with ⟨rest, rfl, linkedRest⟩
      by_cases isEof : token.kind = .eof
      · rw [if_pos isEof] at ranToken
        cases ranToken
        exact ⟨rfl, [], _, rfl, linked, .inl ⟨_, _, rfl, isEof⟩⟩
      rw [if_neg isEof] at ranToken
      by_cases opens : token.kind.opensCondition = true
      · rw [if_pos opens] at ranToken
        rcases Run.bind_eq_ok_iff.mp ranToken with ⟨inner, w₂, isInner, ranInner⟩
        rcases twoBehind_linked linked isInner with ⟨rfl, first, second, group, split, inside, -⟩
        rcases List.cons_eq_cons.mp split with ⟨rfl, rfl⟩
        rcases Run.bind_eq_ok_iff.mp ranInner with ⟨middle, w₃, isMiddle, ranMiddle⟩
        rcases inductionHypothesis inside separated.behind.behind isMiddle with
          ⟨rfl, passed, rest', rfl, linkedMiddle, closed⟩
        have mark := separated.text (TokenKind.isConditional_of_opens opens)
        have isOpening : token.kind.opening = 1 := by rw [TokenKind.opening, if_pos opens]
        rcases closed with atEof | closed
        · rcases atEof with ⟨cell, later, rfl, isEof'⟩
          rcases cell with ⟨address', token'⟩
          rcases linkedMiddle with ⟨rfl, next', found', linkedMiddle⟩
          cases fuel with
          | zero => cases ranMiddle
          | succ fuel =>
              rw [skipInnerCondIncl_eof found' isEof'] at ranMiddle
              cases ranMiddle
              exact ⟨rfl, _ :: _ :: passed, _, rfl, ⟨rfl, _, found', linkedMiddle⟩,
                .inl ⟨_, _, rfl, isEof'⟩⟩
        · rcases inductionHypothesis linkedMiddle separated.behind.behind.append ranMiddle with
            ⟨rfl, passed', rest'', rfl, linkedEnd, closed'⟩
          refine ⟨rfl, (address, token) :: second :: (passed ++ passed'), rest'', by simp,
            linkedEnd, ?_⟩
          rcases closed' with atEof | closed'
          · exact .inl atEof
          · right
            simp only [kinds_cons, kinds_append, opened_cons, opened_append, isOpening, mark]
            omega
      rw [if_neg opens] at ranToken
      by_cases isEnd : token.kind = .cppdEndif
      · rw [if_pos isEnd] at ranToken
        rcases twoBehind_linked linked ranToken with ⟨rfl, first, second, group, split, inside, -⟩
        rcases List.cons_eq_cons.mp split with ⟨rfl, rfl⟩
        have mark := separated.text (show token.kind.isConditional = true by rw [isEnd]; rfl)
        refine ⟨rfl, [_, _], group, rfl, inside, .inr ?_⟩
        simp only [kinds_cons, opened_cons, mark, isEnd]
        rfl
      · rw [if_neg isEnd, Run.bind_ok (readNext_live found)] at ranToken
        rcases inductionHypothesis linkedRest separated.behind ranToken with
          ⟨rfl, passed, rest', rfl, linkedEnd, closed⟩
        refine ⟨rfl, _ :: passed, rest', rfl, linkedEnd, ?_⟩
        have isOpening : token.kind.opening = 0 := by
          rw [TokenKind.opening, if_neg opens, if_neg isEnd]
        rcases closed with atEof | closed
        · exact .inl atEof
        · right
          simp only [kinds_cons, opened_cons, isOpening]
          omega

/-- The outer loop goes forward. -/
theorem skipCondIncl_passes (linked : Linked w.heap p cells .null)
    (separated : Separated (kinds cells)) (ran : skipCondIncl fuel p w = .ok (p', w')) :
    w' = w ∧ Passes w cells p' fun _ _ => True := by
  induction fuel generalizing p p' w' cells with
  | zero => cases ran
  | succ fuel inductionHypothesis =>
      rw [skipCondIncl] at ran
      rcases Run.bind_eq_ok_iff.mp ran with ⟨token, w₁, isToken, ranToken⟩
      rcases readToken_eq_ok isToken with ⟨rfl, address, next, rfl, found⟩
      rcases linked_of_found linked found with ⟨rest, rfl, linkedRest⟩
      by_cases isEof : token.kind = .eof
      · rw [if_pos isEof] at ranToken
        cases ranToken
        exact ⟨rfl, [], _, rfl, linked, trivial⟩
      rw [if_neg isEof] at ranToken
      by_cases opens : token.kind.opensCondition = true
      · rw [if_pos opens] at ranToken
        rcases Run.bind_eq_ok_iff.mp ranToken with ⟨middle, w₂, isMiddle, ranMiddle⟩
        rcases skipInnerCondIncl_passes linked separated isMiddle with
          ⟨rfl, passed, rest', split, linkedMiddle, -⟩
        rw [split] at separated
        rcases inductionHypothesis linkedMiddle separated.append ranMiddle with
          ⟨rfl, passed', rest'', rfl, linkedEnd, -⟩
        exact ⟨rfl, passed ++ passed', rest'', by rw [split, List.append_assoc], linkedEnd,
          trivial⟩
      rw [if_neg opens] at ranToken
      split_ifs at ranToken with isEnd
      · cases ranToken
        exact ⟨rfl, [], _, rfl, linked, trivial⟩
      · rw [Run.bind_ok (readNext_live found)] at ranToken
        rcases inductionHypothesis linkedRest separated.behind ranToken with
          ⟨rfl, passed, rest', rfl, linkedEnd, -⟩
        exact ⟨rfl, _ :: passed, rest', rfl, linkedEnd, trivial⟩

/-- A group goes as text up to the first chain in it. -/
theorem exists_opens (notFlat : ¬ Flat cells) : ∃ text cell rest, cells = text ++ cell :: rest ∧
    Flat text ∧ cell.2.kind.opensCondition = true := by
  induction cells with
  | nil => exact absurd (by simp [Flat, kinds]) notFlat
  | cons cell rest inductionHypothesis =>
      by_cases opens : cell.2.kind.opensCondition = true
      · exact ⟨[], cell, rest, rfl, by simp [Flat, kinds], opens⟩
      · have notFlat' : ¬ Flat rest := by
          intro flat
          apply notFlat
          simpa [Flat, opens] using flat
        rcases inductionHypothesis notFlat' with ⟨text, cell', rest', rfl, flat, opens'⟩
        exact ⟨cell :: text, cell', rest', rfl, by simpa [Flat, opens] using flat, opens'⟩

section Group

variable {directive : Nat × Token} {behind : List (Nat × Token)}

/-- The loop stops at the end of a group without a chain. -/
theorem ppSkipCondIncl_flat (bounded : w.heap.Bounded)
    (linked : Linked w.heap p (cells ++ directive :: behind) .null)
    (nested : wellNested [] (kinds cells) = true) (ends : directive.2.kind.endsGroup = true)
    (flat : Flat cells) : ppSkipCondIncl p w = .ok (.cell directive.1, w) := by
  have shorter := linked.length_le bounded
  rw [List.length_append, List.length_cons] at shorter
  rcases linked_append.mp linked with ⟨q, before, atDirective⟩
  rcases directive with ⟨address, token⟩
  rcases atDirective with ⟨rfl, next, found, -⟩
  rw [← List.append_nil (kinds cells)] at nested
  have isText := text_of_flat nested flat
  have rounds : w.heap.size + 1 = cells.length + (w.heap.size - cells.length + 1) := by omega
  rw [ppSkipCondIncl, walk, rounds, skipCondIncl_text before isText,
    skipCondIncl_ends found ends]

/-- The loop does not stop at the end of a group with a chain inside. -/
theorem skipCondIncl_ne (linked : Linked w.heap p (cells ++ directive :: behind) .null)
    (separated : Separated (kinds (cells ++ directive :: behind)))
    (nested : wellNested [] (kinds cells) = true) (ends : directive.2.kind.endsGroup = true)
    (notFlat : ¬ Flat cells) : skipCondIncl fuel p w ≠ .ok (.cell directive.1, w') := by
  intro ran
  rcases exists_opens notFlat with ⟨text, cell, rest, rfl, flat, opens⟩
  rw [kinds_append] at nested
  have isText := text_of_flat nested flat
  rw [wellNested_text_append isText] at nested
  rw [List.append_assoc] at linked separated
  rcases linked_append.mp linked with ⟨q, before, fromCell⟩
  rcases skipCondIncl_of_text before isText ran with ⟨more, ranCell⟩
  rcases cell with ⟨address, token⟩
  rw [List.cons_append] at fromCell
  have atCell := fromCell
  rcases atCell with ⟨rfl, next, found, -⟩
  cases more with
  | zero => cases ranCell
  | succ more =>
      have notEof : token.kind ≠ .eof := by
        intro isEof
        rw [isEof] at opens
        cases opens
      rw [skipCondIncl, Run.bind_ok (readToken_live found), if_neg notEof, if_pos opens]
        at ranCell
      rcases Run.bind_eq_ok_iff.mp ranCell with ⟨middle, w₁, isMiddle, ranMiddle⟩
      rcases skipInnerCondIncl_passes fromCell separated.append isMiddle with
        ⟨rfl, passed, rest', split, linkedMiddle, closed⟩
      rw [← List.cons_append] at fromCell
      rcases linked_append.mp fromCell with ⟨r, -, atDirective⟩
      have isDirective := atDirective.1
      rw [isDirective] at atDirective
      rcases closed with ⟨last, later, rfl, isEof⟩ | closed
      · rcases last with ⟨address', token'⟩
        have atLast := linkedMiddle
        rcases atLast with ⟨rfl, next', found', -⟩
        cases more with
        | zero => cases ranMiddle
        | succ more =>
            rw [skipCondIncl_eof found' isEof] at ranMiddle
            cases ranMiddle
            have same := linkedMiddle.unique atDirective
            rw [← (List.cons_eq_cons.mp same).1, isEof] at ends
            cases ends
      · rw [← List.cons_append] at split
        have fromCell' := separated.append
        rw [split] at fromCell'
        rcases skipCondIncl_passes linkedMiddle fromCell'.append ranMiddle with
          ⟨rfl, passed', rest'', rfl, linkedEnd, -⟩
        have notInside : ∀ more, (address, token) :: rest ≠ passed ++ more := by
          intro more isGroup
          rw [isGroup, kinds_append] at nested
          have balance := opened_of_wellNested nested
          rw [closed] at balance
          simp at balance
        rcases List.append_eq_append_iff.mp split with ⟨later, isPassed, isBehind⟩ |
          ⟨later, isGroup, -⟩
        · cases later with
          | nil =>
              rw [List.append_nil] at isPassed
              exact notInside [] (by rw [isPassed, List.append_nil])
          | cons first later =>
              rcases List.cons_eq_cons.mp isBehind with ⟨rfl, isBehind⟩
              have same := congrArg List.length (linkedEnd.unique atDirective)
              rw [isBehind] at same
              simp at same
              omega
        · exact notInside later isGroup

/-- Skipping a group stops at the directive of the same level that ends it just when
there is no chain inside the group. -/
theorem ppSkipCondIncl_iff (bounded : w.heap.Bounded)
    (linked : Linked w.heap p (cells ++ directive :: behind) .null)
    (separated : Separated (kinds (cells ++ directive :: behind)))
    (nested : wellNested [] (kinds cells) = true) (ends : directive.2.kind.endsGroup = true) :
    ppSkipCondIncl p w = .ok (.cell directive.1, w) ↔ Flat cells := by
  constructor
  · intro ran
    by_contra notFlat
    exact skipCondIncl_ne linked separated nested ends notFlat ran
  · exact ppSkipCondIncl_flat bounded linked nested ends

end Group

end Skipping

/-! ## The loop over a list -/

section Directives

variable {lexFile : String → Except Failure (List Token)} {expand : Expand} {ctx : Context}
  {fuel : Nat} {tk tk' cur cur' : Ptr} {ci : List CondIncl} {token : Token} {w w' : World}

/-- The value of the expression of `#if` and `#elif`. -/
theorem condition_expr {kind : TokenKind} {included : Bool}
    (isExpr : kind = .cppdIf ∨ kind = .cppdElif)
    (ran : condition expand fuel kind tk w = .ok ((tk', included), w')) :
    ∃ value, ppReadConstantExpr expand fuel tk w = .ok ((tk', value), w') ∧
      value.truth = included := by
  rcases isExpr with rfl | rfl
  all_goals
    rcases Run.bind_eq_ok_iff.mp ran with ⟨⟨behind, value⟩, w₁, isValue, ⟨⟩⟩
    exact ⟨value, isValue, rfl⟩

/-- `#ifdef` and `#ifndef` on a condition that holds, and on one that does not. -/
theorem conditional_of_named {wanted included : Bool}
    (ran : namedCondition wanted tk w = .ok ((tk', included), w')) :
    (included = true → Internal.conditional ⟨tk, cur, ci⟩ wanted w =
        .ok (⟨tk', cur, ⟨.ifThen, tk, true⟩ :: ci⟩, w')) ∧
      (included = false → ∀ q, ppSkipCondIncl tk' w' = .ok (q, w') →
        Internal.conditional ⟨tk, cur, ci⟩ wanted w =
          .ok (⟨q, cur, ⟨.ifThen, tk, false⟩ :: ci⟩, w')) := by
  rcases Run.bind_eq_ok_iff.mp ran with ⟨behind, w₁, isName, ranName⟩
  rcases Run.bind_eq_ok_iff.mp ranName with ⟨name, w₂, isToken, ranToken⟩
  rcases Run.bind_eq_ok_iff.mp ranToken with ⟨defined_, w₃, isDefined, ranDefined⟩
  rw [Internal.conditional, Run.bind_ok isName, Run.bind_ok isToken, Run.bind_ok isDefined]
  cases holds : defined_ == wanted with
  | true =>
      rw [holds, if_pos rfl] at ranDefined
      rcases Run.bind_eq_ok_iff.mp ranDefined with ⟨line, w₄, isLine, ⟨⟩⟩
      constructor
      · intro _
        simp only [if_true]
        rw [Run.bind_ok isLine]
        rfl
      · rintro ⟨⟩
  | false =>
      rw [holds, if_neg Bool.false_ne_true] at ranDefined
      cases ranDefined
      constructor
      · rintro ⟨⟩
      · intro _ q skips
        simp only [Bool.false_eq_true, if_false]
        rw [Run.bind_ok skips]
        rfl

/-- Text does not depend on the open conditions. -/
theorem process_text (plain : token.kind.isConditional = false)
    (ran : Internal.process lexFile expand ctx fuel ⟨tk, cur, []⟩ token w =
      .ok (⟨tk', cur', []⟩, w')) :
    Internal.process lexFile expand ctx fuel ⟨tk, cur, ci⟩ token w =
      .ok (⟨tk', cur', ci⟩, w') := by
  rw [process_conditions plain, map_eq_pure_bind, Run.bind_ok ran]
  rfl

/-- A directive that opens a chain. -/
theorem process_opens {included : Bool} (opens : token.kind.opensCondition = true)
    (ran : condition expand fuel token.kind tk w = .ok ((tk', included), w')) :
    (included = true → Internal.process lexFile expand ctx fuel ⟨tk, cur, ci⟩ token w =
        .ok (⟨tk', cur, ⟨.ifThen, tk, true⟩ :: ci⟩, w')) ∧
      (included = false → ∀ q, ppSkipCondIncl tk' w' = .ok (q, w') →
        Internal.process lexFile expand ctx fuel ⟨tk, cur, ci⟩ token w =
          .ok (⟨q, cur, ⟨.ifThen, tk, false⟩ :: ci⟩, w')) := by
  rw [Internal.process]
  cases isKind : token.kind <;> rw [isKind] at opens ran
  case cppdIf =>
    rcases condition_expr (.inl rfl) ran with ⟨value, isValue, rfl⟩
    simp only [Internal.cppdIf]
    rw [Run.bind_ok isValue]
    constructor
    · intro held
      simp only [held, if_true]
      rfl
    · intro notHeld q skips
      simp only [notHeld, Bool.false_eq_true, if_false]
      rw [Run.bind_ok skips]
      rfl
  case cppdIfdef_ => exact conditional_of_named ran
  case cppdIfndef_ => exact conditional_of_named ran
  all_goals cases opens

variable {top : CondIncl}

/-- `#elif` in a chain no group of which has been kept. -/
theorem process_elif {included : Bool} (isElif : token.kind = .cppdElif)
    (notElse : top.ctx ≠ .elseThen)
    (ran : condition expand fuel .cppdElif tk w = .ok ((tk', included), w')) :
    (top.included = false → included = true →
        Internal.process lexFile expand ctx fuel ⟨tk, cur, top :: ci⟩ token w =
          .ok (⟨tk', cur, { top with ctx := .elifThen, included := true } :: ci⟩, w')) ∧
      (top.included = true ∨ included = false → ∀ q, ppSkipCondIncl tk' w' = .ok (q, w') →
        Internal.process lexFile expand ctx fuel ⟨tk, cur, top :: ci⟩ token w =
          .ok (⟨q, cur, { top with ctx := .elifThen } :: ci⟩, w')) := by
  rcases condition_expr (.inr rfl) ran with ⟨value, isValue, rfl⟩
  simp only [Internal.process, isElif, Internal.cppdElif, if_neg notElse]
  rw [Run.bind_ok isValue]
  constructor
  · intro notFound held
    simp only [notFound, held, Bool.not_false, Bool.and_true, if_true]
    rfl
  · intro passed q skips
    have isPassed : (!top.included && value.truth) = false := by
      rcases passed with found | notHeld
      · rw [found]
        rfl
      · rw [notHeld, Bool.and_false]
    simp only [isPassed, Bool.false_eq_true, if_false]
    rw [Run.bind_ok skips]
    rfl

/-- `#else`. -/
theorem process_else (isElse : token.kind = .cppdElse) (notElse : top.ctx ≠ .elseThen)
    (ran : ppLexExpectToken tk .newline true w = .ok (tk', w)) :
    (top.included = false →
        Internal.process lexFile expand ctx fuel ⟨tk, cur, top :: ci⟩ token w =
          .ok (⟨tk', cur, { top with ctx := .elseThen } :: ci⟩, w)) ∧
      (top.included = true → ∀ q, ppSkipCondIncl tk' w = .ok (q, w) →
        Internal.process lexFile expand ctx fuel ⟨tk, cur, top :: ci⟩ token w =
          .ok (⟨q, cur, { top with ctx := .elseThen } :: ci⟩, w)) := by
  simp only [Internal.process, isElse, Internal.cppdElse, if_neg notElse]
  rw [Run.bind_ok ran]
  constructor
  · intro notFound
    simp only [notFound, Bool.false_eq_true, if_false]
    rfl
  · intro found q skips
    simp only [found, if_true]
    rw [Run.bind_ok skips]
    rfl

/-- `#endif`. -/
theorem process_endif (isEndif : token.kind = .cppdEndif)
    (ran : ppLexExpectToken tk .newline true w = .ok (tk', w)) :
    Internal.process lexFile expand ctx fuel ⟨tk, cur, top :: ci⟩ token w =
      .ok (⟨tk', cur, ci⟩, w) := by
  simp only [Internal.process, isEndif, Internal.cppdEndif]
  rw [Run.bind_ok ran]
  rfl

end Directives

section Run

variable {lexFile : String → Except Failure (List Token)} {expand : Expand} {ctx : Context}
  {fuel : Nat}

/-- The open conditions before a part and behind it. -/
def Part.Agrees (part : Part) (ci ci' : List CondIncl) : Prop :=
  match part with
  | .group => ci = ci'
  | .searching => ∃ top, ci = top :: ci' ∧ top.ctx ≠ .elseThen ∧ top.included = false
  | .found => ∃ top, ci = top :: ci' ∧ top.ctx ≠ .elseThen ∧ top.included = true
  | .last => ∃ top, ci = top :: ci'

theorem Part.Agrees.open {part : Part} {ci ci' : List CondIncl} (agrees : part.Agrees ci ci')
    (notGroup : part ≠ .group) : ∃ top, ci = top :: ci' := by
  cases part with
  | group => exact absurd rfl notGroup
  | searching =>
      rcases agrees with ⟨top, isTop, -⟩
      exact ⟨top, isTop⟩
  | found =>
      rcases agrees with ⟨top, isTop, -⟩
      exact ⟨top, isTop⟩
  | last => exact agrees

/-- An iteration of the loop. -/
theorem scan_step {p : Place} {token : Token} {ci : List CondIncl} {rounds : Nat}
    (isToken : p.token = some token) {s : Scan} {w : World}
    (ran : Internal.process lexFile expand ctx fuel ⟨p.tk, p.cur, ci⟩ token p.w = .ok (s, w)) :
    Internal.scan lexFile expand ctx fuel (rounds + 1) ⟨p.tk, p.cur, ci⟩ p.w =
      Internal.scan lexFile expand ctx fuel rounds s w := by
  rcases p with ⟨tk, cur, w₀⟩
  simp only [Place.token] at isToken
  cases tk with
  | null => cases isToken
  | wild => cases isToken
  | cell address =>
      cases found : w₀.heap.cells address with
      | dead => simp [Heap.get, found] at isToken
      | live token' next =>
          simp only [Heap.get, found, Option.map_some, Option.some.injEq] at isToken
          subst isToken
          rw [Internal.scan, if_neg (by simp), Run.bind_ok (readToken_live found),
            Run.bind_ok ran]

/-- Dropping a group without a chain inside is skipping it. -/
theorem Dropped.skips {p p' : Place} (dropped : Dropped Flat p p') :
    ppSkipCondIncl p.tk p.w = .ok (p'.tk, p.w) ∧ p' = ⟨p'.tk, p.cur, p.w⟩ := by
  rcases dropped with ⟨cells, directive, behind, bounded, linked, nested, ends, flat, rfl⟩
  exact ⟨ppSkipCondIncl_flat bounded linked nested ends flat, rfl⟩

/-- The loop goes where C goes. By induction on what is kept, one case for each way to go
on; the open conditions say which part of a chain is ahead. -/
theorem scan_keeps {part : Part} {n : Nat} {p p' : Place}
    (keeps : Keeps lexFile expand ctx fuel Flat part n p p') {ci ci' : List CondIncl}
    (agrees : part.Agrees ci ci') (more : Nat) :
    Internal.scan lexFile expand ctx fuel (n + more) ⟨p.tk, p.cur, ci⟩ p.w =
      Internal.scan lexFile expand ctx fuel more ⟨p'.tk, p'.cur, ci'⟩ p'.w := by
  induction keeps generalizing ci ci' more with
  | nil p =>
      cases agrees
      rw [Nat.zero_add]
  | text isToken plain ran rest inductionHypothesis =>
      cases agrees
      rw [Nat.add_right_comm, scan_step isToken (process_text plain ran)]
      exact inductionHypothesis rfl more
  | taken isToken opens isCondition kept chain rest ihKept ihChain ihRest =>
      cases agrees
      rw [Nat.add_right_comm, scan_step isToken ((process_opens opens isCondition).1 rfl),
        Nat.add_assoc, Nat.add_assoc]
      rw [ihKept rfl, ihChain ⟨_, rfl, CondKind.noConfusion, rfl⟩]
      exact ihRest rfl more
  | passed isToken opens isCondition dropped chain rest ihChain ihRest =>
      cases agrees
      rcases dropped.skips with ⟨skips, isPlace⟩
      rw [Nat.add_right_comm, scan_step isToken ((process_opens opens isCondition).2 rfl _ skips),
        Nat.add_assoc]
      rw [isPlace] at ihChain
      rw [ihChain ⟨_, rfl, CondKind.noConfusion, rfl⟩]
      exact ihRest rfl more
  | elifTaken isToken isElif isCondition kept chain ihKept ihChain =>
      rcases agrees with ⟨top, rfl, notElse, notFound⟩
      rw [Nat.add_right_comm,
        scan_step isToken ((process_elif isElif notElse isCondition).1 notFound rfl), Nat.add_assoc]
      rw [ihKept rfl]
      exact ihChain ⟨_, rfl, CondKind.noConfusion, rfl⟩ more
  | elifPassed isToken isElif isCondition dropped chain ihChain =>
      rcases agrees with ⟨top, rfl, notElse, notFound⟩
      rcases dropped.skips with ⟨skips, isPlace⟩
      rw [Nat.add_right_comm,
        scan_step isToken ((process_elif isElif notElse isCondition).2 (.inr rfl) _ skips)]
      rw [isPlace] at ihChain
      exact ihChain ⟨{ top with ctx := .elifThen }, rfl, CondKind.noConfusion, notFound⟩ more
  | elseTaken isToken isElse line kept chain ihKept ihChain =>
      rcases agrees with ⟨top, rfl, notElse, notFound⟩
      rw [Nat.add_right_comm,
        scan_step isToken ((process_else isElse notElse line).1 notFound), Nat.add_assoc]
      rw [ihKept rfl]
      exact ihChain ⟨_, rfl⟩ more
  | elifDropped isToken isElif isCondition dropped chain ihChain =>
      rcases agrees with ⟨top, rfl, notElse, found⟩
      rcases dropped.skips with ⟨skips, isPlace⟩
      rw [Nat.add_right_comm,
        scan_step isToken ((process_elif isElif notElse isCondition).2 (.inl found) _ skips)]
      rw [isPlace] at ihChain
      exact ihChain ⟨{ top with ctx := .elifThen }, rfl, CondKind.noConfusion, found⟩ more
  | elseDropped isToken isElse line dropped chain ihChain =>
      rcases agrees with ⟨top, rfl, notElse, found⟩
      rcases dropped.skips with ⟨skips, isPlace⟩
      rw [Nat.add_right_comm, scan_step isToken
        ((process_else isElse notElse line).2 found _ skips)]
      rw [isPlace] at ihChain
      exact ihChain ⟨_, rfl⟩ more
  | endif notGroup isToken isEndif line =>
      rcases agrees.open notGroup with ⟨top, rfl⟩
      rw [Nat.add_comm, scan_step isToken (process_endif isEndif line)]

/-- The end of a call whose list is at `head`. -/
def finish (head : Nat) (cur : Ptr) : Run (Ptr × Ptr) := do
  let list ← readNext (.cell head)
  Internal.logReturn head cur
  endLocal head
  pure (list, cur)

/-- The memory of a call that has begun. -/
def World.started (w : World) : World :=
  w.withHeap (w.heap.alloc ⟨.start, "", synthBuiltInLoc⟩ .wild)

end Run

/-! ## Two files -/

/-- A group that is dropped. -/
def droppedText : List Token :=
  [lineToken .cppdIfdef_ "", lineToken .identifier "X", lineToken .newline "",
    lineToken .cppdEndif "", lineToken .newline "", lineToken .eof ""]

/-- A group that is dropped with a chain inside. -/
def nestedGroupText : List Token :=
  [lineToken .cppdIfdef_ "", lineToken .identifier "X", lineToken .newline "",
    lineToken .cppdIfdef_ "", lineToken .identifier "Y", lineToken .newline "",
    lineToken .cppdEndif "", lineToken .newline "", lineToken .cppdEndif "",
    lineToken .newline "", lineToken .eof ""]

end Shecc.Preprocessor
