import Shecc.Parser.Declaration
import Shecc.Parser.Numeric

/-!
# The buffers literals are copied to

`lex_peek` and `lex_ident` copy the literal of a token into a buffer of the caller with `strcpy`.
The lexer makes literals of up to `MAX_TOKEN_LEN - 1` characters, so a call is safe for every
source text exactly if its buffer has `MAX_TOKEN_LEN` elements.
-/

namespace Shecc.Parser

open Shecc.Preprocessor (Token TokenKind SourceLocation Cursor maxTokenLen)
open Shecc.Lexer (skipUnusedToken lexFile)

/-- The functions that copy a literal. -/
inductive Copying
  | lexPeek | lexIdent
  deriving DecidableEq

/-- A call of one of them with a buffer: the function the call is in, the kind of the token and
the number of elements of the buffer. -/
structure CallSite where
  function : String
  copying : Copying
  kind : TokenKind
  size : Nat
  deriving DecidableEq

/-- The calls of the parser; calls of one function that agree are listed once. -/
def callSites : List CallSite :=
  [⟨"parse_global_constant_value", .lexIdent, .numeric, maxIdLen⟩,
    ⟨"parse_global_constant_value", .lexIdent, .char, maxTokenLen⟩,
    ⟨"handle_goto_statement", .lexPeek, .identifier, maxIdLen⟩,
    ⟨"read_inner_var_decl", .lexIdent, .identifier, maxVarLen⟩,
    ⟨"read_inner_var_decl", .lexPeek, .numeric, 10⟩,
    ⟨"read_full_var_decl", .lexIdent, .identifier, maxTypeLen⟩,
    ⟨"read_parameter_list_decl", .lexPeek, .identifier, maxTypeLen⟩,
    ⟨"read_literal_param", .lexIdent, .string, maxTokenLen⟩,
    ⟨"read_numeric_param", .lexIdent, .numeric, maxIdLen⟩,
    ⟨"read_char_param", .lexIdent, .char, maxTokenLen⟩,
    ⟨"handle_address_of_operator", .lexPeek, .identifier, maxVarLen⟩,
    ⟨"handle_single_dereference", .lexPeek, .identifier, maxVarLen⟩,
    ⟨"handle_multiple_dereference", .lexPeek, .identifier, maxVarLen⟩,
    ⟨"handle_sizeof_operator", .lexPeek, .identifier, maxTypeLen⟩,
    ⟨"read_expr_operand", .lexPeek, .identifier, maxTypeLen⟩,
    ⟨"read_expr_operand", .lexIdent, .numeric, 10⟩,
    ⟨"read_expr_operand", .lexPeek, .identifier, maxIdLen⟩,
    ⟨"read_lvalue", .lexIdent, .identifier, maxIdLen⟩,
    ⟨"read_primary_constant", .lexPeek, .numeric, maxTokenLen⟩,
    ⟨"read_primary_constant", .lexPeek, .char, maxTokenLen⟩,
    ⟨"read_body_statement", .lexPeek, .numeric, maxIdLen⟩,
    ⟨"read_body_statement", .lexPeek, .char, maxIdLen⟩,
    ⟨"read_body_statement", .lexPeek, .identifier, maxIdLen⟩,
    ⟨"read_body_statement", .lexIdent, .identifier, maxIdLen⟩,
    ⟨"read_body_statement", .lexPeek, .identifier, maxTokenLen⟩,
    ⟨"read_global_statement", .lexIdent, .identifier, maxIdLen⟩,
    ⟨"read_global_statement", .lexIdent, .numeric, maxIdLen⟩,
    ⟨"read_global_statement", .lexPeek, .identifier, maxIdLen⟩,
    ⟨"read_global_statement", .lexIdent, .identifier, maxTypeLen⟩]

/-- What the call does. -/
def CallSite.copy (ctx : Context) (site : CallSite) : Parse Unit :=
  match site.copying with
  | .lexPeek => do
      let _ ← lexPeekInto ctx site.kind site.size
      pure ()
  | .lexIdent => do
      let _ ← lexIdent site.kind site.size
      pure ()

/-- For every source text, wherever the parser is in its tokens, the literal fits. -/
def CallSite.Fits (site : CallSite) : Prop :=
  ∀ fuel filename elements tokens, lexFile fuel filename elements = .ok tokens →
    ∀ (ctx : Context) (p : Parsing), p.cur.tk :: p.cur.next <:+ tokens →
      site.copy ctx p ≠ .error .outOfBounds

variable {ctx : Context} {p : Parsing} {site : CallSite} {next : Token} {rest tokens : List Token}

/-! ## One call -/

/-- The tokens that are skipped are in front of the rest. -/
theorem skipUnusedToken_suffix (tk : Token) (next : List Token) :
    (skipUnusedToken tk next).tk :: (skipUnusedToken tk next).next <:+ tk :: next := by
  induction next generalizing tk with
  | nil => exact List.suffix_rfl
  | cons token next inductionHypothesis =>
      rw [skipUnusedToken]
      split_ifs
      · exact (inductionHypothesis token).trans (List.suffix_cons _ _)
      · exact List.suffix_rfl

theorem ahead_suffix (inside : p.cur.tk :: p.cur.next <:+ tokens) :
    p.ahead.tk :: p.ahead.next <:+ tokens :=
  (skipUnusedToken_suffix _ _).trans inside

/-- The current token behind the next one is a token. -/
theorem behind_mem (inside : p.cur.tk :: p.cur.next <:+ tokens) : p.behind.tk ∈ tokens := by
  have ahead := ahead_suffix inside
  rw [Parsing.behind]
  split
  · exact ahead.mem List.mem_cons_self
  · rename_i next rest isNext
    split_ifs
    · exact ahead.mem List.mem_cons_self
    · exact ahead.mem (isNext ▸ List.mem_cons_of_mem _ List.mem_cons_self)

/-- What is not skipped stays. -/
theorem skipUnusedToken_idem (tk : Token) (next : List Token) :
    skipUnusedToken (skipUnusedToken tk next).tk (skipUnusedToken tk next).next =
      skipUnusedToken tk next := by
  induction next generalizing tk with
  | nil => rfl
  | cons token next inductionHypothesis =>
      rw [skipUnusedToken]
      split_ifs with unused
      · exact inductionHypothesis token
      · dsimp only
        rw [skipUnusedToken, if_neg unused]

theorem ahead_move_ahead (p : Parsing) : (p.move p.ahead).ahead = p.ahead :=
  skipUnusedToken_idem _ _

theorem lexPeekInto_ahead (ctx : Context) (ahead : p.ahead.next = next :: rest) {kind : TokenKind}
    (isKind : next.kind = kind) (size : Nat) :
    lexPeekInto ctx kind size p =
      if next.literal.length < size then .ok ((next.literal, true), p.move p.ahead)
      else .error .outOfBounds := by
  have peeks : lexPeek kind p = .ok (true, p.move p.ahead) := by
    rw [lexPeek, Parsing.peek, ahead, ← isKind]
    simp
  have isNext : (p.move p.ahead).ahead.next.head? = some next := by
    rw [ahead_move_ahead, ahead]
    rfl
  unfold lexPeekInto
  rw [Parse.bind_ok peeks]
  rw [Parse.bind_ok (show (get : Parse Parsing) (p.move p.ahead) =
      .ok (_, p.move p.ahead) from rfl),
    if_pos rfl, isNext]
  rw [Parse.bind_ok (show Parse.deref (some next) (p.move p.ahead) = .ok (next, p.move p.ahead)
    from rfl)]
  by_cases short : next.literal.length < size
  · have copies : copyLiteral next.literal size (p.move p.ahead) =
        .ok (next.literal, p.move p.ahead) := by
      rw [copyLiteral, if_pos short]
      rfl
    rw [Parse.bind_ok copies, if_pos short]
    rfl
  · have copies : copyLiteral next.literal size (p.move p.ahead) = .error .outOfBounds := by
      rw [copyLiteral, if_neg short]
      rfl
    rw [Parse.bind_error copies, if_neg short]

/-- A call whose token comes next copies its literal, if it fits. -/
theorem copy_ahead (ctx : Context) (ahead : p.ahead.next = next :: rest)
    (notEnd : p.ahead.tk.kind ≠ .eof) (isKind : next.kind = site.kind) :
    ∃ q, site.copy ctx p =
      if next.literal.length < site.size then .ok ((), q) else .error .outOfBounds := by
  rw [CallSite.copy]
  cases site.copying with
  | lexPeek =>
      have peeks := lexPeekInto_ahead ctx ahead isKind site.size
      refine ⟨p.move p.ahead, ?_⟩
      split_ifs at peeks ⊢
      · exact Parse.bind_ok peeks
      · exact Parse.bind_error peeks
  | lexIdent =>
      have reads := @lexIdent_ahead p next rest site.kind site.size ahead notEnd isKind
      refine ⟨p.move p.behind, ?_⟩
      split_ifs at reads ⊢
      · exact Parse.bind_ok reads
      · exact Parse.bind_error reads

/-- So it leaves its buffer exactly if the literal is too long. -/
theorem copy_outOfBounds_iff (ctx : Context) (ahead : p.ahead.next = next :: rest)
    (notEnd : p.ahead.tk.kind ≠ .eof) (isKind : next.kind = site.kind) :
    site.copy ctx p = .error .outOfBounds ↔ site.size ≤ next.literal.length := by
  rcases copy_ahead ctx ahead notEnd isKind with ⟨q, copies⟩
  rw [copies]
  split_ifs with short
  · exact iff_of_false (by simp) (Nat.not_le.mpr short)
  · exact iff_of_true rfl (Nat.not_lt.mp short)

/-- Wherever the parser is in tokens with short literals, the call stays in its buffer. -/
theorem copy_fits (ctx : Context) (inside : p.cur.tk :: p.cur.next <:+ tokens)
    (short : ∀ token ∈ tokens, token.literal.length < site.size) :
    site.copy ctx p ≠ .error .outOfBounds := by
  by_cases found : p.peek = some site.kind
  · rcases Option.map_eq_some_iff.mp found with ⟨next, isHead, isKind⟩
    rcases List.head?_eq_some_iff.mp isHead with ⟨rest, isNext⟩
    have inNext : next ∈ tokens := by
      apply (ahead_suffix inside).mem
      rw [isNext]
      exact List.mem_cons_of_mem _ List.mem_cons_self
    rw [CallSite.copy]
    cases site.copying with
    | lexPeek =>
        have peeks := (lexPeekInto_ahead ctx isNext isKind site.size).trans
          (if_pos (short next inNext))
        dsimp only
        rw [show (_ >>= _ : Parse Unit) p = _ from Parse.bind_ok peeks]
        simp [Parse.pure_eq]
    | lexIdent =>
        have copies : lexIdent site.kind site.size p =
            .ok (p.behind.tk.literal, p.move p.behind) := by
          unfold lexIdent
          rw [Parse.bind_ok (show lexExpect site.kind p = _ from if_pos found)]
          exact (congrFun (if_pos (short _ (behind_mem inside))) (p.move p.behind) :
            copyLiteral p.behind.tk.literal site.size (p.move p.behind) = _)
        dsimp only
        rw [show (_ >>= _ : Parse Unit) p = _ from Parse.bind_ok copies]
        simp [Parse.pure_eq]
  · rw [CallSite.copy]
    cases site.copying with
    | lexPeek =>
        have peeks : lexPeek site.kind p = .ok (false, p.move p.ahead) := by
          rw [lexPeek, beq_eq_false_iff_ne.mpr found]
        have leaves : lexPeekInto ctx site.kind site.size p =
            .ok ((ctx.unwritten (p.move p.ahead).ahead.next, false), p.move p.ahead) :=
          Parse.bind_ok peeks
        dsimp only
        rw [show (_ >>= _ : Parse Unit) p = _ from Parse.bind_ok leaves]
        simp [Parse.pure_eq]
    | lexIdent =>
        have stops : lexExpect site.kind p = _ := if_neg found
        have stops' : lexIdent site.kind site.size p = _ := Parse.bind_error stops
        dsimp only
        rw [show (_ >>= _ : Parse Unit) p = _ from Parse.bind_error stops']
        simp

/-! ## Every call -/

/-- Tokens with literals that only a buffer of `MAX_TOKEN_LEN` elements holds. -/
def longTokens : List (TokenKind × List Char) :=
  [(.identifier, List.replicate maxVarLen 'a'), (.numeric, List.replicate maxVarLen '1'),
    (.char, '\'' :: '\\' :: List.replicate maxVarLen 'a' ++ ['\''])]

/-- The tokens start with a semicolon and a long token of the kind. -/
def startsLong (kind : TokenKind) : List Token → Bool
  | first :: next :: _ =>
      first.kind == .semicolon && next.kind == kind && !Lexer.isUnused kind &&
        decide (maxVarLen ≤ next.literal.length)
  | _ => false

/-- The lexer makes such tokens. -/
theorem longTokens_lexed : ∀ long ∈ longTokens,
    ((lexFile 4 "f" (';' :: long.2 ++ ['\x00'])).toOption.any (startsLong long.1)) = true := by
  decide +kernel

/-- A smaller buffer is for tokens that may be longer. -/
theorem callSites_small : ∀ site ∈ callSites, maxTokenLen ≤ site.size ∨
    site.size ≤ maxVarLen ∧ ∃ long ∈ longTokens, long.1 = site.kind := by
  decide

/-- A small buffer does not hold every literal. -/
theorem not_fits (small : site.size ≤ maxVarLen)
    (long : ∃ long ∈ longTokens, long.1 = site.kind) : ¬ site.Fits := by
  rcases long with ⟨⟨kind, text⟩, isLong, rfl⟩
  have lexed := longTokens_lexed _ isLong
  cases tokens : lexFile 4 "f" (';' :: text ++ ['\x00']) with
  | error failure =>
      rw [tokens] at lexed
      cases lexed
  | ok tokens' =>
      rw [tokens] at lexed
      rcases tokens' with _ | ⟨first, _ | ⟨next, rest⟩⟩
      · cases lexed
      · cases lexed
      · change startsLong _ (first :: next :: rest) = true at lexed
        simp only [startsLong, Bool.and_eq_true, beq_iff_eq, Bool.not_eq_true', decide_eq_true_eq]
          at lexed
        rcases lexed with ⟨⟨⟨isFirst, isKind⟩, used⟩, tooLong⟩
        intro fits
        let p := (beforeTokens {} [] []).move ⟨first, next :: rest⟩
        have ahead : p.ahead = ⟨first, next :: rest⟩ :=
          if_neg (by rw [isKind, used]; exact Bool.false_ne_true)
        have notEnd : p.ahead.tk.kind ≠ .eof := by
          rw [ahead, isFirst]
          decide
        have stays := fits 4 "f" _ _ tokens intContext p List.suffix_rfl
        exact stays ((copy_outOfBounds_iff intContext (by rw [ahead]) notEnd isKind).mpr
          (Nat.le_trans small tooLong))

/-- The declarator `a[0000000001]` is read beyond the buffer. -/
example : readInnerVarDecl intContext 4 0 false false (beforeTokens { type := some 0 } []
    [tokenOf .identifier "a", tokenOf .openSquare "[", tokenOf .numeric "0000000001",
      tokenOf .closeSquare "]", tokenOf .semicolon ";"]) = .error .outOfBounds := by
  rfl

end Shecc.Parser
