import Shecc.Lexer.Form
import Shecc.Parser.Array
import Shecc.Parser.Conditional

/-!
# Two readers of numbers

`read_numeric_param` and `parse_numeric_constant` read the same literals, each with loops of its
own. On every number of the lexer both compute its value, where the literal fits into the buffer
that `read_numeric_param` copies it to.
-/

namespace Shecc.Parser

open Shecc.Preprocessor (Token TokenKind Cursor digitOf numberOf parseNumericConstant
  parseNumericConstant_denotes mark_of_isDigit foldl_ofNat)
open Shecc.Lexer (isXDigit lexToken)

/-! ## Digits -/

section Digits

variable {c : Char} {value : Nat}

theorem charDigit_of_isDigit (isDigit : c.isDigit = true) :
    charDigit c = BitVec.ofNat 32 (digitOf c) := by
  have digits : ∀ n ≤ 57, 48 ≤ n →
      (BitVec.ofNat 8 n - 48).signExtend 32 = BitVec.ofNat 32 (n - 48) := by
    decide
  rw [digitOf, if_pos isDigit]
  simp only [Char.isDigit, Bool.and_eq_true, decide_eq_true_eq] at isDigit
  exact digits c.toNat isDigit.2 isDigit.1

theorem not_tooLarge (isDigit : c.isDigit = true) (notEight : c ≠ '8') (notNine : c ≠ '9') :
    ¬ c.toNat > 55 := by
  have notFiftySix : c.toNat ≠ 56 := fun same => notEight (Char.toNat_inj.mp same)
  have notFiftySeven : c.toNat ≠ 57 := fun same => notNine (Char.toNat_inj.mp same)
  simp only [Char.isDigit, Bool.and_eq_true, decide_eq_true_eq] at isDigit
  have bound : c.toNat ≤ 57 := isDigit.2
  omega

theorem hexDigit_denotes (isHex : c.isDigit = true ∨ 97 ≤ c.toNat ||| 32 ∧ c.toNat ||| 32 ≤ 102) :
    hexDigit c = some (BitVec.ofNat 32 (digitOf c)) := by
  rw [hexDigit]
  by_cases isDigit : c.isDigit = true
  · rw [if_pos isDigit, charDigit_of_isDigit isDigit]
  · have isLetter := isHex.resolve_left isDigit
    have same : (c.toNat ||| 32) - 87 = ((c.toNat ||| 32) - 97) + 10 := by omega
    rw [if_neg isDigit]
    dsimp only
    rw [if_pos isLetter, digitOf, if_neg isDigit, same, BitVec.ofNat_add]
    rfl

/-- A hexadecimal digit of the grammar is one to `isxdigit`. -/
theorem isXDigit_of_denotes
    (isHex : c.isDigit = true ∨ 97 ≤ c.toNat ||| 32 ∧ c.toNat ||| 32 ≤ 102) :
    isXDigit c = true := by
  have letters : ∀ n ≤ 102, 97 ≤ n ||| 32 ∧ n ||| 32 ≤ 102 → (97 ≤ n ∨ 65 ≤ n ∧ n ≤ 70) := by
    decide
  simp only [isXDigit, Bool.or_eq_true, Bool.and_eq_true, decide_eq_true_eq]
  rcases isHex with isDigit | isLetter
  · exact .inl (.inl isDigit)
  · have small : c.toNat ≤ 102 := Nat.le_trans Nat.left_le_or isLetter.2
    rcases letters c.toNat small isLetter with low | ⟨low, high⟩
    · exact .inl (.inr ⟨low, small⟩)
    · exact .inr ⟨low, high⟩

/-- The loop over digits reads them all. -/
theorem readDigits_ofNat {base : Nat} {digit : Char → Option Word} {more : Char → Bool}
    {digits : List Char} (nonempty : digits ≠ [])
    (all : ∀ c ∈ digits, digit c = some (BitVec.ofNat 32 (digitOf c)) ∧ more c = true)
    (value : Nat) :
    readDigits (BitVec.ofNat 32 base) digit more (BitVec.ofNat 32 value) digits =
      some (BitVec.ofNat 32 (digits.foldl (fun value c => value * base + digitOf c) value)) := by
  induction digits generalizing value with
  | nil => cases nonempty rfl
  | cons c digits inductionHypothesis =>
      rw [List.forall_mem_cons] at all
      have round : BitVec.ofNat 32 value * BitVec.ofNat 32 base + BitVec.ofNat 32 (digitOf c) =
          BitVec.ofNat 32 (value * base + digitOf c) := by
        rw [BitVec.ofNat_add, BitVec.ofNat_mul]
      rw [readDigits, all.1.1]
      cases digits with
      | nil => exact congrArg some round
      | cons next digits =>
          dsimp only
          rw [if_pos (all.2 next List.mem_cons_self).2, round]
          exact inductionHypothesis (List.cons_ne_nil _ _) all.2 _

/-- `read_numeric_param` computes the value of a literal, modulo the size of a word. -/
theorem numericValue_denotes {text : List Char} (denotes : Preprocessor.Denotes text value) :
    numericValue text = .ok (BitVec.ofNat 32 value) := by
  cases denotes with
  | @decimal first rest notZero areDigits =>
      have digits := @readDigits_ofNat 10 (fun c => some (charDigit c)) (·.isDigit) (first :: rest)
        (List.cons_ne_nil _ _)
        (fun c inText => ⟨congrArg some (charDigit_of_isDigit (areDigits c inText)),
          areDigits c inText⟩) 0
      unfold numericValue
      split
      · rename_i isText
        exact absurd (List.cons.inj isText).1 notZero
      · rename_i isText
        exact absurd (List.cons.inj isText).1 notZero
      · rename_i isText
        cases isText
        cases areDigits _ List.mem_cons_self
      · dsimp only
        rw [show readDigits 10 _ _ 0 (first :: rest) = _ from digits]
        rfl
  | @octal rest areDigits =>
      have all : ∀ c ∈ '0' :: rest, c.isDigit = true ∧ ¬ c.toNat > 55 := by
        rw [List.forall_mem_cons]
        refine ⟨by decide, fun c inRest => ?_⟩
        rcases areDigits c inRest with ⟨isDigit, notEight, notNine⟩
        exact ⟨isDigit, not_tooLarge isDigit notEight notNine⟩
      have digits := @readDigits_ofNat 8
        (fun c => if c.toNat > 55 then none else some (charDigit c)) (·.isDigit) ('0' :: rest)
        (List.cons_ne_nil _ _)
        (fun c inText => ⟨(if_neg (all c inText).2).trans
          (congrArg some (charDigit_of_isDigit (all c inText).1)), (all c inText).1⟩) 0
      cases rest with
      | nil => rfl
      | cons mark rest =>
          have notMark := mark_of_isDigit (areDigits mark List.mem_cons_self).1
          rw [numericValue]
          dsimp only
          rw [if_neg notMark.1, if_neg notMark.2,
            show readDigits 8 _ _ 0 ('0' :: mark :: rest) = _ from digits]
          rfl
  | @hexadecimal mark rest isMark notEmpty areDigits =>
      have lower : mark.toNat ||| 32 = 120 := by
        rcases isMark with rfl | rfl <;> decide
      have digits := @readDigits_ofNat 16 hexDigit isXDigit rest notEmpty
        (fun c inRest => ⟨hexDigit_denotes (areDigits c inRest),
          isXDigit_of_denotes (areDigits c inRest)⟩) 0
      rw [numericValue]
      dsimp only
      rw [if_pos lower, show readDigits 16 _ _ 0 rest = _ from digits]
      rfl
  | @binary mark rest isMark notEmpty areDigits =>
      have lower : mark.toNat ||| 32 = 98 := by
        rcases isMark with rfl | rfl <;> decide
      have digits := @readDigits_ofNat 2
        (fun c => if c = '0' ∨ c = '1' then some (charDigit c) else none)
        (fun c => c == '0' || c == '1') rest notEmpty
        (fun c inRest => by
          rcases areDigits c inRest with rfl | rfl
          · exact ⟨rfl, rfl⟩
          · exact ⟨rfl, rfl⟩) 0
      rw [numericValue]
      dsimp only
      rw [if_neg (by rw [lower]; decide), if_pos lower,
        show readDigits 2 _ _ 0 rest = _ from digits]
      rfl

end Digits

/-! ## The readers -/

/-- Both readers compute the value, the one that is told the sign with it: `token` comes next,
and no diagnostic stops the parser. -/
def NumbersAgree (ctx : Context) (isNeg : Bool) (p : Parsing) (token : Token) (value : Word) :
    Prop :=
  parseNumericConstant token.literal = value ∧
    readNumericParam ctx isNeg p =
      .ok ((), (p.move p.behind).load ctx (if isNeg then -value else value))

section Readers

variable {ctx : Context} {p : Parsing} {token : Token} {rest : List Token} {kind : TokenKind}
  {value : Nat} {size : Nat}

/-- `lex_ident` copies the next token, if it fits. -/
theorem lexIdent_ahead (ahead : p.ahead.next = token :: rest) (notEnd : p.ahead.tk.kind ≠ .eof)
    (isKind : token.kind = kind) :
    lexIdent kind size p = if token.literal.length < size then .ok (token.literal, p.move p.behind)
      else .error .outOfBounds := by
  have behind : p.behind = ⟨token, rest⟩ := by
    rw [Parsing.behind, ahead]
    exact if_neg notEnd
  have expects : lexExpect kind p = .ok ((), p.move p.behind) := by
    rw [lexExpect, Parsing.peek, ahead]
    exact if_pos (congrArg some isKind)
  unfold lexIdent
  rw [Parse.bind_ok expects]
  change copyLiteral p.behind.tk.literal size (p.move p.behind) = _
  rw [behind, copyLiteral]
  split_ifs <;> rfl

/-- A literal has no sign. -/
theorem head_ne_minus {text : List Char} (denotes : Preprocessor.Denotes text value) :
    text.head? ≠ some '-' := by
  cases denotes with
  | decimal notZero areDigits =>
      rintro ⟨⟩
      cases areDigits _ List.mem_cons_self
  | octal areDigits => simp
  | hexadecimal isMark nonempty areDigits => simp
  | binary isMark nonempty areDigits => simp

/-- `opstack_push` needs an element of the operand stack. -/
theorem pushConstant_ok_iff (value : Word) :
    pushConstant ctx value p = .ok ((), p.load ctx value) ↔
      p.operandStack.length < maxOperandStackSize := by
  constructor
  · intro ran
    by_contra full
    unfold pushConstant at ran
    rw [Parse.bind_ok (newConstant_eq ctx value p)] at ran
    rcases Parse.bind_eq_ok_iff.mp ran with ⟨⟨⟩, pushed, ranPush, -⟩
    rw [opstackPush] at ranPush
    cases (if_neg full).symm.trans ranPush
  · exact pushConstant_eq ctx value

theorem readNumericParam_iff (denotes : Preprocessor.Denotes token.literal.toList value)
    (isNumeric : token.kind = .numeric) (ahead : p.ahead.next = token :: rest)
    (notEnd : p.ahead.tk.kind ≠ .eof) (isNeg : Bool) :
    readNumericParam ctx isNeg p = .ok ((), (p.move p.behind).load ctx
        (if isNeg then -BitVec.ofNat 32 value else BitVec.ofNat 32 value)) ↔
      token.literal.length < maxIdLen ∧ p.operandStack.length < maxOperandStackSize := by
  have copies := @lexIdent_ahead p token rest .numeric maxIdLen ahead notEnd isNumeric
  unfold readNumericParam
  by_cases fits : token.literal.length < maxIdLen
  · rw [if_pos fits] at copies
    rw [Parse.bind_ok copies, if_neg (head_ne_minus denotes), numericValue_denotes denotes,
      and_iff_right fits]
    exact pushConstant_ok_iff _
  · rw [if_neg fits] at copies
    rw [Parse.bind_error copies]
    exact iff_of_false (by simp) fun both => fits both.1

end Readers

/-- For every number of the lexer `parse_numeric_constant` computes its value modulo the size of a
word, and `read_numeric_param` loads it or its negation, if the literal with its NUL fits into
`MAX_ID_LEN` characters and the operand stack has an element left. -/
theorem numbersAgree_iff {fuel : Nat} {s s' : Lexer.State} {token : Token}
    (lexed : lexToken fuel s = .ok (token, s')) (isNumeric : token.kind = .numeric) :
    ∃ value, Preprocessor.Denotes token.literal.toList value ∧
      ∀ (ctx : Context) (isNeg : Bool) (p : Parsing) (rest : List Token),
        p.ahead.next = token :: rest → p.ahead.tk.kind ≠ .eof →
          (NumbersAgree ctx isNeg p token (BitVec.ofNat 32 value) ↔
            token.literal.length < maxIdLen ∧ p.operandStack.length < maxOperandStackSize) := by
  rcases (Lexer.lexToken_forms fuel s s' token lexed).numeric isNumeric with ⟨value, denotes⟩
  refine ⟨value, denotes, fun ctx isNeg p rest ahead notEnd => ?_⟩
  rw [NumbersAgree, and_iff_right (parseNumericConstant_denotes denotes)]
  exact readNumericParam_iff denotes isNumeric ahead notEnd isNeg

/-- The lexer reads a hexadecimal number. -/
theorem hexadecimal_agrees : ∃ value, Preprocessor.Denotes "0x1F".toList value ∧
    ∀ (ctx : Context) (isNeg : Bool) (p : Parsing) (rest : List Token),
      p.ahead.next = ⟨.numeric, "0x1F", ⟨0, 4, 1, 1, "f"⟩⟩ :: rest → p.ahead.tk.kind ≠ .eof →
        (NumbersAgree ctx isNeg p ⟨.numeric, "0x1F", ⟨0, 4, 1, 1, "f"⟩⟩ (BitVec.ofNat 32 value) ↔
          "0x1F".length < maxIdLen ∧ p.operandStack.length < maxOperandStackSize) :=
  numbersAgree_iff (show lexToken 1 (Lexer.start "f" "0x1F;\x00".toList) = .ok
    (_, ⟨⟨"0x1F;\x00".toList, 4⟩, ⟨0, 1, 1, 5, "f"⟩⟩) by rfl) rfl

/-- The characters of a decimal number of as many digits as the buffer has elements. -/
def longNumber : List Char := List.replicate maxIdLen '1'

/-- The lexer reads it, but its NUL is written behind the buffer of `read_numeric_param`. -/
theorem longNumber_disagrees : ¬ ∀ (fuel : Nat) (s s' : Lexer.State) (token : Token),
    lexToken fuel s = .ok (token, s') → token.kind = .numeric →
      ∃ value, Preprocessor.Denotes token.literal.toList value ∧
        ∀ (ctx : Context) (isNeg : Bool) (p : Parsing) (rest : List Token),
          p.ahead.next = token :: rest → p.ahead.tk.kind ≠ .eof →
            p.operandStack.length < maxOperandStackSize →
              NumbersAgree ctx isNeg p token (BitVec.ofNat 32 value) := by
  intro agree
  have lexed : lexToken 1 (Lexer.start "f" (longNumber ++ ['\x00'])) =
      .ok (⟨.numeric, String.ofList longNumber, ⟨0, 64, 1, 1, "f"⟩⟩,
        ⟨⟨longNumber ++ ['\x00'], 64⟩, ⟨0, 1, 1, 65, "f"⟩⟩) := by
    decide +kernel
  rcases agree _ _ _ _ lexed rfl with ⟨value, denotes, agrees⟩
  have read := (agrees intContext false (beforeTokens {} [] [⟨.numeric, String.ofList longNumber,
    ⟨0, 64, 1, 1, "f"⟩⟩]) [] rfl (by decide) (by decide)).2
  have short := ((readNumericParam_iff denotes rfl rfl (by decide) false).mp read).1
  rw [String.length_ofList] at short
  exact absurd short (by decide)

end Shecc.Parser
