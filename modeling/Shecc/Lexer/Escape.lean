import Shecc.Lexer.Literal

/-!
# Undoing escapes in bounds

`unescape_string` on its two arrays, where each read and each write is checked. It stays
inside of them, and fails exactly where it should, but for a backslash directly before the
NUL: the function copies the NUL like the letter of an unknown escape and reads on behind it.
-/

namespace Shecc.Lexer

open Shecc.Preprocessor (Failure)

/-! ## The function on its arrays -/

/-- `input[i]`. -/
def load (input : List Char) (i : Nat) : Except Failure Char :=
  match input[i]? with
  | some ch => .ok ch
  | none => .error .outOfBounds

/-- `output[j] = ch`. -/
def store (output : List Char) (j : Nat) (ch : Char) : Except Failure (List Char) :=
  if j < output.length then .ok (output.set j ch) else .error .outOfBounds

/-- The loops over the digits of an escape: the value, and the index behind the digits. -/
def readEscapeDigits (input : List Char) (accept : Char → Bool) (digit : Int → Char → Int) :
    (count : Nat) → (value : Int) → (i : Nat) → Except Failure (Int × Nat)
  | 0, value, i => do
      let _ ← load input i
      .ok (value, i)
  | count + 1, value, i => do
      let ch ← load input i
      if accept ch then readEscapeDigits input accept digit count (digit value ch) (i + 1)
      else .ok (value, i)

/-- The `switch`: the character for the output and the index behind the escape, or none if the
function returns. -/
def readEscape (input : List Char) (i : Nat) : Except Failure (Option (Char × Nat)) := do
  let ch ← load input i
  match simpleEscapes.lookup ch with
  | some escaped => .ok (some (escaped, i + 1))
  | none =>
      if ch = 'x' then do
        let first ← load input (i + 1)
        if isXDigit first then do
          let (value, i) ← readEscapeDigits input isXDigit
            (fun value digit => value * 16 + hexDigitValue digit) 2 0 (i + 1)
          .ok (some (toChar value, i))
        else .ok none
      else if isOctal ch then do
        let (value, i) ← readEscapeDigits input isOctal
          (fun value digit => value * 8 + (digit.toNat - '0'.toNat)) 3 0 i
        .ok (some (toChar value, i))
      else .ok (some (ch, i + 1))

/-- The end of the function: the NUL, and what is returned. -/
def terminate (input output : List Char) (i j : Nat) : Except Failure (List Char × Int) := do
  let output ← store output j '\x00'
  let ch ← load input i
  .ok (output, if ch = '\x00' then j else -1)

/-- The loop. `room` is what `j` may grow. -/
def copyFrom (input : List Char) :
    (room : Nat) → (i j : Nat) → (output : List Char) → Except Failure (List Char × Int)
  | 0, i, j, output => do
      let _ ← load input i
      terminate input output i j
  | room + 1, i, j, output => do
      let ch ← load input i
      if ch = '\x00' then terminate input output i j
      else if ch ≠ '\\' then do
        let output ← store output j ch
        copyFrom input room (i + 1) (j + 1) output
      else
        match ← readEscape input (i + 1) with
        | none => .ok (output, -1)
        | some (escaped, i) => do
            let output ← store output j escaped
            copyFrom input room i (j + 1) output

/-- `unescape_string`: what `output` holds then, and what is returned. -/
def unescapeInto (input output : List Char) (outputSize : Int) :
    Except Failure (List Char × Int) :=
  if outputSize = 0 then .ok (output, -1)
  else copyFrom input (outputSize - 1).toNat 0 0 output

/-! ## What a text stands for -/

/-- No hexadecimal digit comes next. -/
def NoDigit (text : List Char) : Prop := ∀ ch, text.head? = some ch → isXDigit ch = false

/-- The text behind a backslash starts with an escape of a character; the letter of an unknown
escape stands for itself. -/
inductive Escape : (text : List Char) → Char → (rest : List Char) → Prop
  | simple {rest : List Char} {letter ch : Char} (isEscape : (letter, ch) ∈ simpleEscapes) :
      Escape (letter :: rest) ch rest
  | hex {rest digits : List Char} (nonempty : digits ≠ []) (all : ∀ ch ∈ digits, isXDigit ch)
      (ended : digits.length = 2 ∨ digits.length < 2 ∧ NoDigit rest) :
      Escape ('x' :: (digits ++ rest)) (toChar (hexValue digits)) rest
  | octal {rest digits : List Char} (nonempty : digits ≠ []) (all : ∀ ch ∈ digits, isOctal ch)
      (ended : digits.length = 3 ∨
        digits.length < 3 ∧ ∀ ch, rest.head? = some ch → isOctal ch = false) :
      Escape (digits ++ rest) (toChar (octalValue digits)) rest
  | other {rest : List Char} {ch : Char} (notSimple : simpleEscapes.lookup ch = none)
      (notHex : ch ≠ 'x') (notOctal : isOctal ch = false) : Escape (ch :: rest) ch rest

/-- The text stands for the characters `s` up to `rest`. -/
inductive Spells : (text s rest : List Char) → Prop
  | done {rest : List Char} : Spells rest [] rest
  | plain {text s rest : List Char} {ch : Char} (notBackslash : ch ≠ '\\')
      (more : Spells text s rest) : Spells (ch :: text) (ch :: s) rest
  | escape {text behind s rest : List Char} {ch : Char} (isEscape : Escape text ch behind)
      (more : Spells behind s rest) : Spells ('\\' :: text) (ch :: s) rest

/-- The text is at an escape of no character: its end cuts it off, or it has no digit. -/
def BadEscape (rest : List Char) : Prop :=
  rest = ['\\'] ∨ ∃ behind, rest = '\\' :: 'x' :: behind ∧ NoDigit behind

/-- The text has an invalid escape. -/
def Invalid (text : List Char) : Prop := ∃ s rest, Spells text s rest ∧ BadEscape rest

/-- What is asked of the function: it stays in the arrays, terminates what it returns the
length of, and fails exactly for an invalid escape or without the room for the NUL. -/
def UnescapesSafely (input output : List Char) (outputSize : Int) : Prop :=
  ∃ output' result, unescapeInto (input ++ ['\x00']) output outputSize = .ok (output', result) ∧
    (result ≠ -1 → ∃ s, Spells input s [] ∧ result = s.length ∧
      output'.take (s.length + 1) = s ++ ['\x00']) ∧
    (result = -1 ↔ Invalid input ∨ ∃ s, Spells input s [] ∧ outputSize ≤ s.length)

/-! ## In bounds -/

theorem ok_bind {α β : Type} (value : α) (next : α → Except Failure β) :
    (Except.ok value >>= next) = next value := rfl

section Arrays

variable {input rest out tail : List Char} {i room : Nat} {ch : Char}

theorem load_eq (here : input.drop i = rest ++ ['\x00']) :
    load input i = .ok (rest.headD '\x00') := by
  have head : input[i]? = (rest ++ ['\x00']).head? := by
    rw [← here, List.head?_drop]
  rw [load, head]
  cases rest <;> rfl

theorem load_behind (behind : input.length ≤ i) : load input i = .error .outOfBounds := by
  rw [load, List.getElem?_eq_none behind]

theorem drop_next (here : input.drop i = (ch :: rest) ++ ['\x00']) :
    input.drop (i + 1) = rest ++ ['\x00'] := by
  rw [← List.tail_drop, here]
  rfl

theorem store_eq (old : Char) :
    store (out ++ old :: tail) out.length ch = .ok ((out ++ [ch]) ++ tail) := by
  have inside : out.length < (out ++ old :: tail).length := by simp
  rw [store, if_pos inside, List.set_append_right _ _ (le_refl _), Nat.sub_self, List.set_cons_zero,
    List.append_assoc, List.singleton_append]

/-- The digits of an escape are those that the accepted characters begin with. -/
theorem readEscapeDigits_eq {accept : Char → Bool} (notNul : accept '\x00' = false)
    (digit : Int → Char → Int) {count : Nat} {value : Int}
    (here : input.drop i = rest ++ ['\x00']) :
    ∃ i', readEscapeDigits input accept digit count value i =
        .ok ((takeDigits accept count rest).1.foldl digit value, i') ∧
      input.drop i' = (takeDigits accept count rest).2 ++ ['\x00'] := by
  induction count generalizing rest value i with
  | zero =>
      rw [readEscapeDigits, load_eq here]
      exact ⟨i, rfl, here⟩
  | succ count inductionHypothesis =>
      rw [readEscapeDigits, load_eq here, ok_bind]
      cases rest with
      | nil =>
          rw [List.headD_nil, if_neg (by simp [notNul])]
          exact ⟨i, rfl, here⟩
      | cons ch rest =>
          rw [List.headD_cons, takeDigits]
          by_cases accepted : accept ch = true
          · rcases @inductionHypothesis rest (i + 1) (digit value ch) (drop_next here) with
              ⟨i', isOk, here'⟩
            rw [if_pos accepted, if_pos accepted, isOk]
            exact ⟨i', rfl, here'⟩
          · rw [if_neg accepted, if_neg accepted]
            exact ⟨i, rfl, here⟩

/-- The first of the digits is the next character. -/
theorem takeDigits_isXDigit (count : Nat) (isDigit : isXDigit (rest.headD '\x00') = true) :
    (takeDigits isXDigit (count + 1) rest).1 ≠ [] := by
  cases rest with
  | nil => cases isDigit
  | cons ch rest =>
      rw [takeDigits, if_pos (show isXDigit ch = true from isDigit)]
      exact List.cons_ne_nil _ _

theorem takeDigits_notXDigit (count : Nat) (notDigit : ¬ isXDigit (rest.headD '\x00') = true) :
    takeDigits isXDigit count rest = ([], rest) := by
  cases count with
  | zero => rfl
  | succ count =>
      cases rest with
      | nil => rfl
      | cons ch rest => rw [takeDigits, if_neg (show ¬ isXDigit ch = true from notDigit)]

/-- An escape of the array is the escape of the text from there on. -/
theorem readEscape_eq (here : input.drop i = (ch :: rest) ++ ['\x00']) :
    (unescape (ch :: rest) = .ok none ∧ readEscape input i = .ok none) ∨
      ∃ escaped behind i', unescape (ch :: rest) = .ok (some (escaped, behind)) ∧
        readEscape input i = .ok (some (escaped, i')) ∧ input.drop i' = behind ++ ['\x00'] := by
  rw [readEscape, load_eq here, ok_bind, List.headD_cons, unescape]
  cases simple : simpleEscapes.lookup ch with
  | some escaped => exact .inr ⟨escaped, rest, i + 1, rfl, rfl, drop_next here⟩
  | none =>
      dsimp only
      by_cases isHex : ch = 'x'
      · rw [if_pos isHex, if_pos isHex, load_eq (drop_next here), ok_bind]
        by_cases isDigit : isXDigit (rest.headD '\x00') = true
        · right
          rcases readEscapeDigits_eq (show isXDigit '\x00' = false by decide)
            (fun value digit => value * 16 + hexDigitValue digit) (drop_next here) with
            ⟨i', isOk, here'⟩
          rw [if_pos isDigit, isOk, ok_bind]
          have nonempty := takeDigits_isXDigit 1 isDigit
          revert nonempty here'
          rcases takeDigits isXDigit (1 + 1) rest with ⟨_ | ⟨digit, digits⟩, behind⟩
          · intro _ nonempty
            cases nonempty rfl
          · intro here' _
            exact ⟨_, behind, i', rfl, rfl, here'⟩
        · left
          rw [if_neg isDigit, takeDigits_notXDigit 2 isDigit]
          exact ⟨rfl, rfl⟩
      · rw [if_neg isHex, if_neg isHex]
        right
        by_cases octal : isOctal ch = true
        · rcases readEscapeDigits_eq (show isOctal '\x00' = false by decide)
            (fun value digit => value * 8 + (digit.toNat - '0'.toNat)) here with
            ⟨i', isOk, here'⟩
          rw [if_pos octal, if_pos octal, isOk]
          exact ⟨_, _, i', rfl, rfl, here'⟩
        · rw [if_neg octal, if_neg octal]
          exact ⟨ch, rest, i + 1, rfl, rfl, drop_next here⟩

theorem terminate_eq (here : input.drop i = rest ++ ['\x00']) (old : Char) :
    terminate input (out ++ old :: tail) i out.length =
      .ok (out ++ ['\x00'] ++ tail, if rest.headD '\x00' = '\x00' then out.length else -1) := by
  rw [terminate, store_eq, load_eq here]
  rfl

/-- What the arrays end with agrees with what was written to a text. -/
def Fills (written arrays : Except Failure (List Char × Int)) : Prop :=
  match written with
  | .ok (output, result) => ∃ behind, arrays = .ok (output ++ behind, result)
  | .error failure => arrays = .error failure

/-- What the digits leave is the end of the characters. -/
theorem takeDigits_suffix (accept : Char → Bool) (count : Nat) (text : List Char) :
    (takeDigits accept count text).2 <:+ text := by
  induction count generalizing text with
  | zero => exact List.suffix_rfl
  | succ count inductionHypothesis =>
      cases text with
      | nil => exact List.suffix_rfl
      | cons ch text =>
          rw [takeDigits]
          split_ifs
          · exact (inductionHypothesis text).trans (List.suffix_cons ch text)
          · exact List.suffix_rfl

theorem unescape_suffix {text behind : List Char} {escaped : Char}
    (isSome : unescape text = .ok (some (escaped, behind))) : behind <:+ text := by
  cases text with
  | nil => cases isSome
  | cons ch text =>
      rw [unescape] at isSome
      cases simple : simpleEscapes.lookup ch with
      | some letter =>
          rw [simple] at isSome
          cases isSome
          exact List.suffix_cons _ _
      | none =>
          rw [simple] at isSome
          dsimp only at isSome
          split_ifs at isSome with isHex octal
          · have suffix := takeDigits_suffix isXDigit 2 text
            revert isSome suffix
            rcases takeDigits isXDigit 2 text with ⟨_ | ⟨digit, digits⟩, behind'⟩
            · intro isSome
              cases isSome
            · intro isSome suffix
              cases isSome
              exact suffix.trans (List.suffix_cons ch text)
          · cases isSome
            exact takeDigits_suffix isOctal 3 (ch :: text)
          · cases isSome
            exact List.suffix_cons _ _

/-- Behind the array the loop cannot look for the NUL. -/
theorem copyFrom_behind (behind : input.length ≤ i) (j : Nat) (output : List Char) :
    copyFrom input room i j output = .error .outOfBounds := by
  cases room with
  | zero =>
      rw [copyFrom, load_behind behind]
      rfl
  | succ room =>
      rw [copyFrom, load_behind behind]
      rfl

/-- The letter behind a last backslash is the NUL. -/
theorem readEscape_nul (here : input.drop i = ['\x00']) :
    readEscape input i = .ok (some ('\x00', i + 1)) := by
  have noLetter : simpleEscapes.lookup '\x00' = none := by
    decide
  rw [readEscape, @load_eq input [] i here, ok_bind, List.headD_nil, noLetter]
  rfl

theorem length_eq_of_drop (here : input.drop i = ['\x00']) : input.length = i + 1 := by
  have length := congrArg List.length here
  rw [List.length_drop, List.length_singleton] at length
  omega

/-- The loop on the arrays is the loop on the text from there on, and leaves the arrays
exactly where the text ends behind a backslash. -/
theorem copyFrom_fills (here : input.drop i = rest ++ ['\x00']) (noNul : '\x00' ∉ rest)
    (fits : tail.length = room + 1) :
    Fills (unescapeLoop room rest out) (copyFrom input room i out.length (out ++ tail)) := by
  induction room generalizing rest i out tail with
  | zero =>
      rcases tail with _ | ⟨old, tail⟩
      · cases fits
      · rw [copyFrom, load_eq here, ok_bind, terminate_eq here]
        cases rest with
        | nil => exact ⟨tail, rfl⟩
        | cons ch rest =>
            have notNul : ch ≠ '\x00' := fun same => noNul (same ▸ List.mem_cons_self)
            rw [List.headD_cons, if_neg notNul]
            exact ⟨tail, rfl⟩
  | succ room inductionHypothesis =>
      rcases tail with _ | ⟨old, tail⟩
      · cases fits
      · have fits' : tail.length = room + 1 := Nat.succ.inj fits
        rw [copyFrom, load_eq here, ok_bind]
        cases rest with
        | nil =>
            rw [List.headD_nil, if_pos rfl, terminate_eq here]
            exact ⟨tail, rfl⟩
        | cons ch rest =>
            rw [List.mem_cons, not_or] at noNul
            rw [List.headD_cons, if_neg (Ne.symm noNul.1), unescapeLoop]
            by_cases backslash : ch = '\\'
            · rw [if_pos backslash, if_neg (not_not.mpr backslash)]
              cases rest with
              | nil =>
                  have last : input.drop (i + 1) = ['\x00'] := drop_next here
                  rw [readEscape_nul last, ok_bind]
                  dsimp only
                  rw [store_eq, ok_bind]
                  exact copyFrom_behind (length_eq_of_drop last).le _ _
              | cons letter rest =>
                  rcases readEscape_eq (drop_next here) with
                    ⟨isNone, isNone'⟩ | ⟨escaped, behind, i', isSome, isSome', here'⟩
                  · rw [isNone, isNone']
                    exact ⟨old :: tail, rfl⟩
                  · rw [isSome, isSome', ok_bind]
                    dsimp only
                    rw [store_eq, ok_bind]
                    have next := @inductionHypothesis behind (out ++ [escaped]) tail i' here'
                      (fun isNul => noNul.2 ((unescape_suffix isSome).mem isNul)) fits'
                    rw [List.length_append] at next
                    exact next
            · rw [if_neg backslash, if_pos backslash, store_eq, ok_bind]
              have next := @inductionHypothesis rest (out ++ [ch]) tail (i + 1) (drop_next here)
                noNul.2 fits'
              rw [List.length_append] at next
              exact next

end Arrays

/-! ## What is written -/

section Texts

variable {text s rest out : List Char} {room : Nat} {ch : Char}

theorem Escape.unescape_eq (isEscape : Escape text ch rest) :
    unescape text = .ok (some (ch, rest)) := by
  cases isEscape with
  | simple isEscape => simp only [unescape, simpleEscapes_lookup _ isEscape]
  | hex nonempty all ended => exact unescape_hex nonempty all ended
  | @octal _ digits nonempty all ended =>
      rcases digits with _ | ⟨ch, digits⟩
      · cases nonempty rfl
      · rw [List.cons_append, unescape_octal (all ch List.mem_cons_self), ← List.cons_append,
          takeDigits_append all ended]
  | other notSimple notHex notOctal =>
      rw [unescape, notSimple]
      dsimp only
      rw [if_neg notHex, if_neg (by rw [notOctal]; exact Bool.false_ne_true)]

/-- The digits that are taken, and why no more are. -/
theorem takeDigits_spec (accept : Char → Bool) (count : Nat) (text : List Char) :
    text = (takeDigits accept count text).1 ++ (takeDigits accept count text).2 ∧
      (∀ ch ∈ (takeDigits accept count text).1, accept ch) ∧
      ((takeDigits accept count text).1.length = count ∨
        (takeDigits accept count text).1.length < count ∧
          ∀ ch, (takeDigits accept count text).2.head? = some ch → accept ch = false) := by
  induction count generalizing text with
  | zero => exact ⟨rfl, by simp [takeDigits], .inl rfl⟩
  | succ count inductionHypothesis =>
      cases text with
      | nil => exact ⟨rfl, by simp [takeDigits], .inr ⟨Nat.succ_pos count, by simp [takeDigits]⟩⟩
      | cons ch text =>
          rw [takeDigits]
          by_cases accepted : accept ch = true
          · rcases inductionHypothesis text with ⟨split, all, ended⟩
            rw [if_pos accepted]
            refine ⟨congrArg (ch :: ·) split, List.forall_mem_cons.mpr ⟨accepted, all⟩, ?_⟩
            simpa using ended
          · rw [if_neg accepted]
            refine ⟨rfl, by simp, .inr ⟨Nat.succ_pos count, ?_⟩⟩
            rintro next ⟨⟩
            exact Bool.eq_false_iff.mpr accepted

/-- Behind a backslash the text ends, starts with an escape, or has no digit. -/
theorem escape_cases (text : List Char) :
    text = [] ∨ (∃ behind, text = 'x' :: behind ∧ NoDigit behind) ∨
      ∃ ch rest, Escape text ch rest := by
  rcases text with _ | ⟨letter, text⟩
  · exact .inl rfl
  · right
    cases simple : simpleEscapes.lookup letter with
    | some ch =>
        have isEscape : (letter, ch) ∈ simpleEscapes := by
          rcases List.lookup_eq_some_iff.mp simple with ⟨before, behind, split, -⟩
          rw [split]
          exact List.mem_append_right before List.mem_cons_self
        exact .inr ⟨ch, text, .simple isEscape⟩
    | none =>
        by_cases isHex : letter = 'x'
        · subst isHex
          rcases takeDigits_spec isXDigit 2 text with ⟨split, all, ended⟩
          cases digits : (takeDigits isXDigit 2 text).1 with
          | nil =>
              rw [digits] at split ended
              rcases ended with ⟨⟨⟩⟩ | ⟨-, noDigit⟩
              refine .inl ⟨text, rfl, ?_⟩
              rw [split]
              exact noDigit
          | cons digit digits' =>
              have nonempty : (takeDigits isXDigit 2 text).1 ≠ [] := by
                rw [digits]
                exact List.cons_ne_nil _ _
              have isEscape := Escape.hex nonempty all ended
              rw [← split] at isEscape
              exact .inr ⟨_, _, isEscape⟩
        · right
          by_cases octal : isOctal letter = true
          · rcases takeDigits_spec isOctal 3 (letter :: text) with ⟨split, all, ended⟩
            have nonempty : (takeDigits isOctal 3 (letter :: text)).1 ≠ [] := by
              rw [takeDigits, if_pos octal]
              exact List.cons_ne_nil _ _
            have isEscape := Escape.octal nonempty all ended
            rw [← split] at isEscape
            exact ⟨_, _, isEscape⟩
          · exact ⟨letter, text, .other simple isHex (Bool.eq_false_iff.mpr octal)⟩

theorem Escape.length_lt (isEscape : Escape text ch rest) : rest.length < text.length := by
  cases isEscape with
  | simple isEscape => simp
  | hex nonempty all ended =>
      simp only [List.length_cons, List.length_append]
      omega
  | octal nonempty all ended =>
      have positive := List.length_pos_of_ne_nil nonempty
      simp only [List.length_append]
      omega
  | other notSimple notHex notOctal => simp

/-- Every text stands for characters up to its end or a bad escape. -/
theorem exists_spells (text : List Char) :
    ∃ s rest, Spells text s rest ∧ (rest = [] ∨ BadEscape rest) := by
  induction h : text.length using Nat.strongRecOn generalizing text with
  | ind length inductionHypothesis =>
      subst h
      cases text with
      | nil => exact ⟨[], [], .done, .inl rfl⟩
      | cons ch text =>
          by_cases backslash : ch = '\\'
          · subst backslash
            rcases escape_cases text with rfl | ⟨behind, rfl, noDigit⟩ | ⟨ch, behind, isEscape⟩
            · exact ⟨[], _, .done, .inr (.inl rfl)⟩
            · exact ⟨[], _, .done, .inr (.inr ⟨behind, rfl, noDigit⟩)⟩
            · rcases inductionHypothesis behind.length
                (isEscape.length_lt.trans (Nat.lt_succ_self _)) behind rfl with
                ⟨s, rest, spells, ended⟩
              exact ⟨ch :: s, rest, .escape isEscape spells, ended⟩
          · rcases inductionHypothesis text.length (Nat.lt_succ_self _) text rfl with
              ⟨s, rest, spells, ended⟩
            exact ⟨ch :: s, rest, .plain backslash spells, ended⟩

/-- With room for the characters the loop goes on behind them. -/
theorem Spells.unescapeLoop_eq (spells : Spells text s rest) (fits : s.length ≤ room) :
    unescapeLoop room text out = unescapeLoop (room - s.length) rest (out ++ s) := by
  induction spells generalizing room out with
  | done => simp
  | @plain text s rest ch notBackslash more inductionHypothesis =>
      cases room with
      | zero => cases fits
      | succ room =>
          rw [unescapeLoop, if_neg notBackslash,
            inductionHypothesis (Nat.le_of_succ_le_succ fits), ← List.append_cons,
            List.length_cons, Nat.succ_sub_succ]
  | @escape text behind s rest ch isEscape more inductionHypothesis =>
      cases room with
      | zero => cases fits
      | succ room =>
          rw [unescapeLoop_escape isEscape.unescape_eq,
            inductionHypothesis (Nat.le_of_succ_le_succ fits), ← List.append_cons,
            List.length_cons, Nat.succ_sub_succ]

/-- Without the room, the loop is cut off and fails. -/
theorem Spells.unescapeLoop_full (spells : Spells text s rest)
    (full : room < s.length ∨ room = s.length ∧ rest ≠ []) :
    ∃ written, unescapeLoop room text out = .ok (written, -1) := by
  induction spells generalizing room out with
  | @done rest =>
      rcases full with ⟨⟨⟩⟩ | ⟨rfl, notEnd⟩
      cases rest with
      | nil => cases notEnd rfl
      | cons ch rest => exact ⟨_, rfl⟩
  | @plain text s rest ch notBackslash more inductionHypothesis =>
      cases room with
      | zero => exact ⟨_, rfl⟩
      | succ room =>
          rw [unescapeLoop, if_neg notBackslash]
          exact inductionHypothesis (by simpa using full)
  | @escape text behind s rest ch isEscape more inductionHypothesis =>
      cases room with
      | zero => exact ⟨_, rfl⟩
      | succ room =>
          rw [unescapeLoop_escape isEscape.unescape_eq]
          exact inductionHypothesis (by simpa using full)

/-- A text that is read to its end. -/
theorem Spells.whole (spells : Spells text s []) (fits : s.length ≤ room) :
    unescapeLoop room text [] = .ok (s ++ ['\x00'], (s.length : Nat)) := by
  rw [spells.unescapeLoop_eq fits]
  cases room - s.length <;> rfl

/-! ## Reading in one way -/

theorem NoDigit.unescape_eq (noDigit : NoDigit text) : unescape ('x' :: text) = .ok none := by
  have notSimple : simpleEscapes.lookup 'x' = none := by
    decide
  have none : takeDigits isXDigit 2 text = ([], text) := by
    apply takeDigits_notXDigit
    cases text with
    | nil => decide
    | cons ch text => simp [noDigit ch rfl]
  rw [unescape, notSimple]
  dsimp only
  rw [if_pos rfl, none]

/-- A bad escape, or the end, is not read. -/
theorem Spells.stays (ended : text = [] ∨ BadEscape text) (spells : Spells text s rest) :
    s = [] ∧ rest = text := by
  cases spells with
  | done => exact ⟨rfl, rfl⟩
  | plain notBackslash more =>
      rcases ended with ⟨⟨⟩⟩ | isLast | ⟨behind, isHex, -⟩
      · cases isLast
        cases notBackslash rfl
      · cases isHex
        cases notBackslash rfl
  | escape isEscape more =>
      rcases ended with ⟨⟨⟩⟩ | isLast | ⟨behind, isHex, noDigit⟩
      · cases isLast
        cases isEscape.unescape_eq
      · cases isHex
        cases isEscape.unescape_eq.symm.trans noDigit.unescape_eq

/-- A text stands for one sequence of characters. -/
theorem Spells.unique {s' rest' : List Char} (spells : Spells text s rest)
    (spells' : Spells text s' rest') (ended : rest = [] ∨ BadEscape rest)
    (ended' : rest' = [] ∨ BadEscape rest') : s = s' ∧ rest = rest' := by
  induction spells generalizing s' with
  | done =>
      rcases spells'.stays ended with ⟨rfl, rfl⟩
      exact ⟨rfl, rfl⟩
  | plain notBackslash more inductionHypothesis =>
      cases spells' with
      | done => cases ((Spells.plain notBackslash more).stays ended').1
      | plain notBackslash' more' =>
          rcases inductionHypothesis more' ended with ⟨rfl, rfl⟩
          exact ⟨rfl, rfl⟩
      | escape isEscape more' => cases notBackslash rfl
  | escape isEscape more inductionHypothesis =>
      cases spells' with
      | done => cases ((Spells.escape isEscape more).stays ended').1
      | plain notBackslash more' => cases notBackslash rfl
      | escape isEscape' more' =>
          have same := isEscape.unescape_eq.symm.trans isEscape'.unescape_eq
          cases same
          rcases inductionHypothesis more' ended with ⟨rfl, rfl⟩
          exact ⟨rfl, rfl⟩

end Texts

/-! ## Safety -/

section Safety

variable {input output s rest : List Char} {room : Nat}

theorem Spells.invalid_iff (spells : Spells input s rest) (ended : rest = [] ∨ BadEscape rest) :
    Invalid input ↔ BadEscape rest := by
  constructor
  · rintro ⟨s', rest', spells', bad⟩
    rcases spells.unique spells' ended (.inr bad) with ⟨rfl, rfl⟩
    exact bad
  · intro bad
    exact ⟨s, rest, spells, bad⟩

/-- Where a text is read up to its end or a bad escape, that is the only such reading. -/
theorem Spells.exists_to_iff (spells : Spells input s rest) (ended : rest = [] ∨ BadEscape rest)
    {last : List Char} (isEnd : last = [] ∨ BadEscape last) {holds : List Char → Prop} :
    (∃ s', Spells input s' last ∧ holds s') ↔ rest = last ∧ holds s := by
  constructor
  · rintro ⟨s', spells', held⟩
    rcases spells.unique spells' ended isEnd with ⟨rfl, rfl⟩
    exact ⟨rfl, held⟩
  · rintro ⟨rfl, held⟩
    exact ⟨s, spells, held⟩

/-- What the function returns with room in its output. -/
theorem unescapeInto_fills (noNul : '\x00' ∉ input) (fits : output.length = room + 1) :
    Fills (unescapeLoop room input [])
      (unescapeInto (input ++ ['\x00']) output ((room : Int) + 1)) := by
  have fills := @copyFrom_fills (input ++ ['\x00']) input [] output 0 room rfl noNul fits
  have notZero : ¬ (room : Int) + 1 = 0 := by omega
  have isRoom : ((room : Int) + 1 - 1).toNat = room := by omega
  rw [unescapeInto, if_neg notZero, isRoom]
  exact fills

/-- A negative size leaves no element for the NUL. -/
theorem unescapeInto_negative {outputSize : Int} (negative : outputSize < 0) :
    unescapeInto (input ++ ['\x00']) [] outputSize = .error .outOfBounds := by
  have noRoom : (outputSize - 1).toNat = 0 := by omega
  rw [unescapeInto, if_neg (by omega), noRoom, copyFrom,
    @load_eq (input ++ ['\x00']) input 0 rfl, ok_bind]
  rfl

theorem not_badEscape_nil : ¬ BadEscape [] := by
  rintro (⟨⟨⟩⟩ | ⟨behind, ⟨⟩, -⟩)

/-- What the function returns when it is asked for too much. -/
theorem UnescapesSafely.of_failure {outputSize : Int} (spells : Spells input s rest)
    (ended : rest = [] ∨ BadEscape rest) (failed : BadEscape rest ∨ outputSize ≤ s.length)
    {output' : List Char} (isOk : unescapeInto (input ++ ['\x00']) output outputSize =
      .ok (output', -1)) : UnescapesSafely input output outputSize := by
  refine ⟨output', -1, isOk, fun succeeded => absurd rfl succeeded, ?_⟩
  rw [spells.invalid_iff ended]
  refine iff_of_true rfl ?_
  rcases ended with rfl | bad
  · exact .inr ⟨s, spells, failed.resolve_left not_badEscape_nil⟩
  · exact .inl bad

/-- A size of one or more. -/
theorem unescapesSafely_room_iff (noNul : '\x00' ∉ input) (fits : output.length = room + 1)
    (spells : Spells input s rest) (ended : rest = [] ∨ BadEscape rest) :
    UnescapesSafely input output ((room : Int) + 1) ↔ ¬ (rest = ['\\'] ∧ s.length < room) := by
  have fills := unescapeInto_fills noNul fits
  by_cases full : room < s.length ∨ room = s.length ∧ rest ≠ []
  · -- The loop is cut off.
    rcases @Spells.unescapeLoop_full input s rest [] room spells full with ⟨written, isOk⟩
    rw [isOk] at fills
    rcases fills with ⟨behind, isOk'⟩
    refine iff_of_true (.of_failure spells ended ?_ isOk') (by omega)
    rcases full with short | ⟨short, notEnd⟩
    · exact .inr (by omega)
    · exact .inl (ended.resolve_left notEnd)
  · rcases ended with rfl | bad
    · -- The whole text is read.
      have enough : s.length ≤ room := by omega
      rw [spells.whole enough] at fills
      rcases fills with ⟨behind, isOk⟩
      refine iff_of_true ⟨_, _, isOk, fun _ => ⟨s, spells, rfl, ?_⟩, ?_⟩ (by simp)
      · have length : s.length + 1 = (s ++ ['\x00']).length := by simp
        rw [length, List.take_left]
      · rw [spells.invalid_iff (.inl rfl), spells.exists_to_iff (.inl rfl) (.inl rfl)]
        apply iff_of_false
        · show ¬ ((s.length : Nat) : Int) = -1
          omega
        · rintro (bad | ⟨-, short⟩)
          · exact not_badEscape_nil bad
          · omega
    · -- The loop comes to a bad escape with room left.
      have notEnd : rest ≠ [] := fun isEnd => not_badEscape_nil (isEnd ▸ bad)
      have enough : s.length < room := by
        rcases Nat.lt_trichotomy s.length room with enough | same | long
        · exact enough
        · exact absurd (.inr ⟨same.symm, notEnd⟩) full
        · exact absurd (.inl long) full
      rcases Nat.exists_eq_add_of_lt enough with ⟨left, isRoom⟩
      have comes := @Spells.unescapeLoop_eq input s rest [] room spells enough.le
      rw [show room - s.length = left + 1 by omega, List.nil_append] at comes
      rcases bad with rfl | ⟨behind, rfl, noDigit⟩
      · rw [comes] at fills
        refine iff_of_false ?_ (not_not.mpr ⟨rfl, enough⟩)
        rintro ⟨output', result, isOk, -⟩
        cases fills.symm.trans isOk
      · rw [comes, unescapeLoop, if_pos rfl, noDigit.unescape_eq] at fills
        rcases fills with ⟨behind', isOk⟩
        refine iff_of_true ?_ (by simp)
        exact .of_failure spells (.inr (.inr ⟨behind, rfl, noDigit⟩))
          (.inl (.inr ⟨behind, rfl, noDigit⟩)) isOk

end Safety

/-- The function stays inside of its arrays, terminates what it returns the length of, and
fails exactly for an invalid escape or without the room for the NUL, where the size is not
negative and the loop does not come, with room left, to a backslash directly before the NUL. -/
theorem unescapesSafely_iff (input output : List Char) (outputSize : Int)
    (noNul : '\x00' ∉ input) (isSize : output.length = outputSize.toNat) :
    UnescapesSafely input output outputSize ↔ 0 ≤ outputSize ∧
      ¬ ∃ s, Spells input s ['\\'] ∧ (s.length : Int) + 1 < outputSize := by
  rcases exists_spells input with ⟨s, rest, spells, ended⟩
  rw [spells.exists_to_iff ended (.inr (.inl rfl))]
  by_cases negative : outputSize < 0
  · have empty : output = [] := List.length_eq_zero_iff.mp (by omega)
    apply iff_of_false
    · rintro ⟨output', result, isOk, -⟩
      rw [empty, unescapeInto_negative negative] at isOk
      cases isOk
    · omega
  · by_cases isZero : outputSize = 0
    · have isOk : unescapeInto (input ++ ['\x00']) output outputSize = .ok (output, -1) :=
        if_pos isZero
      exact iff_of_true (.of_failure spells ended (.inr (by omega)) isOk) (by omega)
    · rcases Int.eq_succ_of_zero_lt (show 0 < outputSize by omega) with ⟨room, rfl⟩
      rw [unescapesSafely_room_iff noNul (by omega) spells ended]
      have cast : (s.length : Int) + 1 < (room : Int) + 1 ↔ s.length < room := by omega
      rw [cast]
      exact (and_iff_right (by omega)).symm

/-- An escape and a character behind it fit in three elements with the NUL. -/
theorem newline_unescapesSafely : UnescapesSafely "\\n!".toList ['a', 'b', 'c'] 3 := by
  apply (unescapesSafely_iff "\\n!".toList ['a', 'b', 'c'] 3 (by decide) rfl).mpr
  refine ⟨by decide, ?_⟩
  rintro ⟨s, spells, -⟩
  have spells' : Spells "\\n!".toList ['\n', '!'] [] :=
    .escape (.simple (by decide)) (.plain (by decide) .done)
  cases (spells.unique spells' (.inr (.inl rfl)) (.inl rfl)).2

/-- A backslash alone is read beyond its NUL. -/
theorem backslash_not_unescapesSafely :
    ¬ ∀ (input output : List Char) (outputSize : Int), '\x00' ∉ input →
      output.length = outputSize.toNat → UnescapesSafely input output outputSize := by
  intro safe
  rcases safe ['\\'] ['a', 'b', 'c', 'd'] 4 (by decide) rfl with ⟨output', result, isOk, -⟩
  have isError : unescapeInto (['\\'] ++ ['\x00']) ['a', 'b', 'c', 'd'] 4 =
      .error .outOfBounds := by
    rfl
  cases isError.symm.trans isOk

end Shecc.Lexer
