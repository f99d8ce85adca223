import Shecc.Lexer.Comment

/-!
# The tokens of the library

`gen_libc_token_stream` reads the buffer that the text of the library was appended to. The
appends write no NUL, and a buffer that grows leaves bytes behind the text as they come from
`malloc`: they tell the lexer where the text ends.
-/

namespace Shecc.Lexer

open Shecc.Preprocessor (Token TokenKind SourceLocation Failure)

/-! ## The buffer -/

/-- What `malloc` returns: the bytes of a block. -/
abbrev Block := Nat → Char

/-- `strbuf_create`. -/
def Strbuf.create (initCapacity : Nat) (block : Block) : Strbuf :=
  ⟨(List.range initCapacity).map block, 0⟩

/-- The capacity of `strbuf_extend`. -/
def extended (capacity size len : Nat) : Nat :=
  let newSize := size + len
  if newSize < capacity then capacity
  else if newSize > capacity * 2 then newSize
  else capacity * 2

/-- `strbuf_extend`, with the block that it may allocate. -/
def Strbuf.extend (src : Strbuf) (len : Nat) (block : Block) : Strbuf :=
  if src.size + len < src.elements.length then src
  else
    let capacity := extended src.elements.length src.size len
    let newArr := (List.range capacity).map block
    { src with elements := src.elements.take src.size ++ newArr.drop src.size }

/-- `strbuf_puts`. -/
def Strbuf.puts (src : Strbuf) (value : List Char) (block : Block) : Strbuf :=
  let len := value.length
  let src := src.extend len block
  { elements := src.elements.take src.size ++ (value ++ src.elements.drop (src.size + len))
    size := src.size + len }

/-- A string, which has no NUL. -/
abbrev Text := { chars : List Char // '\x00' ∉ chars }

/-- The calls of `strbuf_puts`, with the blocks that `malloc` returns in turn. -/
def Strbuf.putAll : Strbuf → (values : List Text) → (blocks : Nat → Block) → Strbuf
  | src, [], _ => src
  | src, value :: values, blocks =>
      putAll (src.puts value.1 (blocks 0)) values fun i => blocks (i + 1)

/-- `LIBC_SRC` after the calls. -/
def libcSrc (initCapacity : Nat) (values : List Text) (blocks : Nat → Block) : Strbuf :=
  (Strbuf.create initCapacity (blocks 0)).putAll values fun i => blocks (i + 1)

/-! ## The stream -/

/-- The loop of `gen_libc_token_stream`: the tokens, and whether it stopped at a `T_eof`. -/
def libcTokens (fuel : Nat) : (rounds : Nat) → Lex (List Token × Bool)
  | 0 => fun _ => .error .outOfFuel
  | rounds + 1 => do
      let s ← get
      if s.buf.size < s.buf.elements.length then do
        let tk ← lexToken fuel
        if tk.kind = .eof then return ([], true)
        else do
          let (tokens, ended) ← libcTokens fuel rounds
          return (tk :: tokens, ended)
      else return ([], false)

/-- `gen_libc_token_stream` for a stream that is not cached. It stops the program if there is
no token, or no `T_eof` behind the last. -/
def genLibcTokenStream (fuel rounds : Nat) (filename : String) (buf : Strbuf) :
    Option (List Token) :=
  match libcTokens fuel rounds (start filename buf.elements) with
  | .ok ((tokens, true), _) => if tokens = [] then none else some tokens
  | _ => none

/-- The call returns the tokens. -/
def Produces (filename : String) (buf : Strbuf) (tokens : List Token) : Prop :=
  ∃ fuel rounds, genLibcTokenStream fuel rounds filename buf = some tokens

/-- Two runs with the same appends produce the same tokens, whatever `malloc` returned. -/
def SameTokens (filename : String) (initCapacity : Nat) (values : List Text) : Prop :=
  ∀ blocks blocks' tokens, Produces filename (libcSrc initCapacity values blocks) tokens →
    Produces filename (libcSrc initCapacity values blocks') tokens

/-- The text that was appended. -/
def appended (values : List Text) : List Char := values.flatMap fun value => value.1

/-- The capacity after appends. -/
def capacityAfter : (capacity size : Nat) → List Text → Nat
  | capacity, _, [] => capacity
  | capacity, size, value :: values =>
      capacityAfter (extended capacity size value.1.length) (size + value.1.length) values

/-! ## What the appends leave -/

section Appends

variable {src : Strbuf} {text : List Char}

/-- The buffer holds a text and behind it bytes of the blocks. -/
structure Strbuf.Holds (src : Strbuf) (text : List Char) (fresh : Char → Prop) : Prop where
  size_eq : src.size = text.length
  inside : src.size ≤ src.elements.length
  text_eq : src.elements.take src.size = text
  gap : ∀ ch ∈ src.elements.drop src.size, fresh ch

variable {fresh : Char → Prop}

theorem extended_le (capacity size len : Nat) : size + len ≤ extended capacity size len := by
  rw [extended]
  split_ifs <;> omega

theorem Strbuf.Holds.extend (holds : src.Holds text fresh) (len : Nat) {block : Block}
    (isFresh : ∀ i, fresh (block i)) :
    (src.extend len block).Holds text fresh ∧
      (src.extend len block).elements.length = extended src.elements.length src.size len := by
  have enough := extended_le src.elements.length src.size len
  rw [Strbuf.extend]
  split_ifs with isRoom
  · refine ⟨holds, ?_⟩
    rw [extended, if_pos isRoom]
  · have inside := holds.inside
    have isTaken : (src.elements.take src.size).length = src.size := by
      rw [List.length_take]
      omega
    refine ⟨⟨holds.size_eq, ?_, ?_, ?_⟩, ?_⟩
    · simp only [List.length_append, List.length_drop, List.length_map, List.length_range,
        isTaken]
      omega
    · dsimp only
      rw [List.take_left' isTaken]
      exact holds.text_eq
    · intro ch member
      dsimp only at member
      rw [List.drop_left' isTaken] at member
      obtain ⟨i, -, rfl⟩ := List.mem_map.mp (List.mem_of_mem_drop member)
      exact isFresh i
    · simp only [List.length_append, List.length_drop, List.length_map, List.length_range,
        isTaken]
      omega

theorem Strbuf.Holds.puts (holds : src.Holds text fresh) (value : List Char) {block : Block}
    (isFresh : ∀ i, fresh (block i)) :
    (src.puts value block).Holds (text ++ value) fresh ∧
      (src.puts value block).elements.length =
        extended src.elements.length src.size value.length := by
  obtain ⟨holds', isLength⟩ := holds.extend value.length isFresh
  have enough := extended_le src.elements.length src.size value.length
  have sameSize : (src.extend value.length block).size = src.size :=
    holds'.size_eq.trans holds.size_eq.symm
  have isTaken := congrArg List.length holds'.text_eq
  rw [← holds.size_eq] at isTaken
  have isWritten : (text ++ value).length = src.size + value.length := by
    rw [List.length_append, holds.size_eq]
  rw [Strbuf.puts]
  dsimp only
  rw [holds'.text_eq, sameSize, ← List.append_assoc]
  refine ⟨⟨isWritten.symm, ?_, ?_, ?_⟩, ?_⟩
  · rw [List.length_append, isWritten]
    exact Nat.le_add_right _ _
  · exact List.take_left' isWritten
  · intro ch member
    dsimp only at member
    rw [List.drop_left' isWritten, ← List.drop_drop] at member
    exact holds'.gap ch (sameSize ▸ List.mem_of_mem_drop member)
  · rw [List.length_append, isWritten, List.length_drop]
    omega

/-- The calls of `strbuf_puts` one after the other. -/
theorem Strbuf.Holds.putAll (holds : src.Holds text fresh) (values : List Text)
    {blocks : Nat → Block} (isFresh : ∀ i j, fresh (blocks i j)) :
    (src.putAll values blocks).Holds (text ++ appended values) fresh ∧
      (src.putAll values blocks).elements.length =
        capacityAfter src.elements.length src.size values := by
  induction values generalizing src text blocks with
  | nil =>
      rw [appended, List.flatMap_nil, List.append_nil]
      exact ⟨holds, rfl⟩
  | cons value values inductionHypothesis =>
      obtain ⟨holds', isLength⟩ := holds.puts value.1 (isFresh 0)
      have sameSize : (src.puts value.1 (blocks 0)).size = src.size + value.1.length := by
        rw [holds'.size_eq, List.length_append, holds.size_eq]
      have rest := inductionHypothesis holds' fun i => isFresh (i + 1)
      rw [appended, List.flatMap_cons, ← List.append_assoc, Strbuf.putAll, capacityAfter]
      rw [isLength, sameSize] at rest
      exact rest

theorem libcSrc_holds (initCapacity : Nat) (values : List Text) {blocks : Nat → Block}
    (isFresh : ∀ i j, fresh (blocks i j)) :
    (libcSrc initCapacity values blocks).Holds (appended values) fresh ∧
      (libcSrc initCapacity values blocks).elements.length =
        capacityAfter initCapacity 0 values := by
  have start : (Strbuf.create initCapacity (blocks 0)).Holds [] fresh := by
    refine ⟨rfl, Nat.zero_le _, rfl, ?_⟩
    intro ch member
    obtain ⟨i, -, rfl⟩ := List.mem_map.mp member
    exact isFresh 0 i
  have all := start.putAll values fun i => isFresh (i + 1)
  have isLength : (Strbuf.create initCapacity (blocks 0)).elements.length = initCapacity := by
    rw [Strbuf.create, List.length_map, List.length_range]
  rw [isLength] at all
  exact all

theorem appended_noNul (values : List Text) : '\x00' ∉ appended values := by
  intro member
  obtain ⟨value, -, isNul⟩ := List.mem_flatMap.mp member
  exact value.2 isNul

end Appends

/-! ## A text without an end -/

/-- The lexer is inside a text without a NUL, which ends with a letter. -/
structure State.Unended (s : State) : Prop where
  inside : s.buf.size < s.buf.elements.length
  noNul : '\x00' ∉ s.buf.elements
  isLast : s.buf.elements.getLast? = some 'x'

/-- The step stays inside. -/
def Keeps {α : Type} (step : Lex α) : Prop :=
  ∀ s, s.Unended → Allows True (fun _ s' => s'.Unended) (step s)

/-- The step stays inside, and its token is no `T_eof`. -/
def Goes (step : Lex Token) : Prop :=
  ∀ s, s.Unended → Allows True (fun token s' => token.kind ≠ .eof ∧ s'.Unended) (step s)

section Unended

variable {α β : Type} {s : State}

theorem Keeps.bind {first : Lex α} {more : α → Lex β} (keeps : Keeps first)
    (behind : ∀ value, Keeps (more value)) : Keeps (first >>= more) :=
  fun s unended => (keeps s unended).bind fun value s' => behind value s'

theorem Keeps.goes {first : Lex α} {more : α → Lex Token} (keeps : Keeps first)
    (behind : ∀ value, Goes (more value)) : Goes (first >>= more) :=
  fun s unended => (keeps s unended).bind fun value s' => behind value s'

theorem Keeps.pure (value : α) : Keeps (pure value : Lex α) :=
  fun _ unended => unended

theorem Keeps.errorAt (msg : String) (set : SourceLocation → SourceLocation) :
    Keeps (errorAt msg set : Lex α) :=
  fun _ _ _ => trivial

theorem Keeps.bufferOverflow : Keeps (bufferOverflow : Lex α) :=
  fun _ _ _ => trivial

theorem Goes.errorAt (msg : String) (set : SourceLocation → SourceLocation) :
    Goes (Lexer.errorAt msg set) :=
  fun _ _ _ => trivial

theorem Keeps.peekChar (offset : Nat) : Keeps (peekChar offset) :=
  fun _ unended => unended

theorem Keeps.readChar : Keeps readChar := by
  intro s unended
  rw [Lexer.readChar]
  split_ifs with isEnd
  · exact unended
  · exact ⟨not_le.mp isEnd, unended.noNul, unended.isLast⟩

theorem Goes.emit {kind : TokenKind} (notEof : kind ≠ .eof) (literal : String) (len : Nat) :
    Goes (emit kind literal len) :=
  fun _ unended => ⟨notEof, unended.inside, unended.noNul, unended.isLast⟩

theorem Goes.follow {kind : TokenKind} (notEof : kind ≠ .eof) (len : Nat)
    {longer : List (Char × Lex Token)} (branches : ∀ entry ∈ longer, Goes entry.2) :
    Goes (follow kind len longer) := by
  apply Keeps.readChar.goes
  intro ch
  cases isBranch : longer.lookup ch with
  | none => exact .emit notEof "" len
  | some next => exact branches _ (branch_mem isBranch)

/-- Behind a point inside the text there is more than one character. -/
theorem State.Unended.next (unended : s.Unended) {ch : Char} (isChar : ch ≠ 'x') {i : Nat}
    (isAt : s.buf.elements[i]? = some ch) : i + 1 < s.buf.elements.length := by
  have isLast := unended.isLast
  rw [List.getLast?_eq_getElem?] at isLast
  have inside := (List.getElem?_eq_some_iff.mp isAt).1
  by_contra isEnd
  obtain rfl : i = s.buf.elements.length - 1 := by omega
  rw [isLast] at isAt
  exact isChar (Option.some.inj isAt).symm

theorem State.at_of_peek {offset : Nat} {ch : Char}
    (isPeeked : s.buf.elements.getD (s.buf.size + offset) '\x00' = ch) (notNul : ch ≠ '\x00') :
    s.buf.elements[s.buf.size + offset]? = some ch := by
  rw [List.getD_eq_getElem?_getD] at isPeeked
  cases isAt : s.buf.elements[s.buf.size + offset]? with
  | none =>
      rw [isAt] at isPeeked
      exact absurd isPeeked.symm notNul
  | some other =>
      rw [isAt] at isPeeked
      exact congrArg some isPeeked

theorem Goes.dots : Goes dots := by
  apply Keeps.readChar.goes
  intro ch s unended
  change Allows True _ ((if ch = '.' ∧ s.buf.elements.getD (s.buf.size + 1) '\x00' = '.' then _
    else _ : Lex Token) s)
  split_ifs with isDots
  · have isNext := unended.next (by decide) (State.at_of_peek isDots.2 (by decide))
    have further : State.Unended ⟨⟨s.buf.elements, s.buf.size + 2⟩, s.loc⟩ :=
      ⟨isNext, unended.noNul, unended.isLast⟩
    exact Goes.emit (by decide) "" 3 _ further
  · exact Goes.emit (by decide) "" 1 s unended

theorem punctuators_goes : ∀ entry ∈ punctuators, Goes entry.2 := by
  simp only [punctuators, List.forall_mem_cons]
  repeat' first
    | exact Goes.dots
    | exact List.forall_mem_nil _
    | apply And.intro
    | rw [List.forall_mem_cons]
    | apply Goes.follow (by decide)
    | dsimp only

theorem Goes.lexNewline : Goes lexNewline := by
  apply Keeps.readChar.goes
  intro ch s unended
  exact ⟨nofun, unended.inside, unended.noNul, unended.isLast⟩

theorem readWhile_keeps (accept : Char → Bool) (room : Nat) (buffer : List Char) (ch : Char) :
    Keeps (readWhile accept room buffer ch) := by
  induction room generalizing buffer ch with
  | zero =>
      rw [readWhile]
      split_ifs
      · exact .errorAt _ _
      · exact .pure buffer
  | succ room inductionHypothesis =>
      rw [readWhile]
      split_ifs
      · exact Keeps.readChar.bind fun next => inductionHypothesis _ next
      · exact .pure buffer

theorem readOctal_keeps (room : Nat) (buffer : List Char) (ch : Char) :
    Keeps (readOctal room buffer ch) := by
  induction room generalizing buffer ch with
  | zero =>
      rw [readOctal]
      split_ifs
      · exact .errorAt _ _
      · exact .errorAt _ _
      · exact .pure buffer
  | succ room inductionHypothesis =>
      rw [readOctal]
      split_ifs
      · exact .errorAt _ _
      · exact Keeps.readChar.bind fun next => inductionHypothesis _ next
      · exact .pure buffer

theorem readDigits_keeps (first ch : Char) : Keeps (readDigits first ch) := by
  have radix : ∀ accept msg, Keeps (readRadix accept msg ch) := by
    intro accept msg
    apply Keeps.readChar.bind
    intro next
    split_ifs
    · exact readWhile_keeps _ _ _ _
    · exact .errorAt _ _
  rw [readDigits]
  split_ifs
  · exact radix _ _
  · exact radix _ _
  · exact readOctal_keeps _ _ _
  · exact readWhile_keeps _ _ _ _

theorem Goes.lexNumber (first : Char) : Goes (lexNumber first) :=
  Keeps.readChar.goes fun ch => (readDigits_keeps first ch).goes fun _ => .emit (by decide) _ _

theorem commonKeyword_ne_eof (token : String) : commonKeyword token ≠ .eof := by
  rw [commonKeyword]
  split <;> repeat' first | split_ifs | decide

theorem lookup_ne_eof {table : List (String × TokenKind)}
    (entries : ∀ entry ∈ table, entry.2 ≠ .eof) (token : String) :
    (table.lookup token).getD .identifier ≠ .eof := by
  cases isEntry : table.lookup token with
  | none => decide
  | some kind =>
      obtain ⟨front, back, isSplit, -⟩ := List.lookup_eq_some_iff.mp isEntry
      exact entries (token, kind) (by simp [isSplit])

theorem wordKind_ne_eof (token : String) : wordKind token ≠ .eof := by
  rw [wordKind]
  split_ifs
  · exact lookup_ne_eof (by decide) token
  · exact commonKeyword_ne_eof token

theorem Goes.lexWord (first : Char) : Goes (lexWord first) :=
  (readWhile_keeps _ _ _ first).goes fun _ => .emit (wordKind_ne_eof _) _ _

theorem Goes.lexDirective : Goes lexDirective := by
  intro s unended
  rw [Lexer.lexDirective]
  split_ifs
  · exact Goes.errorAt _ _ s unended
  · refine Keeps.readChar.goes (fun ch => ?_) s unended
    apply (readWhile_keeps _ _ _ ch).goes
    intro buffer
    dsimp only
    split_ifs
    · exact .errorAt _ _
    · exact .emit (lookup_ne_eof (by decide) _) _ _

theorem Goes.lexWhitespace (fuel : Nat) : Goes (lexWhitespace fuel) := by
  have spaces : ∀ sz, Keeps (countSpaces fuel sz) := by
    induction fuel with
    | zero => exact fun _ _ _ _ => trivial
    | succ fuel inductionHypothesis =>
        intro sz
        apply Keeps.readChar.bind
        intro ch
        split_ifs
        · exact inductionHypothesis _
        · exact .pure sz
  exact (spaces 1).goes fun _ => .emit (by decide) _ _

theorem readString_keeps (room : Nat) (buffer : List Char) (special : Bool) (ch : Char) :
    Keeps (readString room buffer special ch) := by
  induction room generalizing buffer special ch with
  | zero =>
      rw [readString]
      split_ifs
      · exact .bufferOverflow
      · exact .errorAt _ _
      · exact .bufferOverflow
  | succ room inductionHypothesis =>
      rw [readString]
      split_ifs
      · exact .errorAt _ _
      · exact Keeps.readChar.bind fun next => inductionHypothesis _ _ next
      · exact .pure buffer

theorem Goes.lexString : Goes lexString :=
  Keeps.readChar.goes fun ch => (readString_keeps _ _ _ ch).goes fun _ =>
    Keeps.readChar.goes fun _ => .emit (by decide) _ _

theorem readEscaped_keeps (room : Nat) (buffer : List Char) (ch : Char) :
    Keeps (readEscaped room buffer ch) := by
  induction room generalizing buffer ch with
  | zero => exact .bufferOverflow
  | succ room inductionHypothesis =>
      apply Keeps.readChar.bind
      intro next
      split_ifs
      · exact inductionHypothesis _ _
      · exact .bufferOverflow
      · exact .pure _

theorem Goes.lexChar : Goes lexChar := by
  apply Keeps.readChar.goes
  intro ch
  have characters : Keeps (readCharacters ch) := by
    apply Keeps.readChar.bind
    intro next
    split_ifs
    · exact readEscaped_keeps _ _ _
    · exact .pure _
  apply characters.goes
  rintro ⟨buffer, ch⟩
  dsimp only
  split_ifs
  · exact .errorAt _ _
  · exact Keeps.readChar.goes fun _ => .emit (by decide) _ _

/-- A comment ends behind a slash. -/
theorem slash_of_skipComment {pos pos' : Nat} {loc loc' : SourceLocation} {behind : List Char}
    (isOk : skipComment pos loc behind = .ok (pos', loc')) :
    ∃ i, behind[i]? = some '/' ∧ pos' = pos + i + 2 := by
  induction pos, loc, behind using skipComment.induct with
  | case1 pos loc => cases isOk
  | case2 pos loc => cases isOk
  | case3 pos loc rest =>
      rw [skipComment, if_pos rfl, if_pos rfl] at isOk
      cases isOk
      exact ⟨1, rfl, rfl⟩
  | case4 pos loc rest notSlash =>
      rw [skipComment, if_pos rfl, if_neg notSlash, if_pos rfl] at isOk
      cases isOk
  | case5 pos loc next rest notSlash notNul inductionHypothesis =>
      rw [skipComment, if_pos rfl, if_neg notSlash, if_neg notNul] at isOk
      obtain ⟨i, isAt, isPos⟩ := inductionHypothesis isOk
      exact ⟨i + 2, isAt, by omega⟩
  | case6 pos loc rest notStar =>
      rw [skipComment.eq_def] at isOk
      cases isOk
  | case7 pos loc ch rest notStar notNul inductionHypothesis =>
      rw [skipComment.eq_def] at isOk
      simp only [notStar, notNul, if_false] at isOk
      obtain ⟨i, isAt, isPos⟩ := inductionHypothesis isOk
      exact ⟨i + 1, isAt, by omega⟩

/-- A line ends at a character that is none of it. -/
theorem ended_of_skipLine {pos pos' : Nat} {behind : List Char}
    (isOk : skipLine pos behind = .ok pos') :
    ∃ i, ∃ ch, behind[i]? = some ch ∧ pos' = pos + 1 + i := by
  induction behind generalizing pos with
  | nil => cases isOk
  | cons ch behind inductionHypothesis =>
      rw [skipLine] at isOk
      split_ifs at isOk
      · obtain ⟨i, ch, isAt, isPos⟩ := inductionHypothesis isOk
        exact ⟨i + 1, ch, isAt, by omega⟩
      · cases isOk
        exact ⟨0, ch, rfl, rfl⟩

theorem Goes.lexSlash {again : Lex Token} (goes : Goes again) : Goes (lexSlash again) := by
  apply Keeps.readChar.goes
  intro ch
  split_ifs
  · intro s unended
    change Allows True _ (((skipComment s.buf.size s.loc
      (s.buf.elements.drop (s.buf.size + 1))).map _).bind _)
    cases isOk : skipComment s.buf.size s.loc (s.buf.elements.drop (s.buf.size + 1)) with
    | error failure => exact fun _ => trivial
    | ok result =>
        obtain ⟨i, isAt, isPos⟩ := slash_of_skipComment isOk
        rw [List.getElem?_drop] at isAt
        have inside := unended.next (by decide) isAt
        exact goes ⟨{ s.buf with size := result.1 }, result.2⟩
          ⟨by dsimp only; omega, unended.noNul, unended.isLast⟩
  · intro s unended
    change Allows True _ (((skipLine s.buf.size
      (s.buf.elements.drop (s.buf.size + 1))).map _).bind _)
    cases isOk : skipLine s.buf.size (s.buf.elements.drop (s.buf.size + 1)) with
    | error failure => exact fun _ => trivial
    | ok pos =>
        obtain ⟨i, ch, isAt, isPos⟩ := ended_of_skipLine isOk
        rw [List.getElem?_drop] at isAt
        have inside := (List.getElem?_eq_some_iff.mp isAt).1
        exact goes ⟨{ s.buf with size := pos },
            { s.loc with column := s.loc.column + (pos - s.buf.size + 1) }⟩
          ⟨by dsimp only; omega, unended.noNul, unended.isLast⟩
  · exact Keeps.readChar.goes fun _ => .emit (by decide) _ _
  · exact .emit (by decide) _ _

/-- No token of such a text is a `T_eof`. -/
theorem lexToken_goes (fuel : Nat) : Goes (lexToken fuel) := by
  induction fuel with
  | zero =>
      intro s unended
      exact fun _ => trivial
  | succ fuel inductionHypothesis =>
      intro s unended
      have located : s.located.Unended := ⟨unended.inside, unended.noNul, unended.isLast⟩
      have isChar : s.buf.elements.getD (s.buf.size + 0) '\x00' ≠ '\x00' := by
        rw [Nat.add_zero, List.getD_eq_getElem?_getD, List.getElem?_eq_getElem unended.inside]
        intro isNul
        exact unended.noNul (isNul ▸ List.getElem_mem unended.inside)
      change Allows True _ ((if _ then _ else _ : Lex Token) s.located)
      split_ifs
      · exact Goes.lexDirective _ located
      · exact Goes.lexNewline _ located
      · exact Goes.lexSlash inductionHypothesis _ located
      · exact Goes.lexWhitespace fuel _ located
      · exact Goes.lexNumber _ _ located
      · exact Goes.lexString _ located
      · exact Goes.lexChar _ located
      · split
        · rename_i punctuator isPunctuator
          exact punctuators_goes _ (branch_mem isPunctuator) _ located
        · exact Goes.lexWord _ _ located
      · split
        · rename_i punctuator isPunctuator
          exact punctuators_goes _ (branch_mem isPunctuator) _ located
        · exact Goes.errorAt _ _ _ located

theorem bind_error {first : Lex α} {rest : α → Lex β} {failure : Failure}
    (isError : first s = .error failure) : (first >>= rest) s = .error failure := by
  change (first s).bind (fun result => rest result.1 result.2) = _
  rw [isError]
  rfl

/-- The loop comes to no end in such a text. -/
theorem libcTokens_unended {fuel rounds : Nat} (unended : s.Unended) :
    ∃ failure, libcTokens fuel rounds s = .error failure := by
  induction rounds generalizing s with
  | zero => exact ⟨_, rfl⟩
  | succ rounds inductionHypothesis =>
      have inside := unended.inside
      change ∃ failure, (if s.buf.size < s.buf.elements.length then
        (lexToken fuel >>= fun tk => if tk.kind = .eof then _ else _) else _ :
          Lex (List Token × Bool)) s = _
      rw [if_pos inside]
      have goes := lexToken_goes fuel s unended
      cases isToken : lexToken fuel s with
      | error failure =>
          rw [bind_error isToken]
          exact ⟨failure, rfl⟩
      | ok result =>
          obtain ⟨tk, s'⟩ := result
          rw [isToken] at goes
          rw [bind_eq isToken, if_neg goes.1]
          obtain ⟨failure, isFailure⟩ := inductionHypothesis goes.2
          rw [bind_error isFailure]
          exact ⟨failure, rfl⟩

end Unended

/-! ## Two runs -/

section Runs

variable {filename : String} {initCapacity : Nat} {values : List Text}

/-- The blocks of which every byte is a letter. -/
def letters : Nat → Block := fun _ _ => 'x'

/-- With letters behind the text no tokens are produced. -/
theorem not_produces_letters
    (isGap : (appended values).length < capacityAfter initCapacity 0 values)
    (tokens : List Token) : ¬Produces filename (libcSrc initCapacity values letters) tokens := by
  rintro ⟨fuel, rounds, isProduced⟩
  obtain ⟨holds, isLength⟩ := @libcSrc_holds (fun ch => ch = 'x') initCapacity values letters
    fun _ _ => rfl
  generalize libcSrc initCapacity values letters = src at isProduced holds isLength
  have isSplit := List.take_append_drop src.size src.elements
  have isBehind : src.elements.drop src.size ≠ [] := by
    rw [ne_eq, List.drop_eq_nil_iff, holds.size_eq]
    omega
  have unended : (start filename src.elements).Unended := by
    refine ⟨?_, ?_, ?_⟩
    · change 0 < src.elements.length
      omega
    · change '\x00' ∉ src.elements
      rw [← isSplit, List.mem_append, holds.text_eq]
      rintro (member | member)
      · exact appended_noNul values member
      · exact absurd (holds.gap _ member) (by decide)
    · change src.elements.getLast? = some 'x'
      rw [← isSplit, List.getLast?_append_of_ne_nil _ isBehind,
        List.getLast?_eq_some_getLast isBehind, holds.gap _ (List.getLast_mem isBehind)]
  obtain ⟨failure, isFailure⟩ := @libcTokens_unended _ fuel rounds unended
  rw [genLibcTokenStream, isFailure] at isProduced
  cases isProduced

/-- Two runs produce the same tokens if and only if the appends left no byte unwritten, or no
bytes behind the text make it one that the lexer reads to an end. -/
theorem sameTokens_iff (filename : String) (initCapacity : Nat) (values : List Text) :
    SameTokens filename initCapacity values ↔
      (appended values).length = capacityAfter initCapacity 0 values ∨
        ∀ blocks tokens, ¬Produces filename (libcSrc initCapacity values blocks) tokens := by
  constructor
  · intro same
    by_cases isFull : (appended values).length = capacityAfter initCapacity 0 values
    · exact Or.inl isFull
    · right
      intro blocks tokens produces
      obtain ⟨holds, isLength⟩ := @libcSrc_holds (fun _ => True) initCapacity values blocks
        fun _ _ => trivial
      have inside := holds.inside
      rw [holds.size_eq, isLength] at inside
      exact not_produces_letters (lt_of_le_of_ne inside isFull) tokens
        (same blocks letters tokens produces)
  · rintro (isFull | notProduces) blocks blocks' tokens produces
    · have isText (blocks : Nat → Block) :
          libcSrc initCapacity values blocks = ⟨appended values, (appended values).length⟩ := by
        obtain ⟨holds, isLength⟩ := @libcSrc_holds (fun _ => True) initCapacity values blocks
          fun _ _ => trivial
        have isAll : (libcSrc initCapacity values blocks).elements.length ≤
            (libcSrc initCapacity values blocks).size := by
          rw [holds.size_eq, isLength, isFull]
        have isElements := holds.text_eq
        rw [List.take_of_length_le isAll] at isElements
        rw [← isElements, ← holds.size_eq.trans (congrArg List.length isElements.symm)]
      rw [isText] at produces ⊢
      exact produces
    · exact absurd produces (notProduces blocks tokens)

/-- The text of one declaration. -/
def declaration : Text := ⟨['i', 'n', 't', ' ', 'x', ';'], by decide⟩

/-- A buffer of 8 bytes has two unwritten ones behind the declaration. -/
theorem declaration_not_sameTokens :
    ¬∀ filename initCapacity values, SameTokens filename initCapacity values := by
  intro same
  have isProduced : (genLibcTokenStream 10 10 "lib/c.c"
      (libcSrc 8 [declaration] fun _ _ => '\x00')).isSome := by
    decide +kernel
  obtain ⟨tokens, isTokens⟩ := Option.isSome_iff_exists.mp isProduced
  exact not_produces_letters (by decide) tokens
    (same "lib/c.c" 8 [declaration] _ letters tokens ⟨10, 10, isTokens⟩)

end Runs

end Shecc.Lexer
