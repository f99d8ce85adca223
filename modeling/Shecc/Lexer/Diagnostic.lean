import Shecc.Lexer.Comment

/-!
# Reported errors

`error_at` prints the line of a location and a marker under it, both put together in an array
of fixed size. What it reads of the source and writes to the array is part of the model.
-/

namespace Shecc.Lexer

open Shecc.Preprocessor (Token SourceLocation Failure maxLineLen)

/-! ## The function -/

/-- What a report prints, the offsets at which it reads the source, and what it stores at which
index of `diagnostic`. -/
structure Diagnostic where
  printed : List String
  reads : List Int := []
  writes : List (Char × Nat) := []

/-- `src->elements[offset]`. -/
def Strbuf.element (src : Strbuf) (offset : Int) : Char := src.elements.getD offset.toNat '\x00'

/-- The loop that finds the start of the line: where it stops, and what it reads. As long as
there are rounds left the offset is not negative. -/
def lineStart (src : Strbuf) : (rounds : Nat) → (offset : Int) → Int × List Int
  | 0, offset => (offset, [])
  | rounds + 1, offset =>
      if src.element offset = '\n' then (offset, [offset])
      else
        let rest := lineStart src rounds (offset - 1)
        (rest.1, offset :: rest.2)

/-- The loop that copies the line: what it copies, and what it reads. As long as there are rounds
left the offset is below the capacity. -/
def copyLine (src : Strbuf) : (rounds : Nat) → (offset : Int) → List Char × List Int
  | 0, _ => ([], [])
  | rounds + 1, offset =>
      let ch := src.element offset
      if ch ≠ '\n' ∧ ch ≠ '\x00' then
        let rest := copyLine src rounds (offset + 1)
        (ch :: rest.1, offset :: rest.2)
      else ([], [offset])

/-- The line under the source line, of a token that is `len` long. -/
def marker (spaces len : Nat) : List Char :=
  List.replicate spaces ' ' ++ '^' :: List.replicate (len - 1) '~' ++ " Error occurs here".toList

/-- A field of six characters for `text`. -/
def field (text : String) : String := String.ofList (List.replicate (6 - text.length) ' ') ++ text

/-- `fatal`. -/
def fatal (msg : String) : Diagnostic := ⟨["[Error]: " ++ msg ++ "\n"], [], []⟩

/-- `error_at` behind the check that there is a source. -/
def reportIn (src : Strbuf) (msg : String) (loc : SourceLocation) : Diagnostic :=
  let len := if loc.len < 1 then 1 else loc.len
  let found := lineStart src (loc.pos + 1).toNat loc.pos
  let startIdx := found.1 + 1
  let copied := copyLine src (src.elements.length - startIdx).toNat startIdx
  let mark := marker (loc.pos - startIdx).toNat len.toNat
  { printed :=
      [loc.filename ++ ":" ++ toString loc.line ++ ":" ++ toString loc.column ++
        ": [Error]: " ++ msg ++ "\n",
        field (toString loc.line) ++ " |  ", String.ofList copied.1 ++ "\n",
        field " " ++ " |  ", String.ofList mark ++ "\n"]
    reads := found.2 ++ copied.2
    writes := (copied.1 ++ ['\x00']).zipIdx ++ (mark ++ ['\x00']).zipIdx }

/-- `error_at`, with the buffers of `SRC_FILE_MAP`. -/
def report (files : String → Option Strbuf) (msg : String) (loc : Option SourceLocation) :
    Diagnostic :=
  match loc with
  | none => fatal msg
  | some loc =>
      match files loc.filename with
      | none => fatal msg
      | some src => reportIn src msg loc

/-- Only elements of the source are read, and only elements of `diagnostic` are written. -/
structure Diagnostic.Inside (diagnostic : Diagnostic) (src : Strbuf) : Prop where
  reads : ∀ offset ∈ diagnostic.reads, 0 ≤ offset ∧ offset < src.elements.length
  writes : ∀ write ∈ diagnostic.writes, write.2 < maxLineLen

/-! ## The line of a location -/

/-- How many of the first `n` characters are behind the last newline among them. -/
def Strbuf.since (src : Strbuf) (n : Nat) : Nat :=
  ((src.elements.take n).reverse.takeWhile (· ≠ '\n')).length

/-- The characters from `start` on up to a newline, a NUL or the end. -/
def Strbuf.line (src : Strbuf) (start : Nat) : List Char :=
  (src.elements.drop start).takeWhile fun ch => ch ≠ '\n' ∧ ch ≠ '\x00'

section Line

variable {src : Strbuf} {pos n : Nat}

theorem Strbuf.element_eq (inside : pos < src.elements.length) :
    src.element pos = src.elements[pos] := by
  simp [Strbuf.element, List.getD_eq_getElem?_getD, inside]

theorem Strbuf.since_succ (inside : n < src.elements.length) :
    src.since (n + 1) = if src.element n = '\n' then 0 else src.since n + 1 := by
  rw [Strbuf.since, List.take_add_one, List.getElem?_eq_getElem inside, Option.toList_some,
    List.reverse_append, List.reverse_singleton, List.singleton_append, List.takeWhile_cons,
    Strbuf.element_eq inside]
  split_ifs with isPlain isFeed isFeed
  · simp [isFeed] at isPlain
  · rfl
  · rfl
  · simp [isFeed] at isPlain

theorem Strbuf.since_le : src.since n ≤ n := by
  have shorter := (@List.takeWhile_sublist _ (src.elements.take n).reverse (· ≠ '\n')).length_le
  rw [List.length_reverse, List.length_take] at shorter
  exact le_trans shorter (min_le_left _ _)

/-- The loop stops before the characters behind the last newline, and reads only elements. -/
theorem lineStart_eq (inside : n ≤ src.elements.length) :
    (lineStart src n ((n : Int) - 1)).1 = (n : Int) - src.since n - 1 ∧
      ∀ offset ∈ (lineStart src n ((n : Int) - 1)).2,
        0 ≤ offset ∧ offset < src.elements.length := by
  induction n with
  | zero => simp [lineStart, Strbuf.since]
  | succ n inductionHypothesis =>
      have isInside : n < src.elements.length := inside
      have isOffset : ((n + 1 : Nat) : Int) - 1 = n := by omega
      rw [isOffset, lineStart, Strbuf.since_succ isInside]
      split_ifs with isFeed
      · refine ⟨by simp, ?_⟩
        simp only [List.mem_singleton, forall_eq]
        omega
      · obtain ⟨isStart, reads⟩ := inductionHypothesis (Nat.le_of_lt isInside)
        refine ⟨?_, ?_⟩
        · simp only [isStart]
          omega
        · simp only [List.forall_mem_cons]
          exact ⟨by omega, reads⟩

/-- The loop copies the line from its start, and reads only elements. -/
theorem copyLine_eq {start rounds : Nat} (isEnd : start + rounds = src.elements.length) :
    (copyLine src rounds start).1 = src.line start ∧
      ∀ offset ∈ (copyLine src rounds start).2, 0 ≤ offset ∧ offset < src.elements.length := by
  induction rounds generalizing start with
  | zero =>
      have isDone : src.elements.drop start = [] := List.drop_eq_nil_of_le (by omega)
      simp [copyLine, Strbuf.line, isDone]
  | succ rounds inductionHypothesis =>
      have isInside : start < src.elements.length := by omega
      have isNext : ((start : Int) + 1) = ((start + 1 : Nat) : Int) := by push_cast; rfl
      rw [copyLine, Strbuf.line, List.drop_eq_getElem_cons isInside, List.takeWhile_cons,
        Strbuf.element_eq isInside, isNext]
      by_cases isMore : src.elements[start] ≠ '\n' ∧ src.elements[start] ≠ '\x00'
      · obtain ⟨isLine, reads⟩ := @inductionHypothesis (start + 1) (by omega)
        simp only [if_pos isMore, List.forall_mem_cons]
        refine ⟨?_, by omega, reads⟩
        rw [isLine, if_pos (decide_eq_true isMore)]
        rfl
      · simp only [if_neg isMore, List.mem_singleton, forall_eq]
        refine ⟨?_, by omega⟩
        simp [isMore]

theorem length_marker (spaces len : Nat) :
    (marker spaces len).length = spaces + 1 + (len - 1) + 18 := by
  simp [marker]
  omega

theorem zipIdx_inside {chars : List Char} {bound : Nat} :
    (∀ write ∈ chars.zipIdx, write.2 < bound) ↔ chars.length ≤ bound := by
  constructor
  · intro inside
    by_contra isLong
    have isLast : bound < chars.length := by omega
    have isWritten : (chars[bound], bound) ∈ chars.zipIdx := by
      rw [List.mem_zipIdx_iff_getElem?]
      simp [isLast]
    exact lt_irrefl bound (inside _ isWritten)
  · intro isShort write isWritten
    have isInside := List.snd_lt_of_mem_zipIdx isWritten
    omega

/-- Where the line that a report copies starts. -/
def Strbuf.lineOf (src : Strbuf) (pos : Nat) : Nat := pos + 1 - src.since (pos + 1)

/-- What a report reads are elements, and what it writes are the line and the marker. -/
theorem reportIn_eq {msg : String} {loc : SourceLocation} (isPos : loc.pos = pos)
    (isInside : pos < src.elements.length) :
    (∀ offset ∈ (reportIn src msg loc).reads, 0 ≤ offset ∧ offset < src.elements.length) ∧
      (reportIn src msg loc).writes = (src.line (src.lineOf pos) ++ ['\x00']).zipIdx ++
        (marker (src.since (pos + 1) - 1) (max loc.len 1).toNat ++ ['\x00']).zipIdx := by
  have isShorter := @Strbuf.since_le src (pos + 1)
  have isPos' : ((pos + 1 : Nat) : Int) - 1 = pos := by omega
  have found := @lineStart_eq src (pos + 1) isInside
  rw [isPos'] at found
  have isRounds : ((pos : Int) + 1).toNat = pos + 1 := by omega
  have isStart : ((pos + 1 : Nat) : Int) - src.since (pos + 1) - 1 + 1 = (src.lineOf pos : Int) := by
    rw [Strbuf.lineOf]
    omega
  have isEnd : src.lineOf pos + ((src.elements.length : Int) - src.lineOf pos).toNat =
      src.elements.length := by
    rw [Strbuf.lineOf]
    omega
  have copied := copyLine_eq isEnd
  have isLen : (if loc.len < 1 then 1 else loc.len) = max loc.len 1 := by
    split_ifs <;> omega
  have isSpaces : ((pos : Int) - src.lineOf pos).toNat = src.since (pos + 1) - 1 := by
    rw [Strbuf.lineOf]
    omega
  unfold reportIn
  simp only [isPos, isRounds, found.1, isStart, isLen, isSpaces, copied.1, List.forall_mem_append]
  exact ⟨⟨found.2, copied.2⟩, trivial⟩

/-- For a position in the source a report stays inside the source and `diagnostic` exactly if
the line that it copies is shorter than `diagnostic`, and so is the marker. -/
theorem report_inside_iff {files : String → Option Strbuf} {msg : String} {loc : SourceLocation}
    (isFile : files loc.filename = some src) (isPos : loc.pos = pos)
    (isInside : pos < src.elements.length) :
    (report files msg (some loc)).Inside src ↔
      (src.line (src.lineOf pos)).length < maxLineLen ∧
        (src.since (pos + 1) - 1) + (max loc.len 1).toNat + 18 < maxLineLen := by
  have isReport : report files msg (some loc) = reportIn src msg loc := by
    simp [report, isFile]
  obtain ⟨reads, isWritten⟩ := @reportIn_eq src pos msg loc isPos isInside
  have isPositive : 1 ≤ (max loc.len 1).toNat := by omega
  have writes : (∀ write ∈ (reportIn src msg loc).writes, write.2 < maxLineLen) ↔
      (src.line (src.lineOf pos)).length < maxLineLen ∧
        (src.since (pos + 1) - 1) + (max loc.len 1).toNat + 18 < maxLineLen := by
    rw [isWritten, List.forall_mem_append, zipIdx_inside, zipIdx_inside, List.length_append,
      List.length_append, length_marker, List.length_singleton]
    omega
  rw [isReport, ← writes]
  exact ⟨fun inside => inside.writes, fun inside => ⟨reads, inside⟩⟩

end Line

/-! ## The positions of tokens -/

/-- Without a NUL in the text tokens are at elements of its buffer. -/
theorem lexTokens_located {before ahead : List Char} {s s' : State} {fuel rounds : Nat}
    {tokens : List Token} (at_ : At before ahead s) (enough : ahead.length < fuel)
    (lexed : lexTokens fuel rounds s = .ok (tokens, s')) :
    ∀ token ∈ tokens, ∃ pos : Nat,
      token.location.pos = pos ∧ pos < (before ++ ahead ++ ['\x00']).length := by
  induction rounds generalizing before ahead s tokens with
  | zero => cases lexed
  | succ rounds inductionHypothesis =>
      have ends := lexToken_ends at_ enough
      rw [lexTokens_succ at_] at lexed
      cases first : lexToken fuel s with
      | error failure =>
          rw [first] at lexed
          cases lexed
      | ok result =>
          rcases result with ⟨token, s₁⟩
          rw [first] at ends lexed
          have lexes : Lexes before ahead token s₁ := ends
          have isHere : ∃ pos : Nat, token.location.pos = pos ∧
              pos < (before ++ ahead ++ ['\x00']).length := by
            rcases lexes.pos with ⟨gap, behind, rfl, -, -, isPos⟩
            refine ⟨_, isPos, ?_⟩
            simp only [List.length_append, List.length_singleton]
            omega
          change (if token.kind = .eof then _ else _) = _ at lexed
          split_ifs at lexed with isEof
          · cases lexed
            simpa using isHere
          · rcases lexes with ⟨gap, behind, rfl, -, -, -, ⟨isEof', -⟩ | makes⟩
            · exact absurd isEof' isEof
            · rcases makes with ⟨chars, rest, rfl, -, -, -, reading⟩
              cases ran : lexTokens fuel rounds s₁ with
              | error failure =>
                  rw [ran] at lexed
                  cases lexed
              | ok more =>
                  rw [ran] at lexed
                  cases lexed
                  have isShort : rest.length < fuel := by
                    rw [List.length_append, List.length_append] at enough
                    omega
                  have later := inductionHypothesis reading.at_ isShort ran
                  rw [List.forall_mem_cons]
                  refine ⟨isHere, ?_⟩
                  simpa only [List.append_assoc] using later

/-- The tokens of a file are at elements of the buffer that its report reads. -/
theorem lexFile_located {text : List Char} {filename : String} {fuel : Nat} {tokens : List Token}
    (noNul : '\x00' ∉ text) (enough : text.length < fuel)
    (lexed : lexFile fuel filename (text ++ ['\x00']) = .ok tokens) :
    ∀ token ∈ tokens, ∃ pos : Nat,
      token.location.pos = pos ∧ pos < (text ++ ['\x00']).length := by
  have at_ : At [] text (start filename (text ++ ['\x00'])) := ⟨rfl, rfl, noNul⟩
  cases ran : lexTokens fuel fuel (start filename (text ++ ['\x00'])) with
  | error failure =>
      rw [lexFile_of_error ran] at lexed
      cases lexed
  | ok result =>
      rcases result with ⟨tokens', s'⟩
      have located := lexTokens_located at_ enough ran
      obtain ⟨rounds, rfl⟩ : ∃ rounds, fuel = rounds + 1 := ⟨fuel - 1, by omega⟩
      rw [lexFile_of_ok ran] at lexed
      rw [List.getLast?_eq_some_getLast (lexTokens_nonempty at_ ran)] at lexed
      dsimp only at lexed
      split_ifs at lexed
      cases lexed
      exact located

/-- A file of one word that does not fit into `token_buffer`, where `lex_token` stops. -/
def longWord : Strbuf := ⟨List.replicate 256 'a' ++ ['\x00'], 255⟩

/-- The location that `lex_token` reports for it. -/
def longWordLocation : SourceLocation := ⟨0, 255, 1, 1, "a.c"⟩

theorem longWord_not_inside :
    lexFile 300 "a.c" longWord.elements = .error (.errorAt "Token too long" longWordLocation) ∧
      ¬ (report (fun _ => some longWord) "Token too long" (some longWordLocation)).Inside
        longWord := by
  refine ⟨by decide +kernel, ?_⟩
  intro inside
  have isWritten : ('\x00', 256) ∈
      (report (fun _ => some longWord) "Token too long" (some longWordLocation)).writes := by
    decide +kernel
  exact absurd (inside.writes _ isWritten) (by decide)

/-- A line that is short enough. -/
def shortLine : Strbuf := ⟨"int x = @;\n\x00".toList, 8⟩

theorem shortLine_inside_iff :
    (report (fun _ => some shortLine) "Unexpected token" (some ⟨8, 1, 1, 9, "a.c"⟩)).Inside
        shortLine ↔
      (shortLine.line (shortLine.lineOf 8)).length < maxLineLen ∧
        (shortLine.since (8 + 1) - 1) + (max (1 : Int) 1).toNat + 18 < maxLineLen :=
  @report_inside_iff shortLine 8 _ _ ⟨8, 1, 1, 9, "a.c"⟩ rfl rfl (by decide)

end Shecc.Lexer
