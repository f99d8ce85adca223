import Mathlib.Data.List.TakeDrop
import Mathlib.Data.List.Flatten
import Mathlib.Data.List.Infix

/-!
# Inlining the C library

`tools/inliner.c`, which turns the files of the C library into calls that append their lines
to the library's source. A file is read through a buffer of fixed size, so a long line arrives
in pieces, and every piece is written as a line. What the generated calls append is read back
by decoding their string literals, and compared with the lines of the file.
-/

namespace Shecc.Inliner

/-! ## The program -/

/-- `MAX_LINE_LEN`. -/
def maxLineLen : Nat := 200

/-- `fgets` into a buffer with room for the given number of characters, the terminator not
counted: what was read, and what is left of the file. Nothing is read only at its end. -/
def fgets : (room : Nat) → (file : List Char) → List Char × List Char
  | 0, file => ([], file)
  | _ + 1, [] => ([], [])
  | room + 1, ch :: file =>
      if ch = '\n' then ([ch], file)
      else
        let rest := fgets room file
        (ch :: rest.1, rest.2)

/-- The loop of `write_line`, which stops at the terminator of the string. -/
def escape : (src : List Char) → List Char
  | [] => []
  | ch :: src =>
      if ch = '\x00' then []
      else if ch = '\\' then '\\' :: '\\' :: escape src
      else if ch = '\"' then '\\' :: '\"' :: escape src
      else if ch ≠ '\n' then ch :: escape src
      else escape src

/-- What a generated call begins with. -/
def opening : List Char := "  __c(\"".toList

/-- What a generated call ends with, after its literal. -/
def closing : List Char := ");\n".toList

/-- `write_line`, on the text of `SOURCE`. -/
def writeLine (source src : List Char) : List Char :=
  source ++ opening ++ escape src ++ ['\\', 'n'] ++ '\"' :: closing

/-- `!strncmp(buffer, text, strlen(text))`. -/
def begins (text : String) (buffer : List Char) : Bool := text.toList.isPrefixOf buffer

/-- The loop of `load_from`, cut off after `fuel` rounds. -/
def loadFromLoop : (fuel : Nat) → (file source : List Char) → List Char
  | 0, _, source => source
  | fuel + 1, file, source =>
      let line := fgets (maxLineLen - 1) file
      if line.1 = [] then source
      else if begins "#pragma once" line.1 then loadFromLoop fuel line.2 source
      else if begins "#include \"c.h\"" line.1 then loadFromLoop fuel line.2 source
      else loadFromLoop fuel line.2 (writeLine source line.1)

/-- `load_from`. Every round but the last reads a character of the file. -/
def loadFrom (file source : List Char) : List Char :=
  loadFromLoop (file.length + 1) file source

/-- The text that `main` saves, of a library file and its header. -/
def inlined (impl decl : List Char) : List Char :=
  let source := "/* Created by tools/inliner - DO NOT EDIT. */\n".toList
  let source := source ++ "void __c(char *src) \x7b\n".toList
  let source := source ++ "    strbuf_puts(LIBC_SRC, src);\n".toList
  let source := source ++ "\x7d\n".toList
  let source := source ++ "void libc_impl() \x7b\n".toList
  let source := loadFrom impl source ++ "\x7d\n".toList
  let source := source ++ "void libc_decl() \x7b\n".toList
  loadFrom decl source ++ "\x7d\n".toList

/-! ## Reading the calls back -/

/-- The character of a simple escape sequence. -/
def simpleEscape (ch : Char) : Option Char :=
  if ch = 'n' then some '\n'
  else if ch = 't' then some '\t'
  else if ch = 'r' then some '\r'
  else if ch = 'a' then some '\x07'
  else if ch = 'b' then some '\x08'
  else if ch = 'v' then some '\x0b'
  else if ch = 'f' then some '\x0c'
  else if ch = '\\' ∨ ch = '\"' ∨ ch = '\'' ∨ ch = '?' then some ch
  else none

/-- The value of a string literal after its opening quote, and what follows it. -/
def literal : List Char → Option (List Char × List Char)
  | [] => none
  | ch :: text =>
      if ch = '\"' then some ([], text)
      else if ch = '\n' then none
      else if ch = '\\' then
        match text with
        | [] => none
        | escaped :: text => do
            let value ← simpleEscape escaped
            let rest ← literal text
            return (value :: rest.1, rest.2)
      else (literal text).map fun rest => (ch :: rest.1, rest.2)

/-- The arguments of generated calls one after the other, cut off after `fuel` calls. -/
def argumentsLoop : (fuel : Nat) → List Char → Option (List Char)
  | _, [] => some []
  | 0, _ :: _ => none
  | fuel + 1, text => do
      let text ← text.dropPrefix? opening
      let argument ← literal text
      let text ← argument.2.dropPrefix? closing
      let arguments ← argumentsLoop fuel text
      return argument.1 ++ arguments

/-- What a sequence of generated calls appends. -/
def arguments (text : List Char) : Option (List Char) := argumentsLoop text.length text

/-! ## The lines of a file -/

/-- The lines of a text, each with the line feed that ends it; the last one may have none. -/
def lines : List Char → List (List Char)
  | [] => []
  | ch :: text =>
      if ch = '\n' then [ch] :: lines text
      else
        match lines text with
        | [] => [[ch]]
        | line :: rest => (ch :: line) :: rest

/-- The lines that the inliner drops. -/
def Dropped (line : List Char) : Prop :=
  begins "#pragma once" line ∨ begins "#include \"c.h\"" line

instance (line : List Char) : Decidable (Dropped line) := inferInstanceAs (Decidable (_ ∨ _))

/-- The text of a file without the lines that are dropped. -/
def kept (file : List Char) : List Char :=
  ((lines file).filter fun line => ¬ Dropped line).flatten

/-! ## What the calls append -/

/-- What a piece of a line becomes in the library's source. -/
def appended (piece : List Char) : List Char := piece.filter (· ≠ '\n') ++ ['\n']

theorem literal_quote (text : List Char) : literal ('\"' :: text) = some ([], text) := by
  rw [literal.eq_def]
  simp

theorem literal_plain {ch : Char} (hquote : ch ≠ '\"') (hfeed : ch ≠ '\n') (hslash : ch ≠ '\\')
    (text : List Char) :
    literal (ch :: text) = (literal text).map fun rest => (ch :: rest.1, rest.2) := by
  rw [literal.eq_def]
  simp only [hquote, hfeed, hslash, if_false]

theorem literal_escaped {escaped value : Char} (hvalue : simpleEscape escaped = some value)
    (text : List Char) :
    literal ('\\' :: escaped :: text) =
      (literal text).map fun rest => (value :: rest.1, rest.2) := by
  rw [literal.eq_def]
  cases hrest : literal text <;> simp [hvalue, hrest]

/-- The escaped text of a piece is the literal of what it appends. -/
theorem literal_escape {piece : List Char} (hzero : '\x00' ∉ piece) (rest : List Char) :
    literal (escape piece ++ '\\' :: 'n' :: '\"' :: rest) = some (appended piece, rest) := by
  induction piece with
  | nil =>
      rw [escape, List.nil_append, literal_escaped rfl, literal_quote]
      rfl
  | cons ch piece inductionHypothesis =>
      rw [List.mem_cons, not_or] at hzero
      have hrest := inductionHypothesis hzero.2
      have hnul : ch ≠ '\x00' := fun heq => hzero.1 heq.symm
      by_cases hslash : ch = '\\'
      · subst hslash
        have hescape : escape ('\\' :: piece) = '\\' :: '\\' :: escape piece := by simp [escape]
        rw [hescape, List.cons_append, List.cons_append, literal_escaped rfl, hrest]
        simp [appended]
      · by_cases hquote : ch = '\"'
        · subst hquote
          have hescape : escape ('\"' :: piece) = '\\' :: '\"' :: escape piece := by simp [escape]
          rw [hescape, List.cons_append, List.cons_append, literal_escaped rfl, hrest]
          simp [appended]
        · by_cases hfeed : ch = '\n'
          · subst hfeed
            simpa [escape, appended] using hrest
          · have hescape : escape (ch :: piece) = ch :: escape piece := by
              simp [escape, hnul, hslash, hquote, hfeed]
            rw [hescape, List.cons_append, literal_plain hquote hfeed hslash, hrest]
            simp [appended, hfeed]

/-- The call that is written for a piece. -/
def call (piece : List Char) : List Char :=
  opening ++ (escape piece ++ '\\' :: 'n' :: '\"' :: closing)

theorem writeLine_eq (source piece : List Char) : writeLine source piece = source ++ call piece := by
  simp [writeLine, call]

/-- A generated call is read as its argument. -/
theorem argumentsLoop_call {piece : List Char} (hzero : '\x00' ∉ piece) (fuel : Nat)
    (text : List Char) :
    argumentsLoop (fuel + 1) (call piece ++ text) =
      (argumentsLoop fuel text).map (appended piece ++ ·) := by
  have hopened : (call piece ++ text).dropPrefix? opening =
      some (escape piece ++ '\\' :: 'n' :: '\"' :: (closing ++ text)) := by
    rw [List.dropPrefix?_eq_some_iff]
    exact ⟨opening, by simp [call], beq_self_eq_true opening⟩
  have hclosed : (closing ++ text).dropPrefix? closing = some text :=
    List.dropPrefix?_append_of_beq _ (beq_self_eq_true closing)
  obtain ⟨ch, tail, hcons⟩ : ∃ ch tail, call piece ++ text = ch :: tail := ⟨' ', _, rfl⟩
  rw [hcons, argumentsLoop.eq_3 _ _ (by simp), ← hcons, hopened]
  cases hrest : argumentsLoop fuel text <;>
    simp [literal_escape hzero, hclosed, hrest]

theorem argumentsLoop_calls {pieces : List (List Char)} (hzero : ∀ piece ∈ pieces, '\x00' ∉ piece)
    {fuel : Nat} (henough : pieces.length ≤ fuel) :
    argumentsLoop fuel (pieces.flatMap call) = some (pieces.flatMap appended) := by
  induction pieces generalizing fuel with
  | nil => cases fuel <;> rfl
  | cons piece pieces inductionHypothesis =>
      cases fuel with
      | zero => simp at henough
      | succ fuel =>
          have hrest := inductionHypothesis
            (fun piece hmem => hzero piece (List.mem_cons_of_mem _ hmem))
            (Nat.le_of_succ_le_succ henough)
          rw [List.flatMap_cons, argumentsLoop_call (hzero piece List.mem_cons_self), hrest]
          rfl

theorem length_flatMap_call (pieces : List (List Char)) :
    pieces.length ≤ (pieces.flatMap call).length := by
  induction pieces with
  | nil => exact le_rfl
  | cons piece pieces inductionHypothesis =>
      rw [List.flatMap_cons, List.length_append, List.length_cons]
      have hcall : 1 ≤ (call piece).length := by simp [call, opening]
      omega

theorem arguments_calls {pieces : List (List Char)} (hzero : ∀ piece ∈ pieces, '\x00' ∉ piece) :
    arguments (pieces.flatMap call) = some (pieces.flatMap appended) :=
  argumentsLoop_calls hzero (length_flatMap_call pieces)

/-! ## How a file is read -/

/-- What is read is taken off the file. -/
theorem fgets_append (room : Nat) (file : List Char) :
    (fgets room file).1 ++ (fgets room file).2 = file := by
  induction room generalizing file with
  | zero => rfl
  | succ room inductionHypothesis =>
      cases file with
      | nil => rfl
      | cons ch file =>
          by_cases hfeed : ch = '\n'
          · simp [fgets, hfeed]
          · simp [fgets, hfeed, inductionHypothesis]

/-- Something is read of a file that has not ended. -/
theorem fgets_ne_nil {room : Nat} (hroom : 0 < room) {file : List Char} (hfile : file ≠ []) :
    (fgets room file).1 ≠ [] := by
  cases room with
  | zero => exact absurd hroom (lt_irrefl 0)
  | succ room =>
      cases file with
      | nil => exact absurd rfl hfile
      | cons ch file => by_cases hfeed : ch = '\n' <;> simp [fgets, hfeed]

theorem fgets_shorter {room : Nat} (hroom : 0 < room) {file : List Char} (hfile : file ≠ []) :
    (fgets room file).2.length < file.length := by
  have hread := List.length_pos_iff.mpr (fgets_ne_nil hroom hfile)
  have htotal := congrArg List.length (fgets_append room file)
  rw [List.length_append] at htotal
  omega

/-- What the rounds of `load_from` read. -/
def pieces (file : List Char) : List (List Char) :=
  if hfile : file = [] then []
  else (fgets (maxLineLen - 1) file).1 :: pieces (fgets (maxLineLen - 1) file).2
termination_by file.length
decreasing_by exact fgets_shorter (by decide) hfile

theorem pieces_nil : pieces [] = [] := by
  rw [pieces]
  simp

theorem pieces_cons {file : List Char} (hfile : file ≠ []) :
    pieces file = (fgets (maxLineLen - 1) file).1 :: pieces (fgets (maxLineLen - 1) file).2 := by
  rw [pieces]
  simp [hfile]

theorem pieces_flatten (file : List Char) : (pieces file).flatten = file := by
  induction file using pieces.induct with
  | case1 => simp [pieces_nil]
  | case2 file hfile inductionHypothesis =>
      rw [pieces_cons hfile, List.flatten_cons, inductionHypothesis, fgets_append]

/-- `load_from` writes a call for each piece that is not dropped. -/
theorem loadFromLoop_eq {fuel : Nat} {file : List Char} (henough : file.length < fuel)
    (source : List Char) :
    loadFromLoop fuel file source =
      source ++ ((pieces file).filter fun piece => ¬ Dropped piece).flatMap call := by
  induction fuel generalizing file source with
  | zero => exact absurd henough (Nat.not_lt_zero _)
  | succ fuel inductionHypothesis =>
      by_cases hfile : file = []
      · subst hfile
        simp [loadFromLoop, pieces_nil, fgets, maxLineLen]
      · have hread : (fgets (maxLineLen - 1) file).1 ≠ [] := fgets_ne_nil (by decide) hfile
        have hshorter : (fgets (maxLineLen - 1) file).2.length < file.length :=
          fgets_shorter (by decide) hfile
        have hrest := fun source => inductionHypothesis (Nat.lt_of_lt_of_le hshorter
          (Nat.le_of_lt_succ henough)) source
        rw [loadFromLoop, pieces_cons hfile]
        by_cases hpragma : begins "#pragma once" (fgets (maxLineLen - 1) file).1
        · simp [hread, hpragma, hrest, Dropped]
        · by_cases hinclude : begins "#include \"c.h\"" (fgets (maxLineLen - 1) file).1
          · simp [hread, hpragma, hinclude, hrest, Dropped]
          · simp [hread, hpragma, hinclude, hrest, Dropped, writeLine_eq]

theorem loadFrom_eq (file source : List Char) :
    loadFrom file source =
      source ++ ((pieces file).filter fun piece => ¬ Dropped piece).flatMap call :=
  loadFromLoop_eq (Nat.lt_succ_self _) source

/-! ## A line of a file -/

/-- A line feed is only at the end of a line, and only the last line of a file may lack it. -/
structure IsLine (line after : List Char) : Prop where
  nonempty : line ≠ []
  single : '\n' ∉ line.dropLast
  ended : after = [] ∨ line.getLast? = some '\n'

theorem IsLine.tail {ch : Char} {line after : List Char} (hline : IsLine (ch :: line) after)
    (hne : line ≠ []) : IsLine line after := by
  obtain ⟨-, hsingle, hended⟩ := hline
  rw [List.dropLast_cons_of_ne_nil hne, List.mem_cons, not_or] at hsingle
  rw [List.getLast?_cons_of_ne_nil hne] at hended
  exact ⟨hne, hsingle.2, hended⟩

theorem IsLine.drop {line after : List Char} (hline : IsLine line after) {n : Nat}
    (hn : n < line.length) : IsLine (line.drop n) after := by
  induction n generalizing line with
  | zero => exact hline
  | succ n inductionHypothesis =>
      cases line with
      | nil => exact absurd rfl hline.nonempty
      | cons ch line =>
          rw [List.length_cons, Nat.succ_lt_succ_iff] at hn
          have hne : line ≠ [] := List.ne_nil_of_length_pos (Nat.zero_lt_of_lt hn)
          exact inductionHypothesis (hline.tail hne) hn

/-- Reading stops in a line where the room ends, or else at its end. -/
theorem fgets_line {line after : List Char} (hline : IsLine line after) (room : Nat) :
    fgets room (line ++ after) = (line.take room, line.drop room ++ after) := by
  induction room generalizing line with
  | zero => rfl
  | succ room inductionHypothesis =>
      cases line with
      | nil => exact absurd rfl hline.nonempty
      | cons ch line =>
          by_cases hne : line = []
          · subst hne
            by_cases hfeed : ch = '\n'
            · simp [fgets, hfeed]
            · have hafter : after = [] := by
                rcases hline.ended with hafter | hlast
                · exact hafter
                · simp [hfeed] at hlast
              subst hafter
              cases room <;> simp [fgets, hfeed]
          · have hfeed : ch ≠ '\n' := by
              rintro rfl
              have hsingle := hline.single
              rw [List.dropLast_cons_of_ne_nil hne] at hsingle
              exact hsingle List.mem_cons_self
            rw [List.cons_append, fgets]
            simp [hfeed, inductionHypothesis (hline.tail hne)]

/-- A line is read in pieces of one size, the last of which may be shorter. -/
theorem IsLine.pieces_append {line after : List Char} (hline : IsLine line after) :
    pieces (line ++ after) = line.take 199 :: pieces (line.drop 199 ++ after) := by
  have hne : line ++ after ≠ [] := by simp [hline.nonempty]
  rw [pieces_cons hne, show maxLineLen - 1 = 199 from rfl, fgets_line hline]

theorem IsLine.alone {line after : List Char} (hline : IsLine line after) : IsLine line [] :=
  ⟨hline.nonempty, hline.single, Or.inl rfl⟩

theorem IsLine.pieces_eq {line after : List Char} (hline : IsLine line after) :
    pieces line = line.take 199 :: pieces (line.drop 199) := by
  have hread := hline.alone.pieces_append
  rwa [List.append_nil, List.append_nil] at hread

/-- The pieces of a line do not depend on what follows it. -/
theorem IsLine.pieces_split {line after : List Char} (hline : IsLine line after) :
    pieces (line ++ after) = pieces line ++ pieces after := by
  induction hlength : line.length using Nat.strongRecOn generalizing line with
  | ind length inductionHypothesis =>
      rw [hline.pieces_append, hline.pieces_eq, List.cons_append]
      by_cases hlong : 199 < line.length
      · have hshorter : (line.drop 199).length < length := by
          rw [List.length_drop]
          omega
        rw [inductionHypothesis _ hshorter (hline.drop hlong) rfl]
      · rw [List.drop_eq_nil_of_le (Nat.le_of_not_lt hlong), List.nil_append, pieces_nil,
          List.nil_append]

/-! ## The lines of a file -/

theorem lines_feed (after : List Char) : lines ('\n' :: after) = ['\n'] :: lines after := by
  rw [lines.eq_def]
  simp

theorem lines_single {ch : Char} (hfeed : ch ≠ '\n') : lines [ch] = [[ch]] := by
  rw [lines.eq_def]
  simp [hfeed, lines]

theorem lines_cons {ch : Char} (hfeed : ch ≠ '\n') {text line : List Char}
    {rest : List (List Char)} (hlines : lines text = line :: rest) :
    lines (ch :: text) = (ch :: line) :: rest := by
  rw [lines, hlines]
  simp [hfeed]

/-- A file is empty, or it begins with a line. -/
theorem lines_cases (file : List Char) :
    file = [] ∨ ∃ line after, file = line ++ after ∧ IsLine line after ∧
      lines file = line :: lines after := by
  induction file with
  | nil => exact Or.inl rfl
  | cons ch file inductionHypothesis =>
      right
      by_cases hfeed : ch = '\n'
      · subst hfeed
        exact ⟨['\n'], file, rfl, ⟨by simp, by simp, Or.inr rfl⟩, lines_feed file⟩
      · rcases inductionHypothesis with rfl | ⟨line, after, rfl, hline, hlines⟩
        · exact ⟨[ch], [], rfl, ⟨by simp, by simp, Or.inl rfl⟩, lines_single hfeed⟩
        · refine ⟨ch :: line, after, rfl, ⟨by simp, ?_, ?_⟩, ?_⟩
          · rw [List.dropLast_cons_of_ne_nil hline.nonempty, List.mem_cons, not_or]
            exact ⟨fun heq => hfeed heq.symm, hline.single⟩
          · rw [List.getLast?_cons_of_ne_nil hline.nonempty]
            exact hline.ended
          · exact lines_cons hfeed hlines

/-- The pieces of a file are the pieces of its lines. -/
theorem pieces_lines (file : List Char) : pieces file = (lines file).flatMap pieces := by
  induction hlength : file.length using Nat.strongRecOn generalizing file with
  | ind length inductionHypothesis =>
      rcases lines_cases file with rfl | ⟨line, after, rfl, hline, hlines⟩
      · simp [pieces_nil, lines]
      · have hshorter : after.length < length := by
          have hpos := List.length_pos_iff.mpr hline.nonempty
          rw [List.length_append] at hlength
          omega
        rw [hline.pieces_split, hlines, List.flatMap_cons, ← inductionHypothesis _ hshorter after rfl]

theorem isLine_of_mem {file line : List Char} (hmem : line ∈ lines file) : IsLine line [] := by
  induction hlength : file.length using Nat.strongRecOn generalizing file with
  | ind length inductionHypothesis =>
      rcases lines_cases file with rfl | ⟨first, after, rfl, hline, hlines⟩
      · simp [lines] at hmem
      · have hshorter : after.length < length := by
          have hpos := List.length_pos_iff.mpr hline.nonempty
          rw [List.length_append] at hlength
          omega
        rw [hlines, List.mem_cons] at hmem
        rcases hmem with rfl | hmem
        · exact hline.alone
        · exact inductionHypothesis _ hshorter hmem rfl

/-! ## What a line becomes -/

/-- What the pieces of a line append. -/
def written (line : List Char) : List Char :=
  ((pieces line).filter fun piece => ¬ Dropped piece).flatMap appended

/-- What a line should append. -/
def expected (line : List Char) : List Char := if Dropped line then [] else line

/-- The pieces of a dropped line are dropped as well, and any other line fits the buffer and
ends in a line feed. -/
structure Fits (line : List Char) : Prop where
  dropped : Dropped line → ∀ k, 199 * k < line.length → Dropped (line.drop (199 * k))
  kept : ¬ Dropped line → line.length ≤ 199 ∧ line.getLast? = some '\n'

theorem begins_take {text : String} {n : Nat} (hroom : text.toList.length ≤ n)
    (line : List Char) : begins text (line.take n) = begins text line := by
  rw [Bool.eq_iff_iff, begins, begins, List.isPrefixOf_iff_prefix, List.isPrefixOf_iff_prefix,
    List.prefix_take_iff]
  exact and_iff_left hroom

/-- Whether a line is dropped is decided by its first piece. -/
theorem dropped_take (line : List Char) : Dropped (line.take 199) ↔ Dropped line := by
  rw [Dropped, Dropped, begins_take (by decide), begins_take (by decide)]

theorem dropped_length {line : List Char} (hdropped : Dropped line) : 12 ≤ line.length := by
  have hlong : ∀ text : String, begins text line → text.toList.length ≤ line.length := by
    intro text hbegins
    exact (List.isPrefixOf_iff_prefix.mp hbegins).length_le
  rcases hdropped with hpragma | hinclude
  · exact hlong _ hpragma
  · exact le_trans (by decide) (hlong _ hinclude)

theorem count_appended (piece : List Char) : (appended piece).count '\n' = 1 := by
  simp [appended, List.count_eq_zero]

theorem count_flatMap_appended (pieces : List (List Char)) :
    (pieces.flatMap appended).count '\n' = pieces.length := by
  induction pieces with
  | nil => rfl
  | cons piece pieces inductionHypothesis =>
      rw [List.flatMap_cons, List.count_append, inductionHypothesis, count_appended,
        List.length_cons, Nat.add_comm]

theorem length_appended (piece : List Char) : (appended piece).length ≤ piece.length + 1 := by
  rw [appended, List.length_append]
  exact Nat.add_le_add_right (List.length_filter_le _ _) 1

theorem IsLine.count {line : List Char} (hline : IsLine line []) :
    line.count '\n' = if line.getLast? = some '\n' then 1 else 0 := by
  have hsplit := List.dropLast_concat_getLast hline.nonempty
  have hfree := List.count_eq_zero.mpr hline.single
  rw [List.getLast?_eq_some_getLast hline.nonempty]
  generalize line.getLast hline.nonempty = last at hsplit
  rw [← hsplit, List.count_append, hfree]
  by_cases hlast : last = '\n' <;> simp [hlast]

/-- A whole line that ends in a line feed is appended as it is. -/
theorem IsLine.appended_eq {line : List Char} (hline : IsLine line [])
    (hlast : line.getLast? = some '\n') : appended line = line := by
  have hsplit := List.dropLast_concat_getLast hline.nonempty
  rw [List.getLast?_eq_some_getLast hline.nonempty, Option.some.injEq] at hlast
  rw [hlast] at hsplit
  have hfree : line.dropLast.filter (· ≠ '\n') = line.dropLast := by
    rw [List.filter_eq_self]
    intro ch hmem
    have hne : ch ≠ '\n' := by
      rintro rfl
      exact hline.single hmem
    simpa using hne
  have hplain : line.filter (· ≠ '\n') = line.dropLast := by
    conv_lhs => rw [← hsplit]
    rw [List.filter_append, hfree]
    simp
  rw [appended, hplain, hsplit]

theorem IsLine.pieces_dropped {line : List Char} (hline : IsLine line []) :
    (∀ piece ∈ pieces line, Dropped piece) ↔
      ∀ k, 199 * k < line.length → Dropped (line.drop (199 * k)) := by
  induction hlength : line.length using Nat.strongRecOn generalizing line with
  | ind length inductionHypothesis =>
      rw [hline.pieces_eq, List.forall_mem_cons, dropped_take]
      by_cases hlong : 199 < line.length
      · have hshorter : (line.drop 199).length < length := by
          rw [List.length_drop]
          omega
        rw [inductionHypothesis _ hshorter (hline.drop hlong) rfl]
        constructor
        · rintro ⟨hfirst, hlater⟩ k hk
          cases k with
          | zero => exact hfirst
          | succ k =>
              have hdropped := hlater k (by rw [List.length_drop]; omega)
              rwa [List.drop_drop, show 199 + 199 * k = 199 * (k + 1) by omega] at hdropped
        · intro hall
          refine ⟨hall 0 (by omega), fun k hk => ?_⟩
          rw [List.length_drop] at hk
          rw [List.drop_drop, show 199 + 199 * k = 199 * (k + 1) by omega]
          exact hall (k + 1) (by omega)
      · rw [List.drop_eq_nil_of_le (Nat.le_of_not_lt hlong), pieces_nil]
        have hpos := List.length_pos_iff.mpr hline.nonempty
        constructor
        · rintro ⟨hfirst, -⟩ k hk
          obtain rfl : k = 0 := by omega
          exact hfirst
        · intro hall
          exact ⟨hall 0 (by omega), by simp⟩

theorem written_nil_iff {line : List Char} :
    (written line).count '\n' = 0 ↔ ∀ piece ∈ pieces line, Dropped piece := by
  rw [written, count_flatMap_appended, List.length_eq_zero_iff, List.filter_eq_nil_iff]
  simp

theorem written_nil {line : List Char} (hall : ∀ piece ∈ pieces line, Dropped piece) :
    written line = [] := by
  rw [written, List.filter_eq_nil_iff.mpr (by simpa using hall)]
  rfl

/-- The first piece of a line that is kept is kept. -/
theorem IsLine.written_kept {line : List Char} (hline : IsLine line []) (hkept : ¬ Dropped line) :
    written line = appended (line.take 199) ++ written (line.drop 199) := by
  have hfirst : ¬ Dropped (line.take 199) := fun hdropped => hkept ((dropped_take line).mp hdropped)
  rw [written, hline.pieces_eq, List.filter_cons_of_pos (by simpa using hfirst)]
  rfl

/-- A line that fits appends what it should. -/
theorem IsLine.written_eq {line : List Char} (hline : IsLine line []) (hfits : Fits line) :
    written line = expected line := by
  by_cases hdropped : Dropped line
  · rw [expected, if_pos hdropped]
    exact written_nil (hline.pieces_dropped.mpr (hfits.dropped hdropped))
  · obtain ⟨hshort, hlast⟩ := hfits.kept hdropped
    rw [hline.written_kept hdropped, List.take_of_length_le hshort, hline.appended_eq hlast,
      List.drop_eq_nil_of_le hshort, expected, if_neg hdropped]
    simp [written, pieces_nil]

/-- No line feed is lost. -/
theorem IsLine.count_le {line : List Char} (hline : IsLine line []) :
    (expected line).count '\n' ≤ (written line).count '\n' := by
  by_cases hdropped : Dropped line
  · simp [expected, hdropped]
  · rw [hline.written_kept hdropped, List.count_append, count_appended, expected,
      if_neg hdropped, hline.count]
    split <;> omega

/-- Where no line feed is added, a line fits, or what it appends is shorter. -/
theorem IsLine.length_lt {line : List Char} (hline : IsLine line [])
    (hcount : (written line).count '\n' = (expected line).count '\n') (hfits : ¬ Fits line) :
    (written line).length < (expected line).length := by
  by_cases hdropped : Dropped line
  · rw [expected, if_pos hdropped, List.count_nil, written_nil_iff, hline.pieces_dropped] at hcount
    exact absurd ⟨fun _ => hcount, fun hkept => absurd hdropped hkept⟩ hfits
  · rw [hline.written_kept hdropped, List.count_append, count_appended, expected,
      if_neg hdropped, hline.count] at hcount
    rw [hline.written_kept hdropped, expected, if_neg hdropped]
    have hlast : line.getLast? = some '\n' := by
      by_contra hlast
      rw [if_neg hlast] at hcount
      omega
    rw [if_pos hlast] at hcount
    have hlong : 199 < line.length := by
      by_contra hshort
      exact hfits ⟨fun hdrop => absurd hdrop hdropped, fun _ => ⟨Nat.le_of_not_lt hshort, hlast⟩⟩
    have hlater : ∀ piece ∈ pieces (line.drop 199), Dropped piece :=
      written_nil_iff.mp (by omega)
    have hsecond : Dropped (line.drop 199) :=
      (hline.drop hlong).pieces_dropped.mp hlater 0 (by rw [List.length_drop]; omega)
    have hroom := dropped_length hsecond
    have hpiece := length_appended (line.take 199)
    rw [List.length_drop] at hroom
    rw [List.length_take] at hpiece
    rw [written_nil hlater, List.append_nil]
    omega

/-! ## What a file becomes -/

theorem kept_eq (file : List Char) : kept file = (lines file).flatMap expected := by
  rw [kept]
  induction lines file with
  | nil => rfl
  | cons line rest inductionHypothesis =>
      by_cases hdropped : Dropped line
      · simpa [expected, hdropped] using inductionHypothesis
      · simpa [expected, hdropped] using inductionHypothesis

theorem written_lines (file : List Char) :
    ((pieces file).filter fun piece => ¬ Dropped piece).flatMap appended =
      (lines file).flatMap written := by
  rw [pieces_lines, List.filter_flatMap, List.flatMap_assoc]
  rfl

theorem count_flatMap_le {rest : List (List Char)} (hlines : ∀ line ∈ rest, IsLine line []) :
    (rest.flatMap expected).count '\n' ≤ (rest.flatMap written).count '\n' := by
  induction rest with
  | nil => exact le_rfl
  | cons line rest inductionHypothesis =>
      rw [List.forall_mem_cons] at hlines
      rw [List.flatMap_cons, List.flatMap_cons, List.count_append, List.count_append]
      exact Nat.add_le_add hlines.1.count_le (inductionHypothesis hlines.2)

/-- No line feed is lost, so where the counts agree they agree for each line. -/
theorem count_eq_of_flatMap {rest : List (List Char)} (hlines : ∀ line ∈ rest, IsLine line [])
    (hcount : (rest.flatMap written).count '\n' = (rest.flatMap expected).count '\n') :
    ∀ line ∈ rest, (written line).count '\n' = (expected line).count '\n' := by
  induction rest with
  | nil => simp
  | cons line rest inductionHypothesis =>
      rw [List.forall_mem_cons] at hlines ⊢
      rw [List.flatMap_cons, List.flatMap_cons, List.count_append, List.count_append] at hcount
      have hfirst := hlines.1.count_le
      have hrest := count_flatMap_le hlines.2
      exact ⟨by omega, inductionHypothesis hlines.2 (by omega)⟩

/-- Where the counts agree, a line that does not fit leaves the text shorter. -/
theorem length_flatMap_le {rest : List (List Char)} (hlines : ∀ line ∈ rest, IsLine line [])
    (hcount : ∀ line ∈ rest, (written line).count '\n' = (expected line).count '\n') :
    (rest.flatMap written).length ≤ (rest.flatMap expected).length ∧
      ((rest.flatMap written).length = (rest.flatMap expected).length →
        ∀ line ∈ rest, Fits line) := by
  induction rest with
  | nil => simp
  | cons line rest inductionHypothesis =>
      rw [List.forall_mem_cons] at hlines hcount
      obtain ⟨hrest, hfits⟩ := inductionHypothesis hlines.2 hcount.2
      rw [List.flatMap_cons, List.flatMap_cons, List.length_append, List.length_append,
        List.forall_mem_cons]
      by_cases hfirst : Fits line
      · rw [hlines.1.written_eq hfirst]
        exact ⟨by omega, fun hsame => ⟨hfirst, hfits (by omega)⟩⟩
      · have hshorter := hlines.1.length_lt hcount.1 hfirst
        exact ⟨by omega, fun hsame => absurd hsame (by omega)⟩

/-- The text that is appended is the wanted one exactly if every line fits. -/
theorem flatMap_written_iff {rest : List (List Char)} (hlines : ∀ line ∈ rest, IsLine line []) :
    rest.flatMap written = rest.flatMap expected ↔ ∀ line ∈ rest, Fits line := by
  constructor
  · intro hsame
    have hcount := count_eq_of_flatMap hlines (congrArg (List.count '\n') hsame)
    exact (length_flatMap_le hlines hcount).2 (congrArg List.length hsame)
  · intro hfits
    rw [List.flatMap_def, List.flatMap_def]
    congr 1
    exact List.map_congr_left fun line hmem => (hlines line hmem).written_eq (hfits line hmem)

theorem zero_notMem_pieces {file : List Char} (hzero : '\x00' ∉ file) :
    ∀ piece ∈ (pieces file).filter fun piece => ¬ Dropped piece, '\x00' ∉ piece := by
  intro piece hmem hin
  apply hzero
  rw [← pieces_flatten file]
  exact List.mem_flatten_of_mem (List.mem_of_mem_filter hmem) hin

/-- The calls for a file append its text without the dropped lines exactly if each of its lines
fits. -/
theorem arguments_kept {file : List Char} (hzero : '\x00' ∉ file) (source : List Char) :
    ∃ calls, loadFrom file source = source ++ calls ∧
      (arguments calls = some (kept file) ↔ ∀ line ∈ lines file, Fits line) := by
  refine ⟨_, loadFrom_eq file source, ?_⟩
  rw [arguments_calls (zero_notMem_pieces hzero), Option.some.injEq, written_lines, kept_eq]
  exact flatMap_written_iff fun line hmem => isLine_of_mem hmem

theorem arguments_kept_twoLines :
    ∃ calls, loadFrom "#pragma once\nint n;\n".toList [] = [] ++ calls ∧
      (arguments calls = some (kept "#pragma once\nint n;\n".toList) ↔
        ∀ line ∈ lines "#pragma once\nint n;\n".toList, Fits line) :=
  arguments_kept (by decide) []

/-- A last line without a line feed gets one. -/
theorem last_line_ended :
    ¬ ∃ calls, loadFrom "\x7d".toList [] = [] ++ calls ∧
      arguments calls = some (kept "\x7d".toList) := by
  rintro ⟨calls, hcalls, harguments⟩
  have hwritten : arguments (loadFrom "\x7d".toList []) = some "\x7d\n".toList := by decide +kernel
  have hkept : kept "\x7d".toList = "\x7d".toList := by decide +kernel
  rw [List.nil_append] at hcalls
  rw [← hcalls, hwritten, hkept] at harguments
  simp at harguments

end Shecc.Inliner
