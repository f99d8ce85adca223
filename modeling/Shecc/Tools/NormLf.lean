import Mathlib.Data.List.Infix

/-!
# Line endings

`tools/norm-lf.c`, which rewrites a file with one kind of line ending before the C library
is inlined. A carriage return is withheld until the next byte tells what it was, so the
output is first described by what is still to come of it, and then compared with the input
where every line ending stands for one line feed.
-/

namespace Shecc.NormLf

/-- `'\r'`. -/
def cr : UInt8 := 13

/-- `'\n'`. -/
def lf : UInt8 := 10

@[simp]
theorem lf_ne_cr : lf ≠ cr := by decide

/-- The variables of `main` while it reads, and what it has written. -/
structure Reading where
  prevCr : Bool := false
  hasCrlf : Bool := false
  hasLf : Bool := false
  hasCrOnly : Bool := false
  output : List UInt8 := []

/-- One round of the loop of `main`. -/
def Reading.next (reading : Reading) (c : UInt8) : Reading :=
  if c = cr then { reading with prevCr := true }
  else if c = lf then
    let reading :=
      if reading.prevCr then { reading with hasCrlf := true }
      else { reading with hasLf := true }
    { reading with output := reading.output ++ [lf], prevCr := false }
  else
    let reading :=
      if reading.prevCr then { reading with output := reading.output ++ [lf], hasCrOnly := true }
      else reading
    { reading with output := reading.output ++ [c], prevCr := false }

/-- A carriage return at the end of the file. -/
def Reading.close (reading : Reading) : Reading :=
  if reading.prevCr then { reading with output := reading.output ++ [lf], hasCrOnly := true }
  else reading

/-- What `main` does with the bytes of its input file. -/
def convert (input : List UInt8) : Reading := (input.foldl Reading.next {}).close

/-- What a run leaves: its exit status, its messages, and the output file it opened. -/
structure Outcome where
  status : Int
  messages : List String
  output : Option (List UInt8)

/-- The warnings at the end of `main`. -/
def Reading.warnings (reading : Reading) (name : String) : List String :=
  (if reading.hasCrOnly then
    ["Warning: Converted CR-only line endings to LF in '" ++ name ++ "'\n"] else []) ++
  if (reading.hasCrlf && reading.hasLf) || (reading.hasCrlf && reading.hasCrOnly) ||
      (reading.hasLf && reading.hasCrOnly) then
    ["Warning: Converted mixed line endings to LF in '" ++ name ++ "'\n"]
  else []

/-- `main`, with the bytes of the input file if it can be opened, and whether the output file
can be created. -/
def main (argv : List String) (input : Option (List UInt8)) (creates : Bool) : Outcome :=
  if argv.length ≠ 3 then
    ⟨1, ["Usage: " ++ argv.getD 0 "" ++ " <input> <output>\n"], none⟩
  else
    match input with
    | none => ⟨1, ["Error: Cannot open input file '" ++ argv.getD 1 "" ++ "'\n"], none⟩
    | some input =>
        if creates then
          let reading := convert input
          ⟨0, reading.warnings (argv.getD 1 ""), some reading.output⟩
        else ⟨1, ["Error: Cannot create output file '" ++ argv.getD 2 "" ++ "'\n"], none⟩

/-! ## What is written -/

/-- The line endings of a text as line feeds: a pair, a lone carriage return and a line feed
each become one. -/
def normalise : List UInt8 → List UInt8
  | [] => []
  | c :: rest =>
      if c = cr then
        match rest with
        | [] => [lf]
        | d :: rest => if d = lf then lf :: normalise rest else lf :: normalise (d :: rest)
      else c :: normalise rest

/-- What is still written when the given bytes are left, and a carriage return is withheld or
not. -/
def remaining : (prevCr : Bool) → List UInt8 → List UInt8
  | true, [] => [lf]
  | false, [] => []
  | prevCr, c :: rest =>
      if c = cr then remaining true rest
      else if c = lf then lf :: remaining false rest
      else (if prevCr then [lf, c] else [c]) ++ remaining false rest

/-- The loop writes what is remaining. -/
theorem foldl_output (input : List UInt8) (reading : Reading) :
    (input.foldl Reading.next reading).close.output =
      reading.output ++ remaining reading.prevCr input := by
  induction input generalizing reading with
  | nil => cases hwithheld : reading.prevCr <;> simp [Reading.close, remaining, hwithheld]
  | cons c rest inductionHypothesis =>
      rw [List.foldl_cons, inductionHypothesis]
      by_cases hcr : c = cr
      · simp [Reading.next, remaining, hcr]
      · by_cases hlf : c = lf
        · cases hwithheld : reading.prevCr <;>
            simp [Reading.next, remaining, hlf, hwithheld]
        · cases hwithheld : reading.prevCr <;>
            simp [Reading.next, remaining, hcr, hlf, hwithheld]

theorem convert_output (input : List UInt8) :
    (convert input).output = remaining false input := by
  have hwritten := foldl_output input {}
  simpa [convert] using hwritten

/-- A text without carriage returns is written as it is. -/
theorem remaining_plain {input : List UInt8} (hplain : cr ∉ input) :
    remaining false input = input := by
  induction input with
  | nil => rfl
  | cons c rest inductionHypothesis =>
      rw [List.mem_cons, not_or] at hplain
      have hrest := inductionHypothesis hplain.2
      have hcr : c ≠ cr := fun heq => hplain.1 heq.symm
      by_cases hlf : c = lf
      · simp [remaining, hlf, hrest]
      · simp [remaining, hcr, hlf, hrest]

/-- No carriage return is written. -/
theorem cr_notMem_remaining (prevCr : Bool) (input : List UInt8) :
    cr ∉ remaining prevCr input := by
  induction input generalizing prevCr with
  | nil => cases prevCr <;> simp [remaining, cr, lf]
  | cons c rest inductionHypothesis =>
      by_cases hcr : c = cr
      · simpa [remaining, hcr] using inductionHypothesis true
      · have hne : cr ≠ c := fun heq => hcr heq.symm
        have hrest := inductionHypothesis false
        by_cases hlf : c = lf
        · simp [remaining, hlf, lf_ne_cr.symm, hrest]
        · cases prevCr <;> simp [remaining, hcr, hlf, hne, lf_ne_cr.symm, hrest]

/-- Converting twice writes what converting once does. -/
theorem convert_twice (input : List UInt8) :
    (convert (convert input).output).output = (convert input).output := by
  rw [convert_output (convert input).output]
  apply remaining_plain
  rw [convert_output]
  exact cr_notMem_remaining false input

/-! ## Where it is the normal form -/

/-- The normal form of what is left, by the same rounds as the loop's: a carriage return after
another one ends a line of its own. -/
def ended : (prevCr : Bool) → List UInt8 → List UInt8
  | true, [] => [lf]
  | false, [] => []
  | prevCr, c :: rest =>
      if c = cr then (if prevCr then [lf] else []) ++ ended true rest
      else if c = lf then lf :: ended false rest
      else (if prevCr then [lf, c] else [c]) ++ ended false rest

/-- A withheld carriage return is at the head of what is left. -/
def withheld (prevCr : Bool) (input : List UInt8) : List UInt8 :=
  if prevCr then cr :: input else input

theorem normalise_cons {c : UInt8} (hcr : c ≠ cr) (rest : List UInt8) :
    normalise (c :: rest) = c :: normalise rest := by
  cases rest with
  | nil => simp [normalise, hcr]
  | cons d rest => simp [normalise, hcr]

theorem normalise_cr_lf (rest : List UInt8) :
    normalise (cr :: lf :: rest) = lf :: normalise rest := by
  simp [normalise]

theorem normalise_cr {d : UInt8} (hlf : d ≠ lf) (rest : List UInt8) :
    normalise (cr :: d :: rest) = lf :: normalise (d :: rest) := by
  rw [normalise]
  simp [hlf]

theorem normalise_withheld (prevCr : Bool) (input : List UInt8) :
    normalise (withheld prevCr input) = ended prevCr input := by
  induction input generalizing prevCr with
  | nil => cases prevCr <;> simp [withheld, normalise, ended]
  | cons c rest inductionHypothesis =>
      have hafter : normalise (cr :: rest) = ended true rest := inductionHypothesis true
      have hplain : normalise rest = ended false rest := inductionHypothesis false
      by_cases hcr : c = cr
      · subst hcr
        cases prevCr with
        | false => simpa [withheld, ended] using hafter
        | true =>
            rw [withheld, if_pos rfl, normalise_cr (by decide), hafter]
            simp [ended]
      · by_cases hlf : c = lf
        · subst hlf
          cases prevCr with
          | false => simp [withheld, ended, hcr, normalise_cons hcr, hplain]
          | true => simp [withheld, ended, hcr, normalise_cr_lf, hplain]
        · cases prevCr with
          | false => simp [withheld, ended, hcr, hlf, normalise_cons hcr, hplain]
          | true =>
              rw [withheld, if_pos rfl, normalise_cr hlf, normalise_cons hcr, hplain]
              simp [ended, hcr, hlf]

/-- Carriage returns do not follow each other. -/
def Spaced (input : List UInt8) : Prop := ¬ [cr, cr] <:+: input

theorem spaced_nil : Spaced [] := by simp [Spaced]

theorem spaced_singleton (c : UInt8) : Spaced [c] := by
  simp [Spaced, List.infix_cons_iff]

theorem spaced_cons (c d : UInt8) (rest : List UInt8) :
    Spaced (c :: d :: rest) ↔ ¬ (c = cr ∧ d = cr) ∧ Spaced (d :: rest) := by
  rw [Spaced, List.infix_cons_iff, not_or, Spaced, List.cons_prefix_cons, List.cons_prefix_cons]
  simp [eq_comm]

theorem Spaced.tail {c : UInt8} {rest : List UInt8} (hspaced : Spaced (c :: rest)) :
    Spaced rest := by
  cases rest with
  | nil => exact spaced_nil
  | cons d rest => exact ((spaced_cons c d rest).mp hspaced).2

theorem Spaced.cons {c : UInt8} {rest : List UInt8} (hspaced : Spaced rest) (hcr : c ≠ cr) :
    Spaced (c :: rest) := by
  cases rest with
  | nil => exact spaced_singleton c
  | cons d rest => exact (spaced_cons c d rest).mpr ⟨fun hboth => hcr hboth.1, hspaced⟩

theorem Spaced.withheld {c : UInt8} {rest : List UInt8} (hspaced : Spaced rest) (hcr : c ≠ cr)
    (prevCr : Bool) : Spaced (withheld prevCr (c :: rest)) := by
  cases prevCr with
  | false => exact hspaced.cons hcr
  | true => exact (spaced_cons cr c rest).mpr ⟨fun hboth => hcr hboth.2, hspaced.cons hcr⟩

theorem Spaced.unwithheld {prevCr : Bool} {input : List UInt8}
    (hspaced : Spaced (NormLf.withheld prevCr input)) : Spaced input := by
  cases prevCr with
  | false => exact hspaced
  | true => exact Spaced.tail hspaced

/-- Apart from carriage returns that follow each other, the loop writes the normal form. -/
theorem remaining_eq {prevCr : Bool} {input : List UInt8}
    (hspaced : Spaced (withheld prevCr input)) : remaining prevCr input = ended prevCr input := by
  induction input generalizing prevCr with
  | nil => cases prevCr <;> rfl
  | cons c rest inductionHypothesis =>
      by_cases hcr : c = cr
      · subst hcr
        cases prevCr with
        | false => simpa [remaining, ended] using @inductionHypothesis true hspaced
        | true => exact absurd ⟨rfl, rfl⟩ ((spaced_cons cr cr rest).mp hspaced).1
      · have hrest : remaining false rest = ended false rest :=
          @inductionHypothesis false (Spaced.tail (Spaced.unwithheld hspaced))
        simp [remaining, ended, hcr, hrest]

/-- A carriage return after another one is lost. -/
theorem remaining_length (prevCr : Bool) (input : List UInt8) :
    (remaining prevCr input).length ≤ (ended prevCr input).length := by
  induction input generalizing prevCr with
  | nil => cases prevCr <;> exact le_rfl
  | cons c rest inductionHypothesis =>
      have hafter := inductionHypothesis true
      have hplain := inductionHypothesis false
      by_cases hcr : c = cr
      · cases prevCr <;> simp [remaining, ended, hcr] <;> omega
      · by_cases hlf : c = lf
        · simpa [remaining, ended, hlf] using hplain
        · simpa [remaining, ended, hcr, hlf] using hplain

theorem spaced_of_length {prevCr : Bool} {input : List UInt8}
    (hkept : (remaining prevCr input).length = (ended prevCr input).length) :
    Spaced (withheld prevCr input) := by
  induction input generalizing prevCr with
  | nil =>
      cases prevCr with
      | false => exact spaced_nil
      | true => exact spaced_singleton cr
  | cons c rest inductionHypothesis =>
      by_cases hcr : c = cr
      · subst hcr
        cases prevCr with
        | false =>
            have hsame : (remaining true rest).length = (ended true rest).length := by
              simpa [remaining, ended] using hkept
            exact inductionHypothesis hsame
        | true =>
            have hlost := remaining_length true rest
            simp [remaining, ended] at hkept
            omega
      · have hsame : (remaining false rest).length = (ended false rest).length := by
          by_cases hlf : c = lf
          · simpa [remaining, ended, hlf] using hkept
          · cases prevCr <;> simpa [remaining, ended, hcr, hlf] using hkept
        exact Spaced.withheld (@inductionHypothesis false hsame) hcr prevCr

/-- The output is the normal form, and converting twice is converting once, exactly where no
carriage return follows another one. -/
theorem convert_normalises (input : List UInt8) :
    ((convert input).output = normalise input ∧
      (convert (convert input).output).output = (convert input).output) ↔
    Spaced input := by
  have hnormal : normalise input = ended false input := normalise_withheld false input
  rw [convert_output input, hnormal]
  constructor
  · rintro ⟨hsame, -⟩
    exact @spaced_of_length false _ (congrArg List.length hsame)
  · intro hspaced
    refine ⟨@remaining_eq false _ hspaced, ?_⟩
    have htwice := convert_twice input
    rwa [convert_output input] at htwice

/-- A run that succeeds writes the conversion of its input. -/
theorem main_output {argv : List String} {input : Option (List UInt8)} {creates : Bool}
    (hsucceeds : (main argv input creates).status = 0) :
    ∃ bytes, input = some bytes ∧ (main argv input creates).output = some (convert bytes).output := by
  by_cases husage : argv.length ≠ 3
  · simp [main, husage] at hsucceeds
  · cases input with
    | none => simp [main, husage] at hsucceeds
    | some bytes =>
        cases creates with
        | false => simp [main, husage] at hsucceeds
        | true => exact ⟨bytes, rfl, by simp [main, husage]⟩

/-- Two carriage returns are two lines, and become one. -/
theorem returns_collapse :
    ¬ ((convert [cr, cr]).output = normalise [cr, cr] ∧
      (convert (convert [cr, cr]).output).output = (convert [cr, cr]).output) := by
  decide

end Shecc.NormLf
