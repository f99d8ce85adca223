import Mathlib.Logic.Function.Basic
import Shecc.Libc.Integers

/-!
# Formatted output

`snprintf` and what it calls. The state that the functions share counts the characters of
the whole output and the space that is left of the buffer. The buffer is modelled by what
was written to it, at each index from its start.
-/

namespace Shecc.Libc

open Function (update)

/-- What was written to a buffer. -/
abbrev Written := Nat → Option Char

/-- `fmtbuf_t`. -/
structure Fmtbuf where
  mem : Written
  buf : Nat
  n : Int
  len : Int

/-- An argument: an `int`, or the string at a pointer without its terminator. -/
inductive Argument
  | int (val : Int)
  | str (chars : List Char)

/-- `(char) v`. -/
def charOf (v : Int) : Char := Char.ofNat (v % 256).toNat

/-! ## Writing -/

/-- `__fmtbuf_write_char`, which is only called with a `char`. -/
def fmtbufWriteChar (fmtbuf : Fmtbuf) (ch : Char) : Fmtbuf :=
  let fmtbuf := { fmtbuf with len := wrap (fmtbuf.len + 1) }
  if fmtbuf.n ≤ 1 then fmtbuf
  else { fmtbuf with
    mem := update fmtbuf.mem fmtbuf.buf (some ch)
    buf := fmtbuf.buf + 1
    n := fmtbuf.n - 1 }

/-- `strncpy`, which fills up with zeros. -/
def strncpy (mem : Written) (dest : Nat) : (src : List Char) → (len : Nat) → Written
  | _, 0 => mem
  | [], len + 1 => strncpy (update mem dest (some '\x00')) (dest + 1) [] len
  | ch :: src, len + 1 =>
      strncpy (update mem dest (some ch)) (dest + 1) (if ch = '\x00' then [] else src) len

/-- `__fmtbuf_write_str`. -/
def fmtbufWriteStr (fmtbuf : Fmtbuf) (str : List Char) (l : Int) : Fmtbuf :=
  let fmtbuf := { fmtbuf with len := wrap (fmtbuf.len + l) }
  if fmtbuf.n ≤ 1 then fmtbuf
  else
    let sz := fmtbuf.n - 1
    let l := if l ≤ sz then l else sz
    { fmtbuf with
      mem := strncpy fmtbuf.mem fmtbuf.buf str l.toNat
      buf := fmtbuf.buf + l.toNat
      n := fmtbuf.n - l }

/-! ## Digits -/

/-- `INT_BUF_LEN`. -/
def intBufLen : Nat := 16

/-- The bases of `__format`, which aborts for any other. -/
inductive Base
  | octal
  | decimal
  | hexadecimal
  deriving DecidableEq

/-- The quotient by ten in `__str_base10` before its correction. -/
def quotient (val : Int) : Int :=
  let q := val / 2 + val / 4
  let q := q + q / 16
  let q := q + q / 256
  let q := q + q / 65536
  q / 8

/-- The loop of `__str_base10`, cut off after `fuel` rounds. -/
def strBase10Loop : (fuel : Nat) → (pb : List Char) → (i : Nat) → (val : Int) → List Char × Nat
  | 0, pb, i, _ => (pb, i)
  | fuel + 1, pb, i, val =>
      if val = 0 then (pb, i)
      else
        let q := quotient val
        let r := val - (q * 4 + q) * 2
        let t := (r + 6) / 16
        let q := q + t
        let r := r - (t * 4 + t) * 2
        strBase10Loop fuel (pb.modify i fun ch => Char.ofNat (ch.toNat + r.toNat)) (i - 1) q

/-- `__str_base10`. -/
def strBase10 (pb : List Char) (val : Int) : List Char :=
  if val = -2147483648 then
    pb.take (intBufLen - 11) ++ ['-', '2', '1', '4', '7', '4', '8', '3', '6', '4', '8']
  else if val < 0 then
    let result := strBase10Loop intBufLen pb (intBufLen - 1) (-val)
    result.1.set result.2 '-'
  else (strBase10Loop intBufLen pb (intBufLen - 1) val).1

/-- The loops of `__str_base8` and `__str_base16`, and what is left of the value. -/
def strBaseLoop (base : Int) (digit : Int → Char) :
    (times : Nat) → (pb : List Char) → (c : Nat) → (val : Int) → List Char × Int
  | 0, pb, _, val => (pb, val)
  | times + 1, pb, c, val =>
      strBaseLoop base digit times (pb.set c (digit (val % base))) (c - 1) (val / base)

/-- `'0' + v`. -/
def digitOf (v : Int) : Char := Char.ofNat (48 + v.toNat)

/-- `'0' + v`, or `'a' + v - 10`. -/
def hexDigitOf (v : Int) : Char :=
  if v < 10 then digitOf v else Char.ofNat (97 + v.toNat - 10)

/-- `__str_base8`. -/
def strBase8 (pb : List Char) (val : Int) : List Char :=
  let result := strBaseLoop 8 digitOf (32 / 3) pb (intBufLen - 1) val
  result.1.set (intBufLen - 1 - 32 / 3) (digitOf (result.2 % 4))

/-- `__str_base16`. -/
def strBase16 (pb : List Char) (val : Int) : List Char :=
  (strBaseLoop 16 hexDigitOf 8 pb (intBufLen - 1) val).1

/-- The digits of a value in the buffer `pb` of `__format`. -/
def strBase (base : Base) (val : Int) : List Char :=
  let pb := List.replicate intBufLen '0'
  match base with
  | .octal => strBase8 pb val
  | .decimal => strBase10 pb val
  | .hexadecimal => strBase16 pb val

/-! ## Conversion -/

/-- How many zeros `__format` skips: all at the start of `pb`, but not the last character. -/
def skipZeros : List Char → Nat
  | '0' :: ch :: pb => skipZeros (ch :: pb) + 1
  | _ => 0

/-- The loop of `__format` that writes `width` characters. -/
def pad (ch : Char) : (width : Nat) → Fmtbuf → Fmtbuf
  | 0, fmtbuf => fmtbuf
  | width + 1, fmtbuf => pad ch width (fmtbufWriteChar fmtbuf ch)

/-- The end of `__format`: the padding and the characters of `pb` from `pbi` on. -/
def padded (fmtbuf : Fmtbuf) (pb : List Char) (pbi : Nat) (width : Int) (zeropad : Bool) :
    Fmtbuf :=
  let width := width - (intBufLen - pbi)
  let width := if width < 0 then 0 else width
  let fmtbuf := pad (if zeropad then '0' else ' ') width.toNat fmtbuf
  fmtbufWriteStr fmtbuf (pb.drop pbi) (intBufLen - pbi)

/-- `__format`. -/
def format (fmtbuf : Fmtbuf) (val width : Int) (zeropad : Bool) (base : Base)
    (alternateForm : Bool) : Fmtbuf :=
  let pb := strBase base val
  let pbi := skipZeros pb
  let first := pb.getD pbi '0'
  match base with
  | .octal =>
      if alternateForm ∧ width ≠ 0 ∧ zeropad ∧ first ≠ '0' then
        padded (fmtbufWriteChar fmtbuf '0') pb pbi (width - 1) zeropad
      else if alternateForm ∧ first ≠ '0' then
        padded fmtbuf (pb.set (pbi - 1) '0') (pbi - 1) width zeropad
      else padded fmtbuf pb pbi width zeropad
  | .decimal =>
      if width ≠ 0 ∧ zeropad ∧ first = '-' then
        padded (fmtbufWriteChar fmtbuf '-') pb (pbi + 1) (width - 1) zeropad
      else padded fmtbuf pb pbi width zeropad
  | .hexadecimal =>
      if alternateForm ∧ width ≠ 0 ∧ zeropad ∧ first ≠ '0' then
        padded (fmtbufWriteChar (fmtbufWriteChar fmtbuf '0') 'x') pb pbi (width - 2) zeropad
      else if alternateForm ∧ first ≠ '0' then
        padded fmtbuf ((pb.set (pbi - 1) 'x').set (pbi - 2) '0') (pbi - 2) width zeropad
      else padded fmtbuf pb pbi width zeropad

/-! ## The format -/

/-- Whether a character of the format is there, and the format behind it. -/
def readFlag (flag : Char) : List Char → Bool × List Char
  | [] => (false, [])
  | ch :: text => if ch = flag then (true, text) else (false, ch :: text)

/-- The digits of a width behind its first. -/
def readDigits : (w : Int) → List Char → Int × List Char
  | w, [] => (w, [])
  | w, ch :: text =>
      if '0' ≤ ch ∧ ch ≤ '9' then readDigits (wrap (w * 10 + (ch.toNat - 48))) text
      else (w, ch :: text)

/-- The width of a conversion, 0 if there is none. -/
def readWidth : List Char → Int × List Char
  | [] => (0, [])
  | ch :: text =>
      if '1' ≤ ch ∧ ch ≤ '9' then readDigits (ch.toNat - 48) text else (0, ch :: text)

/-- The conversion of one argument. A string is no `int`, and an `int` no string. -/
def convert (fmtbuf : Fmtbuf) (ch : Char) (pp zp : Bool) (w : Int) (v : Option Argument) :
    Option Fmtbuf :=
  match ch, v with
  | 's', some (.str chars) =>
      let l := (chars.takeWhile (· ≠ '\x00')).length
      some (fmtbufWriteStr fmtbuf chars l)
  | 'c', some (.int v) => some (fmtbufWriteChar fmtbuf (charOf v))
  | 'o', some (.int v) => some (format fmtbuf v w zp .octal pp)
  | 'd', some (.int v) => some (format fmtbuf v w zp .decimal false)
  | 'x', some (.int v) => some (format fmtbuf v w zp .hexadecimal pp)
  | ch, _ => if ch ∈ ['s', 'c', 'o', 'd', 'x'] then none else some fmtbuf

/-- The loop of `__format_to_buf`, cut off after `fuel` rounds. Behind a `%` at the end of the
format it would read past the end. -/
def formatLoop : (fuel : Nat) → (text : List Char) → (args : List Argument) → Fmtbuf →
    Option Fmtbuf
  | _, [], _, fmtbuf => some fmtbuf
  | 0, _ :: _, _, _ => none
  | fuel + 1, ch :: text, args, fmtbuf =>
      if ch ≠ '%' then formatLoop fuel text args (fmtbufWriteChar fmtbuf ch)
      else
        let alternate := readFlag '#' text
        let zero := readFlag '0' alternate.2
        let width := readWidth zero.2
        match width.2 with
        | [] => none
        | ch :: text =>
            if ch = '%' then formatLoop fuel text args (fmtbufWriteChar fmtbuf '%')
            else do
              let fmtbuf ← convert fmtbuf ch alternate.1 zero.1 width.1 args.head?
              formatLoop fuel text args.tail fmtbuf

/-- `__format_to_buf`. -/
def formatToBuf (fmtbuf : Fmtbuf) (text : List Char) (args : List Argument) : Option Fmtbuf := do
  let fmtbuf ← formatLoop text.length text args fmtbuf
  if fmtbuf.n ≠ 0 then
    return { fmtbuf with mem := update fmtbuf.mem fmtbuf.buf (some '\x00') }
  else return fmtbuf

/-- `snprintf`: what it returns and what it wrote to the buffer. -/
def snprintf (n : Int) (text : List Char) (args : List Argument) : Option (Int × Written) := do
  let fmtbuf ← formatToBuf ⟨fun _ => none, 0, n, 0⟩ text args
  return (fmtbuf.len, fmtbuf.mem)

end Shecc.Libc
