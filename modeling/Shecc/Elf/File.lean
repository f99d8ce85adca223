import Shecc.Elf.Tables
import Shecc.Arm.Layout

/-!
# The ELF file

`elf_preprocess` places the sections in memory before the code is generated, the
header functions describe the buffers after it, and `elf_generate` writes them
one after the other. Where the code has the size that was counted for it the
headers describe the file and the segments are placed as they must be.
-/

namespace Shecc.Elf

open Codegen (Program Layout Image)

/-- `ELF_START`. -/
def elfStart : Int := 0x10000

/-- `PAGESIZE`. -/
def pageSize : Int := 4096

/-! ## The buffers -/

/-- What `elf_write_int` writes of a value. -/
def intBytes (val : Int) : List UInt8 :=
  (List.range 4).map fun i => UInt8.ofNat (val / 2 ^ (8 * i) % 2 ^ 8).toNat

/-- The characters of a string, one byte each. -/
def charBytes (str : List Char) : List UInt8 := str.map fun c => UInt8.ofNat c.toNat

/-- Zeros up to a multiple of four. -/
def alignBytes (buffer : List UInt8) : List UInt8 :=
  buffer ++ List.replicate ((4 - buffer.length % 4) % 4) 0

/-- A relocation entry as written. -/
def Rel.bytes (rel : Rel) : List UInt8 := intBytes rel.rOffset ++ intBytes rel.rInfo

/-- A symbol as written: value, size, visibility and section index are zero. -/
def Sym.bytes (sym : Sym) : List UInt8 :=
  intBytes sym.stName ++ intBytes 0 ++ intBytes 0 ++ [UInt8.ofNat sym.stInfo.toNat, 0, 0, 0]

/-- An entry of `.dynamic` as written. -/
def Dyn.bytes (dyn : Dyn) : List UInt8 := intBytes dyn.dTag ++ intBytes dyn.dUn

/-- The words of a list of ARM instructions as written. -/
def insnBytes (insns : List Arm.Insn) : List UInt8 :=
  insns.flatMap fun insn => intBytes (insn.encode.getD 0).toNat

/-- What the ELF writer is given: the size counted for the code, the contents of
the buffers, and the function list in dynamic-linking mode. -/
structure Input where
  elfMachine : Nat
  elfFlags : Int
  elfOffset : Nat
  code : List UInt8
  data : List UInt8
  rodata : List UInt8
  symtab : List UInt8
  strtab : List UInt8
  elfSymbolIndex : Int
  dynlink : Bool
  funcs : List Func

/-- `elf_bss_size`, which nothing sets. -/
def elfBssSize : Int := 0

namespace Input

variable (input : Input)

/-- `elf_header_len`. -/
def elfHeaderLen : Nat := 52 + 32 * 2 + if input.dynlink then 32 * 2 else 0

/-- `.data` after alignment. -/
def elfData : List UInt8 := alignBytes input.data

/-- `.rodata` after alignment. -/
def elfRodata : List UInt8 := alignBytes input.rodata

/-- `.symtab` after alignment. -/
def elfSymtab : List UInt8 := alignBytes input.symtab

/-- `.strtab` after alignment. -/
def elfStrtab : List UInt8 := alignBytes input.strtab

/-- `elf_code_start`. -/
def elfCodeStart : Int := elfStart + input.elfHeaderLen

/-- `elf_rodata_start`. -/
def elfRodataStart : Int := input.elfCodeStart + input.elfOffset

/-- `elf_relplt_start`. -/
def elfRelpltStart : Int := input.elfRodataStart + input.elfRodata.length

/-- `elf_plt_start`. -/
def elfPltStart : Int := input.elfRelpltStart + (countSizes input.funcs).relpltSize

/-- `elf_interp_start`. -/
def elfInterpStart : Int := input.elfPltStart + (countSizes input.funcs).pltSize + pageSize

/-- `elf_got_start`. -/
def elfGotStart : Int := input.elfInterpStart + elfInterpSize

/-- The dynamic sections. -/
def sections : DynamicSections :=
  generateSections ⟨input.elfRelpltStart, input.elfPltStart, input.elfGotStart⟩ input.funcs

/-- `.rel.plt` as written. -/
def relplt : List UInt8 := input.sections.relplt.flatMap Rel.bytes

/-- `.plt` as written. -/
def plt : List UInt8 := insnBytes input.sections.plt

/-- `.interp` as written. -/
def interp : List UInt8 := charBytes input.sections.interp

/-- `.got` as written. -/
def got : List UInt8 := input.sections.got.flatMap intBytes

/-- `.dynstr` as written. -/
def dynstr : List UInt8 := charBytes input.sections.dynstr

/-- `.dynsym` as written. -/
def dynsym : List UInt8 := input.sections.dynsym.flatMap Sym.bytes

/-- `.dynamic` as written. -/
def dynamic : List UInt8 := input.sections.dynamic.flatMap Dyn.bytes

/-- `elf_data_start`. -/
def elfDataStart : Int :=
  if input.dynlink then
    input.elfGotStart + input.got.length + input.dynstr.length + input.dynsym.length +
      input.dynamic.length
  else input.elfRodataStart + input.elfRodata.length + pageSize

/-- `elf_bss_start`. -/
def elfBssStart : Int := input.elfDataStart + input.elfData.length

/-- The names of the sections, in the order of their headers. -/
def sectionNames : List (List Char) :=
  [".text".toList, ".rodata".toList] ++
    (if input.dynlink then
      [".rel.plt".toList, ".plt".toList, ".interp".toList, ".got".toList, ".dynstr".toList,
       ".dynsym".toList, ".dynamic".toList]
    else []) ++
    [".data".toList, ".bss".toList, ".symtab".toList, ".strtab".toList, ".shstrtab".toList]

/-- `.shstrtab`. -/
def shstrtab : List UInt8 :=
  charBytes (Char.ofNat 0 :: input.sectionNames.flatMap cString)

end Input

/-! ## The headers -/

/-- The file header: `elf32_hdr_t`. -/
structure Ehdr where
  eMachine : Nat
  eEntry : Int
  ePhoff : Int
  eShoff : Int
  eFlags : Int
  ePhnum : Nat
  eShnum : Nat
  eShstrndx : Nat

/-- A header field of two bytes of which the first is set. -/
def byteField (val : Nat) : List UInt8 := [UInt8.ofNat val, 0]

/-- The file header as written. -/
def Ehdr.bytes (hdr : Ehdr) : List UInt8 :=
  [0x7F, 0x45, 0x4C, 0x46, 1, 1, 1, 0, 0, 0, 0, 0, 0, 0, 0, 0] ++ byteField 2 ++
    byteField hdr.eMachine ++ intBytes 1 ++ intBytes hdr.eEntry ++ intBytes hdr.ePhoff ++
    intBytes hdr.eShoff ++ intBytes hdr.eFlags ++ byteField 52 ++ byteField 32 ++
    byteField hdr.ePhnum ++ byteField 40 ++ byteField hdr.eShnum ++ byteField hdr.eShstrndx

/-- A program header: `elf32_phdr_t`. -/
structure Phdr where
  pType : Int
  pOffset : Int
  pVaddr : Int
  pPaddr : Int
  pFilesz : Int
  pMemsz : Int
  pFlags : Int
  pAlign : Int

/-- A program header as written. -/
def Phdr.bytes (phdr : Phdr) : List UInt8 :=
  intBytes phdr.pType ++ intBytes phdr.pOffset ++ intBytes phdr.pVaddr ++ intBytes phdr.pPaddr ++
    intBytes phdr.pFilesz ++ intBytes phdr.pMemsz ++ intBytes phdr.pFlags ++ intBytes phdr.pAlign

/-- A section header: `elf32_shdr_t`. -/
structure Shdr where
  shName : Int
  shType : Int
  shFlags : Int
  shAddr : Int
  shOffset : Int
  shSize : Int
  shLink : Int
  shInfo : Int
  shAddralign : Int
  shEntsize : Int

/-- A section header as written. -/
def Shdr.bytes (shdr : Shdr) : List UInt8 :=
  intBytes shdr.shName ++ intBytes shdr.shType ++ intBytes shdr.shFlags ++ intBytes shdr.shAddr ++
    intBytes shdr.shOffset ++ intBytes shdr.shSize ++ intBytes shdr.shLink ++
    intBytes shdr.shInfo ++ intBytes shdr.shAddralign ++ intBytes shdr.shEntsize

/-- What a section header is made of, and what is added to the file offset behind
it. -/
structure SectionRow where
  name : List Char
  shType : Int
  shFlags : Int
  shAddr : Int
  shSize : Int
  step : Int
  shLink : Int
  shInfo : Int
  shAddralign : Int
  shEntsize : Int

/-- The section headers from the offsets reached in the file and in `.shstrtab`. -/
def sectionHeaders : Int → Int → List SectionRow → List Shdr
  | _, _, [] => []
  | ofs, shName, row :: rest =>
      ⟨shName, row.shType, row.shFlags, row.shAddr, ofs, row.shSize, row.shLink, row.shInfo,
        row.shAddralign, row.shEntsize⟩ ::
        sectionHeaders (ofs + row.step) (shName + row.name.length + 1) rest

namespace Input

variable (input : Input)

/-- `elf_generate_header`. -/
def ehdr : Ehdr where
  eMachine := input.elfMachine
  eEntry := input.elfCodeStart
  ePhoff := 52
  eShoff :=
    if input.dynlink then
      input.elfHeaderLen + input.code.length + input.elfData.length + input.elfRodata.length +
        input.elfSymtab.length + input.elfStrtab.length + input.shstrtab.length +
        input.interp.length + input.relplt.length + input.plt.length + input.got.length +
        input.dynstr.length + input.dynsym.length + input.dynamic.length
    else
      input.elfHeaderLen + input.code.length + input.elfData.length + input.elfRodata.length +
        input.elfSymtab.length + input.elfStrtab.length + input.shstrtab.length
  eFlags := input.elfFlags
  ePhnum := if input.dynlink then 4 else 2
  eShnum := if input.dynlink then 15 else 8
  eShstrndx := if input.dynlink then 14 else 7

/-- The size of the segment that is not writable. -/
def readOnlySize : Int :=
  input.elfHeaderLen + input.code.length + input.elfRodata.length +
    if input.dynlink then (input.relplt.length + input.plt.length : Nat) else 0

/-- The size of the dynamic sections in the writable segment. -/
def dynamicSize : Int :=
  if input.dynlink then
    (input.interp.length + input.got.length + input.dynstr.length + input.dynsym.length +
      input.dynamic.length : Nat)
  else 0

/-- The program header of the segment that is not writable. -/
def readOnlySegment : Phdr :=
  ⟨1, 0, elfStart, elfStart, input.readOnlySize, input.readOnlySize, 5, pageSize⟩

/-- The program header of the writable segment. -/
def writableSegment : Phdr :=
  let start := if input.dynlink then input.elfInterpStart else input.elfDataStart
  ⟨1, input.readOnlySize, start, start, input.elfData.length + input.dynamicSize,
    input.elfData.length + elfBssSize + input.dynamicSize, 6, pageSize⟩

/-- The program header of the interpreter. -/
def interpSegment : Phdr :=
  ⟨3, input.elfHeaderLen + input.code.length + input.elfRodata.length + input.relplt.length +
      input.plt.length, input.elfInterpStart, input.elfInterpStart, dynLinker.length + 1,
    dynLinker.length + 1, 4, 1⟩

/-- The program header of `.dynamic`. -/
def dynamicSegment : Phdr :=
  let start := input.elfGotStart + input.got.length + input.dynstr.length + input.dynsym.length
  ⟨2, input.elfHeaderLen + input.code.length + input.elfRodata.length + input.relplt.length +
      input.plt.length + input.interp.length + input.got.length + input.dynstr.length +
      input.dynsym.length, start, start, input.dynamic.length, input.dynamic.length, 6, 4⟩

/-- `elf_generate_program_headers`. -/
def phdrs : List Phdr :=
  [input.readOnlySegment, input.writableSegment] ++
    if input.dynlink then [input.interpSegment, input.dynamicSegment] else []

/-- The rows of the dynamic sections. -/
def dynamicRows : List SectionRow :=
  let dynstrStart := input.elfGotStart + input.got.length
  let dynsymStart := dynstrStart + input.dynstr.length
  [⟨".rel.plt".toList, 9, 0x42, input.elfRelpltStart, input.relplt.length, input.relplt.length,
      8, 6, 4, 8⟩,
   ⟨".plt".toList, 1, 0x6, input.elfPltStart, input.plt.length, input.plt.length, 0, 0, 4, 4⟩,
   ⟨".interp".toList, 1, 0x2, input.elfInterpStart, dynLinker.length + 1, input.interp.length,
      0, 0, 1, 0⟩,
   ⟨".got".toList, 1, 0x3, input.elfGotStart, input.got.length, input.got.length, 0, 0, 4,
      ptrSize⟩,
   ⟨".dynstr".toList, 3, 0x2, dynstrStart, input.dynstr.length, input.dynstr.length, 0, 0, 1, 0⟩,
   ⟨".dynsym".toList, 11, 0x2, dynsymStart, input.dynsym.length, input.dynsym.length, 7, 1, 4,
      16⟩,
   ⟨".dynamic".toList, 6, 0x3, dynsymStart + input.dynsym.length, input.dynamic.length,
      input.dynamic.length, 7, 0, 4, 0⟩]

/-- The rows of all sections but the null section. -/
def sectionRows : List SectionRow :=
  [⟨".text".toList, 1, 7, input.elfCodeStart, input.code.length, input.code.length, 0, 0, 4, 0⟩,
   ⟨".rodata".toList, 1, 2, input.elfRodataStart, input.elfRodata.length, input.elfRodata.length,
      0, 0, 4, 0⟩] ++
  (if input.dynlink then input.dynamicRows else []) ++
  [⟨".data".toList, 1, 3, input.elfDataStart, input.elfData.length, input.elfData.length,
      0, 0, 4, 0⟩,
   ⟨".bss".toList, 8, 3, input.elfBssStart, elfBssSize, 0, 0, 0, 4, 0⟩,
   ⟨".symtab".toList, 2, 0, 0, input.elfSymtab.length, input.elfSymtab.length,
      if input.dynlink then 13 else 6, input.elfSymbolIndex, 4, 16⟩,
   ⟨".strtab".toList, 3, 0, 0, input.elfStrtab.length, input.elfStrtab.length, 0, 0, 1, 0⟩,
   ⟨".shstrtab".toList, 3, 0, 0, input.shstrtab.length, 0, 0, 0, 1, 0⟩]

/-- `elf_generate_section_headers`. -/
def shdrs : List Shdr :=
  ⟨0, 0, 0, 0, 0, 0, 0, 0, 0, 0⟩ :: sectionHeaders input.elfHeaderLen 1 input.sectionRows

/-- The dynamic sections of the segment that is not writable. -/
def readOnlyDynamic : List UInt8 := if input.dynlink then input.relplt ++ input.plt else []

/-- The dynamic sections of the writable segment. -/
def writableDynamic : List UInt8 :=
  if input.dynlink then
    input.interp ++ input.got ++ input.dynstr ++ input.dynsym ++ input.dynamic
  else []

/-- `elf_generate`. -/
def file : List UInt8 :=
  input.ehdr.bytes ++ input.phdrs.flatMap Phdr.bytes ++ input.code ++ input.elfRodata ++
    input.readOnlyDynamic ++ input.writableDynamic ++ input.elfData ++ input.elfSymtab ++
    input.elfStrtab ++ input.shstrtab ++ input.shdrs.flatMap Shdr.bytes

end Input

/-! ## Consistency -/

/-- A part stands in the file at an offset, in a size. -/
def Occupies (file part : List UInt8) (offset size : Int) : Prop :=
  ∃ before after, file = before ++ part ++ after ∧ (before.length : Int) = offset ∧
    (part.length : Int) = size

/-- The part of the file a section is. -/
def Input.sectionParts (input : Input) : List (List UInt8) :=
  [[], input.code, input.elfRodata] ++
    (if input.dynlink then
      [input.relplt, input.plt, charBytes (cString dynLinker), input.got, input.dynstr,
       input.dynsym, input.dynamic]
    else []) ++
    [input.elfData, [], input.elfSymtab, input.elfStrtab, input.shstrtab]

/-- The part of the file a segment is. -/
def Input.segmentParts (input : Input) : List (List UInt8) :=
  [input.ehdr.bytes ++ input.phdrs.flatMap Phdr.bytes ++ input.code ++ input.elfRodata ++
      input.readOnlyDynamic,
   input.writableDynamic ++ input.elfData] ++
    if input.dynlink then [charBytes (cString dynLinker), input.dynamic] else []

/-- An address of a segment. -/
def Phdr.Covers (phdr : Phdr) (address : Int) : Prop :=
  phdr.pVaddr ≤ address ∧ address < phdr.pVaddr + phdr.pMemsz

/-- The headers describe the file, and the segments are where they can be loaded. -/
structure Consistent (input : Input) : Prop where
  programHeaders : Occupies input.file (input.phdrs.flatMap Phdr.bytes) input.ehdr.ePhoff
    (32 * input.ehdr.ePhnum)
  sectionHeaders : Occupies input.file (input.shdrs.flatMap Shdr.bytes) input.ehdr.eShoff
    (40 * input.ehdr.eShnum)
  sections : List.Forall₂ (fun shdr part => Occupies input.file part shdr.shOffset shdr.shSize)
    input.shdrs input.sectionParts
  segments : List.Forall₂ (fun phdr part => Occupies input.file part phdr.pOffset phdr.pFilesz)
    input.phdrs input.segmentParts
  congruent : ∀ phdr ∈ input.phdrs, phdr.pType = 1 →
    phdr.pVaddr % pageSize = phdr.pOffset % pageSize
  apart : ∀ first ∈ input.phdrs, ∀ second ∈ input.phdrs, first.pType = 1 → second.pType = 1 →
    first.pFlags ≠ second.pFlags → ∀ a b, first.Covers a → second.Covers b →
      a / pageSize ≠ b / pageSize

/-! ## Sizes -/

theorem intBytes_length (val : Int) : (intBytes val).length = 4 := by
  rw [intBytes, List.length_map, List.length_range]

theorem flatMap_length {α : Type} {write : α → List UInt8} {size : Nat}
    (each : ∀ item, (write item).length = size) (items : List α) :
    (items.flatMap write).length = size * items.length := by
  induction items with
  | nil => rfl
  | cons item rest inductionHypothesis =>
      rw [List.flatMap_cons, List.length_append, each, inductionHypothesis, List.length_cons]
      ring

theorem Rel.bytes_length (rel : Rel) : rel.bytes.length = 8 := by
  simp only [Rel.bytes, List.length_append, intBytes_length]

theorem Phdr.bytes_length (phdr : Phdr) : phdr.bytes.length = 32 := by
  simp only [Phdr.bytes, List.length_append, intBytes_length]

theorem Shdr.bytes_length (shdr : Shdr) : shdr.bytes.length = 40 := by
  simp only [Shdr.bytes, List.length_append, intBytes_length]

theorem Ehdr.bytes_length (hdr : Ehdr) : hdr.bytes.length = 52 := by
  simp only [Ehdr.bytes, byteField, List.length_append, intBytes_length, List.length_cons,
    List.length_nil]

theorem insnBytes_length (insns : List Arm.Insn) : (insnBytes insns).length = 4 * insns.length :=
  flatMap_length (fun _ => intBytes_length _) insns

/-- `.interp` is the path of the dynamic linker and its padding. -/
theorem Input.interp_eq (input : Input) :
    input.interp = charBytes (cString dynLinker) ++ [0, 0, 0] := by
  rw [Input.interp, Input.sections]
  rfl

section Sizes

variable (input : Input)

/-- The size counted for the code falls short by so many bytes. -/
def Input.uncounted : Int := input.code.length - input.elfOffset

theorem Input.relplt_length : (input.relplt.length : Int) =
    (countSizes input.funcs).relpltSize := by
  rw [Input.relplt, flatMap_length Rel.bytes_length]
  exact (dynamicTables_agree _ input.funcs).2.2.relplt.symm

theorem Input.plt_length : (input.plt.length : Int) = (countSizes input.funcs).pltSize := by
  rw [Input.plt, insnBytes_length]
  exact (dynamicTables_agree _ input.funcs).2.2.plt.symm

/-- The writable segment is placed a page behind where the counted size puts the end
of the other. -/
theorem Input.writableSegment_pVaddr : input.writableSegment.pVaddr =
    elfStart + input.readOnlySize + pageSize - input.uncounted := by
  have relplt := input.relplt_length
  have plt := input.plt_length
  have offset : input.uncounted = input.code.length - input.elfOffset := rfl
  simp only [Input.writableSegment, Input.readOnlySize, Input.elfInterpStart, Input.elfPltStart,
    Input.elfRelpltStart, Input.elfDataStart, Input.elfRodataStart, Input.elfCodeStart]
  cases input.dynlink with
  | true =>
      simp only [if_true]
      push_cast
      omega
  | false =>
      simp only [Bool.false_eq_true, if_false]
      omega

theorem Input.headers_length :
    (input.ehdr.bytes ++ input.phdrs.flatMap Phdr.bytes).length = input.elfHeaderLen := by
  rw [List.length_append, Ehdr.bytes_length, flatMap_length Phdr.bytes_length, Input.phdrs,
    Input.elfHeaderLen]
  cases input.dynlink <;> rfl

end Sizes

/-! ## Occupied parts -/

theorem occupies {before part after : List UInt8} {offset size : Int}
    (begins : (before.length : Int) = offset) (long : (part.length : Int) = size) :
    Occupies (before ++ part ++ after) part offset size :=
  ⟨before, after, rfl, begins, long⟩

/-- A row fits a part of the file and the padding behind it. The offset behind the
last row is not used. -/
inductive Fit : List SectionRow → List (List UInt8 × List UInt8) → Prop
  | last {row : SectionRow} {part : List UInt8} (size : (part.length : Int) = row.shSize) :
      Fit [row] [(part, [])]
  | next {row : SectionRow} {part padding : List UInt8} {rows : List SectionRow}
      {parts : List (List UInt8 × List UInt8)} (size : (part.length : Int) = row.shSize)
      (step : ((part ++ padding).length : Int) = row.step) (rest : Fit rows parts) :
      Fit (row :: rows) ((part, padding) :: parts)

/-- The bytes of the parts and their padding. -/
def partBytes (parts : List (List UInt8 × List UInt8)) : List UInt8 :=
  parts.flatMap fun part => part.1 ++ part.2

/-- Section headers made of rows that fit describe the parts. -/
theorem Fit.occupies {rows : List SectionRow} {parts : List (List UInt8 × List UInt8)}
    (fit : Fit rows parts) {before after : List UInt8} {ofs shName : Int}
    (begins : (before.length : Int) = ofs) :
    List.Forall₂
      (fun shdr part => Occupies (before ++ partBytes parts ++ after) part shdr.shOffset
        shdr.shSize)
      (Elf.sectionHeaders ofs shName rows) (parts.map Prod.fst) := by
  induction fit generalizing before ofs shName with
  | @last row part size =>
      apply List.Forall₂.cons _ List.Forall₂.nil
      refine ⟨before, after, ?_, begins, size⟩
      simp only [partBytes, List.flatMap_singleton, List.append_nil]
  | @next row part padding rows parts size step rest inductionHypothesis =>
      constructor
      · refine ⟨before, padding ++ partBytes parts ++ after, ?_, begins, size⟩
        simp only [partBytes, List.flatMap_cons, List.append_assoc]
      · have behind : ((before ++ (part ++ padding)).length : Int) = ofs + row.step := by
          rw [List.length_append, Nat.cast_add, begins, step]
        have headers := @inductionHypothesis _ _ (shName + row.name.length + 1) behind
        simp only [partBytes, List.flatMap_cons, List.append_assoc] at headers ⊢
        exact headers

section Occupied

variable (input : Input)

/-- The parts the section headers but the first describe, with their padding. -/
def Input.paddedParts : List (List UInt8 × List UInt8) :=
  [(input.code, []), (input.elfRodata, [])] ++
    (if input.dynlink then
      [(input.relplt, []), (input.plt, []), (charBytes (cString dynLinker), [0, 0, 0]),
       (input.got, []), (input.dynstr, []), (input.dynsym, []), (input.dynamic, [])]
    else []) ++
    [(input.elfData, []), ([], []), (input.elfSymtab, []), (input.elfStrtab, []),
     (input.shstrtab, [])]

theorem Input.file_eq : input.file =
    (input.ehdr.bytes ++ input.phdrs.flatMap Phdr.bytes) ++ partBytes input.paddedParts ++
      input.shdrs.flatMap Shdr.bytes := by
  rw [Input.file, Input.readOnlyDynamic, Input.writableDynamic, Input.paddedParts,
    Input.interp_eq]
  cases input.dynlink <;> simp [partBytes]

theorem Input.sectionParts_eq : input.sectionParts = [] :: input.paddedParts.map Prod.fst := by
  rw [Input.sectionParts, Input.paddedParts]
  cases input.dynlink <;> rfl

theorem Fit.whole {row : SectionRow} {part : List UInt8} {rows : List SectionRow}
    {parts : List (List UInt8 × List UInt8)} (size : (part.length : Int) = row.shSize)
    (step : row.shSize = row.step) (rest : Fit rows parts) :
    Fit (row :: rows) ((part, []) :: parts) := by
  apply Fit.next size _ rest
  rw [List.append_nil, size, step]

theorem Input.rows_fit : Fit input.sectionRows input.paddedParts := by
  rw [Input.sectionRows, Input.paddedParts]
  cases input.dynlink with
  | true =>
      apply Fit.whole rfl rfl
      apply Fit.whole rfl rfl
      apply Fit.whole rfl rfl
      apply Fit.whole rfl rfl
      apply Fit.next rfl
      · change ((charBytes (cString dynLinker) ++ [0, 0, 0]).length : Int) = input.interp.length
        rw [input.interp_eq]
      apply Fit.whole rfl rfl
      apply Fit.whole rfl rfl
      apply Fit.whole rfl rfl
      apply Fit.whole rfl rfl
      apply Fit.whole rfl rfl
      apply Fit.whole rfl rfl
      apply Fit.whole rfl rfl
      apply Fit.whole rfl rfl
      exact Fit.last rfl
  | false =>
      apply Fit.whole rfl rfl
      apply Fit.whole rfl rfl
      apply Fit.whole rfl rfl
      apply Fit.whole rfl rfl
      apply Fit.whole rfl rfl
      apply Fit.whole rfl rfl
      exact Fit.last rfl

theorem Input.sections_occupy :
    List.Forall₂ (fun shdr part => Occupies input.file part shdr.shOffset shdr.shSize)
      input.shdrs input.sectionParts := by
  rw [input.sectionParts_eq, Input.shdrs]
  apply List.Forall₂.cons
  · exact ⟨[], input.file, (List.nil_append input.file).symm, rfl, rfl⟩
  · rw [input.file_eq]
    apply input.rows_fit.occupies
    rw [input.headers_length]

theorem Input.programHeaders_occupy :
    Occupies input.file (input.phdrs.flatMap Phdr.bytes) input.ehdr.ePhoff
      (32 * input.ehdr.ePhnum) := by
  rw [input.file_eq, List.append_assoc]
  apply occupies
  · exact congrArg Nat.cast input.ehdr.bytes_length
  · rw [flatMap_length Phdr.bytes_length, Input.phdrs, Input.ehdr]
    cases input.dynlink <;> rfl

theorem Input.shdrs_length : input.shdrs.length = input.ehdr.eShnum := by
  have paired := input.sections_occupy.length_eq
  rw [paired, input.sectionParts_eq, Input.paddedParts, Input.ehdr]
  cases input.dynlink <;> rfl

theorem Input.partBytes_length : ((partBytes input.paddedParts).length : Int) =
    input.ehdr.eShoff - input.elfHeaderLen := by
  rw [Input.paddedParts, Input.ehdr, input.interp_eq]
  cases input.dynlink with
  | true =>
      simp only [partBytes, if_true, List.flatMap_append, List.flatMap_cons, List.flatMap_nil,
        List.length_append, List.length_nil]
      push_cast
      ring
  | false =>
      simp only [partBytes, Bool.false_eq_true, if_false, List.flatMap_append, List.flatMap_cons,
        List.flatMap_nil, List.length_append, List.length_nil]
      push_cast
      ring

theorem Input.sectionHeaders_occupy :
    Occupies input.file (input.shdrs.flatMap Shdr.bytes) input.ehdr.eShoff
      (40 * input.ehdr.eShnum) := by
  rw [input.file_eq, ← List.append_nil (_ ++ input.shdrs.flatMap Shdr.bytes)]
  apply occupies
  · rw [List.length_append, Nat.cast_add, input.headers_length, input.partBytes_length]
    ring
  · rw [flatMap_length Shdr.bytes_length, input.shdrs_length]
    rfl

/-- The part of the file the segment that is not writable is. -/
def Input.readOnlyPart : List UInt8 :=
  input.ehdr.bytes ++ input.phdrs.flatMap Phdr.bytes ++ input.code ++ input.elfRodata ++
    input.readOnlyDynamic

theorem Input.readOnlyPart_length : (input.readOnlyPart.length : Int) = input.readOnlySize := by
  rw [Input.readOnlyPart, List.length_append, List.length_append, List.length_append,
    input.headers_length, Input.readOnlySize, Input.readOnlyDynamic]
  cases input.dynlink with
  | true =>
      simp only [if_true, List.length_append]
      push_cast
      ring
  | false =>
      simp only [Bool.false_eq_true, if_false, List.length_nil]
      push_cast
      ring

theorem Input.writableDynamic_length :
    (input.writableDynamic.length : Int) = input.dynamicSize := by
  rw [Input.writableDynamic, Input.dynamicSize]
  cases input.dynlink with
  | true => simp only [if_true, List.length_append]
  | false => rfl

theorem Input.segments_occupy :
    List.Forall₂ (fun phdr part => Occupies input.file part phdr.pOffset phdr.pFilesz)
      input.phdrs input.segmentParts := by
  have readOnly := input.readOnlyPart_length
  have writable := input.writableDynamic_length
  rw [Input.phdrs, Input.segmentParts]
  apply List.Forall₂.cons
  · refine ⟨[], input.writableDynamic ++ input.elfData ++ input.elfSymtab ++ input.elfStrtab ++
      input.shstrtab ++ input.shdrs.flatMap Shdr.bytes, ?_, rfl, readOnly⟩
    simp only [Input.file, List.append_assoc, List.nil_append]
  apply List.Forall₂.cons
  · refine ⟨input.readOnlyPart, input.elfSymtab ++ input.elfStrtab ++ input.shstrtab ++
      input.shdrs.flatMap Shdr.bytes, ?_, readOnly, ?_⟩
    · simp only [Input.file, Input.readOnlyPart, List.append_assoc]
    · rw [List.length_append, Nat.cast_add, writable]
      exact add_comm _ _
  cases isDynamic : input.dynlink with
  | false => exact List.Forall₂.nil
  | true =>
      have relplt : (input.readOnlyPart.length : Int) = input.elfHeaderLen + input.code.length +
          input.elfRodata.length + input.relplt.length + input.plt.length := by
        rw [readOnly, Input.readOnlySize, isDynamic, if_pos rfl]
        push_cast
        ring
      apply List.Forall₂.cons
      · refine ⟨input.readOnlyPart, [0, 0, 0] ++ input.got ++ input.dynstr ++ input.dynsym ++
          input.dynamic ++ input.elfData ++ input.elfSymtab ++ input.elfStrtab ++
          input.shstrtab ++ input.shdrs.flatMap Shdr.bytes, ?_, relplt, rfl⟩
        simp only [Input.file, Input.readOnlyPart, Input.writableDynamic, isDynamic, if_true,
          input.interp_eq, List.append_assoc]
      apply List.Forall₂.cons
      · refine ⟨input.readOnlyPart ++ input.interp ++ input.got ++ input.dynstr ++ input.dynsym,
          input.elfData ++ input.elfSymtab ++ input.elfStrtab ++ input.shstrtab ++
            input.shdrs.flatMap Shdr.bytes, ?_, ?_, rfl⟩
        · simp only [Input.file, Input.readOnlyPart, Input.writableDynamic, isDynamic, if_true,
            List.append_assoc]
        · simp only [List.length_append, Nat.cast_add, relplt]
          rfl
      exact List.Forall₂.nil

end Occupied

/-! ## Where the segments are -/

/-- Two ranges of which the second starts at `gap` bytes from a page behind the end
of the first share no page: where the second is not empty, it starts behind the
pages of the first. -/
theorem pages_apart {size gap memsz : Int} (long : gap ≤ size) (some_ : 4 ≤ size)
    (aligned : gap % pageSize = 0) :
    (∀ a b, elfStart ≤ a → a < elfStart + size → elfStart + size + pageSize - gap ≤ b →
      b < elfStart + size + pageSize - gap + memsz → a / pageSize ≠ b / pageSize) ↔
    (gap ≤ 0 ∨ memsz ≤ 0 ∨ gap = pageSize ∧ size % pageSize = 0) := by
  simp only [elfStart, pageSize] at *
  constructor
  · intro apart
    by_contra shared
    rw [not_or, not_or] at shared
    rcases shared with ⟨positive, filled, unaligned⟩
    rcases eq_or_ne gap 4096 with whole | more
    · apply apart (0x10000 + size - 1) (0x10000 + size) <;> omega
    · apply apart (0x10000 + size + 4096 - gap) (0x10000 + size + 4096 - gap) <;> omega
  · intro placed a b _ aEnd bStart bEnd
    omega

section Segments

variable (input : Input)

theorem Input.loaded {phdr : Phdr} (member : phdr ∈ input.phdrs) (load : phdr.pType = 1) :
    phdr = input.readOnlySegment ∨ phdr = input.writableSegment := by
  rw [Input.phdrs] at member
  rcases List.mem_append.mp member with always | dynamic
  · simpa only [List.mem_cons, List.not_mem_nil, or_false] using always
  · split at dynamic
    · simp only [List.mem_cons, List.not_mem_nil, or_false] at dynamic
      rcases dynamic with rfl | rfl <;> cases load
    · cases dynamic

theorem Input.readOnlySegment_mem : input.readOnlySegment ∈ input.phdrs :=
  List.mem_append_left _ List.mem_cons_self

theorem Input.writableSegment_mem : input.writableSegment ∈ input.phdrs :=
  List.mem_append_left _ (List.mem_cons_of_mem _ List.mem_cons_self)

/-- The two loaded segments are the only ones that can share a page. -/
theorem Input.apart_iff :
    (∀ first ∈ input.phdrs, ∀ second ∈ input.phdrs, first.pType = 1 → second.pType = 1 →
      first.pFlags ≠ second.pFlags → ∀ a b, first.Covers a → second.Covers b →
        a / pageSize ≠ b / pageSize) ↔
    ∀ a b, input.readOnlySegment.Covers a → input.writableSegment.Covers b →
      a / pageSize ≠ b / pageSize := by
  have readOnlyDiffers : input.readOnlySegment.pFlags ≠ input.writableSegment.pFlags := by
    change (5 : Int) ≠ 6
    norm_num
  constructor
  · intro apart
    exact apart _ input.readOnlySegment_mem _ input.writableSegment_mem rfl rfl readOnlyDiffers
  · intro apart first isFirst second isSecond firstLoad secondLoad different a b inFirst inSecond
    rcases input.loaded isFirst firstLoad with rfl | rfl <;>
      rcases input.loaded isSecond secondLoad with rfl | rfl
    · exact absurd rfl different
    · exact apart a b inFirst inSecond
    · exact (apart b a inSecond inFirst).symm
    · exact absurd rfl different

theorem Input.congruent_iff :
    (∀ phdr ∈ input.phdrs, phdr.pType = 1 →
      phdr.pVaddr % pageSize = phdr.pOffset % pageSize) ↔
    input.uncounted % pageSize = 0 := by
  have start := input.writableSegment_pVaddr
  have offset : input.writableSegment.pOffset = input.readOnlySize := rfl
  simp only [elfStart, pageSize] at *
  constructor
  · intro congruent
    have writable := congruent _ input.writableSegment_mem rfl
    omega
  · intro aligned phdr member load
    rcases input.loaded member load with rfl | rfl
    · rfl
    · omega

/-- The data of the writable segment. -/
def Input.writableSize : Int := input.elfData.length + input.dynamicSize

/-- The file is consistent exactly if the size counted for the code differs from the
size of the code by whole pages, and does not fall short of it, unless there is
nothing to write to or it falls short by one page and the rest fills whole pages. -/
theorem consistent_iff (input : Input) :
    Consistent input ↔
      input.uncounted % pageSize = 0 ∧
        (input.uncounted ≤ 0 ∨ input.writableSize ≤ 0 ∨
          input.uncounted = pageSize ∧ input.readOnlySize % pageSize = 0) := by
  have start := input.writableSegment_pVaddr
  have memsz : input.writableSegment.pMemsz = input.writableSize := by
    rw [Input.writableSize]
    change input.elfData.length + elfBssSize + input.dynamicSize = _
    rw [elfBssSize, add_zero]
  have long : input.uncounted ≤ input.readOnlySize ∧ 4 ≤ input.readOnlySize := by
    have whole := input.readOnlyPart_length
    rw [Input.readOnlyPart, List.length_append, List.length_append, List.length_append,
      input.headers_length] at whole
    have header : 116 ≤ input.elfHeaderLen := Nat.le_add_right 116 _
    have offset : input.uncounted = input.code.length - input.elfOffset := rfl
    constructor <;> omega
  have apart := input.apart_iff
  simp only [Phdr.Covers, start, memsz] at apart
  constructor
  · intro consistent
    have aligned := input.congruent_iff.mp consistent.congruent
    refine ⟨aligned, (pages_apart long.1 long.2 aligned).mp ?_⟩
    intro a b aStart aEnd bStart bEnd
    exact apart.mp consistent.apart a b ⟨aStart, aEnd⟩ ⟨bStart, bEnd⟩
  · rintro ⟨aligned, placed⟩
    refine ⟨input.programHeaders_occupy, input.sectionHeaders_occupy, input.sections_occupy,
      input.segments_occupy, input.congruent_iff.mpr aligned, apart.mpr ?_⟩
    intro a b inReadOnly inWritable
    exact (pages_apart long.1 long.2 aligned).mpr placed a b inReadOnly.1 inReadOnly.2
      inWritable.1 inWritable.2

end Segments

/-- The ELF writer is given what the code generator left, and the code generator the
addresses the ELF writer set. -/
structure Links (env : Arm.Env) (p : Program) (L : Layout) (image : Image Arm.Insn)
    (input : Input) : Prop where
  code : input.code = insnBytes image.code
  elfOffset : input.elfOffset = L.elfOffset
  dynlink : input.dynlink = p.dynlink
  elfCodeStart : env.elfCodeStart = input.elfCodeStart
  elfDataStart : env.elfDataStart = input.elfDataStart
  elfRodataStart : env.elfRodataStart = input.elfRodataStart
  elfPltStart : p.dynlink = true → env.elfPltStart = input.elfPltStart

/-- The addresses for the program with the copy. -/
def negatedEnv : Arm.Env := ⟨false, 0x10074, 0x1117C, 0x1017C, 0⟩

/-- What the ELF writer is given for the program with the copy: the undefined symbol
and the word the global stack pointer is saved in. -/
def negatedInput (image : Image Arm.Insn) : Input where
  elfMachine := 0x28
  elfFlags := 0x5000400
  elfOffset := 264
  code := insnBytes image.code
  data := intBytes 0
  rodata := []
  symtab := intBytes 0 ++ intBytes 0 ++ intBytes 0 ++ intBytes 0
  strtab := [0]
  elfSymbolIndex := 1
  dynlink := false
  funcs := []

/-- The data segment of the program with the copy is four bytes off its place in the
file. -/
theorem negatedProgram_inconsistent :
    ¬ ∀ (env : Arm.Env) (p : Program) (L : Layout) (image : Image Arm.Insn) (input : Input),
      p.mainBb.isSome = true → Arm.cfgFlatten env.hardMulDiv p = some L →
        Arm.codeGenerate env p L = some image → Links env p L image input →
          Consistent input := by
  intro claimed
  have laid : Arm.cfgFlatten false Arm.negatedProgram =
      some ((Arm.cfgFlatten false Arm.negatedProgram).get rfl) := rfl
  have emitted : Arm.codeGenerate negatedEnv Arm.negatedProgram
      ((Arm.cfgFlatten false Arm.negatedProgram).get rfl) =
        some ((Arm.codeGenerate negatedEnv Arm.negatedProgram
          ((Arm.cfgFlatten false Arm.negatedProgram).get rfl)).get rfl) := rfl
  have dataStart : ∀ image, negatedEnv.elfDataStart = (negatedInput image).elfDataStart := by
    intro image
    have rodata : (negatedInput image).elfRodata = [] := (by decide : alignBytes [] = [])
    simp only [Input.elfDataStart, rodata]
    rfl
  have links : ∀ image, Links negatedEnv Arm.negatedProgram
      ((Arm.cfgFlatten false Arm.negatedProgram).get rfl) image (negatedInput image) :=
    fun image => ⟨rfl, rfl, rfl, rfl, dataStart image, rfl, by rintro ⟨⟩⟩
  have consistent := claimed negatedEnv Arm.negatedProgram _ _ (negatedInput _) rfl laid emitted
    (links _)
  have aligned := (Input.congruent_iff _).mp consistent.congruent
  rw [Input.uncounted, negatedInput, insnBytes_length] at aligned
  revert aligned
  decide

end Shecc.Elf
