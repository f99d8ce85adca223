import Shecc.Arm.Codegen

/-!
# The dynamic-linking tables

`elf_preprocess` fixes the sizes of `.rel.plt`, `.plt` and `.got` from the
function list, `elf_generate_sections` fills the tables in one pass over that
list, and `plt_generate` emits the PLT. A string is the list of its characters,
a table the list of its records.
-/

namespace Shecc.Elf

open Arm (pltHead pltEntry pltGenerate pltSlot)

/-- A function as the ELF writer sees it. -/
structure Func where
  name : List Char
  isUsed : Bool
  hasBody : Bool
  pltOffset : Int := 0
  gotOffset : Int := 0

/-- `func->is_used && !func->bbs`. -/
def Func.external (func : Func) : Bool := func.isUsed && !func.hasBody

/-- `PLT_FIXUP_SIZE`. -/
def pltFixupSize : Int := 20

/-- `PLT_ENT_SIZE`. -/
def pltEntSize : Int := 12

/-- `PTR_SIZE`. -/
def ptrSize : Int := 4

/-- `DYN_LINKER`. -/
def dynLinker : List Char := "/lib/ld-linux-armhf.so.3".toList

/-- `LIBC_SO`. -/
def libcSo : List Char := "libc.so.6".toList

/-- The function PLT[1] and GOT[3] are reserved for. -/
def libcStartMain : List Char := "__libc_start_main".toList

/-- An entry of `.rel.plt`: `elf32_rel_t`. -/
structure Rel where
  rOffset : Int
  rInfo : Int

/-- What is set of an entry of `.dynsym`: `elf32_sym_t`. -/
structure Sym where
  stName : Int
  stInfo : Int

/-- An entry of `.dynamic`: `elf32_dyn_t`. -/
structure Dyn where
  dTag : Int
  dUn : Int

/-! ## Sizes fixed before layout -/

/-- The section sizes `elf_preprocess` calculates. -/
structure Sizes where
  relpltSize : Int
  pltSize : Int
  gotSize : Int

/-- `elf_interp_size`. -/
def elfInterpSize : Nat := (dynLinker.length + 1 + 3) / 4 * 4

/-- The sizes with one function more. -/
def Sizes.count (sizes : Sizes) (func : Func) : Sizes :=
  if func.external then
    ⟨sizes.relpltSize + 8, sizes.pltSize + pltEntSize, sizes.gotSize + ptrSize⟩
  else sizes

/-- The sizes for a function list. -/
def countSizes (funcs : List Func) : Sizes :=
  funcs.foldl Sizes.count ⟨8, pltFixupSize + pltEntSize, ptrSize * 3 + ptrSize⟩

/-! ## The tables -/

/-- `elf_align`: zeros up to a multiple of four. -/
def elfAlign (buffer : List Char) : List Char :=
  buffer ++ List.replicate ((4 - buffer.length % 4) % 4) (Char.ofNat 0)

/-- `elf_write_str` and the terminating zero. -/
def cString (str : List Char) : List Char := str ++ [Char.ofNat 0]

/-- The buffers and counters of the pass over the function list, and the
functions passed. -/
structure Tables where
  relplt : List Rel
  dynsym : List Sym
  dynstr : List Char
  rOffset : Int
  dymsymIdx : Int
  stName : Int
  funcPltOfs : Int
  funcGotOfs : Int
  funcs : List Func

/-- `R_ARCH_JUMP_SLOT`. -/
def jumpSlot : Int := 0x16

/-- `(dymsym_idx << 8) | R_ARCH_JUMP_SLOT`. -/
def relInfo (dymsymIdx : Int) : Int := dymsymIdx * 2 ^ 8 + jumpSlot

/-- `ELF32_ST_INFO(1, 2)`. -/
def globalFunc : Int := 1 * 2 ^ 4 + 2

/-- The tables with the entries every program has, `__libc_start_main` among
them. -/
def initialTables (elfGotStart : Int) : Tables where
  relplt := [⟨elfGotStart + ptrSize * 3, relInfo 1⟩]
  dynsym := [⟨0, 0⟩, ⟨1 + (libcSo.length + 1 : Nat), globalFunc⟩]
  dynstr := [Char.ofNat 0] ++ cString libcSo ++ cString libcStartMain
  rOffset := elfGotStart + ptrSize * 3
  dymsymIdx := 2
  stName := 1 + (libcSo.length + 1 : Nat) + (libcStartMain.length + 1 : Nat)
  funcPltOfs := pltFixupSize + pltEntSize
  funcGotOfs := ptrSize * 2 ^ 2
  funcs := []

/-- The body of the loop over the function list. -/
def Tables.add (T : Tables) (func : Func) : Tables :=
  if func.external then
    { relplt := T.relplt ++ [⟨T.rOffset + ptrSize, relInfo T.dymsymIdx⟩]
      dynsym := T.dynsym ++ [⟨T.stName, globalFunc⟩]
      dynstr := T.dynstr ++ cString func.name
      rOffset := T.rOffset + ptrSize
      dymsymIdx := T.dymsymIdx + 1
      stName := T.stName + (func.name.length + 1 : Nat)
      funcPltOfs := T.funcPltOfs + pltEntSize
      funcGotOfs := T.funcGotOfs + ptrSize
      funcs := T.funcs ++ [{ func with pltOffset := T.funcPltOfs, gotOffset := T.funcGotOfs }] }
  else { T with funcs := T.funcs ++ [func] }

/-- The words of `.got`: the loop runs `fuel` times at most. -/
def gotEntries (elfPltStart gotSize : Int) : Nat → Int → List Int
  | 0, _ => []
  | fuel + 1, i =>
      if i < gotSize then elfPltStart :: gotEntries elfPltStart gotSize fuel (i + ptrSize) else []

/-- The addresses the tables refer to. -/
structure Addresses where
  elfRelpltStart : Int
  elfPltStart : Int
  elfGotStart : Int

/-- The dynamic sections. -/
structure DynamicSections where
  interp : List Char
  relplt : List Rel
  plt : List Arm.Insn
  got : List Int
  dynstr : List Char
  dynsym : List Sym
  dynamic : List Dyn
  funcs : List Func

/-- The reserved words of `.got`: the address of `.dynamic` and two zeros. -/
def gotHead (addresses : Addresses) (sizes : Sizes) (dynstr : List Char) (dynsym : List Sym) :
    List Int :=
  [addresses.elfGotStart + sizes.gotSize + (dynstr.length : Nat) + 16 * (dynsym.length : Nat),
   0, 0]

/-- The entries of `.dynamic`. -/
def dynamicEntries (addresses : Addresses) (sizes : Sizes) (dynstr : List Char) : List Dyn :=
  [⟨0x5, addresses.elfGotStart + sizes.gotSize⟩,
   ⟨0xa, (dynstr.length : Nat)⟩,
   ⟨0x6, addresses.elfGotStart + sizes.gotSize + (dynstr.length : Nat)⟩,
   ⟨0xb, 16⟩,
   ⟨0x11, addresses.elfRelpltStart⟩,
   ⟨0x12, sizes.relpltSize⟩,
   ⟨0x13, 8⟩,
   ⟨0x3, addresses.elfGotStart⟩,
   ⟨0x2, sizes.relpltSize⟩,
   ⟨0x14, 0x11⟩,
   ⟨0x17, addresses.elfRelpltStart⟩,
   ⟨0x1, 0x1⟩,
   ⟨0x0, 0x0⟩]

/-- What `elf_generate_sections` and `plt_generate` fill in dynamic-linking mode. -/
def generateSections (addresses : Addresses) (funcs : List Func) : DynamicSections :=
  let sizes := countSizes funcs
  let T := funcs.foldl Tables.add (initialTables addresses.elfGotStart)
  let dynstr := elfAlign T.dynstr
  { interp := elfAlign (cString dynLinker)
    relplt := T.relplt
    plt := pltGenerate addresses.elfGotStart sizes.pltSize.toNat
    got := gotHead addresses sizes dynstr T.dynsym ++
      gotEntries addresses.elfPltStart sizes.gotSize sizes.gotSize.toNat (ptrSize * 3)
    dynstr := dynstr
    dynsym := T.dynsym
    dynamic := dynamicEntries addresses sizes dynstr
    funcs := T.funcs }

/-! ## Agreement -/

/-- An external function and the offsets it got. -/
structure Entry where
  name : List Char
  pltOffset : Int
  gotOffset : Int

/-- `__libc_start_main` with its reserved offsets, and the external functions in
the order of the function list. -/
def DynamicSections.entries (S : DynamicSections) : List Entry :=
  ⟨libcStartMain, pltFixupSize, ptrSize * 3⟩ ::
    (S.funcs.filter Func.external).map fun func => ⟨func.name, func.pltOffset, func.gotOffset⟩

/-- The PLT entry at an offset jumps through the slot at an address. -/
def JumpsThrough (plt : List Arm.Insn) (pltOffset address : Int) : Prop :=
  ∃ before low high load after lowWord highWord loadWord,
    plt = before ++ low :: high :: load :: after ∧ (4 * before.length : Int) = pltOffset ∧
      low.encode = some lowWord ∧ high.encode = some highWord ∧ load.encode = some loadWord ∧
        pltSlot lowWord highWord loadWord = some (address % 2 ^ 32)

/-- A string stands in a string table at an offset. -/
def StandsAt (dynstr : List Char) (name : List Char) (offset : Int) : Prop :=
  ∃ before after, dynstr = before ++ cString name ++ after ∧ (before.length : Int) = offset

/-- Everything the tables say about the `k`-th entry belongs to one function. -/
structure Linked (addresses : Addresses) (S : DynamicSections) (k : Nat) (entry : Entry) :
    Prop where
  plt : JumpsThrough S.plt entry.pltOffset (addresses.elfGotStart + entry.gotOffset)
  got : ∃ slot : Nat, (4 * slot : Int) = entry.gotOffset ∧
    S.got[slot]? = some addresses.elfPltStart
  rel : ∃ rel sym, S.relplt[k]? = some rel ∧
    rel.rOffset = addresses.elfGotStart + entry.gotOffset ∧ rel.rInfo % 2 ^ 8 = jumpSlot ∧
      S.dynsym[(rel.rInfo / 2 ^ 8).toNat]? = some sym ∧ StandsAt S.dynstr entry.name sym.stName

/-- The sizes fixed before layout are the ones of the buffers. -/
structure SizesAgree (sizes : Sizes) (S : DynamicSections) : Prop where
  relplt : sizes.relpltSize = (8 * S.relplt.length : Nat)
  plt : sizes.pltSize = (4 * S.plt.length : Nat)
  got : sizes.gotSize = (4 * S.got.length : Nat)
  interp : elfInterpSize = S.interp.length

/-! ## One pass over the function list -/

/-- The entries of the tables so far. -/
def Tables.entries (T : Tables) : List Entry :=
  ⟨libcStartMain, pltFixupSize, ptrSize * 3⟩ ::
    (T.funcs.filter Func.external).map fun func => ⟨func.name, func.pltOffset, func.gotOffset⟩

/-- Where the `k`-th entry is in the tables. -/
structure Located (elfGotStart : Int) (T : Tables) (k : Nat) (entry : Entry) : Prop where
  pltOffset : entry.pltOffset = 20 + 12 * k
  gotOffset : entry.gotOffset = 12 + 4 * k
  rel : T.relplt[k]? = some ⟨elfGotStart + entry.gotOffset, relInfo (k + 1)⟩
  sym : ∃ stName, T.dynsym[k + 1]? = some ⟨stName, globalFunc⟩ ∧
    StandsAt T.dynstr entry.name stName

/-- The counters are the lengths of the tables, the sizes fixed before layout keep
up with them, and every entry is in its place. -/
structure InStep (elfGotStart : Int) (sizes : Sizes) (T : Tables) : Prop where
  relplt : (T.relplt.length : Int) = T.entries.length
  dynsym : (T.dynsym.length : Int) = T.entries.length + 1
  dynstr : (T.dynstr.length : Int) = T.stName
  rOffset : T.rOffset = elfGotStart + 8 + 4 * T.entries.length
  dymsymIdx : T.dymsymIdx = T.entries.length + 1
  funcPltOfs : T.funcPltOfs = 20 + 12 * T.entries.length
  funcGotOfs : T.funcGotOfs = 12 + 4 * T.entries.length
  relpltSize : sizes.relpltSize = 8 * T.entries.length
  pltSize : sizes.pltSize = 20 + 12 * T.entries.length
  gotSize : sizes.gotSize = 12 + 4 * T.entries.length
  located : ∀ k entry, T.entries[k]? = some entry → Located elfGotStart T k entry

theorem StandsAt.append {dynstr name : List Char} {offset : Int}
    (stands : StandsAt dynstr name offset) (others : List Char) :
    StandsAt (dynstr ++ others) name offset := by
  rcases stands with ⟨before, after, rfl, length⟩
  refine ⟨before, after ++ others, ?_, length⟩
  simp only [List.append_assoc]

theorem standsAt_end (dynstr name : List Char) :
    StandsAt (dynstr ++ cString name) name dynstr.length :=
  ⟨dynstr, [], (List.append_nil _).symm, rfl⟩

theorem initialTables_inStep (elfGotStart : Int) :
    InStep elfGotStart ⟨8, pltFixupSize + pltEntSize, ptrSize * 3 + ptrSize⟩
      (initialTables elfGotStart) := by
  constructor
  case rOffset =>
    simp only [initialTables, Tables.entries, ptrSize, List.filter_nil, List.map_nil,
      List.length_singleton]
    omega
  case located =>
    intro k entry listed
    match k with
    | 0 =>
        cases listed
        refine ⟨rfl, rfl, rfl, _, rfl, ?_⟩
        exact ⟨[Char.ofNat 0] ++ cString libcSo, [], by rw [List.append_nil]; rfl, rfl⟩
    | k + 1 => cases listed
  all_goals rfl

theorem Tables.add_internal {T : Tables} {func : Func} (internal : func.external = false) :
    (T.add func).entries = T.entries := by
  simp [Tables.add, Tables.entries, internal]

theorem Tables.add_external {T : Tables} {func : Func} (external : func.external = true) :
    (T.add func).entries = T.entries ++ [⟨func.name, T.funcPltOfs, T.funcGotOfs⟩] := by
  have same : ({ func with pltOffset := T.funcPltOfs, gotOffset := T.funcGotOfs } : Func).external
      = true := external
  simp [Tables.add, Tables.entries, external, same]

/-- One function more. -/
theorem InStep.add {elfGotStart : Int} {sizes : Sizes} {T : Tables}
    (inStep : InStep elfGotStart sizes T) (func : Func) :
    InStep elfGotStart (sizes.count func) (T.add func) := by
  by_cases external : func.external = true
  · have entries := Tables.add_external (T := T) external
    have added : T.add func =
        { relplt := T.relplt ++ [⟨T.rOffset + ptrSize, relInfo T.dymsymIdx⟩]
          dynsym := T.dynsym ++ [⟨T.stName, globalFunc⟩]
          dynstr := T.dynstr ++ cString func.name
          rOffset := T.rOffset + ptrSize
          dymsymIdx := T.dymsymIdx + 1
          stName := T.stName + (func.name.length + 1 : Nat)
          funcPltOfs := T.funcPltOfs + pltEntSize
          funcGotOfs := T.funcGotOfs + ptrSize
          funcs := T.funcs ++
            [{ func with pltOffset := T.funcPltOfs, gotOffset := T.funcGotOfs }] } :=
      if_pos external
    have counted : sizes.count func =
        ⟨sizes.relpltSize + 8, sizes.pltSize + pltEntSize, sizes.gotSize + ptrSize⟩ :=
      if_pos external
    have length : ((T.add func).entries.length : Int) = T.entries.length + 1 := by
      rw [entries, List.length_append]
      rfl
    constructor
    case located =>
      intro k entry listed
      rw [entries] at listed
      rcases Nat.lt_or_ge k T.entries.length with earlier | later
      · rw [List.getElem?_append_left earlier] at listed
        have located := inStep.located k entry listed
        rcases located.sym with ⟨stName, symEq, stands⟩
        have relBound := (List.getElem?_eq_some_iff.mp located.rel).1
        have symBound := (List.getElem?_eq_some_iff.mp symEq).1
        refine ⟨located.pltOffset, located.gotOffset, ?_, stName, ?_, ?_⟩
        · rw [added, List.getElem?_append_left relBound]
          exact located.rel
        · rw [added, List.getElem?_append_left symBound]
          exact symEq
        · rw [added]
          exact stands.append _
      · rw [List.getElem?_append_right later] at listed
        have last : k = T.entries.length := by
          by_contra different
          rw [List.getElem?_eq_none (by simp; omega)] at listed
          cases listed
        subst last
        rw [Nat.sub_self] at listed
        cases listed
        have relIndex : T.entries.length = T.relplt.length := by
          have := inStep.relplt
          omega
        have symIndex : T.entries.length + 1 = T.dynsym.length := by
          have := inStep.dynsym
          omega
        refine ⟨inStep.funcPltOfs, inStep.funcGotOfs, ?_, T.stName, ?_, ?_⟩
        · rw [added, relIndex, List.getElem?_concat_length, inStep.rOffset, inStep.funcGotOfs,
            inStep.dymsymIdx, ptrSize, relIndex]
          congr 2
          simp only
          omega
        · rw [added, symIndex, List.getElem?_concat_length]
        · rw [added, ← inStep.dynstr]
          exact standsAt_end _ _
    case relplt =>
      rw [length, added, List.length_append, Nat.cast_add, inStep.relplt]
      rfl
    case dynsym =>
      rw [length, added, List.length_append, Nat.cast_add, inStep.dynsym]
      rfl
    case dynstr =>
      rw [added, List.length_append, Nat.cast_add, inStep.dynstr, cString, List.length_append]
      rfl
    case rOffset =>
      rw [length, added, inStep.rOffset, ptrSize]
      ring
    case dymsymIdx => rw [length, added, inStep.dymsymIdx]
    case funcPltOfs =>
      rw [length, added, inStep.funcPltOfs, pltEntSize]
      ring
    case funcGotOfs =>
      rw [length, added, inStep.funcGotOfs, ptrSize]
      ring
    case relpltSize =>
      rw [length, counted, inStep.relpltSize]
      ring
    case pltSize =>
      rw [length, counted, inStep.pltSize, pltEntSize]
      ring
    case gotSize =>
      rw [length, counted, inStep.gotSize, ptrSize]
      ring
  · have internal : func.external = false := by simpa using external
    have entries := Tables.add_internal (T := T) internal
    have added : T.add func = { T with funcs := T.funcs ++ [func] } := if_neg external
    have counted : sizes.count func = sizes := if_neg external
    constructor
    case located =>
      intro k entry listed
      rw [entries] at listed
      have located := inStep.located k entry listed
      rw [added]
      exact ⟨located.pltOffset, located.gotOffset, located.rel, located.sym⟩
    all_goals first
      | rw [entries, added]
      | rw [entries, counted]
      | rw [added]
    · exact inStep.relplt
    · exact inStep.dynsym
    · exact inStep.dynstr
    · exact inStep.rOffset
    · exact inStep.dymsymIdx
    · exact inStep.funcPltOfs
    · exact inStep.funcGotOfs
    · exact inStep.relpltSize
    · exact inStep.pltSize
    · exact inStep.gotSize

/-- The whole function list. -/
theorem InStep.foldl {elfGotStart : Int} {sizes : Sizes} {T : Tables}
    (inStep : InStep elfGotStart sizes T) (funcs : List Func) :
    InStep elfGotStart (funcs.foldl Sizes.count sizes) (funcs.foldl Tables.add T) := by
  induction funcs generalizing sizes T with
  | nil => exact inStep
  | cons func rest inductionHypothesis => exact inductionHypothesis (inStep.add func)

/-! ## The GOT and the PLT -/

/-- The loop over the GOT runs once for every slot. -/
theorem gotEntries_eq (elfPltStart : Int) {gotSize i : Int} {slots fuel : Nat}
    (length : gotSize = i + 4 * slots) (enough : slots ≤ fuel) :
    gotEntries elfPltStart gotSize fuel i = List.replicate slots elfPltStart := by
  induction slots generalizing fuel i with
  | zero =>
      cases fuel with
      | zero => rfl
      | succ fuel =>
          rw [gotEntries, if_neg (by omega)]
          rfl
  | succ slots inductionHypothesis =>
      cases fuel with
      | zero => omega
      | succ fuel =>
          rw [gotEntries, if_pos (by push_cast at length; omega), List.replicate_succ]
          congr 1
          apply inductionHypothesis
          · rw [ptrSize, length]
            push_cast
            ring
          · omega

theorem range_split {k n : Nat} (inside : k < n) :
    ∃ after, List.range n = List.range k ++ k :: after := by
  refine ⟨(List.range (n - k - 1)).map fun i => k + 1 + i, ?_⟩
  have split : n = k + (1 + (n - k - 1)) := by omega
  conv_lhs => rw [split]
  rw [List.range_add, Nat.add_comm 1, List.range_succ_eq_map]
  simp only [List.map_cons, List.map_map, Nat.add_zero]
  congr 2
  apply List.map_congr_left
  intro i _
  simp only [Function.comp]
  omega

theorem pltGenerate_eq (elfGotStart : Int) (n : Nat) :
    pltGenerate elfGotStart (20 + 12 * n) =
      pltHead elfGotStart ++ (List.range n).flatMap (pltEntry elfGotStart) := by
  have count : (20 + 12 * n - 20 + 11) / 12 = n := by omega
  rw [pltGenerate, count]

theorem pltEntries_length (elfGotStart : Int) (is : List Nat) :
    (is.flatMap (pltEntry elfGotStart)).length = 3 * is.length := by
  induction is with
  | nil => rfl
  | cons i rest inductionHypothesis =>
      rw [List.flatMap_cons, List.length_append, inductionHypothesis, List.length_cons]
      change 3 + 3 * rest.length = 3 * (rest.length + 1)
      ring

theorem pltGenerate_length (elfGotStart : Int) (n : Nat) :
    4 * (pltGenerate elfGotStart (20 + 12 * n)).length = 20 + 12 * n := by
  rw [pltGenerate_eq, List.length_append, pltEntries_length, List.length_range]
  change 4 * (5 + 3 * n) = 20 + 12 * n
  ring

/-- The `k`-th entry behind PLT0 jumps through the `k`-th slot behind the three
reserved ones. -/
theorem pltGenerate_jumpsThrough (elfGotStart : Int) {k n : Nat} (inside : k < n) :
    JumpsThrough (pltGenerate elfGotStart (20 + 12 * n)) (20 + 12 * k)
      (elfGotStart + (12 + 4 * k)) := by
  rcases range_split inside with ⟨after, split⟩
  rcases Arm.pltSlot_encode (elfGotStart + 4 * (k + 3)) with
    ⟨low, high, load, lowEq, highEq, loadEq, slot⟩
  refine ⟨pltHead elfGotStart ++ (List.range k).flatMap (pltEntry elfGotStart), _, _, _,
    after.flatMap (pltEntry elfGotStart), low, high, load, ?_, ?_, lowEq, highEq, loadEq, ?_⟩
  · rw [pltGenerate_eq, split, List.flatMap_append, List.flatMap_cons, List.append_assoc]
    rfl
  · rw [List.length_append, pltEntries_length, List.length_range]
    change ((4 * (5 + 3 * k : Nat) : Int)) = 20 + 12 * k
    push_cast
    ring
  · rw [slot]
    congr 2
    ring

theorem foldl_add_funcs (T : Tables) (funcs : List Func) :
    (funcs.foldl Tables.add T).funcs.map (fun func => (func.name, func.external)) =
      T.funcs.map (fun func => (func.name, func.external)) ++
        funcs.map fun func => (func.name, func.external) := by
  induction funcs generalizing T with
  | nil => simp
  | cons func rest inductionHypothesis =>
      rw [List.foldl_cons, inductionHypothesis, List.map_cons]
      have added : (T.add func).funcs.map (fun func => (func.name, func.external)) =
          T.funcs.map (fun func => (func.name, func.external)) ++ [(func.name, func.external)] := by
        rw [Tables.add]
        split
        · rw [List.map_append]
          rfl
        · rw [List.map_append]
          rfl
      rw [added, List.append_assoc]
      rfl

section Agreement

variable (addresses : Addresses) (funcs : List Func)

/-- The tables behind the sections. -/
def finalTables : Tables := funcs.foldl Tables.add (initialTables addresses.elfGotStart)

theorem finalTables_inStep :
    InStep addresses.elfGotStart (countSizes funcs) (finalTables addresses funcs) :=
  (initialTables_inStep addresses.elfGotStart).foldl funcs

theorem plt_eq : (generateSections addresses funcs).plt =
    pltGenerate addresses.elfGotStart (20 + 12 * (finalTables addresses funcs).entries.length) := by
  have pltSize := (finalTables_inStep addresses funcs).pltSize
  have same : (countSizes funcs).pltSize.toNat =
      20 + 12 * (finalTables addresses funcs).entries.length := by omega
  rw [← same]
  rfl

theorem got_eq : (generateSections addresses funcs).got =
    gotHead addresses (countSizes funcs) (elfAlign (finalTables addresses funcs).dynstr)
      (finalTables addresses funcs).dynsym ++
      List.replicate (finalTables addresses funcs).entries.length addresses.elfPltStart := by
  have gotSize := (finalTables_inStep addresses funcs).gotSize
  have entries := gotEntries_eq addresses.elfPltStart gotSize
    (show (finalTables addresses funcs).entries.length ≤ (countSizes funcs).gotSize.toNat by omega)
  rw [← entries]
  rfl

theorem entries_name : (finalTables addresses funcs).entries.map Entry.name =
    libcStartMain :: (funcs.filter Func.external).map Func.name := by
  have passed := foldl_add_funcs (initialTables addresses.elfGotStart) funcs
  have names : ∀ list : List Func, (list.filter Func.external).map Func.name =
      ((list.map fun func => (func.name, func.external)).filter Prod.snd).map Prod.fst := by
    intro list
    rw [List.filter_map, List.map_map]
    rfl
  rw [Tables.entries, List.map_cons, List.map_map]
  change libcStartMain :: ((finalTables addresses funcs).funcs.filter Func.external).map Func.name
    = _
  rw [names, names]
  congr 3

/-- The dynamic-linking tables agree: every entry's PLT code, GOT slot, relocation,
symbol and name belong to one function, the functions are the ones of the function
list, and the sizes fixed before layout are the ones of the sections. -/
theorem dynamicTables_agree :
    (∀ k entry, (generateSections addresses funcs).entries[k]? = some entry →
      Linked addresses (generateSections addresses funcs) k entry) ∧
    (generateSections addresses funcs).entries.map Entry.name =
      libcStartMain :: (funcs.filter Func.external).map Func.name ∧
    SizesAgree (countSizes funcs) (generateSections addresses funcs) := by
  have inStep := finalTables_inStep addresses funcs
  refine ⟨?_, entries_name addresses funcs, ?_⟩
  · intro k entry listed
    have located := inStep.located k entry listed
    have inside : k < (finalTables addresses funcs).entries.length :=
      (List.getElem?_eq_some_iff.mp listed).1
    constructor
    · rw [plt_eq, located.pltOffset, located.gotOffset]
      exact pltGenerate_jumpsThrough addresses.elfGotStart inside
    · refine ⟨3 + k, ?_, ?_⟩
      · rw [located.gotOffset]
        push_cast
        ring
      · rw [got_eq, List.getElem?_append_right (by simp [gotHead])]
        simp [gotHead, inside]
    · rcases located.sym with ⟨stName, symEq, stands⟩
      refine ⟨_, ⟨stName, globalFunc⟩, located.rel, rfl, ?_, ?_, ?_⟩
      · simp only [relInfo, jumpSlot]
        omega
      · have index : (relInfo (k + 1) / 2 ^ 8).toNat = k + 1 := by
          simp only [relInfo, jumpSlot]
          omega
        simp only [index]
        exact symEq
      · exact stands.append _
  · constructor
    · rw [inStep.relpltSize, ← inStep.relplt]
      push_cast
      rfl
    · rw [plt_eq, pltGenerate_length, inStep.pltSize]
      push_cast
      rfl
    · rw [got_eq, inStep.gotSize, List.length_append, List.length_replicate]
      simp only [gotHead, List.length_cons, List.length_nil]
      push_cast
      ring
    · rfl

end Agreement

end Shecc.Elf
