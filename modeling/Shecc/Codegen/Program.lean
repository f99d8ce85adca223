import Shecc.Ir.Core
import Shecc.TwoPass.Core

/-!
# Flattening the control-flow graph

What both code generators start from: the phase-two code of every function, block
by block in layout order, and the code that initialises the globals. Flattening
appends the blocks to one list and gives every block the offset its code will
have, by adding up the sizes of the instructions in front of it.
-/

namespace Shecc.Codegen

open TwoPass

/-- What `find_func` tells the code generator: the first block of the body, if
there is one, and the offset of the PLT entry. -/
structure Callee where
  bbs : Option BlockId
  pltOffset : Int

/-- A block and its phase-two code. -/
structure CodeBlock where
  id : BlockId
  code : List Ph2Ir

/-- A function with a body: `func->bbs` and the blocks behind it along
`rpo_next`. -/
structure CodeFunc where
  name : String
  stackSize : Int
  entry : CodeBlock
  rest : List CodeBlock

/-- The blocks of a function. -/
def CodeFunc.blocks (f : CodeFunc) : List CodeBlock := f.entry :: f.rest

end Codegen

/-- The blocks an instruction refers to. -/
def Ph2Ir.targets (ir : Ph2Ir) : List BlockId :=
  ir.nextBb.toList ++ ir.thenBb.toList ++ ir.elseBb.toList

/-- The instruction leaves the straight line. -/
def Ph2Ir.transfers (ir : Ph2Ir) : Bool :=
  ir.op == .branch || ir.op == .jump || ir.op == .call

namespace Codegen

open TwoPass

/-- A program as the code generators see it. `__syscall` is built in where the
program is linked statically. A global initialiser that would need a branch or a
call stops the register allocator. -/
structure Program where
  dynlink : Bool
  syscallBlock : Option BlockId
  globalBlock : BlockId
  globals : List Ph2Ir
  globalStackSize : Int
  funcs : List CodeFunc
  callee : String → Option Callee
  mainBb : Option BlockId
  syscallPresent : syscallBlock.isSome = !dynlink
  distinct : (syscallBlock.toList ++ globalBlock ::
    funcs.flatMap fun f => f.blocks.map CodeBlock.id).Nodup
  bodies : ∀ name found b, callee name = some found → found.bbs = some b →
    syscallBlock = some b ∨ ∃ f ∈ funcs, f.entry.id = b
  mainBody : ∀ b, mainBb = some b → ∃ f ∈ funcs, f.entry.id = b
  closed : ∀ f ∈ funcs, ∀ block ∈ f.blocks, ∀ ir ∈ block.code, ∀ b ∈ ir.targets,
    ∃ target ∈ f.blocks, target.id = b
  straight : ∀ ir ∈ globals, ir.transfers = false

/-- The instructions of the program, before flattening. -/
def Program.code (p : Program) : List Ph2Ir :=
  p.globals ++ p.funcs.flatMap fun f => f.blocks.flatMap CodeBlock.code

/-- The entries of `PH2_IR_FLATTEN`. -/
def maxIrInstr : Nat := 80000

/-- What `cfg_flatten` does differently on the two targets: the bytes in front of
the global initialisation, the bytes of the call of `main`, the bytes of a
function prologue, the size of an instruction and its last adjustment. -/
structure Flattener where
  start : Nat
  mainCall : Nat
  prologue : Nat
  sizeOf : Ph2Ir → Option Nat
  adjust : CodeFunc → Ph2Ir → Ph2Ir

/-- The offsets computed so far and the flattened list. -/
structure Layout where
  elfOffset : Nat
  blockOffset : BlockId → Nat
  flatten : List Ph2Ir

/-- `bb->elf_offset = elf_offset`. -/
def Layout.mark (L : Layout) (b : BlockId) : Layout :=
  { L with blockOffset := Function.update L.blockOffset b L.elfOffset }

/-- The `OP_define` of a function. -/
def defineIr (f : CodeFunc) : Ph2Ir :=
  { op := .define, src0 := f.stackSize, funcName := f.name }

namespace Flattener

variable (F : Flattener)

/-- The code of a block after the last adjustment. -/
def code (f : CodeFunc) (block : CodeBlock) : List Ph2Ir :=
  block.code.map (F.adjust f)

/-- The code of a function: its `OP_define` and its blocks. -/
def funcCode (f : CodeFunc) : List Ph2Ir :=
  defineIr f :: f.blocks.flatMap (F.code f)

/-- The size of an instruction; `OP_define` stands for the prologue. -/
def measure (ir : Ph2Ir) : Option Nat :=
  if ir.op = .define then some F.prologue else F.sizeOf ir

/-- Lay out one block behind `reserved` bytes. -/
def layBlock (f : CodeFunc) (reserved : Nat) (L : Layout) (block : CodeBlock) :
    Option Layout := do
  let marked := L.mark block.id
  let size ← total F.sizeOf (F.code f block)
  return { marked with
    elfOffset := marked.elfOffset + reserved + size
    flatten := marked.flatten ++ F.code f block }

/-- Lay out the blocks of one function. -/
def layFunc (L : Layout) (f : CodeFunc) : Option Layout := do
  let opened := { L with flatten := L.flatten ++ [defineIr f] }
  let entered ← F.layBlock f F.prologue opened f.entry
  f.rest.foldlM (F.layBlock f 0) entered

/-- `cfg_flatten`. -/
def cfgFlatten (offsets : BlockId → Nat) (p : Program) : Option Layout := do
  let begun : Layout := ⟨F.start, offsets, []⟩
  let marked := begun.mark p.globalBlock
  let size ← total F.sizeOf p.globals
  p.funcs.foldlM F.layFunc { marked with elfOffset := marked.elfOffset + size + F.mainCall }

/-- Every block of a function behind its first, with the code in front of it. -/
def restStarts (f : CodeFunc) : List Ph2Ir → List CodeBlock → List (BlockId × List Ph2Ir)
  | _, [] => []
  | before, block :: rest =>
      (block.id, before) :: restStarts f (before ++ F.code f block) rest

/-- Every block of a function with the code in front of it. The first block
starts at the `OP_define`. -/
def funcStarts (f : CodeFunc) (before : List Ph2Ir) : List (BlockId × List Ph2Ir) :=
  (f.entry.id, before) :: F.restStarts f (before ++ defineIr f :: F.code f f.entry) f.rest

/-- Every block of a list of functions with the code in front of it. -/
def starts : List Ph2Ir → List CodeFunc → List (BlockId × List Ph2Ir)
  | _, [] => []
  | before, f :: rest => F.funcStarts f before ++ starts (before ++ F.funcCode f) rest

end Flattener

section Spec

variable {F : Flattener}

/-- What laying out a piece of code behind `base` bytes achieves: the list grows
by the code, the offset by its size, and every block gets the offset of the code
in front of it. -/
structure Flattener.Lays (F : Flattener) (base : Nat) (L L' : Layout) (code : List Ph2Ir)
    (blocks : List (BlockId × List Ph2Ir)) : Prop where
  flatten : L'.flatten = L.flatten ++ code
  offset : ∃ size, total F.measure L'.flatten = some size ∧ L'.elfOffset = base + size
  marks : ∀ entry ∈ blocks, ∃ size, total F.measure entry.2 = some size ∧
    L'.blockOffset entry.1 = base + size
  frame : ∀ b, (∀ entry ∈ blocks, entry.1 ≠ b) → L'.blockOffset b = L.blockOffset b

theorem total_measure_of_sizeOf (defines : ∀ ir, ir.op = .define → F.sizeOf ir = none)
    {code : List Ph2Ir} {size : Nat} (counted : total F.sizeOf code = some size) :
    total F.measure code = some size := by
  induction code generalizing size with
  | nil => exact counted
  | cons ir rest inductionHypothesis =>
      rcases total_cons counted with ⟨first, others, firstEq, othersEq, rfl⟩
      have plain : ir.op ≠ .define := by
        intro isDefine
        rw [defines ir isDefine] at firstEq
        cases firstEq
      rw [total, Flattener.measure, if_neg plain, firstEq, inductionHypothesis othersEq]
      rfl

theorem total_append_of {α : Type} {size : α → Option Nat} {first second : List α} {a b : Nat}
    (firstEq : total size first = some a) (secondEq : total size second = some b) :
    total size (first ++ second) = some (a + b) := by
  induction first generalizing a with
  | nil =>
      cases firstEq
      rw [List.nil_append, secondEq, Nat.zero_add]
  | cons item rest inductionHypothesis =>
      rcases total_cons firstEq with ⟨head, others, headEq, othersEq, rfl⟩
      rw [List.cons_append, total, headEq, inductionHypothesis othersEq, Nat.add_assoc]
      rfl

namespace Flattener

/-- Pieces laid out behind each other, as long as no block is in both. -/
theorem Lays.append {base : Nat} {L M N : Layout} {first second : List Ph2Ir}
    {blocks others : List (BlockId × List Ph2Ir)} (one : F.Lays base L M first blocks)
    (two : F.Lays base M N second others)
    (apart : ∀ b ∈ blocks.map Prod.fst, b ∉ others.map Prod.fst) :
    F.Lays base L N (first ++ second) (blocks ++ others) := by
  constructor
  · rw [two.flatten, one.flatten, List.append_assoc]
  · exact two.offset
  · intro entry present
    rcases List.mem_append.mp present with present | present
    · rcases one.marks entry present with ⟨size, sizeEq, markEq⟩
      refine ⟨size, sizeEq, ?_⟩
      rw [two.frame, markEq]
      intro other inOthers same
      apply apart entry.1 (List.mem_map_of_mem present)
      rw [← same]
      exact List.mem_map_of_mem inOthers
    · exact two.marks entry present
  · intro b outside
    rw [two.frame b fun entry present => outside entry (List.mem_append_right _ present)]
    exact one.frame b fun entry present => outside entry (List.mem_append_left _ present)

/-- One block, and `reserved` bytes in front of its code that `pending` stands
for. -/
theorem layBlock_lays (defines : ∀ ir, ir.op = .define → F.sizeOf ir = none) {base : Nat}
    {f : CodeFunc} {L L' : Layout} {block : CodeBlock} {before pending : List Ph2Ir}
    {size reserved : Nat} (laid : F.layBlock f reserved L block = some L')
    (list : L.flatten = before ++ pending) (counted : total F.measure before = some size)
    (reserves : total F.measure pending = some reserved) (offset : L.elfOffset = base + size) :
    F.Lays base { L with flatten := before } L' (pending ++ F.code f block)
      [(block.id, before)] := by
  rcases Option.bind_eq_some_iff.mp laid with ⟨added, addedEq, result⟩
  cases Option.some.inj result
  have measured := total_measure_of_sizeOf defines addedEq
  constructor
  · simp only [Layout.mark, list, List.append_assoc]
  · refine ⟨size + reserved + added, ?_, ?_⟩
    · simp only [Layout.mark, list]
      exact total_append_of (total_append_of counted reserves) measured
    · simp only [Layout.mark]
      omega
  · intro entry present
    rw [List.mem_singleton] at present
    subst present
    exact ⟨size, counted, by simp [Layout.mark, offset]⟩
  · intro b others
    have different : b ≠ block.id := Ne.symm (others _ List.mem_cons_self)
    simp [Layout.mark, different]

theorem restStarts_ids (f : CodeFunc) (before : List Ph2Ir) (blocks : List CodeBlock) :
    (F.restStarts f before blocks).map Prod.fst = blocks.map CodeBlock.id := by
  induction blocks generalizing before with
  | nil => rfl
  | cons block rest inductionHypothesis =>
      rw [restStarts, List.map_cons, List.map_cons, inductionHypothesis]

theorem funcStarts_ids (f : CodeFunc) (before : List Ph2Ir) :
    (F.funcStarts f before).map Prod.fst = f.blocks.map CodeBlock.id := by
  rw [funcStarts, List.map_cons, restStarts_ids]
  rfl

theorem starts_ids (before : List Ph2Ir) (funcs : List CodeFunc) :
    (F.starts before funcs).map Prod.fst =
      funcs.flatMap fun f => f.blocks.map CodeBlock.id := by
  induction funcs generalizing before with
  | nil => rfl
  | cons f rest inductionHypothesis =>
      rw [starts, List.map_append, funcStarts_ids, inductionHypothesis, List.flatMap_cons]

/-- Blocks behind each other, as long as no block comes twice. -/
theorem layRest_lays (defines : ∀ ir, ir.op = .define → F.sizeOf ir = none) {base : Nat}
    {f : CodeFunc} {blocks : List CodeBlock} {L L' : Layout} {size : Nat}
    (laid : blocks.foldlM (F.layBlock f 0) L = some L')
    (counted : total F.measure L.flatten = some size) (offset : L.elfOffset = base + size)
    (distinct : (blocks.map CodeBlock.id).Nodup) :
    F.Lays base L L' (blocks.flatMap (F.code f)) (F.restStarts f L.flatten blocks) := by
  induction blocks generalizing L size with
  | nil =>
      cases Option.some.inj laid
      exact ⟨by simp, ⟨size, counted, offset⟩, by simp [restStarts], fun _ _ => rfl⟩
  | cons block rest inductionHypothesis =>
      rw [List.foldlM_cons] at laid
      rcases Option.bind_eq_some_iff.mp laid with ⟨middle, first, others⟩
      rw [List.map_cons, List.nodup_cons] at distinct
      have one := layBlock_lays defines first (List.append_nil _).symm counted rfl offset
      rcases one.offset with ⟨next, nextEq, offsetEq⟩
      have two := inductionHypothesis others nextEq offsetEq distinct.2
      rw [one.flatten] at two
      apply Lays.append one two
      intro b present
      rw [restStarts_ids]
      simp only [List.map_cons, List.map_nil, List.mem_singleton] at present
      rw [present]
      exact distinct.1

/-- One function. -/
theorem layFunc_lays (defines : ∀ ir, ir.op = .define → F.sizeOf ir = none) {base : Nat}
    {f : CodeFunc} {L L' : Layout} {size : Nat} (laid : F.layFunc L f = some L')
    (counted : total F.measure L.flatten = some size) (offset : L.elfOffset = base + size)
    (distinct : (f.blocks.map CodeBlock.id).Nodup) :
    F.Lays base L L' (F.funcCode f) (F.funcStarts f L.flatten) := by
  rcases Option.bind_eq_some_iff.mp laid with ⟨entered, first, others⟩
  rw [CodeFunc.blocks, List.map_cons, List.nodup_cons] at distinct
  have reserves : total F.measure [defineIr f] = some F.prologue := rfl
  have one := layBlock_lays defines first rfl counted reserves offset
  rcases one.offset with ⟨next, nextEq, offsetEq⟩
  have two := layRest_lays defines others nextEq offsetEq distinct.2
  rw [one.flatten] at two
  have both := Lays.append one two (by
    intro b present
    rw [restStarts_ids]
    simp only [List.map_cons, List.map_nil, List.mem_singleton] at present
    rw [present]
    exact distinct.1)
  have list : F.funcCode f =
      [defineIr f] ++ F.code f f.entry ++ f.rest.flatMap (F.code f) := by
    rw [funcCode, CodeFunc.blocks, List.flatMap_cons, List.singleton_append, List.cons_append]
  rw [list]
  exact both

/-- All functions, as long as no block comes twice. -/
theorem layFuncs_lays (defines : ∀ ir, ir.op = .define → F.sizeOf ir = none) {base : Nat}
    {funcs : List CodeFunc} {L L' : Layout} {size : Nat}
    (laid : funcs.foldlM F.layFunc L = some L')
    (counted : total F.measure L.flatten = some size) (offset : L.elfOffset = base + size)
    (distinct : (funcs.flatMap fun f => f.blocks.map CodeBlock.id).Nodup) :
    F.Lays base L L' (funcs.flatMap F.funcCode) (F.starts L.flatten funcs) := by
  induction funcs generalizing L size with
  | nil =>
      cases Option.some.inj laid
      exact ⟨by simp, ⟨size, counted, offset⟩, by simp [starts], fun _ _ => rfl⟩
  | cons f rest inductionHypothesis =>
      rw [List.foldlM_cons] at laid
      rcases Option.bind_eq_some_iff.mp laid with ⟨middle, first, others⟩
      rw [List.flatMap_cons, List.nodup_append] at distinct
      rcases distinct with ⟨inFirst, inRest, apart⟩
      have one := layFunc_lays defines first counted offset inFirst
      rcases one.offset with ⟨next, nextEq, offsetEq⟩
      have two := inductionHypothesis others nextEq offsetEq inRest
      rw [one.flatten] at two
      apply Lays.append one two
      intro b present inOthers
      rw [funcStarts_ids] at present
      rw [starts_ids] at inOthers
      exact apart b present b inOthers rfl

/-- `cfg_flatten`: the list is the code of the functions in order, and every
block gets the size of everything in front of it. -/
theorem cfgFlatten_spec (defines : ∀ ir, ir.op = .define → F.sizeOf ir = none)
    {offsets : BlockId → Nat} {p : Program} {L : Layout}
    (laid : F.cfgFlatten offsets p = some L) :
    ∃ size, total F.sizeOf p.globals = some size ∧
      L.flatten = p.funcs.flatMap F.funcCode ∧
      (∃ code, total F.measure L.flatten = some code ∧
        L.elfOffset = F.start + size + F.mainCall + code) ∧
      (∀ entry ∈ F.starts [] p.funcs, ∃ code, total F.measure entry.2 = some code ∧
        L.blockOffset entry.1 = F.start + size + F.mainCall + code) ∧
      L.blockOffset p.globalBlock = F.start ∧
      ∀ b ∈ p.syscallBlock, L.blockOffset b = offsets b := by
  rcases Option.bind_eq_some_iff.mp laid with ⟨size, sizeEq, others⟩
  have distinct := p.distinct
  rw [List.nodup_append, List.nodup_cons] at distinct
  rcases distinct with ⟨-, ⟨globalOutside, inFuncs⟩, apart⟩
  have all : F.Lays (F.start + size + F.mainCall) _ L _ _ :=
    layFuncs_lays defines others rfl rfl inFuncs
  refine ⟨size, sizeEq, all.flatten, all.offset, all.marks, ?_, ?_⟩
  · rw [all.frame]
    · simp [Layout.mark]
    · intro entry present same
      have inside := List.mem_map_of_mem (f := Prod.fst) present
      rw [starts_ids, same] at inside
      exact globalOutside inside
  · intro b isSyscall
    have outside : ∀ c ∈ p.globalBlock :: p.funcs.flatMap fun f => f.blocks.map CodeBlock.id,
        b ≠ c := apart b (Option.mem_toList.mpr isSyscall)
    rw [all.frame]
    · have different : b ≠ p.globalBlock := outside _ List.mem_cons_self
      simp [Layout.mark, different]
    · intro entry present same
      have inside := List.mem_map_of_mem (f := Prod.fst) present
      rw [starts_ids] at inside
      exact outside _ (List.mem_cons_of_mem _ inside) same.symm

end Flattener

end Spec

end Shecc.Codegen
