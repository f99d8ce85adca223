import Shecc.Codegen.Program

/-!
# Emitting the flattened list

The second pass of both code generators emits the startup code, the global
initialisation, the call of `main` and the flattened list. Where all of it has
the size the first pass counted, every block starts at the offset the first pass
gave it.
-/

namespace Shecc.Codegen

open TwoPass

/-- What a target emits for a program once the offsets are known. The size of the
code emitted so far is a parameter. -/
structure Emitter (β : Type) where
  encode : β → Option Word
  instructions : Nat → Ph2Ir → Option (List β)
  startup : List β
  mainCall : Nat → List β

/-- The code section, in the parts it is emitted in. -/
structure Image (β : Type) where
  startup : List β
  globals : List (Placed Ph2Ir β)
  mainCall : List β
  functions : List (Placed Ph2Ir β)

namespace Image

variable {β : Type} (image : Image β)

/-- The instructions of the code section, in order. -/
def code : List β :=
  image.startup ++ output image.globals ++ image.mainCall ++ output image.functions

/-- Where the global initialisation starts. -/
def globalStart : Nat := 4 * image.startup.length

/-- Where the call of `main` starts. -/
def mainStart : Nat := image.globalStart + 4 * (output image.globals).length

/-- Where the code of the functions starts. -/
def functionStart : Nat := image.mainStart + 4 * image.mainCall.length

/-- The size of the code section. -/
def size : Nat := 4 * image.code.length

end Image

namespace Emitter

variable {β : Type} (E : Emitter β)

/-- Emit instructions, all of which have an encoding. -/
def encodable (insns : List β) : Option (List β) :=
  if insns.all fun insn => (E.encode insn).isSome then some insns else none

/-- `emit_ph2_ir`. -/
def emit (size : Nat) (ir : Ph2Ir) : Option (List β) :=
  (E.instructions size ir).bind E.encodable

/-- `code_generate`, without the PLT. -/
def codeGenerate (globals flatten : List Ph2Ir) : Option (Image β) := do
  let first ← E.encodable E.startup
  let position := 4 * first.length
  let globals ← place 4 E.emit position globals
  let position := position + 4 * (output globals).length
  let main ← E.encodable (E.mainCall position)
  let functions ← place 4 E.emit (position + 4 * main.length) flatten
  return ⟨first, globals, main, functions⟩

/-- The parts `code_generate` emits one after the other. -/
structure Emits (globals flatten : List Ph2Ir) (image : Image β) : Prop where
  startup : image.startup = E.startup
  startupWords : ∀ insn ∈ image.startup, (E.encode insn).isSome = true
  globals : place 4 E.emit image.globalStart globals = some image.globals
  mainCall : image.mainCall = E.mainCall image.mainStart
  mainCallWords : ∀ insn ∈ image.mainCall, (E.encode insn).isSome = true
  functions : place 4 E.emit image.functionStart flatten = some image.functions

variable {E}

theorem encodable_spec {insns list : List β} (encoded : E.encodable insns = some list) :
    list = insns ∧ ∀ insn ∈ list, (E.encode insn).isSome = true := by
  rw [encodable] at encoded
  split at encoded
  · rename_i all
    cases encoded
    exact ⟨rfl, List.all_eq_true.mp all⟩
  · cases encoded

/-- What was emitted is the list of the instruction, and all of it has words. -/
theorem emit_spec {position : Nat} {ir : Ph2Ir} {insns : List β}
    (emitted : E.emit position ir = some insns) :
    E.instructions position ir = some insns ∧ ∀ insn ∈ insns, (E.encode insn).isSome = true := by
  rcases Option.bind_eq_some_iff.mp emitted with ⟨list, listEq, encoded⟩
  rcases encodable_spec encoded with ⟨rfl, words⟩
  exact ⟨listEq, words⟩

theorem codeGenerate_emits {globals flatten : List Ph2Ir} {image : Image β}
    (emitted : E.codeGenerate globals flatten = some image) : E.Emits globals flatten image := by
  rcases Option.bind_eq_some_iff.mp emitted with ⟨first, firstEq, emitted⟩
  rcases Option.bind_eq_some_iff.mp emitted with ⟨globals, globalsEq, emitted⟩
  rcases Option.bind_eq_some_iff.mp emitted with ⟨main, mainEq, emitted⟩
  rcases Option.bind_eq_some_iff.mp emitted with ⟨functions, functionsEq, result⟩
  cases Option.some.inj result
  rcases encodable_spec firstEq with ⟨firstList, firstWords⟩
  rcases encodable_spec mainEq with ⟨mainList, mainWords⟩
  exact ⟨firstList, firstWords, globalsEq, mainList, mainWords, functionsEq⟩

end Emitter

section Starts

variable {F : Flattener} {β : Type}

/-- The position of the code behind a prefix of the flattened list. -/
def startOf (image : Image β) (before : List Ph2Ir) : Nat :=
  image.functionStart + 4 * (output (image.functions.take before.length)).length

/-- A block starts at a position of the emitted program. The startup code ends
with `__syscall`. -/
inductive StartsAt (F : Flattener) (p : Program) (image : Image β) (syscallCode : List β) :
    BlockId → Nat → Prop where
  | syscall {b : BlockId} {before : List β} (builtIn : p.syscallBlock = some b)
      (split : image.startup = before ++ syscallCode) :
      StartsAt F p image syscallCode b (4 * before.length)
  | global : StartsAt F p image syscallCode p.globalBlock image.globalStart
  | block {entry : BlockId × List Ph2Ir} (laid : entry ∈ F.starts [] p.funcs) :
      StartsAt F p image syscallCode entry.1 (startOf image entry.2)

/-- Everything starts at a word. -/
theorem StartsAt.aligned {p : Program} {image : Image β} {syscallCode : List β} {b : BlockId}
    {position : Nat} (startsAt : StartsAt F p image syscallCode b position) : 4 ∣ position := by
  cases startsAt with
  | syscall => exact Nat.dvd_mul_right 4 _
  | global => exact Nat.dvd_mul_right 4 _
  | block =>
      simp only [startOf, Image.functionStart, Image.mainStart, Image.globalStart]
      omega

theorem prefix_of_mem_restStarts {f : CodeFunc} {before : List Ph2Ir} {blocks : List CodeBlock}
    {entry : BlockId × List Ph2Ir} (present : entry ∈ F.restStarts f before blocks) :
    entry.2 <+: before ++ blocks.flatMap (F.code f) := by
  induction blocks generalizing before with
  | nil => cases present
  | cons block rest inductionHypothesis =>
      rcases List.mem_cons.mp present with rfl | present
      · exact List.prefix_append _ _
      · have inside := inductionHypothesis present
        rw [List.append_assoc] at inside
        exact inside

theorem prefix_of_mem_funcStarts {f : CodeFunc} {before : List Ph2Ir}
    {entry : BlockId × List Ph2Ir} (present : entry ∈ F.funcStarts f before) :
    entry.2 <+: before ++ F.funcCode f := by
  rcases List.mem_cons.mp present with rfl | present
  · exact List.prefix_append _ _
  · have inside := prefix_of_mem_restStarts present
    rw [List.append_assoc] at inside
    exact inside

/-- The code in front of a block is a prefix of the flattened list. -/
theorem prefix_of_mem_starts {before : List Ph2Ir} {funcs : List CodeFunc}
    {entry : BlockId × List Ph2Ir} (present : entry ∈ F.starts before funcs) :
    entry.2 <+: before ++ funcs.flatMap F.funcCode := by
  induction funcs generalizing before with
  | nil => cases present
  | cons f rest inductionHypothesis =>
      rw [List.flatMap_cons, ← List.append_assoc]
      rcases List.mem_append.mp present with present | present
      · apply (prefix_of_mem_funcStarts present).trans
        exact List.prefix_append _ _
      · exact inductionHypothesis present

/-- Every block of a function is laid out. -/
theorem exists_start {funcs : List CodeFunc} {f : CodeFunc} {block : CodeBlock}
    (inside : f ∈ funcs) (member : block ∈ f.blocks) :
    ∃ entry ∈ F.starts [] funcs, entry.1 = block.id := by
  have listed : block.id ∈ (F.starts [] funcs).map Prod.fst := by
    rw [Flattener.starts_ids]
    exact List.mem_flatMap.mpr ⟨f, inside, List.mem_map_of_mem member⟩
  exact List.mem_map.mp listed

/-- The flattened list holds the function prologues and the adjusted code. -/
theorem mem_flatten_iff {funcs : List CodeFunc} {ir : Ph2Ir} :
    ir ∈ funcs.flatMap F.funcCode ↔
      ∃ f ∈ funcs, ir = defineIr f ∨
        ∃ block ∈ f.blocks, ∃ original ∈ block.code, F.adjust f original = ir := by
  simp [Flattener.funcCode, Flattener.code]

/-- An instruction of a sequence that jumps to a block. -/
structure Site where
  index : Nat
  target : BlockId

/-- A branch, jump or call leads to a block of the program. -/
theorem target_present {p : Program} {ir : Ph2Ir} {b : BlockId}
    (keeps : ∀ f original, (F.adjust f original).targets = original.targets)
    (present : ir ∈ p.funcs.flatMap F.funcCode)
    (leads : b ∈ ir.targets ∨ (p.callee ir.funcName).bind Callee.bbs = some b) :
    p.syscallBlock = some b ∨ ∃ f ∈ p.funcs, ∃ block ∈ f.blocks, block.id = b := by
  rcases leads with isTarget | isBody
  · right
    rcases mem_flatten_iff.mp present with
      ⟨f, isFunc, rfl | ⟨block, member, original, code, rfl⟩⟩
    · cases isTarget
    · rw [keeps] at isTarget
      exact ⟨f, isFunc, p.closed f isFunc block member original code b isTarget⟩
  · rcases Option.bind_eq_some_iff.mp isBody with ⟨func, found, isBody⟩
    rcases p.bodies _ _ _ found isBody with builtIn | ⟨f, isFunc, entry⟩
    · exact .inl builtIn
    · exact .inr ⟨f, isFunc, f.entry, List.mem_cons_self, entry⟩

/-- The position of a block is what the first pass counted in front of it. -/
theorem startOf_eq {emit : Nat → Ph2Ir → Option (List β)} {image : Image β}
    {funcs : List CodeFunc} {entry : BlockId × List Ph2Ir} {size : Nat}
    (emitted : place 4 emit image.functionStart (funcs.flatMap F.funcCode) =
      some image.functions)
    (fits : ∀ one ∈ image.functions, Fits 4 F.measure one) (present : entry ∈ F.starts [] funcs)
    (counted : total F.measure entry.2 = some size) :
    startOf image entry.2 = image.functionStart + size := by
  rcases prefix_of_mem_starts present with ⟨others, split⟩
  rw [List.nil_append] at split
  rw [← split] at emitted
  rcases place_append emitted with ⟨before, after, beforeEq, -, list⟩
  have first := total_of_fits beforeEq fun one inside => fits one (by
    rw [list]
    exact List.mem_append_left _ inside)
  have same : size = 4 * (output before).length := by
    rw [counted] at first
    exact Option.some.inj first
  rw [startOf, ← place_length beforeEq, list, List.take_left, same]

/-- All parts of the emitted program have the size the first pass counted. -/
structure Sized (F : Flattener) (image : Image β) : Prop where
  startup : 4 * image.startup.length = F.start
  globals : ∀ one ∈ image.globals, Fits 4 F.sizeOf one
  mainCall : 4 * image.mainCall.length = F.mainCall
  functions : ∀ one ∈ image.functions, Fits 4 F.measure one

section Sizes

variable {E : Emitter β} {offsets : BlockId → Nat} {p : Program} {L : Layout} {image : Image β}
  {syscallCode : List β} (defines : ∀ ir, ir.op = .define → F.sizeOf ir = none)
  (laid : F.cfgFlatten offsets p = some L) (emits : E.Emits p.globals L.flatten image)
  (sized : Sized F image)

include emits sized in
/-- The functions start behind what was counted. -/
theorem Sized.functionStart :
    ∃ size, total F.sizeOf p.globals = some size ∧ image.mainStart = F.start + size ∧
      image.functionStart = F.start + size + F.mainCall := by
  have sizeEq := total_of_fits emits.globals sized.globals
  refine ⟨_, sizeEq, ?_, ?_⟩
  · rw [Image.mainStart, Image.globalStart, sized.startup]
  · rw [Image.functionStart, Image.mainStart, Image.globalStart, sized.startup, sized.mainCall]

include defines laid emits sized in
/-- The code ends where the layout ended. -/
theorem Sized.size : L.elfOffset = image.size := by
  rcases sized.functionStart emits with ⟨size, sizeEq, -, functionStart⟩
  rcases Flattener.cfgFlatten_spec defines laid with
    ⟨size', sizeEq', -, ⟨code, codeEq, elfOffset⟩, -⟩
  cases Option.some.inj (sizeEq.symm.trans sizeEq')
  have counted := total_of_fits emits.functions sized.functions
  rw [counted] at codeEq
  cases codeEq
  rw [elfOffset, ← functionStart]
  simp only [Image.size, Image.code, Image.functionStart, Image.mainStart, Image.globalStart,
    List.length_append]
  omega

include defines laid emits sized in
/-- A block starts at the offset it was given. -/
theorem Sized.offset {b : BlockId} {position : Nat}
    (syscall : ∀ b ∈ p.syscallBlock, offsets b + 4 * syscallCode.length = F.start)
    (startsAt : StartsAt F p image syscallCode b position) : L.blockOffset b = position := by
  rcases sized.functionStart emits with ⟨size, sizeEq, -, functionStart⟩
  rcases Flattener.cfgFlatten_spec defines laid with
    ⟨counted, countedEq, flatten, -, marks, globalMark, syscallMark⟩
  cases Option.some.inj (sizeEq.symm.trans countedEq)
  have emitted := emits.functions
  rw [flatten] at emitted
  cases startsAt with
  | syscall builtIn split =>
      have length := sized.startup
      rw [split, List.length_append] at length
      have reserved := syscall b builtIn
      rw [syscallMark b builtIn]
      omega
  | global => rw [globalMark, Image.globalStart, sized.startup]
  | block present =>
      rcases marks _ present with ⟨code, codeEq, mark⟩
      rw [mark, startOf_eq emitted sized.functions present codeEq, functionStart]

include defines laid emits sized in
/-- A block laid out starts at its offset. -/
theorem Sized.startsAt {b : BlockId}
    (syscall : ∀ b ∈ p.syscallBlock, offsets b + 4 * syscallCode.length = F.start)
    (split : ∀ b ∈ p.syscallBlock, ∃ before, E.startup = before ++ syscallCode)
    (present : p.syscallBlock = some b ∨ ∃ f ∈ p.funcs, ∃ block ∈ f.blocks, block.id = b) :
    StartsAt F p image syscallCode b (L.blockOffset b) := by
  have starts : ∃ position, StartsAt F p image syscallCode b position := by
    rcases present with builtIn | ⟨f, inside, block, member, rfl⟩
    · rcases split b builtIn with ⟨before, startup⟩
      rw [← emits.startup] at startup
      exact ⟨_, .syscall builtIn startup⟩
    · rcases exists_start (F := F) inside member with ⟨entry, listed, same⟩
      rw [← same]
      exact ⟨_, .block listed⟩
  rcases starts with ⟨position, startsAt⟩
  rw [sized.offset defines laid emits syscall startsAt]
  exact startsAt

end Sizes

end Starts

end Shecc.Codegen
