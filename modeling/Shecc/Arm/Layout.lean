import Shecc.Arm.Codegen
import Shecc.Peephole.Driver

/-!
# Layout and emission on ARM

`update_elf_offset` and `emit_ph2_ir` agree on the size of every instruction but
one: a register copied to itself is not counted and still emitted. Without such
a copy the code lies where `cfg_flatten` expects it and the branches land on
their blocks, as far as a branch reaches.
-/

namespace Shecc.Arm

open Codegen TwoPass

variable {env : Env} {p : Program} {L : Layout} {image : Image Insn}

/-! ## One instruction -/

theorem softDiv_length (isDiv : Bool) (rd rn rm : Int) : (softDiv isDiv rd rn rm).length = 29 :=
  rfl

/-- The counted size is the emitted one, except for a copy of a register to
itself. -/
theorem instructions_size {elfOffset : BlockId → Nat} {position size : Nat} {ir : Ph2Ir}
    {insns : List Insn} (counted : (flattener env.hardMulDiv p).measure ir = some size)
    (emitted : instructions env p elfOffset position ir = some insns) :
    size = 4 * insns.length ∨
      Peephole.isSelfAssignment ir = true ∧ size = 0 ∧ insns.length = 1 := by
  rcases ir with ⟨op, src0, src1, dest, funcName, nextBb, thenBb, elseBb, detached, based⟩
  cases op
  case assign =>
    simp only [instructions, Option.some.injEq, Flattener.measure, flattener,
      updateElfOffset] at emitted counted
    subst emitted
    by_cases same : dest = src0
    · simp_all [Peephole.isSelfAssignment]
    · left
      simp_all
  case call =>
    left
    simp only [instructions, Flattener.measure, flattener, updateElfOffset,
      Option.bind_eq_bind] at emitted counted
    rcases Option.bind_eq_some_iff.mp emitted with ⟨func, found, emitted⟩
    rw [if_neg (by decide), found, Option.bind_some] at counted
    cases isBody : func.bbs with
    | some bbs =>
        rw [isBody] at emitted counted
        cases emitted
        cases counted
        rfl
    | none => grind
  case addressOfFunc =>
    left
    simp only [instructions, Flattener.measure, flattener, updateElfOffset] at emitted counted
    rcases Option.bind_eq_some_iff.mp emitted with ⟨func, found, emitted⟩
    rcases Option.bind_eq_some_iff.mp emitted with ⟨ofs, -, emitted⟩
    cases emitted
    cases counted
    rfl
  case branch =>
    left
    simp only [instructions, Flattener.measure, flattener, updateElfOffset] at emitted counted
    rw [if_neg (by decide)] at counted
    cases detached with
    | true =>
        rcases Option.map_eq_some_iff.mp emitted with ⟨target, -, rfl⟩
        cases counted
        rfl
    | false =>
        rcases Option.map_eq_some_iff.mp emitted with ⟨target, -, rfl⟩
        cases counted
        rfl
  -- Everything else has a list of its own for each range of its operands.
  all_goals
    left
    simp [instructions, Flattener.measure, flattener, updateElfOffset] at emitted counted
  all_goals first
    | (subst emitted counted; rfl)
    | grind [softDiv_length]

/-- The instructions that jump to a block. -/
def branchSites (p : Program) (ir : Ph2Ir) : List Site :=
  match ir.op with
  | .branch =>
      if ir.isBranchDetached then ir.elseBb.toList.map (Site.mk 2)
      else ir.thenBb.toList.map (Site.mk 1)
  | .jump => ir.nextBb.toList.map (Site.mk 0)
  | .call => ((p.callee ir.funcName).bind Callee.bbs).toList.map (Site.mk 0)
  | _ => []

/-- The displacement a branch or call is encoded from. -/
def Insn.displacement : Insn → Option Int
  | .b _ ofs => some ofs
  | .bl _ ofs => some ofs
  | _ => none

theorem displacement_encode {insn : Insn} {ofs : Int} (jumps : insn.displacement = some ofs) :
    ∃ cond opcode, (opcode = 160 ∨ opcode = 176) ∧
      insn.encode =
        some (armEncode cond opcode 0 0 0 + BitVec.ofInt 32 (branchField ofs)) := by
  cases insn with
  | b cond ofs' =>
      cases jumps
      exact ⟨cond, 160, .inl rfl, rfl⟩
  | bl cond ofs' =>
      cases jumps
      exact ⟨cond, 176, .inr rfl, rfl⟩
  | _ => cases jumps

/-- The word of a branch jumps as far as the branch was meant to exactly if that
is in reach. -/
theorem displacement_iff {insn : Insn} {ofs : Int} (jumps : insn.displacement = some ofs) :
    (∃ w, insn.encode = some w ∧ branchDisplacement w = ofs) ↔ Reachable ofs := by
  rcases displacement_encode jumps with ⟨cond, opcode, isBranch, encoded⟩
  constructor
  · rintro ⟨w, -, rfl⟩
    have low : 0 ≤ (w.toNat : Int) % 2 ^ 24 := by omega
    have high : (w.toNat : Int) % 2 ^ 24 < 2 ^ 24 := by omega
    rw [branchDisplacement, signed24]
    constructor <;> split <;> omega
  · intro reachable
    exact ⟨_, encoded, branchDisplacement_encode cond isBranch reachable⟩

/-- Every site holds a branch to its block. -/
theorem instructions_site {elfOffset : BlockId → Nat} {position : Nat} {ir : Ph2Ir}
    {insns : List Insn} {site : Site}
    (emitted : instructions env p elfOffset position ir = some insns)
    (inside : site ∈ branchSites p ir) :
    ∃ insn, insns[site.index]? = some insn ∧
      insn.displacement = some ((elfOffset site.target : Int) - (position + 4 * site.index)) := by
  rcases ir with ⟨op, src0, src1, dest, funcName, nextBb, thenBb, elseBb, detached, based⟩
  cases op
  case branch =>
    simp only [instructions, branchSites] at emitted inside
    cases detached with
    | true =>
        simp only [if_true, List.mem_map, Option.mem_toList] at emitted inside
        rcases inside with ⟨target, rfl, rfl⟩
        cases emitted
        exact ⟨_, rfl, by simp [Insn.displacement]⟩
    | false =>
        simp only [Bool.false_eq_true, if_false, List.mem_map, Option.mem_toList] at emitted inside
        rcases inside with ⟨target, rfl, rfl⟩
        cases emitted
        exact ⟨_, rfl, by simp [Insn.displacement]⟩
  case jump =>
    simp only [instructions, branchSites, List.mem_map, Option.mem_toList] at emitted inside
    rcases inside with ⟨target, rfl, rfl⟩
    cases emitted
    exact ⟨_, rfl, by simp [Insn.displacement]⟩
  case call =>
    simp only [instructions, branchSites, List.mem_map, Option.mem_toList] at emitted inside
    rcases inside with ⟨target, found, rfl⟩
    rcases Option.bind_eq_some_iff.mp emitted with ⟨func, funcEq, emitted⟩
    rw [funcEq] at found
    change func.bbs = some target at found
    rw [found] at emitted
    cases emitted
    exact ⟨_, rfl, by simp [Insn.displacement]⟩
  all_goals cases inside

/-! ## The program -/

/-- Which instruction of the main call calls `main`. -/
def mainCallIndex (p : Program) : Nat := if p.dynlink then 2 else 5

/-- The instruction at a place jumps to a position. -/
def LandsAt (insn : Option Insn) (place position : Nat) : Prop :=
  ∃ w, insn.bind Insn.encode = some w ∧ (place : Int) + branchDisplacement w = position

/-- The code is what the layout counted, every block starts at its offset, and
every branch and call lands on its block. -/
structure LayoutAgrees (env : Env) (p : Program) (L : Layout) (image : Image Insn) : Prop where
  sized : Sized (flattener env.hardMulDiv p) image
  size : L.elfOffset = image.size
  offsets : ∀ b position, StartsAt (flattener env.hardMulDiv p) p image syscallCode b position →
    L.blockOffset b = position
  branches : ∀ one ∈ image.globals ++ image.functions, ∀ site ∈ branchSites p one.item,
    ∃ position, StartsAt (flattener env.hardMulDiv p) p image syscallCode site.target position ∧
      LandsAt one.units[site.index]? (one.position + 4 * site.index) position
  init : p.dynlink = false → LandsAt image.startup[7]? 28 image.globalStart
  main : ∀ b ∈ p.mainBb,
    ∃ position, StartsAt (flattener env.hardMulDiv p) p image syscallCode b position ∧
      LandsAt image.mainCall[mainCallIndex p]? (image.mainStart + 4 * mainCallIndex p) position

/-- The sizes counted in front of a block. -/
inductive CountedAt (F : Flattener) (p : Program) : BlockId → Nat → Prop where
  | syscall {b : BlockId} (builtIn : p.syscallBlock = some b) : CountedAt F p b 60
  | global : CountedAt F p p.globalBlock F.start
  | block {entry : BlockId × List Ph2Ir} {size code : Nat} (laid : entry ∈ F.starts [] p.funcs)
      (globals : total F.sizeOf p.globals = some size)
      (counted : total F.measure entry.2 = some code) :
      CountedAt F p entry.1 (F.start + size + F.mainCall + code)

/-- By the counted sizes, a branch or call of the program and its block are this
many bytes apart. -/
inductive Distance (F : Flattener) (p : Program) : Int → Prop where
  | branch {before after : List Ph2Ir} {ir : Ph2Ir} {site : Site} {target size code : Nat}
      (list : p.funcs.flatMap F.funcCode = before ++ ir :: after)
      (inside : site ∈ branchSites p ir) (globals : total F.sizeOf p.globals = some size)
      (counted : total F.measure before = some code) (at_ : CountedAt F p site.target target) :
      Distance F p
        ((target : Int) - (F.start + size + F.mainCall + code + 4 * site.index : Nat))
  | main {b : BlockId} {target size : Nat} (isMain : p.mainBb = some b)
      (globals : total F.sizeOf p.globals = some size) (at_ : CountedAt F p b target) :
      Distance F p ((target : Int) - (F.start + size + 4 * mainCallIndex p : Nat))

/-- No instruction copies a register to itself, and every branch and call reaches
its block. -/
structure Countable (hardMulDiv : Bool) (p : Program) : Prop where
  noSelfAssignment : ∀ ir ∈ p.code, Peephole.isSelfAssignment ir = false
  reachable : ∀ distance, Distance (flattener hardMulDiv p) p distance → Reachable distance

section Adjust

variable {f : CodeFunc} {ir : Ph2Ir}

/-- The last adjustment changes source operands only, and none of a copy. -/
theorem adjust_frame (f : CodeFunc) (ir : Ph2Ir) :
    ∃ src0 src1, adjust f ir = { ir with src0 := src0, src1 := src1 } ∧
      (ir.op = .assign → src0 = ir.src0) := by
  unfold adjust
  split_ifs with based isReturn isReturn
  · refine ⟨ir.src0, f.stackSize, ?_, fun _ => rfl⟩
    simp only [isReturn]
  · split
    · exact ⟨_, ir.src1, rfl, by simp_all⟩
    · exact ⟨_, ir.src1, rfl, by simp_all⟩
    · exact ⟨ir.src0, _, rfl, fun _ => rfl⟩
    · exact ⟨ir.src0, ir.src1, rfl, fun _ => rfl⟩
  · exact ⟨ir.src0, f.stackSize, rfl, fun _ => rfl⟩
  · exact ⟨ir.src0, ir.src1, rfl, fun _ => rfl⟩

@[simp] theorem targets_adjust : (adjust f ir).targets = ir.targets := by
  rcases adjust_frame f ir with ⟨src0, src1, same, -⟩
  rw [same]
  rfl

@[simp] theorem isSelfAssignment_adjust :
    Peephole.isSelfAssignment (adjust f ir) = Peephole.isSelfAssignment ir := by
  rcases adjust_frame f ir with ⟨src0, src1, same, unchanged⟩
  rw [same, Peephole.isSelfAssignment, Peephole.isSelfAssignment]
  by_cases isAssign : ir.op = .assign
  · simp only [unchanged isAssign]
  · rw [beq_eq_false_iff_ne.mpr isAssign]
    rfl

end Adjust

/-! ## What is emitted -/

theorem startup_length (env : Env) (p : Program) (elfOffset : BlockId → Nat) :
    4 * (startup env p elfOffset).length = (flattener env.hardMulDiv p).start := by
  rw [startup, flattener]
  cases p.dynlink <;> rfl

theorem mainCall_length (hardMulDiv : Bool) {b : BlockId} (hasMain : p.mainBb = some b)
    (elfOffset : BlockId → Nat) (size : Nat) :
    4 * (mainCall p elfOffset size).length = (flattener hardMulDiv p).mainCall := by
  rw [mainCall, flattener, hasMain]
  cases p.dynlink <;> rfl

/-- A copy of a register to itself is not counted and emitted. -/
theorem not_fits_of_selfAssignment {elfOffset : BlockId → Nat} {one : Placed Ph2Ir Insn}
    (isSelf : Peephole.isSelfAssignment one.item = true)
    (emitted : (emitter env p elfOffset).emit one.position one.item = some one.units) :
    ¬ Fits 4 (flattener env.hardMulDiv p).measure one := by
  rw [Peephole.isSelfAssignment, Bool.and_eq_true, beq_iff_eq, beq_iff_eq] at isSelf
  rcases isSelf with ⟨isAssign, same⟩
  have list : instructions env p elfOffset one.position one.item = some one.units :=
    (Emitter.emit_spec emitted).1
  simp only [instructions, isAssign, Option.some.injEq] at list
  rw [Fits, Flattener.measure, flattener, isAssign]
  simp [updateElfOffset, isAssign, same, ← list]

/-- Any other instruction is emitted in its counted size. -/
theorem fits_of_not_selfAssignment {elfOffset : BlockId → Nat} {one : Placed Ph2Ir Insn}
    {size : Nat} (notSelf : Peephole.isSelfAssignment one.item = false)
    (counted : (flattener env.hardMulDiv p).measure one.item = some size)
    (emitted : (emitter env p elfOffset).emit one.position one.item = some one.units) :
    Fits 4 (flattener env.hardMulDiv p).measure one := by
  rcases instructions_size counted (Emitter.emit_spec emitted).1 with same | ⟨isSelf, -, -⟩
  · rw [Fits, counted, same]
  · rw [notSelf] at isSelf
    cases isSelf

theorem updateElfOffset_define (hardMulDiv : Bool) (p : Program) (ir : Ph2Ir)
    (isDefine : ir.op = .define) : (flattener hardMulDiv p).sizeOf ir = none := by
  simp only [flattener, updateElfOffset, isDefine]

/-- The instructions of the program are the ones of the flattened list and of the
global initialisation. -/
theorem selfAssignment_iff (hardMulDiv : Bool) :
    (∀ ir ∈ p.code, Peephole.isSelfAssignment ir = false) ↔
      (∀ ir ∈ p.globals, Peephole.isSelfAssignment ir = false) ∧
        ∀ ir ∈ p.funcs.flatMap (flattener hardMulDiv p).funcCode,
          Peephole.isSelfAssignment ir = false := by
  constructor
  · intro all
    constructor
    · intro ir present
      exact all ir (List.mem_append_left _ present)
    · intro ir present
      rcases mem_flatten_iff.mp present with ⟨f, inside, rfl | ⟨block, member, original, code, rfl⟩⟩
      · rfl
      · change Peephole.isSelfAssignment (adjust f original) = false
        rw [isSelfAssignment_adjust]
        apply all
        apply List.mem_append_right
        exact List.mem_flatMap.mpr ⟨f, inside, List.mem_flatMap.mpr ⟨block, member, code⟩⟩
  · rintro ⟨globals, functions⟩ ir present
    rcases List.mem_append.mp present with present | present
    · exact globals ir present
    · rcases List.mem_flatMap.mp present with ⟨f, inside, present⟩
      rcases List.mem_flatMap.mp present with ⟨block, member, code⟩
      rw [← isSelfAssignment_adjust (f := f)]
      exact functions _ (mem_flatten_iff.mpr ⟨f, inside, .inr ⟨block, member, ir, code, rfl⟩⟩)

section Agreement

variable (laid : cfgFlatten env.hardMulDiv p = some L)
    (emits : (emitter env p L.blockOffset).Emits p.globals L.flatten image)

include laid emits in
/-- The emitted sizes are the counted ones exactly if no register is copied to
itself. -/
theorem fits_iff :
    ((∀ one ∈ image.globals, Fits 4 (updateElfOffset env.hardMulDiv p) one) ∧
        ∀ one ∈ image.functions, Fits 4 (flattener env.hardMulDiv p).measure one) ↔
      ∀ ir ∈ p.code, Peephole.isSelfAssignment ir = false := by
  rcases Flattener.cfgFlatten_spec (updateElfOffset_define env.hardMulDiv p) laid with
    ⟨size, sizeEq, flatten, ⟨code, codeEq, -⟩, -, -, -⟩
  have functions := emits.functions
  rw [flatten] at functions codeEq
  rw [selfAssignment_iff env.hardMulDiv]
  have globalMeasure : ∀ ir ∈ p.globals,
      (flattener env.hardMulDiv p).measure ir = updateElfOffset env.hardMulDiv p ir := by
    intro ir present
    rcases size_of_mem sizeEq present with ⟨n, isSize⟩
    rw [Flattener.measure, if_neg]
    · rfl
    · intro isDefine
      rw [updateElfOffset_define _ _ _ isDefine] at isSize
      cases isSize
  constructor
  · rintro ⟨fitsGlobals, fitsFunctions⟩
    constructor
    · intro ir present
      rcases exists_placed emits.globals present with ⟨one, inside, rfl⟩
      by_contra isSelf
      apply not_fits_of_selfAssignment (by simpa using isSelf) (emit_of_mem emits.globals inside).2
      rw [Fits, globalMeasure _ present]
      exact fitsGlobals one inside
    · intro ir present
      rcases exists_placed functions present with ⟨one, inside, rfl⟩
      by_contra isSelf
      apply not_fits_of_selfAssignment (by simpa using isSelf) (emit_of_mem functions inside).2
      exact fitsFunctions one inside
  · rintro ⟨cleanGlobals, cleanFunctions⟩
    constructor
    · intro one inside
      rcases emit_of_mem emits.globals inside with ⟨present, emitted⟩
      rcases size_of_mem sizeEq present with ⟨n, isSize⟩
      rw [Fits, ← globalMeasure _ present]
      apply fits_of_not_selfAssignment (cleanGlobals _ present) _ emitted
      · exact n
      · rw [globalMeasure _ present]
        exact isSize
    · intro one inside
      rcases emit_of_mem functions inside with ⟨present, emitted⟩
      rcases size_of_mem codeEq present with ⟨n, isSize⟩
      exact fits_of_not_selfAssignment (cleanFunctions _ present) isSize emitted

include laid in
/-- The sizes in front of a block are its offset. -/
theorem CountedAt.offset {b : BlockId} {n : Nat}
    (counted : CountedAt (flattener env.hardMulDiv p) p b n) : L.blockOffset b = n := by
  rcases Flattener.cfgFlatten_spec (updateElfOffset_define env.hardMulDiv p) laid with
    ⟨size, sizeEq, -, -, marks, globalMark, syscallMark⟩
  cases counted with
  | syscall builtIn =>
      rw [syscallMark b builtIn, if_pos builtIn]
  | global => exact globalMark
  | block present globals code =>
      rcases marks _ present with ⟨code', codeEq, mark⟩
      cases Option.some.inj (globals.symm.trans sizeEq)
      cases Option.some.inj (code.symm.trans codeEq)
      exact mark

include laid in
theorem exists_countedAt {b : BlockId}
    (present : p.syscallBlock = some b ∨ ∃ f ∈ p.funcs, ∃ block ∈ f.blocks, block.id = b) :
    CountedAt (flattener env.hardMulDiv p) p b (L.blockOffset b) := by
  rcases Flattener.cfgFlatten_spec (updateElfOffset_define env.hardMulDiv p) laid with
    ⟨size, sizeEq, -, -, marks, globalMark, syscallMark⟩
  rcases present with builtIn | ⟨f, inside, block, member, rfl⟩
  · rw [syscallMark b builtIn, if_pos builtIn]
    exact .syscall builtIn
  · rcases exists_start (F := flattener env.hardMulDiv p) inside member with ⟨entry, listed, same⟩
    rcases marks entry listed with ⟨code, codeEq, mark⟩
    rw [← same, mark]
    exact .block listed sizeEq codeEq

end Agreement

theorem branchSites_target {ir : Ph2Ir} {site : Site} (inside : site ∈ branchSites p ir) :
    site.target ∈ ir.targets ∨ (p.callee ir.funcName).bind Callee.bbs = some site.target := by
  rw [branchSites] at inside
  split at inside
  · left
    split at inside
    · rcases List.mem_map.mp inside with ⟨target, isTarget, rfl⟩
      exact List.mem_append_right _ isTarget
    · rcases List.mem_map.mp inside with ⟨target, isTarget, rfl⟩
      exact List.mem_append_left _ (List.mem_append_right _ isTarget)
  · left
    rcases List.mem_map.mp inside with ⟨target, isTarget, rfl⟩
    exact List.mem_append_left _ (List.mem_append_left _ isTarget)
  · right
    rcases List.mem_map.mp inside with ⟨target, isTarget, rfl⟩
    exact Option.mem_toList.mp isTarget
  · cases inside

/-! ## Agreement -/

theorem landsAt_iff {insn : Insn} {place position : Nat}
    (jumps : insn.displacement = some ((position : Int) - place)) :
    LandsAt (some insn) place position ↔ Reachable ((position : Int) - place) := by
  rw [← displacement_iff jumps]
  constructor
  · rintro ⟨w, encoded, lands⟩
    exact ⟨w, encoded, by omega⟩
  · rintro ⟨w, encoded, same⟩
    exact ⟨w, encoded, by omega⟩

theorem mainCall_site {b : BlockId} (hasMain : p.mainBb = some b) (elfOffset : BlockId → Nat)
    (size : Nat) :
    ∃ insn, (mainCall p elfOffset size)[mainCallIndex p]? = some insn ∧
      insn.displacement = some ((elfOffset b : Int) - (size + 4 * mainCallIndex p : Nat)) := by
  rw [mainCall, mainCallIndex, hasMain]
  cases p.dynlink with
  | true => exact ⟨_, rfl, rfl⟩
  | false => exact ⟨_, rfl, rfl⟩

theorem startup_site (env : Env) (static : p.dynlink = false) (elfOffset : BlockId → Nat) :
    ∃ insn, (startup env p elfOffset)[7]? = some insn ∧
      insn.displacement = some ((elfOffset p.globalBlock : Int) - (28 : Nat)) := by
  rw [startup, static]
  exact ⟨_, rfl, rfl⟩

section Agreement

variable (laid : cfgFlatten env.hardMulDiv p = some L)
    (emits : (emitter env p L.blockOffset).Emits p.globals L.flatten image)

/-- What `__syscall` takes up ends the startup code. -/
theorem syscall_reserved (hardMulDiv : Bool) (p : Program) :
    ∀ b ∈ p.syscallBlock, (if p.syscallBlock = some b then 60 else 0) + 4 * syscallCode.length =
      (flattener hardMulDiv p).start := by
  intro b builtIn
  have static := p.syscallPresent
  rw [Option.mem_def.mp builtIn] at static
  have notDynlink : p.dynlink = false := by simpa using static.symm
  rw [if_pos (Option.mem_def.mp builtIn), flattener, notDynlink]
  rfl

theorem startup_split (env : Env) (p : Program) (elfOffset : BlockId → Nat) :
    ∀ b ∈ p.syscallBlock, ∃ before, startup env p elfOffset = before ++ syscallCode := by
  intro b builtIn
  have static := p.syscallPresent
  rw [Option.mem_def.mp builtIn] at static
  have notDynlink : p.dynlink = false := by simpa using static.symm
  rw [startup, notDynlink, staticStart, if_neg (by simp), ← List.append_assoc]
  exact ⟨_, rfl⟩

include laid emits in
theorem startsAt_offset {b : BlockId} (sized : Sized (flattener env.hardMulDiv p) image)
    (present : p.syscallBlock = some b ∨ ∃ f ∈ p.funcs, ∃ block ∈ f.blocks, block.id = b) :
    StartsAt (flattener env.hardMulDiv p) p image syscallCode b (L.blockOffset b) :=
  sized.startsAt (updateElfOffset_define env.hardMulDiv p) laid emits
    (syscall_reserved env.hardMulDiv p) (startup_split env p L.blockOffset) present

include emits in
/-- Without a copy of a register to itself, everything has the counted size. -/
theorem sized_of_fits {mainBb : BlockId} (hasMain : p.mainBb = some mainBb)
    (fits : (∀ one ∈ image.globals, Fits 4 (updateElfOffset env.hardMulDiv p) one) ∧
      ∀ one ∈ image.functions, Fits 4 (flattener env.hardMulDiv p).measure one) :
    Sized (flattener env.hardMulDiv p) image := by
  constructor
  · rw [emits.startup]
    exact startup_length env p L.blockOffset
  · exact fits.1
  · rw [emits.mainCall]
    exact mainCall_length env.hardMulDiv hasMain L.blockOffset image.mainStart
  · exact fits.2

include laid emits in
/-- Without a copy of a register to itself, and with every branch in reach, layout
and emission agree. -/
theorem agrees_of_countable {mainBb : BlockId} (hasMain : p.mainBb = some mainBb)
    (countable : Countable env.hardMulDiv p) : LayoutAgrees env p L image := by
  have defines := updateElfOffset_define env.hardMulDiv p
  have sized := sized_of_fits emits hasMain ((fits_iff laid emits).mpr countable.noSelfAssignment)
  rcases sized.functionStart emits with ⟨size, sizeEq, mainStart, functionStart⟩
  rcases Flattener.cfgFlatten_spec defines laid with ⟨-, -, flatten, -, -, globalMark, -⟩
  have globalStart : image.globalStart = (flattener env.hardMulDiv p).start := sized.startup
  have functions := emits.functions
  rw [flatten] at functions
  constructor
  · exact sized
  · exact sized.size defines laid emits
  · intro b position startsAt
    exact sized.offset defines laid emits (syscall_reserved env.hardMulDiv p) startsAt
  · intro one present site inside
    rcases List.mem_append.mp present with present | present
    -- The global initialisation never leaves the straight line.
    · have straight := p.straight _ (emit_of_mem emits.globals present).1
      simp only [Ph2Ir.transfers, Bool.or_eq_false_iff, beq_eq_false_iff_ne] at straight
      rw [branchSites] at inside
      split at inside
      · simp_all
      · simp_all
      · simp_all
      · cases inside
    · rcases emit_of_mem functions present with ⟨listed, emitted⟩
      have target := target_present (fun f original => targets_adjust) listed
        (branchSites_target inside)
      rcases instructions_site (Emitter.emit_spec emitted).1 inside with ⟨insn, found, jumps⟩
      refine ⟨_, startsAt_offset laid emits sized target, ?_⟩
      rw [found]
      apply (landsAt_iff (by rw [jumps]; push_cast; rfl)).mpr
      rcases exists_split functions present with ⟨before, after, first, others, split, firstEq,
        same, position⟩
      have fitsFirst : ∀ one ∈ first, Fits 4 (flattener env.hardMulDiv p).measure one := by
        intro one inFirst
        apply sized.functions
        rw [same]
        exact List.mem_append_left _ inFirst
      rw [position, functionStart]
      exact countable.reachable _ (.branch split inside sizeEq (total_of_fits firstEq fitsFirst)
        (exists_countedAt laid target))
  · intro static
    rcases startup_site env static L.blockOffset with ⟨insn, found, jumps⟩
    rw [emits.startup]
    change LandsAt (startup env p L.blockOffset)[7]? 28 image.globalStart
    rw [found]
    have start : image.globalStart = 112 := by
      rw [globalStart, flattener, static]
      rfl
    rw [globalMark, ← globalStart] at jumps
    apply (landsAt_iff jumps).mpr
    rw [start]
    constructor <;> norm_num
  · intro b isMain
    rcases mainCall_site isMain L.blockOffset image.mainStart with ⟨insn, found, jumps⟩
    rcases p.mainBody b isMain with ⟨f, inside, entry⟩
    have target : p.syscallBlock = some b ∨ ∃ f ∈ p.funcs, ∃ block ∈ f.blocks, block.id = b :=
      .inr ⟨f, inside, f.entry, List.mem_cons_self, entry⟩
    refine ⟨_, startsAt_offset laid emits sized target, ?_⟩
    rw [emits.mainCall]
    change LandsAt (mainCall p L.blockOffset image.mainStart)[mainCallIndex p]? _ _
    rw [found]
    apply (landsAt_iff jumps).mpr
    rw [mainStart]
    exact countable.reachable _ (.main isMain sizeEq (exists_countedAt laid target))

include laid emits in
/-- Where layout and emission agree, no register is copied to itself and every
branch is in reach. -/
theorem countable_of_agrees (agrees : LayoutAgrees env p L image) :
    Countable env.hardMulDiv p := by
  have sized := agrees.sized
  rcases sized.functionStart emits with ⟨size, sizeEq, mainStart, functionStart⟩
  rcases Flattener.cfgFlatten_spec (updateElfOffset_define env.hardMulDiv p) laid with
    ⟨-, -, flatten, -, -, -, -⟩
  have functions := emits.functions
  rw [flatten] at functions
  constructor
  · exact (fits_iff laid emits).mp ⟨sized.globals, sized.functions⟩
  · intro distance apart
    cases apart with
    | @branch before after ir site target size' code list inside globals counted at_ =>
        cases Option.some.inj (globals.symm.trans sizeEq)
        rw [list] at functions
        rcases placed_at functions with ⟨first, units, others, firstEq, placed⟩
        have present : (⟨image.functionStart + 4 * (output first).length, ir, units⟩ :
            Placed Ph2Ir Insn) ∈ image.functions := by
          rw [placed]
          exact List.mem_append_right _ List.mem_cons_self
        rcases instructions_site (Emitter.emit_spec (emit_of_mem functions present).2).1 inside with
          ⟨insn, found, jumps⟩
        rcases agrees.branches _ (List.mem_append_right _ present) site inside with
          ⟨position, startsAt, lands⟩
        have fitsFirst : ∀ one ∈ first, Fits 4 (flattener env.hardMulDiv p).measure one := by
          intro one inFirst
          apply sized.functions
          rw [placed]
          exact List.mem_append_left _ inFirst
        rw [total_of_fits firstEq fitsFirst] at counted
        cases counted
        rw [← at_.offset laid, ← functionStart, agrees.offsets _ _ startsAt]
        rw [found] at lands
        apply (landsAt_iff _).mp lands
        rw [jumps, agrees.offsets _ _ startsAt]
        push_cast
        rfl
    | @main b target size' isMain globals at_ =>
        cases Option.some.inj (globals.symm.trans sizeEq)
        rcases mainCall_site isMain L.blockOffset image.mainStart with ⟨insn, found, jumps⟩
        rcases agrees.main b isMain with ⟨position, startsAt, lands⟩
        rw [← at_.offset laid, ← mainStart, agrees.offsets _ _ startsAt]
        rw [emits.mainCall] at lands
        change LandsAt (mainCall p L.blockOffset image.mainStart)[mainCallIndex p]? _ _ at lands
        rw [found] at lands
        apply (landsAt_iff _).mp lands
        rw [jumps, agrees.offsets _ _ startsAt]

end Agreement

/-- Layout and emission agree exactly if no instruction copies a register to itself
and every branch and call is in reach. -/
theorem layoutAgrees_iff (env : Env) (p : Program) (L : Layout) (image : Image Insn)
    (hasMain : p.mainBb.isSome = true) (laid : cfgFlatten env.hardMulDiv p = some L)
    (emitted : codeGenerate env p L = some image) :
    LayoutAgrees env p L image ↔ Countable env.hardMulDiv p := by
  rcases Option.isSome_iff_exists.mp hasMain with ⟨mainBb, isMain⟩
  have emits := Emitter.codeGenerate_emits emitted
  constructor
  · exact countable_of_agrees laid emits
  · exact agrees_of_countable laid emits isMain

/-! ## Small programs -/

theorem dvd_measure {hardMulDiv : Bool} {ir : Ph2Ir} {n : Nat}
    (counted : (flattener hardMulDiv p).measure ir = some n) : 4 ∣ n := by
  rw [Flattener.measure] at counted
  split at counted
  · cases counted
    exact ⟨7, rfl⟩
  · simp only [flattener, updateElfOffset] at counted
    cases isOp : ir.op <;> rw [isOp] at counted <;> simp only [Option.bind_eq_bind] at counted
    case call =>
      rcases Option.bind_eq_some_iff.mp counted with ⟨func, -, counted⟩
      grind
    all_goals grind

theorem flattener_bounds (hardMulDiv : Bool) (p : Program) :
    4 ∣ (flattener hardMulDiv p).start ∧ 100 ≤ (flattener hardMulDiv p).start ∧
      4 ∣ (flattener hardMulDiv p).mainCall ∧ 28 ≤ (flattener hardMulDiv p).mainCall := by
  simp only [flattener]
  cases p.dynlink <;> norm_num

theorem CountedAt.bounds {hardMulDiv : Bool} {b : BlockId} {n : Nat}
    (laid : cfgFlatten hardMulDiv p = some L)
    (counted : CountedAt (flattener hardMulDiv p) p b n) : 4 ∣ n ∧ n ≤ L.elfOffset := by
  rcases Flattener.cfgFlatten_spec (updateElfOffset_define hardMulDiv p) laid with
    ⟨size, sizeEq, flatten, ⟨all, allEq, elfOffset⟩, -, -, -⟩
  rcases flattener_bounds hardMulDiv p with ⟨startDvd, start, mainCallDvd, -⟩
  have sizeDvd : 4 ∣ size := by
    apply dvd_total _ (total_measure_of_sizeOf (updateElfOffset_define hardMulDiv p) sizeEq)
    intro item m isSize
    exact dvd_measure isSize
  cases counted with
  | syscall builtIn => exact ⟨by decide, by omega⟩
  | global => exact ⟨startDvd, by omega⟩
  | @block entry size' code present globals code' =>
      cases Option.some.inj (globals.symm.trans sizeEq)
      have codeDvd : 4 ∣ code := dvd_total (fun item m isSize => dvd_measure isSize) code'
      rcases prefix_of_mem_starts present with ⟨others, split⟩
      rw [List.nil_append] at split
      rw [flatten, ← split] at allEq
      rcases total_append allEq with ⟨first, second, firstEq, -, rfl⟩
      cases Option.some.inj (firstEq.symm.trans code')
      constructor <;> omega

theorem branchSites_index {ir : Ph2Ir} {site : Site} (inside : site ∈ branchSites p ir) :
    site.index ≤ 2 := by
  rw [branchSites] at inside
  split at inside
  · split at inside
    · rcases List.mem_map.mp inside with ⟨target, -, rfl⟩
      exact Nat.le_refl 2
    · rcases List.mem_map.mp inside with ⟨target, -, rfl⟩
      exact Nat.le_succ 1
  · rcases List.mem_map.mp inside with ⟨target, -, rfl⟩
    exact Nat.zero_le 2
  · rcases List.mem_map.mp inside with ⟨target, -, rfl⟩
    exact Nat.zero_le 2
  · cases inside

/-- In a program of at most 32 MiB every branch and call is in reach. -/
theorem countable_of_small {hardMulDiv : Bool} (laid : cfgFlatten hardMulDiv p = some L)
    (small : L.elfOffset ≤ 33554400)
    (noSelfAssignment : ∀ ir ∈ p.code, Peephole.isSelfAssignment ir = false) :
    Countable hardMulDiv p := by
  rcases Flattener.cfgFlatten_spec (updateElfOffset_define hardMulDiv p) laid with
    ⟨size, sizeEq, flatten, ⟨all, allEq, elfOffset⟩, -, -, -⟩
  rcases flattener_bounds hardMulDiv p with ⟨startDvd, -, mainCallDvd, mainCall⟩
  have sizeDvd : 4 ∣ size := by
    apply dvd_total _ (total_measure_of_sizeOf (updateElfOffset_define hardMulDiv p) sizeEq)
    intro item m isSize
    exact dvd_measure isSize
  constructor
  · exact noSelfAssignment
  · intro distance apart
    cases apart with
    | @branch before after ir site target size' code list inside globals counted at_ =>
        cases Option.some.inj (globals.symm.trans sizeEq)
        have bounds := at_.bounds laid
        have codeDvd : 4 ∣ code := dvd_total (fun item m isSize => dvd_measure isSize) counted
        have index := branchSites_index inside
        rw [flatten, list] at allEq
        rcases total_append allEq with ⟨first, second, firstEq, -, rfl⟩
        cases Option.some.inj (firstEq.symm.trans counted)
        constructor <;> omega
    | @main b target size' isMain globals at_ =>
        cases Option.some.inj (globals.symm.trans sizeEq)
        have bounds := at_.bounds laid
        have index : mainCallIndex p ≤ 5 := by
          rw [mainCallIndex]
          split <;> omega
        constructor <;> omega

/-! ## Two programs -/

/-- Addresses as the ELF writer sets them for a small program. -/
def smallEnv : Env := ⟨false, 0x10074, 0x11000, 0x12000, 0⟩

theorem syscallBlock_present : (some 0 : Option BlockId).isSome = !false := rfl

theorem smallGlobals_straight :
    ∀ ir ∈ ([{ op := .loadConstant, dest := 0, src0 := 7 },
      { op := .globalStore, src0 := 0, src1 := 4 }] : List Ph2Ir), ir.transfers = false := by
  decide

/-- A statically linked program: `__syscall` is block 0, the global initialisation
block 1, `f` block 2 and `main` block 3. -/
def smallProgram (body : List Ph2Ir) (closed : ∀ ir ∈ body, ir.targets = []) : Program where
  dynlink := false
  syscallBlock := some 0
  globalBlock := 1
  globals := [{ op := .loadConstant, dest := 0, src0 := 7 },
    { op := .globalStore, src0 := 0, src1 := 4 }]
  globalStackSize := 8
  funcs := [⟨"f", 16, ⟨2, body⟩, []⟩,
    ⟨"main", 16, ⟨3, [{ op := .loadConstant, dest := 0, src0 := 3 },
      { op := .call, funcName := "f" }, { op := .return_, src0 := 0 }]⟩, []⟩]
  callee name :=
    if name = "f" then some ⟨some 2, 0⟩
    else if name = "main" then some ⟨some 3, 0⟩
    else none
  mainBb := some 3
  syscallPresent := syscallBlock_present
  distinct := by simp [CodeFunc.blocks]
  bodies := by
    intro name found b isFound isBody
    right
    split at isFound
    · cases isFound
      cases isBody
      exact ⟨_, List.mem_cons_self, rfl⟩
    · split at isFound
      · cases isFound
        cases isBody
        exact ⟨_, List.mem_cons_of_mem _ List.mem_cons_self, rfl⟩
      · cases isFound
  mainBody := by
    rintro b ⟨⟩
    exact ⟨_, List.mem_cons_of_mem _ List.mem_cons_self, rfl⟩
  closed := by
    intro f inside block member ir code b isTarget
    exfalso
    simp only [List.mem_cons, List.not_mem_nil, or_false] at inside
    rcases inside with rfl | rfl
    · simp only [CodeFunc.blocks, List.mem_singleton] at member
      subst member
      rw [closed ir code] at isTarget
      cases isTarget
    · simp only [CodeFunc.blocks, List.mem_singleton] at member
      subst member
      simp only [List.mem_cons, List.not_mem_nil, or_false] at code
      rcases code with rfl | rfl | rfl <;> cases isTarget
  straight := smallGlobals_straight

/-- Double complement: pattern 1 of `bitwise_optimization`. -/
def doubleComplement (ir next : Ph2Ir) : Option (List Ph2Ir) :=
  if ir.op = .negate ∧ next.op = .negate ∧ next.src0 = ir.dest then
    some [{ ir with op := .assign, dest := next.dest }]
  else none

/-- `return x * -1 * -1;` behind the register allocator, with `x` in register 0. -/
def negatedTwice : List Ph2Ir :=
  [{ op := .negate, src0 := 0, dest := 1 }, { op := .negate, src0 := 1, dest := 0 },
    { op := .return_, src0 := 0 }]

/-- The program with `f` as the peephole pass leaves it: a copy of register 0 to
itself and the return. -/
def negatedProgram : Program :=
  smallProgram (Peephole.peephole [Peephole.pairRule doubleComplement] negatedTwice) (by decide)

/-- The program with `return x;` instead. -/
def plainProgram : Program :=
  smallProgram [{ op := .return_, src0 := 0 }] (by decide)

theorem plainProgram_agrees :
    LayoutAgrees smallEnv plainProgram ((cfgFlatten false plainProgram).get rfl)
      ((codeGenerate smallEnv plainProgram ((cfgFlatten false plainProgram).get rfl)).get rfl) := by
  have laid : cfgFlatten false plainProgram = some ((cfgFlatten false plainProgram).get rfl) := rfl
  apply (layoutAgrees_iff smallEnv plainProgram _ _ rfl laid (Option.some_get _).symm).mpr
  exact countable_of_small laid (by decide) (by decide)

/-- The copy in `f` is emitted without being counted, and everything behind it is
four bytes off. -/
theorem negatedProgram_disagrees :
    ¬ ∀ (env : Env) (p : Program) (L : Layout) (image : Image Insn), p.mainBb.isSome = true →
      cfgFlatten env.hardMulDiv p = some L → codeGenerate env p L = some image →
        LayoutAgrees env p L image := by
  intro claimed
  have laid : cfgFlatten false negatedProgram =
      some ((cfgFlatten false negatedProgram).get rfl) := rfl
  have agrees := claimed smallEnv negatedProgram _
    ((codeGenerate smallEnv negatedProgram ((cfgFlatten false negatedProgram).get rfl)).get rfl)
    rfl laid (Option.some_get _).symm
  have sizes := agrees.size
  revert sizes
  decide

end Shecc.Arm
