import Shecc.RiscV.Codegen

/-!
# Layout and emission on RISC-V

`update_elf_offset` and `emit_ph2_ir` agree on the size of every instruction, so
the code lies where `cfg_flatten` expects it, and every jump that holds its
displacement lands on its block.
-/

namespace Shecc.RiscV

open Codegen TwoPass

variable {env : Env} {p : Program} {L : Layout} {image : Image Insn}

/-! ## One instruction -/

theorem softMul_length (rd rs1 rs2 : Int) : (softMul rd rs1 rs2).length = 13 := rfl

theorem softDiv_length (isMod : Bool) (rd rs1 rs2 : Int) :
    (softDiv isMod rd rs1 rs2).length = 27 := rfl

@[simp] theorem loadValue_length (rd val : Int) : (loadValue rd val).length = 2 := rfl

/-- The counted size is the emitted one. -/
theorem instructions_size {elfOffset : BlockId → Nat} {position size : Nat} {ir : Ph2Ir}
    {insns : List Insn} (counted : (flattener env.hardMulDiv).measure ir = some size)
    (emitted : instructions env p elfOffset position ir = some insns) :
    size = 4 * insns.length := by
  rcases ir with ⟨op, src0, src1, dest, funcName, nextBb, thenBb, elseBb, detached, based⟩
  cases op
  case branch =>
    rcases Option.bind_eq_some_iff.mp emitted with ⟨first, -, emitted⟩
    rcases Option.bind_eq_some_iff.mp emitted with ⟨second, -, emitted⟩
    cases emitted
    cases counted
    rfl
  case call =>
    rcases Option.bind_eq_some_iff.mp emitted with ⟨func, -, emitted⟩
    rcases Option.bind_eq_some_iff.mp emitted with ⟨bbs, -, emitted⟩
    cases emitted
    cases counted
    rfl
  case addressOfFunc =>
    rcases Option.bind_eq_some_iff.mp emitted with ⟨func, -, emitted⟩
    rcases Option.bind_eq_some_iff.mp emitted with ⟨bbs, -, emitted⟩
    cases emitted
    cases counted
    rfl
  -- Everything else has a list of its own for each range of its operands.
  all_goals
    simp [instructions, Flattener.measure, flattener, updateElfOffset] at emitted counted
  all_goals first
    | (subst emitted counted; rfl)
    | grind [softMul_length, softDiv_length, loadValue_length]

/-- The instructions that jump to a block by a displacement. -/
def branchSites (p : Program) (ir : Ph2Ir) : List Site :=
  match ir.op with
  | .branch => ir.elseBb.toList.map (Site.mk 4)
  | .jump => ir.nextBb.toList.map (Site.mk 0)
  | .call => ((p.callee ir.funcName).bind Callee.bbs).toList.map (Site.mk 0)
  | _ => []

/-- Every site holds a jump to its block. -/
theorem instructions_site {elfOffset : BlockId → Nat} {position : Nat} {ir : Ph2Ir}
    {insns : List Insn} {site : Site}
    (emitted : instructions env p elfOffset position ir = some insns)
    (inside : site ∈ branchSites p ir) :
    ∃ rd, (0 ≤ rd ∧ rd < 32) ∧ insns[site.index]? =
      some (.jal rd ((elfOffset site.target : Int) - (position + 4 * site.index))) := by
  rcases ir with ⟨op, src0, src1, dest, funcName, nextBb, thenBb, elseBb, detached, based⟩
  cases op
  case branch =>
    simp only [branchSites, List.mem_map, Option.mem_toList] at inside
    rcases inside with ⟨target, rfl, rfl⟩
    rcases Option.bind_eq_some_iff.mp emitted with ⟨first, -, emitted⟩
    cases emitted
    exact ⟨zero, by decide, by simp [loadValue]⟩
  case jump =>
    simp only [instructions, branchSites, List.mem_map, Option.mem_toList] at emitted inside
    rcases inside with ⟨target, rfl, rfl⟩
    cases emitted
    exact ⟨zero, by decide, by simp⟩
  case call =>
    simp only [branchSites, List.mem_map, Option.mem_toList] at inside
    rcases inside with ⟨target, found, rfl⟩
    rcases Option.bind_eq_some_iff.mp found with ⟨func, funcEq, isBody⟩
    rcases Option.bind_eq_some_iff.mp emitted with ⟨func', funcEq', emitted⟩
    cases Option.some.inj (funcEq.symm.trans funcEq')
    rcases Option.bind_eq_some_iff.mp emitted with ⟨bbs, isBbs, emitted⟩
    cases Option.some.inj (isBody.symm.trans isBbs)
    cases emitted
    exact ⟨ra, by decide, by simp⟩
  all_goals cases inside

theorem branchSites_target {ir : Ph2Ir} {site : Site} (inside : site ∈ branchSites p ir) :
    site.target ∈ ir.targets ∨ (p.callee ir.funcName).bind Callee.bbs = some site.target := by
  rw [branchSites] at inside
  split at inside
  · left
    rcases List.mem_map.mp inside with ⟨target, isTarget, rfl⟩
    exact List.mem_append_right _ isTarget
  · left
    rcases List.mem_map.mp inside with ⟨target, isTarget, rfl⟩
    exact List.mem_append_left _ (List.mem_append_left _ isTarget)
  · right
    rcases List.mem_map.mp inside with ⟨target, isTarget, rfl⟩
    exact Option.mem_toList.mp isTarget
  · cases inside

/-- A branch jumps to its `then` block through an absolute address. -/
theorem branch_absolute {elfOffset : BlockId → Nat} {position : Nat} {ir : Ph2Ir}
    {insns : List Insn} (emitted : instructions env p elfOffset position ir = some insns)
    (isBranch : ir.op = .branch) :
    ∃ thenBb ∈ ir.thenBb, ∃ rest,
      insns = .lui t0 (rvHi (env.elfCodeStart + elfOffset thenBb)) ::
        .addi t0 t0 (rvLo (env.elfCodeStart + elfOffset thenBb)) ::
        .beq (ir.src0 + 10) zero 8 :: .jalr zero t0 0 :: rest := by
  simp only [instructions, isBranch] at emitted
  rcases Option.bind_eq_some_iff.mp emitted with ⟨thenBb, isThen, emitted⟩
  rcases Option.bind_eq_some_iff.mp emitted with ⟨elseBb, -, emitted⟩
  cases emitted
  exact ⟨thenBb, isThen, _, rfl⟩

/-! ## The program -/

/-- The jump at a place leads to a position, if it can hold the displacement. -/
def LandsAt (insn : Option Insn) (place position : Nat) : Prop :=
  ∃ w, insn.bind Insn.encode = some w ∧
    (Reachable ((position : Int) - place) → (place : Int) + jalDisplacement w = position)

/-- The first four instructions of a branch lead to a position of the code, if it
has an address. -/
def LeadsTo (env : Env) (insns : List Insn) (position : Nat) : Prop :=
  ∃ first second third, insns[0]?.bind Insn.encode = some first ∧
    insns[1]?.bind Insn.encode = some second ∧ insns[3]?.bind Insn.encode = some third ∧
      (env.elfCodeStart + position < 2 ^ 32 →
        jalrTarget first second third = env.elfCodeStart + position)

/-- The code is what the layout counted, every block starts at its offset, and
every branch, jump and call lands on its block. -/
structure LayoutAgrees (env : Env) (p : Program) (L : Layout) (image : Image Insn) : Prop where
  sized : Sized (flattener env.hardMulDiv) image
  size : L.elfOffset = image.size
  offsets : ∀ b position, StartsAt (flattener env.hardMulDiv) p image syscallCode b position →
    L.blockOffset b = position
  jumps : ∀ one ∈ image.globals ++ image.functions, ∀ site ∈ branchSites p one.item,
    ∃ position, StartsAt (flattener env.hardMulDiv) p image syscallCode site.target position ∧
      LandsAt one.units[site.index]? (one.position + 4 * site.index) position
  branches : ∀ one ∈ image.globals ++ image.functions, one.item.op = .branch →
    ∃ thenBb ∈ one.item.thenBb, ∃ position,
      StartsAt (flattener env.hardMulDiv) p image syscallCode thenBb position ∧
        LeadsTo env one.units position
  init : LandsAt image.startup[5]? 20 image.globalStart
  main : ∀ b ∈ p.mainBb,
    ∃ position, StartsAt (flattener env.hardMulDiv) p image syscallCode b position ∧
      LandsAt image.mainCall[3]? (image.mainStart + 12) position

theorem landsAt {rd : Int} (isReg : 0 ≤ rd ∧ rd < 32) {ofs : Int} {place position : Nat}
    (same : ofs = (position : Int) - place) : LandsAt (some (.jal rd ofs)) place position := by
  by_cases reachable : Reachable ofs
  · rcases jalDisplacement_encode isReg reachable with ⟨w, encoded, displacement⟩
    refine ⟨w, encoded, fun _ => ?_⟩
    omega
  · refine ⟨_, rfl, fun reaches => ?_⟩
    rw [← same] at reaches
    exact absurd reaches reachable

theorem leadsTo {insns rest : List Insn} {rs1 : Int} {position : Nat} (aligned : 4 ∣ position)
    (words : ∀ insn ∈ insns, insn.encode.isSome = true)
    (list : insns = .lui t0 (rvHi (env.elfCodeStart + position)) ::
      .addi t0 t0 (rvLo (env.elfCodeStart + position)) ::
      .beq rs1 zero 8 :: .jalr zero t0 0 :: rest) : LeadsTo env insns position := by
  subst list
  have luiWord := words (.lui t0 (rvHi (env.elfCodeStart + position))) (by simp)
  have addiWord := words (.addi t0 t0 (rvLo (env.elfCodeStart + position))) (by simp)
  have jalrWord := words (.jalr zero t0 0) (by simp)
  rcases Option.isSome_iff_exists.mp luiWord with ⟨first, luiEq⟩
  rcases Option.isSome_iff_exists.mp addiWord with ⟨second, addiEq⟩
  rcases Option.isSome_iff_exists.mp jalrWord with ⟨third, jalrEq⟩
  refine ⟨first, second, third, luiEq, addiEq, jalrEq, fun isAddress => ?_⟩
  have positive := env.positive
  have codeAligned := env.aligned
  exact jalrTarget_encode ⟨by omega, isAddress⟩ (by omega) luiEq addiEq jalrEq

theorem updateElfOffset_define (hardMulDiv : Bool) (ir : Ph2Ir) (isDefine : ir.op = .define) :
    (flattener hardMulDiv).sizeOf ir = none := by
  simp only [flattener, updateElfOffset, isDefine]

theorem targets_adjust (f : CodeFunc) (ir : Ph2Ir) : (adjust f ir).targets = ir.targets := by
  rw [adjust]
  split <;> rfl

section Agreement

variable (laid : cfgFlatten env.hardMulDiv p = some L)
  (emits : (emitter env p L.blockOffset).Emits p.globals L.flatten image)

include laid in
/-- The layout is the one all targets share, with `__syscall` behind 24 bytes. -/
theorem cfgFlatten_eq :
    ∃ offsets, (∀ b ∈ p.syscallBlock, offsets b = 24) ∧
      (flattener env.hardMulDiv).cfgFlatten offsets p = some L := by
  rcases Option.bind_eq_some_iff.mp laid with ⟨syscall, builtIn, laid⟩
  refine ⟨_, ?_, laid⟩
  rintro b isSyscall
  cases Option.some.inj (builtIn.symm.trans isSyscall)
  rw [Function.update_self]

include laid emits in
/-- Everything is emitted in its counted size. -/
theorem sized {mainBb : BlockId} (hasMain : p.mainBb = some mainBb) :
    Sized (flattener env.hardMulDiv) image := by
  rcases cfgFlatten_eq laid with ⟨offsets, -, shared⟩
  have defines := updateElfOffset_define env.hardMulDiv
  rcases Flattener.cfgFlatten_spec defines shared with
    ⟨size, sizeEq, flatten, ⟨code, codeEq, -⟩, -, -, -⟩
  constructor
  · rw [emits.startup]
    rfl
  · intro one inside
    rcases emit_of_mem emits.globals inside with ⟨present, emitted⟩
    rcases size_of_mem sizeEq present with ⟨n, isSize⟩
    have measured : (flattener env.hardMulDiv).measure one.item = some n := by
      rw [Flattener.measure, if_neg]
      · exact isSize
      · intro isDefine
        rw [defines _ isDefine] at isSize
        cases isSize
    rw [Fits, isSize, instructions_size measured (Emitter.emit_spec emitted).1]
  · rw [emits.mainCall]
    change 4 * (mainCall p L.blockOffset image.mainStart).length = 24
    rw [mainCall, hasMain]
    rfl
  · intro one inside
    rcases emit_of_mem emits.functions inside with ⟨present, emitted⟩
    rcases size_of_mem codeEq present with ⟨n, isSize⟩
    rw [Fits, isSize, instructions_size isSize (Emitter.emit_spec emitted).1]

include laid emits in
theorem startsAt_offset {b : BlockId} (sized : Sized (flattener env.hardMulDiv) image)
    (present : p.syscallBlock = some b ∨ ∃ f ∈ p.funcs, ∃ block ∈ f.blocks, block.id = b) :
    StartsAt (flattener env.hardMulDiv) p image syscallCode b (L.blockOffset b) := by
  rcases cfgFlatten_eq laid with ⟨offsets, syscall, shared⟩
  apply sized.startsAt (updateElfOffset_define env.hardMulDiv) shared emits _ _ present
  · intro b builtIn
    rw [syscall b builtIn]
    rfl
  · intro b builtIn
    exact ⟨_, rfl⟩

end Agreement

/-- Layout and emission agree. -/
theorem layout_agrees (env : Env) (p : Program) (L : Layout) (image : Image Insn)
    (hasMain : p.mainBb.isSome = true) (laid : cfgFlatten env.hardMulDiv p = some L)
    (emitted : codeGenerate env p L = some image) : LayoutAgrees env p L image := by
  rcases Option.isSome_iff_exists.mp hasMain with ⟨mainBb, isMain⟩
  have emits := Emitter.codeGenerate_emits emitted
  have defines := updateElfOffset_define env.hardMulDiv
  have sized := sized laid emits isMain
  rcases cfgFlatten_eq laid with ⟨offsets, syscall, shared⟩
  rcases Flattener.cfgFlatten_spec defines shared with ⟨-, -, flatten, -, -, globalMark, -⟩
  have functions := emits.functions
  rw [flatten] at functions
  constructor
  · exact sized
  · exact sized.size defines shared emits
  · intro b position startsAt
    apply sized.offset defines shared emits _ startsAt
    intro b builtIn
    rw [syscall b builtIn]
    rfl
  · intro one present site inside
    rcases List.mem_append.mp present with present | present
    -- The global initialisation never leaves the straight line.
    · have straight := p.straight _ (emit_of_mem emits.globals present).1
      simp only [Ph2Ir.transfers, Bool.or_eq_false_iff, beq_eq_false_iff_ne] at straight
      rw [branchSites] at inside
      split at inside
      · simp_all
      · simp_all
      · simp_all
      · cases inside
    · rcases emit_of_mem functions present with ⟨listed, oneEmitted⟩
      have target := target_present targets_adjust listed (branchSites_target inside)
      rcases instructions_site (Emitter.emit_spec oneEmitted).1 inside with ⟨rd, isReg, found⟩
      refine ⟨_, startsAt_offset laid emits sized target, ?_⟩
      rw [found]
      apply landsAt isReg
      push_cast
      rfl
  · intro one present isBranch
    rcases List.mem_append.mp present with present | present
    · have straight := p.straight _ (emit_of_mem emits.globals present).1
      simp [Ph2Ir.transfers, isBranch] at straight
    · rcases emit_of_mem functions present with ⟨listed, oneEmitted⟩
      rcases Emitter.emit_spec oneEmitted with ⟨list, words⟩
      rcases branch_absolute list isBranch with ⟨thenBb, isThen, rest, units⟩
      have inTargets : thenBb ∈ one.item.targets := by
        apply List.mem_append_left
        apply List.mem_append_right
        exact Option.mem_toList.mpr isThen
      have target := target_present targets_adjust listed (.inl inTargets)
      have startsAt := startsAt_offset laid emits sized target
      exact ⟨thenBb, isThen, _, startsAt, leadsTo startsAt.aligned words units⟩
  · rw [emits.startup]
    have found : (startup p L.blockOffset)[5]? =
        some (.jal ra ((L.blockOffset p.globalBlock : Int) - 20)) := rfl
    change LandsAt (startup p L.blockOffset)[5]? 20 image.globalStart
    rw [found]
    apply landsAt (by decide)
    rw [globalMark]
    have start : image.globalStart = (flattener env.hardMulDiv).start := sized.startup
    rw [start]
    rfl
  · intro b isBody
    rcases p.mainBody b isBody with ⟨f, inside, entry⟩
    have target : p.syscallBlock = some b ∨ ∃ f ∈ p.funcs, ∃ block ∈ f.blocks, block.id = b :=
      .inr ⟨f, inside, f.entry, List.mem_cons_self, entry⟩
    refine ⟨_, startsAt_offset laid emits sized target, ?_⟩
    rw [emits.mainCall]
    have found : (mainCall p L.blockOffset image.mainStart)[3]? =
        some (.jal ra ((L.blockOffset b : Int) - (image.mainStart + 12))) := by
      rw [mainCall, isBody]
      rfl
    change LandsAt (mainCall p L.blockOffset image.mainStart)[3]? _ _
    rw [found]
    apply landsAt (by decide)
    push_cast
    rfl

/-- A program whose `main` branches over an assignment of a constant: `__syscall` is
block 0, the global initialisation block 1 and `main` blocks 2 to 4. -/
def branchingProgram : Program where
  dynlink := false
  syscallBlock := some 0
  globalBlock := 1
  globals := [{ op := .loadConstant, dest := 0, src0 := 7 },
    { op := .globalStore, src0 := 0, src1 := 4 }]
  globalStackSize := 8
  funcs := [⟨"main", 0,
    ⟨2, [{ op := .branch, src0 := 0, thenBb := some 3, elseBb := some 4 }]⟩,
    [⟨3, [{ op := .loadConstant, dest := 0, src0 := 5000 }]⟩,
      ⟨4, [{ op := .return_, src0 := 0 }]⟩]⟩]
  callee name := if name = "main" then some ⟨some 2, 0⟩ else none
  mainBb := some 2
  syscallPresent := rfl
  distinct := by decide
  bodies := by
    intro name found b isFound isBody
    right
    split at isFound
    · cases isFound
      cases isBody
      exact ⟨_, List.mem_cons_self, rfl⟩
    · cases isFound
  mainBody := by
    rintro b ⟨⟩
    exact ⟨_, List.mem_cons_self, rfl⟩
  closed := by decide
  straight := by decide

/-- The code starts behind an ELF header and two program headers. -/
def smallEnv : Env := ⟨false, 0x10074, 0x11000, 0x12000, by decide, by decide⟩

theorem branchingProgram_agrees :
    LayoutAgrees smallEnv branchingProgram ((cfgFlatten false branchingProgram).get rfl)
      ((codeGenerate smallEnv branchingProgram
        ((cfgFlatten false branchingProgram).get rfl)).get rfl) :=
  layout_agrees smallEnv branchingProgram _ _ rfl (Option.some_get _).symm
    (Option.some_get _).symm

end Shecc.RiscV
