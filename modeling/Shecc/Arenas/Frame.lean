import Shecc.Arenas.Runs

/-!
# What a request leaves alone

A request changes the bytes of regions that its caller holds, and creates a block only in the
buffer that it was supplied, so those who share an arena do not disturb each other.
-/

namespace Shecc.Arenas

open Libc (wrap intMax wrap_eq)

variable {host : Host} {unit : Int} {arena arena' : Arena} {live : List Region}

/-- The buffer of the block is that of one of the arena, or the supplied one. -/
def Block.From (block : Block) (arena : Arena) (fresh : Block) : Prop :=
  (∃ old ∈ arena.blocks, block.memory = old.memory ∧ block.capacity = old.capacity) ∨
    block.memory = fresh.memory ∧ block.capacity = fresh.capacity

theorem Block.From.of_mem {block fresh : Block} (member : block ∈ arena.blocks) :
    block.From arena fresh :=
  .inl ⟨block, member, rfl, rfl⟩

/-- What is apart from the blocks that there were is apart from those that there are. -/
theorem Block.From.apart {block fresh other : Block} (isFrom : block.From arena fresh)
    (old : ∀ block ∈ arena.blocks, block.Apart other) (new : fresh.Apart other) :
    block.Apart other := by
  rcases isFrom with ⟨block', member, memory, capacity⟩ | ⟨memory, capacity⟩
  · have apart := old block' member
    rwa [Block.Apart, ← memory, ← capacity] at apart
  · rwa [Block.Apart, ← memory, ← capacity] at new

theorem arenaAlloc_from {memory size ptr : Int}
    (returned : arenaAlloc host memory arena size = some (ptr, arena')) {block : Block}
    (member : block ∈ arena'.blocks) :
    block.From arena ⟨memory, arena.newCapacity (alignSize host size), 0⟩ := by
  rw [arenaAlloc] at returned
  split_ifs at returned
  by_cases full : arena.needsBlock (alignSize host size) = true
  · simp only [full, if_true, Arena.addBlock, Arena.take, Option.some.injEq,
      Prod.mk.injEq] at returned
    obtain ⟨-, rfl⟩ := returned
    rcases List.mem_cons.mp member with rfl | isOld
    · exact .inr ⟨rfl, rfl⟩
    · exact .of_mem isOld
  · simp only [full, Bool.false_eq_true, if_false, Arena.take] at returned
    split at returned
    · exact absurd returned (by simp)
    · next head rest blocks =>
        simp only [Option.some.injEq, Prod.mk.injEq] at returned
        obtain ⟨-, rfl⟩ := returned
        rcases List.mem_cons.mp member with rfl | isOld
        · exact .inl ⟨head, by rw [blocks]; exact List.mem_cons_self, rfl, rfl⟩
        · exact .of_mem (by rw [blocks]; exact List.mem_cons_of_mem _ isOld)

section Serve

variable {memory : Int} {s s' : State} {request : Request}

/-- The blocks after a request. -/
theorem serve_from (inv : Inv host unit s.arena s.live) (allowed : Allowed s request)
    (fits : FitsWith (Takes host unit) s request)
    (served : serve host memory s request = some s') {block : Block}
    (member : block ∈ s'.arena.blocks) :
    block.From s.arena ⟨memory, s.arena.newCapacity (alignSize host request.wanted), 0⟩ := by
  cases request with
  | alloc size =>
      simp only [serve, Option.bind_eq_bind, Option.pure_def, Option.bind_eq_some_iff,
        Option.some.injEq, Prod.exists] at served
      obtain ⟨ptr, arena', returned, rfl⟩ := served
      exact arenaAlloc_from returned member
  | calloc n size =>
      simp only [serve, Option.bind_eq_bind, Option.pure_def, Option.bind_eq_some_iff,
        Option.some.injEq, Prod.exists, arenaCalloc, Option.ite_none_left_eq_some,
        Prod.mk.injEq] at served
      obtain ⟨ptr, arena', bytes', ⟨-, ptr', arena'', returned, rfl, rfl, -⟩, rfl⟩ := served
      exact arenaAlloc_from returned member
  | realloc oldptr oldsz newsz =>
      simp only [serve, Option.bind_eq_bind, Option.pure_def, Option.bind_eq_some_iff,
        Option.some.injEq, Prod.exists] at served
      obtain ⟨ptr, arena', bytes', returned, rfl⟩ := served
      rcases inv.realloc_cases (allowed.imp_right And.left) (fun larger => (fits larger).1)
        returned with ⟨-, -, -, rfl, -⟩ | ⟨head, rest, blocks, -, -, -, -, -, -, -, rfl⟩ |
          ⟨-, -, again, -⟩
      · exact .of_mem member
      · rcases List.mem_cons.mp member with rfl | isOld
        · exact .inl ⟨head, by rw [blocks]; exact List.mem_cons_self, rfl, rfl⟩
        · exact .of_mem (by rw [blocks]; exact List.mem_cons_of_mem _ isOld)
      · exact arenaAlloc_from again member
  | compact =>
      obtain rfl := Option.some.inj served
      have split := keptBlocks_append_drop s.arena.blocks
      apply Block.From.of_mem
      rw [← split]
      exact List.mem_append_left _ member
  | store address byte =>
      obtain rfl := Option.some.inj served
      exact .of_mem member

/-- A request changes bytes of a region that its caller holds. -/
theorem serve_touches (inv : Inv host unit s.arena s.live) (allowed : Allowed s request)
    (fits : FitsWith (Takes host unit) s request)
    (served : serve host memory s request = some s') {address : Int}
    (changed : s'.bytes address ≠ s.bytes address) :
    ∃ region ∈ s'.live, region.Covers address := by
  cases request with
  | alloc size =>
      simp only [serve, Option.bind_eq_bind, Option.pure_def, Option.bind_eq_some_iff,
        Option.some.injEq, Prod.exists] at served
      obtain ⟨ptr, arena', returned, rfl⟩ := served
      exact absurd rfl changed
  | calloc n size =>
      simp only [serve, Option.bind_eq_bind, Option.pure_def, Option.bind_eq_some_iff,
        Option.some.injEq, Prod.exists, arenaCalloc, Option.ite_none_left_eq_some,
        Prod.mk.injEq] at served
      obtain ⟨ptr, arena', bytes', ⟨-, ptr', arena'', returned, rfl, rfl, rfl⟩, rfl⟩ := served
      refine ⟨_, List.mem_cons_self, ?_⟩
      by_contra outside
      rw [Region.Covers] at outside
      apply changed
      simp only [Bytes.clear, fits.1]
      exact if_neg outside
  | realloc oldptr oldsz newsz =>
      simp only [serve, Option.bind_eq_bind, Option.pure_def, Option.bind_eq_some_iff,
        Option.some.injEq, Prod.exists] at served
      obtain ⟨ptr, arena', bytes', returned, rfl⟩ := served
      rcases inv.realloc_cases (allowed.imp_right And.left) (fun larger => (fits larger).1)
        returned with ⟨-, -, -, -, rfl⟩ | ⟨head, rest, blocks, -, -, -, -, -, -, rfl, -⟩ |
          ⟨larger, -, -, rfl⟩
      · exact absurd rfl changed
      · exact absurd rfl changed
      · refine ⟨_, List.mem_cons_self, ?_⟩
        by_contra outside
        rw [Region.Covers] at outside
        apply changed
        simp only
        split_ifs
        · rfl
        · rw [Bytes.copy, if_neg]
          simp only at outside
          omega
  | compact =>
      obtain rfl := Option.some.inj served
      exact absurd rfl changed
  | store address' byte =>
      obtain rfl := Option.some.inj served
      obtain ⟨region, member, covers⟩ := allowed
      by_cases isAddress : address = address'
      · subst isAddress
        exact ⟨region, member, covers⟩
      · exact absurd (Function.update_of_ne isAddress _ _) changed

/-- A request does not depend on the regions that others hold. -/
theorem serve_append {others : List Region} (allowed : Allowed s request)
    (notNull : ∀ region ∈ others, region.ptr ≠ 0)
    (served : serve host memory s request = some s') :
    serve host memory { s with live := s.live ++ others } request =
      some { s' with live := s'.live ++ others } := by
  cases request with
  | alloc size =>
      simp only [serve, Option.bind_eq_bind, Option.pure_def, Option.bind_eq_some_iff,
        Option.some.injEq, Prod.exists] at served ⊢
      obtain ⟨ptr, arena', returned, rfl⟩ := served
      exact ⟨ptr, arena', returned, rfl⟩
  | calloc n size =>
      simp only [serve, Option.bind_eq_bind, Option.pure_def, Option.bind_eq_some_iff,
        Option.some.injEq, Prod.exists] at served ⊢
      obtain ⟨ptr, arena', bytes', returned, rfl⟩ := served
      exact ⟨ptr, arena', bytes', returned, rfl⟩
  | realloc oldptr oldsz newsz =>
      simp only [serve, Option.bind_eq_bind, Option.pure_def, Option.bind_eq_some_iff,
        Option.some.injEq, Prod.exists] at served ⊢
      obtain ⟨ptr, arena', bytes', returned, rfl⟩ := served
      refine ⟨ptr, arena', bytes', returned, ?_⟩
      have erased : (s.live ++ others).erase ⟨oldptr, oldsz⟩ =
          s.live.erase ⟨oldptr, oldsz⟩ ++ others := by
        rw [List.erase_append]
        split_ifs with member
        · rfl
        · rw [List.erase_of_not_mem member, List.erase_of_not_mem]
          intro isOther
          rcases allowed with isNull | ⟨-, isHeld⟩
          · exact notNull _ isOther isNull
          · exact member isHeld
      rw [erased]
      rfl
  | compact =>
      obtain rfl := Option.some.inj served
      rfl
  | store address byte =>
      obtain rfl := Option.some.inj served
      rfl

theorem Inv.notNull (inv : Inv host unit arena live) {region : Region} (member : region ∈ live) :
    region.ptr ≠ 0 := by
  obtain ⟨-, block, isBlock, inBlock⟩ := inv.placed region member
  have positive := (inv.valid block isBlock).positive
  have low := inBlock.low
  omega

/-- A request by those who hold some of the regions keeps the invariant of all. -/
theorem Inv.serve_shared {others : List Region} (inv : Inv host unit s.arena (s.live ++ others))
    (allowed : Allowed s request)
    (supplies : Supplies host s.arena memory
      (s.arena.newCapacity (alignSize host request.wanted)))
    (fits : FitsWith (Takes host unit) s request)
    (served : Arenas.serve host memory s request = some s') :
    Inv host unit s'.arena (s'.live ++ others) := by
  have isAll := serve_append allowed
    (fun region member => inv.notNull (List.mem_append_right _ member)) served
  have allowed' : Allowed { s with live := s.live ++ others } request := by
    cases request with
    | realloc oldptr oldsz newsz =>
        exact allowed.imp_right fun ⟨size, held⟩ => ⟨size, List.mem_append_left _ held⟩
    | store address byte =>
        obtain ⟨region, held, covers⟩ := allowed
        exact ⟨region, List.mem_append_left _ held, covers⟩
    | _ => trivial
  have fits' : FitsWith (Takes host unit) { s with live := s.live ++ others } request := by
    cases request <;> exact fits
  exact @Inv.serve _ _ _ { s with live := s.live ++ others } _ _ inv allowed' supplies fits' isAll

end Serve

end Shecc.Arenas
