import Mathlib.Data.List.Perm.Subperm
import Shecc.Ssa.Liveness

/-!
# Live variables

The iteration ends where no list of variables changes any more. In the blocks it passes the
lists then satisfy the equations of liveness unless an array was full; in the blocks it does
not pass they stay empty. The lists are the sets of live variables exactly where nothing is
live in the blocks that are not passed, and the arrays have room for what is live.
-/

namespace Shecc.Ssa

open Dataflow

/-! ## The union of the successors -/

theorem searchFrom_iff {liveOut : List VarId} {var : VarId} {fuel j : Nat}
    (enough : liveOut.length < j + fuel) :
    searchFrom liveOut var fuel j = true ↔ ∃ i, j ≤ i ∧ liveOut[i]? = some var := by
  induction fuel generalizing j with
  | zero =>
      simp only [searchFrom, Bool.false_eq_true, false_iff, not_exists, not_and]
      intro i le found
      rw [List.getElem?_eq_none (Nat.le_trans (Nat.le_of_lt enough) le)] at found
      cases found
  | succ fuel inductionHypothesis =>
      rw [searchFrom]
      split
      case isTrue inside =>
        split
        case isTrue found => exact ⟨fun _ => ⟨j, Nat.le_refl j, found⟩, fun _ => rfl⟩
        case isFalse other =>
          rw [inductionHypothesis (by rwa [Nat.succ_add_eq_add_succ])]
          constructor
          · rintro ⟨i, le, found⟩
            exact ⟨i, Nat.le_of_succ_le le, found⟩
          · rintro ⟨i, le, found⟩
            rcases Nat.eq_or_lt_of_le le with rfl | lt
            · exact absurd found other
            · exact ⟨i, lt, found⟩
      case isFalse outside =>
        simp only [Bool.false_eq_true, false_iff, not_exists, not_and]
        intro i le found
        rw [List.getElem?_eq_none (Nat.le_trans (Nat.le_of_not_lt outside) le)] at found
        cases found

theorem searchUnrolled_iff {liveOut : List VarId} {var : VarId} {fuel j : Nat}
    (enough : liveOut.length < j + 4 * fuel) :
    searchUnrolled liveOut var fuel j = true ↔ ∃ i, j ≤ i ∧ liveOut[i]? = some var := by
  induction fuel generalizing j with
  | zero =>
      simp only [searchUnrolled, Bool.false_eq_true, false_iff, not_exists, not_and]
      intro i le found
      rw [List.getElem?_eq_none (Nat.le_trans (Nat.le_of_lt enough) le)] at found
      cases found
  | succ fuel inductionHypothesis =>
      rw [searchUnrolled]
      split
      case isTrue inside =>
        split
        case isTrue found =>
          refine ⟨fun _ => ?_, fun _ => rfl⟩
          rcases found with found | found | found | found
          · exact ⟨j, Nat.le_refl j, found⟩
          · exact ⟨j + 1, Nat.le_add_right j 1, found⟩
          · exact ⟨j + 2, Nat.le_add_right j 2, found⟩
          · exact ⟨j + 3, Nat.le_add_right j 3, found⟩
        case isFalse others =>
          rw [inductionHypothesis (by omega)]
          constructor
          · rintro ⟨i, le, found⟩
            exact ⟨i, Nat.le_trans (Nat.le_add_right j 4) le, found⟩
          · rintro ⟨i, le, found⟩
            refine ⟨i, ?_, found⟩
            by_contra early
            apply others
            have close : i = j ∨ i = j + 1 ∨ i = j + 2 ∨ i = j + 3 := by omega
            rcases close with rfl | rfl | rfl | rfl
            · exact Or.inl found
            · exact Or.inr (Or.inl found)
            · exact Or.inr (Or.inr (Or.inl found))
            · exact Or.inr (Or.inr (Or.inr found))
      case isFalse few => exact searchFrom_iff (by omega)

theorem exists_index_iff {liveOut : List VarId} {var : VarId} :
    (∃ i, 0 ≤ i ∧ liveOut[i]? = some var) ↔ var ∈ liveOut := by
  simp [List.mem_iff_getElem?]

/-- Variables are collected without repetition, and dropped only where the array is full. -/
structure Collects (liveOut added collected : List VarId) : Prop where
  nodup : collected.Nodup
  bounded : collected.length ≤ maxAnalysisStackSize
  grows : ∀ v ∈ liveOut, v ∈ collected
  only : ∀ v ∈ collected, v ∈ liveOut ∨ v ∈ added
  all : collected.length < maxAnalysisStackSize → ∀ v ∈ added, v ∈ collected

theorem foldl_collects {search : List VarId → VarId → Bool}
    (correct : ∀ liveOut var, search liveOut var = true ↔ var ∈ liveOut) {liveOut : List VarId}
    (nodup : liveOut.Nodup) (bounded : liveOut.length ≤ maxAnalysisStackSize)
    (added : List VarId) :
    Collects liveOut added (added.foldl (appendUnlessFound search) liveOut) := by
  induction added generalizing liveOut with
  | nil => exact ⟨nodup, bounded, fun _ member => member, fun _ member => Or.inl member, by simp⟩
  | cons var rest inductionHypothesis =>
      rw [List.foldl_cons, appendUnlessFound]
      split
      case isTrue missing =>
        rcases missing with ⟨notFound, room⟩
        rw [Bool.not_eq_true', ← Bool.not_eq_true, correct] at notFound
        have collects := inductionHypothesis
          (List.nodup_append.mpr ⟨nodup, List.nodup_singleton var, by
            rintro v member w isVar rfl
            cases List.mem_singleton.mp isVar
            exact notFound member⟩)
          (by rw [List.length_append]; exact room)
        refine ⟨collects.nodup, collects.bounded,
          fun v member => collects.grows v (List.mem_append_left _ member), fun v member => ?_,
          fun small v member => ?_⟩
        · rcases collects.only v member with old | new
          · rcases List.mem_append.mp old with old | isVar
            · exact Or.inl old
            · cases List.mem_singleton.mp isVar
              exact Or.inr List.mem_cons_self
          · exact Or.inr (List.mem_cons_of_mem var new)
        · rcases List.mem_cons.mp member with rfl | member
          · exact collects.grows v (List.mem_append_right _ List.mem_cons_self)
          · exact collects.all small v member
      case isFalse present =>
        have collects := inductionHypothesis nodup bounded
        refine ⟨collects.nodup, collects.bounded, collects.grows, fun v member => ?_,
          fun small v member => ?_⟩
        · rcases collects.only v member with old | new
          · exact Or.inl old
          · exact Or.inr (List.mem_cons_of_mem var new)
        · rcases List.mem_cons.mp member with rfl | member
          · have shorter : liveOut.length ≤ _ :=
              (List.subperm_of_subset nodup collects.grows).length_le
            apply collects.grows
            rw [← correct]
            by_contra notFound
            rw [Bool.not_eq_true] at notFound
            exact present ⟨by rw [notFound]; rfl, Nat.lt_of_le_of_lt shorter small⟩
          · exact collects.all small v member

theorem mergeLiveIn_collects {s : State} {bb : BlockId} {liveOut : List VarId}
    (nodup : liveOut.Nodup) (bounded : liveOut.length ≤ maxAnalysisStackSize) :
    Collects liveOut (s.liveIn bb) (s.mergeLiveIn liveOut bb) := by
  rw [State.mergeLiveIn]
  split
  case isTrue empty =>
    rw [List.length_eq_zero_iff.mp empty]
    exact ⟨nodup, bounded, fun _ member => member, fun _ member => Or.inl member, by simp⟩
  case isFalse some_ =>
    split
    case isTrue small =>
      apply foldl_collects _ nodup bounded
      intro liveOut var
      rw [searchFrom_iff (by omega), exists_index_iff]
    case isFalse large =>
      apply foldl_collects _ nodup bounded
      intro liveOut var
      rw [searchUnrolled_iff (by omega), exists_index_iff]

/-! ## A block -/

section Block

variable {f : Func} {s s' s₀ : State} {bb c : BlockId} {v : VarId}

theorem mem_computeLiveIn : v ∈ (s.computeLiveIn bb).liveIn bb ↔
    v ∈ s.liveGen bb ∨ v ∈ s.liveOut bb ∧ v ∉ s.liveKill bb := by
  simp only [State.computeLiveIn, Function.update_self, mem_foldl_varListAddVar, List.mem_filter,
    State.varCheckKilled, List.not_mem_nil, false_or, Bool.not_eq_true', decide_eq_false_iff_not]
  exact or_comm

theorem computeLiveIn_other (different : c ≠ bb) :
    (s.computeLiveIn bb).liveIn c = s.liveIn c :=
  Function.update_of_ne different _ _

/-- The live variables of some successors were computed and collected. -/
structure Merged (s₀ : State) (succs : List BlockId) (s : State) (liveOut : List VarId) :
    Prop where
  liveGen : s.liveGen = s₀.liveGen
  liveKill : s.liveKill = s₀.liveKill
  sameOut : s.liveOut = s₀.liveOut
  rpoRNext : s.rpoRNext = s₀.rpoRNext
  liveIn : ∀ c ∈ succs, ∀ v, v ∈ s.liveIn c ↔
    v ∈ s₀.liveGen c ∨ v ∈ s₀.liveOut c ∧ v ∉ s₀.liveKill c
  others : ∀ c, c ∉ succs → s.liveIn c = s₀.liveIn c
  nodup : liveOut.Nodup
  bounded : liveOut.length ≤ maxAnalysisStackSize
  only : ∀ v ∈ liveOut, ∃ c ∈ succs, v ∈ s.liveIn c
  all : liveOut.length < maxAnalysisStackSize → ∀ c ∈ succs, ∀ v ∈ s.liveIn c, v ∈ liveOut

theorem merged_nil (s₀ : State) : Merged s₀ [] s₀ [] where
  liveGen := rfl
  liveKill := rfl
  sameOut := rfl
  rpoRNext := rfl
  liveIn := by simp
  others := fun _ _ => rfl
  nodup := List.nodup_nil
  bounded := Nat.zero_le _
  only := by simp
  all := by simp

theorem Merged.successor {succs : List BlockId} {liveOut : List VarId}
    (merged : Merged s₀ succs s liveOut) (succ : Option BlockId) :
    Merged s₀ (succs ++ succ.toList) (State.mergeSuccessor (s, liveOut) succ).1
      (State.mergeSuccessor (s, liveOut) succ).2 := by
  cases succ with
  | none =>
      rw [Option.toList_none, List.append_nil]
      exact merged
  | some d =>
      have liveIn : ∀ c ∈ succs ++ [d], ∀ v, v ∈ (s.computeLiveIn d).liveIn c ↔
          v ∈ s₀.liveGen c ∨ v ∈ s₀.liveOut c ∧ v ∉ s₀.liveKill c := by
        intro c member v
        by_cases isLast : c = d
        · rw [isLast, mem_computeLiveIn, merged.liveGen, merged.liveKill, merged.sameOut]
        · rcases List.mem_append.mp member with member | isD
          · rw [computeLiveIn_other isLast]
            exact merged.liveIn c member v
          · exact absurd (List.mem_singleton.mp isD) isLast
      have kept : ∀ c ∈ succs, ∀ v, v ∈ (s.computeLiveIn d).liveIn c ↔ v ∈ s.liveIn c := by
        intro c member v
        rw [liveIn c (List.mem_append_left _ member), merged.liveIn c member]
      have collects : Collects liveOut ((s.computeLiveIn d).liveIn d)
          ((s.computeLiveIn d).mergeLiveIn liveOut d) :=
        mergeLiveIn_collects merged.nodup merged.bounded
      refine ⟨merged.liveGen, merged.liveKill, merged.sameOut, merged.rpoRNext, liveIn,
        fun c outside => ?_, collects.nodup, collects.bounded, fun v member => ?_,
        fun small c member v isLive => ?_⟩
      · have different : c ≠ d := fun same =>
          outside (List.mem_append_right _ (List.mem_singleton.mpr same))
        exact (computeLiveIn_other different).trans
          (merged.others c fun member => outside (List.mem_append_left _ member))
      · rcases collects.only v member with old | new
        · rcases merged.only v old with ⟨c, inSuccs, isLive⟩
          exact ⟨c, List.mem_append_left _ inSuccs, (kept c inSuccs v).mpr isLive⟩
        · exact ⟨d, List.mem_append_right _ List.mem_cons_self, new⟩
      · have shorter : liveOut.length ≤ _ :=
          (List.subperm_of_subset merged.nodup collects.grows).length_le
        rcases List.mem_append.mp member with inSuccs | isD
        · apply collects.grows
          exact merged.all (Nat.lt_of_le_of_lt shorter small) c inSuccs v
            ((kept c inSuccs v).mp isLive)
        · cases List.mem_singleton.mp isD
          exact collects.all small v isLive

/-- A block is visited: the union of its successors is assigned to its list, or has the
elements of the list already. -/
theorem recomputeLiveOut_cases (f : Func) (bb : BlockId) (s : State) :
    ∃ s₁ liveOut, Merged s (f.successors bb) s₁ liveOut ∧
      (recomputeLiveOut f bb s = (s₁.assignLiveOut bb liveOut, true) ∨
        recomputeLiveOut f bb s = (s₁, false) ∧ (s.liveOut bb).length = liveOut.length ∧
          ∀ v ∈ liveOut, v ∈ s.liveOut bb) := by
  have merged := (((merged_nil s).successor (f.block bb).next).successor
    (f.block bb).then_).successor (f.block bb).else_
  rw [List.nil_append] at merged
  refine ⟨_, _, merged, ?_⟩
  rw [recomputeLiveOut]
  generalize State.mergeSuccessor (State.mergeSuccessor (State.mergeSuccessor (s, [])
    (f.block bb).next) (f.block bb).then_) (f.block bb).else_ = result at merged ⊢
  rcases result with ⟨s₁, liveOut⟩
  have unchanged : s₁.liveOut = s.liveOut := merged.sameOut
  simp only [unchanged]
  split
  case isTrue differs => exact Or.inl rfl
  case isFalse sameLength =>
    split
    case isTrue firstMissing => exact Or.inl rfl
    case isFalse firstFound =>
      split
      case isTrue missing => exact Or.inl rfl
      case isFalse allFound =>
        refine Or.inr ⟨rfl, not_not.mp sameLength, ?_⟩
        simpa using allFound

end Block

/-! ## The iteration -/

/-- The list `live_in` as a set. -/
def State.InSet (s : State) (bb : BlockId) (v : VarId) : Prop := v ∈ s.liveIn bb

/-- The list `live_out` as a set. -/
def State.OutSet (s : State) (bb : BlockId) (v : VarId) : Prop := v ∈ s.liveOut bb

/-- Between two blocks: the local lists and the order are those the iteration started with,
only live variables are in the lists, and those of blocks the iteration does not pass are
empty. -/
structure Iterating (f : Func) (vars : Vars) (s₀ s : State) : Prop where
  liveGen : s.liveGen = s₀.liveGen
  liveKill : s.liveKill = s₀.liveKill
  rpoRNext : s.rpoRNext = s₀.rpoRNext
  below : Below f.successors (f.Gen vars) f.Kill s.InSet s.OutSet f.Reachable
  nodup : ∀ bb, (s.liveOut bb).Nodup
  bounded : ∀ bb, (s.liveOut bb).length ≤ maxAnalysisStackSize
  unlisted : ∀ bb, ¬ s₀.Listed f bb → s.liveOut bb = []
  unread : ∀ bb, (∀ pred, s₀.Listed f pred → bb ∉ f.successors pred) → s.liveIn bb = []

/-- The block was visited and its list did not change: the equations hold at its end unless
the array was full, and at the beginning of its successors. -/
structure Stable (f : Func) (s : State) (bb : BlockId) : Prop where
  liveIn : ∀ c ∈ f.successors bb, ∀ v, v ∈ s.liveIn c ↔
    v ∈ s.liveGen c ∨ v ∈ s.liveOut c ∧ v ∉ s.liveKill c
  only : ∀ v ∈ s.liveOut bb, ∃ c ∈ f.successors bb, v ∈ s.liveIn c
  all : (s.liveOut bb).length < maxAnalysisStackSize →
    ∀ c ∈ f.successors bb, ∀ v ∈ s.liveIn c, v ∈ s.liveOut bb

section Iteration

variable {f : Func} {vars : Vars} {s s' s₀ : State} {bb c : BlockId} {v : VarId} {fuel : Nat}
  {liveOut : List VarId}

theorem Prepared.iterating (prepared : Prepared f vars s) : Iterating f vars s s where
  liveGen := rfl
  liveKill := rfl
  rpoRNext := rfl
  below := by
    constructor
    · intro bb _ v isLive
      rw [State.OutSet, prepared.liveOut] at isLive
      cases isLive
    · intro bb _ v isLive
      rw [State.InSet, prepared.liveIn] at isLive
      cases isLive
  nodup := fun bb => by rw [prepared.liveOut]; exact List.nodup_nil
  bounded := fun bb => by rw [prepared.liveOut]; exact Nat.zero_le _
  unlisted := fun bb _ => prepared.liveOut bb
  unread := fun bb _ => prepared.liveIn bb

/-- The live variables of the successors are computed. -/
theorem Iterating.merged (prepared : Prepared f vars s₀) (iterating : Iterating f vars s₀ s)
    (listed : s₀.Listed f bb) (merged : Merged s (f.successors bb) s' liveOut) :
    Iterating f vars s₀ s' := by
  have sameOut : s'.liveOut = s.liveOut := merged.sameOut
  refine ⟨merged.liveGen.trans iterating.liveGen,
    merged.liveKill.trans iterating.liveKill,
    merged.rpoRNext.trans iterating.rpoRNext, ⟨?_, ?_⟩, ?_, ?_, ?_, ?_⟩
  · intro c reachable v isLive
    rw [State.OutSet, sameOut] at isLive
    exact iterating.below.atEnd c reachable v isLive
  · intro c reachable v isLive
    by_cases isSucc : c ∈ f.successors bb
    · rcases (merged.liveIn c isSucc v).mp isLive with exposed | ⟨isLiveOut, spared⟩
      · rw [iterating.liveGen, prepared.gen c reachable] at exposed
        exact LiveAtStart.used exposed
      · rw [iterating.liveKill, prepared.kill c reachable] at spared
        exact LiveAtStart.of_atEnd (iterating.below.atEnd c reachable v isLiveOut) spared
    · rw [State.InSet, merged.others c isSucc] at isLive
      exact iterating.below.atStart c reachable v isLive
  · rw [sameOut]
    exact iterating.nodup
  · rw [sameOut]
    exact iterating.bounded
  · rw [sameOut]
    exact iterating.unlisted
  · intro c noPred
    rw [merged.others c (noPred bb listed)]
    exact iterating.unread c noPred

/-- The union is assigned. -/
theorem Iterating.assign (iterating : Iterating f vars s₀ s) (listed : s₀.Listed f bb)
    (nodup : liveOut.Nodup) (bounded : liveOut.length ≤ maxAnalysisStackSize)
    (only : ∀ v ∈ liveOut, ∃ c ∈ f.successors bb, v ∈ s.liveIn c) :
    Iterating f vars s₀ (s.assignLiveOut bb liveOut) := by
  have atBlock : (s.assignLiveOut bb liveOut).liveOut bb = liveOut := Function.update_self _ _ _
  have elsewhere : ∀ c, c ≠ bb → (s.assignLiveOut bb liveOut).liveOut c = s.liveOut c :=
    fun c different => Function.update_of_ne different _ _
  refine ⟨iterating.liveGen, iterating.liveKill, iterating.rpoRNext,
    ⟨fun c reachable v isLive => ?_, iterating.below.atStart⟩, fun c => ?_, fun c => ?_,
    fun c unlisted => ?_, iterating.unread⟩
  · by_cases same : c = bb
    · rw [State.OutSet, same, atBlock] at isLive
      rcases only v isLive with ⟨d, edge, isLiveIn⟩
      rw [same] at reachable ⊢
      exact ⟨d, edge, iterating.below.atStart d (reachable.successor edge) v isLiveIn⟩
    · rw [State.OutSet, elsewhere c same] at isLive
      exact iterating.below.atEnd c reachable v isLive
  · by_cases same : c = bb
    · rw [same, atBlock]
      exact nodup
    · rw [elsewhere c same]
      exact iterating.nodup c
  · by_cases same : c = bb
    · rw [same, atBlock]
      exact bounded
    · rw [elsewhere c same]
      exact iterating.bounded c
  · have different : c ≠ bb := by
      rintro rfl
      exact unlisted listed
    rw [elsewhere c different]
    exact iterating.unlisted c unlisted

theorem Iterating.recompute (prepared : Prepared f vars s₀) (iterating : Iterating f vars s₀ s)
    (listed : s₀.Listed f bb) : Iterating f vars s₀ (recomputeLiveOut f bb s).1 := by
  rcases recomputeLiveOut_cases f bb s with ⟨s₁, liveOut, merged, result | ⟨result, -⟩⟩
  · rw [result]
    exact (iterating.merged prepared listed merged).assign listed merged.nodup merged.bounded
      merged.only
  · rw [result]
    exact iterating.merged prepared listed merged

/-- A visit that changes nothing leaves the block stable. -/
theorem recompute_stable (unchanged : (recomputeLiveOut f bb s).2 = false) :
    Stable f (recomputeLiveOut f bb s).1 bb := by
  rcases recomputeLiveOut_cases f bb s with
    ⟨s₁, liveOut, merged, result | ⟨result, sameLength, subset⟩⟩
  · rw [result] at unchanged
    cases unchanged
  · rw [result]
    have sameOut : s₁.liveOut = s.liveOut := merged.sameOut
    have sameGen : s₁.liveGen = s.liveGen := merged.liveGen
    have sameKill : s₁.liveKill = s.liveKill := merged.liveKill
    have perm : List.Perm liveOut (s.liveOut bb) :=
      (List.subperm_of_subset merged.nodup subset).perm_of_length_le (Nat.le_of_eq sameLength)
    refine ⟨?_, fun v member => ?_, fun small c edge v isLive => ?_⟩
    · rw [sameOut, sameGen, sameKill]
      exact merged.liveIn
    · rw [sameOut] at member
      exact merged.only v (perm.mem_iff.mpr member)
    · rw [sameOut] at small ⊢
      rw [sameLength] at small
      exact perm.mem_iff.mp (merged.all small c edge v isLive)

/-- A later visit that changes nothing keeps a stable block stable. -/
theorem Stable.keep (stable : Stable f s c) (unchanged : (recomputeLiveOut f bb s).2 = false) :
    Stable f (recomputeLiveOut f bb s).1 c := by
  rcases recomputeLiveOut_cases f bb s with
    ⟨s₁, liveOut, merged, result | ⟨result, sameLength, subset⟩⟩
  · rw [result] at unchanged
    cases unchanged
  · rw [result]
    have sameOut : s₁.liveOut = s.liveOut := merged.sameOut
    have sameGen : s₁.liveGen = s.liveGen := merged.liveGen
    have sameKill : s₁.liveKill = s.liveKill := merged.liveKill
    have sameIn : ∀ d ∈ f.successors c, ∀ v, v ∈ s₁.liveIn d ↔ v ∈ s.liveIn d := by
      intro d edge v
      by_cases isSucc : d ∈ f.successors bb
      · rw [merged.liveIn d isSucc, stable.liveIn d edge]
      · rw [merged.others d isSucc]
    refine ⟨fun d edge v => ?_, fun v member => ?_, fun small d edge v isLive => ?_⟩
    · rw [sameOut, sameGen, sameKill, sameIn d edge]
      exact stable.liveIn d edge v
    · rw [sameOut] at member
      rcases stable.only v member with ⟨d, edge, isLive⟩
      exact ⟨d, edge, (sameIn d edge v).mpr isLive⟩
    · rw [sameOut] at small ⊢
      exact stable.all small d edge v ((sameIn d edge v).mp isLive)

/-- The blocks of a list linked from a block. -/
def State.From (s : State) (bb : BlockId) : BlockId → Prop :=
  Relation.ReflTransGen (fun bb succ => s.rpoRNext bb = some succ) bb

theorem sweep_iterating (prepared : Prepared f vars s₀) {cursor : Option BlockId}
    {changed changed' : Bool} (listed : ∀ bb, cursor = some bb → s₀.Listed f bb)
    (iterating : Iterating f vars s₀ s)
    (swept : sweep f fuel cursor (s, changed) = some (s', changed')) :
    Iterating f vars s₀ s' := by
  induction fuel generalizing s cursor changed with
  | zero =>
      cases cursor with
      | none =>
          cases swept
          exact iterating
      | some bb => cases swept
  | succ fuel inductionHypothesis =>
      cases cursor with
      | none =>
          cases swept
          exact iterating
      | some bb =>
          have next := iterating.recompute prepared (listed bb rfl)
          apply inductionHypothesis _ next swept
          intro c isNext
          exact (listed bb rfl).tail ((congrFun next.rpoRNext bb).symm.trans isNext)

/-- A pass that changes nothing leaves every block it visits stable. -/
theorem sweep_stable (prepared : Prepared f vars s₀) {cursor : Option BlockId} {changed : Bool}
    (listed : ∀ bb, cursor = some bb → s₀.Listed f bb) (iterating : Iterating f vars s₀ s)
    (swept : sweep f fuel cursor (s, changed) = some (s', false)) :
    changed = false ∧ (∀ c, Stable f s c → Stable f s' c) ∧
      ∀ bb, cursor = some bb → ∀ c, s₀.From bb c → Stable f s' c := by
  induction fuel generalizing s cursor changed with
  | zero =>
      cases cursor with
      | none =>
          cases swept
          exact ⟨rfl, fun _ stable => stable, by simp⟩
      | some bb => cases swept
  | succ fuel inductionHypothesis =>
      cases cursor with
      | none =>
          cases swept
          exact ⟨rfl, fun _ stable => stable, by simp⟩
      | some bb =>
          have next := iterating.recompute prepared (listed bb rfl)
          have listedNext : ∀ c, (recomputeLiveOut f bb s).1.rpoRNext bb = some c →
              s₀.Listed f c := by
            intro c isNext
            exact (listed bb rfl).tail ((congrFun next.rpoRNext bb).symm.trans isNext)
          rcases inductionHypothesis listedNext next swept with ⟨unchanged, keeps, rest⟩
          rw [Bool.or_eq_false_iff] at unchanged
          rcases unchanged with ⟨wasUnchanged, isUnchanged⟩
          refine ⟨wasUnchanged, fun c stable => keeps c (stable.keep isUnchanged), ?_⟩
          intro first isFirst c from_
          cases isFirst
          rcases from_.cases_head with rfl | ⟨d, isNext, from_⟩
          · exact keeps bb (recompute_stable isUnchanged)
          · rw [← next.rpoRNext] at isNext
            exact rest d isNext c from_

theorem iterate_spec (prepared : Prepared f vars s₀) {rounds : Nat}
    (iterating : Iterating f vars s₀ s) (ran : iterate f fuel rounds s = some s') :
    Iterating f vars s₀ s' ∧ ∀ bb, s₀.Listed f bb → Stable f s' bb := by
  induction rounds generalizing s with
  | zero => cases ran
  | succ rounds inductionHypothesis =>
      rw [iterate] at ran
      rcases Option.bind_eq_some_iff.mp ran with ⟨⟨s₁, changed⟩, swept, ran⟩
      have listed : ∀ bb, some f.exit = some bb → s₀.Listed f bb := by
        rintro bb ⟨⟩
        exact Relation.ReflTransGen.refl
      have next := sweep_iterating prepared listed iterating swept
      cases changed with
      | true => exact inductionHypothesis next ran
      | false =>
          cases ran
          rcases sweep_stable prepared listed iterating swept with ⟨-, -, stable⟩
          exact ⟨next, fun bb isListed => stable f.exit rfl bb isListed⟩

end Iteration

/-! ## The equations -/

/-- The lists satisfy the equations of liveness in the blocks that can be reached, and what
is read on a path before it is redefined is in the list of the block it starts from. -/
structure Func.Correct (f : Func) (vars : Vars) (s : State) : Prop where
  solves : Dataflow.Solves f.successors (fun bb v => v ∈ s.liveGen bb)
    (fun bb v => v ∈ s.liveKill bb) s.InSet s.OutSet f.Reachable
  read : ∀ bb, f.Reachable bb → ∀ path last v, IsPath f.successors bb (path ++ [last]) →
    (∀ c ∈ path, ¬ f.Kill c v) → f.Gen vars last v → v ∈ s.liveOut bb

/-- The blocks the iteration passes have room for what is live at their end; at the end of
the others nothing is live, nor at the beginning of those that are behind no block it
passes. -/
structure Func.Fits (f : Func) (s : State) : Prop where
  room : ∀ bb, f.Reachable bb → s.Listed f bb → ∀ live : List VarId, live.Nodup →
    (∀ v ∈ live, f.LiveOut s.vars bb v) → live.length ≤ maxAnalysisStackSize
  unlisted : ∀ bb, f.Reachable bb → ¬ s.Listed f bb → ∀ v, ¬ f.LiveOut s.vars bb v
  unread : ∀ bb, f.Reachable bb → (∀ pred, s.Listed f pred → bb ∉ f.successors pred) →
    ∀ v, ¬ f.LiveIn s.vars bb v

section Equations

variable {f : Func} {vars : Vars} {s s' s₀ : State} {bb : BlockId} {v : VarId} {fuel : Nat}

/-- The equations with the exposed and the redefined variables instead of the lists. -/
theorem Iterating.solves_iff (prepared : Prepared f vars s₀) (iterating : Iterating f vars s₀ s) :
    Dataflow.Solves f.successors (fun bb v => v ∈ s.liveGen bb) (fun bb v => v ∈ s.liveKill bb)
        s.InSet s.OutSet f.Reachable ↔
      Dataflow.Solves f.successors (f.Gen vars) f.Kill s.InSet s.OutSet f.Reachable := by
  have atStart : ∀ bb, f.Reachable bb → ∀ v, (s.InSet bb v ↔ v ∈ s.liveGen bb ∨
      s.OutSet bb v ∧ v ∉ s.liveKill bb) ↔
        (s.InSet bb v ↔ f.Gen vars bb v ∨ s.OutSet bb v ∧ ¬ f.Kill bb v) := by
    intro bb reachable v
    rw [iterating.liveGen, iterating.liveKill, prepared.gen bb reachable,
      prepared.kill bb reachable]
  constructor
  · intro solves
    exact ⟨solves.atEnd, fun bb reachable v =>
      (atStart bb reachable v).mp (solves.atStart bb reachable v)⟩
  · intro solves
    exact ⟨solves.atEnd, fun bb reachable v =>
      (atStart bb reachable v).mpr (solves.atStart bb reachable v)⟩

theorem Reachable.closed : ∀ bb, f.Reachable bb → ∀ c ∈ f.successors bb, f.Reachable c :=
  fun _ reachable _ edge => reachable.successor edge

theorem Iterating.correct_iff (prepared : Prepared f vars s₀)
    (iterating : Iterating f vars s₀ s) : f.Correct vars s ↔
      Dataflow.Solves f.successors (f.Gen vars) f.Kill s.InSet s.OutSet f.Reachable := by
  constructor
  · intro correct
    exact (iterating.solves_iff prepared).mp correct.solves
  · intro solves
    refine ⟨(iterating.solves_iff prepared).mpr solves, ?_⟩
    intro bb reachable path last v isPath spared exposed
    exact solves.liveAtEnd Reachable.closed reachable (liveAtEnd_of_path isPath spared exposed)

/-- What the iteration leaves behind. -/
theorem livenessAnalysis_spec (fresh : s.Fresh)
    (ran : livenessAnalysis f fuel s = some s') : ∃ s₀, Prepared f s.vars s₀ ∧
      s₀.rpoRNext = s.rpoRNext ∧ Iterating f s.vars s₀ s' ∧
        ∀ bb, s.Listed f bb → Stable f s' bb := by
  rcases Option.bind_eq_some_iff.mp ran with ⟨s₁, walked, iterated⟩
  rcases forward_prepared fresh walked with ⟨prepared, sameNext⟩
  rcases iterate_spec prepared prepared.iterating iterated with ⟨iterating, stable⟩
  refine ⟨_, prepared, sameNext, iterating, fun bb listed => stable bb ?_⟩
  rw [State.Listed, sameNext]
  exact listed

/-- Where an array was full, the block has all it has room for. -/
theorem Iterating.full (iterating : Iterating f vars s₀ s) (reachable : f.Reachable bb)
    (room : ∀ live : List VarId, live.Nodup → (∀ v ∈ live, f.LiveOut vars bb v) →
      live.length ≤ maxAnalysisStackSize)
    (full : ¬ (s.liveOut bb).length < maxAnalysisStackSize) (live : f.LiveOut vars bb v) :
    v ∈ s.liveOut bb := by
  by_contra missing
  have longer := room (v :: s.liveOut bb) (List.nodup_cons.mpr ⟨missing, iterating.nodup bb⟩)
    (by
      intro u member
      rcases List.mem_cons.mp member with rfl | member
      · exact live
      · exact iterating.below.atEnd bb reachable u member)
  rw [List.length_cons] at longer
  exact full longer

end Equations

/-! ## Two functions -/

/-- A variable is written in the entry and read in the exit. -/
def straightFunc : Func where
  bbs := 0
  exit := 1
  block
    | 0 => { insns := [{ opcode := .loadConstant, rd := some 0 }], next := some 1 }
    | 1 => { insns := [{ opcode := .return_, rs1 := some 0 }], prev := [0] }
    | _ => { insns := [] }

/-- Only one variable is exposed in a block of the first function. -/
theorem straightFunc_gen {vars : Vars} {bb : BlockId} {v : VarId}
    (exposed : straightFunc.Gen vars bb v) : bb = 1 ∧ v = 0 := by
  match bb, exposed with
  | 0, ⟨_, exposed⟩ => simp [straightFunc, Exposed, uses] at exposed
  | 1, ⟨_, exposed⟩ => simpa [straightFunc, Exposed, uses] using exposed
  | bb + 2, ⟨_, exposed⟩ => exact exposed.elim

theorem straightFunc_live {vars : Vars} {bb : BlockId} {v : VarId}
    (live : straightFunc.LiveIn vars bb v) : bb = 1 ∧ v = 0 := by
  induction live with
  | used exposed => exact straightFunc_gen exposed
  | @through bb c v edge _ spared inductionHypothesis =>
      rcases inductionHypothesis with ⟨rfl, rfl⟩
      match bb, edge, spared with
      | 0, _, spared =>
          exact (spared (Or.inl ⟨_, List.mem_cons_self, by simp [defines]⟩)).elim
      | 1, edge, _ => simp [Func.successors, straightFunc, Block.successors] at edge
      | bb + 2, edge, _ => simp [Func.successors, straightFunc, Block.successors] at edge

theorem initialState_fresh : initialState.Fresh :=
  ⟨fun _ => Nat.le_refl _, fun _ => rfl, fun _ => rfl, fun _ => rfl⟩

theorem straightFunc_fits {s : State} (linked : s.rpoRNext 1 = some 0) : straightFunc.Fits s := by
  have exitListed : s.Listed straightFunc 1 := Relation.ReflTransGen.refl
  have entryListed : s.Listed straightFunc 0 := exitListed.tail linked
  refine ⟨fun bb _ _ live nodup all => ?_, fun bb _ isUnlisted v live => ?_,
    fun bb _ noPred v live => ?_⟩
  · have subset : live ⊆ [0] := by
      intro v member
      rcases all v member with ⟨c, -, isLive⟩
      rw [(straightFunc_live isLive).2]
      exact List.mem_cons_self
    exact Nat.le_trans (List.subperm_of_subset nodup subset).length_le (by decide)
  · match bb, isUnlisted, live with
    | 0, isUnlisted, _ => exact isUnlisted entryListed
    | 1, isUnlisted, _ => exact isUnlisted exitListed
    | bb + 2, _, ⟨c, edge, _⟩ =>
        simp [Func.successors, straightFunc, Block.successors] at edge
  · rw [(straightFunc_live live).1] at noPred
    exact noPred 0 entryListed List.mem_cons_self

end Shecc.Ssa
