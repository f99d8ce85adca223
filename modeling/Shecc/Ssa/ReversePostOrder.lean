import Shecc.Ssa.Core
import Shecc.Traversal.Tour
import Mathlib.Data.List.Sort

/-!
# The reverse post order

Three traversals number the blocks as they are left, turn the numbers round, and insert the
blocks into a list sorted by number. All three are the same depth-first search, as long as no
block within reach was left out of an earlier traversal.
-/

namespace Shecc.Ssa

open Traversal

/-! ## Traversals as depth-first searches -/

/-- Every traversal so far went through every block within reach. -/
def State.Even (edges : BlockId → List BlockId) (root : BlockId) (s : State) : Prop :=
  ∀ bb, Traversal.Reaches edges root bb → s.visited bb = s.funcVisited

/-- The counts of the blocks tell those the search has entered. -/
structure Counting (edges : BlockId → List BlockId) (root : BlockId) (s : State)
    (t : Tour BlockId) : Prop where
  inside : ∀ bb ∈ t.entered, Traversal.Reaches edges root bb → s.visited bb = s.funcVisited
  outside : ∀ bb, bb ∉ t.entered → Traversal.Reaches edges root bb →
    s.visited bb + 1 = s.funcVisited

section Counting

variable {edges : BlockId → List BlockId} {root bb : BlockId} {s s' : State} {t : Tour BlockId}

theorem State.Even.counting (even : s.Even edges root) : Counting edges root s.nextPass {} where
  inside := fun _ member => (List.not_mem_nil member).elim
  outside := fun bb _ reaches => congrArg (· + 1) (even bb reaches)

theorem Counting.isDue_eq (counting : Counting edges root s t)
    (reaches : Traversal.Reaches edges root bb) :
    s.isDue bb = t.isDue bb := by
  rw [State.isDue, Tour.isDue, decide_eq_decide]
  constructor
  · intro isDue member
    have := counting.inside bb member reaches
    omega
  · intro fresh
    have := counting.outside bb fresh reaches
    omega

theorem Counting.enter (counting : Counting edges root s t)
    (reaches : Traversal.Reaches edges root bb)
    (fresh : bb ∉ t.entered) : Counting edges root (s.visit bb) (t.enter bb) := by
  constructor
  · intro other member reachesOther
    rcases List.mem_cons.mp member with rfl | isInside
    · exact (Function.update_self _ _ _).trans (counting.outside other fresh reaches)
    · have differ : other ≠ bb := fun same => fresh (same ▸ isInside)
      exact (Function.update_of_ne differ _ _).trans (counting.inside other isInside reachesOther)
  · intro other isOutside reachesOther
    rcases not_or.mp (fun member => isOutside (List.mem_cons.mpr member)) with ⟨differ, isOutside⟩
    show Function.update s.visited bb _ other + 1 = s.funcVisited
    rw [Function.update_of_ne differ]
    exact counting.outside other isOutside reachesOther

/-- The callbacks leave the counts alone. -/
theorem Counting.keep (counting : Counting edges root s t) (visited : s'.visited = s.visited)
    (funcVisited : s'.funcVisited = s.funcVisited) : Counting edges root s' t where
  inside := by
    rw [visited, funcVisited]
    exact counting.inside
  outside := by
    rw [visited, funcVisited]
    exact counting.outside

theorem Counting.even (counting : Counting edges root s t) (toured : Toured edges root t) :
    s.Even edges root := fun bb reaches =>
  counting.inside bb (toured.touring.mem_entered_iff.mpr
    (Or.inr (toured.mem_left_iff.mpr reaches))) reaches

/-- What a callback behind the children of a block does to a relation of the state and the
search. -/
def Leaves (edges : BlockId → List BlockId) (root : BlockId) (postorderCb : Callback)
    (holds : State → Tour BlockId → Prop) : Prop :=
  ∀ bb stack s t, Touring edges root (bb :: stack) t → edges bb ⊆ t.entered → holds s t →
    ∃ s', postorderCb bb s = some s' ∧ holds s' (t.leave bb) ∧ s'.visited = s.visited ∧
      s'.funcVisited = s.funcVisited

/-- A traversal with a callback behind the children is a depth-first search. -/
theorem traversal_tours {postorderCb : Callback} {holds : State → Tour BlockId → Prop}
    {blocks : List BlockId} {fuel : Nat}
    (visits : ∀ bb s t, holds s t → holds (s.visit bb) (t.enter bb))
    (leaves : Leaves edges root postorderCb holds)
    (finite : ∀ bb, Traversal.Reaches edges root bb → bb ∈ blocks) (enough : blocks.length < fuel)
    (even : s.Even edges root) (related : holds s.nextPass {}) :
    ∃ t s', tour edges fuel root {} = some t ∧
      walk edges State.isDue (fun bb s => noCallback bb (s.visit bb)) postorderCb fuel root
        s.nextPass = some s' ∧ holds s' t ∧ s'.Even edges root ∧ Toured edges root t := by
  have follows : Follows edges root State.isDue (fun bb s => noCallback bb (s.visit bb))
      postorderCb (fun s t => Counting edges root s t ∧ holds s t) := by
    constructor
    · intro bb s t reaches related
      exact Or.inl (related.1.isDue_eq reaches)
    · intro bb stack s t _ route fresh related
      exact ⟨s.visit bb, rfl, related.1.enter route.reaches fresh, visits bb s t related.2⟩
    · intro bb stack s t touring all related
      rcases leaves bb stack s t touring all related.2 with ⟨s', ran, holds', visited, funcVisited⟩
      have counting := related.1.keep visited funcVisited
      exact ⟨s', ran, ⟨counting.inside, counting.outside⟩, holds'⟩
  rcases walk_follows_root follows finite ⟨even.counting, related⟩ enough with
    ⟨t, s', searched, walked, related', toured⟩
  exact ⟨t, s', searched, walked, related'.2, related'.1.even toured, toured⟩

end Counting

/-! ## The callbacks -/

/-- `bb_index_rpo`. -/
def bbIndexRpo : Callback := fun bb s =>
  some { s with rpo := Function.update s.rpo bb s.bbCnt, bbCnt := s.bbCnt + 1 }

/-- `bb_reverse_index`. -/
def bbReverseIndex : Callback := fun bb s =>
  some { s with rpo := Function.update s.rpo bb (s.bbCnt - s.rpo bb) }

/-- `prev->rpo_next = bb`. -/
def State.linkRpo (s : State) (prev bb : BlockId) : State :=
  { s with rpoNext := Function.update s.rpoNext prev (some bb) }

/-- The loop of `bb_build_rpo`. -/
def insertRpo (bb : BlockId) : Nat → BlockId → State → Option State
  | 0, _, _ => none
  | fuel + 1, prev, s =>
      match s.rpoNext prev with
      | none => some (s.linkRpo prev bb)
      | some curr =>
          if s.rpo curr < s.rpo bb then insertRpo bb fuel curr s
          else some ((s.linkRpo bb curr).linkRpo prev bb)

/-- `bb_build_rpo`. -/
def bbBuildRpo (f : Func) (fuel : Nat) : Callback := fun bb s =>
  if f.bbs = bb then some s else insertRpo bb fuel f.bbs s

/-- `build_rpo` for a function. -/
def buildRpo (f : Func) (fuel : Nat) (s : State) : Option State := do
  let s ← bbForwardTraversal f noCallback bbIndexRpo fuel f.bbs s.nextPass
  let s ← bbForwardTraversal f noCallback bbReverseIndex fuel f.bbs s.nextPass
  bbForwardTraversal f noCallback (bbBuildRpo f fuel) fuel f.bbs s.nextPass

/-- `bb_build_rpo` behind any block. -/
def insertRpoFrom (root : BlockId) (fuel : Nat) : Callback := fun bb s =>
  if root = bb then some s else insertRpo bb fuel root s

/-- A traversal along any edges, with a callback behind the children. -/
def postorderWalk (edges : BlockId → List BlockId) (postorderCb : Callback) :
    Nat → BlockId → State → Option State :=
  walk edges State.isDue (fun bb s => noCallback bb (s.visit bb)) postorderCb

/-- The three traversals of `build_rpo` along any edges. -/
def rpoPasses (edges : BlockId → List BlockId) (root : BlockId) (fuel : Nat) (s : State) :
    Option State := do
  let s ← postorderWalk edges bbIndexRpo fuel root s
  let s ← postorderWalk edges bbReverseIndex fuel root s.nextPass
  postorderWalk edges (insertRpoFrom root fuel) fuel root s.nextPass

theorem buildRpo_eq_rpoPasses (f : Func) (fuel : Nat) (s : State) :
    buildRpo f fuel s = rpoPasses f.successors f.bbs fuel s.nextPass := rfl

/-! ## Sorted insertion -/

/-- The blocks behind a block are those of the list, one linked to the next. -/
def Links (next : BlockId → Option BlockId) : BlockId → List BlockId → Prop
  | prev, [] => next prev = none
  | prev, bb :: rest => next prev = some bb ∧ Links next bb rest

section Insertion

variable {next next' : BlockId → Option BlockId} {prev bb : BlockId} {list : List BlockId}
  {s : State} {fuel : Nat}

theorem Links.congr (links : Links next prev list)
    (same : ∀ other ∈ prev :: list, next' other = next other) : Links next' prev list := by
  induction list generalizing prev with
  | nil => exact (same prev List.mem_cons_self).trans links
  | cons bb rest inductionHypothesis =>
      exact ⟨(same prev List.mem_cons_self).trans links.1, inductionHypothesis links.2
        fun other member => same other (List.mem_cons_of_mem prev member)⟩

/-- The list is where the block goes into it, and only links change. -/
theorem insertRpo_links (links : Links s.rpoNext prev list) (nodup : (prev :: list).Nodup)
    (fresh : bb ∉ prev :: list) (unlinked : s.rpoNext bb = none)
    (enough : list.length < fuel) :
    ∃ next', insertRpo bb fuel prev s = some { s with rpoNext := next' } ∧
      Links next' prev (list.orderedInsert (fun b c => s.rpo b ≤ s.rpo c) bb) ∧
      ∀ other, other ∉ bb :: prev :: list → next' other = s.rpoNext other := by
  induction list generalizing prev fuel with
  | nil =>
      cases fuel with
      | zero => cases enough
      | succ fuel =>
          have isNext : s.rpoNext prev = none := links
          have differ : bb ≠ prev := fun same => fresh (same ▸ List.mem_cons_self)
          refine ⟨Function.update s.rpoNext prev (some bb), ?_, ⟨Function.update_self _ _ _, ?_⟩, ?_⟩
          · rw [insertRpo, isNext]
            rfl
          · exact (Function.update_of_ne differ _ _).trans unlinked
          · intro other isOther
            apply Function.update_of_ne
            rintro rfl
            exact isOther (List.mem_cons_of_mem bb List.mem_cons_self)
  | cons curr rest inductionHypothesis =>
      cases fuel with
      | zero => cases enough
      | succ fuel =>
          rcases List.nodup_cons.mp nodup with ⟨notBehind, nodup'⟩
          rcases not_or.mp (fun member => fresh (List.mem_cons.mpr member)) with
            ⟨differ, freshBehind⟩
          rw [insertRpo, links.1]
          by_cases before : s.rpo curr < s.rpo bb
          · rcases inductionHypothesis links.2 nodup' freshBehind
              (Nat.lt_of_succ_lt_succ enough) with ⟨next', inserted, links', same⟩
            refine ⟨next', (if_pos before).trans inserted, ?_, ?_⟩
            · rw [List.orderedInsert_cons, if_neg (Int.not_le.mpr before)]
              refine ⟨(same prev ?_).trans links.1, links'⟩
              intro member
              rcases List.mem_cons.mp member with same | member
              · exact differ same.symm
              · exact notBehind member
            · intro other isOther
              apply same other
              intro member
              apply isOther
              rcases List.mem_cons.mp member with isBb | member
              · exact isBb ▸ List.mem_cons_self
              · exact List.mem_cons_of_mem bb (List.mem_cons_of_mem prev member)
          · refine ⟨Function.update (Function.update s.rpoNext bb (some curr)) prev (some bb),
              if_neg before, ?_, ?_⟩
            · rw [List.orderedInsert_cons, if_pos (Int.not_lt.mp before)]
              refine ⟨Function.update_self _ _ _, ?_, ?_⟩
              · rw [Function.update_of_ne differ, Function.update_self]
              · apply links.2.congr
                intro other member
                have notPrev : other ≠ prev := fun same => notBehind (same ▸ member)
                have notBb : other ≠ bb := fun same => freshBehind (same ▸ member)
                rw [Function.update_of_ne notPrev, Function.update_of_ne notBb]
            · intro other isOther
              have notPrev : other ≠ prev := fun same =>
                isOther (same ▸ List.mem_cons_of_mem bb List.mem_cons_self)
              have notBb : other ≠ bb := fun same => isOther (same ▸ List.mem_cons_self)
              rw [Function.update_of_ne notPrev, Function.update_of_ne notBb]

end Insertion

/-! ## Numbers -/

/-- The number of a block is its place in the list, counted from one. -/
def Numbering (rpo : BlockId → Int) (list : List BlockId) : Prop :=
  ∀ front bb back, list = front ++ bb :: back → rpo bb = front.length + 1

namespace Numbering

variable {rpo : BlockId → Int} {list : List BlockId} {b c : BlockId}

theorem lt_of_sublist (numbering : Numbering rpo list) (before : [b, c].Sublist list) :
    rpo b < rpo c := by
  rcases List.cons_sublist_iff.mp before with ⟨front, back, rfl, inFront, inBack⟩
  rcases List.append_of_mem inFront with ⟨front₁, front₂, rfl⟩
  rcases List.append_of_mem (List.singleton_sublist.mp inBack) with ⟨back₁, back₂, rfl⟩
  have first := numbering front₁ b (front₂ ++ back₁ ++ c :: back₂) (by simp)
  have second := numbering (front₁ ++ b :: front₂ ++ back₁) c back₂ (by simp)
  simp only [List.length_append, List.length_cons] at second
  omega

theorem pairwise (numbering : Numbering rpo list) : list.Pairwise fun b c => rpo b < rpo c :=
  List.pairwise_iff_forall_sublist.mpr numbering.lt_of_sublist

theorem injective (numbering : Numbering rpo list) (memberB : b ∈ list) (memberC : c ∈ list)
    (same : rpo b = rpo c) : b = c := by
  by_contra differ
  rcases pair_sublist_or memberB memberC (Ne.symm differ) with before | before
  · exact Int.ne_of_lt (numbering.lt_of_sublist before) same
  · exact Int.ne_of_lt (numbering.lt_of_sublist before) same.symm

theorem getElem (numbering : Numbering rpo list) (i : Nat) (inside : i < list.length) :
    rpo list[i] = i + 1 := by
  have split : list = list.take i ++ list[i] :: list.drop (i + 1) := by
    rw [List.getElem_cons_drop, List.take_append_drop]
  rw [numbering _ _ _ split, List.length_take_of_le (Nat.le_of_lt inside)]

end Numbering

/-- Only the numbers, the links and the counts are written. -/
def State.Renumbers (s₀ s : State) : Prop :=
  { s with visited := s₀.visited, funcVisited := s₀.funcVisited, bbCnt := s₀.bbCnt,
           rpo := s₀.rpo, rpoNext := s₀.rpoNext } = s₀

theorem State.Renumbers.links {s₀ s : State} (renumbers : s₀.Renumbers s) :
    s.idom = s₀.idom ∧ s.domNext = s₀.domNext ∧ s.domPrev = s₀.domPrev ∧ s.df = s₀.df := by
  rw [State.Renumbers] at renumbers
  have idom := congrArg State.idom renumbers
  have domNext := congrArg State.domNext renumbers
  have domPrev := congrArg State.domPrev renumbers
  have df := congrArg State.df renumbers
  exact ⟨idom, domNext, domPrev, df⟩

/-! ## The three passes -/

/-- The first pass numbers the blocks as they are left. -/
structure Indexed (s₀ s : State) (t : Tour BlockId) : Prop where
  bbCnt : s.bbCnt = s₀.bbCnt + t.left.length
  rpoNext : s.rpoNext = s₀.rpoNext
  number : ∀ front bb back, t.left = front ++ bb :: back → s.rpo bb = s₀.bbCnt + back.length
  renumbers : s₀.Renumbers s

/-- The second turns the numbers of the blocks it leaves round. -/
structure Reversed (s₀ : State) (whole : Tour BlockId) (s : State) (t : Tour BlockId) : Prop where
  bbCnt : s.bbCnt = s₀.bbCnt + whole.left.length
  rpoNext : s.rpoNext = s₀.rpoNext
  number : ∀ front bb back, whole.left = front ++ bb :: back →
    s.rpo bb = if bb ∈ t.left then (front.length + 1 : Int) else s₀.bbCnt + back.length
  renumbers : s₀.Renumbers s

/-- The third inserts the blocks it leaves. -/
structure Inserted (root : BlockId) (s₀ : State) (whole : Tour BlockId) (s : State)
    (t : Tour BlockId) : Prop where
  number : Numbering s.rpo whole.left
  list : ∃ list, Links s.rpoNext root list ∧
    list.Perm (t.left.filter fun bb => bb ≠ root) ∧
    list.Pairwise (fun b c => s.rpo b ≤ s.rpo c) ∧
    ∀ other, other ∉ root :: list → s.rpoNext other = none
  renumbers : s₀.Renumbers s

section Passes

variable {edges : BlockId → List BlockId} {root : BlockId} {s₀ : State} {whole : Tour BlockId}
  {blocks : List BlockId} {fuel : Nat}

theorem bbIndexRpo_leaves : Leaves edges root bbIndexRpo (Indexed s₀) := by
  intro bb stack s t touring _ indexed
  refine ⟨_, rfl, ⟨?_, indexed.rpoNext, ?_, indexed.renumbers⟩, rfl, rfl⟩
  · show s.bbCnt + 1 = s₀.bbCnt + (t.left.length + 1)
    rw [indexed.bbCnt, Nat.add_assoc]
  · intro front other back isLeft
    cases front with
    | nil =>
        cases isLeft
        refine (Function.update_self _ _ _).trans ?_
        rw [indexed.bbCnt]
        exact Int.natCast_add _ _
    | cons first front =>
        rcases List.cons_eq_cons.mp isLeft with ⟨rfl, wasLeft⟩
        have differ : other ≠ bb := by
          rintro rfl
          apply touring.notLeft
          rw [wasLeft]
          exact List.mem_append_right front List.mem_cons_self
        exact (Function.update_of_ne differ _ _).trans (indexed.number front other back wasLeft)

theorem bbReverseIndex_leaves : Leaves edges root bbReverseIndex (Reversed s₀ whole) := by
  intro bb stack s t touring _ reversed
  refine ⟨_, rfl, ⟨reversed.bbCnt, reversed.rpoNext, ?_, reversed.renumbers⟩, rfl, rfl⟩
  intro front other back isWhole
  have before := reversed.number front other back isWhole
  by_cases same : other = bb
  · subst same
    rw [if_neg touring.notLeft] at before
    refine (Function.update_self _ _ _).trans ?_
    rw [if_pos (show other ∈ (t.leave other).left from List.mem_cons_self), before, reversed.bbCnt,
      isWhole, List.length_append, List.length_cons]
    omega
  · have isLeft : other ∈ bb :: t.left ↔ other ∈ t.left := by
      rw [List.mem_cons, or_iff_right same]
    refine (Function.update_of_ne same _ _).trans (before.trans ?_)
    exact if_congr isLeft.symm rfl rfl

theorem insertRpoFrom_leaves (finite : ∀ bb, Traversal.Reaches edges root bb → bb ∈ blocks)
    (enough : blocks.length < fuel) :
    Leaves edges root (insertRpoFrom root fuel) (Inserted root s₀ whole) := by
  intro bb stack s t touring _ inserted
  rcases inserted.list with ⟨list, links, perm, sorted, others⟩
  by_cases isRoot : root = bb
  · refine ⟨s, if_pos isRoot, ⟨inserted.number, ⟨list, links, ?_, sorted, others⟩,
      inserted.renumbers⟩, rfl, rfl⟩
    rw [Tour.leave, List.filter_cons_of_neg (by simp [isRoot])]
    exact perm
  · have notRoot : root ∉ list := by
      rw [perm.mem_iff, List.mem_filter]
      simp
    have nodup : list.Nodup := by
      rw [perm.nodup_iff]
      exact (List.nodup_append.mp touring.nodup_append).2.1.filter _
    have notIn : bb ∉ root :: list := by
      intro member
      rcases List.mem_cons.mp member with same | member
      · exact isRoot same.symm
      · exact touring.notLeft (List.mem_of_mem_filter (perm.mem_iff.mp member))
    have short : list.length < fuel := by
      have := touring.length_le finite
      have := touring.perm.length_eq
      have := perm.length_eq
      have := List.length_filter_le (fun bb => decide (bb ≠ root)) t.left
      simp only [List.length_append, List.length_cons] at *
      omega
    rcases insertRpo_links links (List.nodup_cons.mpr ⟨notRoot, nodup⟩) notIn (others bb notIn)
      short with ⟨next', ran, links', same⟩
    refine ⟨_, (if_neg isRoot).trans ran, ⟨inserted.number,
      ⟨_, links', ?_, ?_, ?_⟩, inserted.renumbers⟩, rfl, rfl⟩
    · rw [Tour.leave, List.filter_cons_of_pos (by simpa using Ne.symm isRoot)]
      exact (List.perm_orderedInsert _ bb list).trans (perm.cons bb)
    · have total : Std.Total fun b c => s.rpo b ≤ s.rpo c := ⟨fun b c => Int.le_total _ _⟩
      have trans : IsTrans BlockId fun b c => s.rpo b ≤ s.rpo c := ⟨fun _ _ _ => Int.le_trans⟩
      exact sorted.orderedInsert bb list
    · intro other isOther
      have notOther : other ∉ bb :: root :: list := by
        intro member
        apply isOther
        rcases List.mem_cons.mp member with same | member
        · exact List.mem_cons_of_mem _ ((List.mem_orderedInsert _).mpr (Or.inl same))
        · rcases List.mem_cons.mp member with same | member
          · exact same ▸ List.mem_cons_self
          · exact List.mem_cons_of_mem _ ((List.mem_orderedInsert _).mpr (Or.inr member))
      exact (same other notOther).trans
        (others other fun member => notOther (List.mem_cons_of_mem bb member))

end Passes

/-! ## The whole of it -/

/-- What `build_rpo` starts from: no block within reach was left out of an earlier traversal, and
none is linked. -/
structure State.Unnumbered (f : Func) (s : State) : Prop where
  even : s.Even f.successors f.bbs
  unlinked : ∀ bb, s.rpoNext bb = none

/-- The blocks are numbered and linked in the order opposite to that in which a search along any
edges leaves them. -/
structure NumberedFrom (edges : BlockId → List BlockId) (root : BlockId) (t : Tour BlockId)
    (s : State) : Prop where
  toured : Toured edges root t
  links : Links s.rpoNext root t.left.tail
  number : Numbering s.rpo t.left

/-- The blocks are numbered and linked in the order opposite to that in which the search leaves
them. -/
abbrev Numbered (f : Func) (t : Tour BlockId) (s : State) : Prop :=
  NumberedFrom f.successors f.bbs t s

section Build

variable {edges : BlockId → List BlockId} {root : BlockId} {f : Func} {s : State}
  {blocks : List BlockId} {fuel : Nat}

/-- What the third pass leaves behind. -/
theorem Inserted.numbered {t : Tour BlockId} {s₀ : State} (inserted : Inserted root s₀ t s t)
    (toured : Toured edges root t) : NumberedFrom edges root t s := by
  refine ⟨toured, ?_, inserted.number⟩
  rcases inserted.list with ⟨list, links, perm, sorted, -⟩
  rcases toured.last with ⟨rest, last⟩
  have nodup := toured.nodup
  have increasing := inserted.number.pairwise
  rw [last] at nodup increasing
  have isRest : t.left.filter (fun bb => bb ≠ root) = rest := by
    rw [last, List.filter_cons_of_neg (by simp)]
    apply List.filter_eq_self.mpr
    intro bb member
    apply decide_eq_true
    rintro rfl
    exact (List.nodup_cons.mp nodup).1 member
  rw [isRest] at perm
  have same : list = rest := by
    apply List.Perm.eq_of_pairwise _ sorted _ perm
    · intro b c memberB memberC le ge
      have memberB : b ∈ t.left := last ▸ List.mem_cons_of_mem _ (perm.mem_iff.mp memberB)
      have memberC : c ∈ t.left := last ▸ List.mem_cons_of_mem _ memberC
      exact inserted.number.injective memberB memberC (Int.le_antisymm le ge)
    · exact (List.pairwise_cons.mp increasing).2.imp Int.le_of_lt
  rw [last, List.tail_cons, ← same]
  exact links

/-- The three traversals end, and number and link the blocks within reach. -/
theorem rpoPasses_numbered (finite : ∀ bb, Traversal.Reaches edges root bb → bb ∈ blocks)
    (enough : blocks.length < fuel) (even : s.Even edges root)
    (unlinked : ∀ bb, s.rpoNext bb = none) :
    ∃ t s', tour edges fuel root {} = some t ∧ rpoPasses edges root fuel s.nextPass = some s' ∧
      NumberedFrom edges root t s' ∧ s'.Even edges root ∧ s.Renumbers s' := by
  have noneLeft : ∀ {P : Prop} {front bb back}, ([] : List BlockId) = front ++ bb :: back → P :=
    fun isNil => (List.append_ne_nil_of_right_ne_nil _ (List.cons_ne_nil _ _) isNil.symm).elim
  rcases traversal_tours (fun bb s t indexed => ⟨indexed.1, indexed.2, indexed.3, indexed.4⟩)
    bbIndexRpo_leaves finite enough even
    (show Indexed s s.nextPass {} from ⟨rfl, rfl, fun _ _ _ => noneLeft, rfl⟩) with
    ⟨t, s₁, searched, walked₁, indexed, even₁, toured⟩
  rcases traversal_tours (fun bb s t reversed => ⟨reversed.1, reversed.2, reversed.3, reversed.4⟩)
    bbReverseIndex_leaves finite enough even₁
    (show Reversed s t s₁.nextPass {} from ⟨indexed.bbCnt, indexed.rpoNext, fun front bb back split =>
      (indexed.number front bb back split).trans (if_neg List.not_mem_nil).symm,
      indexed.renumbers⟩) with
    ⟨t₂, s₂, searched₂, walked₂, reversed, even₂, -⟩
  cases searched.symm.trans searched₂
  have numbering : Numbering s₂.rpo t.left := by
    intro front bb back split
    refine (reversed.number front bb back split).trans (if_pos ?_)
    exact split ▸ List.mem_append_right front List.mem_cons_self
  have unlinked₂ : ∀ bb, s₂.rpoNext bb = none := by
    rw [reversed.rpoNext]
    exact unlinked
  rcases traversal_tours (fun bb s t inserted => ⟨inserted.1, inserted.2, inserted.3⟩)
    (insertRpoFrom_leaves finite enough) finite enough even₂
    (show Inserted root s t s₂.nextPass {} from ⟨numbering, ⟨[], unlinked₂ root,
      List.Perm.refl _, List.Pairwise.nil, fun other _ => unlinked₂ other⟩,
      reversed.renumbers⟩) with
    ⟨t₃, s₃, searched₃, walked₃, inserted, even₃, -⟩
  cases searched.symm.trans searched₃
  refine ⟨t, s₃, searched, ?_, inserted.numbered toured, even₃, inserted.renumbers⟩
  exact Option.bind_eq_some_iff.mpr ⟨s₁, walked₁, Option.bind_eq_some_iff.mpr ⟨s₂, walked₂, walked₃⟩⟩

/-- `build_rpo` ends, and numbers and links the blocks within reach. -/
theorem buildRpo_numbered (finite : ∀ bb, f.Reachable bb → bb ∈ blocks)
    (enough : blocks.length < fuel) (unnumbered : s.Unnumbered f) :
    ∃ t s', tour f.successors fuel f.bbs {} = some t ∧ buildRpo f fuel s = some s' ∧
      Numbered f t s' ∧ s'.Even f.successors f.bbs ∧ s.Renumbers s' := by
  rw [buildRpo_eq_rpoPasses]
  exact rpoPasses_numbered finite enough unnumbered.even unnumbered.unlinked

end Build

namespace NumberedFrom

variable {edges : BlockId → List BlockId} {root : BlockId} {s : State} {t : Tour BlockId}
  {b c : BlockId}

theorem left_eq (numbered : NumberedFrom edges root t s) : t.left = root :: t.left.tail := by
  rcases numbered.toured.last with ⟨rest, last⟩
  rw [last, List.tail_cons]

theorem mem_iff (numbered : NumberedFrom edges root t s) :
    b ∈ t.left ↔ Traversal.Reaches edges root b :=
  numbered.toured.mem_left_iff

/-- Blocks within reach have different numbers. -/
theorem injective (numbered : NumberedFrom edges root t s)
    (reachesB : Traversal.Reaches edges root b)
    (reachesC : Traversal.Reaches edges root c) (same : s.rpo b = s.rpo c) : b = c :=
  numbered.number.injective (numbered.mem_iff.mpr reachesB) (numbered.mem_iff.mpr reachesC) same

/-- Every other block than the root has an edge to it from one with a lower number. -/
theorem parent (numbered : NumberedFrom edges root t s) (reaches : Traversal.Reaches edges root b)
    (differ : b ≠ root) :
    ∃ p, Traversal.Reaches edges root p ∧ b ∈ edges p ∧ s.rpo p < s.rpo b := by
  rcases numbered.toured.parent reaches differ with ⟨p, edge, later⟩
  exact ⟨p, numbered.mem_iff.mp (later.subset List.mem_cons_self), edge,
    numbered.number.lt_of_sublist later⟩

end NumberedFrom

/-- The list linked from the entry has every block within reach once, the numbers count its blocks,
and an edge that is not a back edge of the search leads to a higher number. -/
theorem buildRpo_reversePostOrder {f : Func} {s : State} {blocks : List BlockId} {fuel : Nat}
    (finite : ∀ bb, f.Reachable bb → bb ∈ blocks) (enough : blocks.length < fuel)
    (unnumbered : s.Unnumbered f) :
    ∃ s' t list, buildRpo f fuel s = some s' ∧ tour f.successors fuel f.bbs {} = some t ∧
      Links s'.rpoNext f.bbs list ∧ (f.bbs :: list).Nodup ∧
      (∀ bb, bb ∈ f.bbs :: list ↔ f.Reachable bb) ∧
      (∀ (i : Nat) (inside : i < (f.bbs :: list).length), s'.rpo (f.bbs :: list)[i] = i + 1) ∧
      ∀ bb succ, f.Reachable bb → succ ∈ f.successors bb → ¬ t.BackEdge bb succ →
        s'.rpo bb < s'.rpo succ := by
  rcases buildRpo_numbered finite enough unnumbered with ⟨t, s', searched, built, numbered, -, -⟩
  refine ⟨s', t, t.left.tail, built, searched, numbered.links, ?_⟩
  rw [← numbered.left_eq]
  refine ⟨numbered.toured.nodup, fun bb => numbered.mem_iff, numbered.number.getElem, ?_⟩
  intro bb succ reachable edge notBack
  rcases numbered.toured.edge reachable edge with before | isBack
  · exact numbered.number.lt_of_sublist before
  · exact (notBack isBack).elim

/-- A loop with two ways in. -/
def loopFunc : Func where
  bbs := 0
  exit := 3
  block
    | 0 => { insns := [], then_ := some 1, else_ := some 2 }
    | 1 => { insns := [], next := some 2, prev := [0, 2] }
    | 2 => { insns := [], then_ := some 1, else_ := some 3, prev := [0, 1] }
    | 3 => { insns := [], prev := [2] }
    | _ => { insns := [] }

theorem loopFunc_blocks (bb : BlockId) (reachable : loopFunc.Reachable bb) :
    bb ∈ [0, 1, 2, 3] := by
  induction reachable with
  | refl => exact List.mem_cons_self
  | @tail p bb _ edge inductionHypothesis =>
      have toEdges : ∀ p ∈ [0, 1, 2, 3], ∀ c ∈ loopFunc.successors p, c ∈ [0, 1, 2, 3] := by decide
      exact toEdges p inductionHypothesis bb edge

theorem initialState_unnumbered (f : Func) : initialState.Unnumbered f :=
  ⟨fun _ _ => rfl, fun _ => rfl⟩

/-- The blocks of the loop are in the list. -/
theorem loopFunc_reversePostOrder : ∃ s' t list, buildRpo loopFunc 5 initialState = some s' ∧
    tour loopFunc.successors 5 loopFunc.bbs {} = some t ∧
    Links s'.rpoNext loopFunc.bbs list ∧ (loopFunc.bbs :: list).Nodup ∧
    (∀ bb, bb ∈ loopFunc.bbs :: list ↔ loopFunc.Reachable bb) ∧
    (∀ (i : Nat) (inside : i < (loopFunc.bbs :: list).length),
      s'.rpo (loopFunc.bbs :: list)[i] = i + 1) ∧
    ∀ bb succ, loopFunc.Reachable bb → succ ∈ loopFunc.successors bb → ¬ t.BackEdge bb succ →
      s'.rpo bb < s'.rpo succ :=
  buildRpo_reversePostOrder loopFunc_blocks (by decide) (initialState_unnumbered loopFunc)

end Shecc.Ssa
