import Mathlib.Data.List.Chain
import Mathlib.Data.List.Nodup

/-!
# Liveness

A graph of blocks, each with the variables it uses before it kills them and those it kills.
A variable is live where a path leads to a use without passing a block that kills it. The
sets of live variables are the smallest that satisfy the equations of a backward analysis, so
sets between the two satisfy them only if they are the sets of live variables.
-/

namespace Shecc.Dataflow

variable {β ν : Type}

/-- The variable is used on a path from the beginning of the block before it is killed. -/
inductive LiveAtStart (succs : β → List β) (gen kill : β → ν → Prop) : β → ν → Prop
  | used {b : β} {v : ν} : gen b v → LiveAtStart succs gen kill b v
  | through {b c : β} {v : ν} : c ∈ succs b → LiveAtStart succs gen kill c v → ¬ kill b v →
      LiveAtStart succs gen kill b v

/-- The variable is live at the beginning of a successor. -/
def LiveAtEnd (succs : β → List β) (gen kill : β → ν → Prop) (b : β) (v : ν) : Prop :=
  ∃ c ∈ succs b, LiveAtStart succs gen kill c v

/-- The equations hold for the blocks. -/
structure Solves (succs : β → List β) (gen kill liveIn liveOut : β → ν → Prop)
    (blocks : β → Prop) : Prop where
  atEnd : ∀ b, blocks b → ∀ v, liveOut b v ↔ ∃ c ∈ succs b, liveIn c v
  atStart : ∀ b, blocks b → ∀ v, liveIn b v ↔ gen b v ∨ liveOut b v ∧ ¬ kill b v

/-- Only live variables are in the sets. -/
structure Below (succs : β → List β) (gen kill liveIn liveOut : β → ν → Prop)
    (blocks : β → Prop) : Prop where
  atEnd : ∀ b, blocks b → ∀ v, liveOut b v → LiveAtEnd succs gen kill b v
  atStart : ∀ b, blocks b → ∀ v, liveIn b v → LiveAtStart succs gen kill b v

/-- The blocks of a path from the end of a block, each behind one before it. -/
def IsPath (succs : β → List β) (b : β) (path : List β) : Prop :=
  List.IsChain (fun c d => d ∈ succs c) (b :: path)

section Live

variable {succs : β → List β} {gen kill liveIn liveOut : β → ν → Prop} {blocks : β → Prop}
  {b c : β} {v : ν}

theorem LiveAtStart.of_atEnd (live : LiveAtEnd succs gen kill b v) (spared : ¬ kill b v) :
    LiveAtStart succs gen kill b v := by
  rcases live with ⟨c, edge, live⟩
  exact LiveAtStart.through edge live spared

theorem liveAtStart_iff : LiveAtStart succs gen kill b v ↔
    gen b v ∨ LiveAtEnd succs gen kill b v ∧ ¬ kill b v := by
  constructor
  · rintro (used | ⟨edge, live, spared⟩)
    · exact Or.inl used
    · exact Or.inr ⟨⟨_, edge, live⟩, spared⟩
  · rintro (used | ⟨live, spared⟩)
    · exact LiveAtStart.used used
    · exact LiveAtStart.of_atEnd live spared

/-- A variable is live at the end of a block if a path from there leads to a use and every
block it passes spares the variable. -/
theorem liveAtEnd_of_path {path : List β} (isPath : IsPath succs b (path ++ [c]))
    (spared : ∀ d ∈ path, ¬ kill d v) (used : gen c v) : LiveAtEnd succs gen kill b v := by
  induction path generalizing b with
  | nil =>
      rcases List.isChain_cons_cons.mp isPath with ⟨edge, -⟩
      exact ⟨c, edge, LiveAtStart.used used⟩
  | cons d rest inductionHypothesis =>
      rcases List.isChain_cons_cons.mp isPath with ⟨edge, isPath⟩
      have live := inductionHypothesis isPath
        (fun e member => spared e (List.mem_cons_of_mem d member))
      exact ⟨d, edge, LiveAtStart.of_atEnd live (spared d List.mem_cons_self)⟩

/-- The live variables are in every solution. -/
theorem Solves.live (solves : Solves succs gen kill liveIn liveOut blocks)
    (closed : ∀ b, blocks b → ∀ c ∈ succs b, blocks c) (inside : blocks b)
    (live : LiveAtStart succs gen kill b v) : liveIn b v := by
  induction live with
  | used used => exact (solves.atStart _ inside _).mpr (Or.inl used)
  | @through b c v edge _ spared inductionHypothesis =>
      have atEnd := (solves.atEnd b inside v).mpr
        ⟨c, edge, inductionHypothesis (closed b inside c edge)⟩
      exact (solves.atStart b inside v).mpr (Or.inr ⟨atEnd, spared⟩)

theorem Solves.liveAtEnd (solves : Solves succs gen kill liveIn liveOut blocks)
    (closed : ∀ b, blocks b → ∀ c ∈ succs b, blocks c) (inside : blocks b)
    (live : LiveAtEnd succs gen kill b v) : liveOut b v := by
  rcases live with ⟨c, edge, live⟩
  exact (solves.atEnd b inside v).mpr ⟨c, edge, solves.live closed (closed b inside c edge) live⟩

end Live

end Shecc.Dataflow
