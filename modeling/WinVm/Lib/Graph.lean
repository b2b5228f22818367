import Mathlib.Tactic.Common

/-!
# Moving a rooted graph

The nodes that can be reached from the roots of a directed graph, and what a map has to do to
carry them onto the reachable nodes of another graph: roots go onto roots, and the successors
of a reachable node onto the successors of its image.

Results: `Moves.reachable_iff`.
-/

namespace WinVm.Lib

/-- A directed graph with roots. -/
structure Rooted (α : Type*) where
  root : α → Prop
  edge : α → α → Prop

namespace Rooted

variable {α β : Type*}

inductive Reachable (g : Rooted α) : α → Prop
  | root {a : α} (h : g.root a) : Reachable g a
  | edge {a b : α} (h : Reachable g a) (hab : g.edge a b) : Reachable g b

/-- A set that has the roots and is closed under edges has all that is reachable. -/
theorem Reachable.closed {g : Rooted α} {P : α → Prop} (hroot : ∀ a, g.root a → P a)
    (hedge : ∀ a b, P a → g.edge a b → P b) {a : α} (h : g.Reachable a) : P a := by
  induction h with
  | root h => exact hroot _ h
  | edge _ hab ih => exact hedge _ _ ih hab

/-- The map carries roots onto roots and the edges at reachable nodes onto edges. -/
structure Moves (g : Rooted α) (g' : Rooted β) (f : α → β) : Prop where
  root : ∀ b, g'.root b ↔ ∃ a, g.root a ∧ f a = b
  edge : ∀ a, g.Reachable a → ∀ b, g'.edge (f a) b ↔ ∃ a', g.edge a a' ∧ f a' = b

/-- What is reachable afterwards are the images of what was reachable before. -/
theorem Moves.reachable_iff {g : Rooted α} {g' : Rooted β} {f : α → β} (h : Moves g g' f) (b : β) :
    g'.Reachable b ↔ ∃ a, g.Reachable a ∧ f a = b := by
  constructor
  · intro hb
    induction hb with
    | root hr =>
      obtain ⟨a, ha, rfl⟩ := (h.root _).mp hr
      exact ⟨a, .root ha, rfl⟩
    | edge _ hab ih =>
      obtain ⟨a, ha, rfl⟩ := ih
      obtain ⟨a', haa', rfl⟩ := (h.edge a ha _).mp hab
      exact ⟨a', .edge ha haa', rfl⟩
  · rintro ⟨a, ha, rfl⟩
    induction ha with
    | root hr => exact .root ((h.root _).mpr ⟨_, hr, rfl⟩)
    | edge ha hab ih => exact .edge ih ((h.edge _ ha _).mpr ⟨_, hab, rfl⟩)

end Rooted

end WinVm.Lib
