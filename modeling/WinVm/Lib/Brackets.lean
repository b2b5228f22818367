import Mathlib.Logic.Basic

/-!
# Nested brackets and jumps out of them

A computation opens and closes brackets; closing one puts back part of the state. An entry is
a bracket that a jump may land on: the jump drops every bracket above it without running any
closer. Only the part of the state that closers read or put back is followed here, as a
value of `τ`. `Settles` says that if every open bracket were closed the ordinary way, each
entry would find what its body started from.

Results:
* `Settles.opened`: a bracket whose closer undoes its opener may be opened anywhere;
* `Settles.landed`: at a jump, closing the dropped brackets would have led back to the
  entry, and everything below the entry is undisturbed.
-/

namespace WinVm.Lib

/-- Brackets `β` and entries `ε` over what closers put back. -/
structure Brackets (τ β ε : Type) where
  close : β → τ → τ
  /-- What holds between an open bracket and the state, once those above it are closed. -/
  Fits : β → τ → Prop
  /-- Before an entry, and where its body starts. -/
  began : ε → τ
  entered : ε → τ

namespace Brackets

variable {τ β ε : Type} (D : Brackets τ β ε) {b : β} {e : ε} {t t' : τ} {above : List β}
  {stack below : List (β ⊕ ε)}

/-- Closing what is open, innermost first, leads each entry back to where its body started. -/
def Settles : List (β ⊕ ε) → τ → Prop
  | [], _ => True
  | .inl b :: rest, t => D.Fits b t ∧ Settles rest (D.close b t)
  | .inr e :: rest, t => t = D.entered e ∧ Settles rest (D.began e)

/-- The closers of open brackets, the first one first. -/
def closeAll : List β → τ → τ
  | [], t => t
  | b :: bs, t => closeAll bs (D.close b t)

/-- Each open bracket fits once those above it are closed. -/
def FitsAll : List β → τ → Prop
  | [], _ => True
  | b :: bs, t => D.Fits b t ∧ FitsAll bs (D.close b t)

variable {D}

/-- A bracket whose closer undoes its opener may be opened anywhere. -/
theorem Settles.opened (h : D.Settles stack t) (fits : D.Fits b t') (undone : D.close b t' = t) :
    D.Settles (.inl b :: stack) t' :=
  ⟨fits, undone.symm ▸ h⟩

/-- At a jump: the closers it skips would have led back to the entry's body. -/
theorem Settles.landed (h : D.Settles (above.map Sum.inl ++ .inr e :: below) t) :
    D.FitsAll above t ∧ D.closeAll above t = D.entered e ∧ D.Settles below (D.began e) := by
  induction above generalizing t with
  | nil => exact ⟨trivial, h⟩
  | cons b above ih =>
    obtain ⟨fits, closed⟩ := ih h.2
    exact ⟨⟨h.1, fits⟩, closed⟩

end Brackets

end WinVm.Lib
