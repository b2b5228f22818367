import Mathlib.Data.Finset.Card

/-!
# Ascending iteration

A loop that recomputes a finite set from itself until the set stops changing. When the
recomputation is monotone and stays inside a finite set, the loop started below its own first
result ends, after one round more than the set has elements, in a fixed point.
-/

namespace WinVm.Lib.Ascending

variable {α : Type} [DecidableEq α]

/-- Recompute until nothing changes; `none` when `fuel` rounds do not get there. -/
def settle (f : Finset α → Finset α) : Nat → Finset α → Option (Finset α)
  | 0, _ => none
  | fuel + 1, s => if f s = s then some s else settle f fuel (f s)

variable {f : Finset α → Finset α} {bound : Finset α}

/-- Every round that does not end the loop adds an element. -/
theorem settle_of_le (mono : Monotone f) (inside : ∀ s, f s ⊆ bound) {fuel : Nat}
    {s : Finset α} (below : s ⊆ bound) (grows : s ⊆ f s) (room : bound.card < s.card + fuel) :
    ∃ t, settle f fuel s = some t ∧ f t = t := by
  induction fuel generalizing s with
  | zero => exact absurd (Finset.card_le_card below) (Nat.not_le_of_lt room)
  | succ fuel ih =>
    rw [settle]
    split
    · rename_i fixed
      exact ⟨s, rfl, fixed⟩
    · rename_i moved
      have more : s.card < (f s).card :=
        Finset.card_lt_card (grows.ssubset_of_ne (Ne.symm moved))
      exact ih (inside s) (mono grows) (by omega)

theorem settle_empty (mono : Monotone f) (inside : ∀ s, f s ⊆ bound) :
    ∃ t, settle f (bound.card + 1) ∅ = some t ∧ f t = t :=
  settle_of_le mono inside (Finset.empty_subset _) (Finset.empty_subset _) (by simp)

end WinVm.Lib.Ascending
