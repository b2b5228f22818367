import Mathlib.Order.Basic
import Mathlib.Tactic.Common

/-!
# Widening an interval over a set of ranges

An interval `(s, e)` of positions is widened over a list of ranges: a range that the interval
meets without containing it or lying inside it is swallowed, until no range is left that
only partly overlaps. `Covered` is the closure this computes, stated without an algorithm;
`mem_widen` says that the widened interval is exactly that set.
-/

namespace WinVm.Lib

/-- The interval meets the range and has a point outside of it. -/
def Straddles (iv r : Nat × Nat) : Prop :=
  iv.1 ≤ r.2 ∧ r.1 ≤ iv.2 ∧ (iv.1 < r.1 ∨ r.2 < iv.2)

instance (iv r : Nat × Nat) : Decidable (Straddles iv r) :=
  inferInstanceAs (Decidable (_ ∧ _ ∧ _))

def widenBy (iv r : Nat × Nat) : Nat × Nat :=
  if Straddles iv r then (min iv.1 r.1, max iv.2 r.2) else iv

def widenPass (rs : List (Nat × Nat)) (iv : Nat × Nat) : Nat × Nat :=
  rs.foldl widenBy iv

/-- Passes until one changes nothing. -/
def widenLoop (rs : List (Nat × Nat)) : Nat → Nat × Nat → Nat × Nat
  | 0, iv => iv
  | fuel + 1, iv => if widenPass rs iv = iv then iv else widenLoop rs fuel (widenPass rs iv)

/-- No range ends past this position, and neither does the interval. -/
def lastEnd (rs : List (Nat × Nat)) (iv : Nat × Nat) : Nat :=
  rs.foldl (fun b r => max b r.2) iv.2

def widen (rs : List (Nat × Nat)) (iv : Nat × Nat) : Nat × Nat :=
  widenLoop rs (iv.1 + lastEnd rs iv) iv

/-- The positions of `base`, and every range that contains a covered position while another
covered position lies outside of it. -/
inductive Covered (rs : List (Nat × Nat)) (base : Nat → Prop) : Nat → Prop
  | base {q : Nat} (h : base q) : Covered rs base q
  | range {r : Nat × Nat} {q inside outside : Nat} (hr : r ∈ rs)
    (hin : Covered rs base inside) (hin' : r.1 ≤ inside ∧ inside ≤ r.2)
    (hout : Covered rs base outside) (hout' : outside < r.1 ∨ r.2 < outside)
    (hq : r.1 ≤ q ∧ q ≤ r.2) : Covered rs base q

/-! ## Widening only grows -/

theorem widenBy_fst_le (iv r : Nat × Nat) : (widenBy iv r).1 ≤ iv.1 := by
  unfold widenBy
  split
  · exact Nat.min_le_left _ _
  · exact Nat.le_refl _

theorem le_widenBy_snd (iv r : Nat × Nat) : iv.2 ≤ (widenBy iv r).2 := by
  unfold widenBy
  split
  · exact Nat.le_max_left _ _
  · exact Nat.le_refl _

theorem widenPass_fst_le (rs : List (Nat × Nat)) (iv : Nat × Nat) : (widenPass rs iv).1 ≤ iv.1 := by
  induction rs generalizing iv with
  | nil => exact Nat.le_refl _
  | cons r rs ih => exact Nat.le_trans (ih (widenBy iv r)) (widenBy_fst_le iv r)

theorem le_widenPass_snd (rs : List (Nat × Nat)) (iv : Nat × Nat) : iv.2 ≤ (widenPass rs iv).2 := by
  induction rs generalizing iv with
  | nil => exact Nat.le_refl _
  | cons r rs ih => exact Nat.le_trans (le_widenBy_snd iv r) (ih (widenBy iv r))

/-- A pass that changes nothing leaves every range alone. -/
theorem widenBy_eq_of_widenPass_eq {rs : List (Nat × Nat)} {iv : Nat × Nat}
    (h : widenPass rs iv = iv) : ∀ r ∈ rs, widenBy iv r = iv := by
  induction rs with
  | nil => intro r hr; cases hr
  | cons r rs ih =>
    have hstep : widenPass rs (widenBy iv r) = iv := h
    have h1 := widenPass_fst_le rs (widenBy iv r)
    have h2 := le_widenPass_snd rs (widenBy iv r)
    have h3 := widenBy_fst_le iv r
    have h4 := le_widenBy_snd iv r
    rw [hstep] at h1 h2
    have hr : widenBy iv r = iv := Prod.ext (by omega) (by omega)
    rw [hr] at hstep
    exact List.forall_mem_cons.mpr ⟨hr, ih hstep⟩

theorem le_lastEnd (rs : List (Nat × Nat)) (iv : Nat × Nat) : iv.2 ≤ lastEnd rs iv := by
  unfold lastEnd
  induction rs generalizing iv with
  | nil => exact Nat.le_refl _
  | cons r rs ih => exact Nat.le_trans (Nat.le_max_left _ _) (ih (iv.1, max iv.2 r.2))

theorem range_le_lastEnd {rs : List (Nat × Nat)} {r : Nat × Nat} (hr : r ∈ rs) (iv : Nat × Nat) :
    r.2 ≤ lastEnd rs iv := by
  unfold lastEnd
  induction rs generalizing iv with
  | nil => cases hr
  | cons x rs ih =>
    rcases List.mem_cons.mp hr with rfl | hr
    · exact Nat.le_trans (Nat.le_max_right iv.2 _) (le_lastEnd rs (iv.1, max iv.2 r.2))
    · exact ih hr (iv.1, max iv.2 x.2)

theorem widenPass_snd_le {rs : List (Nat × Nat)} {iv : Nat × Nat} {bound : Nat}
    (hiv : iv.2 ≤ bound) (hrs : ∀ r ∈ rs, r.2 ≤ bound) : (widenPass rs iv).2 ≤ bound := by
  induction rs generalizing iv with
  | nil => exact hiv
  | cons r rs ih =>
    refine @ih (widenBy iv r) ?_ fun x hx => hrs x (List.mem_cons_of_mem _ hx)
    unfold widenBy
    split
    · exact Nat.max_le.mpr ⟨hiv, hrs r List.mem_cons_self⟩
    · exact hiv

/-- The fuel suffices: a pass that changes something moves an endpoint. -/
theorem widenLoop_stable {rs : List (Nat × Nat)} {bound : Nat} (hrs : ∀ r ∈ rs, r.2 ≤ bound)
    (fuel : Nat) (iv : Nat × Nat) (hiv : iv.2 ≤ bound) (hfuel : iv.1 + (bound - iv.2) ≤ fuel) :
    widenPass rs (widenLoop rs fuel iv) = widenLoop rs fuel iv := by
  induction fuel generalizing iv with
  | zero =>
    have h1 := widenPass_fst_le rs iv
    have h2 := le_widenPass_snd rs iv
    have h3 := widenPass_snd_le hiv hrs
    exact Prod.ext (by simp only [widenLoop]; omega) (by simp only [widenLoop]; omega)
  | succ fuel ih =>
    unfold widenLoop
    split
    · assumption
    · rename_i hne
      have h1 := widenPass_fst_le rs iv
      have h2 := le_widenPass_snd rs iv
      have h3 := widenPass_snd_le hiv hrs
      refine ih (widenPass rs iv) h3 ?_
      have : (widenPass rs iv).1 ≠ iv.1 ∨ (widenPass rs iv).2 ≠ iv.2 := by
        by_contra hboth
        push Not at hboth
        exact hne (Prod.ext hboth.1 hboth.2)
      omega

theorem widen_stable (rs : List (Nat × Nat)) (iv : Nat × Nat) :
    ∀ r ∈ rs, widenBy (widen rs iv) r = widen rs iv := by
  refine widenBy_eq_of_widenPass_eq ?_
  have := le_lastEnd rs iv
  exact widenLoop_stable (fun r hr => range_le_lastEnd hr iv) _ iv this (by omega)

/-- After widening, a range the interval meets without lying inside is swallowed whole. -/
theorem widen_swallows {rs : List (Nat × Nat)} {iv r : Nat × Nat} (hr : r ∈ rs)
    (h : Straddles (widen rs iv) r) : (widen rs iv).1 ≤ r.1 ∧ r.2 ≤ (widen rs iv).2 := by
  have hst := widen_stable rs iv r hr
  rw [widenBy, if_pos h] at hst
  have h1 := congrArg Prod.fst hst
  have h2 := congrArg Prod.snd hst
  simp only at h1 h2
  omega

theorem widenLoop_fst_le (rs : List (Nat × Nat)) (fuel : Nat) (iv : Nat × Nat) :
    (widenLoop rs fuel iv).1 ≤ iv.1 ∧ iv.2 ≤ (widenLoop rs fuel iv).2 := by
  induction fuel generalizing iv with
  | zero => exact ⟨Nat.le_refl _, Nat.le_refl _⟩
  | succ fuel ih =>
    unfold widenLoop
    split
    · exact ⟨Nat.le_refl _, Nat.le_refl _⟩
    · have h1 := widenPass_fst_le rs iv
      have h2 := le_widenPass_snd rs iv
      obtain ⟨h3, h4⟩ := ih (widenPass rs iv)
      exact ⟨Nat.le_trans h3 h1, Nat.le_trans h2 h4⟩

theorem widen_extends (rs : List (Nat × Nat)) (iv : Nat × Nat) :
    (widen rs iv).1 ≤ iv.1 ∧ iv.2 ≤ (widen rs iv).2 :=
  widenLoop_fst_le rs _ iv

/-! ## What is covered -/

/-- `iv` lies in the closure of `base`. -/
def Within (rs : List (Nat × Nat)) (base : Nat → Prop) (iv : Nat × Nat) : Prop :=
  iv.1 ≤ iv.2 ∧ ∀ q, iv.1 ≤ q → q ≤ iv.2 → Covered rs base q

theorem Within.widenBy {rs : List (Nat × Nat)} {base : Nat → Prop} {iv r : Nat × Nat}
    (h : Within rs base iv) (hr : r ∈ rs) : Within rs base (widenBy iv r) := by
  obtain ⟨hle, hcov⟩ := h
  unfold WinVm.Lib.widenBy
  split
  · rename_i hst
    obtain ⟨h1, h2, h3⟩ := hst
    refine ⟨by simp only; omega, ?_⟩
    intro q hq1 hq2
    simp only at hq1 hq2
    rcases Nat.lt_or_ge q iv.1 with hlt | hge
    · -- the part added on the left
      rcases h3 with h3 | h3
      · omega
      · exact .range hr (hcov iv.1 (Nat.le_refl _) hle) (by omega)
          (hcov iv.2 hle (Nat.le_refl _)) (Or.inr h3) (by omega)
    · rcases Nat.lt_or_ge iv.2 q with hgt | hle'
      · -- the part added on the right
        rcases h3 with h3 | h3
        · exact .range hr (hcov iv.2 hle (Nat.le_refl _)) (by omega)
            (hcov iv.1 (Nat.le_refl _) hle) (Or.inl h3) (by omega)
        · omega
      · exact hcov q hge hle'
  · exact ⟨hle, hcov⟩

theorem Within.widenPass {rs rs' : List (Nat × Nat)} {base : Nat → Prop} {iv : Nat × Nat}
    (h : Within rs base iv) (hsub : ∀ r ∈ rs', r ∈ rs) : Within rs base (widenPass rs' iv) := by
  induction rs' generalizing iv with
  | nil => exact h
  | cons r rs' ih =>
    exact ih (h.widenBy (hsub r List.mem_cons_self))
      fun x hx => hsub x (List.mem_cons_of_mem _ hx)

theorem Within.widenLoop {rs : List (Nat × Nat)} {base : Nat → Prop} (fuel : Nat)
    {iv : Nat × Nat} (h : Within rs base iv) : Within rs base (widenLoop rs fuel iv) := by
  induction fuel generalizing iv with
  | zero => exact h
  | succ fuel ih =>
    unfold WinVm.Lib.widenLoop
    split
    · exact h
    · exact ih (h.widenPass fun r hr => hr)

/-- The widened interval is the closure of the interval it started from. -/
theorem mem_widen {rs : List (Nat × Nat)} {iv : Nat × Nat} {base : Nat → Prop}
    (hle : iv.1 ≤ iv.2) (hbase : ∀ q, base q ↔ iv.1 ≤ q ∧ q ≤ iv.2) (q : Nat) :
    Covered rs base q ↔ (widen rs iv).1 ≤ q ∧ q ≤ (widen rs iv).2 := by
  constructor
  · intro h
    induction h with
    | @base q h =>
      have := widen_extends rs iv
      have := (hbase q).mp h
      omega
    | @range r q inside outside hr _ hin' _ hout' hq ih1 ih2 =>
      have hst : Straddles (widen rs iv) r := ⟨by omega, by omega, by omega⟩
      have := widen_swallows hr hst
      omega
  · rintro ⟨h1, h2⟩
    have hin : Within rs base iv := ⟨hle, fun q h1 h2 => .base ((hbase q).mpr ⟨h1, h2⟩)⟩
    exact (hin.widenLoop (iv.1 + lastEnd rs iv)).2 q h1 h2

end WinVm.Lib
