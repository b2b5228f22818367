import Mathlib.Algebra.Order.Group.Nat
import Mathlib.Data.List.Basic
import Mathlib.Data.Nat.Find
import Mathlib.Logic.Function.Basic
import Mathlib.Tactic.Common

/-!
# Linear probing

A table of slots in which a key stands at the first slot from its hash on that was free when it
came in. The slots from the hash up to a key are therefore taken (`Chained`), so a walk that stops
at the key or at a free slot finds the key if it is there; as long as a slot is free every walk
ends.
-/

namespace WinVm.Lib.Probing

/-- The slot so many steps behind the one a hash names. -/
def slotAt (cap hash steps : Nat) : Nat := (hash + steps) % cap

variable {cap hash d e i j : Nat}

theorem slotAt_lt (hcap : 0 < cap) : slotAt cap hash d < cap := Nat.mod_lt _ hcap

theorem slotAt_succ : (slotAt cap hash d + 1) % cap = slotAt cap hash (d + 1) := by
  unfold slotAt
  rw [Nat.mod_add_mod, Nat.add_assoc]

theorem slotAt_inj (hd : d < cap) (he : e < cap) (h : slotAt cap hash d = slotAt cap hash e) :
    d = e := by
  unfold slotAt at h
  have hlt := Nat.mod_lt hash (Nat.zero_lt_of_lt hd)
  rw [← Nat.mod_add_mod, ← Nat.mod_add_mod hash cap e] at h
  -- both sums stay below twice the capacity
  have hsum : ∀ x, x < cap → (hash % cap + x) % cap =
      if hash % cap + x < cap then hash % cap + x else hash % cap + x - cap := by
    intro x hx
    split
    · exact Nat.mod_eq_of_lt ‹_›
    · rw [Nat.mod_eq_sub_mod (by omega), Nat.mod_eq_of_lt (by omega)]
  rw [hsum d hd, hsum e he] at h
  split at h <;> split at h <;> omega

theorem exists_slotAt (hi : i < cap) (hash : Nat) : ∃ d, d < cap ∧ slotAt cap hash d = i := by
  have hcap : 0 < cap := Nat.zero_lt_of_lt hi
  have hlt := Nat.mod_lt hash hcap
  refine ⟨(i + (cap - hash % cap)) % cap, Nat.mod_lt _ hcap, ?_⟩
  unfold slotAt
  rw [Nat.add_mod_mod, ← Nat.mod_add_mod]
  have hsum : hash % cap + (i + (cap - hash % cap)) = i + cap := by omega
  rw [hsum, Nat.add_mod_right, Nat.mod_eq_of_lt hi]

/-! ## Walks -/

/-- Visit one slot after the other until a visit yields a result. -/
def walk {ρ : Type*} (next : Nat → Nat) (visit : Nat → Option ρ) : Nat → Nat → Option ρ
  | 0, _ => none
  | n + 1, i =>
    match visit i with
    | some r => some r
    | none => walk next visit n (next i)

/-- A walk ends with the first slot that yields a result. -/
theorem walk_eq {ρ : Type*} {next : Nat → Nat} {visit : Nat → Option ρ} {r : ρ} {fuel : Nat}
    (hnext : ∀ i, next i = (i + 1) % cap) (hd : visit (slotAt cap hash d) = some r)
    (hbefore : ∀ e, e < d → visit (slotAt cap hash e) = none) (hfuel : d < fuel) :
    walk next visit fuel (hash % cap) = some r := by
  have hrest : ∀ n e, e + n = fuel → e ≤ d → walk next visit n (slotAt cap hash e) = some r := by
    intro n
    induction n with
    | zero => intro e he hle; omega
    | succ n ih =>
      intro e he hle
      unfold walk
      rcases Nat.lt_or_eq_of_le hle with hlt | rfl
      · rw [hbefore e hlt]
        dsimp only
        rw [hnext, slotAt_succ]
        exact ih (e + 1) (by omega) hlt
      · rw [hd]
  exact hrest fuel 0 (Nat.zero_add _) (Nat.zero_le _)

/-! ## Tables -/

variable {κ : Type*} {hashOf : κ → Nat} {t : Nat → Option κ} {k k' : κ}

/-- Every key can be reached from its hash without crossing a free slot, and stands once. -/
structure Chained (cap : Nat) (hashOf : κ → Nat) (t : Nat → Option κ) : Prop where
  chain : ∀ i, i < cap → ∀ k, t i = some k → ∃ d, d < cap ∧ slotAt cap (hashOf k) d = i ∧
    ∀ e, e < d → t (slotAt cap (hashOf k) e) ≠ none
  unique : ∀ i, i < cap → ∀ j, j < cap → ∀ k, t i = some k → t j = some k → i = j

def Holds (cap : Nat) (t : Nat → Option κ) (k : κ) : Prop := ∃ i, i < cap ∧ t i = some k

/-- How many slots are taken. -/
def occupied (cap : Nat) (t : Nat → Option κ) : Nat := (List.range cap).countP fun i => (t i).isSome

theorem chained_empty : Chained cap hashOf fun _ => none :=
  ⟨fun _ _ _ h => (nomatch h), fun _ _ _ _ _ h => (nomatch h)⟩

theorem occupied_empty : occupied cap (fun _ => (none : Option κ)) = 0 :=
  List.countP_eq_zero.mpr fun _ _ => Bool.false_ne_true

theorem occupied_succ (t : Nat → Option κ) (n : Nat) :
    occupied (n + 1) t = occupied n t + if (t n).isSome then 1 else 0 := by
  unfold occupied
  rw [List.range_succ, List.countP_append, List.countP_singleton]

theorem occupied_mono {n : Nat} (h : n ≤ cap) : occupied n t ≤ occupied cap t := by
  unfold occupied
  exact (List.range_sublist.mpr h).countP_le

theorem occupied_le (cap : Nat) (t : Nat → Option κ) : occupied cap t ≤ cap :=
  List.countP_le_length.trans_eq List.length_range

theorem exists_free (h : occupied cap t < cap) : ∃ i, i < cap ∧ t i = none := by
  by_contra hne
  have hall : occupied cap t = (List.range cap).length := by
    refine List.countP_eq_length.mpr fun i hi => ?_
    rw [Option.isSome_iff_ne_none]
    exact fun hnone => hne ⟨i, List.mem_range.mp hi, hnone⟩
  rw [List.length_range] at hall
  omega

/-- From every hash on there is a first free slot. -/
theorem first_free (h : occupied cap t < cap) (hash : Nat) : ∃ d, d < cap ∧
    t (slotAt cap hash d) = none ∧ ∀ e, e < d → t (slotAt cap hash e) ≠ none := by
  obtain ⟨i, hi, hnone⟩ := exists_free h
  obtain ⟨d, hd, rfl⟩ := exists_slotAt hi hash
  have hex : ∃ d, t (slotAt cap hash d) = none := ⟨d, hnone⟩
  classical
  exact ⟨Nat.find hex, (Nat.find_min' hex hnone).trans_lt hd, Nat.find_spec hex,
    fun e he => Nat.find_min hex he⟩

namespace Chained

variable (h : Chained cap hashOf t)
include h

/-- The slots a walk crosses on its way to a key hold other keys. -/
theorem path (hi : i < cap) (hk : t i = some k) : ∃ d, d < cap ∧ slotAt cap (hashOf k) d = i ∧
    ∀ e, e < d → ∃ k', t (slotAt cap (hashOf k) e) = some k' ∧ k' ≠ k := by
  obtain ⟨d, hd, rfl, hbefore⟩ := h.chain i hi k hk
  refine ⟨d, hd, rfl, fun e he => ?_⟩
  obtain ⟨k', hk'⟩ := Option.ne_none_iff_exists'.mp (hbefore e he)
  refine ⟨k', hk', ?_⟩
  rintro rfl
  have hsame := h.unique _ (slotAt_lt (Nat.zero_lt_of_lt hi)) _ hi _ hk' hk
  exact he.ne (slotAt_inj (he.trans hd) hd hsame)

/-- A key that is not there takes the first free slot. -/
theorem insert (habsent : ¬ Holds cap t k) (hd : d < cap)
    (hbefore : ∀ e, e < d → t (slotAt cap (hashOf k) e) ≠ none) :
    Chained cap hashOf (Function.update t (slotAt cap (hashOf k) d) (some k)) := by
  have hother : ∀ {i k'}, i ≠ slotAt cap (hashOf k) d →
      Function.update t (slotAt cap (hashOf k) d) (some k) i = some k' → t i = some k' := by
    intro i k' hne hk'
    rwa [Function.update_of_ne hne] at hk'
  have hkeeps : ∀ i, t i ≠ none → Function.update t (slotAt cap (hashOf k) d) (some k) i ≠ none := by
    intro i hi
    by_cases heq : i = slotAt cap (hashOf k) d
    · rw [heq, Function.update_self]
      exact Option.some_ne_none _
    · rwa [Function.update_of_ne heq]
  constructor
  · intro i hi k' hk'
    by_cases heq : i = slotAt cap (hashOf k) d
    · rw [heq, Function.update_self] at hk'
      cases hk'
      exact ⟨d, hd, heq.symm, fun e he => hkeeps _ (hbefore e he)⟩
    · obtain ⟨d', hd', hat, hpath⟩ := h.chain i hi k' (hother heq hk')
      exact ⟨d', hd', hat, fun e he => hkeeps _ (hpath e he)⟩
  · intro i hi j hj k' hik hjk
    by_cases hieq : i = slotAt cap (hashOf k) d <;> by_cases hjeq : j = slotAt cap (hashOf k) d
    · rw [hieq, hjeq]
    · rw [hieq, Function.update_self] at hik
      cases hik
      exact absurd ⟨j, hj, hother hjeq hjk⟩ habsent
    · rw [hjeq, Function.update_self] at hjk
      cases hjk
      exact absurd ⟨i, hi, hother hieq hik⟩ habsent
    · exact h.unique i hi j hj k' (hother hieq hik) (hother hjeq hjk)

end Chained

/-- Only the slots below the capacity count. -/
theorem Chained.congr {t' : Nat → Option κ} (h : Chained cap hashOf t)
    (heq : ∀ i, i < cap → t' i = t i) : Chained cap hashOf t' := by
  constructor
  · intro i hi k hk
    rw [heq i hi] at hk
    obtain ⟨d, hd, hat, hpath⟩ := h.chain i hi k hk
    refine ⟨d, hd, hat, fun e he => ?_⟩
    rw [heq _ (slotAt_lt (Nat.zero_lt_of_lt hi))]
    exact hpath e he
  · intro i hi j hj k hik hjk
    rw [heq i hi] at hik
    rw [heq j hj] at hjk
    exact h.unique i hi j hj k hik hjk

theorem occupied_congr {t' : Nat → Option κ} (heq : ∀ i, i < cap → t' i = t i) :
    occupied cap t' = occupied cap t :=
  List.countP_congr fun i hi => by rw [heq i (List.mem_range.mp hi)]

theorem holds_update (hi : i < cap) (hfree : t i = none) :
    Holds cap (Function.update t i (some k)) k' ↔ k' = k ∨ Holds cap t k' := by
  constructor
  · rintro ⟨j, hj, hk'⟩
    by_cases heq : j = i
    · rw [heq, Function.update_self] at hk'
      exact .inl (Option.some.inj hk').symm
    · rw [Function.update_of_ne heq] at hk'
      exact .inr ⟨j, hj, hk'⟩
  · rintro (rfl | ⟨j, hj, hk'⟩)
    · exact ⟨i, hi, Function.update_self _ _ _⟩
    · refine ⟨j, hj, ?_⟩
      rwa [Function.update_of_ne]
      rintro rfl
      rw [hfree] at hk'
      cases hk'

theorem occupied_update (hi : i < cap) (hfree : t i = none) :
    occupied cap (Function.update t i (some k)) = occupied cap t + 1 := by
  induction cap with
  | zero => exact absurd hi (Nat.not_lt_zero i)
  | succ cap ih =>
    rw [occupied_succ, occupied_succ]
    rcases Nat.lt_succ_iff_lt_or_eq.mp hi with hlt | rfl
    · rw [ih hlt, Function.update_of_ne hlt.ne']
      exact Nat.add_right_comm _ _ _
    · have hsame : occupied i (Function.update t i (some k)) = occupied i t := by
        refine List.countP_congr fun j hj => ?_
        rw [Function.update_of_ne (List.mem_range.mp hj).ne]
      rw [hsame, Function.update_self, hfree]
      rfl

/-! ## Rehashing -/

theorem holds_succ {n : Nat} : Holds (n + 1) t k ↔ Holds n t k ∨ t n = some k := by
  constructor
  · rintro ⟨i, hi, hk⟩
    rcases Nat.lt_succ_iff_lt_or_eq.mp hi with hlt | rfl
    · exact .inl ⟨i, hlt, hk⟩
    · exact .inr hk
  · rintro (⟨i, hi, hk⟩ | hk)
    · exact ⟨i, Nat.lt_succ_of_lt hi, hk⟩
    · exact ⟨n, Nat.lt_succ_self n, hk⟩

/-- The table `t'` holds what the first `n` slots of `t` hold. -/
structure Rehashed (cap : Nat) (hashOf : κ → Nat) (t : Nat → Option κ) (n : Nat)
    (t' : Nat → Option κ) : Prop where
  chained : Chained cap hashOf t'
  count : occupied cap t' = occupied n t
  holds : ∀ k, Holds cap t' k ↔ Holds n t k

theorem Rehashed.empty : Rehashed cap hashOf t 0 fun _ => none where
  chained := chained_empty
  count := occupied_empty
  holds := fun _ => ⟨fun ⟨_, _, h⟩ => (nomatch h), fun ⟨_, h, _⟩ => absurd h (Nat.not_lt_zero _)⟩

namespace Rehashed

variable {n : Nat} {t' : Nat → Option κ} (h : Rehashed cap hashOf t n t')
include h

theorem skip (hn : t n = none) : Rehashed cap hashOf t (n + 1) t' := by
  refine ⟨h.chained, ?_, fun k => ?_⟩
  · rw [h.count, occupied_succ, hn]
    rfl
  · rw [h.holds, holds_succ, hn]
    simp

theorem absent {cap₀ : Nat} (ht : Chained cap₀ hashOf t) (hn : n < cap₀) (hk : t n = some k) :
    ¬ Holds cap t' k := by
  rw [h.holds]
  rintro ⟨i, hi, hik⟩
  exact hi.ne (ht.unique i (hi.trans hn) n hn k hik hk)

theorem insert (habsent : ¬ Holds cap t' k) (hk : t n = some k) (hd : d < cap)
    (hfree : t' (slotAt cap (hashOf k) d) = none)
    (hbefore : ∀ e, e < d → t' (slotAt cap (hashOf k) e) ≠ none) :
    Rehashed cap hashOf t (n + 1)
      (Function.update t' (slotAt cap (hashOf k) d) (some k)) := by
  have hslot : slotAt cap (hashOf k) d < cap := slotAt_lt (Nat.zero_lt_of_lt hd)
  refine ⟨h.chained.insert habsent hd hbefore, ?_, fun k' => ?_⟩
  · rw [occupied_update hslot hfree, h.count, occupied_succ, hk]
    rfl
  · rw [holds_update hslot hfree, h.holds, holds_succ, hk, Option.some.injEq, or_comm, eq_comm]

end Rehashed

end WinVm.Lib.Probing
