import Mathlib

/-!
# Tilings

A stretch of addresses that is filled without gaps by consecutive blocks, each as long as
`size` says. This is how a bump-allocated space holds its objects: a walk from the bottom that
steps over one block after the other visits exactly the blocks of the list.
-/

namespace WinVm.Lib

/-- `blocks` lists the starts of the consecutive blocks from `a` to `b`. -/
inductive Tiles (size : Nat → Nat) : Nat → Nat → List Nat → Prop
  | nil (a : Nat) : Tiles size a a []
  | cons {a b : Nat} {blocks : List Nat} (hpos : 0 < size a)
      (h : Tiles size (a + size a) b blocks) : Tiles size a b (a :: blocks)

namespace Tiles

variable {size : Nat → Nat} {a b c : Nat} {l l' : List Nat}

theorem le (h : Tiles size a b l) : a ≤ b := by
  induction h with
  | nil a => exact Nat.le_refl a
  | cons hpos _ ih => omega

/-- A block lies between the two ends. -/
theorem bounds (h : Tiles size a b l) {x : Nat} (hx : x ∈ l) :
    a ≤ x ∧ 0 < size x ∧ x + size x ≤ b := by
  induction h with
  | nil => cases hx
  | @cons a b l hpos h ih =>
    have hle := h.le
    rcases List.mem_cons.mp hx with rfl | hx
    · exact ⟨Nat.le_refl _, hpos, hle⟩
    · obtain ⟨h1, h2, h3⟩ := ih hx
      exact ⟨by omega, h2, h3⟩

theorem append (h : Tiles size a b l) (h' : Tiles size b c l') : Tiles size a c (l ++ l') := by
  induction h with
  | nil => exact h'
  | cons hpos _ ih => exact .cons hpos (ih h')

theorem snoc (h : Tiles size a b l) (hpos : 0 < size b) :
    Tiles size a (b + size b) (l ++ [b]) :=
  h.append (.cons hpos (.nil _))

theorem split (h : Tiles size a b (l ++ l')) : ∃ c, Tiles size a c l ∧ Tiles size c b l' := by
  induction l generalizing a with
  | nil => exact ⟨a, .nil a, h⟩
  | cons x l ih =>
    cases h with
    | cons hpos h =>
      obtain ⟨c, h1, h2⟩ := ih h
      exact ⟨c, .cons hpos h1, h2⟩

/-- The blocks after those that tile a first part tile the rest. -/
theorem rest (h : Tiles size a c (l ++ l')) (h' : Tiles size a b l) : Tiles size b c l' := by
  induction h' with
  | nil => exact h
  | cons _ _ ih =>
    cases h with
    | cons _ h => exact ih h

/-- From any block on, the blocks that follow tile the rest. -/
theorem from_block (h : Tiles size a b l) {x : Nat} (hx : x ∈ l) :
    ∃ before after, l = before ++ x :: after ∧ Tiles size a x before ∧
      Tiles size x b (x :: after) := by
  obtain ⟨before, after, rfl⟩ := List.append_of_mem hx
  obtain ⟨c, h1, h2⟩ := h.split
  cases h2 with
  | cons hpos h2 => exact ⟨before, after, rfl, h1, .cons hpos h2⟩

/-- The blocks from one block up to another, or up to the end, tile what lies between. -/
theorem between (h : Tiles size a c l) {x y : Nat} (hx : x ∈ l) (hy : y ∈ l ∨ y = c)
    (hxy : x ≤ y) : ∃ seg, Tiles size x y seg ∧ ∀ z, z ∈ seg ↔ z ∈ l ∧ x ≤ z ∧ z < y := by
  obtain ⟨before, after, rfl, h1, h2⟩ := h.from_block hx
  rcases hy with hy | rfl
  · have hy' : y ∈ x :: after := by
      rcases List.mem_append.mp hy with hb | ha
      · have := h1.bounds hb
        omega
      · exact ha
    obtain ⟨mid, rest, heq, h3, h4⟩ := h2.from_block hy'
    refine ⟨mid, h3, fun z => ?_⟩
    rw [heq, List.mem_append, List.mem_append]
    constructor
    · intro hz
      have := h3.bounds hz
      exact ⟨Or.inr (Or.inl hz), by omega, by omega⟩
    · rintro ⟨hz | hz | hz, hxz, hzy⟩
      · have := h1.bounds hz
        omega
      · exact hz
      · have := h4.bounds hz
        omega
  · refine ⟨x :: after, h2, fun z => ?_⟩
    rw [List.mem_append]
    constructor
    · intro hz
      have := h2.bounds hz
      exact ⟨Or.inr hz, by omega, by omega⟩
    · rintro ⟨hz | hz, hxz, -⟩
      · have := h1.bounds hz
        omega
      · exact hz

theorem pairwise_lt (h : Tiles size a b l) : l.Pairwise fun x y => x + size x ≤ y := by
  induction h with
  | nil => exact List.Pairwise.nil
  | cons _ h ih => exact List.Pairwise.cons (fun y hy => (h.bounds hy).1) ih

/-- Two blocks do not overlap. -/
theorem apart (h : Tiles size a b l) {x y : Nat} (hx : x ∈ l) (hy : y ∈ l) (hne : x ≠ y) :
    x + size x ≤ y ∨ y + size y ≤ x := by
  induction h with
  | nil => cases hx
  | cons _ h ih =>
    rcases List.mem_cons.mp hx with rfl | hx'
    · rcases List.mem_cons.mp hy with rfl | hy'
      · exact absurd rfl hne
      · exact Or.inl (h.bounds hy').1
    · rcases List.mem_cons.mp hy with rfl | hy'
      · exact Or.inr (h.bounds hx').1
      · exact ih hx' hy'

/-- The last block ends where the tiling does. -/
theorem last_end (h : Tiles size a b l) {x : Nat} (hx : l.getLast? = some x) :
    x + size x = b := by
  obtain ⟨init, rfl⟩ := List.getLast?_eq_some_iff.mp hx
  obtain ⟨c, -, h2⟩ := h.split
  cases h2 with
  | cons _ h2 =>
    cases h2
    rfl

/-- Only one block ends where the tiling does. -/
theorem eq_of_end (h : Tiles size a b l) {x y : Nat} (hx : x ∈ l) (hy : y ∈ l)
    (hxb : x + size x = b) (hyb : y + size y = b) : x = y := by
  by_contra hne
  have hbx := h.bounds hx
  have hby := h.bounds hy
  have := h.apart hx hy hne
  omega

theorem nodup (h : Tiles size a b l) : l.Nodup := by
  induction h with
  | nil => exact List.nodup_nil
  | cons hpos h ih =>
    refine List.nodup_cons.mpr ⟨fun hmem => ?_, ih⟩
    have := (h.bounds hmem).1
    omega

/-- Every address in between belongs to a block. -/
theorem cover (h : Tiles size a b l) {p : Nat} (hap : a ≤ p) (hpb : p < b) :
    ∃ x ∈ l, x ≤ p ∧ p < x + size x := by
  induction h with
  | nil => omega
  | @cons a b l _ _ ih =>
    rcases Nat.lt_or_ge p (a + size a) with hlt | hge
    · exact ⟨a, List.mem_cons_self, hap, hlt⟩
    · obtain ⟨x, hx, h1, h2⟩ := ih hge hpb
      exact ⟨x, List.mem_cons_of_mem _ hx, h1, h2⟩

/-- The ends are as far apart as the blocks are long together. -/
theorem sum_eq (h : Tiles size a b l) : b = a + (l.map size).sum := by
  induction h with
  | nil => simp
  | cons _ _ ih =>
    rw [List.map_cons, List.sum_cons]
    omega

theorem congr {size' : Nat → Nat} (h : Tiles size a b l) (heq : ∀ x ∈ l, size' x = size x) :
    Tiles size' a b l := by
  induction h with
  | nil => exact .nil _
  | @cons a b l hpos _ ih =>
    have ha := heq a List.mem_cons_self
    refine .cons (by rw [ha]; exact hpos) ?_
    rw [ha]
    exact ih fun x hx => heq x (List.mem_cons_of_mem _ hx)

/-- Blocks of several tilings, over stretches that lie apart, do not overlap either. -/
theorem apart_of_family {ι : Type*} {lo hi : ι → Nat} {blocks : ι → List Nat}
    (h : ∀ r, Tiles size (lo r) (hi r) (blocks r))
    (hapart : ∀ r s, r ≠ s → hi r ≤ lo s ∨ hi s ≤ lo r) {r s : ι} {x y : Nat}
    (hx : x ∈ blocks r) (hy : y ∈ blocks s) (hne : x ≠ y) :
    x + size x ≤ y ∨ y + size y ≤ x := by
  by_cases hrs : r = s
  · subst hrs
    exact (h r).apart hx hy hne
  · have hbx := (h r).bounds hx
    have hby := (h s).bounds hy
    have := hapart r s hrs
    omega

end Tiles

/-- Distinct members of a list are together no longer than the whole list. -/
theorem sum_le_of_nodup_subset (size : Nat → Nat) {l l' : List Nat} (hnodup : l.Nodup)
    (hsub : ∀ x ∈ l, x ∈ l') : (l.map size).sum ≤ (l'.map size).sum := by
  obtain ⟨l'', hperm, hsubl⟩ := hnodup.subperm hsub
  calc (l.map size).sum = (l''.map size).sum := (hperm.map size).sum_eq.symm
    _ ≤ (l'.map size).sum := (hsubl.map size).sum_le_sum (fun x _ => Nat.zero_le x)

end WinVm.Lib
