import WinVm.Lib.Tiling

/-!
# Packing blocks

Some of the blocks of a tiled stretch are moved down so that they follow each other from its
start. Moved in ascending order, each block only ever overwrites what is not needed any more,
even where its old and its new place overlap.

Results: `slideBlocks_apply`, the block arrives whole; `packed_tiles`, the packed blocks tile a
first part of the stretch.
-/

namespace WinVm.Lib

/-- Each block with its place, when they are packed from `p` on. -/
def packed (size : Nat → Nat) : Nat → List Nat → List (Nat × Nat)
  | _, [] => []
  | p, a :: l => (a, p) :: packed size (p + size a) l

/-- The words from `src` on, moved to `dst`. -/
def blit {α : Type*} (m : Nat → α) (src dst n : Nat) : Nat → α := fun x =>
  if dst ≤ x ∧ x < dst + n then m (src + (x - dst)) else m x

/-- The blocks moved one after the other. -/
def slideBlocks {α : Type*} (size : Nat → Nat) (m : Nat → α) (l : List (Nat × Nat)) : Nat → α :=
  l.foldl (fun m e => blit m e.1 e.2 (size e.1)) m

variable {size : Nat → Nat} {p a d b : Nat} {l : List Nat}

theorem map_fst_packed (size : Nat → Nat) (p : Nat) (l : List Nat) :
    (packed size p l).map Prod.fst = l := by
  induction l generalizing p with
  | nil => rfl
  | cons a l ih => rw [packed, List.map_cons, ih]

theorem mem_of_packed (h : (a, d) ∈ packed size p l) : a ∈ l :=
  map_fst_packed size p l ▸ List.mem_map_of_mem (f := Prod.fst) h

theorem exists_packed (h : a ∈ l) : ∃ d, (a, d) ∈ packed size p l := by
  rw [← map_fst_packed size p l] at h
  obtain ⟨⟨a, d⟩, hm, rfl⟩ := List.mem_map.mp h
  exact ⟨d, hm⟩

theorem packed_bounds (h : (a, d) ∈ packed size p l) :
    p ≤ d ∧ d + size a ≤ p + (l.map size).sum := by
  induction l generalizing p with
  | nil => cases h
  | cons x l ih =>
    rw [List.map_cons, List.sum_cons]
    rcases List.mem_cons.mp h with heq | h
    · cases heq
      omega
    · have := ih h
      omega

/-- The places of two blocks lie apart. -/
theorem packed_apart {a' d' : Nat} (h : (a, d) ∈ packed size p l) (h' : (a', d') ∈ packed size p l)
    (hne : a ≠ a') : d + size a ≤ d' ∨ d' + size a' ≤ d := by
  induction l generalizing p with
  | nil => cases h
  | cons x l ih =>
    rcases List.mem_cons.mp h with heq | h <;> rcases List.mem_cons.mp h' with heq' | h'
    · cases heq
      cases heq'
      exact absurd rfl hne
    · cases heq
      exact Or.inl (packed_bounds h').1
    · cases heq'
      exact Or.inr (packed_bounds h).1
    · exact ih h h'

theorem packed_unique (hnodup : l.Nodup) {d' : Nat} (h : (a, d) ∈ packed size p l)
    (h' : (a, d') ∈ packed size p l) : d = d' := by
  induction l generalizing p with
  | nil => cases h
  | cons x l ih =>
    obtain ⟨hx, hnodup⟩ := List.nodup_cons.mp hnodup
    rcases List.mem_cons.mp h with heq | h <;> rcases List.mem_cons.mp h' with heq' | h'
    · cases heq
      cases heq'
      rfl
    · cases heq
      exact absurd (mem_of_packed h') hx
    · cases heq'
      exact absurd (mem_of_packed h) hx
    · exact ih hnodup h h'

/-- No two blocks get the same place. -/
theorem packed_snd_nodup (hpos : ∀ a ∈ l, 0 < size a) : ((packed size p l).map Prod.snd).Nodup := by
  induction l generalizing p with
  | nil => exact List.nodup_nil
  | cons x l ih =>
    rw [packed, List.map_cons]
    refine List.nodup_cons.mpr ⟨fun hmem => ?_, ih fun a ha => hpos a (List.mem_cons_of_mem _ ha)⟩
    obtain ⟨⟨a, d⟩, hm, heq⟩ := List.mem_map.mp hmem
    have hx := hpos x List.mem_cons_self
    have := (packed_bounds hm).1
    change d = p at heq
    omega

/-- The packed blocks tile what they fill. -/
theorem packed_tiles {size' : Nat → Nat} (hpos : ∀ a ∈ l, 0 < size a)
    (hsize : ∀ a d, (a, d) ∈ packed size p l → size' d = size a) :
    Tiles size' p (p + (l.map size).sum) ((packed size p l).map Prod.snd) := by
  induction l generalizing p with
  | nil => exact .nil _
  | cons a l ih =>
    have ha := hsize a p List.mem_cons_self
    rw [packed, List.map_cons, List.map_cons, List.sum_cons, ← Nat.add_assoc]
    refine .cons (by rw [ha]; exact hpos a List.mem_cons_self) ?_
    rw [ha]
    exact ih (fun x hx => hpos x (List.mem_cons_of_mem _ hx))
      fun x d hm => hsize x d (List.mem_cons_of_mem _ hm)

/-! ## Blocks of a tiled stretch -/

/-- The blocks are in ascending order and do not overlap; none starts below `p`. -/
structure Ascending (size : Nat → Nat) (p : Nat) (l : List Nat) : Prop where
  ge : ∀ a ∈ l, p ≤ a
  pairwise : l.Pairwise fun a a' => a + size a ≤ a'

theorem Ascending.tail {x : Nat} (h : Ascending size p (x :: l)) :
    Ascending size (p + size x) l := by
  obtain ⟨hx, hl⟩ := List.pairwise_cons.mp h.pairwise
  refine ⟨fun a ha => ?_, hl⟩
  have h1 := h.ge x List.mem_cons_self
  have h2 := hx a ha
  omega

theorem Tiles.ascending {blocks : List Nat} (h : Tiles size p b blocks) (hsub : l.Sublist blocks) :
    Ascending size p l :=
  ⟨fun _ ha => (h.bounds (hsub.subset ha)).1, h.pairwise_lt.sublist hsub⟩

/-- Packing moves blocks down. -/
theorem Ascending.packed_le (h : Ascending size p l) (hm : (a, d) ∈ packed size p l) : d ≤ a := by
  induction l generalizing p with
  | nil => cases hm
  | cons x l ih =>
    rcases List.mem_cons.mp hm with heq | hm
    · cases heq
      exact h.ge a List.mem_cons_self
    · exact ih h.tail hm

/-- The packed blocks do not reach beyond the stretch. -/
theorem Tiles.packed_sum_le {blocks : List Nat} (h : Tiles size p b blocks)
    (hsub : l.Sublist blocks) : p + (l.map size).sum ≤ b := by
  rw [h.sum_eq]
  have := (hsub.map size).sum_le_sum fun x _ => Nat.zero_le x
  omega

/-! ## The slide -/

section Slide

variable {α : Type*} {m : Nat → α}

theorem blit_inside {src dst n o : Nat} (h : o < n) : blit m src dst n (dst + o) = m (src + o) := by
  unfold blit
  rw [if_pos (by omega), Nat.add_sub_cancel_left]

theorem blit_outside {src dst n x : Nat} (h : ¬ (dst ≤ x ∧ x < dst + n)) :
    blit m src dst n x = m x := if_neg h

/-- Words outside the packed stretch stay. -/
theorem slideBlocks_outside {x : Nat} (hx : ¬ (p ≤ x ∧ x < p + (l.map size).sum)) :
    slideBlocks size m (packed size p l) x = m x := by
  induction l generalizing p m with
  | nil => rfl
  | cons a l ih =>
    rw [List.map_cons, List.sum_cons] at hx
    rw [packed, slideBlocks, List.foldl_cons]
    change slideBlocks size (blit m a p (size a)) _ x = _
    rw [ih (by omega), blit_outside (by omega)]

/-- Every block arrives as it was. -/
theorem slideBlocks_apply (h : Ascending size p l) (hm : (a, d) ∈ packed size p l) {o : Nat}
    (ho : o < size a) : slideBlocks size m (packed size p l) (d + o) = m (a + o) := by
  induction l generalizing p m with
  | nil => cases hm
  | cons x l ih =>
    rw [packed, slideBlocks, List.foldl_cons]
    change slideBlocks size (blit m x p (size x)) _ _ = _
    rcases List.mem_cons.mp hm with heq | hm
    · cases heq
      rw [slideBlocks_outside (by omega), blit_inside ho]
    · -- what is still to be moved lies above what this block overwrites
      have hge := h.tail.ge a (mem_of_packed hm)
      rw [ih h.tail hm, blit_outside (by omega)]

end Slide

end WinVm.Lib
