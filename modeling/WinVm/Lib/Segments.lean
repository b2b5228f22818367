import WinVm.Lib.OrderedMap
import Mathlib.Algebra.Order.BigOperators.Group.List
import Mathlib.Data.List.Chain
import Mathlib.Tactic.Ring

/-!
# Segments

A stretch of addresses cut into consecutive segments, each in use or not. The list of the
segments gives both halves by address: the blocks in use and the holes between them.
-/

namespace WinVm.Lib

structure Segment where
  len : Nat
  used : Bool
deriving DecidableEq, Repr

namespace Segment

variable {segs segs' pre post : List Segment} {k : Bool} {p q a n : Nat}

def total (segs : List Segment) : Nat := (segs.map len).sum

/-- The segments that are in use, or those that are not, by address and length. -/
def placed (k : Bool) : Nat → List Segment → List (Nat × Nat)
  | _, [] => []
  | p, s :: rest =>
    if s.used = k then (p, s.len) :: placed k (p + s.len) rest else placed k (p + s.len) rest

/-- All segments, by address and length. -/
def places : Nat → List Segment → List (Nat × Nat)
  | _, [] => []
  | p, s :: rest => (p, s.len) :: places (p + s.len) rest

@[simp] theorem total_nil : total [] = 0 := rfl

@[simp] theorem total_cons (s : Segment) : total (s :: segs) = s.len + total segs := rfl

@[simp] theorem total_append : total (segs ++ segs') = total segs + total segs' := by
  unfold total
  rw [List.map_append, List.sum_append]

theorem dvd_total {d : Nat} (h : ∀ s ∈ segs, d ∣ s.len) : d ∣ total segs := by
  induction segs with
  | nil => exact Nat.dvd_zero d
  | cons s segs ih =>
    rw [total_cons]
    exact Nat.dvd_add (h s List.mem_cons_self) (ih fun t ht => h t (List.mem_cons_of_mem _ ht))

theorem placed_append : placed k p (segs ++ segs') =
    placed k p segs ++ placed k (p + total segs) segs' := by
  induction segs generalizing p with
  | nil => rfl
  | cons s segs ih =>
    have hp : p + s.len + total segs = p + total (s :: segs) := by
      rw [total_cons, Nat.add_assoc]
    rw [List.cons_append, placed, placed, ih, hp]
    split <;> rfl

theorem placed_cons_self : placed k p (⟨n, k⟩ :: segs) = (p, n) :: placed k (p + n) segs :=
  if_pos rfl

theorem placed_cons_of_ne {s : Segment} (h : s.used ≠ k) :
    placed k p (s :: segs) = placed k (p + s.len) segs :=
  if_neg h

theorem mem_placed : (a, n) ∈ placed k p segs ↔
    ∃ pre post, segs = pre ++ ⟨n, k⟩ :: post ∧ a = p + total pre := by
  induction segs generalizing p with
  | nil => simp [placed]
  | cons s segs ih =>
    constructor
    · intro h
      have hcases : (s.used = k ∧ a = p ∧ n = s.len) ∨ (a, n) ∈ placed k (p + s.len) segs := by
        unfold placed at h
        split at h
        · rename_i hk
          rcases List.mem_cons.mp h with heq | h
          · exact .inl ⟨hk, congrArg Prod.fst heq, congrArg Prod.snd heq⟩
          · exact .inr h
        · exact .inr h
      rcases hcases with ⟨rfl, rfl, rfl⟩ | h
      · exact ⟨[], segs, rfl, rfl⟩
      · obtain ⟨pre, post, rfl, rfl⟩ := ih.mp h
        exact ⟨s :: pre, post, rfl, by rw [total_cons, Nat.add_assoc]⟩
    · rintro ⟨pre, post, heq, rfl⟩
      rw [heq, placed_append, placed_cons_self]
      exact List.mem_append_right _ List.mem_cons_self

theorem placed_bounds (h : (a, n) ∈ placed k p segs) : p ≤ a ∧ a + n ≤ p + total segs := by
  obtain ⟨pre, post, rfl, rfl⟩ := mem_placed.mp h
  rw [total_append, total_cons]
  exact ⟨Nat.le_add_right _ _, by dsimp only; omega⟩

/-- Every segment has a length. -/
def Positive (segs : List Segment) : Prop := ∀ s ∈ segs, 0 < s.len

theorem Positive.placed_lt (h : Positive segs) (hm : (a, n) ∈ placed k p segs) :
    a < p + total segs := by
  obtain ⟨pre, post, rfl, rfl⟩ := mem_placed.mp hm
  have := h ⟨n, k⟩ (by simp)
  rw [total_append, total_cons]
  dsimp only at this ⊢
  omega

/-- The blocks and the holes are all of it. -/
theorem places_perm : (places p segs).Perm (placed true p segs ++ placed false p segs) := by
  induction segs generalizing p with
  | nil => exact .nil
  | cons s segs ih =>
    obtain ⟨n, used⟩ := s
    cases used with
    | false =>
      rw [places, placed_cons_of_ne (by simp), placed_cons_self]
      exact (ih.cons _).trans List.perm_middle.symm
    | true =>
      rw [places, placed_cons_self, placed_cons_of_ne (by simp)]
      exact ih.cons _

/-- Blocks of positive length that follow one another from `p` to `q`. -/
inductive Tiled : Nat → Nat → List (Nat × Nat) → Prop
  | nil (p : Nat) : Tiled p p []
  | cons {p q n : Nat} {blocks : List (Nat × Nat)} (hpos : 0 < n) (h : Tiled (p + n) q blocks) :
      Tiled p q ((p, n) :: blocks)

theorem Positive.tiled (h : Positive segs) : Tiled p (p + total segs) (places p segs) := by
  induction segs generalizing p with
  | nil => exact .nil p
  | cons s segs ih =>
    have hrest := ih (p := p + s.len) fun t ht => h t (List.mem_cons_of_mem _ ht)
    rw [total_cons, ← Nat.add_assoc]
    exact .cons (h s List.mem_cons_self) hrest

theorem placed_pairwise : (placed k p segs).Pairwise fun e e' => e.1 + e.2 ≤ e'.1 := by
  induction segs generalizing p with
  | nil => exact .nil
  | cons s segs ih =>
    unfold placed
    split
    · exact List.Pairwise.cons (fun e he => (placed_bounds he).1) ih
    · exact ih

/-! ## Separated holes -/

/-- The free space behind the stretch, as a segment. -/
def edge : Segment := ⟨0, false⟩

/-- No two holes in a row, and none at the end. -/
def Separated (segs : List Segment) : Prop :=
  (segs ++ [edge]).IsChain fun s t => s.used = true ∨ t.used = true

theorem separated_append : Separated (segs ++ segs') ↔
    segs.IsChain (fun s t => s.used = true ∨ t.used = true) ∧ Separated segs' ∧
      ∀ s ∈ segs.getLast?, ∀ t ∈ (segs' ++ [edge]).head?, s.used = true ∨ t.used = true := by
  unfold Separated
  rw [List.append_assoc, List.isChain_append]

theorem separated_cons_used : Separated (⟨n, true⟩ :: segs) ↔ Separated segs := by
  unfold Separated
  rw [List.cons_append, List.isChain_cons]
  simp

theorem separated_cons_hole : Separated (⟨n, false⟩ :: segs) ↔
    Separated segs ∧ ∀ t ∈ (segs ++ [edge]).head?, t.used = true := by
  unfold Separated
  rw [List.cons_append, List.isChain_cons, and_comm]
  simp

theorem separated_nil : Separated [] := List.isChain_singleton _

theorem separated_of_last (h : segs.IsChain fun s t => s.used = true ∨ t.used = true)
    (hlast : ∀ s ∈ segs.getLast?, s.used = true) : Separated segs :=
  List.isChain_append.mpr ⟨h, List.isChain_singleton _, fun s hs _ _ => .inl (hlast s hs)⟩

/-- Every hole of a separated stretch ends before its end, and where no other hole starts. -/
theorem Separated.hole (h : Separated segs) (hpos : ∀ s ∈ segs, 0 < s.len)
    (hm : (a, n) ∈ placed false p segs) :
    a + n ≠ p + total segs ∧ ∀ e ∈ placed false p segs, a + n ≠ e.1 := by
  obtain ⟨pre, post, rfl, rfl⟩ := mem_placed.mp hm
  have hnext := (separated_cons_hole.mp (separated_append.mp h).2.1).2
  cases post with
  | nil => exact absurd (hnext edge rfl) (by decide)
  | cons t post =>
    obtain ⟨m, used⟩ := t
    have hused : used = true := hnext ⟨m, used⟩ rfl
    subst hused
    have hm : 0 < m := hpos ⟨m, true⟩ (by simp)
    have hn : 0 < n := hpos ⟨n, false⟩ (by simp)
    refine ⟨?_, fun e he => ?_⟩
    · rw [total_append, total_cons, total_cons]
      dsimp only
      omega
    · rw [placed_append, placed_cons_self, placed_cons_of_ne (by simp)] at he
      rcases List.mem_append.mp he with he | he
      · have := (placed_bounds he).2
        omega
      · rcases List.mem_cons.mp he with rfl | he
        · dsimp only
          omega
        · have := (placed_bounds he).1
          dsimp only at this
          omega

/-- Between two stretches a block in use keeps the holes of both apart. -/
theorem separated_middle : Separated (segs ++ ⟨n, true⟩ :: segs') ↔
    segs.IsChain (fun s t => s.used = true ∨ t.used = true) ∧ Separated segs' := by
  rw [separated_append, separated_cons_used]
  simp [edge]

/-! ## Holes next to an address -/

/-- What lies right before the end: a hole, which is then the last one, or no hole at all. -/
theorem Positive.last_hole (h : Positive segs) :
    (∃ segs' n, segs = segs' ++ [⟨n, false⟩] ∧
      (placed false p segs).getLast? = some (p + total segs', n)) ∨
    ((∀ s ∈ segs.getLast?, s.used = true) ∧
      ∀ e ∈ (placed false p segs).getLast?, e.1 + e.2 ≠ p + total segs) := by
  rcases List.eq_nil_or_concat' segs with rfl | ⟨segs', ⟨n, used⟩, rfl⟩
  · exact .inr ⟨by simp, by simp [placed]⟩
  · cases used with
    | false =>
      refine .inl ⟨segs', n, rfl, ?_⟩
      rw [placed_append, placed_cons_self]
      simp [placed]
    | true =>
      refine .inr ⟨by simp, fun e he => ?_⟩
      have hpos : 0 < n := h ⟨n, true⟩ (by simp)
      have hm := List.mem_of_getLast? he
      rw [placed_append, placed_cons_of_ne (by simp), placed, List.append_nil] at hm
      have := (placed_bounds hm).2
      rw [total_append, total_cons, total_nil]
      dsimp only
      omega

/-- What lies right at the start: a hole, which is then the first one, or no hole at all. -/
theorem Positive.first_hole (h : Positive segs) :
    (∃ n segs', segs = ⟨n, false⟩ :: segs' ∧ (placed false p segs).head? = some (p, n)) ∨
    ((∀ s ∈ segs.head?, s.used = true) ∧ ∀ e ∈ (placed false p segs).head?, e.1 ≠ p) := by
  cases segs with
  | nil => exact .inr ⟨by simp, by simp [placed]⟩
  | cons s segs =>
    obtain ⟨n, used⟩ := s
    cases used with
    | false => exact .inl ⟨n, segs, rfl, by rw [placed_cons_self, List.head?_cons]⟩
    | true =>
      refine .inr ⟨by simp, fun e he => ?_⟩
      have hpos : 0 < n := h ⟨n, true⟩ (by simp)
      rw [placed_cons_of_ne (by simp)] at he
      have := (placed_bounds (List.mem_of_head? he)).1
      dsimp only at this
      omega

end Segment

end WinVm.Lib
