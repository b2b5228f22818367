import WinVm.Memory.Compaction

/-!
# The offset table over a run

Old gen is filled by `OldGen::allocate`, and a full collection packs the objects that survive
from its start and records them anew. A state of such a run is the universe with the objects
placed so far, by address and size.

Result: `OldRun.resolves_card`, every card below the top resolves to the object over its base.
-/

namespace WinVm.Memory

open WinVm.Lib

/-- The words of a request in bytes, rounded up as `allocate` rounds it. -/
def requestWords (sizeBytes : Nat) : Nat := (sizeBytes + 7) / 8

/-- The plan that packs these objects from an address, and where the packed objects end up. -/
def planFrom : Nat → List (Nat × Nat) → CompactPlan
  | _, [] => []
  | p, (a, n) :: rest => ⟨a, p, n⟩ :: planFrom (p + n) rest

def CompactEntry.placed (e : CompactEntry) : Nat × Nat := (e.new, e.sizeWords)

/-- The rebuild of old gen in a full collection: `slide_old` with the plan of the survivors, then
the lowered top. -/
def Universe.rebuildOld (u : Universe) (survivors : List (Nat × Nat)) : Universe :=
  { u.slideOld (planFrom u.old.start survivors) with
    old := { u.old with top := u.old.start + (survivors.map Prod.snd).sum } }

/-- What happens to old gen between two states. -/
inductive OldStep : Universe × List (Nat × Nat) → Universe × List (Nat × Nat) → Prop where
  | allocated {u u' : Universe} {blocks : List (Nat × Nat)} {sizeBytes addr : Nat} :
      -- 0 bytes fail an assertion of `record_object`; here they place an empty object
      u.allocateOld (requestWords sizeBytes) = some (u', addr) →
      OldStep (u, blocks) (u', blocks ++ [(addr, requestWords sizeBytes)])
  | refused {u : Universe} {blocks : List (Nat × Nat)} {sizeBytes : Nat} :
      u.allocateOld (requestWords sizeBytes) = none → OldStep (u, blocks) (u, blocks)
  | rebuilt {u : Universe} {blocks survivors : List (Nat × Nat)} :
      survivors.Sublist blocks →
      OldStep (u, blocks)
        (u.rebuildOld survivors, (planFrom u.old.start survivors).map CompactEntry.placed)

/-- The runs of old gen from a state in which it is empty. -/
inductive OldRun : Universe × List (Nat × Nat) → Prop where
  | empty {u : Universe} : u.old.top = u.old.start → OldRun (u, [])
  | step {s s' : Universe × List (Nat × Nat)} : OldRun s → OldStep s s' → OldRun s'

namespace Universe

variable {u v : Universe} {blocks : List (Nat × Nat)}

/-- Recording the packed survivors one after the other. -/
theorem recordAll_covers {survivors : List (Nat × Nat)} (h : v.Covers blocks)
    (hstart : v.old.start ≤ v.old.top) :
    ({ v.recordAll (planFrom v.old.top survivors) with
      old := { v.old with top := v.old.top + (survivors.map Prod.snd).sum } } : Universe).Covers
      (blocks ++ (planFrom v.old.top survivors).map CompactEntry.placed) := by
  induction survivors generalizing v blocks with
  | nil =>
    have hplaced : blocks ++ (planFrom v.old.top []).map CompactEntry.placed = blocks :=
      List.append_nil _
    rw [hplaced]
    exact h.of_offsets rfl rfl rfl
  | cons b survivors ih =>
    obtain ⟨a, n⟩ := b
    have h1 := recordObject_covers h hstart n
    have h2 := ih h1 (by
      change v.old.start ≤ v.old.top + n
      omega)
    have hplaced : blocks ++ (planFrom v.old.top ((a, n) :: survivors)).map CompactEntry.placed =
        blocks ++ [(v.old.top, n)] ++
          (planFrom (v.old.top + n) survivors).map CompactEntry.placed := by
      rw [planFrom, List.map_cons, List.append_assoc]
      rfl
    rw [hplaced]
    refine h2.of_offsets rfl ?_ ?_
    · change v.old.top + ((n :: survivors.map Prod.snd).sum) = v.old.top + n + _
      rw [List.sum_cons]
      omega
    · change ((v.recordObject v.old.top n).recordAll _).offsets = _
      refine recordAll_offsets _ _ ?_ ?_ _ <;> rfl

/-- A rebuild leaves no trace of the table it replaces. -/
theorem rebuildOld_covers (survivors : List (Nat × Nat)) :
    (u.rebuildOld survivors).Covers
      ((planFrom u.old.start survivors).map CompactEntry.placed) := by
  have hbase : ({ u.clearThrough u.old.top with
      old := { u.old with top := u.old.start } } : Universe).Covers [] := by
    intro i hi
    exact absurd hi (Nat.not_lt.mpr (Nat.le_add_right _ _))
  have hall := @recordAll_covers _ _ survivors hbase (Nat.le_refl _)
  refine hall.of_offsets rfl rfl ?_
  unfold rebuildOld
  rw [slideOld_eq]
  have hstart : (u.clearThrough u.old.top).old.start = u.old.start := by
    unfold clearThrough
    split <;> rfl
  exact recordAll_offsets { u.clearThrough u.old.top with old := { u.old with top := u.old.start } }
    (u.clearThrough u.old.top) hstart rfl _

end Universe

/-- What every state of a run satisfies. -/
structure OldTable (s : Universe × List (Nat × Nat)) : Prop where
  start_le : s.1.old.start ≤ s.1.old.top
  covers : s.1.Covers s.2

theorem OldTable.step {s s' : Universe × List (Nat × Nat)} (h : OldTable s) (hstep : OldStep s s') :
    OldTable s' := by
  cases hstep with
  | allocated halloc =>
    refine ⟨?_, Universe.allocateOld_covers h.covers h.start_le halloc⟩
    have hle := h.start_le
    obtain ⟨-, -, rfl⟩ := Universe.allocateOld_eq_some halloc
    exact hle.trans (Nat.le_add_right _ _)
  | refused => exact h
  | rebuilt hsub => exact ⟨Nat.le_add_right _ _, Universe.rebuildOld_covers _⟩

theorem OldRun.table {s : Universe × List (Nat × Nat)} (h : OldRun s) : OldTable s := by
  induction h with
  | empty hempty => exact ⟨by simp only [hempty, le_refl], fun i hi => by
      unfold Universe.cardBase at hi
      simp only [hempty] at hi
      omega⟩
  | step _ hstep ih => exact ih.step hstep

/-- In every run of allocations and rebuilds, every card that starts below the top resolves to the
object whose extent contains its base. -/
theorem OldRun.resolves_card {u : Universe} {blocks : List (Nat × Nat)} (h : OldRun (u, blocks)) (i : Nat)
    (hi : u.cardBase i < u.old.top) :
    ∃ a n, (a, n) ∈ blocks ∧ u.resolve i = some a ∧ a ≤ u.cardBase i ∧ u.cardBase i < a + n :=
  h.table.covers i hi

/-- Old gen before its first object. -/
def Universe.withEmptyOld : Universe :=
  let u := Universe.withByteArray defaultEden 5 16
  { u with old := { u.old with top := u.old.start } }

/-- Two objects, a collection that only the second survives, and a third object over card 1. -/
theorem OldRun.resolves_card_rebuilt : ∃ u, OldRun (u, [(oldStart defaultEden, 50),
    (oldStart defaultEden + 50, 100)]) ∧ u.cardBase 1 < u.old.top ∧
    ∃ a n, (a, n) ∈ [(oldStart defaultEden, 50), (oldStart defaultEden + 50, 100)] ∧
      u.resolve 1 = some a ∧ a ≤ u.cardBase 1 ∧ u.cardBase 1 < a + n := by
  have h0 : OldRun (.withEmptyOld, []) := .empty rfl
  have h1 : OldRun _ := h0.step (@OldStep.allocated _ _ _ 800 _ rfl)
  have h2 : OldRun _ := h1.step (@OldStep.allocated _ _ _ 400 _ rfl)
  have h3 : OldRun _ := h2.step (.rebuilt (List.sublist_append_right [_] [_]))
  have h4 : OldRun _ := h3.step (@OldStep.allocated _ _ _ 800 _ rfl)
  refine ⟨_, h4, ?_, h4.resolves_card 1 ?_⟩ <;> decide +kernel

end WinVm.Memory
