import WinVm.ImageStore.Edits

/-!
# Load orders

Classes are loaded in the order of `load_order`, which leaves gaps for new classes. Renumbering
gives every class a clean multiple again, one `UPDATE` after the other. Each `UPDATE` is checked
against the other rows, renumbered or not, so it fails when a class that is still to come holds
the value.

Results: `rebalanceLoadOrder_iff`, which tables are renumbered.
-/

namespace WinVm.ImageStore

open WinVm.Lib

/-- `LOAD_ORDER_START`. -/
def loadOrderStart : Int := 1000

/-- `LOAD_ORDER_STEP`. -/
def loadOrderStep : Int := 100

/-- The load order of the class at this place. -/
def cleanOrder (i : Nat) : Int := loadOrderStart + i * loadOrderStep

theorem cleanOrder_lt {i j : Nat} (h : i < j) : cleanOrder i < cleanOrder j := by
  unfold cleanOrder loadOrderStep
  omega

namespace Image

variable (img : Image)

def maxLoadOrder : Option Int := (img.classes.rows.map fun c => c.2.loadOrder).max?

def nextLoadOrder : Int := (img.maxLoadOrder.map (· + loadOrderStep)).getD loadOrderStart

/-- The division truncates. -/
def loadOrderBetween (before after : Int) : Option Int :=
  let mid := before + (after - before).tdiv 2
  if mid = before ∨ mid = after then none else some mid

/-- `ORDER BY load_order`. -/
def byLoadOrder : List (Nat × ClassRow) :=
  img.classes.rows.insertionSort fun x y => x.2.loadOrder ≤ y.2.loadOrder

def setLoadOrder (classId : Nat) (newOrder : Int) : Image :=
  { img with classes := img.classes.update classId fun c => { c with loadOrder := newOrder } }

/-- `UPDATE classes SET load_order = ?1 WHERE class_id = ?2`. -/
def updateLoadOrder (classId : Nat) (newOrder : Int) : Db Unit := do
  let img ← get
  if img.classes.rows.any fun c => c.1 ≠ classId ∧ c.2.loadOrder = newOrder then throw .unique
  set (img.setLoadOrder classId newOrder)

/-- The loop over the keys, from place `i` on. -/
def renumber : Nat → List Nat → Db Unit
  | _, [] => pure ()
  | i, classId :: ids => do
    updateLoadOrder classId (cleanOrder i)
    renumber (i + 1) ids

def rebalanceLoadOrder : Db Unit := do
  renumber 0 ((← get).byLoadOrder.map Prod.fst)

/-- What is to become of these rows, from place `i` on. -/
def renumbered (i : Nat) (rows : List (Nat × ClassRow)) : List (Nat × ClassRow) :=
  rows.mapIdx fun j c => (c.1, { c.2 with loadOrder := cleanOrder (i + j) })

/-- No row holds the value that a row before it gets. -/
def Clear (i : Nat) (rows : List (Nat × ClassRow)) : Prop :=
  ∀ j k c, j < k → rows[k]? = some c → c.2.loadOrder ≠ cleanOrder (i + j)

variable {img}

/-! ## One step -/

variable {classId : Nat} {newOrder : Int}

theorem updateLoadOrder_run : (updateLoadOrder classId newOrder).run img =
    if ∃ c ∈ img.classes.rows, c.1 ≠ classId ∧ c.2.loadOrder = newOrder then .error .unique img
    else .ok () (img.setLoadOrder classId newOrder) := by
  have hany : (img.classes.rows.any fun c => decide (c.1 ≠ classId ∧ c.2.loadOrder = newOrder)) =
      true ↔ ∃ c ∈ img.classes.rows, c.1 ≠ classId ∧ c.2.loadOrder = newOrder := by
    simp only [List.any_eq_true, decide_eq_true_eq]
  unfold updateLoadOrder
  rw [EStateM.run_bind, EStateM.run_get]
  dsimp only
  split
  · next hold =>
    rw [if_pos (hany.mp hold)]
    rfl
  · next hnone =>
    rw [if_neg fun hold => hnone (hany.mpr hold)]
    rfl

variable {done rest : List (Nat × ClassRow)} {c : Nat × ClassRow} {i : Nat}

/-- An update moves its row from those to do to those done. -/
theorem setLoadOrder_perm (h : img.classes.rows.Perm (done ++ c :: rest)) :
    (img.setLoadOrder c.1 newOrder).classes.rows.Perm
      (done ++ [(c.1, { c.2 with loadOrder := newOrder })] ++ rest) := by
  have hkeys := (h.map Prod.fst).nodup_iff.mp img.classes.keys_nodup
  rw [List.map_append, List.map_cons, List.nodup_append] at hkeys
  obtain ⟨-, hcons, hdisj⟩ := hkeys
  have hsame : ∀ l : List (Nat × ClassRow), (∀ x ∈ l, x.1 ≠ c.1) →
      l.map (fun x => if x.1 = c.1 then (x.1, { x.2 with loadOrder := newOrder }) else x) = l :=
    fun l hl => (List.map_congr_left fun x hx => if_neg (hl x hx)).trans (List.map_id' l)
  unfold setLoadOrder Table.update
  dsimp only
  refine (h.map _).trans ?_
  rw [List.map_append, List.map_cons, if_pos rfl, hsame done, hsame rest, List.append_assoc]
  · rfl
  · exact fun x hx heq => (List.nodup_cons.mp hcons).1 (heq ▸ List.mem_map.mpr ⟨x, hx, rfl⟩)
  · exact fun x hx heq => hdisj _ (List.mem_map.mpr ⟨x, hx, rfl⟩) _ List.mem_cons_self heq

theorem clear_cons : Clear i (c :: rest) ↔
    (∀ x ∈ rest, x.2.loadOrder ≠ cleanOrder i) ∧ Clear (i + 1) rest := by
  constructor
  · intro h
    refine ⟨fun x hx => ?_, fun j k x hjk hx => ?_⟩
    · obtain ⟨k, hk⟩ := List.mem_iff_getElem?.mp hx
      exact h 0 (k + 1) x (Nat.succ_pos k) hk
    · rw [Nat.add_assoc, Nat.add_comm 1]
      exact h (j + 1) (k + 1) x (Nat.succ_lt_succ hjk) hx
  · rintro ⟨hhead, htail⟩ j k x hjk hx
    obtain ⟨k, rfl⟩ : ∃ k', k = k' + 1 := ⟨k - 1, by omega⟩
    rw [List.getElem?_cons_succ] at hx
    cases j with
    | zero => exact hhead x (List.mem_of_getElem? hx)
    | succ j =>
      rw [Nat.add_comm j, ← Nat.add_assoc]
      exact htail j k x (Nat.lt_of_succ_lt_succ hjk) hx

theorem renumbered_cons : renumbered i (c :: rest) =
    (c.1, { c.2 with loadOrder := cleanOrder i }) :: renumbered (i + 1) rest := by
  unfold renumbered
  rw [List.mapIdx_cons]
  simp only [Nat.add_zero, Nat.add_assoc, Nat.add_comm 1]

/-! ## The loop -/

theorem ne_of_perm (h : img.classes.rows.Perm (done ++ c :: rest)) {x : Nat × ClassRow}
    (hx : x ∈ rest) : x.1 ≠ c.1 := by
  have hkeys := (h.map Prod.fst).nodup_iff.mp img.classes.keys_nodup
  rw [List.map_append, List.map_cons, List.nodup_append] at hkeys
  exact fun heq => (List.nodup_cons.mp hkeys.2.1).1 (heq ▸ List.mem_map.mpr ⟨x, hx, rfl⟩)

theorem renumber_ok (h : img.classes.rows.Perm (done ++ rest))
    (hdone : ∀ x ∈ done, x.2.loadOrder < cleanOrder i) (hclear : Clear i rest) :
    ∃ classes, (renumber i (rest.map Prod.fst)).run img = .ok () { img with classes } ∧
      classes.rows.Perm (done ++ renumbered i rest) := by
  induction rest generalizing img done i with
  | nil => exact ⟨img.classes, rfl, h⟩
  | cons c rest ih =>
    obtain ⟨hhead, htail⟩ := clear_cons.mp hclear
    -- neither a class that is done nor one that is to come has the value
    have hfree : ¬ ∃ x ∈ img.classes.rows, x.1 ≠ c.1 ∧ x.2.loadOrder = cleanOrder i := by
      rintro ⟨x, hx, hne, heq⟩
      rcases List.mem_append.mp (h.mem_iff.mp hx) with hx | hx
      · exact absurd heq (Int.ne_of_lt (hdone x hx))
      · rcases List.mem_cons.mp hx with rfl | hx
        · exact hne rfl
        · exact hhead x hx heq
    have hstep : (updateLoadOrder c.1 (cleanOrder i)).run img = _ := updateLoadOrder_run
    rw [if_neg hfree] at hstep
    have hdone' : ∀ x ∈ done ++ [(c.1, { c.2 with loadOrder := cleanOrder i })],
        x.2.loadOrder < cleanOrder (i + 1) := by
      intro x hx
      rcases List.mem_append.mp hx with hx | hx
      · exact (hdone x hx).trans (cleanOrder_lt i.lt_succ_self)
      · rw [List.mem_singleton.mp hx]
        exact cleanOrder_lt i.lt_succ_self
    obtain ⟨classes, hrun, hperm⟩ := ih (setLoadOrder_perm h) hdone' htail
    refine ⟨classes, ?_, ?_⟩
    · rw [List.map_cons, renumber, EStateM.run_bind, hstep]
      exact hrun
    · rw [renumbered_cons]
      rwa [List.append_assoc] at hperm

theorem renumber_error (h : img.classes.rows.Perm (done ++ rest)) (hnot : ¬ Clear i rest) :
    ∃ img', (renumber i (rest.map Prod.fst)).run img = .error .unique img' := by
  induction rest generalizing img done i with
  | nil => exact absurd (fun j k c _ hc => nomatch hc) hnot
  | cons c rest ih =>
    have hstep : (updateLoadOrder c.1 (cleanOrder i)).run img = _ := updateLoadOrder_run
    rw [List.map_cons, renumber, EStateM.run_bind, hstep]
    by_cases hfree : ∃ x ∈ img.classes.rows, x.1 ≠ c.1 ∧ x.2.loadOrder = cleanOrder i
    · rw [if_pos hfree]
      exact ⟨img, rfl⟩
    · rw [if_neg hfree]
      refine ih (setLoadOrder_perm h) fun htail => hnot (clear_cons.mpr ⟨fun x hx heq => ?_, htail⟩)
      have hrow := h.mem_iff.mpr (List.mem_append_right done (List.mem_cons_of_mem c hx))
      exact hfree ⟨x, hrow, ne_of_perm h hx, heq⟩

/-! ## The whole table -/

theorem byLoadOrder_perm (img : Image) : img.byLoadOrder.Perm img.classes.rows :=
  List.perm_insertionSort _ _

theorem byLoadOrder_pairwise (img : Image) :
    img.byLoadOrder.Pairwise fun x y => x.2.loadOrder ≤ y.2.loadOrder := by
  have : Std.Total fun x y : Nat × ClassRow => x.2.loadOrder ≤ y.2.loadOrder :=
    ⟨fun x y => Int.le_total x.2.loadOrder y.2.loadOrder⟩
  have : IsTrans (Nat × ClassRow) fun x y => x.2.loadOrder ≤ y.2.loadOrder :=
    ⟨fun _ _ _ => Int.le_trans⟩
  exact List.pairwise_insertionSort _ _

theorem renumbered_pairwise (rows : List (Nat × ClassRow)) :
    (renumbered i rows).Pairwise fun x y => x.2.loadOrder < y.2.loadOrder := by
  have horder : ∀ j (hj : j < (renumbered i rows).length),
      (renumbered i rows)[j].2.loadOrder = cleanOrder (i + j) := fun j hj => by simp [renumbered]
  rw [List.pairwise_iff_getElem]
  intro j k hj hk hjk
  rw [horder, horder]
  exact cleanOrder_lt (Nat.add_lt_add_left hjk i)

/-- Renumbered rows are in their order. -/
theorem byLoadOrder_eq {rows : List (Nat × ClassRow)}
    (h : img.classes.rows.Perm (renumbered 0 rows)) : img.byLoadOrder = renumbered 0 rows := by
  have hord := renumbered_pairwise (i := 0) rows
  have hnodup : ((renumbered 0 rows).map fun x => x.2.loadOrder).Nodup :=
    List.pairwise_map.mpr (hord.imp Int.ne_of_lt)
  have hperm := (byLoadOrder_perm img).trans h
  refine hperm.eq_of_pairwise (fun x y hx hy hxy hyx => ?_) (byLoadOrder_pairwise img)
    (hord.imp Int.le_of_lt)
  exact List.inj_on_of_nodup_map hnodup (hperm.mem_iff.mp hx) hy (Int.le_antisymm hxy hyx)

/-- What renumbering is for. -/
def Rebalanced (img img' : Image) : Prop :=
  img'.byLoadOrder = renumbered 0 img.byLoadOrder ∧ { img' with classes := img.classes } = img ∧
  rebalanceLoadOrder.run img' = .ok () img' ∧
  ∀ j x y, img'.byLoadOrder[j]? = some x → img'.byLoadOrder[j + 1]? = some y →
    ∃ mid, loadOrderBetween x.2.loadOrder y.2.loadOrder = some mid ∧
      x.2.loadOrder < mid ∧ mid < y.2.loadOrder

theorem loadOrderBetween_of_lt {before after : Int} (h : before + 1 < after) :
    ∃ mid, loadOrderBetween before after = some mid ∧ before < mid ∧ mid < after := by
  have hdiv : (after - before).tdiv 2 = (after - before) / 2 :=
    Int.tdiv_eq_ediv_of_nonneg (by omega)
  refine ⟨before + (after - before).tdiv 2, if_neg ?_, ?_, ?_⟩ <;> omega

theorem loadOrder_of_renumbered {rows : List (Nat × ClassRow)} {k : Nat}
    (h : (renumbered i rows)[k]? = some c) : c.2.loadOrder = cleanOrder (i + k) := by
  unfold renumbered at h
  rw [List.getElem?_mapIdx] at h
  obtain ⟨c', -, rfl⟩ := Option.map_eq_some_iff.mp h
  rfl

/-- Clean orders are clear of each other. -/
theorem clear_renumbered (rows : List (Nat × ClassRow)) : Clear i (renumbered i rows) := by
  intro j k c hjk hc
  rw [loadOrder_of_renumbered hc]
  exact Int.ne_of_gt (cleanOrder_lt (Nat.add_lt_add_left hjk i))

theorem renumbered_renumbered (rows : List (Nat × ClassRow)) :
    renumbered i (renumbered i rows) = renumbered i rows := by
  unfold renumbered
  rw [List.mapIdx_mapIdx]
  rfl

theorem rebalanceLoadOrder_ok (h : Clear 0 img.byLoadOrder) :
    ∃ img', rebalanceLoadOrder.run img = .ok () img' ∧ img.Rebalanced img' := by
  have hrun : ∀ img : Image, Clear 0 img.byLoadOrder → ∃ classes,
      rebalanceLoadOrder.run img = .ok () { img with classes } ∧
      classes.rows.Perm (renumbered 0 img.byLoadOrder) := fun img h =>
    renumber_ok (show img.classes.rows.Perm ([] ++ img.byLoadOrder) from (byLoadOrder_perm img).symm)
      (fun x hx => nomatch hx) h
  obtain ⟨classes, hok, hperm⟩ := hrun img h
  have horder : ({ img with classes } : Image).byLoadOrder = renumbered 0 img.byLoadOrder :=
    byLoadOrder_eq hperm
  refine ⟨{ img with classes }, hok, horder, rfl, ?_, ?_⟩
  · obtain ⟨classes', hok', hperm'⟩ := hrun { img with classes } (horder ▸ clear_renumbered _)
    rw [horder, renumbered_renumbered] at hperm'
    rw [hok', Table.eq_of_perm (hperm'.trans hperm.symm)]
  · intro j x y hx hy
    rw [horder] at hx hy
    rw [loadOrder_of_renumbered hx, loadOrder_of_renumbered hy]
    refine loadOrderBetween_of_lt ?_
    unfold cleanOrder loadOrderStep
    omega

theorem rebalanceLoadOrder_error (h : ¬ Clear 0 img.byLoadOrder) :
    ∃ img', rebalanceLoadOrder.run img = .error .unique img' :=
  renumber_error (show img.classes.rows.Perm ([] ++ img.byLoadOrder) from (byLoadOrder_perm img).symm)
    h

/-- Renumbering works when no class holds the value that a class before it gets. -/
theorem rebalanceLoadOrder_iff (img : Image) :
    (∃ img', rebalanceLoadOrder.run img = .ok () img' ∧ img.Rebalanced img') ↔
      ∀ (j k : Nat) (c : Nat × ClassRow), j < k → img.byLoadOrder[k]? = some c →
        c.2.loadOrder ≠ 1000 + 100 * j := by
  have hclear : (∀ (j k : Nat) (c : Nat × ClassRow), j < k → img.byLoadOrder[k]? = some c →
      c.2.loadOrder ≠ 1000 + 100 * j) ↔ Clear 0 img.byLoadOrder := by
    unfold Clear cleanOrder loadOrderStart loadOrderStep
    simp only [Nat.zero_add, Int.mul_comm]
  rw [hclear]
  refine ⟨?_, rebalanceLoadOrder_ok⟩
  rintro ⟨img', hok, -⟩
  by_contra hnot
  obtain ⟨img'', herr⟩ := rebalanceLoadOrder_error hnot
  rw [hok] at herr
  cases herr

/-- The second class holds the value that the first one gets. -/
theorem rebalanceLoadOrder_fails :
    let img := [Edit.addClass "A" none "" "" "" "" 500, .addClass "B" none "" "" "" "" 1000].foldl
      (Edit.after fun _ => []) (.new true)
    img.byLoadOrder = [(1, ⟨"A", 500⟩), (2, ⟨"B", 1000⟩)] ∧
    ∀ img', rebalanceLoadOrder.run img ≠ .ok () img' := by
  intro img
  have horder : img.byLoadOrder = [(1, ⟨"A", 500⟩), (2, ⟨"B", 1000⟩)] := by decide
  obtain ⟨img'', herr⟩ := rebalanceLoadOrder_error fun hclear : Clear 0 img.byLoadOrder =>
    hclear 0 1 (2, ⟨"B", 1000⟩) Nat.one_pos (by rw [horder]; rfl) (by decide)
  exact ⟨horder, fun img' hok => by rw [hok] at herr; cases herr⟩

end Image

end WinVm.ImageStore
