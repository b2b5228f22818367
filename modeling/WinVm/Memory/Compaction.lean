import WinVm.Memory.Forwarding

/-!
# The slide and what follows it

Phases D to F of the full collection: the marked objects slide to their places, old gen's offset
table is rebuilt, the marks are restored and the cards of old gen dirtied.

Results: `Landing.compact`, the phases end with the marked objects at their places.
-/

namespace WinVm.Memory

open WinVm.Lib

variable {u : Universe} {objs : Objects} {marked : List Nat} {mem : Mem} {side : SideMarks}

/-! ## Phase D -/

theorem slide_planOf (r : Region) : slide mem (planOf u objs marked r) =
    slideBlocks (sizeAt u.mem) mem (packed (sizeAt u.mem) (u.start r) (live objs marked r)) := by
  unfold slide planOf slideBlocks
  rw [List.foldl_map]
  rfl

/-- Sliding a region moves its objects and leaves the other regions alone. -/
theorem WfHeap.slide_region (h : WfHeap u objs) (r : Region) :
    (∀ a d, (a, d) ∈ packed (sizeAt u.mem) (u.start r) (live objs marked r) →
      ∀ o, o < sizeAt u.mem a → slide mem (planOf u objs marked r) (d + o) = mem (a + o)) ∧
    ∀ x, ¬ (u.start r ≤ x ∧ x < u.top r) → slide mem (planOf u objs marked r) x = mem x := by
  rw [slide_planOf]
  refine ⟨fun a d hm o ho => slideBlocks_apply (h.ascending_live r) hm ho, fun x hx => ?_⟩
  have hle := @WfHeap.live_sum_le _ _ marked h r
  exact slideBlocks_outside (by omega)

/-- The memory after all three slides. -/
def slideAll (u : Universe) (objs : Objects) (marked : List Nat) (mem : Mem) : Mem :=
  slide (slide (slide mem (planOf u objs marked .eden)) (planOf u objs marked .fromSpace))
    (planOf u objs marked .old)

/-- Every marked object has arrived at its place. -/
theorem WfHeap.slideAll_apply (h : WfHeap u objs) {a d o : Nat} (hl : Lands u objs marked a d)
    (ho : o < sizeAt u.mem a) : slideAll u objs marked mem (d + o) = mem (a + o) := by
  obtain ⟨r, hr⟩ := hl
  have hlive := (mem_live.mp (mem_of_packed hr)).1
  have ha := (h.tiles r).bounds hlive
  have hd := h.packed_in hr
  have hout : ∀ s, r ≠ s → ∀ x, u.start r ≤ x → x < u.top r → ∀ m : Mem,
      slide m (planOf u objs marked s) x = m x := by
    intro s hrs x h1 h2 m
    refine (h.slide_region s).2 x ?_
    have := h.top_apart r s hrs
    omega
  unfold slideAll
  cases r with
  | eden =>
    rw [hout .old (by decide) _ (by omega) (by omega),
      hout .fromSpace (by decide) _ (by omega) (by omega), (h.slide_region .eden).1 a d hr o ho]
  | fromSpace =>
    rw [hout .old (by decide) _ (by omega) (by omega), (h.slide_region .fromSpace).1 a d hr o ho,
      hout .eden (by decide) _ (by omega) (by omega)]
  | toSpace =>
    rw [h.toEmpty] at hlive
    cases hlive
  | old =>
    rw [(h.slide_region .old).1 a d hr o ho, hout .fromSpace (by decide) _ (by omega) (by omega),
      hout .eden (by decide) _ (by omega) (by omega)]

namespace Universe

/-- The offset table's share of `slide_old`. -/
def recordAll (v : Universe) (plan : CompactPlan) : Universe :=
  plan.foldl (fun v e => v.recordObject e.new e.sizeWords) v

/-- Recording looks at old gen's start and the entries only. -/
theorem recordAll_offsets (v v' : Universe) (hstart : v'.old.start = v.old.start)
    (hoff : v'.offsets = v.offsets) (plan : CompactPlan) :
    (v'.recordAll plan).offsets = (v.recordAll plan).offsets := by
  unfold recordAll
  induction plan generalizing v v' with
  | nil => exact hoff
  | cons e plan ih =>
    rw [List.foldl_cons, List.foldl_cons]
    refine ih _ _ hstart ?_
    unfold recordObject cardIndex cardBase
    simp only [hstart, hoff]

theorem slideOld_eq (v : Universe) (plan : CompactPlan) : v.slideOld plan =
    { v with
      mem := slide v.mem plan
      offsets := ((v.clearThrough v.old.top).recordAll plan).offsets } := by
  have hstep : ∀ w : Universe, plan.foldl (fun w e =>
      { w with mem := copyWords w.mem e.old e.new e.sizeWords }.recordObject e.new e.sizeWords) w =
      { w with mem := slide w.mem plan, offsets := (w.recordAll plan).offsets } := by
    intro w
    induction plan generalizing w with
    | nil => rfl
    | cons e plan ih =>
      rw [List.foldl_cons, ih]
      unfold slide recordAll
      rw [List.foldl_cons, List.foldl_cons]
      have hall := recordAll_offsets (w.recordObject e.new e.sizeWords)
        ({ w with mem := copyWords w.mem e.old e.new e.sizeWords }.recordObject e.new e.sizeWords)
        rfl rfl plan
      unfold recordAll at hall
      rw [hall]
      rfl
  unfold slideOld
  rw [hstep]
  unfold clearThrough
  split <;> rfl

/-- Recording packed objects one after the other is allocating them. -/
theorem recordAll_resolves {size s : Nat → Nat} {l olds : List Nat} {v : Universe}
    (h : v.Resolves s olds) (hstart : v.old.start ≤ v.old.top)
    (hs : ∀ a d, (a, d) ∈ packed size v.old.top l → s d = size a)
    (hcap : v.old.top + (l.map size).sum ≤ v.old.committedEnd) :
    ({ v.recordAll ((packed size v.old.top l).map (entryOf size)) with
      old := { v.old with top := v.old.top + (l.map size).sum } } : Universe).Resolves s
      (olds ++ (packed size v.old.top l).map Prod.snd) := by
  induction l generalizing v olds with
  | nil =>
    have hl : olds ++ (packed size v.old.top []).map Prod.snd = olds := List.append_nil _
    rw [hl]
    exact h.of_offsets rfl rfl rfl
  | cons a l ih =>
    rw [List.map_cons, List.sum_cons] at hcap ⊢
    have halloc : v.allocateOld (size a) =
        some ({ v with old := { v.old with top := v.old.top + size a } }.recordObject v.old.top
          (size a), v.old.top) := by
      unfold allocateOld
      rw [if_pos (by omega)]
    have h1 := allocateOld_resolves h hstart halloc (hs a v.old.top List.mem_cons_self)
    have h2 := ih h1 (by
        change v.old.start ≤ v.old.top + size a
        omega)
      (fun b d hm => hs b d (List.mem_cons_of_mem _ hm)) (by
        change v.old.top + size a + _ ≤ v.old.committedEnd
        omega)
    have hl : olds ++ (packed size v.old.top (a :: l)).map Prod.snd =
        olds ++ [v.old.top] ++ (packed size (v.old.top + size a) l).map Prod.snd := by
      rw [packed, List.map_cons, List.append_assoc]
      rfl
    rw [hl]
    refine h2.of_offsets rfl ?_ ?_
    · change v.old.top + (size a + _) = v.old.top + size a + _
      omega
    · change ((v.recordObject v.old.top (size a)).recordAll _).offsets = _
      refine recordAll_offsets _ _ ?_ ?_ _ <;> rfl

end Universe

/-! ## Phase E -/

namespace Mark

/-- The state a mark carries survives a full collection; the mark bit is off again. -/
def SameState (w w' : Nat) : Prop :=
  IsMark w' ∧ hash w' = hash w ∧ age w' = age w ∧ nearDeath w' = nearDeath w ∧ gcMark w' = 0

/-- The mark that phase E writes, from the parked one. -/
def restored (parked : Option Nat) (tagged : Nat) : Nat :=
  withGcMark (withTaggedContents (parked.getD pristine) tagged) 0

theorem sameState_withTagged {v n : Nat} (hv : IsMark v) (hn : n ≤ 1) :
    SameState v (withGcMark (withTaggedContents v n) 0) := by
  unfold IsMark at hv
  unfold SameState IsMark hash age nearDeath gcMark withGcMark withTaggedContents taggedContents
    gcMark
  omega

/-- The mark bit is apart from the state. -/
theorem withGcMark_state {v k : Nat} (hv : IsMark v) (hk : k ≤ 1) :
    IsMark (withGcMark v k) ∧ hash (withGcMark v k) = hash v ∧
      age (withGcMark v k) = age v ∧ nearDeath (withGcMark v k) = nearDeath v := by
  unfold IsMark at hv
  unfold IsMark hash age nearDeath withGcMark gcMark
  omega

theorem sameState_restored {w n : Nat} (hw : IsMark w) (hn : n ≤ 1) :
    SameState w (restored (if HasState (withGcMark w 1)
      then some (withGcMark (withGcMark w 1) 0) else none) n) := by
  obtain ⟨hm1, hh1, ha1, hd1⟩ := withGcMark_state hw (Nat.le_refl 1)
  unfold restored
  by_cases hs : HasState (withGcMark w 1)
  · rw [if_pos hs, Option.getD_some]
    obtain ⟨hm0, hh0, ha0, hd0⟩ := withGcMark_state hm1 (Nat.zero_le 1)
    obtain ⟨h1, h2, h3, h4, h5⟩ := sameState_withTagged hm0 hn
    exact ⟨h1, h2.trans (hh0.trans hh1), h3.trans (ha0.trans ha1), h4.trans (hd0.trans hd1), h5⟩
  · rw [if_neg hs, Option.getD_none]
    have hp : hash pristine = 0 ∧ age pristine = 0 ∧ nearDeath pristine = 0 := by decide
    have hpm : IsMark pristine := rfl
    obtain ⟨h1, h2, h3, h4, h5⟩ := sameState_withTagged hpm hn
    unfold HasState at hs
    rw [hh1, ha1, hd1, not_or, not_or, not_not, not_not, not_not] at hs
    obtain ⟨hs1, hs2, hs3⟩ := hs
    exact ⟨h1, h2.trans (hp.1.trans hs1.symm), h3.trans (hp.2.1.trans hs2.symm),
      h4.trans (hp.2.2.trans hs3.symm), h5⟩

end Mark

/-- The memory holds the marked objects at their places. -/
abbrev Landed (u : Universe) (objs : Objects) (marked : List Nat) (mem : Mem) : Prop :=
  Sim u.mem mem (Lands u objs marked)

theorem WfHeap.lands_dom (h : WfHeap u objs) (a d : Nat) (hl : Lands u objs marked a d) :
    IsObject objs a :=
  (h.lands_marked hl).1

/-- The header of a place is in no other object's body. -/
theorem WfHeap.place_ne (h : WfHeap u objs) {a d a' d' off : Nat} (hl : Lands u objs marked a d)
    (hl' : Lands u objs marked a' d') (h1 : 1 ≤ off) (h2 : off < sizeAt u.mem a) :
    d + off ≠ d' := by
  by_cases haa : a = a'
  · subst haa
    have := h.lands_unique hl hl'
    omega
  · have hsize := (h.object a' (h.lands_dom a' d' hl')).two_le_sizeAt
    have := h.lands_apart hl hl' haa
    omega

theorem Landed.update_header (h0 : WfHeap u objs) (h : Landed u objs marked mem) {a d v : Nat}
    (hl : Lands u objs marked a d) : Landed u objs marked (Function.update mem d v) := by
  intro b b' hb
  have hobj := h0.object b (h0.lands_dom b b' hb)
  refine ⟨fun off hoff => ?_, fun off h1 h2 hn => ?_⟩
  · obtain ⟨h1, h2⟩ := hobj.slot_bounds hoff
    rw [Function.update_of_ne (h0.place_ne hb hl h1 h2)]
    exact (h b b' hb).slots off hoff
  · rw [Function.update_of_ne (h0.place_ne hb hl h1 h2)]
    exact (h b b' hb).raw off h1 h2 hn

/-- The marks of some of the moved objects are restored. -/
theorem Landed.restoreMarks (h0 : WfHeap u objs) (h : Landed u objs marked mem)
    {l : List (Nat × Nat)} (hl : ∀ e ∈ l, Lands u objs marked e.1 e.2)
    (hnodup : (l.map Prod.snd).Nodup) :
    ∃ mem', restoreMarks side mem (l.map (entryOf (sizeAt u.mem))) = some mem' ∧
      Landed u objs marked mem' ∧
      (∀ e ∈ l, ∃ n ≤ 1, mem' e.2 = Mark.restored (side e.2) n) ∧
      ∀ x, x ∉ l.map Prod.snd → mem' x = mem x := by
  induction l generalizing mem with
  | nil => exact ⟨mem, rfl, h, fun e he => absurd he List.not_mem_nil, fun _ _ => rfl⟩
  | cons e l ih =>
    obtain ⟨he, hnodup⟩ := List.nodup_cons.mp hnodup
    have hle := hl e List.mem_cons_self
    have hk := Sim.klassOop h0.object h0.lands_dom h hle
    obtain ⟨mem', hcall, hland, hmarks, hframe⟩ := ih
      (h.update_header h0 hle (v := Mark.restored (side e.2) (1 - untaggedAt mem (klassAt mem e.2))))
      (fun e' he' => hl e' (List.mem_cons_of_mem _ he')) hnodup
    refine ⟨mem', ?_, hland, ?_, ?_⟩
    · unfold Memory.restoreMarks at hcall ⊢
      rw [List.map_cons, List.foldlM_cons]
      unfold restoreMark entryOf
      rw [hk]
      exact hcall
    · intro e' he'
      rcases List.mem_cons.mp he' with rfl | he'
      · refine ⟨1 - untaggedAt mem (klassAt mem e'.2), by omega, ?_⟩
        rw [hframe _ he, Function.update_self]
      · exact hmarks e' he'
    · intro x hx
      rw [List.map_cons, List.mem_cons, not_or] at hx
      rw [hframe x hx.2, Function.update_of_ne hx.1]

end WinVm.Memory
