import WinVm.Memory.Scavenging

/-!
# Scanning objects and cards

The parts of a scavenge that walk over slots: the body of one object, the slots of an object
inside a card's window, the objects across a card, the card table, a table of roots.

Results: `Scavenging.scanObject`, an object of the Cheney loop is scanned completely;
`Scavenging.dirtyCardScan`, every slot on a card that was dirty is visited, and a card is
cleaned only if none of its slots points into new gen any more.
-/

namespace WinVm.Memory

open WinVm.Lib

/-- The slots of a settled object. -/
def SlotsOf (u0 : Universe) (p : Progress) (c x : Nat) : Prop :=
  ∃ off ∈ slotsAt u0.mem (p.orig c), x = c + off

namespace Scavenging

variable {u0 : Universe} {objs : Objects} {u u' : Universe} {p p' : Progress}
variable (h0 : WfHeap u0 objs) (h : Scavenging u0 objs u p)

include h0 in
/-- Stand-ins stay stand-ins. -/
theorem stands_grows (h : Scavenging u0 objs u p) (h' : Scavenging u0 objs u' p')
    (hg : Adds objs u p u' p') {a a' : Nat} (hs : Stands objs u.mem a a') :
    Stands objs u'.mem a a' := by
  obtain ⟨ha, rfl | ⟨hy, hw⟩⟩ := hs
  · exact .refl ha
  · obtain ⟨hset, horig⟩ := h.copied.settled_of_forwarded h0.object hy hw
    have hst := h'.copied.orig_stands (hg.settled hset)
    rwa [hg.orig_settled hset, horig] at hst

/-! ## Shapes -/

section Shapes

variable {c k : Nat} {f : Format}
include h0 h

/-- A settled object reads its shape off any stand-in of its klass. -/
theorem shape (hc : p.Settled objs c)
    (hf : formatAt u0.mem (klassAt u0.mem (p.orig c)) = some f)
    (hk : Stands objs u.mem (klassAt u0.mem (p.orig c)) k) :
    formatAt u.mem k = some f ∧
      nonIndexableSize u.mem k = some (nisAt u0.mem (klassAt u0.mem (p.orig c))) ∧
      sizeWordsForKlass u.mem c k = some (p.size u0.mem c) ∧ klassOop u.mem (oopAt k) = some k := by
  have hsim := h.simulates h0
  have hst := h.copied.orig_stands hc
  have hobj := h0.object _ hst.1
  have hwk := hsim.wfKlass h0.object Copied.stands_dom hk hobj.klass
  have hnis := (hsim.nisAt_eq h0.object Copied.stands_dom hk hobj.klass).1
  refine ⟨?_, ?_, ?_, hwk.klassOop⟩
  · exact (hsim.formatAt_eq h0.object Copied.stands_dom hk hobj.klass).1.trans hf
  · rw [hwk.nonIndexableSize, hnis]
  · exact hsim.sizeWordsForKlass h0.object Copied.stands_dom hst hk

theorem klassWord (hc : p.Settled objs c) : u.mem (c + 1) = oopAt (klassAt u.mem c) ∧
    Stands objs u.mem (klassAt u0.mem (p.orig c)) (klassAt u.mem c) :=
  (h.simulates h0).klassWord h0.object Copied.stands_dom (h.copied.orig_stands hc)

theorem sizeSlot (hc : p.Settled objs c)
    (hf : formatAt u0.mem (klassAt u0.mem (p.orig c)) = some f) (hs : f.hasSizeSlot = true) :
    rawSizeSlot u.mem c (nisAt u0.mem (klassAt u0.mem (p.orig c))) =
      some (lenAt u0.mem (p.orig c)) := by
  have hsim := h.simulates h0
  have hst := h.copied.orig_stands hc
  obtain ⟨hlen, hsmi⟩ := hsim.lenSmi h0.object Copied.stands_dom hst hf hs
  have hobj := h0.object _ hst.1
  have hk := (h.klassWord h0 hc).2
  have hnis := (hsim.nisAt_eq h0.object Copied.stands_dom hk hobj.klass).1
  unfold rawSizeSlot
  rw [if_pos hsmi, ← hlen]
  unfold lenAt
  rw [hnis]

omit h0 h in
theorem slotsAt_eq (hf : formatAt u0.mem (klassAt u0.mem (p.orig c)) = some f) :
    slotsAt u0.mem (p.orig c) = 1 :: (f.namedOffsets (nisAt u0.mem (klassAt u0.mem (p.orig c))) ++
      f.tailOffsets (nisAt u0.mem (klassAt u0.mem (p.orig c))) (lenAt u0.mem (p.orig c))) := by
  unfold slotsAt
  rw [hf]

end Shapes

/-! ## Several slots of one object -/

include h0

/-- The slots of a settled object at the offsets `offs` are replaced one by one. -/
theorem visitSlots {c : Nat} (offs : List Nat) (h : Scavenging u0 objs u p)
    (hc : p.Settled objs c) (hsub : ∀ off ∈ offs, off ∈ slotsAt u0.mem (p.orig c))
    (hnodup : offs.Nodup) (hnot : ∀ off ∈ offs, ¬ p.touched (c + off))
    (hcard : ∀ off ∈ offs, CardReady u0 u (c + off)) :
    ∃ u' p', Memory.visitSlots Universe.mem Universe.write Universe.scavengeOop u
        (offs.map (c + ·)) = some u' ∧
      Visits u0 objs u p (fun x => ∃ off ∈ offs, x = c + off) u' p' := by
  induction offs generalizing u p with
  | nil =>
    refine ⟨u, p, rfl, (Visits.none h).congr fun x => ?_⟩
    simp
  | cons off offs ih =>
    obtain ⟨u1, v, p1, hcall, hv⟩ := h.visit h0 hc (hsub off List.mem_cons_self)
      (hnot off List.mem_cons_self) (hcard off List.mem_cons_self)
    obtain ⟨hfresh, hnodup⟩ := List.nodup_cons.mp hnodup
    obtain ⟨u2, p2, hrest, hv2⟩ := ih hv.inv (hv.grows.settled hc) (fun o ho => by
        rw [hv.grows.orig_settled hc]
        exact hsub o (List.mem_cons_of_mem _ ho)) hnodup (fun o ho ht => by
        rcases (hv.touched _).mp ht with ht | heq
        · exact hnot o (List.mem_cons_of_mem _ ho) ht
        · exact hfresh (Nat.add_left_cancel heq ▸ ho)) (fun o ho =>
        (hcard o (List.mem_cons_of_mem _ ho)).grows hv.grows
          (hv.inv.oldStart.trans h.oldStart.symm))
    refine ⟨u2, p2, ?_, (hv.trans hv2).congr fun x => ?_⟩
    · unfold Memory.visitSlots at hrest ⊢
      rw [List.map_cons, List.foldlM_cons]
      unfold visitSlot
      rw [hcall]
      exact hrest
    · simp only [List.mem_cons, exists_eq_or_imp]

/-- `for_each_oop_field` on the body of a settled object none of whose slots was visited. -/
theorem scanBody {c : Nat} (h : Scavenging u0 objs u p) (hc : p.Settled objs c)
    (hnot : ∀ off ∈ slotsAt u0.mem (p.orig c), off ≠ 1 → ¬ p.touched (c + off))
    (hcard : ∀ off ∈ slotsAt u0.mem (p.orig c), CardReady u0 u (c + off)) :
    ∃ u' p', u.scanBody c = some u' ∧ Visits u0 objs u p
      (fun x => ∃ off ∈ slotsAt u0.mem (p.orig c), off ≠ 1 ∧ x = c + off) u' p' := by
  have hobj := h0.object _ (h.orig_isObject h0 hc)
  obtain ⟨f, hf⟩ := hobj.klass.format
  obtain ⟨hword, hst⟩ := h.klassWord h0 hc
  obtain ⟨hfmt, hnis, -, hklass⟩ := h.shape h0 hc hf hst
  have hslots := slotsAt_eq (p := p) (c := c) hf
  have hnodup := hobj.slotsAt_nodup
  rw [hslots] at hnodup hnot hcard
  obtain ⟨hone, hnodup⟩ := List.nodup_cons.mp hnodup
  obtain ⟨hn1, hn2, hdisj⟩ := List.nodup_append.mp hnodup
  have hne : ∀ off, off ∈ f.namedOffsets (nisAt u0.mem (klassAt u0.mem (p.orig c))) ++
      f.tailOffsets (nisAt u0.mem (klassAt u0.mem (p.orig c))) (lenAt u0.mem (p.orig c)) →
      off ≠ 1 := fun off ho heq => hone (heq ▸ ho)
  obtain ⟨u1, p1, hnamed, hv1⟩ := h.visitSlots h0 (f.namedOffsets _) hc
    (fun off ho => hslots ▸ List.mem_cons_of_mem _ (List.mem_append_left _ ho)) hn1
    (fun off ho => hnot off (List.mem_cons_of_mem _ (List.mem_append_left _ ho))
      (hne off (List.mem_append_left _ ho)))
    (fun off ho => hcard off (List.mem_cons_of_mem _ (List.mem_append_left _ ho)))
  have hc1 := hv1.grows.settled hc
  have horig := hv1.grows.orig_settled hc
  obtain ⟨u2, p2, htail, hv2⟩ := hv1.inv.visitSlots h0 (f.tailOffsets
      (nisAt u0.mem (klassAt u0.mem (p.orig c))) (lenAt u0.mem (p.orig c))) hc1
    (fun off ho => by
      rw [horig, hslots]
      exact List.mem_cons_of_mem _ (List.mem_append_right _ ho)) hn2
    (fun off ho ht => by
      rcases (hv1.touched _).mp ht with ht | ⟨o, hmem, heq⟩
      · exact hnot off (List.mem_cons_of_mem _ (List.mem_append_right _ ho))
          (hne off (List.mem_append_right _ ho)) ht
      · exact hdisj o hmem off ho (by omega))
    (fun off ho => (hcard off (List.mem_cons_of_mem _ (List.mem_append_right _ ho))).grows
      hv1.grows (hv1.inv.oldStart.trans h.oldStart.symm))
  refine ⟨u2, p2, ?_, (hv1.trans hv2).congr fun x => ?_⟩
  · have hlen : f.hasSizeSlot = true → rawSizeSlot u1.mem c
        (nisAt u0.mem (klassAt u0.mem (p.orig c))) = some (lenAt u0.mem (p.orig c)) := by
      intro hs
      have := hv1.inv.sizeSlot h0 hc1 (horig ▸ hf) hs
      rwa [horig] at this
    unfold Universe.scanBody forEachOopField
    rw [hword, hklass]
    simp only [Option.bind_eq_bind, Option.bind_some, hnis, hfmt, hnamed]
    -- only formats with an oop tail visit one
    cases f
    case indexableOops => simpa only [hlen rfl, Option.bind_some] using htail
    case closure => simpa only [hlen rfl, Option.bind_some] using htail
    case context => simpa only [hlen rfl, Option.bind_some] using htail
    all_goals exact htail
  · rw [hslots]
    simp only [List.mem_cons, List.mem_append]
    constructor
    · rintro (⟨off, ho, rfl⟩ | ⟨off, ho, rfl⟩)
      · exact ⟨off, Or.inr (Or.inl ho), hne off (List.mem_append_left _ ho), rfl⟩
      · exact ⟨off, Or.inr (Or.inr ho), hne off (List.mem_append_right _ ho), rfl⟩
    · rintro ⟨off, rfl | ho | ho, h1, rfl⟩
      · exact absurd rfl h1
      · exact Or.inl ⟨off, ho, rfl⟩
      · exact Or.inr ⟨off, ho, rfl⟩

/-- One object of the Cheney loop: all its slots are visited, or there was a stall. -/
theorem scanObject {c : Nat} (h : Scavenging u0 objs u p) (hc : p.Settled objs c)
    (hnot : ∀ off ∈ slotsAt u0.mem (p.orig c), ¬ p.touched (c + off))
    (hcard : ∀ off ∈ slotsAt u0.mem (p.orig c), CardReady u0 u (c + off)) :
    ∃ out, u.scanObject c = some out ∧ (∀ err, out = .error err → ¬ u0.HasRoom) ∧
      ∀ u' n, out = .ok (u', n) → n = p.size u0.mem c ∧ u'.pendingStall = none ∧
        ∃ p', Visits u0 objs u p (SlotsOf u0 p c) u' p' := by
  have hobj := h0.object _ (h.orig_isObject h0 hc)
  have hone := hobj.one_mem_slotsAt
  obtain ⟨u1, v, p1, hcall, hv1⟩ := h.visit h0 hc hone (hnot 1 hone) (hcard 1 hone)
  have hc1 := hv1.grows.settled hc
  have horig := hv1.grows.orig_settled hc
  obtain ⟨u2, p2, hbody, hv2⟩ := hv1.inv.scanBody h0 hc1
    (fun off ho hne ht => by
      rw [horig] at ho
      rcases (hv1.touched _).mp ht with ht | heq
      · exact hnot off ho ht
      · omega)
    (fun off ho => (hcard off (horig ▸ ho)).grows hv1.grows
      (hv1.inv.oldStart.trans h.oldStart.symm))
  obtain ⟨f, hf⟩ := hobj.klass.format
  have hg := hv1.grows.trans hv2.grows
  have hc2 := hg.settled hc
  have horig2 := hg.orig_settled hc
  obtain ⟨hword, hst⟩ := hv1.inv.klassWord h0 hc1
  have hself : (u1.write (c + 1) v).mem (c + 1) = v := Function.update_self _ _ _
  have hv : v = oopAt (klassAt (u1.write (c + 1) v).mem c) := hself.symm.trans hword
  have hst2 := hv1.inv.stands_grows h0 hv2.inv hv2.grows.toAdds hst
  rw [horig, ← horig2] at hst2
  obtain ⟨-, -, hsize, hklass⟩ := hv2.inv.shape h0 hc2 (horig2 ▸ hf) hst2
  rw [← hv] at hklass
  have hsz : p2.size u0.mem c = p.size u0.mem c := by
    unfold Progress.size
    rw [horig2]
  unfold Universe.scanObject
  rw [hcall]
  simp only [Option.bind_eq_bind, Option.bind_some, hbody]
  cases hp : u2.pendingStall with
  | some err =>
    refine ⟨_, rfl, fun _ _ hroom => ?_, fun u' n heq => ?_⟩
    · rw [hv2.inv.room hroom] at hp
      cases hp
    · cases heq
  | none =>
    simp only [hklass, hsize, Option.bind_some]
    refine ⟨_, rfl, (fun _ heq => by cases heq), fun u' n heq => ?_⟩
    cases heq
    refine ⟨hsz, hp, p2, (hv1.trans hv2).congr fun x => ?_⟩
    unfold SlotsOf
    rw [horig]
    constructor
    · rintro (rfl | ⟨off, ho, -, rfl⟩)
      · exact ⟨1, hone, rfl⟩
      · exact ⟨off, ho, rfl⟩
    · rintro ⟨off, ho, rfl⟩
      by_cases h1 : off = 1
      · subst h1
        exact Or.inl rfl
      · exact Or.inr ⟨off, ho, h1, rfl⟩

end Scavenging

/-! ## Slots inside a window -/

theorem Universe.pointsNew_congr {u u' : Universe} (h : u'.old.start = u.old.start) (w : Nat) :
    u'.PointsNew w ↔ u.PointsNew w := by
  unfold Universe.PointsNew
  rw [h]

theorem Universe.touch_outside {u : Universe} {still : Bool} {lo hi x : Nat}
    (h : x < lo ∨ hi ≤ x) : Universe.touch lo hi (u, still) x = some (u, still) :=
  if_pos h

theorem Universe.touch_inside {u u1 : Universe} {still : Bool} {lo hi x v : Nat}
    (h : ¬ (x < lo ∨ hi ≤ x)) (hcall : u.scavengeOop (u.mem x) = some (u1, v)) :
    Universe.touch lo hi (u, still) x = some (u1.write x v,
      still || (decide (IsMem v) && decide (memAddr v < u1.old.start))) := by
  unfold Universe.touch
  dsimp only
  rw [if_neg h, hcall]
  rfl

/-- The slots of a settled object inside the window. -/
def SlotsIn (u0 : Universe) (p : Progress) (c lo hi x : Nat) : Prop :=
  SlotsOf u0 p c x ∧ lo ≤ x ∧ x < hi

/-- A visit that also answers whether one of its slots still points into new gen. -/
structure Checks (u0 : Universe) (objs : Objects) (u : Universe) (still : Bool) (p : Progress)
    (X : Nat → Prop) (u' : Universe) (still' : Bool) (p' : Progress) : Prop where
  visits : Visits u0 objs u p X u' p'
  still : still' = false → still = false
  new : still' = false → ∀ x, X x → ¬ u0.PointsNew (u'.mem x)

namespace Checks

variable {u0 : Universe} {objs : Objects} {u u1 u2 : Universe} {s s1 s2 : Bool}
variable {p p1 p2 : Progress} {X Y : Nat → Prop}

theorem none (h : Scavenging u0 objs u p) : Checks u0 objs u s p (fun _ => False) u s p :=
  ⟨.none h, id, fun _ _ hx => hx.elim⟩

theorem trans (h : Checks u0 objs u s p X u1 s1 p1) (h' : Checks u0 objs u1 s1 p1 Y u2 s2 p2) :
    Checks u0 objs u s p (fun x => X x ∨ Y x) u2 s2 p2 := by
  refine ⟨h.visits.trans h'.visits, fun hs => h.still (h'.still hs), ?_⟩
  rintro hs x (hx | hx)
  · -- a word visited before is not touched again
    rw [h'.visits.grows.kept x ((h.visits.touched x).mpr (Or.inr hx))]
    exact h.new (h'.still hs) x hx
  · exact h'.new hs x hx

theorem congr (h : Checks u0 objs u s p X u1 s1 p1) (hXY : ∀ x, X x ↔ Y x) :
    Checks u0 objs u s p Y u1 s1 p1 :=
  ⟨h.visits.congr hXY, h.still, fun hs x hx => h.new hs x ((hXY x).mpr hx)⟩

end Checks

namespace Scavenging

variable {u0 : Universe} {objs : Objects} {u u' : Universe} {p p' : Progress}
variable (h0 : WfHeap u0 objs)
include h0

/-- One slot inside the window. -/
theorem touchOne {c off lo hi : Nat} (still : Bool) (h : Scavenging u0 objs u p)
    (hc : p.Settled objs c) (hoff : off ∈ slotsAt u0.mem (p.orig c))
    (hin : ¬ (c + off < lo ∨ hi ≤ c + off)) (hnot : ¬ p.touched (c + off))
    (hcard : CardReady u0 u (c + off)) :
    ∃ u' still' p', Universe.touch lo hi (u, still) (c + off) = some (u', still') ∧
      Checks u0 objs u still p (· = c + off) u' still' p' := by
  obtain ⟨u1, v, p1, hcall, hv⟩ := h.visit h0 hc hoff hnot hcard
  refine ⟨_, _, p1, Universe.touch_inside hin hcall, hv, ?_, ?_⟩
  · exact fun hs => (Bool.or_eq_false_iff.mp hs).1
  · rintro hs x rfl ⟨hm, hlt⟩
    have hself : (u1.write (c + off) v).mem (c + off) = v := Function.update_self _ _ _
    have hs1 : u1.old.start = u0.old.start := hv.inv.oldStart
    rw [hself] at hm hlt
    rw [← hs1] at hlt
    have h2 := (Bool.or_eq_false_iff.mp hs).2
    rw [decide_eq_true hm, decide_eq_true hlt] at h2
    cases h2

/-- The slots at the offsets `offs`, those outside the window left alone. -/
theorem touchAll {c lo hi : Nat} (still : Bool) (offs : List Nat) (h : Scavenging u0 objs u p)
    (hc : p.Settled objs c) (hsub : ∀ off ∈ offs, off ∈ slotsAt u0.mem (p.orig c))
    (hnodup : offs.Nodup)
    (hnot : ∀ off ∈ offs, lo ≤ c + off → c + off < hi → ¬ p.touched (c + off))
    (hcard : ∀ x, lo ≤ x → x < hi → CardReady u0 u x) :
    ∃ u' still' p', (offs.map (c + ·)).foldlM (Universe.touch lo hi) (u, still) =
        some (u', still') ∧
      Checks u0 objs u still p (fun x => (∃ off ∈ offs, x = c + off) ∧ lo ≤ x ∧ x < hi)
        u' still' p' := by
  induction offs generalizing u p still with
  | nil =>
    refine ⟨u, still, p, rfl, (Checks.none h).congr fun x => ?_⟩
    simp
  | cons off offs ih =>
    obtain ⟨hfresh, hnodup⟩ := List.nodup_cons.mp hnodup
    rw [List.map_cons, List.foldlM_cons]
    by_cases hin : c + off < lo ∨ hi ≤ c + off
    · obtain ⟨u', still', p', hrest, hv⟩ := ih still h hc
        (fun o ho => hsub o (List.mem_cons_of_mem _ ho)) hnodup
        (fun o ho => hnot o (List.mem_cons_of_mem _ ho)) hcard
      refine ⟨u', still', p', ?_, hv.congr fun x => ?_⟩
      · rw [Universe.touch_outside hin]
        exact hrest
      · constructor
        · rintro ⟨⟨o, ho, rfl⟩, h12⟩
          exact ⟨⟨o, List.mem_cons_of_mem _ ho, rfl⟩, h12⟩
        · rintro ⟨⟨o, ho, rfl⟩, h12⟩
          rcases List.mem_cons.mp ho with rfl | ho
          · omega
          · exact ⟨⟨o, ho, rfl⟩, h12⟩
    · have hlo : lo ≤ c + off := by omega
      have hhi : c + off < hi := by omega
      obtain ⟨u1, still1, p1, hcall, hv1⟩ := h.touchOne h0 still hc
        (hsub off List.mem_cons_self) hin (hnot off List.mem_cons_self hlo hhi) (hcard _ hlo hhi)
      have hg := hv1.visits.grows
      obtain ⟨u2, still2, p2, hrest, hv2⟩ := ih still1 hv1.visits.inv (hg.settled hc)
        (fun o ho => by
          rw [hg.orig_settled hc]
          exact hsub o (List.mem_cons_of_mem _ ho)) hnodup
        (fun o ho h1 h2 ht => by
          rcases (hv1.visits.touched _).mp ht with ht | heq
          · exact hnot o (List.mem_cons_of_mem _ ho) h1 h2 ht
          · exact hfresh (Nat.add_left_cancel heq ▸ ho))
        (fun x h1 h2 => (hcard x h1 h2).grows hg
          (hv1.visits.inv.oldStart.trans h.oldStart.symm))
      refine ⟨u2, still2, p2, ?_, (hv1.trans hv2).congr fun x => ?_⟩
      · rw [hcall]
        exact hrest
      · constructor
        · rintro (rfl | ⟨⟨o, ho, rfl⟩, h12⟩)
          · exact ⟨⟨off, List.mem_cons_self, rfl⟩, hlo, hhi⟩
          · exact ⟨⟨o, List.mem_cons_of_mem _ ho, rfl⟩, h12⟩
        · rintro ⟨⟨o, ho, rfl⟩, h12⟩
          rcases List.mem_cons.mp ho with rfl | ho
          · exact Or.inl rfl
          · exact Or.inr ⟨⟨o, ho, rfl⟩, h12⟩

/-- The oop-bearing tail: the indices inside the window are computed, not searched for. -/
theorem touchTail {c : Nat} (lo hi : Nat) (still : Bool) {f : Format} (h : Scavenging u0 objs u p)
    (hc : p.Settled objs c) (hf : formatAt u0.mem (klassAt u0.mem (p.orig c)) = some f)
    (hs : f.hasSizeSlot = true) (htail : ∀ nis len, f.tailOffsets nis len = List.range' (nis + 1) len)
    (hnot : ∀ off ∈ f.tailOffsets (nisAt u0.mem (klassAt u0.mem (p.orig c)))
      (lenAt u0.mem (p.orig c)), lo ≤ c + off → c + off < hi → ¬ p.touched (c + off))
    (hcard : ∀ x, lo ≤ x → x < hi → CardReady u0 u x) :
    ∃ u' still' p', Universe.touchTail lo hi (u, still) c = some (u', still') ∧
      Checks u0 objs u still p (fun x => (∃ off ∈ f.tailOffsets
        (nisAt u0.mem (klassAt u0.mem (p.orig c))) (lenAt u0.mem (p.orig c)), x = c + off) ∧
          lo ≤ x ∧ x < hi) u' still' p' := by
  obtain ⟨hword, hst⟩ := h.klassWord h0 hc
  obtain ⟨hfmt, hnis, -, hklass⟩ := h.shape h0 hc hf hst
  have hslots := slotsAt_eq (p := p) (c := c) hf
  rw [htail] at hnot hslots ⊢
  generalize hn : nisAt u0.mem (klassAt u0.mem (p.orig c)) = nis at *
  generalize hl : lenAt u0.mem (p.orig c) = len at *
  have hlen : u.indexableLen c = some len := by
    unfold Universe.indexableLen
    rw [hword, hklass]
    simp only [Option.bind_eq_bind, Option.bind_some, hnis, hfmt, hs, if_true]
    rw [← hn, h.sizeSlot h0 hc hf hs, hl]
  have hbase : u.tailStart c = some (c + nis + 1) := by
    unfold Universe.tailStart
    rw [hword, hklass]
    simp only [Option.bind_eq_bind, Option.bind_some, hnis]
  unfold Universe.touchTail
  simp only [hlen, hbase, Option.bind_eq_bind, Option.bind_some]
  by_cases hpos : 0 < len
  · rw [if_pos hpos]
    have hshift : List.range' (c + nis + 1 + (lo - (c + nis + 1)))
        (min (hi - (c + nis + 1)) len - (lo - (c + nis + 1))) =
        (List.range' (nis + 1 + (lo - (c + nis + 1)))
          (min (hi - (c + nis + 1)) len - (lo - (c + nis + 1)))).map (c + ·) := by
      rw [List.map_add_range']
      congr 1
      omega
    have hmem : ∀ off, off ∈ List.range' (nis + 1 + (lo - (c + nis + 1)))
        (min (hi - (c + nis + 1)) len - (lo - (c + nis + 1))) →
        off ∈ List.range' (nis + 1) len := by
      intro off ho
      rw [List.mem_range'_1] at ho ⊢
      omega
    obtain ⟨u', still', p', hcall, hv⟩ := h.touchAll h0 still _ hc
      (fun off ho => by
        rw [hslots]
        exact List.mem_cons_of_mem _ (List.mem_append_right _ (hmem off ho))) List.nodup_range'
      (fun off ho => hnot off (hmem off ho)) hcard
    refine ⟨u', still', p', by rw [hshift]; exact hcall, hv.congr fun x => ?_⟩
    constructor
    · rintro ⟨⟨off, ho, rfl⟩, h12⟩
      exact ⟨⟨off, hmem off ho, rfl⟩, h12⟩
    · rintro ⟨⟨off, ho, rfl⟩, h1, h2⟩
      refine ⟨⟨off, ?_, rfl⟩, h1, h2⟩
      rw [List.mem_range'_1] at ho ⊢
      omega
  · rw [if_neg hpos]
    refine ⟨u, still, p, rfl, (Checks.none h).congr fun x => ?_⟩
    have : len = 0 := by omega
    subst this
    simp

/-- What a scan visits last. -/
def scanTail (lo hi : Nat) (f : Format) (st : Universe × Bool) (c : Nat) : Option (Universe × Bool) :=
  match f with
  | .indexableOops | .closure | .context => Universe.touchTail lo hi st c
  | _ => some st

/-- `scan_slots_in_window` on an object none of whose slots in the window was visited. -/
theorem scanSlotsInWindow {c : Nat} (lo hi : Nat) (h : Scavenging u0 objs u p) (hc : p.Settled objs c)
    (hnot : ∀ x, SlotsIn u0 p c lo hi x → ¬ p.touched x)
    (hcard : ∀ x, lo ≤ x → x < hi → CardReady u0 u x) :
    ∃ u' still p', u.scanSlotsInWindow c (klassAt u.mem c) lo hi = some (u', still) ∧
      Checks u0 objs u false p (SlotsIn u0 p c lo hi) u' still p' := by
  have hobj := h0.object _ (h.orig_isObject h0 hc)
  obtain ⟨f, hf⟩ := hobj.klass.format
  have hst := (h.klassWord h0 hc).2
  obtain ⟨-, hnis, -, -⟩ := h.shape h0 hc hf hst
  have hslots := slotsAt_eq (p := p) (c := c) hf
  have hnodup := hobj.slotsAt_nodup
  have hin : ∀ off ∈ slotsAt u0.mem (p.orig c), lo ≤ c + off → c + off < hi →
      ¬ p.touched (c + off) := fun off ho h1 h2 => hnot _ ⟨⟨off, ho, rfl⟩, h1, h2⟩
  rw [hslots] at hnodup hin
  obtain ⟨hone, hnodup⟩ := List.nodup_cons.mp hnodup
  obtain ⟨hn1, hn2, hdisj⟩ := List.nodup_append.mp hnodup
  have hone_mem : (1 : Nat) ∈ slotsAt u0.mem (p.orig c) := hobj.one_mem_slotsAt
  -- the klass field
  obtain ⟨u1, still1, p1, hk, hv1⟩ := h.touchAll h0 false [1] hc
    (fun off ho => (List.mem_singleton.mp ho).symm ▸ hone_mem) (List.pairwise_singleton _ _)
    (fun off ho => hin off ((List.mem_singleton.mp ho).symm ▸ List.mem_cons_self)) hcard
  have hg1 := hv1.visits.grows
  have hc1 := hg1.settled hc
  have horig1 := hg1.orig_settled hc
  have hstart1 : u1.old.start = u.old.start := hv1.visits.inv.oldStart.trans h.oldStart.symm
  have hst1 := h.stands_grows h0 hv1.visits.inv hg1.toAdds hst
  rw [← horig1] at hst1
  obtain ⟨hfmt1, -, -, -⟩ := hv1.visits.inv.shape h0 hc1 (horig1 ▸ hf) hst1
  -- the named words
  obtain ⟨u2, still2, p2, hnamed, hv2⟩ := hv1.visits.inv.touchAll h0 still1
    (f.namedOffsets (nisAt u0.mem (klassAt u0.mem (p.orig c)))) hc1
    (fun off ho => by
      rw [horig1, hslots]
      exact List.mem_cons_of_mem _ (List.mem_append_left _ ho)) hn1
    (fun off ho h1 h2 ht => by
      rcases (hv1.visits.touched _).mp ht with ht | ⟨⟨o, hmem, heq⟩, -⟩
      · exact hin off (List.mem_cons_of_mem _ (List.mem_append_left _ ho)) h1 h2 ht
      · have : off = 1 := (Nat.add_left_cancel heq).trans (List.mem_singleton.mp hmem)
        exact hone (this ▸ List.mem_append_left _ ho))
    (fun x h1 h2 => (hcard x h1 h2).grows hg1 hstart1)
  have hv12 := hv1.trans hv2
  have hg2 := hv12.visits.grows
  have hc2 := hg2.settled hc
  have horig2 := hg2.orig_settled hc
  have hstart2 : u2.old.start = u.old.start := hv2.visits.inv.oldStart.trans h.oldStart.symm
  -- the oop-bearing tail
  have htail : ∃ u' still' p', scanTail lo hi f (u2, still2) c = some (u', still') ∧
      Checks u0 objs u2 still2 p2 (fun x => (∃ off ∈ f.tailOffsets
        (nisAt u0.mem (klassAt u0.mem (p.orig c))) (lenAt u0.mem (p.orig c)), x = c + off) ∧
          lo ≤ x ∧ x < hi) u' still' p' := by
    have hnone : f.tailOffsets (nisAt u0.mem (klassAt u0.mem (p.orig c)))
        (lenAt u0.mem (p.orig c)) = [] → ∃ u' still' p', some (u2, still2) = some (u', still') ∧
        Checks u0 objs u2 still2 p2 (fun x => (∃ off ∈ f.tailOffsets
          (nisAt u0.mem (klassAt u0.mem (p.orig c))) (lenAt u0.mem (p.orig c)), x = c + off) ∧
            lo ≤ x ∧ x < hi) u' still' p' := by
      intro hnil
      rw [hnil]
      refine ⟨u2, still2, p2, rfl, (Checks.none hv2.visits.inv).congr fun x => ?_⟩
      simp
    have hsome : f.hasSizeSlot = true →
        (∀ nis len, f.tailOffsets nis len = List.range' (nis + 1) len) →
        ∃ u' still' p', Universe.touchTail lo hi (u2, still2) c = some (u', still') ∧
        Checks u0 objs u2 still2 p2 (fun x => (∃ off ∈ f.tailOffsets
          (nisAt u0.mem (klassAt u0.mem (p.orig c))) (lenAt u0.mem (p.orig c)), x = c + off) ∧
            lo ≤ x ∧ x < hi) u' still' p' := by
      intro hs hrange
      have := hv2.visits.inv.touchTail h0 lo hi still2 hc2
        (horig2 ▸ hf) hs hrange (fun off ho h1 h2 ht => by
          rw [horig2] at ho
          rcases (hv12.visits.touched _).mp ht with ht | ⟨⟨o, hmem, heq⟩, -⟩ | ⟨⟨o, hmem, heq⟩, -⟩
          · exact hin off (List.mem_cons_of_mem _ (List.mem_append_right _ ho)) h1 h2 ht
          · have : off = 1 := (Nat.add_left_cancel heq).trans (List.mem_singleton.mp hmem)
            exact hone (this ▸ List.mem_append_right _ ho)
          · exact hdisj o hmem off ho (Nat.add_left_cancel heq).symm)
        (fun x h1 h2 => (hcard x h1 h2).grows hg2 hstart2)
      rwa [horig2] at this
    cases f
    case indexableOops => exact hsome rfl fun _ _ => rfl
    case closure => exact hsome rfl fun _ _ => rfl
    case context => exact hsome rfl fun _ _ => rfl
    all_goals exact hnone rfl
  obtain ⟨u3, still3, p3, htcall, hv3⟩ := htail
  refine ⟨u3, still3, p3, ?_, (hv12.trans hv3).congr fun x => ?_⟩
  · simp only [List.map_cons, List.map_nil, List.foldlM_cons, List.foldlM_nil, bind_pure] at hk
    unfold Universe.scanSlotsInWindow
    simp only [hnis, Option.bind_eq_bind, Option.bind_some, hk, hfmt1, hnamed]
    exact htcall
  · unfold SlotsIn SlotsOf
    rw [hslots]
    simp only [List.mem_cons, List.mem_append, List.not_mem_nil, or_false]
    constructor
    · rintro ((⟨⟨off, rfl, rfl⟩, h12⟩ | ⟨⟨off, ho, rfl⟩, h12⟩) | ⟨⟨off, ho, rfl⟩, h12⟩)
      · exact ⟨⟨1, Or.inl rfl, rfl⟩, h12⟩
      · exact ⟨⟨off, Or.inr (Or.inl ho), rfl⟩, h12⟩
      · exact ⟨⟨off, Or.inr (Or.inr ho), rfl⟩, h12⟩
    · rintro ⟨⟨off, rfl | ho | ho, rfl⟩, h12⟩
      · exact Or.inl (Or.inl ⟨⟨1, rfl, rfl⟩, h12⟩)
      · exact Or.inl (Or.inr ⟨⟨off, ho, rfl⟩, h12⟩)
      · exact Or.inr ⟨⟨off, ho, rfl⟩, h12⟩

end Scavenging

/-! ## The card table -/

/-- A slot of an object that was in old gen before the collection. -/
def OldSlot (u0 : Universe) (olds : List Nat) (x : Nat) : Prop :=
  ∃ c ∈ olds, ∃ off ∈ slotsAt u0.mem c, x = c + off

namespace Scavenging

variable {u0 : Universe} {objs : Objects} {u u' : Universe} {p p' : Progress}
variable (h0 : WfHeap u0 objs)
include h0

/-- The objects `rest` from `addr` on, as far as the card goes. -/
theorem walkCard (lo hi fuel : Nat) {addr : Nat} (still : Bool) {rest : List Nat}
    (h : Scavenging u0 objs u p) (htiles : Tiles (sizeAt u0.mem) addr u0.old.top rest)
    (hsub : ∀ c ∈ rest, c ∈ objs .old) (hfuel : hi - addr < fuel)
    (hnot : ∀ x, OldSlot u0 rest x → lo ≤ x → x < hi → ¬ p.touched x)
    (hcard : ∀ x, lo ≤ x → x < hi → CardReady u0 u x) :
    ∃ u' still' p', Universe.walkCard lo hi u0.old.top fuel addr (u, still) =
        some (u', still') ∧
      Checks u0 objs u still p (fun x => OldSlot u0 rest x ∧ lo ≤ x ∧ x < hi) u' still' p' := by
  induction fuel generalizing addr rest u p still with
  | zero => omega
  | succ fuel ih =>
    unfold Universe.walkCard
    cases htiles with
    | nil =>
      rw [if_neg (by omega)]
      refine ⟨u, still, p, rfl, (Checks.none h).congr fun x => ?_⟩
      simp [OldSlot]
    | @cons _ _ rest hpos htiles =>
      obtain ⟨hc, horig⟩ := h.copied.olds addr (hsub addr List.mem_cons_self)
      have hbounds : ∀ c ∈ addr :: rest, addr ≤ c := by
        intro c hcm
        rcases List.mem_cons.mp hcm with rfl | hcm
        · exact Nat.le_refl _
        · have := (htiles.bounds hcm).1
          omega
      by_cases hlt : addr < hi
      · rw [if_pos ⟨hlt, Nat.lt_of_lt_of_le (by omega) htiles.le⟩]
        have hobj := h0.object _ (h.orig_isObject h0 hc)
        obtain ⟨f, hf⟩ := hobj.klass.format
        obtain ⟨hword, hst⟩ := h.klassWord h0 hc
        obtain ⟨-, -, hsize, hklass⟩ := h.shape h0 hc hf hst
        have hsz : p.size u0.mem addr = sizeAt u0.mem addr := by
          unfold Progress.size
          rw [horig]
        rw [hsz] at hsize
        have hslot : ∀ x, SlotsIn u0 p addr lo hi x ↔
            OldSlot u0 [addr] x ∧ lo ≤ x ∧ x < hi := by
          intro x
          unfold SlotsIn SlotsOf OldSlot
          rw [horig]
          simp
        have hcons : ∀ x, OldSlot u0 (addr :: rest) x ↔ OldSlot u0 [addr] x ∨ OldSlot u0 rest x := by
          intro x
          unfold OldSlot
          simp
        rw [hword]
        simp only [hklass, hsize, Option.bind_eq_bind, Option.bind_some]
        by_cases hin : lo < addr + sizeAt u0.mem addr
        · rw [if_pos hin]
          obtain ⟨u1, new, p1, hscan, hv1⟩ := h.scanSlotsInWindow h0 lo hi hc
            (fun x hx => by
              obtain ⟨hx1, hx2, hx3⟩ := (hslot x).mp hx
              exact hnot x ((hcons x).mpr (Or.inl hx1)) hx2 hx3) hcard
          have hg := hv1.visits.grows
          obtain ⟨u2, still2, p2, hrest, hv2⟩ := ih (still || new) hv1.visits.inv htiles
            (fun c hcm => hsub c (List.mem_cons_of_mem _ hcm)) (by omega)
            (fun x hx h1 h2 ht => by
              rcases (hv1.visits.touched x).mp ht with ht | hin'
              · exact hnot x ((hcons x).mpr (Or.inr hx)) h1 h2 ht
              · -- slots of different objects differ
                obtain ⟨⟨off, ho, rfl⟩, -⟩ := hin'
                obtain ⟨c, hcm, off', ho', heq⟩ := hx
                have hb := (htiles.bounds hcm).1
                rw [horig] at ho
                have := ((h0.object addr ⟨_, hsub addr List.mem_cons_self⟩).slot_bounds ho).2
                omega)
            (fun x h1 h2 => (hcard x h1 h2).grows hg
              (hv1.visits.inv.oldStart.trans h.oldStart.symm))
          refine ⟨u2, still2, p2, ?_, ?_⟩
          · simp only [hscan, Option.bind_some]
            exact hrest
          · have hv1' : Checks u0 objs u still p (SlotsIn u0 p addr lo hi) u1 (still || new) p1 :=
              ⟨hv1.visits, fun hs => (Bool.or_eq_false_iff.mp hs).1,
                fun hs => hv1.new (Bool.or_eq_false_iff.mp hs).2⟩
            refine (hv1'.trans hv2).congr fun x => ?_
            rw [hslot, hcons]
            tauto
        · rw [if_neg hin]
          obtain ⟨u2, still2, p2, hrest, hv2⟩ := ih still h htiles
            (fun c hcm => hsub c (List.mem_cons_of_mem _ hcm)) (by omega)
            (fun x hx => hnot x ((hcons x).mpr (Or.inr hx))) hcard
          refine ⟨u2, still2, p2, hrest, hv2.congr fun x => ?_⟩
          rw [hcons]
          constructor
          · exact fun ⟨h1, h2⟩ => ⟨Or.inr h1, h2⟩
          · rintro ⟨⟨c, hcm, off, ho, rfl⟩ | hx, h1, h2⟩
            · -- an object that ends before the card has no slot in it
              rw [List.mem_singleton.mp hcm] at ho h1
              have := ((h0.object addr ⟨_, hsub addr List.mem_cons_self⟩).slot_bounds ho).2
              omega
            · exact ⟨hx, h1, h2⟩
      · rw [if_neg (by omega)]
        refine ⟨u, still, p, rfl, (Checks.none h).congr fun x => ?_⟩
        constructor
        · exact fun hx => hx.elim
        · rintro ⟨⟨c, hcm, off, ho, rfl⟩, -, h2⟩
          have := hbounds c hcm
          omega

omit h0 in
/-- A card none of whose old slots points into new gen may be cleaned. -/
theorem setClean {i : Nat} (h : Scavenging u0 objs u p)
    (hbelow : u.cardBase i + Universe.cardSize ≤ u0.old.top)
    (hnone : ∀ x, p.touched x → u.old.start ≤ x → u.cardIndex x = i →
      ¬ u0.PointsNew (u.mem x)) : Scavenging u0 objs (u.setClean i) p := by
  refine ⟨h.copied, h.spaces.of_eq rfl rfl rfl rfl, h.eden, h.fromSpace, h.toStart, h.toLimit,
    h.oldStart, h.oldLimit, h.oldCommitted, h.origObject, h.toTiles, h.promotedTiles,
    h.resolves.of_offsets rfl rfl rfl, ?_, h.untouched, h.final, h.touchedUsed, ?_, h.room,
    h.flags⟩
  · intro c hc o ho
    have hge := (h.promotedTiles.bounds hc).1
    have hne : u.cardIndex (c + o) ≠ i := by
      unfold Universe.cardBase Universe.cardIndex Universe.cardSize at *
      omega
    exact (Function.update_of_ne hne _ _).trans (h.promotedDirty c hc o ho)
  · intro x hx h1 h2 hnew
    have hne : u.cardIndex x ≠ i := fun heq =>
      hnone x hx h2 heq ((Universe.pointsNew_congr h.oldStart _).mp hnew)
    exact (Function.update_of_ne hne _ _).trans (h.remembered x hx h1 h2 hnew)

/-- One dirty card. -/
theorem scanCard {i : Nat} (h : Scavenging u0 objs u p) (hbase : u0.cardBase i < u0.old.top)
    (hdirty : u.dirty i = true)
    (hnot : ∀ x, p.touched x → u0.old.start ≤ x → x < u0.old.top → u0.cardIndex x ≠ i) :
    ∃ u' p', u.scanCard u0.old.top i = some u' ∧ Scavenging u0 objs u' p' ∧ Adds objs u p u' p' ∧
      (∀ j, j ≠ i → u.dirty j = true → u'.dirty j = true) ∧
      ∀ x, p'.touched x ↔ p.touched x ∨ (OldSlot u0 (objs .old) x ∧ u0.cardIndex x = i) := by
  have hcb : u.cardBase i = u0.cardBase i := by
    unfold Universe.cardBase
    rw [h.oldStart]
  have hci : ∀ x, u.cardIndex x = u0.cardIndex x := by
    intro x
    unfold Universe.cardIndex
    rw [h.oldStart]
  have hwin : ∀ x, u0.old.start ≤ x → (u0.cardIndex x = i ↔
      u0.cardBase i ≤ x ∧ x < u0.cardBase i + Universe.cardSize) := by
    intro x hx
    unfold Universe.cardIndex Universe.cardBase Universe.cardSize
    omega
  -- the object over the card's base, and the objects before and after it
  obtain ⟨a, ha, hres, hle, hover⟩ := h.resolves i (by
    rw [hcb]
    exact Nat.lt_of_lt_of_le hbase h.promotedTiles.le)
  rw [hcb] at hle hover
  have haold : a ∈ objs .old := by
    rcases List.mem_append.mp ha with ha | ha
    · exact ha
    · have := (h.promotedTiles.bounds ha).1
      omega
  have holdTiles := h0.tiles .old
  obtain ⟨before, after, hsplit, hbefore, hrest⟩ := holdTiles.from_block haold
  have hsub : ∀ c ∈ a :: after, c ∈ objs .old := fun c hc => by
    rw [hsplit]
    exact List.mem_append_right _ hc
  have hslotIn : ∀ x, OldSlot u0 (objs .old) x → u0.old.start ≤ x ∧ x < u0.old.top := by
    rintro x ⟨c, hc, off, ho, rfl⟩
    have hb := holdTiles.bounds hc
    have := ((h0.object c ⟨_, hc⟩).slot_bounds ho).2
    have h7 : u0.start .old = u0.old.start := rfl
    have h8 : u0.top .old = u0.old.top := rfl
    omega
  have hslots : ∀ x, u0.cardBase i ≤ x → (OldSlot u0 (a :: after) x ↔ OldSlot u0 (objs .old) x) := by
    intro x hx
    constructor
    · rintro ⟨c, hc, rest⟩
      exact ⟨c, hsub c hc, rest⟩
    · rintro ⟨c, hc, off, ho, rfl⟩
      refine ⟨c, ?_, off, ho, rfl⟩
      have hoff := ((h0.object c ⟨_, hc⟩).slot_bounds ho).2
      rw [hsplit] at hc
      rcases List.mem_append.mp hc with hc | hc
      · have := (hbefore.bounds hc).2.2
        omega
      · exact hc
  have hready : ∀ x, u0.cardBase i ≤ x → x < u0.cardBase i + Universe.cardSize →
      CardReady u0 u x := by
    intro x h1 h2 _ h3
    rw [hci, (hwin x (h.oldStart ▸ h3)).mpr ⟨h1, h2⟩]
    exact hdirty
  obtain ⟨u1, still1, p1, hwalk, hv⟩ := h.walkCard h0 (u0.cardBase i)
    (u0.cardBase i + Universe.cardSize) (u0.cardBase i + Universe.cardSize - a + 1) false hrest hsub (by omega)
    (fun x hx h1 h2 ht => by
      obtain ⟨hx1, hx2⟩ := hslotIn x ((hslots x h1).mp hx)
      exact hnot x ht hx1 hx2 ((hwin x hx1).mpr ⟨h1, h2⟩)) hready
  have htouched : ∀ x, p1.touched x ↔
      p.touched x ∨ (OldSlot u0 (objs .old) x ∧ u0.cardIndex x = i) := by
    intro x
    rw [hv.visits.touched]
    refine or_congr_right ⟨?_, ?_⟩
    · rintro ⟨hx, h1, h2⟩
      have hx' := (hslots x h1).mp hx
      exact ⟨hx', (hwin x (hslotIn x hx').1).mpr ⟨h1, h2⟩⟩
    · rintro ⟨hx, hi⟩
      obtain ⟨h1, h2⟩ := (hwin x (hslotIn x hx).1).mp hi
      exact ⟨(hslots x h1).mpr hx, h1, h2⟩
  have hg := hv.visits.grows
  have hinv := hv.visits.inv
  have hs1 : u1.old.start = u0.old.start := hinv.oldStart
  have hcb1 : u1.cardBase i = u0.cardBase i := by
    unfold Universe.cardBase
    rw [hs1]
  have hci1 : ∀ x, u1.cardIndex x = u0.cardIndex x := by
    intro x
    unfold Universe.cardIndex
    rw [hs1]
  unfold Universe.scanCard
  simp only [hcb, hres, Option.bind_eq_bind, Option.bind_some, hwalk]
  by_cases hclean : still1 = false ∧ u0.cardBase i + Universe.cardSize ≤ u0.old.top
  · rw [if_pos hclean]
    refine ⟨_, p1, rfl, hinv.setClean (by rw [hcb1]; exact hclean.2) ?_, ?_, ?_, htouched⟩
    · intro x hx h1 h2
      rw [hs1] at h1
      rw [hci1] at h2
      obtain ⟨h3, h4⟩ := (hwin x h1).mp h2
      rcases (hv.visits.touched x).mp hx with ht | hin
      · exact absurd h2 (hnot x ht h1 (by omega))
      · exact hv.new hclean.1 x hin
    · exact hg.toAdds.trans (.of_same ⟨rfl, rfl, rfl⟩ (fun _ hx => hx) (fun _ _ => rfl) id ⟨rfl, rfl⟩)
    · intro j hj hd
      exact (Function.update_of_ne hj _ _).trans (hg.dirty j hd)
  · rw [if_neg hclean]
    exact ⟨u1, p1, rfl, hinv, hg.toAdds, fun j _ hd => hg.dirty j hd, htouched⟩

end Scavenging

/-- The dirty-card scan has come to card `i`. -/
structure Scanned (u0 : Universe) (objs : Objects) (i : Nat) (u : Universe) (p : Progress) :
    Prop where
  inv : Scavenging u0 objs u p
  below : ∀ x, p.touched x → u0.old.start ≤ x → x < u0.old.top → u0.cardIndex x < i
  done : ∀ x, OldSlot u0 (objs .old) x → u0.cardIndex x < i →
    p.touched x ∨ u0.dirty (u0.cardIndex x) = false
  ahead : ∀ j, i ≤ j → u0.dirty j = true → u.dirty j = true
  only : ∀ x, p.touched x → OldSlot u0 (objs .old) x

namespace Scavenging

variable {u0 : Universe} {objs : Objects} {u u' : Universe} {p p' : Progress}
variable (h0 : WfHeap u0 objs)
include h0

/-- The cards from `i` on: afterwards every old slot was visited or lies on a clean card. -/
theorem scanCards {n i : Nat} (h : Scanned u0 objs i u p)
    (hn : u0.old.top ≤ u0.cardBase (i + n)) :
    ∃ u' p', Universe.scanCards u0.old.top n i u = some u' ∧ Scavenging u0 objs u' p' ∧
      Adds objs u p u' p' ∧
      (∀ x, OldSlot u0 (objs .old) x → p'.touched x ∨ u0.dirty (u0.cardIndex x) = false) ∧
      ∀ x, p'.touched x → OldSlot u0 (objs .old) x := by
  have hslotIn : ∀ x, OldSlot u0 (objs .old) x → u0.old.start ≤ x ∧ x < u0.old.top := by
    rintro x ⟨c, hc, off, ho, rfl⟩
    have hb := (h0.tiles .old).bounds hc
    have := ((h0.object c ⟨_, hc⟩).slot_bounds ho).2
    have h7 : u0.start .old = u0.old.start := rfl
    have h8 : u0.top .old = u0.old.top := rfl
    omega
  -- past old gen's top every card is done
  have hend : ∀ {i : Nat} {u : Universe} {p : Progress}, Scanned u0 objs i u p →
      u0.old.top ≤ u0.cardBase i → ∀ x, OldSlot u0 (objs .old) x →
      p.touched x ∨ u0.dirty (u0.cardIndex x) = false := by
    intro i u p h htop x hx
    refine h.done x hx ?_
    have := hslotIn x hx
    unfold Universe.cardBase Universe.cardSize at htop
    unfold Universe.cardIndex Universe.cardSize
    omega
  induction n generalizing i u p with
  | zero => exact ⟨u, p, rfl, h.inv, .refl, hend h hn, h.only⟩
  | succ n ih =>
    have hcb : u.cardBase i = u0.cardBase i := by
      unfold Universe.cardBase
      rw [h.inv.oldStart]
    have hn' : u0.old.top ≤ u0.cardBase (i + 1 + n) := by
      rw [show i + 1 + n = i + (n + 1) by omega]
      exact hn
    unfold Universe.scanCards
    rw [hcb]
    by_cases htop : u0.old.top ≤ u0.cardBase i
    · rw [if_pos htop]
      exact ⟨u, p, rfl, h.inv, .refl, hend h htop, h.only⟩
    · rw [if_neg htop]
      by_cases hdirty : u.dirty i = true
      · rw [if_pos hdirty]
        obtain ⟨u1, p1, hcall, hinv, hadds, hother, htouched⟩ := h.inv.scanCard h0 (by omega) hdirty
          fun x hx h1 h2 heq => by
            have := h.below x hx h1 h2
            omega
        have hnext : Scanned u0 objs (i + 1) u1 p1 := by
          refine ⟨hinv, ?_, ?_, ?_, ?_⟩
          · intro x hx h1 h2
            rcases (htouched x).mp hx with hx | ⟨-, heq⟩
            · have := h.below x hx h1 h2
              omega
            · omega
          · intro x hx hlt
            rcases Nat.lt_or_ge (u0.cardIndex x) i with hlt' | hge
            · exact (h.done x hx hlt').imp_left fun ht => (htouched x).mpr (Or.inl ht)
            · exact Or.inl ((htouched x).mpr (Or.inr ⟨hx, by omega⟩))
          · exact fun j hj hd => hother j (by omega) (h.ahead j (by omega) hd)
          · intro x hx
            exact ((htouched x).mp hx).elim (h.only x) And.left
        obtain ⟨u2, p2, hrest, hinv2, hadds2, hdone, honly⟩ := ih hnext hn'
        refine ⟨u2, p2, ?_, hinv2, hadds.trans hadds2, hdone, honly⟩
        simp only [hcall, Option.bind_eq_bind, Option.bind_some]
        exact hrest
      · rw [if_neg hdirty]
        have hnext : Scanned u0 objs (i + 1) u p := by
          refine ⟨h.inv, ?_, ?_, fun j hj => h.ahead j (by omega), h.only⟩
          · intro x hx h1 h2
            have := h.below x hx h1 h2
            omega
          · intro x hx hlt
            rcases Nat.lt_or_ge (u0.cardIndex x) i with hlt' | hge
            · exact h.done x hx hlt'
            · have heq : u0.cardIndex x = i := by omega
              refine Or.inr ?_
              rw [heq]
              exact Bool.eq_false_iff.mpr fun hd => hdirty (h.ahead i (Nat.le_refl i) hd)
        exact ih hnext hn'

/-- The dirty-card scan of a collection that has visited no slot yet. -/
theorem dirtyCardScan (h : Scavenging u0 objs u p) (hnone : ∀ x, ¬ p.touched x)
    (hdirty : ∀ j, u0.dirty j = true → u.dirty j = true) :
    ∃ u' p', u.dirtyCardScan u0.old.top = some u' ∧ Scavenging u0 objs u' p' ∧
      Adds objs u p u' p' ∧
      (∀ x, OldSlot u0 (objs .old) x → p'.touched x ∨ u0.dirty (u0.cardIndex x) = false) ∧
      ∀ x, p'.touched x → OldSlot u0 (objs .old) x := by
  refine scanCards h0 ⟨h, ?_, ?_, fun j _ => hdirty j, ?_⟩ ?_
  · exact fun x hx => absurd hx (hnone x)
  · exact fun x _ hlt => absurd hlt (Nat.not_lt_zero _)
  · exact fun x hx => absurd hx (hnone x)
  · have h1 := h0.spaces.top_le .old
    have h2 := h0.spaces.reserved
    have h3 : u0.top .old = u0.old.top := rfl
    have h4 : u0.cap .old = u0.old.committedEnd := rfl
    unfold Universe.nCards Universe.cardBase Universe.cardSize
    rw [h.oldStart, h.oldLimit]
    omega

/-- A table of roots: the words are replaced by stand-ins that stay, unless there was a stall. -/
theorem scavengeWords (ws : List Nat) (h : Scavenging u0 objs u p)
    (hws : ∀ w ∈ ws, WfWord (IsObject objs) w) :
    ∃ u' vs p', Universe.scavengeWords u ws = some (u', vs) ∧ Scavenging u0 objs u' p' ∧
      Grows objs u p u' p' ∧ p'.touched = p.touched ∧
      List.Forall₂ (fun w v => WordSim (Stands objs u'.mem) w v ∧
        (u'.pendingStall = none → Final objs v)) ws vs := by
  induction ws generalizing u p with
  | nil => exact ⟨u, [], p, rfl, h, .refl, rfl, .nil⟩
  | cons w ws ih =>
    obtain ⟨u1, v, p1, hcall, h1, hg1, ht1, hsim, hfinal⟩ :=
      h.scavengeOop h0 (hws w List.mem_cons_self)
    obtain ⟨u2, vs, p2, hrest, h2, hg2, ht2, hall⟩ :=
      ih h1 fun x hx => hws x (List.mem_cons_of_mem _ hx)
    refine ⟨u2, v :: vs, p2, ?_, h2, hg1.trans hg2, ht2.trans ht1, .cons ⟨?_, ?_⟩ hall⟩
    · unfold Universe.scavengeWords
      simp only [hcall, hrest, Option.bind_eq_bind, Option.bind_some]
    · exact hsim.mono fun a a' hs => h1.stands_grows h0 h2 hg2.toAdds hs
    · exact fun hs => hfinal (hg2.stall hs)

end Scavenging

end WinVm.Memory
