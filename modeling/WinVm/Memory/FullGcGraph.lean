import WinVm.Memory.Compaction

/-!
# A full collection relocates the object graph

The phases put together: a full collection of a well-formed heap ends with a well-formed heap
that holds, packed in each region and in the order they had, exactly the objects that were
reachable from the strong roots.

Results: `fullGc_spec`; `fullGc_relocates`, what the collection preserves.
-/

namespace WinVm.Memory

open WinVm.Lib

variable {u u' : Universe} {objs : Objects} {marked : List Nat} {kept : List CodeRoot}
variable {image : Nat → Nat}

/-- The objects of the compacted heap. -/
def compacted (u : Universe) (objs : Objects) (marked : List Nat) : Objects := fun r =>
  (packed (sizeAt u.mem) (u.start r) (live objs marked r)).map Prod.snd

/-- What phases B to F make of a heap whose marked objects are known. -/
structure Compacted (u : Universe) (objs : Objects) (marked : List Nat) (kept : List CodeRoot)
    (image : Nat → Nat) (u' : Universe) : Prop where
  landed : Landed u objs marked u'.mem
  marks : ∀ a d, Lands u objs marked a d → Mark.SameState (u.mem a) (u'.mem d)
  places : ∀ a d, Lands u objs marked a d → image a = d
  roots : u'.roots = u.roots.map (imageWord image)
  codeRoots : u'.codeRoots = kept.map fun r => r.setWord (imageWord image r.word)
  eden : u'.eden = { u.eden with top := newTopOf u objs marked .eden }
  fromSpace : u'.fromSpace = { u.fromSpace with top := newTopOf u objs marked .fromSpace }
  toSpace : u'.toSpace = u.toSpace
  old : u'.old = { u.old with top := newTopOf u objs marked .old }
  cards : ∀ i, u'.dirty i = (decide (u'.old.start < u'.old.top ∧ i ≤ u'.cardIndex (u'.old.top - 1)) ||
    u.dirty i)
  resolves : ∀ s : Nat → Nat, (∀ a d, Lands u objs marked a d → s d = sizeAt u.mem a) →
    u'.Resolves s (compacted u objs marked .old)
  pendingStall : u'.pendingStall = u.pendingStall
  gcEnabled : u'.gcEnabled = u.gcEnabled
  promotionGuaranteeMet : u'.promotionGuaranteeMet = u.promotionGuaranteeMet

/-- The words of the roots are replaced by their images. -/
theorem chase_eq_imageWord {w v : Nat} (himage : ∀ a d, Lands u objs marked a d → image a = d)
    (h : WordSim (Lands u objs marked) w v) : v = imageWord image w := by
  cases h with
  | same hn => exact (imageWord_of_not_isMem hn).symm
  | oop hl => rw [imageWord_oopAt, himage _ _ hl]

/-- The cards up to the new top are dirty, the others are as they were. -/
theorem post_eq (u : Universe) : u.post = { u with
    dirty := fun i =>
      decide (u.old.start < u.old.top ∧ i ≤ u.cardIndex (u.old.top - 1)) || u.dirty i
    ageTable := fun _ => 0 } := by
  unfold Universe.post Universe.recordMultistores
  by_cases htop : u.old.start < u.old.top
  · have hlt : ¬ u.old.top ≤ u.old.start := by omega
    have hfirst : u.cardIndex u.old.start = 0 := by
      unfold Universe.cardIndex
      rw [Nat.sub_self, Nat.zero_div]
    rw [if_pos htop]
    dsimp only
    rw [if_neg hlt]
    change ({ u with dirty := _, ageTable := _ } : Universe) = _
    congr 1
    funext i
    change ((if i ≤ u.cardIndex (u.old.top - 1) then false else u.dirty i) ||
      (decide (u.cardIndex u.old.start ≤ i) && decide (i ≤ u.cardIndex (u.old.top - 1)))) = _
    rw [hfirst]
    by_cases hi : i ≤ u.cardIndex (u.old.top - 1) <;> simp [hi, htop]
  · rw [if_neg htop]
    dsimp only
    rw [if_pos (by omega)]
    simp only [htop, false_and, decide_false, Bool.false_or]

section Compact

variable (h0 : WfHeap u objs) (hsub : ∀ a ∈ marked, IsObject objs a)
variable (hsmall : ∀ a ∈ marked, sizeAt u.mem a ≤ maxEntryWords)
variable (hclosed : ∀ a ∈ marked, ∀ off ∈ slotsAt u.mem a, ∀ t, u.mem (a + off) = oopAt t →
  t ∈ marked)
variable (hroots : ∀ w ∈ u.roots, ∀ t, w = oopAt t → t ∈ marked)
variable (hkept : ∀ r ∈ kept, r ∈ u.codeRoots ∧ ∀ t, r.word = oopAt t → t ∈ marked)
include h0

omit h0 in
theorem mem_places {r : Region} {x : Nat} : x ∈ compacted u objs marked r ↔
    ∃ a, (a, x) ∈ packed (sizeAt u.mem) (u.start r) (live objs marked r) := by
  unfold compacted
  rw [List.mem_map]
  constructor
  · rintro ⟨⟨a, d⟩, hm, rfl⟩
    exact ⟨a, hm⟩
  · rintro ⟨a, hm⟩
    exact ⟨(a, x), hm, rfl⟩

/-- The places of a region are distinct. -/
theorem places_nodup (r : Region) : (compacted u objs marked r).Nodup :=
  packed_snd_nodup fun _ ha => ((h0.tiles r).bounds (mem_live.mp ha).1).2.1

/-- Places of different regions are different. -/
theorem places_region {r s : Region} {x : Nat} (hr : x ∈ compacted u objs marked r)
    (hs : x ∈ compacted u objs marked s) : r = s := by
  by_contra hne
  obtain ⟨a, ha⟩ := mem_places.mp hr
  obtain ⟨b, hb⟩ := mem_places.mp hs
  have h1 := h0.packed_in ha
  have h2 := h0.packed_in hb
  have hpa := (h0.object a ⟨r, (mem_live.mp (mem_of_packed ha)).1⟩).two_le_sizeAt
  have hpb := (h0.object b ⟨s, (mem_live.mp (mem_of_packed hb)).1⟩).two_le_sizeAt
  have := h0.top_apart r s hne
  omega

/-- Rebuilt from old gen's start, the offset table resolves the packed objects. -/
theorem rebuilt_resolves {w : Universe} (hold : w.old = u.old) {s : Nat → Nat}
    (hs : ∀ a d, Lands u objs marked a d → s d = sizeAt u.mem a) :
    ({ w.recordAll (planOf u objs marked .old) with
      old := { u.old with top := newTopOf u objs marked .old } } : Universe).Resolves s
      (compacted u objs marked .old) := by
  have hbase : ({ w with old := { u.old with top := u.old.start } } : Universe).Resolves s [] := by
    intro i hi
    exact absurd hi (Nat.not_lt.mpr (Nat.le_add_right _ _))
  have hle := @WfHeap.live_sum_le _ _ marked h0 .old
  have htop := h0.spaces.top_le .old
  have hall := @Universe.recordAll_resolves (sizeAt u.mem) _ (live objs marked .old) _ _ hbase
    (Nat.le_refl _) (fun a d hm => hs a d ⟨.old, hm⟩) (hle.trans htop)
  refine hall.of_offsets rfl rfl ?_
  refine (Universe.recordAll_offsets _ _ ?_ ?_ _).symm
  · exact (congrArg OldGen.start hold).symm
  · rfl

omit h0 in
/-- The old addresses in the plan of a region. -/
theorem map_old_planOf (r : Region) :
    (planOf u objs marked r).map CompactEntry.old = live objs marked r := by
  unfold planOf
  rw [List.map_map]
  exact map_fst_packed _ _ _

/-- The entries of all three plans stand for the marked objects, each once. -/
theorem plans_old : ((planOf u objs marked .eden ++ planOf u objs marked .fromSpace ++
    planOf u objs marked .old).map CompactEntry.old).Nodup ∧
    ∀ a, a ∈ (planOf u objs marked .eden ++ planOf u objs marked .fromSpace ++
      planOf u objs marked .old).map CompactEntry.old ↔ IsObject objs a ∧ a ∈ marked := by
  have hnodup : ∀ r, (live objs marked r).Nodup := fun r => (h0.tiles r).nodup.filter _
  have hother : ∀ {r s : Region} {a b : Nat}, r ≠ s → a ∈ live objs marked r →
      b ∈ live objs marked s → a ≠ b := by
    rintro r s a b hrs ha hb rfl
    exact hrs (h0.region_unique (mem_live.mp ha).1 (mem_live.mp hb).1)
  rw [List.map_append, List.map_append, map_old_planOf, map_old_planOf, map_old_planOf]
  refine ⟨List.nodup_append.mpr ⟨List.nodup_append.mpr ⟨hnodup _, hnodup _, ?_⟩, hnodup _, ?_⟩, ?_⟩
  · exact fun a ha b hb => hother (by decide) ha hb
  · intro a ha b hb
    rcases List.mem_append.mp ha with ha | ha
    · exact hother (by decide) ha hb
    · exact hother (by decide) ha hb
  · intro a
    simp only [List.mem_append, mem_live]
    constructor
    · rintro ((⟨ha, hm⟩ | ⟨ha, hm⟩) | ⟨ha, hm⟩) <;> exact ⟨⟨_, ha⟩, hm⟩
    · rintro ⟨⟨r, ha⟩, hm⟩
      cases r with
      | eden => exact Or.inl (Or.inl ⟨ha, hm⟩)
      | fromSpace => exact Or.inl (Or.inr ⟨ha, hm⟩)
      | toSpace =>
        rw [h0.toEmpty] at ha
        cases ha
      | old => exact Or.inr ⟨ha, hm⟩

/-- Phase E over one region. -/
theorem restoreRegion {mem : Mem} (h : Landed u objs marked mem) (side : SideMarks) (r : Region) :
    ∃ mem', restoreMarks side mem (planOf u objs marked r) = some mem' ∧
      Landed u objs marked mem' ∧
      (∀ a d, (a, d) ∈ packed (sizeAt u.mem) (u.start r) (live objs marked r) →
        ∃ n ≤ 1, mem' d = Mark.restored (side d) n) ∧
      ∀ x, x ∉ compacted u objs marked r → mem' x = mem x := by
  obtain ⟨mem', hcall, hland, hmarks, hframe⟩ := h.restoreMarks h0
    (fun e he => (⟨r, he⟩ : Lands u objs marked e.1 e.2)) (places_nodup h0 r)
  exact ⟨mem', hcall, hland, fun a d hm => hmarks (a, d) hm, hframe⟩

include hsub hsmall hclosed hroots hkept in
theorem compact_spec {v : Universe} {k : Nat}
    (hv : v = { u with mem := markedMem u.mem marked, codeRoots := kept }) :
    ∃ u' report image, v.compact k = some (u', report) ∧
      Compacted u objs marked kept image u' ∧ report.markedWords = k := by
  obtain ⟨eden, survivors, olds, h1, h2, h3, hp1, ht1, hp2, ht2, hp3, ht3, hB⟩ :=
    forwards h0 hsub hsmall rfl
  obtain ⟨hnodup, hold⟩ := @plans_old _ _ marked h0
  rw [← hp1, ← hp2, ← hp3] at hnodup hold
  obtain ⟨memC, done, hC, hrew, hdone⟩ := hB.rewritten.rewriteAll h0 hB hclosed
    (fun a ha => absurd ha List.not_mem_nil)
    (fun e he => ⟨((hold _).mp (List.mem_map_of_mem he)).1, ((hold _).mp (List.mem_map_of_mem he)).2,
      List.not_mem_nil⟩) hnodup
  have hdone' : ∀ a, IsObject objs a → a ∈ marked → a ∈ done :=
    fun a ha hm => (hdone a).mpr (Or.inr ((hold a).mpr ⟨ha, hm⟩))
  have hlanded : Landed u objs marked (slideAll u objs marked memC) := by
    intro a d hl
    obtain ⟨ha, hm⟩ := h0.lands_marked hl
    have hobj := h0.object a ha
    refine ⟨fun off hoff => ?_, fun off h1 h2 hn => ?_⟩
    · rw [h0.slideAll_apply hl (hobj.slot_bounds hoff).2]
      exact hrew.slots a (hdone' a ha hm) off hoff
    · rw [h0.slideAll_apply hl h2]
      exact hrew.raw a ha off h1 h2 (Or.inr hn)
  have himage : ∀ a d, Lands u objs marked a d → imageOf olds.mem a = d := by
    intro a d hl
    unfold imageOf
    rw [hB.header a d hl, if_pos (isMem_oopAt d), memAddr_oopAt]
  obtain ⟨mem1, hcall1, hl1, hm1, hf1⟩ := restoreRegion h0 hlanded olds.side .eden
  obtain ⟨mem2, hcall2, hl2, hm2, hf2⟩ := restoreRegion h0 hl1 olds.side .fromSpace
  obtain ⟨mem3, hcall3, hl3, hm3, hf3⟩ := restoreRegion h0 hl2 olds.side .old
  have hmarks : ∀ a d, Lands u objs marked a d → Mark.SameState (u.mem a) (mem3 d) := by
    intro a d hl
    obtain ⟨ha, hm⟩ := h0.lands_marked hl
    have hparked := hB.parked a d hl
    have hbit : markedMem u.mem marked a = Mark.withGcMark (u.mem a) 1 := if_pos hm
    rw [hbit] at hparked
    have hstate : ∀ {w : Nat}, (∃ n ≤ 1, w = Mark.restored (olds.side d) n) →
        Mark.SameState (u.mem a) w := by
      rintro w ⟨n, hn, rfl⟩
      rw [hparked]
      exact Mark.sameState_restored (h0.object a ha).mark hn
    obtain ⟨r, hr⟩ := hl
    have hplace : d ∈ compacted u objs marked r := mem_places.mpr ⟨a, hr⟩
    have hnot : ∀ s, r ≠ s → d ∉ compacted u objs marked s :=
      fun s hrs hs => hrs (places_region h0 hplace hs)
    cases r with
    | eden =>
      rw [hf3 d (hnot .old (by decide)), hf2 d (hnot .fromSpace (by decide))]
      exact hstate (hm1 a d hr)
    | fromSpace =>
      rw [hf3 d (hnot .old (by decide))]
      exact hstate (hm2 a d hr)
    | toSpace =>
      have := (mem_live.mp (mem_of_packed hr)).1
      rw [h0.toEmpty] at this
      cases this
    | old => exact hstate (hm3 a d hr)
  have hrootWords : u.roots.map (forwardChase olds.mem) =
      u.roots.map (imageWord (imageOf olds.mem)) :=
    List.map_congr_left fun w hw => chase_eq_imageWord himage
      (Rewritten.forwardChase h0 hB (fun _ _ => rfl) (h0.roots w (List.mem_append_left _ hw))
        (hroots w hw))
  have hcodeWords : kept.map (CodeRoot.chase memC) =
      kept.map fun r => r.setWord (imageWord (imageOf olds.mem) r.word) := by
    refine List.map_congr_left fun r hr => ?_
    obtain ⟨hmem, ht⟩ := hkept r hr
    have hwf := h0.roots r.word (List.mem_append_right _ (List.mem_map_of_mem hmem))
    have hsim := Rewritten.forwardChase h0 hB hrew.header hwf ht
    unfold CodeRoot.chase
    rw [chase_eq_imageWord himage hsim]
  generalize hmoved : Universe.slideOld { v with
    mem := slide (slide memC eden.plan) survivors.plan
    roots := u.roots.map (forwardChase olds.mem)
    codeRoots := kept.map (CodeRoot.chase memC) } olds.plan = moved
  have hmoved' := hmoved
  rw [Universe.slideOld_eq] at hmoved'
  have hmovedMem : moved.mem = slideAll u objs marked memC := by
    rw [← hmoved', hp1, hp2, hp3]
    rfl
  rw [← hp1, ← hmovedMem] at hcall1
  rw [← hp2] at hcall2
  rw [← hp3] at hcall3
  have hpost := post_eq ({ moved with
    mem := mem3
    eden := { u.eden with top := eden.newTop }
    fromSpace := { u.fromSpace with top := survivors.newTop }
    old := { u.old with top := olds.newTop } } : Universe)
  have hcompact : ∃ report, v.compact k = some (({ moved with
      mem := mem3
      eden := { u.eden with top := eden.newTop }
      fromSpace := { u.fromSpace with top := survivors.newTop }
      old := { u.old with top := olds.newTop } } : Universe).post, report) ∧
      report.markedWords = k := by
    subst hv
    unfold Universe.compact
    simp only [h1, h2, h3, hC, hmoved, hcall1, hcall2, hcall3, Option.bind_eq_bind,
      Option.bind_some]
    exact ⟨_, rfl, rfl⟩
  obtain ⟨report, hcall, hk⟩ := hcompact
  rw [hpost] at hcall
  have hfields : moved = { u with
      mem := moved.mem
      roots := u.roots.map (forwardChase olds.mem)
      codeRoots := kept.map (CodeRoot.chase memC)
      offsets := moved.offsets } := by
    subst hv
    rw [← hmoved']
  refine ⟨_, report, imageOf olds.mem, hcall, ?_, hk⟩
  rw [hfields]
  refine ⟨hl3, hmarks, himage, hrootWords, hcodeWords, ?_, ?_, rfl, ?_, ?_, ?_, rfl, rfl, rfl⟩
  · rw [← ht1]
  · rw [← ht2]
  · rw [← ht3]
  · exact fun _ => rfl
  · intro s hs
    have hrebuilt := rebuilt_resolves h0 (w := u.clearThrough u.old.top) (by
      unfold Universe.clearThrough
      split <;> rfl) hs
    refine hrebuilt.of_offsets rfl ht3 ?_
    change moved.offsets = _
    rw [← hmoved']
    subst hv
    dsimp only
    rw [← hp3]
    refine Universe.recordAll_offsets _ _ ?_ ?_ _
    · unfold Universe.clearThrough
      dsimp only
      split <;> rfl
    · unfold Universe.clearThrough
      dsimp only
      split <;> rfl

end Compact

/-! ## The compacted heap -/

theorem isObject_compacted {x : Nat} :
    IsObject (compacted u objs marked) x ↔ ∃ a, Lands u objs marked a x := by
  constructor
  · rintro ⟨r, hr⟩
    obtain ⟨a, ha⟩ := mem_places.mp hr
    exact ⟨a, r, ha⟩
  · rintro ⟨a, r, ha⟩
    exact ⟨r, mem_places.mpr ⟨a, ha⟩⟩

namespace Compacted

/-- Every card of the live range is dirty. -/
theorem dirty (h : Compacted u objs marked kept image u') {x : Nat} (h1 : u'.old.start ≤ x)
    (h2 : x < u'.old.top) : u'.dirty (u'.cardIndex x) = true := by
  have hle : u'.cardIndex x ≤ u'.cardIndex (u'.old.top - 1) := Nat.div_le_div_right (by omega)
  rw [h.cards, decide_eq_true ⟨by omega, hle⟩, Bool.true_or]

variable (h0 : WfHeap u objs) (h : Compacted u objs marked kept image u')
include h0 h

theorem shape {a d : Nat} (hl : Lands u objs marked a d) :
    sizeAt u'.mem d = sizeAt u.mem a ∧ slotsAt u'.mem d = slotsAt u.mem a :=
  Sim.shape h0.object h0.lands_dom h.landed hl

/-- A marked object was moved as a whole. -/
theorem moved {a d : Nat} (hl : Lands u objs marked a d) :
    Moved Mark.SameState u.mem u'.mem image a := by
  have himage := h.places a d hl
  obtain ⟨hsize, hslots⟩ := h.shape h0 hl
  have hsim := h.landed a d hl
  refine ⟨?_, ?_, ?_, ?_, ?_⟩
  · rw [himage, hsize]
  · rw [himage, hslots]
  · intro off hoff
    rw [himage]
    exact chase_eq_imageWord h.places (hsim.slots off hoff)
  · rw [himage]
    exact hsim.raw
  · rw [himage]
    exact h.marks a d hl

theorem bounds : (∀ r, u'.start r = u.start r) ∧ (∀ r, u'.cap r = u.cap r) ∧
    (∀ r, u'.top r = newTopOf u objs marked r) ∧ u'.old.limit = u.old.limit := by
  refine ⟨fun r => ?_, fun r => ?_, fun r => ?_, by rw [h.old]⟩
  · cases r <;> simp only [Universe.start, h.eden, h.fromSpace, h.toSpace, h.old]
  · cases r <;> simp only [Universe.cap, h.eden, h.fromSpace, h.toSpace, h.old]
  · cases r with
    | eden => simp only [Universe.top, h.eden]
    | fromSpace => simp only [Universe.top, h.fromSpace]
    | toSpace =>
      have hto := (h0.tiles .toSpace).sum_eq
      unfold newTopOf live
      simp only [Universe.top, h.toSpace, h0.toEmpty, List.filter_nil, List.map_nil, List.sum_nil,
        Universe.start, Nat.add_zero]
      rw [h0.toEmpty] at hto
      exact hto
    | old => simp only [Universe.top, h.old]

theorem spaces : u'.WfSpaces := by
  obtain ⟨hstart, hcap, htop, hlimit⟩ := h.bounds h0
  have hsp := h0.spaces
  have hos : u'.old.start = u.old.start := hstart .old
  have hoc : u'.old.committedEnd = u.old.committedEnd := hcap .old
  refine ⟨fun r => ?_, fun r => ?_, fun r s hrs => ?_, fun r hr => ?_, ?_⟩
  · rw [hstart, htop]
    exact Nat.le_add_right _ _
  · rw [hcap, htop]
    exact (h0.live_sum_le r).trans (hsp.top_le r)
  · rw [hstart, hstart, hcap, hcap]
    exact hsp.apart r s hrs
  · rw [hcap, hos]
    exact hsp.young r hr
  · rw [hoc, hlimit]
    exact hsp.reserved

/-- Each region is packed from its start. -/
theorem tiles (r : Region) :
    Tiles (sizeAt u'.mem) (u'.start r) (u'.top r) (compacted u objs marked r) := by
  obtain ⟨hstart, -, htop, -⟩ := h.bounds h0
  rw [hstart, htop]
  exact packed_tiles (fun a ha => ((h0.tiles r).bounds (mem_live.mp ha).1).2.1)
    fun a d hm => (h.shape h0 ⟨r, hm⟩).1

/-- The heap is well-formed again. -/
theorem wfHeap (hkept : ∀ r ∈ kept, r ∈ u.codeRoots ∧ ∀ t, r.word = oopAt t → t ∈ marked)
    (hroots : ∀ w ∈ u.roots, ∀ t, w = oopAt t → t ∈ marked) :
    WfHeap u' (compacted u objs marked) := by
  obtain ⟨hstart, hcap, htop, -⟩ := h.bounds h0
  have hobj : ∀ a d, Lands u objs marked a d → IsObject (compacted u objs marked) d :=
    fun a d hl => isObject_compacted.mpr ⟨a, hl⟩
  have hword : ∀ {w : Nat}, WfWord (IsObject objs) w → (∀ t, w = oopAt t → t ∈ marked) →
      WfWord (IsObject (compacted u objs marked)) (imageWord image w) := by
    rintro w (hs | ⟨t, rfl, ht⟩) hm
    · rw [imageWord_of_not_isMem (not_isMem_of_isSmi hs)]
      exact Or.inl hs
    · obtain ⟨d, hd⟩ := h0.lands_of_marked ht (hm t rfl)
      rw [imageWord_oopAt, h.places t d hd]
      exact Or.inr ⟨d, rfl, hobj t d hd⟩
  have hos : u'.old.start = u.old.start := hstart .old
  refine ⟨h.spaces h0, h.tiles h0, ?_, ?_, ?_, ?_, ?_, h.pendingStall.trans h0.noStall,
    h.gcEnabled.trans h0.gcEnabled⟩
  · unfold compacted live
    rw [h0.toEmpty]
    rfl
  · intro d hd
    obtain ⟨a, hl⟩ := isObject_compacted.mp hd
    exact Sim.wfObject h0.object h0.lands_dom h.landed hl hobj (h.marks a d hl).1
      (h.marks a d hl).2.2.2.2
  · intro w hw
    rcases List.mem_append.mp hw with hw | hw
    · rw [h.roots] at hw
      obtain ⟨v, hv, rfl⟩ := List.mem_map.mp hw
      exact hword (h0.roots v (List.mem_append_left _ hv)) (hroots v hv)
    · unfold Universe.codeWords at hw
      rw [h.codeRoots, List.map_map] at hw
      obtain ⟨r, hr, rfl⟩ := List.mem_map.mp hw
      obtain ⟨hmem, ht⟩ := hkept r hr
      exact hword (h0.roots r.word (List.mem_append_right _ (List.mem_map_of_mem hmem))) ht
  · intro d hd off hoff _ _
    obtain ⟨a, hm⟩ := mem_places.mp hd
    have hl : Lands u objs marked a d := ⟨.old, hm⟩
    obtain ⟨hsize, hslots⟩ := h.shape h0 hl
    rw [hslots] at hoff
    have hin := ((h0.object a (h0.lands_dom a d hl)).slot_bounds hoff).2
    have hb := (h.tiles h0 .old).bounds hd
    rw [hsize] at hb
    have ht : u'.top .old = u'.old.top := rfl
    have hs : u'.start .old = u'.old.start := rfl
    exact h.dirty (by omega) (by omega)
  · exact h.resolves _ fun a d hl => (h.shape h0 hl).1

end Compacted

/-! ## The collection -/

namespace WfHeap

variable (h : WfHeap u objs)
include h

/-- The object graph seen from the roots that the flush leaves. -/
theorem marked_of_kept (hkept : ∀ r ∈ kept, r ∈ u.codeRoots ∧ ∀ t, r.word = oopAt t → t ∈ marked)
    (hroots : ∀ w ∈ u.roots, ∀ t, w = oopAt t → t ∈ marked)
    (hclosed : ∀ a ∈ marked, ∀ off ∈ slotsAt u.mem a, ∀ t, u.mem (a + off) = oopAt t → t ∈ marked)
    {a : Nat} (ha : ({ u with codeRoots := kept } : Universe).graph.Reachable a) : a ∈ marked := by
  refine ha.closed (P := (· ∈ marked)) (fun t ht => ?_) ?_
  · rcases List.mem_append.mp ht with ht | ht
    · exact hroots _ ht t rfl
    · obtain ⟨r, hr, hw⟩ := List.mem_map.mp ht
      exact (hkept r hr).2 t hw
  · rintro b t hb ⟨off, hoff, hw⟩
    exact hclosed b hb off hoff t hw

end WfHeap

/-- The nmethods that the collection flushes: the idle ones, and those whose key klass nothing
else keeps alive. -/
def Universe.Flushed (u : Universe) (n : Nat) : Prop :=
  n ∈ u.idleNmethods ∨ ∃ r ∈ u.codeRoots, r.weakKeyOf = some n ∧
    ∀ t, r.word = oopAt t → ¬ u.strongGraph.Reachable t

/-- The code roots that the flush leaves. -/
def Universe.KeepsRoots (u : Universe) (kept : List CodeRoot) : Prop :=
  kept.Sublist u.codeRoots ∧ ∀ r ∈ u.codeRoots,
    r ∈ kept ↔ ∀ n, u.Flushed n → r.weakKeyOf ≠ some n ∧ n ∉ r.flushedWith

namespace WfHeap

variable (h : WfHeap u objs) (hmarked : ∀ a, a ∈ marked ↔ u.strongGraph.Reachable a)
include h hmarked

theorem sub_of_marked : ∀ a ∈ marked, IsObject objs a :=
  fun a ha => h.isObject_of_strong ((hmarked a).mp ha)

omit h in
theorem closed_of_marked : ∀ a ∈ marked, ∀ off ∈ slotsAt u.mem a, ∀ t,
    u.mem (a + off) = oopAt t → t ∈ marked :=
  fun a ha off hoff t hw => (hmarked t).mpr (.edge ((hmarked a).mp ha) ⟨off, hoff, hw⟩)

omit h in
theorem root_of_marked : ∀ w ∈ u.roots, ∀ t, w = oopAt t → t ∈ marked :=
  fun w hw t heq => (hmarked t).mpr (.root (List.mem_append_left _ (heq ▸ hw)))

/-- The sweep finds the nmethods whose key klass is not reachable. -/
theorem mem_weakSweep {n : Nat} :
    n ∈ ({ u with mem := markedMem u.mem marked } : Universe).weakSweep ↔
      ∃ r ∈ u.codeRoots, r.weakKeyOf = some n ∧
        ∀ t, r.word = oopAt t → ¬ u.strongGraph.Reachable t := by
  unfold Universe.weakSweep
  rw [List.mem_filterMap]
  refine exists_congr fun r => and_congr_right fun hr => ?_
  have hwf := h.roots r.word (List.mem_append_right _ (List.mem_map_of_mem hr))
  rcases hwf with hs | ⟨t, hw, ht⟩
  · rw [if_neg fun hm => not_isMem_of_isSmi hs hm.1]
    refine ⟨fun hk => ⟨hk, fun t hw => ?_⟩, fun hk => hk.1⟩
    rw [hw] at hs
    exact absurd (isMem_oopAt t) (not_isMem_of_isSmi hs)
  · have hgc := @WfHeap.gcMark_marked _ _ marked h _ ht
    change (if IsMem r.word ∧ Mark.gcMark (markedMem u.mem marked (memAddr r.word)) = 1 then none
      else r.weakKeyOf) = some n ↔ _
    rw [hw, memAddr_oopAt, hgc]
    by_cases hm : t ∈ marked
    · rw [if_pos hm, if_pos ⟨isMem_oopAt t, rfl⟩]
      refine ⟨fun hk => absurd hk (by simp), fun hk => absurd ((hmarked t).mp hm) (hk.2 t rfl)⟩
    · rw [if_neg hm, if_neg fun hk => absurd hk.2 (by decide)]
      refine ⟨fun hk => ⟨hk, fun t' hw' => ?_⟩, fun hk => hk.1⟩
      rw [← oopAt_injective hw']
      exact fun hr => hm ((hmarked t).mpr hr)

/-- The flush leaves the roots it should, and their targets are marked. -/
theorem flushNmethods : ∃ kept, u.KeepsRoots kept ∧
    ({ u with mem := markedMem u.mem marked } : Universe).flushNmethods
      (({ u with mem := markedMem u.mem marked } : Universe).weakSweep ++ u.idleNmethods) =
      { u with mem := markedMem u.mem marked, codeRoots := kept } ∧
    ∀ r ∈ kept, r ∈ u.codeRoots ∧ ∀ t, r.word = oopAt t → t ∈ marked := by
  generalize hids : ({ u with mem := markedMem u.mem marked } : Universe).weakSweep ++
    u.idleNmethods = ids
  have hflushed : ∀ n, n ∈ ids ↔ u.Flushed n := by
    intro n
    rw [← hids, List.mem_append, h.mem_weakSweep hmarked, or_comm]
    rfl
  have hmem : ∀ r, r ∈ u.codeRoots.filter (fun r => ids.all fun n =>
      decide (r.weakKeyOf ≠ some n) && !r.flushedWith.contains n) ↔
      r ∈ u.codeRoots ∧ ∀ n, u.Flushed n → r.weakKeyOf ≠ some n ∧ n ∉ r.flushedWith := by
    intro r
    rw [List.mem_filter, List.all_eq_true]
    refine and_congr_right fun _ => forall_congr' fun n => ?_
    rw [hflushed]
    simp
  refine ⟨_, ⟨List.filter_sublist, fun r hr => ?_⟩, rfl, fun r hr => ?_⟩
  · rw [hmem]
    exact and_iff_right hr
  · obtain ⟨hcode, hkeep⟩ := (hmem r).mp hr
    refine ⟨hcode, fun t hw => ?_⟩
    rw [hmarked]
    cases hk : r.weakKeyOf with
    | none =>
      refine .root (List.mem_append_right _ (List.mem_map.mpr ⟨r, ?_, hw⟩))
      exact List.mem_filter.mpr ⟨hcode, by rw [hk]; rfl⟩
    | some n =>
      by_contra hn
      refine (hkeep n (Or.inr ⟨r, hcode, hk, fun t' hw' => ?_⟩)).1 hk
      rw [oopAt_injective (hw'.symm.trans hw)]
      exact hn

end WfHeap

/-- A full collection of a well-formed heap whose live objects fit their entries. -/
theorem fullGc_spec (h : WfHeap u objs)
    (hsmall : ∀ a, u.strongGraph.Reachable a → sizeAt u.mem a ≤ maxEntryWords) :
    ∃ u' report marked kept image, u.fullGc = some (u', report) ∧ marked.Nodup ∧
      (∀ a, a ∈ marked ↔ u.strongGraph.Reachable a) ∧ u.KeepsRoots kept ∧
      (∀ r ∈ kept, r ∈ u.codeRoots ∧ ∀ t, r.word = oopAt t → t ∈ marked) ∧
      Compacted u objs marked kept image u' ∧
      report.markedWords = (marked.map (sizeAt u.mem)).sum := by
  obtain ⟨st, marked, hmark, hnodup, hmarked, hmem, hwords⟩ := h.mark
  obtain ⟨kept, hkeeps, hflush, hkept⟩ := h.flushNmethods hmarked
  obtain ⟨u', report, image, hcompact, hc, hk⟩ := compact_spec h (h.sub_of_marked hmarked)
    (fun a ha => hsmall a ((hmarked a).mp ha)) (WfHeap.closed_of_marked hmarked)
    (WfHeap.root_of_marked hmarked) hkept rfl (k := st.markedWords)
  refine ⟨u', report, marked, kept, image, ?_, hnodup, hmarked, hkeeps, hkept, hc, hk.trans hwords⟩
  unfold Universe.fullGc
  rw [if_pos h.gcEnabled, hmark]
  simp only [Option.bind_eq_bind, Option.bind_some, hmem]
  rw [hflush]
  exact hcompact

/-! ## What it preserves -/

/-- The marked objects fill as many words as the heap has in use afterwards. -/
theorem Compacted.sum_marked (h0 : WfHeap u objs) (h : Compacted u objs marked kept image u')
    (hnodup : marked.Nodup) (hsub : ∀ a ∈ marked, IsObject objs a) :
    (marked.map (sizeAt u.mem)).sum =
      u'.eden.used + u'.fromSpace.used + (u'.old.top - u'.old.start) := by
  obtain ⟨hplans, hold⟩ := @plans_old _ _ marked h0
  rw [List.map_append, List.map_append, map_old_planOf, map_old_planOf, map_old_planOf] at hplans hold
  have hperm : marked.Perm
      (live objs marked .eden ++ live objs marked .fromSpace ++ live objs marked .old) :=
    (List.perm_ext_iff_of_nodup hnodup hplans).mpr fun a =>
      ⟨fun ha => (hold a).mpr ⟨hsub a ha, ha⟩, fun ha => ((hold a).mp ha).2⟩
  rw [(hperm.map _).sum_eq, List.map_append, List.map_append, List.sum_append, List.sum_append]
  unfold Space.used
  rw [h.eden, h.fromSpace, h.old]
  unfold newTopOf
  change _ = (u.eden.start + _ - u.eden.start) + (u.fromSpace.start + _ - u.fromSpace.start) +
    (u.old.start + _ - u.old.start)
  rw [Nat.add_sub_cancel_left, Nat.add_sub_cancel_left, Nat.add_sub_cancel_left]

/-- The places of a region are the images of its marked objects, in their order. -/
theorem Compacted.places_eq (h : Compacted u objs marked kept image u') (r : Region) :
    compacted u objs marked r = (live objs marked r).map image := by
  unfold compacted
  have hfst := map_fst_packed (sizeAt u.mem) (u.start r) (live objs marked r)
  conv_rhs => rw [← hfst, List.map_map]
  exact List.map_congr_left fun e he => (h.places e.1 e.2 ⟨r, he⟩).symm

/-- A full collection of a well-formed heap, if every live object fits its entry, leaves a
well-formed heap with an isomorphic copy of the graph: in each region the survivors are the
reachable objects, in the order they had, packed from the region's start; they keep their
state, and what was marked is what is in use. -/
theorem fullGc_relocates (h : WfHeap u objs)
    (hsmall : ∀ a, u.strongGraph.Reachable a → sizeAt u.mem a ≤ maxEntryWords) :
    ∃ (u' : Universe) (report : Universe.FullGcReport) (kept : List CodeRoot)
      (image : Nat → Nat) (objs' : Objects), u.fullGc = some (u', report) ∧ WfHeap u' objs' ∧
      u.KeepsRoots kept ∧ Relocated Mark.SameState { u with codeRoots := kept } u' image ∧
      (∀ a, u.strongGraph.Reachable a → Moved Mark.SameState u.mem u'.mem image a) ∧
      (∀ a b, u.strongGraph.Reachable a → u.strongGraph.Reachable b → image a = image b → a = b) ∧
      (∀ r, u'.start r = u.start r ∧ ∃ survivors : List Nat, survivors.Sublist (objs r) ∧
        (∀ a, a ∈ survivors ↔ a ∈ objs r ∧ u.strongGraph.Reachable a) ∧
        objs' r = survivors.map image) ∧
      report.markedWords = u'.eden.used + u'.fromSpace.used + (u'.old.top - u'.old.start) := by
  obtain ⟨u', report, marked, kept, image, hrun, hnodup, hmarked, hkeeps, hkept, hc, hwords⟩ :=
    fullGc_spec h hsmall
  have hsub := h.sub_of_marked hmarked
  have hroots := WfHeap.root_of_marked hmarked
  have hclosed := WfHeap.closed_of_marked hmarked
  have hlands : ∀ a, a ∈ marked → Lands u objs marked a (image a) := by
    intro a ha
    obtain ⟨d, hd⟩ := h.lands_of_marked (hsub a ha) ha
    rwa [hc.places a d hd]
  have hinj : ∀ a b, a ∈ marked → b ∈ marked → image a = image b → a = b := by
    intro a b ha hb heq
    by_contra hne
    have hpa := (h.object a (hsub a ha)).two_le_sizeAt
    have hpb := (h.object b (hsub b hb)).two_le_sizeAt
    have := h.lands_apart (hlands a ha) (hlands b hb) hne
    omega
  have hof : ∀ {a}, ({ u with codeRoots := kept } : Universe).graph.Reachable a → a ∈ marked :=
    fun ha => h.marked_of_kept hkept hroots hclosed ha
  have hwf : WfHeap { u with codeRoots := kept } objs := by
    refine ⟨h.spaces.of_eq rfl rfl rfl rfl, h.tiles, h.toEmpty, h.object, fun w hw => ?_,
      h.remembered, h.resolves.of_offsets rfl rfl rfl, h.noStall, h.gcEnabled⟩
    rcases List.mem_append.mp hw with hw | hw
    · exact h.roots w (List.mem_append_left _ hw)
    · obtain ⟨r, hr, rfl⟩ := List.mem_map.mp hw
      exact h.roots _ (List.mem_append_right _ (List.mem_map_of_mem (hkept r hr).1))
  refine ⟨u', report, kept, image, compacted u objs marked, hrun, hc.wfHeap h hkept hroots, hkeeps,
    ?_, ?_, ?_, ?_, hwords.trans (hc.sum_marked h hnodup hsub)⟩
  · exact .of_moved hwf hc.roots hc.codeRoots (fun a ha => hc.moved h (hlands a (hof ha)))
      fun a b ha hb heq => hinj a b (hof ha) (hof hb) heq
  · exact fun a ha => hc.moved h (hlands a ((hmarked a).mpr ha))
  · exact fun a b ha hb heq => hinj a b ((hmarked a).mpr ha) ((hmarked b).mpr hb) heq
  · intro r
    refine ⟨(hc.bounds h).1 r, live objs marked r, List.filter_sublist, fun a => ?_, hc.places_eq r⟩
    rw [mem_live, hmarked]

theorem fullGc_relocates_byteArray :
    ∃ (u' : Universe) (report : Universe.FullGcReport) (kept : List CodeRoot)
      (image : Nat → Nat) (objs' : Objects),
      (Universe.withByteArray defaultEden 5 16).fullGc = some (u', report) ∧ WfHeap u' objs' ∧
      Relocated Mark.SameState { Universe.withByteArray defaultEden 5 16 with codeRoots := kept }
        u' image := by
  have hwf : WfHeap (.withByteArray defaultEden 5 16) (.withByteArray defaultEden 5) := by
    decide +kernel
  have hsizes : ∀ r, ∀ a ∈ Objects.withByteArray defaultEden 5 r,
      sizeAt (Universe.withByteArray defaultEden 5 16).mem a ≤ maxEntryWords := by
    intro r
    cases r <;> decide +kernel
  have hsmall : ∀ a, (Universe.withByteArray defaultEden 5 16).strongGraph.Reachable a →
      sizeAt (Universe.withByteArray defaultEden 5 16).mem a ≤ maxEntryWords := by
    intro a ha
    obtain ⟨r, hr⟩ := hwf.isObject_of_strong ha
    exact hsizes r a hr
  obtain ⟨u', report, kept, image, objs', hrun, hwf', -, hmove, -⟩ := fullGc_relocates hwf hsmall
  exact ⟨u', report, kept, image, objs', hrun, hwf', hmove⟩

/-- The bound is needed: the size of a planned object is a 32-bit number. -/
theorem fullGc_oversized :
    WfHeap (.withByteArray (2 ^ 33) 5 (2 ^ 35)) (.withByteArray (2 ^ 33) 5) ∧
      (Universe.withByteArray (2 ^ 33) 5 (2 ^ 35)).fullGc = none := by
  have hwf : WfHeap (.withByteArray (2 ^ 33) 5 (2 ^ 35)) (.withByteArray (2 ^ 33) 5) := by
    decide +kernel
  have hrun : (Universe.withByteArray (2 ^ 33) 5 (2 ^ 35)).fullGc.isNone = true := by
    decide +kernel
  exact ⟨hwf, Option.isNone_iff_eq_none.mp hrun⟩

/-- If a full collection ends, every live object fitted its entry. -/
theorem fullGc_small {report : Universe.FullGcReport} (h : WfHeap u objs)
    (hrun : u.fullGc = some (u', report)) {a : Nat} (ha : u.strongGraph.Reachable a) :
    sizeAt u.mem a ≤ maxEntryWords := by
  obtain ⟨st, marked, hmark, hnodup, hmarked, hmem, hwords⟩ := h.mark
  obtain ⟨kept, hkeeps, hflush, hkept⟩ := h.flushNmethods hmarked
  unfold Universe.fullGc at hrun
  rw [if_pos h.gcEnabled, hmark] at hrun
  simp only [Option.bind_eq_bind, Option.bind_some, hmem] at hrun
  rw [hflush] at hrun
  unfold Universe.compact at hrun
  simp only [Option.bind_eq_bind, Option.bind_eq_some_iff] at hrun
  obtain ⟨eden, h1, survivors, h2, olds, h3, -⟩ := hrun
  exact forwards_small h (h.sub_of_marked hmarked) rfl h1 h2 h3 a ((hmarked a).mpr ha)

end WinVm.Memory
