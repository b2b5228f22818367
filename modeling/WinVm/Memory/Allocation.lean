import WinVm.Memory.Fresh

/-!
# What the allocator does

The cascade of `alloc_words`, attempt by attempt. All of them work on a heap that follows from
the one at the start by collections and growth (`Underway`); the attempt that succeeds puts a
fresh object on top of a region.

Results: `cascade_meets`. Besides the object it answers, it says in which states the
allocation scavenges and when it gives up.
-/

namespace WinVm.Memory

open WinVm.Lib

/-! ## Growth -/

section Growth

variable {u : Universe} {objs : Objects}

/-- The universe with old gen committed up to `c`. -/
def Universe.commit (u : Universe) (c : Nat) : Universe :=
  { u with old := { u.old with committedEnd := c } }

theorem WfHeap.commit (h : WfHeap u objs) {c : Nat} (h1 : u.old.committedEnd ≤ c)
    (h2 : c ≤ u.old.limit) : WfHeap (u.commit c) objs := by
  have hcap : ∀ s, s ≠ .old → (u.commit c).cap s = u.cap s := by
    intro s hs
    cases s <;> first | rfl | exact absurd rfl hs
  refine ⟨⟨h.spaces.start_le, fun s => ?_, fun r s hrs => ?_, fun s hs => ?_, h2⟩, h.tiles,
    h.toEmpty, h.object, h.roots, h.remembered, h.resolves.of_offsets rfl rfl rfl, h.noStall,
    h.gcEnabled⟩
  · have htop := h.spaces.top_le s
    by_cases hs : s = .old
    · subst hs
      exact htop.trans h1
    · rw [hcap s hs]
      exact htop
  · by_cases hr : r = .old
    · subst hr
      right
      rw [hcap s fun heq => hrs heq.symm]
      exact h.spaces.young s fun heq => hrs heq.symm
    · rw [hcap r hr]
      by_cases hs : s = .old
      · subst hs
        exact Or.inl (h.spaces.young r hr)
      · rw [hcap s hs]
        exact h.spaces.apart r s hrs
  · rw [hcap s hs]
    exact h.spaces.young s hs

theorem growOld_eq {segment : Nat} (hpos : 0 < segment) (h : u.old.committedEnd ≤ u.old.limit) :
    u.growOld segment = (u.commit (min (u.old.committedEnd + segment) u.old.limit),
      min (u.old.committedEnd + segment) u.old.limit - u.old.committedEnd) := by
  have hmax : max segment 1 = segment := Nat.max_eq_left hpos
  unfold Universe.growOld OldGen.grow Universe.commit
  rw [hmax]
  by_cases hzero : min (u.old.committedEnd + segment) u.old.limit - u.old.committedEnd = 0
  · have hsame : min (u.old.committedEnd + segment) u.old.limit = u.old.committedEnd := by
      omega
    simp only [hsame, Nat.sub_self, if_true]
  · simp only [if_neg hzero]

/-- The growth loop ends with the room it wants, or with the whole reservation committed. -/
theorem growTo_spec {segment : Nat} (hpos : 0 < segment) (worst n : Nat)
    (h : u.old.committedEnd ≤ u.old.limit) (hn : u.old.limit - u.old.committedEnd < n) :
    ∃ c, u.old.committedEnd ≤ c ∧ c ≤ u.old.limit ∧ u.growTo segment worst n = u.commit c ∧
      (worst ≤ c - u.old.top ∨ c = u.old.limit) := by
  induction n generalizing u with
  | zero => omega
  | succ n ih =>
    unfold Universe.growTo
    by_cases hmore : u.old.freeWords < worst
    · rw [if_pos hmore, growOld_eq hpos h]
      generalize hc : min (u.old.committedEnd + segment) u.old.limit = c
      have hge : u.old.committedEnd ≤ c ∧ c ≤ u.old.limit := by omega
      dsimp only
      by_cases hgrown : c - u.old.committedEnd = 0
      · rw [if_pos hgrown]
        exact ⟨u.old.committedEnd, Nat.le_refl _, h, rfl, Or.inr (by omega)⟩
      · rw [if_neg hgrown]
        have hlimit : (u.commit c).old.limit = u.old.limit := rfl
        have hend : (u.commit c).old.committedEnd = c := rfl
        obtain ⟨c', h1, h2, h3, h4⟩ := ih (u := u.commit c) hge.2 (by omega)
        exact ⟨c', hge.1.trans h1, h2, h3, h4⟩
    · rw [if_neg hmore]
      unfold OldGen.freeWords at hmore
      exact ⟨u.old.committedEnd, Nat.le_refl _, h, rfl, Or.inl (by omega)⟩

theorem oldGrowthSegment_pos : 0 < oldGrowthSegment := by decide

end Growth

/-! ## An allocation under way -/

/-- A state between allocations: addresses fit in a `usize`, and there are roots before the
handle arena. -/
structure WfVm (vm : VmState) (objs : Objects) : Prop where
  heap : WfHeap vm.heap objs
  handles : 1 ≤ vm.handleEnd ∧ vm.handleEnd ≤ vm.heap.roots.length
  addresses : vm.heap.old.limit < usizeWords

/-- What is live at the start does not fit in old gen's reservation together with so many words. -/
def Universe.Exceeds (u : Universe) (words : Nat) : Prop :=
  ∀ n, u.LiveWords n → u.old.limit - u.old.start < n + words

/-- A live object that is too long for a compaction entry. -/
def Universe.Oversized (u : Universe) : Prop :=
  ∃ a, u.strongGraph.Reachable a ∧ maxEntryWords < sizeAt u.mem a

/-- `vm0` is the state at the start, with the handle pushed. -/
structure Underway (vm0 vm : VmState) (objs : Objects) : Prop where
  heap : WfHeap vm.heap objs
  survives : ∃ kept image, Survives vm0.heap kept vm.heap image
  eden : vm.heap.eden.start = vm0.heap.eden.start ∧ vm.heap.eden.limit = vm0.heap.eden.limit
  old : vm.heap.old.start = vm0.heap.old.start ∧ vm.heap.old.limit = vm0.heap.old.limit
  same : vm.handleEnd = vm0.handleEnd ∧ vm.gcStress = vm0.gcStress ∧
    vm.gcStressFullPeriod = vm0.gcStressFullPeriod

/-- The spaces hold no more than what was live at the start. -/
def Packed (u0 u : Universe) : Prop :=
  ∀ n, u0.LiveWords n → u.eden.used + u.fromSpace.used + (u.old.top - u.old.start) ≤ n

/-- A scavenge may start: the guarantee is not claimed without room, and where there is no room,
all of the reservation is in use. -/
structure Safe (u0 u : Universe) : Prop where
  claimed : u.promotionGuaranteeMet = true → u.HasRoom
  full : u.HasRoom ∨ (u.old.committedEnd = u.old.limit ∧ Packed u0 u)

/-- An attempt has succeeded. -/
def Made (vm0 : VmState) (words : Nat) (tagged : Bool) (a : Nat) (vm : VmState) : Prop :=
  ∃ vm1 objs r, Underway vm0 vm1 objs ∧ Fresh vm1.heap vm.heap r a words vm1.handle tagged ∧
    vm = vm1.withUniverse vm.heap

/-- In which states an allocation of so many words scavenges, and when it gives up or panics. -/
def allocLimits (vm0 : VmState) (words : Nat) : Limits Universe GcStallError where
  event e := (∃ objs, WfHeap e objs) ∧ (e.promotionGuaranteeMet = true → e.HasRoom)
  halt _ := words ≤ 2 * oldGrowthSegment → vm0.heap.Exceeds words
  wrong := vm0.heap.Exceeds words ∨ vm0.heap.Oversized

namespace Underway

variable {vm0 vm : VmState} {objs0 objs objs' : Objects} (h0 : WfHeap vm0.heap objs0)
variable (h : Underway vm0 vm objs)

theorem refl (h0 : WfHeap vm0.heap objs0) : Underway vm0 vm0 objs0 :=
  ⟨h0, ⟨_, _, h0.survives (fun _ _ _ _ => rfl) rfl rfl⟩, ⟨rfl, rfl⟩, ⟨rfl, rfl⟩, rfl, rfl, rfl⟩

include h

/-- The bookkeeping of the VM besides the heap, and the flag, do not matter. -/
theorem of_same {vm' : VmState} (hwf : WfHeap vm'.heap objs)
    (hmem : vm'.heap.mem = vm.heap.mem ∧ vm'.heap.roots = vm.heap.roots ∧
      vm'.heap.codeRoots = vm.heap.codeRoots)
    (heden : vm'.heap.eden = vm.heap.eden)
    (hold : vm'.heap.old.start = vm.heap.old.start ∧ vm'.heap.old.limit = vm.heap.old.limit)
    (hsame : vm'.handleEnd = vm.handleEnd ∧ vm'.gcStress = vm.gcStress ∧
      vm'.gcStressFullPeriod = vm.gcStressFullPeriod) : Underway vm0 vm' objs := by
  obtain ⟨kept, image, hs⟩ := h.survives
  refine ⟨hwf, ⟨kept, image, hs.sublist, ?_⟩, ?_, ?_, ?_⟩
  · have hr := hs.relocated
    have hgraph : vm'.heap.graph = vm.heap.graph := by
      unfold Universe.graph Universe.codeWords
      rw [hmem.1, hmem.2.1, hmem.2.2]
    exact ⟨hmem.2.1.trans hr.roots, hmem.2.2.trans hr.codeRoots, hmem.1 ▸ hr.moved, hr.injective,
      hgraph ▸ hr.reachable⟩
  · rw [heden]
    exact h.eden
  · exact ⟨hold.1.trans h.old.1, hold.2.trans h.old.2⟩
  · exact ⟨hsame.1.trans h.same.1, hsame.2.1.trans h.same.2.1, hsame.2.2.trans h.same.2.2⟩

theorem commit {c : Nat} (h1 : vm.heap.old.committedEnd ≤ c) (h2 : c ≤ vm.heap.old.limit) :
    Underway vm0 (vm.withUniverse (vm.heap.commit c)) objs :=
  h.of_same (h.heap.commit h1 h2) ⟨rfl, rfl, rfl⟩ rfl ⟨rfl, rfl⟩ ⟨rfl, rfl, rfl⟩

include h0

/-- One more collection. -/
theorem collected {u : Universe} {kept : List CodeRoot} {image : Nat → Nat} (hwf : WfHeap u objs')
    (hs : Survives vm.heap kept u image)
    (heden : u.eden.start = vm.heap.eden.start ∧ u.eden.limit = vm.heap.eden.limit)
    (hold : u.old.start = vm.heap.old.start ∧ u.old.limit = vm.heap.old.limit) :
    Underway vm0 (vm.withUniverse u) objs' := by
  obtain ⟨kept1, image1, hs1⟩ := h.survives
  obtain ⟨kept2, -, hs2⟩ := hs1.trans h0 hs
  exact ⟨hwf, ⟨kept2, _, hs2⟩, ⟨heden.1.trans h.eden.1, heden.2.trans h.eden.2⟩,
    ⟨hold.1.trans h.old.1, hold.2.trans h.old.2⟩, h.same⟩

theorem liveWords_le {n n' : Nat} (hn : vm0.heap.LiveWords n) (hn' : vm.heap.LiveWords n') :
    n' ≤ n := by
  obtain ⟨kept, image, hs⟩ := h.survives
  exact hs.liveWords_le h0 hn hn'

theorem oversized (hbig : vm.heap.Oversized) : vm0.heap.Oversized := by
  obtain ⟨b, hb, hsize⟩ := hbig
  obtain ⟨kept, image, hs⟩ := h.survives
  obtain ⟨a, ha, -, heq⟩ := hs.strong_reachable h0 hb
  exact ⟨a, ha, heq ▸ hsize⟩

end Underway

/-! ## The collections of an allocation -/

section Attempts

variable {vm0 vm : VmState} {objs0 objs : Objects} {words : Nat} {tagged : Bool}
variable (h0 : WfHeap vm0.heap objs0)

/-- What a full collection leaves. -/
structure Collected (u0 u u' : Universe) : Prop where
  eden : u'.eden.used ≤ u.eden.used
  fromSpace : u'.fromSpace.used ≤ u.fromSpace.used
  old : u'.old.top ≤ u.old.top ∧ u'.old.committedEnd = u.old.committedEnd
  packed : Packed u0 u'

include h0

theorem fullGc_meets (h : Underway vm0 vm objs) : Meets (allocLimits vm0 words) (Alloc.fullGc vm)
    fun _ vm' => ∃ objs', Underway vm0 vm' objs' ∧ Collected vm0.heap vm.heap vm'.heap := by
  unfold Alloc.fullGc
  refine .get_bind ?_
  cases hr : vm.heap.fullGc with
  | none =>
    refine .wrong (Or.inr (h.oversized h0 ?_))
    by_contra hsmall
    obtain ⟨u', report, -, -, -, hrun, -⟩ := fullGc_spec h.heap fun a ha =>
      Nat.le_of_not_lt fun hbig => hsmall ⟨a, ha, hbig⟩
    rw [hrun] at hr
    cases hr
  | some r =>
    obtain ⟨u', report⟩ := r
    have hrun := hr
    obtain ⟨kept, image, objs', hwf, hs⟩ := fullGc_survives h.heap hrun
    obtain ⟨heden, hetop, hfrom, hold, hotop, -⟩ := fullGc_bounds h.heap hrun
    obtain ⟨hlive, hused⟩ := fullGc_liveWords h.heap hrun
    refine .modify ⟨objs', h.collected h0 hwf hs ?_ ?_, ?_, hfrom, ⟨hotop, ?_⟩, fun n hn => ?_⟩
    · rw [heden]
      exact ⟨rfl, rfl⟩
    · rw [hold]
      exact ⟨rfl, rfl⟩
    · change u'.eden.used ≤ _
      unfold Space.used
      rw [heden]
      exact Nat.sub_le_sub_right hetop _
    · change u'.old.committedEnd = _
      rw [hold]
    · have hle := h.liveWords_le h0 hn hlive
      rw [hused] at hle
      exact hle

/-- What is in use afterwards is no more than it was, and there is room for it or no more to be
had. -/
theorem makeRoom_meets (h : Underway vm0 vm objs) {worst : Nat}
    (hworst : vm.heap.eden.used + vm.heap.fromSpace.used = worst) :
    Meets (allocLimits vm0 words) (Alloc.makeRoom worst vm) fun _ vm' => ∃ objs',
      Underway vm0 vm' objs' ∧ vm'.heap.eden.used + vm'.heap.fromSpace.used ≤ worst ∧
      (worst ≤ vm'.heap.old.freeWords ∨
        (vm'.heap.old.committedEnd = vm'.heap.old.limit ∧ Packed vm0.heap vm'.heap)) := by
  unfold Alloc.makeRoom
  have hpos := oldGrowthSegment_pos
  generalize oldGrowthSegment = segment at hpos ⊢
  refine .get_bind ?_
  split
  · refine (fullGc_meets h0 h).bind ?_
    rintro ⟨⟩ vm1 ⟨objs1, h1, hc⟩
    obtain ⟨c, hc1, hc2, hgrow, hc3⟩ := growTo_spec hpos worst
      (vm1.heap.old.limit - vm1.heap.old.committedEnd + 1) h1.heap.spaces.reserved
      (Nat.lt_succ_self _)
    refine .modify ⟨objs1, hgrow ▸ h1.commit hc1 hc2, ?_, ?_⟩
    · rw [hgrow, ← hworst]
      exact Nat.add_le_add hc.eden hc.fromSpace
    · rw [hgrow]
      exact hc3.imp id fun heq => ⟨heq, hc.packed⟩
  · exact .pure ⟨objs, h, Nat.le_of_eq hworst, Or.inl (Nat.le_of_not_lt ‹_›)⟩

theorem ensurePromotionGuarantee_meets (h : Underway vm0 vm objs) :
    Meets (allocLimits vm0 words) (Alloc.ensurePromotionGuarantee vm)
      fun _ vm' => ∃ objs', Underway vm0 vm' objs' ∧ Safe vm0.heap vm'.heap := by
  unfold Alloc.ensurePromotionGuarantee
  refine .get_bind ((makeRoom_meets h0 h rfl).bind ?_)
  rintro ⟨⟩ vm1 ⟨objs1, h1, hused, hroom⟩
  refine .modify ⟨objs1, h1.of_same (h1.heap.of_eq ⟨rfl, rfl, rfl, rfl⟩ rfl rfl rfl rfl rfl rfl rfl)
    ⟨rfl, rfl, rfl⟩ rfl ⟨rfl, rfl⟩ ⟨rfl, rfl, rfl⟩, fun hflag => ?_, ?_⟩
  · exact hused.trans (of_decide_eq_true hflag)
  · exact hroom.imp (fun hroom => hused.trans hroom) id

theorem scavenge_meets (h : Underway vm0 vm objs) (hsafe : Safe vm0.heap vm.heap) :
    Meets (allocLimits vm0 words) (Alloc.scavenge vm)
      fun _ vm' => ∃ objs', Underway vm0 vm' objs' := by
  unfold Alloc.scavenge
  refine .get_bind (.emit_bind ⟨⟨objs, h.heap⟩, hsafe.claimed⟩ ?_)
  obtain ⟨out, hrun, hstall, -⟩ := scavenge_spec h.heap
  rw [hrun]
  cases out with
  | error err =>
    -- the spaces are full of what was live
    refine .halt fun _ n hn => ?_
    have hno := hstall err rfl
    obtain ⟨hend, hpacked⟩ := hsafe.full.resolve_left hno
    have hle := hpacked n hn
    unfold Universe.HasRoom OldGen.freeWords at hno
    rw [← h.old.1, ← h.old.2]
    have h1 := h.heap.spaces.start_le .old
    have h2 : vm.heap.start .old = vm.heap.old.start := rfl
    have h3 : vm.heap.top .old = vm.heap.old.top := rfl
    omega
  | ok r =>
    obtain ⟨u', report⟩ := r
    obtain ⟨image, objs', hwf, hs⟩ := scavenge_survives h.heap hrun
    obtain ⟨heden, hold, -, -⟩ := scavenge_bounds h.heap hrun
    refine .modify ⟨objs', h.collected h0 hwf hs ?_ ?_⟩
    · rw [heden]
      exact ⟨rfl, rfl⟩
    · rw [hold]
      exact ⟨rfl, rfl⟩

/-! ## The attempts -/

omit h0 in
theorem allocEden_meets (h : Underway vm0 vm objs) (haddr : vm0.heap.old.limit < usizeWords) :
    Meets (allocLimits vm0 words) (Alloc.allocEden words tagged vm)
      (Answers (Made vm0 words tagged) fun vm' => vm' = vm) := by
  unfold Alloc.allocEden
  refine .get_bind ?_
  split
  · -- the request alone is longer than old gen
    refine .wrong (Or.inl fun n hn => ?_)
    have h1 := h.heap.spaces.top_le .eden
    have h2 := h.heap.spaces.young .eden (by decide)
    have h3 : vm.heap.top .eden = vm.heap.eden.top := rfl
    have h4 := h.heap.spaces.start_le .old
    have h5 : vm.heap.start .old = vm.heap.old.start := rfl
    have h6 := (h.heap.spaces.top_le .old).trans h.heap.spaces.reserved
    rw [h.old.2] at h6
    rw [← h.old.1]
    omega
  · cases hrun : vm.heap.tryBumpEden words with
    | none => exact .pure rfl
    | some r =>
      obtain ⟨u, a⟩ := r
      refine .modify_bind (.pure ⟨vm, objs, .eden, h, ?_, rfl⟩)
      exact tryBumpEden_fresh hrun

omit h0 in
theorem tryOldAlloc_meets (h : Underway vm0 vm objs) :
    Meets (allocLimits vm0 words) (Alloc.tryOldAlloc words tagged vm)
      (Answers (Made vm0 words tagged) fun vm' =>
        vm' = vm ∧ vm.heap.old.committedEnd < vm.heap.old.top + words) := by
  unfold Alloc.tryOldAlloc
  refine .get_bind ?_
  cases hrun : vm.heap.allocateOld words with
  | none =>
    refine .pure ⟨rfl, Nat.lt_of_not_le fun hroom => ?_⟩
    unfold Universe.allocateOld at hrun
    rw [if_pos hroom] at hrun
    cases hrun
  | some r =>
    obtain ⟨u, a⟩ := r
    exact .modify_bind (.pure ⟨vm, objs, .old, h, allocateOld_fresh h.heap.spaces hrun, rfl⟩)

omit h0 in
/-- If it fails, a whole segment was committed, or all there was. -/
theorem growThenOldAlloc_meets {segment : Nat} (hpos : 0 < segment) (h : Underway vm0 vm objs)
    (hfull : vm.heap.old.committedEnd < vm.heap.old.top + words) :
    Meets (allocLimits vm0 words) (Alloc.growThenOldAlloc segment words tagged vm)
      (Answers (Made vm0 words tagged) fun vm' =>
        ∃ c, vm.heap.old.committedEnd ≤ c ∧ c ≤ vm.heap.old.limit ∧
          vm' = vm.withUniverse (vm.heap.commit c) ∧ c < vm.heap.old.top + words ∧
          (c = vm.heap.old.limit ∨ c = vm.heap.old.committedEnd + segment)) := by
  have hres := h.heap.spaces.reserved
  unfold Alloc.growThenOldAlloc
  refine .get_bind ?_
  rw [growOld_eq hpos hres]
  generalize hc : min (vm.heap.old.committedEnd + segment) vm.heap.old.limit = c
  have hbounds : vm.heap.old.committedEnd ≤ c ∧ c ≤ vm.heap.old.limit ∧
      (c = vm.heap.old.limit ∨ c = vm.heap.old.committedEnd + segment) := by
    omega
  dsimp only
  split
  · refine .modify_bind ((tryOldAlloc_meets (h.commit hbounds.1 hbounds.2.1)).imp ?_)
    rintro (_ | a) vm' hr
    · exact ⟨c, hbounds.1, hbounds.2.1, hr.1, hr.2, hbounds.2.2⟩
    · exact hr
  · have hsame : c = vm.heap.old.committedEnd := by omega
    refine .pure ⟨c, hbounds.1, hbounds.2.1, ?_, by omega, hbounds.2.2⟩
    rw [hsame]
    rfl

theorem scavengeThenEden_meets (h : Underway vm0 vm objs) (haddr : vm0.heap.old.limit < usizeWords) :
    Meets (allocLimits vm0 words) (Alloc.scavengeThenEden words tagged vm)
      (Answers (Made vm0 words tagged) fun vm' => ∃ objs', Underway vm0 vm' objs') := by
  unfold Alloc.scavengeThenEden
  refine .get_bind ?_
  split
  · refine (ensurePromotionGuarantee_meets h0 h).bind ?_
    rintro ⟨⟩ vm1 ⟨objs1, h1, hsafe⟩
    refine (scavenge_meets h0 h1 hsafe).bind ?_
    rintro ⟨⟩ vm2 ⟨objs2, h2⟩
    refine (allocEden_meets h2 haddr).imp ?_
    rintro (_ | a) vm' hr
    · exact ⟨objs2, hr ▸ h2⟩
    · exact hr
  · exact .pure ⟨objs, h⟩

theorem fullGcThenEden_meets (h : Underway vm0 vm objs) (haddr : vm0.heap.old.limit < usizeWords) :
    Meets (allocLimits vm0 words) (Alloc.fullGcThenEden words tagged vm)
      (Answers (Made vm0 words tagged) fun vm' =>
        ∃ objs', Underway vm0 vm' objs' ∧ Collected vm0.heap vm.heap vm'.heap) := by
  unfold Alloc.fullGcThenEden
  refine (fullGc_meets h0 h).bind ?_
  rintro ⟨⟩ vm1 ⟨objs1, h1, hc⟩
  refine (allocEden_meets h1 haddr).imp ?_
  rintro (_ | a) vm' hr
  · exact hr ▸ ⟨objs1, h1, hc⟩
  · exact hr

/-- The two segments the cascade commits are what it is sure to find for a request. -/
theorem cascade_meets (h : Underway vm0 vm objs) (haddr : vm0.heap.old.limit < usizeWords) :
    Meets (allocLimits vm0 words) (Alloc.cascade words tagged vm)
      fun a vm' => Made vm0 words tagged a vm' := by
  unfold Alloc.cascade
  refine (allocEden_meets h haddr).attempt ?_
  rintro vm rfl
  refine (scavengeThenEden_meets h0 h haddr).attempt ?_
  rintro vm1 ⟨objs1, h1⟩
  refine (tryOldAlloc_meets h1).attempt ?_
  rintro vm1 ⟨rfl, hfull1⟩
  refine (growThenOldAlloc_meets oldGrowthSegment_pos h1 hfull1).attempt ?_
  rintro _ ⟨c1, hc1, hc1', rfl, -, hstep1⟩
  refine (fullGcThenEden_meets h0 (h1.commit hc1 hc1') haddr).attempt ?_
  rintro vm2 ⟨objs2, h2, hcol⟩
  refine (tryOldAlloc_meets h2).attempt ?_
  rintro vm2 ⟨rfl, hfull2⟩
  refine (growThenOldAlloc_meets oldGrowthSegment_pos h2 hfull2).attempt ?_
  rintro _ ⟨c2, -, -, rfl, hfull3, hstep2⟩
  refine .halt fun hwords n hn => ?_
  -- all of the reservation was committed, for two segments more would have done
  have hpacked := hcol.packed n hn
  have htop := hcol.old.1
  have hend : vm2.heap.old.committedEnd = c1 := hcol.old.2
  have htop1 := h1.heap.spaces.top_le .old
  have e1 : vm1.heap.top .old = vm1.heap.old.top := rfl
  have e2 : vm1.heap.cap .old = vm1.heap.old.committedEnd := rfl
  have e3 : (vm1.withUniverse (vm1.heap.commit c1)).heap.old.top = vm1.heap.old.top := rfl
  have hlimit1 : vm1.heap.old.limit = vm0.heap.old.limit := h1.old.2
  have hlimit2 : vm2.heap.old.limit = vm0.heap.old.limit := h2.old.2
  have hstart2 : vm2.heap.old.start = vm0.heap.old.start := h2.old.1
  have hle := h2.heap.spaces.reserved
  omega

end Attempts

end WinVm.Memory
