import WinVm.Memory.FullGcGraph
import WinVm.Memory.ScavengeGraph

/-!
# Heaps several collections apart

One collection relocates the object graph; a full one also drops the pool words of nmethods that
it flushes. `Survives` is what a sequence of collections comes to: the code roots that are left
are some of those before, and what is reachable from them and from the roots was relocated.

Results: `Survives.refl`, `Survives.trans`; `scavenge_survives`, `fullGc_survives`.
-/

namespace WinVm.Memory

open WinVm.Lib

/-- What every collection keeps of a mark. -/
def Mark.KeepsHash (w w' : Nat) : Prop :=
  Mark.IsMark w' ∧ Mark.hash w' = Mark.hash w ∧ Mark.nearDeath w' = Mark.nearDeath w

/-- Some code roots are left, and the graph seen from them was relocated. -/
structure Survives (u : Universe) (kept : List CodeRoot) (u' : Universe) (image : Nat → Nat) :
    Prop where
  sublist : kept.Sublist u.codeRoots
  relocated : Relocated Mark.KeepsHash { u with codeRoots := kept } u' image

variable {u u' v v' : Universe} {objs : Objects} {kept : List CodeRoot} {image : Nat → Nat}
variable {keeps keeps' : Nat → Nat → Prop}

/-! ## Fewer roots -/

/-- What is reachable grows with the roots. -/
theorem graph_reachable_mono (hmem : v.mem = u.mem)
    (hroots : ∀ w ∈ v.roots ++ v.codeWords, w ∈ u.roots ++ u.codeWords) {a : Nat}
    (ha : v.graph.Reachable a) : u.graph.Reachable a := by
  refine ha.closed (P := u.graph.Reachable) (fun t ht => .root (hroots _ ht)) ?_
  rintro b t hb ⟨off, hoff, hw⟩
  rw [hmem] at hoff hw
  exact .edge hb ⟨off, hoff, hw⟩

/-- The heap with fewer roots and code roots. -/
theorem WfHeap.of_roots (h : WfHeap u objs) {rs : List Nat} {cs : List CodeRoot}
    (hroots : ∀ w ∈ rs ++ cs.map CodeRoot.word, WfWord (IsObject objs) w) :
    WfHeap { u with roots := rs, codeRoots := cs } objs := by
  refine ⟨h.spaces.of_eq rfl rfl rfl rfl, h.tiles, h.toEmpty, h.object, hroots, h.remembered,
    h.resolves.of_offsets rfl rfl rfl, h.noStall, h.gcEnabled⟩

theorem Relocated.restrict (h : Relocated keeps u u' image) (hwf : WfHeap v objs)
    (hmem : v.mem = u.mem) (hmem' : v'.mem = u'.mem)
    (hsub : ∀ w ∈ v.roots ++ v.codeWords, w ∈ u.roots ++ u.codeWords)
    (hroots : v'.roots = v.roots.map (imageWord image))
    (hcode : v'.codeRoots = v.codeRoots.map fun r => r.setWord (imageWord image r.word)) :
    Relocated keeps v v' image := by
  have hreach : ∀ a, v.graph.Reachable a → u.graph.Reachable a := fun a =>
    graph_reachable_mono hmem hsub
  refine .of_moved hwf hroots hcode (fun a ha => ?_) fun a b ha hb =>
    h.injective a b (hreach a ha) (hreach b hb)
  rw [hmem, hmem']
  exact h.moved a (hreach a ha)

/-! ## One collection after the other -/

theorem imageWord_comp (f g : Nat → Nat) (w : Nat) :
    imageWord g (imageWord f w) = imageWord (g ∘ f) w := by
  by_cases hw : IsMem w
  · have h1 : imageWord f w = oopAt (f (memAddr w)) := if_pos hw
    have h2 : imageWord (g ∘ f) w = oopAt (g (f (memAddr w))) := if_pos hw
    rw [h1, h2, imageWord_oopAt]
  · rw [imageWord_of_not_isMem hw, imageWord_of_not_isMem hw, imageWord_of_not_isMem hw]

theorem Moved.trans {mem mem1 mem2 : Mem} {f g : Nat → Nat} {a : Nat}
    (h : Moved Mark.KeepsHash mem mem1 f a) (h' : Moved Mark.KeepsHash mem1 mem2 g (f a)) :
    Moved Mark.KeepsHash mem mem2 (g ∘ f) a := by
  refine ⟨h'.size.trans h.size, h'.slots.trans h.slots, fun off hoff => ?_,
    fun off h1 h2 hoff => ?_, ?_⟩
  · change mem2 (g (f a) + off) = _
    rw [h'.fields off (by rw [h.slots]; exact hoff), h.fields off hoff, imageWord_comp]
  · change mem2 (g (f a) + off) = _
    rw [h'.raw off h1 (by rw [h.size]; exact h2) (by rw [h.slots]; exact hoff),
      h.raw off h1 h2 hoff]
  · obtain ⟨-, h1, h2⟩ := h.mark
    obtain ⟨h3, h4, h5⟩ := h'.mark
    exact ⟨h3, h4.trans h1, h5.trans h2⟩

theorem Moved.imp {mem mem' : Mem} {a : Nat} (h : Moved keeps mem mem' image a)
    (himp : ∀ w w', keeps w w' → keeps' w w') : Moved keeps' mem mem' image a :=
  ⟨h.size, h.slots, h.fields, h.raw, himp _ _ h.mark⟩

theorem Relocated.imp (h : Relocated keeps u u' image) (himp : ∀ w w', keeps w w' → keeps' w w') :
    Relocated keeps' u u' image :=
  ⟨h.roots, h.codeRoots, fun a ha => (h.moved a ha).imp himp, h.injective, h.reachable⟩

theorem Mark.keepsHash_of_sameIdentity {w w' : Nat} (h : Mark.SameIdentity w w') :
    Mark.KeepsHash w w' :=
  ⟨h.1, h.2.1, h.2.2.1⟩

theorem Mark.keepsHash_of_sameState {w w' : Nat} (h : Mark.SameState w w') :
    Mark.KeepsHash w w' :=
  ⟨h.1, h.2.1, h.2.2.2.1⟩

/-- Two collections, or more, of a heap that was well-formed. -/
theorem Survives.trans {u1 u2 : Universe} {kept1 kept2 : List CodeRoot} {f g : Nat → Nat}
    (hwf : WfHeap u objs) (h : Survives u kept1 u1 f) (h' : Survives u1 kept2 u2 g) :
    ∃ kept, kept.Sublist kept1 ∧ Survives u kept u2 (g ∘ f) := by
  have hcode1 : u1.codeRoots = kept1.map fun r => r.setWord (imageWord f r.word) :=
    h.relocated.codeRoots
  have hroots1 : u1.roots = u.roots.map (imageWord f) := h.relocated.roots
  obtain ⟨kept, hsub, hkept2⟩ := List.sublist_map_iff.mp (hcode1 ▸ h'.sublist)
  have hword : ∀ w ∈ u.roots ++ kept.map CodeRoot.word, w ∈ u.roots ++ kept1.map CodeRoot.word := by
    intro w hw
    rcases List.mem_append.mp hw with hw | hw
    · exact List.mem_append_left _ hw
    · exact List.mem_append_right _ ((hsub.map _).subset hw)
  have hwf' : WfHeap { u with codeRoots := kept } objs := by
    refine hwf.of_roots fun w hw => ?_
    rcases List.mem_append.mp hw with hw | hw
    · exact hwf.roots w (List.mem_append_left _ hw)
    · exact hwf.roots w (List.mem_append_right _ (((hsub.trans h.sublist).map _).subset hw))
  -- the first collection, as far as the code roots go that the second one leaves
  have first : Relocated Mark.KeepsHash { u with codeRoots := kept }
      { u1 with codeRoots := kept2 } f :=
    h.relocated.restrict hwf' rfl rfl hword hroots1 hkept2
  refine ⟨kept, hsub, hsub.trans h.sublist, .of_moved hwf' ?_ ?_ (fun a ha => ?_) ?_⟩
  · rw [h'.relocated.roots, hroots1, List.map_map]
    exact List.map_congr_left fun w _ => imageWord_comp f g w
  · rw [h'.relocated.codeRoots]
    change kept2.map _ = _
    rw [hkept2, List.map_map]
    refine List.map_congr_left fun r _ => ?_
    change (r.setWord (imageWord f r.word)).setWord (imageWord g (imageWord f r.word)) = _
    rw [imageWord_comp]
    rfl
  · exact (first.moved a ha).trans
      (h'.relocated.moved (f a) ((first.reachable (f a)).mpr ⟨a, ha, rfl⟩))
  · intro a b ha hb heq
    exact first.injective a b ha hb (h'.relocated.injective _ _
      ((first.reachable _).mpr ⟨a, ha, rfl⟩) ((first.reachable _).mpr ⟨b, hb, rfl⟩) heq)

/-! ## The same objects in another state -/

/-- The words of the objects are the same, their marks included. -/
def SameWords (objs : Objects) (mem mem' : Mem) : Prop :=
  ∀ a, IsObject objs a → ∀ o, o < sizeAt mem a → mem' (a + o) = mem (a + o)

theorem imageWord_id {w : Nat} (h : WfWord (IsObject objs) w) : imageWord id w = w := by
  rcases h with hs | ⟨t, rfl, -⟩
  · exact imageWord_of_not_isMem (not_isMem_of_isSmi hs)
  · exact imageWord_oopAt t

namespace WfHeap

variable (h : WfHeap u objs) {mem' : Mem} (hmem : SameWords objs u.mem mem')
include h hmem

theorem sim_sameWords : Sim u.mem mem' fun a c => IsObject objs a ∧ c = a := by
  rintro a c ⟨ha, rfl⟩
  refine ⟨fun off hoff => ?_, fun off _ hoff _ => hmem _ ha off hoff⟩
  rw [hmem _ ha off ((h.object _ ha).slot_bounds hoff).2]
  rcases (h.object _ ha).slots off hoff with hs | ⟨t, hw, ht⟩
  · exact .same (not_isMem_of_isSmi hs)
  · rw [hw]
    exact .oop ⟨ht, rfl⟩

theorem shape_sameWords {a : Nat} (ha : IsObject objs a) :
    sizeAt mem' a = sizeAt u.mem a ∧ slotsAt mem' a = slotsAt u.mem a :=
  (h.sim_sameWords hmem).shape h.object (fun _ _ hc => hc.1) ⟨ha, rfl⟩

theorem wfObject_sameWords {isObj' : Nat → Prop} (hsub : ∀ b, IsObject objs b → isObj' b) {a : Nat}
    (ha : IsObject objs a) : WfObject mem' isObj' a := by
  have hmark := hmem a ha 0 (Nat.lt_of_lt_of_le (by decide) (h.object a ha).two_le_sizeAt)
  rw [Nat.add_zero] at hmark
  refine (h.sim_sameWords hmem).wfObject h.object (fun _ _ hc => hc.1) ⟨ha, rfl⟩
    (fun b b' hb => hb.2 ▸ hsub b hb.1) ?_ ?_
  · rw [hmark]
    exact (h.object a ha).mark
  · rw [hmark]
    exact (h.object a ha).notMarked

theorem moved_sameWords {a : Nat} (ha : IsObject objs a) :
    Moved Mark.KeepsHash u.mem mem' id a := by
  obtain ⟨hsize, hslots⟩ := h.shape_sameWords hmem ha
  have hobj := h.object a ha
  refine ⟨hsize, hslots, fun off hoff => ?_, fun off _ hoff _ => hmem a ha off hoff, ?_⟩
  · rw [imageWord_id (hobj.slots off hoff)]
    exact hmem a ha off (hobj.slot_bounds hoff).2
  · have hmark := hmem a ha 0 (Nat.lt_of_lt_of_le (by decide) hobj.two_le_sizeAt)
    rw [Nat.add_zero] at hmark
    change Mark.KeepsHash (u.mem a) (mem' a)
    rw [hmark]
    exact ⟨hobj.mark, rfl, rfl⟩

end WfHeap

/-- Nothing moved and nothing reachable changed. -/
theorem WfHeap.survives (h : WfHeap u objs) (hmem : SameWords objs u.mem u'.mem)
    (hroots : u'.roots = u.roots) (hcode : u'.codeRoots = u.codeRoots) :
    Survives u u.codeRoots u' id := by
  refine ⟨List.Sublist.refl _, .of_moved h ?_ ?_ ?_ fun _ _ _ _ heq => heq⟩
  · rw [hroots]
    have hid : ∀ w ∈ u.roots, imageWord id w = w := fun w hw =>
      imageWord_id (h.roots w (List.mem_append_left _ hw))
    rw [List.map_congr_left hid, List.map_id']
  · rw [hcode]
    have hid : ∀ r ∈ u.codeRoots, r.setWord (imageWord id r.word) = r := by
      intro r hr
      rw [imageWord_id (h.roots r.word (List.mem_append_right _ (List.mem_map_of_mem hr)))]
      rfl
    change u.codeRoots = u.codeRoots.map _
    rw [List.map_congr_left hid, List.map_id']
  · exact fun a ha => h.moved_sameWords hmem (h.isObject_of_reachable ha)

/-! ## What the collectors do -/

theorem scavenge_survives {report : Universe.ScavengeReport} (h : WfHeap u objs)
    (hrun : u.scavenge = some (.ok (u', report))) :
    ∃ image objs', WfHeap u' objs' ∧ Survives u u.codeRoots u' image := by
  obtain ⟨image, objs', hwf, hmove, -⟩ := scavenge_preserves_graph h hrun
  exact ⟨image, objs', hwf, List.Sublist.refl _, hmove.imp fun _ _ => Mark.keepsHash_of_sameIdentity⟩

theorem fullGc_survives {report : Universe.FullGcReport} (h : WfHeap u objs)
    (hrun : u.fullGc = some (u', report)) :
    ∃ kept image objs', WfHeap u' objs' ∧ Survives u kept u' image := by
  obtain ⟨v, report', kept, image, objs', hrun', hwf, hkept, hmove, -⟩ :=
    fullGc_relocates h fun a ha => fullGc_small h hrun ha
  rw [hrun] at hrun'
  cases hrun'
  exact ⟨kept, image, objs', hwf, hkept.1, hmove.imp fun _ _ => Mark.keepsHash_of_sameState⟩

/-- What a scavenge does to the spaces. -/
theorem scavenge_bounds {report : Universe.ScavengeReport} (h : WfHeap u objs)
    (hrun : u.scavenge = some (.ok (u', report))) :
    u'.eden = u.eden.reset ∧ u'.old = { u.old with top := u'.old.top } ∧
      report.promotedBytes = u'.old.top - u.old.top ∧
      u'.promotionGuaranteeMet = u.promotionGuaranteeMet := by
  obtain ⟨out, hcall, -, hout⟩ := scavenge_spec h
  obtain ⟨u1, p, hfin, hu'⟩ := hout u' report (Option.some.inj (hcall.symm.trans hrun))
  have hinv := hfin.inv
  have h1 : u1.eden = u.eden := hinv.eden
  have h2 : u1.old.start = u.old.start := hinv.oldStart
  have h3 : u1.old.limit = u.old.limit := hinv.oldLimit
  have h4 : u1.old.committedEnd = u.old.committedEnd := hinv.oldCommitted
  have h5 : u1.promotionGuaranteeMet = u.promotionGuaranteeMet := hinv.flags.2
  cases hu'
  refine ⟨?_, ?_, rfl, h5⟩
  · change u1.eden.reset = u.eden.reset
    rw [h1]
  · change u1.old = ⟨u.old.start, u.old.limit, u.old.committedEnd, u1.old.top⟩
    rw [← h2, ← h3, ← h4]

/-- What a full collection does to them. -/
theorem fullGc_bounds {report : Universe.FullGcReport} (h : WfHeap u objs)
    (hrun : u.fullGc = some (u', report)) :
    u'.eden = { u.eden with top := u'.eden.top } ∧ u'.eden.top ≤ u.eden.top ∧
      u'.fromSpace.used ≤ u.fromSpace.used ∧ u'.old = { u.old with top := u'.old.top } ∧
      u'.old.top ≤ u.old.top ∧ u'.promotionGuaranteeMet = u.promotionGuaranteeMet := by
  obtain ⟨v, report', marked, kept, image, hrun', -, -, -, -, hc, -⟩ :=
    fullGc_spec h fun a ha => fullGc_small h hrun ha
  rw [hrun] at hrun'
  cases hrun'
  have hle : ∀ r, newTopOf u objs marked r ≤ u.top r := fun r => h.live_sum_le r
  have he := hle .eden
  have hf := hle .fromSpace
  have ho := hle .old
  refine ⟨?_, ?_, ?_, ?_, ?_, hc.promotionGuaranteeMet⟩
  · rw [hc.eden]
  · rw [hc.eden]
    exact he
  · rw [hc.fromSpace]
    exact Nat.sub_le_sub_right hf _
  · rw [hc.old]
  · rw [hc.old]
    exact ho

/-! ## What is live -/

/-- So many words belong to objects that a full collection would keep. -/
def Universe.LiveWords (u : Universe) (n : Nat) : Prop :=
  ∃ l : List Nat, l.Nodup ∧ (∀ a, a ∈ l ↔ u.strongGraph.Reachable a) ∧
    n = (l.map (sizeAt u.mem)).sum

/-- After a full collection the spaces hold what was live, and nothing else. -/
theorem fullGc_liveWords {report : Universe.FullGcReport} (h : WfHeap u objs)
    (hrun : u.fullGc = some (u', report)) : u.LiveWords report.markedWords ∧
      report.markedWords = u'.eden.used + u'.fromSpace.used + (u'.old.top - u'.old.start) := by
  obtain ⟨v, report', marked, kept, image, hrun', hnodup, hmarked, -, -, hc, hwords⟩ :=
    fullGc_spec h fun a ha => fullGc_small h hrun ha
  rw [hrun] at hrun'
  cases hrun'
  exact ⟨⟨marked, hnodup, hmarked, hwords⟩,
    hwords.trans (hc.sum_marked h hnodup (h.sub_of_marked hmarked))⟩

/-- The code roots that are no key klasses. -/
def strongRoots (rs : List CodeRoot) : List CodeRoot :=
  rs.filter fun r => r.weakKeyOf.isNone

/-- What is strongly reachable afterwards was so before. -/
theorem Survives.strong_reachable (h : Survives u kept u' image) (hwf : WfHeap u objs) {b : Nat}
    (hb : u'.strongGraph.Reachable b) :
    ∃ a, u.strongGraph.Reachable a ∧ image a = b ∧ sizeAt u'.mem b = sizeAt u.mem a := by
  have hsub : ∀ w ∈ u.roots ++ (strongRoots kept).map CodeRoot.word,
      w ∈ u.roots ++ kept.map CodeRoot.word := by
    intro w hw
    rcases List.mem_append.mp hw with hw | hw
    · exact List.mem_append_left _ hw
    · exact List.mem_append_right _ ((List.filter_sublist.map _).subset hw)
  have hwf' : WfHeap { u with codeRoots := strongRoots kept } objs := by
    refine hwf.of_roots fun w hw => ?_
    rcases List.mem_append.mp (hsub w hw) with hw | hw
    · exact hwf.roots w (List.mem_append_left _ hw)
    · exact hwf.roots w (List.mem_append_right _ ((h.sublist.map _).subset hw))
  have hmove : Relocated Mark.KeepsHash { u with codeRoots := strongRoots kept }
      { u' with codeRoots := strongRoots u'.codeRoots } image := by
    refine h.relocated.restrict hwf' rfl rfl hsub h.relocated.roots ?_
    change strongRoots u'.codeRoots = _
    rw [h.relocated.codeRoots]
    exact List.filter_map
  obtain ⟨a, ha, rfl⟩ := (hmove.reachable b).mp hb
  refine ⟨a, ?_, rfl, (hmove.moved a ha).size⟩
  refine @graph_reachable_mono { u with codeRoots := strongRoots u.codeRoots }
    { u with codeRoots := strongRoots kept } rfl ?_ _ ha
  intro w hw
  rcases List.mem_append.mp hw with hw | hw
  · exact List.mem_append_left _ hw
  · exact List.mem_append_right _ (((h.sublist.filter _).map _).subset hw)

/-- Collections do not make anything live. -/
theorem Survives.liveWords_le (h : Survives u kept u' image) (hwf : WfHeap u objs) {n n' : Nat}
    (hn : u.LiveWords n) (hn' : u'.LiveWords n') : n' ≤ n := by
  obtain ⟨l, -, hl, rfl⟩ := hn
  obtain ⟨l', hnodup, hl', rfl⟩ := hn'
  choose! source hsource using fun b (hb : b ∈ l') => h.strong_reachable hwf ((hl' b).mp hb)
  have hsizes : (l'.map (sizeAt u'.mem)).sum = ((l'.map source).map (sizeAt u.mem)).sum := by
    rw [List.map_map]
    exact congrArg List.sum (List.map_congr_left fun b hb => (hsource b hb).2.2)
  rw [hsizes]
  refine sum_le_of_nodup_subset _ (hnodup.map_on ?_) ?_
  · intro b hb c hc heq
    rw [← (hsource b hb).2.1, heq, (hsource c hc).2.1]
  · intro a ha
    obtain ⟨b, hb, rfl⟩ := List.mem_map.mp ha
    exact (hl _).mpr (hsource b hb).1

end WinVm.Memory
