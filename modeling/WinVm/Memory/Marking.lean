import WinVm.Lib.Worklist
import WinVm.Memory.FullGc
import WinVm.Memory.Relocation

/-!
# The mark phase

Marking changes headers only, so every object keeps its shape while it goes on. The phase runs
a worklist over the object graph: a mark bit stands for "was pushed".

Results: `WfHeap.mark`, the phase ends and exactly the objects that can be reached from the
strong roots have their mark bit set.
-/

namespace WinVm.Memory

open WinVm.Lib

/-! ## Bodies -/

/-- The words of every object behind its mark are the same. -/
def SameBodies (objs : Objects) (mem0 mem : Mem) : Prop :=
  ∀ a, IsObject objs a → ∀ off, 1 ≤ off → off < sizeAt mem0 a → mem (a + off) = mem0 (a + off)

/-- An object stands for itself. -/
def Itself (objs : Objects) (a a' : Nat) : Prop := IsObject objs a ∧ a' = a

theorem Itself.refl {objs : Objects} {a : Nat} (h : IsObject objs a) : Itself objs a a := ⟨h, rfl⟩

theorem Itself.dom {objs : Objects} : ∀ a a' : Nat, Itself objs a a' → IsObject objs a :=
  fun _ _ h => h.1

namespace SameBodies

variable {objs : Objects} {mem0 mem : Mem} {a k : Nat}
variable (hwf : ∀ a, IsObject objs a → WfObject mem0 (IsObject objs) a)
variable (h : SameBodies objs mem0 mem)
include hwf h

theorem sim : Sim mem0 mem (Itself objs) := by
  rintro _ a ⟨ha, rfl⟩
  have hobj := hwf a ha
  refine ⟨fun off hoff => ?_, fun off h1 h2 _ => h a ha off h1 h2⟩
  obtain ⟨h1, h2⟩ := hobj.slot_bounds hoff
  rw [h a ha off h1 h2]
  rcases hobj.slots off hoff with hs | ⟨t, hw, ht⟩
  · exact .same (not_isMem_of_isSmi hs)
  · rw [hw]
    exact .oop (.refl ht)

theorem klassWord (ha : IsObject objs a) : mem (a + 1) = mem0 (a + 1) :=
  h a ha 1 (Nat.le_refl 1) (hwf a ha).two_le_sizeAt

theorem klassOop (ha : IsObject objs a) : klassOop mem (mem (a + 1)) = some (klassAt mem0 a) := by
  rw [(h.sim hwf).klassOop hwf Itself.dom (.refl ha)]
  unfold klassAt
  rw [h.klassWord hwf ha]

theorem instanceSizeWords (ha : IsObject objs a) :
    instanceSizeWords mem a = some (sizeAt mem0 a) := by
  unfold Memory.instanceSizeWords
  rw [h.klassOop hwf ha]
  exact (h.sim hwf).sizeWordsForKlass hwf Itself.dom (.refl ha) (.refl (hwf a ha).klassObj)

/-- The words that give an object its shape. -/
theorem shape (ha : IsObject objs a) {f : Format} (hf : formatAt mem0 (klassAt mem0 a) = some f) :
    nonIndexableSize mem (klassAt mem0 a) = some (nisAt mem0 (klassAt mem0 a)) ∧
      formatAt mem (klassAt mem0 a) = some f ∧
      (f.hasSizeSlot = true →
        rawSizeSlot mem a (nisAt mem0 (klassAt mem0 a)) = some (lenAt mem0 a)) := by
  have hobj := hwf a ha
  have hsim := h.sim hwf
  have hk : Itself objs (klassAt mem0 a) (klassAt mem0 a) := .refl hobj.klassObj
  refine ⟨?_, (hsim.formatAt_eq hwf Itself.dom hk hobj.klass).1.trans hf, fun hs => ?_⟩
  · rw [(hsim.wfKlass hwf Itself.dom hk hobj.klass).nonIndexableSize,
      (hsim.nisAt_eq hwf Itself.dom hk hobj.klass).1]
  · have hlt := hobj.nisAt_lt_sizeAt hf hs
    have hge := hobj.klass.nis_ge
    unfold rawSizeSlot
    rw [h a ha _ (by omega) hlt, if_pos (hobj.lenSmi f hf hs)]
    rfl

end SameBodies

/-! ## The mark bits -/

/-- The memory with the mark bit set in these headers. -/
def markedMem (mem : Mem) (marked : List Nat) : Mem := fun x =>
  if x ∈ marked then Mark.withGcMark (mem x) 1 else mem x

namespace Mark

theorem gcMark_withGcMark {w n : Nat} (hn : n ≤ 1) : gcMark (withGcMark w n) = n := by
  unfold withGcMark gcMark
  omega

end Mark

variable {u : Universe} {objs : Objects} {marked : List Nat}

theorem WfHeap.sameBodies_of_headers (h : WfHeap u objs) {mem : Mem}
    (hmem : ∀ x, ¬ IsObject objs x → mem x = u.mem x) : SameBodies objs u.mem mem := by
  intro a ha off h1 h2
  exact hmem _ fun hb => h.header_ne ha hb h1 h2 rfl

theorem WfHeap.sameBodies_marked (h : WfHeap u objs) (hsub : ∀ a ∈ marked, IsObject objs a) :
    SameBodies objs u.mem (markedMem u.mem marked) :=
  h.sameBodies_of_headers fun _ hx => if_neg fun hm => hx (hsub _ hm)

theorem WfHeap.gcMark_marked (h : WfHeap u objs) {a : Nat} (ha : IsObject objs a) :
    Mark.gcMark (markedMem u.mem marked a) = if a ∈ marked then 1 else 0 := by
  unfold markedMem
  by_cases hm : a ∈ marked
  · rw [if_pos hm, if_pos hm, Mark.gcMark_withGcMark (Nat.le_refl 1)]
  · rw [if_neg hm, if_neg hm, (h.object a ha).notMarked]

/-! ## The phase is a worklist -/

/-- The object a word names, if it names one. -/
def targets (w : Nat) : List Nat := if IsMem w then [memAddr w] else []

/-- The objects the slots of an object name, in the order they are visited. -/
def successors (mem : Mem) (a : Nat) : List Nat :=
  (slotsAt mem a).flatMap fun off => targets (mem (a + off))

theorem mem_targets {isObj : Nat → Prop} {w t : Nat} (hw : WfWord isObj w) :
    t ∈ targets w ↔ w = oopAt t := by
  unfold targets
  rcases hw with hs | ⟨s, rfl, -⟩
  · rw [if_neg (not_isMem_of_isSmi hs)]
    refine ⟨fun h => absurd h List.not_mem_nil, ?_⟩
    rintro rfl
    exact absurd (isMem_oopAt t) (not_isMem_of_isSmi hs)
  · rw [if_pos (isMem_oopAt s), memAddr_oopAt, List.mem_singleton]
    exact ⟨fun h => h ▸ rfl, fun h => (oopAt_injective h).symm⟩

/-- The state of the mark phase, for the objects marked and stacked so far. -/
structure Marks (u : Universe) (objs : Objects) (w : Worklist Nat) (st : Marking) : Prop where
  mem : st.mem = markedMem u.mem w.marked
  stack : st.stack = w.stack
  words : st.markedWords = (w.marked.map (sizeAt u.mem)).sum
  marked : ∀ a ∈ w.marked, IsObject objs a
  stacked : ∀ a ∈ w.stack, IsObject objs a

namespace Marks

variable {w : Worklist Nat} {st : Marking}
variable (h0 : WfHeap u objs) (h : Marks u objs w st)
include h0 h

theorem sameBodies : SameBodies objs u.mem st.mem := by
  rw [h.mem]
  exact h0.sameBodies_marked h.marked

/-- Pushing a word marks the object it names. -/
theorem push {v : Nat} (hv : WfWord (IsObject objs) v) :
    ∃ st', st.push v = some st' ∧ Marks u objs (w.pushAll (targets v)) st' := by
  unfold Marking.push targets
  rcases hv with hs | ⟨t, rfl, ht⟩
  · rw [if_neg (not_isMem_of_isSmi hs), if_neg (not_isMem_of_isSmi hs)]
    exact ⟨st, rfl, h⟩
  · rw [if_pos (isMem_oopAt t), if_pos (isMem_oopAt t), memAddr_oopAt]
    change ∃ st', _ ∧ Marks u objs (w.push t) st'
    have hgc : Mark.gcMark (st.mem t) = if t ∈ w.marked then 1 else 0 := by
      rw [h.mem]
      exact h0.gcMark_marked ht
    unfold Worklist.push
    by_cases hm : t ∈ w.marked
    · rw [if_pos hm] at hgc ⊢
      dsimp only
      rw [hgc, if_neg (by decide)]
      exact ⟨st, rfl, h⟩
    · rw [if_neg hm] at hgc ⊢
      dsimp only
      rw [hgc, if_pos rfl]
      have hmem : (st.write t (Mark.withGcMark (st.mem t) 1)).mem =
          markedMem u.mem (t :: w.marked) := by
        change Function.update st.mem t (Mark.withGcMark (st.mem t) 1) = _
        rw [h.mem]
        funext x
        unfold markedMem
        by_cases hx : x = t
        · subst hx
          rw [Function.update_self, if_neg hm, if_pos List.mem_cons_self]
        · rw [Function.update_of_ne hx]
          simp only [List.mem_cons, hx, false_or]
      have hsub : ∀ a ∈ t :: w.marked, IsObject objs a := fun a ha =>
        (List.mem_cons.mp ha).elim (fun heq => heq ▸ ht) (h.marked a)
      have hsize := (h0.sameBodies_marked hsub).instanceSizeWords h0.object ht
      rw [hmem, hsize]
      refine ⟨_, rfl, rfl, ?_, ?_, hsub, ?_⟩
      · exact congrArg (t :: ·) h.stack
      · change st.markedWords + _ = _
        rw [h.words, List.map_cons, List.sum_cons, Nat.add_comm]
      · exact fun a ha => (List.mem_cons.mp ha).elim (fun heq => heq ▸ ht) (h.stacked a)

theorem pushAll {vs : List Nat} (hvs : ∀ v ∈ vs, WfWord (IsObject objs) v) :
    ∃ st', vs.foldlM Marking.push st = some st' ∧
      Marks u objs (w.pushAll (vs.flatMap targets)) st' := by
  induction vs generalizing w st with
  | nil => exact ⟨st, rfl, h⟩
  | cons v vs ih =>
    obtain ⟨st1, h1, hm1⟩ := h.push h0 (hvs v List.mem_cons_self)
    obtain ⟨st2, h2, hm2⟩ := ih hm1 fun v hv => hvs v (List.mem_cons_of_mem _ hv)
    refine ⟨st2, ?_, ?_⟩
    · rw [List.foldlM_cons, h1]
      exact h2
    · rw [List.flatMap_cons]
      unfold Worklist.pushAll at hm2 ⊢
      rw [List.foldl_append]
      exact hm2

/-- Visiting slots of an object pushes what they name and leaves them as they are. -/
theorem visitSlots {a : Nat} (ha : IsObject objs a) (offs : List Nat)
    (hsub : ∀ off ∈ offs, off ∈ slotsAt u.mem a) :
    ∃ st', Memory.visitSlots Marking.mem Marking.write Marking.visit st (offs.map (a + ·)) =
        some st' ∧
      Marks u objs (w.pushAll (offs.flatMap fun off => targets (u.mem (a + off)))) st' := by
  induction offs generalizing w st with
  | nil => exact ⟨st, rfl, h⟩
  | cons off offs ih =>
    have hobj := h0.object a ha
    obtain ⟨hlo, hhi⟩ := hobj.slot_bounds (hsub off List.mem_cons_self)
    have hword : st.mem (a + off) = u.mem (a + off) := h.sameBodies h0 a ha off hlo hhi
    obtain ⟨st1, h1, hm1⟩ := h.push h0 (hobj.slots off (hsub off List.mem_cons_self))
    have hsame : st1.write (a + off) (u.mem (a + off)) = st1 := by
      have hword1 : st1.mem (a + off) = u.mem (a + off) := hm1.sameBodies h0 a ha off hlo hhi
      unfold Marking.write
      rw [← hword1, Function.update_eq_self]
    obtain ⟨st2, h2, hm2⟩ := ih hm1 fun o ho => hsub o (List.mem_cons_of_mem _ ho)
    refine ⟨st2, ?_, ?_⟩
    · rw [List.map_cons, visitSlots_cons]
      unfold visitSlot Marking.visit
      rw [hword, h1]
      change Memory.visitSlots _ _ _ (st1.write (a + off) (u.mem (a + off))) _ = _
      rw [hsame]
      exact h2
    · rw [List.flatMap_cons]
      unfold Worklist.pushAll at hm2 ⊢
      rw [List.foldl_append]
      exact hm2

/-- A popped object is scanned: what its slots name is pushed, the klass first. -/
theorem scan {a : Nat} (ha : IsObject objs a) :
    ∃ st', st.scan a = some st' ∧ Marks u objs (w.pushAll (successors u.mem a)) st' := by
  have hobj := h0.object a ha
  obtain ⟨f, hf⟩ := hobj.klass.format
  have hslots : slotsAt u.mem a = 1 :: (f.namedOffsets (nisAt u.mem (klassAt u.mem a)) ++
      f.tailOffsets (nisAt u.mem (klassAt u.mem a)) (lenAt u.mem a)) := by
    unfold slotsAt
    rw [hf]
  have hk : st.mem (a + 1) = u.mem (a + 1) := (h.sameBodies h0).klassWord h0.object ha
  obtain ⟨st1, h1, hm1⟩ := h.push h0 (hobj.slots 1 hobj.one_mem_slotsAt)
  have hb1 := hm1.sameBodies h0
  have hkl1 := hb1.klassOop h0.object ha
  rw [hb1.klassWord h0.object ha] at hkl1
  obtain ⟨hnis1, hfmt1, -⟩ := hb1.shape h0.object ha hf
  obtain ⟨st2, h2, hm2⟩ := hm1.visitSlots h0 ha (f.namedOffsets _) fun off ho =>
    hslots ▸ List.mem_cons_of_mem _ (List.mem_append_left _ ho)
  obtain ⟨-, -, hlen2⟩ := (hm2.sameBodies h0).shape h0.object ha hf
  obtain ⟨st3, h3, hm3⟩ := hm2.visitSlots h0 ha (f.tailOffsets _ _) fun off ho =>
    hslots ▸ List.mem_cons_of_mem _ (List.mem_append_right _ ho)
  refine ⟨st3, ?_, ?_⟩
  · unfold Marking.scan
    simp only [hk, h1, hkl1, Option.bind_eq_bind, Option.bind_some]
    rw [forEachOopField_eq hnis1 hfmt1 h2 hlen2]
    exact h3
  · unfold successors
    rw [hslots, List.flatMap_cons, List.flatMap_append]
    unfold Worklist.pushAll at hm3 ⊢
    rw [List.foldl_append, List.foldl_append]
    exact hm3

/-- The loop follows the worklist. -/
theorem run {n : Nat} {w' : Worklist Nat} (hrun : w.run (successors u.mem) n = some w') :
    ∃ st', st.run n = some st' ∧ Marks u objs w' st' := by
  induction n generalizing w st with
  | zero => cases hrun
  | succ n ih =>
    unfold Worklist.run at hrun
    unfold Marking.run
    rw [h.stack]
    cases hw : w.stack with
    | nil =>
      rw [hw] at hrun
      cases hrun
      exact ⟨st, rfl, h⟩
    | cons a rest =>
      rw [hw] at hrun
      have hpop : Marks u objs { w with stack := rest } { st with stack := rest } :=
        ⟨h.mem, rfl, h.words, h.marked,
          fun b hb => h.stacked b (hw ▸ List.mem_cons_of_mem _ hb)⟩
      obtain ⟨st1, h1, hm1⟩ := hpop.scan h0 (h.stacked a (hw ▸ List.mem_cons_self))
      simp only [h1, Option.bind_eq_bind, Option.bind_some]
      exact ih hm1 hrun

end Marks

/-! ## What is marked -/

/-- The graph the mark phase walks: the key klasses of alive nmethods are no roots. -/
def Universe.strongGraph (u : Universe) : Rooted Nat where
  root t := oopAt t ∈ u.roots ++ u.strongCodeWords
  edge a t := ∃ off ∈ slotsAt u.mem a, u.mem (a + off) = oopAt t

theorem WfHeap.wfWord_strong (h : WfHeap u objs) {w : Nat}
    (hw : w ∈ u.roots ++ u.strongCodeWords) : WfWord (IsObject objs) w := by
  refine h.roots w ?_
  rcases List.mem_append.mp hw with hw | hw
  · exact List.mem_append_left _ hw
  · obtain ⟨r, hr, rfl⟩ := List.mem_map.mp hw
    exact List.mem_append_right _ (List.mem_map_of_mem (List.mem_filter.mp hr).1)

theorem WfHeap.isObject_of_strong (h : WfHeap u objs) {a : Nat}
    (ha : u.strongGraph.Reachable a) : IsObject objs a := by
  refine ha.closed (P := IsObject objs) (fun t ht => isObject_of_wfWord (h.wfWord_strong ht) rfl) ?_
  rintro b t hb ⟨off, hoff, hw⟩
  exact isObject_of_wfWord (h.wfWord_slot hb hoff) hw

/-- All objects, in some order. -/
def allObjects (objs : Objects) : List Nat :=
  objs .eden ++ objs .fromSpace ++ objs .toSpace ++ objs .old

theorem mem_allObjects {a : Nat} : a ∈ allObjects objs ↔ IsObject objs a := by
  unfold allObjects
  simp only [List.mem_append]
  constructor
  · rintro (((h | h) | h) | h) <;> exact ⟨_, h⟩
  · rintro ⟨r, h⟩
    cases r <;> simp only [h, true_or, or_true]

/-- There are no more objects than words they fill. -/
theorem WfHeap.allObjects_length (h : WfHeap u objs) : (allObjects objs).length ≤
    u.eden.used + u.fromSpace.used + (u.old.top - u.old.start) := by
  have hlen : ∀ r, (objs r).length ≤ u.top r - u.start r := by
    intro r
    have htiles := h.tiles r
    have hsum := htiles.sum_eq
    have hle : (objs r).length ≤ ((objs r).map (sizeAt u.mem)).sum := by
      rw [← List.length_map (f := sizeAt u.mem)]
      refine List.length_le_sum_of_one_le _ fun n hn => ?_
      obtain ⟨x, hx, rfl⟩ := List.mem_map.mp hn
      exact (htiles.bounds hx).2.1
    omega
  have he := hlen .eden
  have hf := hlen .fromSpace
  have ho := hlen .old
  unfold allObjects Space.used
  simp only [List.length_append, h.toEmpty, List.length_nil]
  change (objs .eden).length ≤ u.eden.top - u.eden.start at he
  change (objs .fromSpace).length ≤ u.fromSpace.top - u.fromSpace.start at hf
  change (objs .old).length ≤ u.old.top - u.old.start at ho
  omega

/-- The mark phase ends with the reachable objects marked, each counted once. -/
theorem WfHeap.mark (h : WfHeap u objs) : ∃ st marked, u.mark = some st ∧ marked.Nodup ∧
    (∀ a, a ∈ marked ↔ u.strongGraph.Reachable a) ∧ st.mem = markedMem u.mem marked ∧
    st.markedWords = (marked.map (sizeAt u.mem)).sum := by
  have hstart : Marks u objs .empty ⟨u.mem, [], 0⟩ := by
    refine ⟨?_, rfl, rfl, ?_, ?_⟩
    · funext x
      exact (if_neg List.not_mem_nil).symm
    · exact fun a ha => absurd ha List.not_mem_nil
    · exact fun a ha => absurd ha List.not_mem_nil
  obtain ⟨st1, hroots, hm1⟩ := hstart.pushAll h (fun v hv => h.wfWord_strong hv)
  have hsucc : ∀ a, IsObject objs a → ∀ b, b ∈ successors u.mem a ↔ u.strongGraph.edge a b := by
    intro a ha b
    unfold successors
    rw [List.mem_flatMap]
    constructor
    · rintro ⟨off, hoff, hb⟩
      exact ⟨off, hoff, (mem_targets (h.wfWord_slot ha hoff)).mp hb⟩
    · rintro ⟨off, hoff, hw⟩
      exact ⟨off, hoff, (mem_targets (h.wfWord_slot ha hoff)).mpr hw⟩
  have hroot : ∀ a, a ∈ (u.roots ++ u.strongCodeWords).flatMap targets ↔ u.strongGraph.root a := by
    intro a
    rw [List.mem_flatMap]
    constructor
    · rintro ⟨w, hw, ha⟩
      have heq := (mem_targets (h.wfWord_strong hw)).mp ha
      subst heq
      exact hw
    · intro ha
      exact ⟨_, ha, (mem_targets (h.wfWord_strong ha)).mpr rfl⟩
  have hlen := h.allObjects_length
  obtain ⟨w, hrun, hnodup, hmarked⟩ := Worklist.run_marks hroot
    (fun a ha => hsucc a (h.isObject_of_strong ha))
    (fun a ha => mem_allObjects.mpr (h.isObject_of_strong ha)) (Nat.lt_succ_of_le hlen)
  obtain ⟨st, hst, hm⟩ := hm1.run h hrun
  refine ⟨st, w.marked, ?_, hnodup, hmarked, hm.mem, hm.words⟩
  unfold Universe.mark
  simp only [hroots, Option.bind_eq_bind, Option.bind_some]
  exact hst

end WinVm.Memory
