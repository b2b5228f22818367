import WinVm.Memory.Mutator

/-!
# Whole allocations

`alloc_words` with the collections of the stress modes, and the allocators of `alloc.rs` that
give the object its shape. An allocation relocates what is reachable and puts one more object
on top of eden or old gen; where that is old gen, the object's cards are dirty.

Results: `allocWords_meets`, `allocSized_meets`, `allocWords_allocated`.
-/

namespace WinVm.Memory

open WinVm.Lib

/-! ## The collections of the stress modes -/

section Stress

variable {vm0 vm : VmState} {objs0 objs : Objects} {words : Nat} (h0 : WfHeap vm0.heap objs0)
include h0

theorem stressScavenge_meets (h : Underway vm0 vm objs) :
    Meets (allocLimits vm0 words) (Alloc.stressScavenge vm)
      fun _ vm' => ∃ objs', Underway vm0 vm' objs' := by
  unfold Alloc.stressScavenge
  refine .get_bind ?_
  split
  · refine (ensurePromotionGuarantee_meets h0 h).bind ?_
    rintro ⟨⟩ vm1 ⟨objs1, h1, safe⟩
    exact scavenge_meets h0 h1 safe
  · exact .pure ⟨objs, h⟩

theorem stressFullGc_meets (h : Underway vm0 vm objs) :
    Meets (allocLimits vm0 words) (Alloc.stressFullGc vm)
      fun _ vm' => ∃ objs', Underway vm0 vm' objs' := by
  have counted : ∀ n, Underway vm0 { vm with fullStressAllocCount := n } objs := fun n =>
    h.of_same h.heap ⟨rfl, rfl, rfl⟩ rfl ⟨rfl, rfl⟩ ⟨rfl, rfl, rfl⟩
  unfold Alloc.stressFullGc
  refine .get_bind ?_
  dsimp only [id]
  cases vm.gcStressFullPeriod with
  | none => exact .pure ⟨objs, h⟩
  | some period =>
    dsimp only
    split
    · split
      · refine .modify_bind ((fullGc_meets h0 (counted 0)).imp ?_)
        rintro ⟨⟩ vm1 ⟨objs1, h1, -⟩
        exact ⟨objs1, h1⟩
      · exact .modify ⟨objs, counted _⟩
    · exact .pure ⟨objs, h⟩

end Stress

/-! ## `alloc_words` -/

section

variable {vm vm' : VmState} {objs : Objects} {klass words a : Nat} {tagged : Bool}

theorem WfHeap.pushHandle (h : WfHeap vm.heap objs) (word : WfWord (IsObject objs) klass) :
    WfHeap (vm.pushHandle klass).heap objs := by
  show WfHeap { vm.heap with
    roots := (vm.pushHandle klass).heap.roots
    codeRoots := vm.heap.codeRoots } objs
  refine h.of_roots fun w mem => ?_
  rcases List.mem_append.mp mem with root | code
  · rcases List.mem_append.mp root with before | rest
    · exact h.roots w (List.mem_append_left _ (List.mem_of_mem_take before))
    · rcases List.mem_cons.mp rest with rfl | after
      · exact word
      · exact h.roots w (List.mem_append_left _ (List.mem_of_mem_drop after))
  · exact h.roots w (List.mem_append_right _ code)

/-- The allocation has come to its end: the collections are over, and the object is on top. -/
def Ended (vm : VmState) (klass words : Nat) (tagged : Bool) (a : Nat) (vm' : VmState) : Prop :=
  ∃ vm1 objs1 r v, Underway (vm.pushHandle klass) vm1 objs1 ∧
    Fresh vm1.heap v r a words vm1.handle tagged ∧ vm' = (vm1.withUniverse v).popHandle

theorem allocWords_meets (h : WfHeap vm.heap objs) (word : WfWord (IsObject objs) klass)
    (addresses : vm.heap.old.limit < usizeWords) :
    Meets (allocLimits (vm.pushHandle klass) words) (Alloc.allocWords words klass tagged vm)
      (Ended vm klass words tagged) := by
  have h0 := h.pushHandle word
  unfold Alloc.allocWords
  split
  · -- more words than there are addresses
    refine .wrong (Or.inl fun n _ => ?_)
    have limit : (vm.pushHandle klass).heap.old.limit = vm.heap.old.limit := rfl
    omega
  · refine .modify_bind ((stressScavenge_meets h0 (.refl h0)).bind ?_)
    rintro ⟨⟩ vm1 ⟨objs1, h1⟩
    refine (stressFullGc_meets h0 h1).bind ?_
    rintro ⟨⟩ vm2 ⟨objs2, h2⟩
    refine (cascade_meets h0 h2 addresses).bind ?_
    rintro a vm3 ⟨vm4, objs4, r, h4, fresh, same⟩
    exact .modify_bind (.pure ⟨vm4, objs4, r, vm3.heap, h4, fresh, by rw [same]; rfl⟩)

end

/-! ## The shape of the object -/

section Shape

variable {u u' : Universe} {objs : Objects} {mem : Mem} {isObj : Nat → Prop} {a k len : Nat} {f : Format}

/-- The words that make an object of a class. -/
structure Shaped (mem : Mem) (isObj : Nat → Prop) (a k : Nat) (f : Format) (len : Nat) : Prop where
  mark : Mark.IsMark (mem a) ∧ Mark.gcMark (mem a) = 0
  klassWord : mem (a + 1) = oopAt k
  klassObj : isObj k
  klass : WfKlass mem k
  format : formatAt mem k = some f
  size : f.hasSizeSlot = true → mem (a + nisAt mem k) = smi len
  body : ∀ off ∈ f.namedOffsets (nisAt mem k) ++ f.tailOffsets (nisAt mem k) len,
    WfWord isObj (mem (a + off))

theorem smiValue_smi (n : Nat) : smiValue (smi n) = n := by
  unfold smiValue smi
  omega

theorem isSmi_smi (n : Nat) : IsSmi (smi n) := by
  unfold smi IsSmi
  omega

namespace Shaped

variable (h : Shaped mem isObj a k f len)
include h

theorem klassAt_eq : klassAt mem a = k := by
  unfold klassAt
  rw [h.klassWord, memAddr_oopAt]

theorem lenAt_eq (sized : f.hasSizeSlot = true) : lenAt mem a = len := by
  unfold lenAt
  rw [h.klassAt_eq, h.size sized, smiValue_smi]

theorem sizeAt_eq : sizeAt mem a = f.sizeWords (nisAt mem k) len := by
  unfold sizeAt
  rw [h.klassAt_eq, h.format]
  exact Format.sizeWords_congr h.lenAt_eq

theorem slotsAt_eq : slotsAt mem a =
    1 :: (f.namedOffsets (nisAt mem k) ++ f.tailOffsets (nisAt mem k) len) := by
  unfold slotsAt
  rw [h.klassAt_eq, h.format]
  dsimp only
  rw [Format.tailOffsets_congr h.lenAt_eq]

theorem wfObject : WfObject mem isObj a := by
  refine ⟨h.mark.1, h.mark.2, ?_, ?_, ?_, fun g hg sized => ?_, fun off mem_off => ?_⟩
  · rw [h.klassAt_eq]
    exact h.klassWord
  · rw [h.klassAt_eq]
    exact h.klassObj
  · rw [h.klassAt_eq]
    exact h.klass
  · rw [h.klassAt_eq] at hg ⊢
    obtain rfl := Option.some.inj (h.format.symm.trans hg)
    rw [h.size sized]
    exact isSmi_smi len
  · rw [h.slotsAt_eq] at mem_off
    rcases List.mem_cons.mp mem_off with rfl | body
    · rw [h.klassWord]
      exact Or.inr ⟨k, rfl, h.klassObj⟩
    · exact h.body off body

end Shaped

end Shape

/-! ## What a collection leaves of a class -/

section Relocation

variable {u u' : Universe} {objs : Objects} {kept : List CodeRoot} {image : Nat → Nat} {k : Nat}

/-- The reachable objects and their images. -/
theorem Relocated.sim {keeps : Nat → Nat → Prop} (h : Relocated keeps u u' image) (wf : WfHeap u objs) :
    Sim u.mem u'.mem fun a c => u.graph.Reachable a ∧ c = image a := by
  rintro a c ⟨reach, rfl⟩
  have moved := h.moved a reach
  refine ⟨fun off slot => ?_, fun off h1 h2 raw => moved.raw off h1 h2 raw⟩
  rw [moved.fields off slot]
  rcases wf.wfWord_slot (wf.isObject_of_reachable reach) slot with isSmi | ⟨t, word, -⟩
  · rw [imageWord_of_not_isMem (not_isMem_of_isSmi isSmi)]
    exact .same (not_isMem_of_isSmi isSmi)
  · rw [word, imageWord_oopAt]
    exact .oop ⟨.edge reach ⟨off, slot, word⟩, rfl⟩

/-- A class among the roots stays a class, with the same format and instance size. -/
theorem Survives.klass (h : Survives u kept u' image) (wf : WfHeap u objs) (root : oopAt k ∈ u.roots)
    (klass : WfKlass u.mem k) : WfKlass u'.mem (image k) ∧
      formatAt u'.mem (image k) = formatAt u.mem k ∧ nisAt u'.mem (image k) = nisAt u.mem k := by
  have wf' : WfHeap { u with codeRoots := kept } objs := by
    refine wf.of_roots fun w mem => ?_
    rcases List.mem_append.mp mem with root | code
    · exact wf.roots w (List.mem_append_left _ root)
    · exact wf.roots w (List.mem_append_right _ ((h.sublist.map _).subset code))
  have reach : ({ u with codeRoots := kept } : Universe).graph.Reachable k :=
    .root (List.mem_append_left _ root)
  have sim := h.relocated.sim wf'
  have dom : ∀ a c, ({ u with codeRoots := kept } : Universe).graph.Reachable a ∧ c = image a →
      IsObject objs a := fun a c pair => wf'.isObject_of_reachable pair.1
  exact ⟨sim.wfKlass wf'.object dom ⟨reach, rfl⟩ klass, (sim.formatAt_eq wf'.object dom ⟨reach, rfl⟩ klass).1,
    (sim.nisAt_eq wf'.object dom ⟨reach, rfl⟩ klass).1⟩

end Relocation

/-! ## The allocators -/

section Allocators

variable {vm vm' : VmState} {objs : Objects} {k words a len : Nat} {tagged : Bool} {f : Format}

/-- A class with its format and instance size. -/
structure KlassOf (mem : Mem) (k : Nat) (f : Format) (nis : Nat) : Prop where
  klass : WfKlass mem k
  format : formatAt mem k = some f
  nis : nisAt mem k = nis

/-- What an allocation does: what is reachable is relocated, classes among the roots stay as they
are, and there is one more object, young or on dirty cards, with nothing in it yet. -/
structure Allocated (vm : VmState) (k : Nat) (f : Format) (len : Nat) (tagged : Bool) (a : Nat)
    (vm' : VmState) (objs' : Objects) (image : Nat → Nat) : Prop where
  heap : WfHeap vm'.heap objs'
  object : IsObject objs' a
  klassAt : klassAt vm'.heap.mem a = image k
  lenAt : f.hasSizeSlot = true → lenAt vm'.heap.mem a = len
  body : ∀ off, 2 ≤ off → off < sizeAt vm'.heap.mem a →
    (f.hasSizeSlot = true → off ≠ nisAt vm'.heap.mem (image k)) →
    vm'.heap.mem (a + off) = if tagged then vm'.heap.nilObj else 0
  survives : ∃ kept, Survives vm.heap kept vm'.heap image ∧
    ∀ b, ({ vm.heap with codeRoots := kept } : Universe).graph.Reachable b → image b ≠ a
  handleEnd : vm'.handleEnd = vm.handleEnd
  old : vm'.heap.old.start = vm.heap.old.start ∧ vm'.heap.old.limit = vm.heap.old.limit
  klasses : ∀ c f nis, oopAt c ∈ oopAt k :: vm.heap.roots → KlassOf vm.heap.mem c f nis →
    KlassOf vm'.heap.mem (image c) f nis
  recorded : vm'.heap.old.start ≤ a →
    ∀ off < sizeAt vm'.heap.mem a, vm'.heap.dirty (vm'.heap.cardIndex (a + off)) = true

theorem Allocated.roots {vm' : VmState} {objs' : Objects} {image : Nat → Nat}
    (h : Allocated vm k f len tagged a vm' objs' image) :
    vm'.heap.roots = vm.heap.roots.map (imageWord image) := by
  obtain ⟨kept, survives, -⟩ := h.survives
  exact survives.relocated.roots

/-- A state between allocations is one again. -/
theorem Allocated.wfVm {vm' : VmState} {objs' : Objects} {image : Nat → Nat} (wf : WfVm vm objs)
    (h : Allocated vm k f len tagged a vm' objs' image) : WfVm vm' objs' := by
  refine ⟨h.heap, ?_, ?_⟩
  · rw [h.handleEnd, h.roots, List.length_map]
    exact wf.handles
  · rw [h.old.2]
    exact wf.addresses

/-- The memory with the size slot, of the formats that have one. -/
def withSize (mem : Mem) (f : Format) (a nis len : Nat) : Mem :=
  if f.hasSizeSlot then Function.update mem (a + nis) (smi len) else mem

theorem roots_pushHandle (inside : vm.handleEnd ≤ vm.heap.roots.length) (klass : Nat) :
    (vm.pushHandle klass).heap.roots[vm.handleEnd]? = some klass ∧
      (vm.pushHandle klass).heap.roots.eraseIdx vm.handleEnd = vm.heap.roots := by
  have length : (vm.heap.roots.take vm.handleEnd).length = vm.handleEnd := by
    rw [List.length_take, Nat.min_eq_left inside]
  constructor
  · show (vm.heap.roots.take vm.handleEnd ++ klass :: vm.heap.roots.drop vm.handleEnd)[vm.handleEnd]? = _
    rw [List.getElem?_append_right length.le, length, Nat.sub_self]
    rfl
  · show (vm.heap.roots.take vm.handleEnd ++ klass :: vm.heap.roots.drop vm.handleEnd).eraseIdx
      vm.handleEnd = _
    rw [List.eraseIdx_append_of_length_le length.le, length, Nat.sub_self]
    exact List.take_append_drop _ _

section Fresh

variable {u u' : Universe} {r : Region} {nis : Nat} (h : WfHeap u objs)
variable (fresh : Fresh u u' r a words (oopAt k) tagged) (klass : KlassOf u.mem k f nis)
variable (size : words = f.sizeWords nis len)
include klass size

theorem KlassOf.words_ge : 2 ≤ words ∧ (f.hasSizeSlot = true → nis < words) := by
  have ge := klass.klass.nis_ge
  rw [klass.nis] at ge
  rw [size]
  exact ⟨ge.trans (f.nis_le_sizeWords _ _), fun sized => Format.nis_lt_sizeWords sized _ _⟩

theorem withSize_outside {mem : Mem} {x : Nat} (outside : ¬ (a ≤ x ∧ x < a + words)) :
    withSize mem f a nis len x = mem x := by
  unfold withSize
  split
  · rename_i sized
    have := (klass.words_ge size).2 sized
    exact Function.update_of_ne (by omega) _ _
  · rfl

omit klass size in
theorem withSize_of_ne {mem : Mem} {off : Nat} (ne : f.hasSizeSlot = true → off ≠ nis) :
    withSize mem f a nis len (a + off) = mem (a + off) := by
  unfold withSize
  split
  · rename_i sized
    have := ne sized
    exact Function.update_of_ne (by omega) _ _
  · rfl

include h fresh

theorem Fresh.sameWords_withSize : SameWords objs u.mem (withSize u'.mem f a nis len) :=
  fresh.sameWords h (fun _ outside => withSize_outside klass size outside) (klass.words_ge size).1

/-- What the classes are after an allocation. -/
theorem Fresh.klassOf {c nis' : Nat} {g : Format} (object : IsObject objs c)
    (other : KlassOf u.mem c g nis') : KlassOf (withSize u'.mem f a nis len) c g nis' := by
  have sim := h.sim_sameWords (fresh.sameWords_withSize h klass size)
  have dom : ∀ b d, IsObject objs b ∧ d = b → IsObject objs b := fun _ _ pair => pair.1
  exact ⟨sim.wfKlass h.object dom ⟨object, rfl⟩ other.klass,
    (sim.formatAt_eq h.object dom ⟨object, rfl⟩ other.klass).1.trans other.format,
    (sim.nisAt_eq h.object dom ⟨object, rfl⟩ other.klass).1.trans other.nis⟩

theorem Fresh.shaped (object : IsObject objs k) :
    Shaped (withSize u'.mem f a nis len) (IsObject (objs.add r a)) a k f len := by
  have ge := klass.klass.nis_ge
  rw [klass.nis] at ge
  obtain ⟨two, -⟩ := klass.words_ge size
  have after := fresh.klassOf h klass size object klass
  have word : ∀ off, off < words → (f.hasSizeSlot = true → off ≠ nis) →
      withSize u'.mem f a nis len (a + off) =
        (u.initObjectAt a words (oopAt k) tagged).mem (a + off) := by
    intro off _ ne
    rw [withSize_of_ne ne, fresh.mem]
  have nil : WfWord (IsObject (objs.add r a)) (if tagged then u.nilObj else 0) := by
    split
    · unfold Universe.nilObj
      cases roots : u.roots with
      | nil => exact Or.inl rfl
      | cons w ws =>
        have := h.roots w (List.mem_append_left _ (by rw [roots]; exact List.mem_cons_self))
        rcases this with isSmi | ⟨t, same, object⟩
        · exact Or.inl isSmi
        · exact Or.inr ⟨t, same, Objects.isObject_add.mpr (Or.inl object)⟩
    · exact Or.inl rfl
  refine ⟨?_, ?_, Objects.isObject_add.mpr (Or.inl object), after.klass, after.format, ?_, ?_⟩
  · have mark := word 0 (by omega) fun _ => by omega
    rw [Nat.add_zero] at mark
    rw [mark]
    unfold Universe.initObjectAt
    dsimp only
    rw [if_pos rfl]
    cases tagged <;> decide
  · rw [word 1 (by omega) fun _ => by omega]
    unfold Universe.initObjectAt
    dsimp only
    rw [if_neg (by omega), if_pos rfl]
  · intro sized
    rw [after.nis]
    unfold withSize
    rw [if_pos sized, Function.update_self]
  · intro off body
    rw [after.nis] at body
    have bounds : 2 ≤ off ∧ off < words ∧ off ≠ nis := by
      rcases List.mem_append.mp body with named | tail
      · have := Format.mem_namedOffsets named
        have := f.nis_le_sizeWords nis len
        omega
      · have := Format.mem_tailOffsets tail
        omega
    rw [word off bounds.2.1 fun _ => bounds.2.2]
    unfold Universe.initObjectAt
    dsimp only
    rw [if_neg (by omega), if_neg (by omega), if_pos ⟨by omega, by omega⟩]
    exact nil

end Fresh

/-- What the collections of an allocation and the new object leave of the graph. -/
theorem Ended.survives {w : Universe} {vm1 : VmState} {objs1 : Objects} {r : Region} {v : Universe}
    (wf : WfVm vm objs) (object : IsObject objs k)
    (under : Underway (vm.pushHandle (oopAt k)) vm1 objs1)
    (fresh : Fresh vm1.heap v r a words vm1.handle tagged) (two : 2 ≤ words)
    (outside : ∀ x, ¬ (a ≤ x ∧ x < a + words) → w.mem x = v.mem x)
    (roots : w.roots = v.roots.eraseIdx vm1.handleEnd) (codeRoots : w.codeRoots = v.codeRoots)
    {kept : List CodeRoot} {image : Nat → Nat}
    (moved : Survives (vm.pushHandle (oopAt k)).heap kept vm1.heap image) :
    ∃ kept', Survives vm.heap kept' w image ∧
      ∀ b, ({ vm.heap with codeRoots := kept' } : Universe).graph.Reachable b → image b ≠ a := by
  have pushed : WfHeap (vm.pushHandle (oopAt k)).heap objs :=
    wf.heap.pushHandle (Or.inr ⟨k, rfl, object⟩)
  obtain ⟨-, popped⟩ := roots_pushHandle wf.handles.2 (oopAt k)
  -- the same objects, and one more that no root names
  have still : Survives vm1.heap vm1.heap.codeRoots { v with mem := w.mem } id :=
    fresh.survives under.heap outside two rfl fresh.roots.1 fresh.roots.2
  obtain ⟨kept', less, both⟩ := moved.trans pushed still
  have fewer : ∀ x ∈ vm.heap.roots ++ kept'.map CodeRoot.word,
      x ∈ (vm.pushHandle (oopAt k)).heap.roots ++ kept'.map CodeRoot.word := by
    intro x mem
    rcases List.mem_append.mp mem with root | code
    · rw [← popped] at root
      exact List.mem_append_left _ ((List.eraseIdx_sublist _ _).subset root)
    · exact List.mem_append_right _ code
  have wfKept : WfHeap { vm.heap with codeRoots := kept' } objs := by
    refine wf.heap.of_roots fun x mem => ?_
    rcases List.mem_append.mp mem with root | code
    · exact wf.heap.roots x (List.mem_append_left _ root)
    · exact wf.heap.roots x (List.mem_append_right _ ((both.sublist.map _).subset code))
  have relocated : Relocated Mark.KeepsHash { vm.heap with codeRoots := kept' } w image := by
    refine both.relocated.restrict wfKept rfl rfl fewer ?_ ?_
    · show w.roots = vm.heap.roots.map (imageWord image)
      rw [roots, fresh.roots.1, moved.relocated.roots, List.eraseIdx_map, under.same.1]
      exact congrArg (List.map _) popped
    · show w.codeRoots = kept'.map fun r => r.setWord (imageWord image r.word)
      rw [codeRoots]
      exact both.relocated.codeRoots
  refine ⟨kept', ⟨both.sublist, relocated⟩, fun b reach same => ?_⟩
  have before : ({ (vm.pushHandle (oopAt k)).heap with codeRoots := kept } :
      Universe).graph.Reachable b := by
    refine graph_reachable_mono (u := { (vm.pushHandle (oopAt k)).heap with codeRoots := kept })
      (v := { vm.heap with codeRoots := kept' }) rfl (fun x mem => ?_) reach
    rcases List.mem_append.mp (fewer x mem) with root | code
    · exact List.mem_append_left _ root
    · exact List.mem_append_right _ ((less.map _).subset code)
  have after := (moved.relocated.reachable (image b)).mpr ⟨b, before, rfl⟩
  obtain ⟨s, mem⟩ := under.heap.isObject_of_reachable after
  rw [same] at mem
  have bounds := (under.heap.tiles s).bounds mem
  have size := (under.heap.object a ⟨s, mem⟩).two_le_sizeAt
  exact fresh.not_taken under.heap (s := s) (x := a) (by omega) (by omega) ⟨Nat.le_refl _, by omega⟩

/-- A finished allocation, once the size slot is written. -/
theorem Ended.allocated {nis : Nat} (wf : WfVm vm objs) (object : IsObject objs k)
    (klass : KlassOf vm.heap.mem k f nis) (size : words = f.sizeWords nis len)
    (ended : Ended vm (oopAt k) words tagged a vm') :
    ∃ objs' image, Allocated vm k f len tagged a
      (vm'.withUniverse { vm'.heap with mem := withSize vm'.heap.mem f a nis len }) objs' image := by
  obtain ⟨vm1, objs1, r, v, under, fresh, rfl⟩ := ended
  obtain ⟨kept, image, survives⟩ := under.survives
  have h0 : WfHeap (vm.pushHandle (oopAt k)).heap objs :=
    wf.heap.pushHandle (Or.inr ⟨k, rfl, object⟩)
  obtain ⟨pushed, popped⟩ := roots_pushHandle wf.handles.2 (oopAt k)
  have roots1 : vm1.heap.roots = (vm.pushHandle (oopAt k)).heap.roots.map (imageWord image) :=
    survives.relocated.roots
  have end1 : vm1.handleEnd = vm.handleEnd := under.same.1
  have handle : vm1.handle = oopAt (image k) := by
    unfold VmState.handle
    rw [end1, roots1, List.getD_eq_getElem?_getD, List.getElem?_map, pushed, Option.map_some,
      imageWord_oopAt]
    rfl
  have fresh' := fresh
  rw [handle] at fresh
  have imageObject : ∀ c, oopAt c ∈ (vm.pushHandle (oopAt k)).heap.roots → IsObject objs1 (image c) := by
    intro c root
    refine isObject_of_wfWord (under.heap.roots (oopAt (image c)) (List.mem_append_left _ ?_)) rfl
    rw [roots1, ← imageWord_oopAt]
    exact List.mem_map_of_mem root
  have kept1 : ∀ c g n, oopAt c ∈ (vm.pushHandle (oopAt k)).heap.roots → KlassOf vm.heap.mem c g n →
      KlassOf vm1.heap.mem (image c) g n := by
    intro c g n root other
    obtain ⟨wf, format, nis⟩ := survives.klass h0 root other.klass
    exact ⟨wf, format.trans other.format, nis.trans other.nis⟩
  have root0 := List.mem_of_getElem? pushed
  have klass1 := kept1 k f nis root0 klass
  have shaped := fresh.shaped under.heap klass1 size (imageObject k root0)
  have nis1 := (fresh.klassOf under.heap klass1 size (imageObject k root0) klass1).nis
  have sizeAt_eq : sizeAt (withSize v.mem f a nis len) a = words := by
    rw [shaped.sizeAt_eq, nis1, size]
  refine ⟨objs1.add r a, image, ?_, ?_, shaped.klassAt_eq, shaped.lenAt_eq, ?_, ?_, end1,
    ⟨(fresh.starts .old).trans under.old.1, fresh.limit.trans under.old.2⟩, ?_, ?_⟩
  · refine under.heap.fresh fresh (fun x => withSize_outside klass1 size) sizeAt_eq shaped.wfObject
      fun w mem => ?_
    have word : WfWord (IsObject objs1) w := by
      refine under.heap.roots w ?_
      rcases List.mem_append.mp mem with root | code
      · refine List.mem_append_left _ (fresh.roots.1 ▸ ?_)
        exact (List.eraseIdx_sublist _ _).subset root
      · refine List.mem_append_right _ ?_
        unfold Universe.codeWords
        rw [← fresh.roots.2]
        exact code
    rcases word with isSmi | ⟨t, same, object⟩
    · exact Or.inl isSmi
    · exact Or.inr ⟨t, same, Objects.isObject_add.mpr (Or.inl object)⟩
  · exact Objects.isObject_add.mpr (Or.inr rfl)
  · intro off behind inside noSize
    have inside' : off < sizeAt (withSize v.mem f a nis len) a := inside
    rw [sizeAt_eq] at inside'
    have noSize' : f.hasSizeSlot = true → off ≠ nis := fun sized => by
      rw [← nis1]
      exact noSize sized
    show withSize v.mem f a nis len (a + off) = _
    rw [withSize_of_ne noSize', fresh.mem]
    unfold Universe.initObjectAt
    dsimp only
    rw [if_neg (by omega), if_neg (by omega), if_pos ⟨by omega, by omega⟩]
    -- the handle comes behind nil
    have nil : vm1.heap.nilObj = (v.roots.eraseIdx vm1.handleEnd).headD 0 := by
      have first := wf.handles.1
      rw [fresh.roots.1, end1]
      unfold Universe.nilObj
      cases vm1.heap.roots with
      | nil => rfl
      | cons w ws =>
        obtain ⟨n, isEnd⟩ : ∃ n, vm.handleEnd = n + 1 := ⟨vm.handleEnd - 1, by omega⟩
        rw [isEnd]
        rfl
    rw [nil]
    rfl
  · exact Ended.survives (w := { v with
        mem := withSize v.mem f a nis len
        roots := v.roots.eraseIdx vm1.handleEnd }) wf object under fresh' (klass1.words_ge size).1
      (fun x out => withSize_outside klass1 size out) rfl rfl survives
  · intro c g n root other
    have inPushed : oopAt c ∈ (vm.pushHandle (oopAt k)).heap.roots := by
      rcases List.mem_cons.mp root with same | root
      · exact same ▸ root0
      · rw [← popped] at root
        exact (List.eraseIdx_sublist _ _).subset root
    exact fresh.klassOf under.heap klass1 size (imageObject c inPushed) (kept1 c g n inPushed other)
  · intro old off inside
    have isOld : r = .old := by
      rcases fresh.region with rfl | rfl
      · exfalso
        have two := (klass.words_ge size).1
        have fits := fresh.fits
        have young := under.heap.spaces.young .eden (by decide)
        have start : v.old.start = vm1.heap.old.start := fresh.starts .old
        have : v.old.start ≤ a := old
        omega
      · rfl
    refine fresh.born isOld (a + off) (Nat.le_add_right _ _) (Nat.add_lt_add_left ?_ _)
    have inside' : off < sizeAt (withSize v.mem f a nis len) a := inside
    rwa [sizeAt_eq] at inside'

/-- The allocators of objects with a size slot. -/
theorem allocSized_meets {nis body : Nat} (wf : WfVm vm objs)
    (object : IsObject objs k) (klass : KlassOf vm.heap.mem k f nis) (sized : f.hasSizeSlot = true)
    (size : nis + 1 + body = f.sizeWords nis len) :
    Meets (allocLimits (vm.pushHandle (oopAt k)) (nis + 1 + body)) (Alloc.allocSized k body len tagged vm)
      fun a vm' => ∃ objs' image, Allocated vm k f len tagged a vm' objs' image := by
  have addresses := wf.addresses
  have read : nonIndexableSize vm.heap.mem k = some nis := by
    rw [klass.klass.nonIndexableSize, klass.nis]
  unfold Alloc.allocSized
  refine .get_bind ?_
  rw [read]
  dsimp only
  split
  · -- more words than there are addresses
    refine .wrong (Or.inl fun n _ => ?_)
    have limit : (vm.pushHandle (oopAt k)).heap.old.limit = vm.heap.old.limit := rfl
    omega
  · refine (allocWords_meets wf.heap (Or.inr ⟨k, rfl, object⟩) addresses).bind fun a vm1 ended => ?_
    refine .modify_bind (.pure ?_)
    have allocated := ended.allocated wf object klass size
    unfold withSize at allocated
    rw [if_pos sized] at allocated
    exact allocated

/-- The allocators of objects without one. -/
theorem allocWords_allocated {nis : Nat} (wf : WfVm vm objs)
    (object : IsObject objs k) (klass : KlassOf vm.heap.mem k f nis) (sized : f.hasSizeSlot = false)
    (size : nis = f.sizeWords nis len) :
    Meets (allocLimits (vm.pushHandle (oopAt k)) nis) (Alloc.allocWords nis (oopAt k) tagged vm)
      fun a vm' => ∃ objs' image, Allocated vm k f len tagged a vm' objs' image := by
  refine (allocWords_meets wf.heap (Or.inr ⟨k, rfl, object⟩) wf.addresses).imp fun a vm1 ended => ?_
  have allocated := ended.allocated wf object klass size
  unfold withSize at allocated
  rw [sized] at allocated
  exact allocated

end Allocators

end WinVm.Memory
