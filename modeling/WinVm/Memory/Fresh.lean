import WinVm.Memory.Alloc
import WinVm.Memory.Survival

/-!
# A fresh object

What an attempt of the allocator that succeeds has done: it took the words at the top of eden or
of old gen, wrote a header and a body into them, and in old gen recorded the object in the
offset table and dirtied its cards. The object gets its shape when the caller has filled in the
rest, before anything else is allocated.

Results: `WfHeap.fresh`, a heap with a fresh object that got its shape is well-formed;
`Fresh.survives`, what was in the heap is not affected.
-/

namespace WinVm.Memory

open WinVm.Lib

/-- One more object in a region. -/
def Objects.add (objs : Objects) (r : Region) (a : Nat) : Objects := fun s =>
  if s = r then objs s ++ [a] else objs s

theorem Objects.isObject_add {objs : Objects} {r : Region} {a b : Nat} :
    IsObject (objs.add r a) b ↔ IsObject objs b ∨ b = a := by
  unfold IsObject Objects.add
  constructor
  · rintro ⟨s, hs⟩
    split at hs
    · rcases List.mem_append.mp hs with hs | hs
      · exact Or.inl ⟨s, hs⟩
      · exact Or.inr (List.mem_singleton.mp hs)
    · exact Or.inl ⟨s, hs⟩
  · rintro (⟨s, hs⟩ | rfl)
    · refine ⟨s, ?_⟩
      split
      · exact List.mem_append_left _ hs
      · exact hs
    · refine ⟨r, ?_⟩
      rw [if_pos rfl]
      exact List.mem_append_right _ (List.mem_singleton.mpr rfl)

/-- `u'` is `u` with an object of so many words at `a`, on top of the region `r`. -/
structure Fresh (u u' : Universe) (r : Region) (a words klass : Nat) (tagged : Bool) : Prop where
  region : r = .eden ∨ r = .old
  top : a = u.top r
  fits : a + words ≤ u.cap r
  starts : ∀ s, u'.start s = u.start s
  caps : ∀ s, u'.cap s = u.cap s
  tops : ∀ s, u'.top s = if s = r then a + words else u.top s
  limit : u'.old.limit = u.old.limit
  mem : u'.mem = (u.initObjectAt a words klass tagged).mem
  dirty : ∀ i, u.dirty i = true → u'.dirty i = true
  born : r = .old → ∀ x, a ≤ x → x < a + words → u'.dirty (u'.cardIndex x) = true
  covers : ∀ blocks, u.Covers blocks → u'.Covers (if r = .old then blocks ++ [(a, words)] else blocks)
  roots : u'.roots = u.roots ∧ u'.codeRoots = u.codeRoots
  stall : u'.pendingStall = u.pendingStall
  flags : u'.gcEnabled = u.gcEnabled ∧ u'.promotionGuaranteeMet = u.promotionGuaranteeMet

/-! ## The attempts that make one -/

variable {u u' : Universe} {objs : Objects} {words klass a : Nat} {tagged : Bool}

theorem tryBumpEden_fresh (hrun : u.tryBumpEden words = some (u', a)) :
    Fresh u (u'.initObjectAt a words klass tagged) .eden a words klass tagged := by
  unfold Universe.tryBumpEden at hrun
  split at hrun
  · cases hrun
  · rename_i hroom
    cases hrun
    refine ⟨Or.inl rfl, rfl, Nat.le_of_not_lt hroom, ?_, ?_, ?_, rfl, rfl, fun _ h => h,
      fun h => (by cases h), ?_, ⟨rfl, rfl⟩, rfl, ⟨rfl, rfl⟩⟩
    · intro s
      cases s <;> rfl
    · intro s
      cases s <;> rfl
    · intro s
      cases s <;> rfl
    · intro blocks h
      rw [if_neg (by decide)]
      exact h.of_offsets rfl rfl rfl

theorem allocateOld_fresh (h : u.WfSpaces) (hrun : u.allocateOld words = some (u', a)) :
    Fresh u ((u'.initObjectAt a words klass tagged).recordMultistores a (a + words)) .old a words
      klass tagged := by
  obtain ⟨hcovers⟩ : Nonempty (∀ blocks, u.Covers blocks → u'.Covers (blocks ++ [(a, words)])) :=
    ⟨fun blocks hb => Universe.allocateOld_covers hb (h.start_le .old) hrun⟩
  obtain ⟨rfl, hroom, rfl⟩ := Universe.allocateOld_eq_some hrun
  generalize hv : ({ u with old := { u.old with top := u.old.top + words } } : Universe).recordObject
    u.old.top words = v at *
  obtain ⟨dirty, heq, hdirty⟩ := Universe.recordMultistores_eq
    (v.initObjectAt u.old.top words klass tagged) u.old.top (u.old.top + words)
  have hmulti : ∀ x, u.old.top ≤ x → x < u.old.top + words → _ := fun x =>
    Universe.recordMultistores_dirty (v.initObjectAt u.old.top words klass tagged) x u.old.top
      (u.old.top + words)
  rw [heq] at hmulti ⊢
  subst hv
  refine ⟨Or.inr rfl, rfl, hroom, ?_, ?_, ?_, rfl, rfl, hdirty, ?_, ?_, ⟨rfl, rfl⟩, rfl,
    ⟨rfl, rfl⟩⟩
  · intro s
    cases s <;> rfl
  · intro s
    cases s <;> rfl
  · intro s
    cases s <;> rfl
  · exact fun _ x h1 h2 => hmulti x h1 h2
  · intro blocks hb
    rw [if_pos rfl]
    exact (hcovers blocks hb).of_offsets rfl rfl rfl

/-! ## The heap with it -/

namespace Fresh

variable {r : Region} (h : WfHeap u objs) (hf : Fresh u u' r a words klass tagged)
include hf

theorem mem_of_not {x : Nat} (hx : ¬ (a ≤ x ∧ x < a + words)) (hpos : 2 ≤ words) :
    u'.mem x = u.mem x := by
  rw [hf.mem]
  unfold Universe.initObjectAt
  dsimp only
  rw [if_neg (by omega), if_neg (by omega), if_neg (by omega)]

include h

/-- The words are taken from the free part of the region. -/
theorem not_taken {s : Region} {x : Nat} (h1 : u.start s ≤ x) (h2 : x < u.top s) :
    ¬ (a ≤ x ∧ x < a + words) := by
  rw [hf.top]
  exact h.spaces.not_fresh h1 h2 (by rw [← hf.top]; exact hf.fits)

variable {m : Mem} (hm : ∀ x, ¬ (a ≤ x ∧ x < a + words) → m x = u'.mem x) (hpos : 2 ≤ words)
include hm hpos

theorem sameWords : SameWords objs u.mem m := by
  intro b hb o ho
  obtain ⟨s, hs⟩ := hb
  have hin := (h.tiles s).bounds hs
  have hx := hf.not_taken h (s := s) (x := b + o) (by omega) (by omega)
  rw [hm _ hx, hf.mem_of_not hx hpos]

/-- What was in the heap is as it was. -/
theorem survives {v : Universe} (hv : v.mem = m) (hroots : v.roots = u.roots)
    (hcode : v.codeRoots = u.codeRoots) : Survives u u.codeRoots v id :=
  h.survives (by rw [hv]; exact hf.sameWords h hm hpos) hroots hcode

end Fresh

/-- Once the object has its shape, the heap is well-formed. -/
theorem WfHeap.fresh {r : Region} (h : WfHeap u objs) (hf : Fresh u u' r a words klass tagged)
    {m : Mem} (hm : ∀ x, ¬ (a ≤ x ∧ x < a + words) → m x = u'.mem x) (hsize : sizeAt m a = words)
    (hobj : WfObject m (IsObject (objs.add r a)) a) {rs : List Nat} {cs : List CodeRoot}
    (hroots : ∀ w ∈ rs ++ cs.map CodeRoot.word, WfWord (IsObject (objs.add r a)) w) :
    WfHeap { u' with mem := m, roots := rs, codeRoots := cs } (objs.add r a) := by
  have hpos : 2 ≤ words := hsize ▸ hobj.two_le_sizeAt
  have hsame := hf.sameWords h hm hpos
  have hsub : ∀ b, IsObject objs b → IsObject (objs.add r a) b := fun b hb =>
    Objects.isObject_add.mpr (Or.inl hb)
  have hstart : u'.old.start = u.old.start := hf.starts .old
  refine ⟨?_, fun s => ?_, ?_, fun b hb => ?_, hroots, ?_, ?_, hf.stall.trans h.noStall,
    hf.flags.1.trans h.gcEnabled⟩
  · refine h.spaces.of_tops (fun s => hf.starts s) (fun s => hf.caps s) (fun s => ?_) hf.limit
    change u.top s ≤ u'.top s ∧ u'.top s ≤ u'.cap s
    rw [hf.tops, hf.caps]
    split
    · rename_i heq
      subst heq
      have htop := hf.top
      exact ⟨by omega, hf.fits⟩
    · exact ⟨Nat.le_refl _, h.spaces.top_le s⟩
  · have htiles : Tiles (sizeAt m) (u.start s) (u.top s) (objs s) :=
      (h.tiles s).congr fun b hb => (h.shape_sameWords hsame ⟨s, hb⟩).1
    change Tiles (sizeAt m) (u'.start s) (u'.top s) (if s = r then objs s ++ [a] else objs s)
    rw [hf.starts, hf.tops]
    split
    · rename_i heq
      subst heq
      have htop := hf.top
      subst htop
      rw [← hsize]
      exact htiles.snoc (by omega)
    · exact htiles
  · have hr : r ≠ .toSpace := by rcases hf.region with rfl | rfl <;> decide
    unfold Objects.add
    rw [if_neg fun heq => hr heq.symm]
    exact h.toEmpty
  · rcases Objects.isObject_add.mp hb with hb | rfl
    · exact h.wfObject_sameWords hsame hsub hb
    · exact hobj
  · intro b hb off hoff hmem hlt
    change u'.dirty (u'.cardIndex (b + off)) = true
    change off ∈ slotsAt m b at hoff
    change IsMem (m (b + off)) at hmem
    change memAddr (m (b + off)) < u'.old.start at hlt
    have hold : ∀ b ∈ objs .old, off ∈ slotsAt m b → IsMem (m (b + off)) →
        memAddr (m (b + off)) < u'.old.start → u'.dirty (u'.cardIndex (b + off)) = true := by
      intro b hb hoff hmem hlt
      rw [(h.shape_sameWords hsame ⟨_, hb⟩).2] at hoff
      have hin := (h.object b ⟨_, hb⟩).slot_bounds hoff
      rw [hsame b ⟨_, hb⟩ off hin.2] at hmem hlt
      rw [hstart] at hlt
      have := hf.dirty _ (h.remembered b hb off hoff hmem hlt)
      unfold Universe.cardIndex at this ⊢
      rwa [hstart]
    by_cases hr : Region.old = r
    · unfold Objects.add at hb
      rw [if_pos hr] at hb
      rcases List.mem_append.mp hb with hb | hb
      · exact hold b hb hoff hmem hlt
      · -- the cards of the object itself
        obtain rfl := List.mem_singleton.mp hb
        have hin := hobj.slot_bounds hoff
        exact hf.born hr.symm _ (by omega) (by omega)
    · unfold Objects.add at hb
      rw [if_neg hr] at hb
      exact hold b hb hoff hmem hlt
  · have hres : u.Resolves (sizeAt m) (objs .old) :=
      h.resolves.congr fun b hb => (h.shape_sameWords hsame ⟨_, hb⟩).1
    have hcov := hf.covers _ (Universe.resolves_iff_covers.mp hres)
    refine Universe.resolves_iff_covers.mpr ?_
    change Universe.Covers _ (((objs.add r a) .old).map fun b => (b, sizeAt m b))
    unfold Objects.add
    by_cases hr : r = .old
    · rw [if_pos hr] at hcov
      rw [if_pos hr.symm, List.map_append, List.map_singleton, hsize]
      exact hcov.of_offsets rfl rfl rfl
    · rw [if_neg hr] at hcov
      rw [if_neg fun heq => hr heq.symm]
      exact hcov.of_offsets rfl rfl rfl

end WinVm.Memory
