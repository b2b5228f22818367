import WinVm.Memory.Objects

/-!
# Simulation of memories

Collectors move objects. `Sim mem mem' R` says that `mem'` holds, at the address `a'` of every
pair `R a a'`, the object that `mem` holds at `a`: raw words unchanged, oops replaced by
related oops, marks left open. Since sizes and slots are read through klasses, which move as
well, the first thing to know is that related objects have the same shape.

The relation need not be a function. While a scavenge is under way an object and its copy
both stand for the original; once it is over the relation is the graph of the moving map.
-/

namespace WinVm.Memory

/-- Words that stand for each other under `R`. -/
inductive WordSim (R : Nat → Nat → Prop) : Nat → Nat → Prop
  | same {w : Nat} (h : ¬ IsMem w) : WordSim R w w
  | oop {t t' : Nat} (h : R t t') : WordSim R (oopAt t) (oopAt t')

/-- The object at `a` stands at `a'` in the second memory, but for its mark. -/
structure ObjSim (mem mem' : Mem) (R : Nat → Nat → Prop) (a a' : Nat) : Prop where
  slots : ∀ off ∈ slotsAt mem a, WordSim R (mem (a + off)) (mem' (a' + off))
  raw : ∀ off, 1 ≤ off → off < sizeAt mem a → off ∉ slotsAt mem a →
    mem' (a' + off) = mem (a + off)

/-- The second memory holds the objects of the first. -/
def Sim (mem mem' : Mem) (R : Nat → Nat → Prop) : Prop :=
  ∀ a a', R a a' → ObjSim mem mem' R a a'

theorem WordSim.eq_of_not_isMem {R : Nat → Nat → Prop} {w w' : Nat} (h : WordSim R w w')
    (hw : ¬ IsMem w) : w' = w := by
  cases h with
  | same _ => rfl
  | oop _ => exact absurd (isMem_oopAt _) hw

theorem WordSim.of_oopAt {R : Nat → Nat → Prop} {t w' : Nat} (h : WordSim R (oopAt t) w') :
    ∃ t', w' = oopAt t' ∧ R t t' := by
  generalize hw : oopAt t = w at h
  cases h with
  | same hn =>
    rw [← hw] at hn
    exact absurd (isMem_oopAt t) hn
  | @oop s s' hs =>
    rw [oopAt_injective hw]
    exact ⟨s', rfl, hs⟩

theorem WordSim.mono {R R' : Nat → Nat → Prop} {w w' : Nat} (h : WordSim R w w')
    (hR : ∀ a a', R a a' → R' a a') : WordSim R' w w' := by
  cases h with
  | same hw => exact .same hw
  | oop ht => exact .oop (hR _ _ ht)

theorem WordSim.wfWord {R : Nat → Nat → Prop} {isObj isObj' : Nat → Prop} {w w' : Nat}
    (h : WordSim R w w') (hw : WfWord isObj w) (hR : ∀ a a', R a a' → isObj' a') :
    WfWord isObj' w' := by
  cases h with
  | same hn =>
    rcases hw with hs | ⟨t, rfl, -⟩
    · exact Or.inl hs
    · exact absurd (isMem_oopAt t) hn
  | oop ht => exact Or.inr ⟨_, rfl, hR _ _ ht⟩

namespace Format

theorem sizeWords_congr {f : Format} {nis len len' : Nat}
    (h : f.hasSizeSlot = true → len' = len) : f.sizeWords nis len' = f.sizeWords nis len := by
  cases hs : f.hasSizeSlot with
  | true => rw [h hs]
  | false => cases f <;> first | rfl | cases hs

theorem tailOffsets_congr {f : Format} {nis len len' : Nat}
    (h : f.hasSizeSlot = true → len' = len) : f.tailOffsets nis len' = f.tailOffsets nis len := by
  cases hs : f.hasSizeSlot with
  | true => rw [h hs]
  | false => cases f <;> first | rfl | cases hs

end Format

section Shape

variable {mem mem' : Mem} {R : Nat → Nat → Prop} {isObj : Nat → Prop} {a a' k k' : Nat}
variable (hwf : ∀ a, isObj a → WfObject mem isObj a) (hdom : ∀ a a', R a a' → isObj a)
variable (hsim : Sim mem mem' R)
include hwf hdom hsim

/-- Smis are the same on both sides. -/
theorem Sim.smi_eq (h : R a a') {off : Nat} (h1 : 1 ≤ off) (h2 : off < sizeAt mem a)
    (hs : IsSmi (mem (a + off))) : mem' (a' + off) = mem (a + off) := by
  by_cases hoff : off ∈ slotsAt mem a
  · exact ((hsim a a' h).slots off hoff).eq_of_not_isMem (not_isMem_of_isSmi hs)
  · exact (hsim a a' h).raw off h1 h2 hoff

theorem Sim.klassWord (h : R a a') : mem' (a' + 1) = oopAt (klassAt mem' a') ∧
    R (klassAt mem a) (klassAt mem' a') := by
  have hobj := hwf a (hdom a a' h)
  have hslot := (hsim a a' h).slots 1 hobj.one_mem_slotsAt
  rw [hobj.klassWord] at hslot
  obtain ⟨t', hw, ht⟩ := hslot.of_oopAt
  have hk : klassAt mem' a' = t' := by
    unfold klassAt
    rw [hw, memAddr_oopAt]
  rw [hk]
  exact ⟨hw, ht⟩

theorem Sim.formatAt_eq (h : R k k') (hk : WfKlass mem k) :
    formatAt mem' k' = formatAt mem k ∧ mem' (k' + 2) = mem (k + 2) := by
  obtain ⟨f, hf⟩ := hk.format
  have hsize := klass_size_ge hk
  unfold klassSizeWords at hsize
  have hword := hsim.smi_eq hwf hdom h (by omega) (by omega) (isSmi_of_formatAt hf)
  refine ⟨?_, hword⟩
  unfold formatAt
  rw [hword]

theorem Sim.nisAt_eq (h : R k k') (hk : WfKlass mem k) :
    nisAt mem' k' = nisAt mem k ∧ mem' (k' + 3) = mem (k + 3) := by
  have hsize := klass_size_ge hk
  unfold klassSizeWords at hsize
  have hword := hsim.smi_eq hwf hdom h (by omega) (by omega) hk.nisSmi
  refine ⟨?_, hword⟩
  unfold nisAt
  rw [hword]

/-- A klass-shaped object stays klass-shaped. -/
theorem Sim.wfKlass (h : R k k') (hk : WfKlass mem k) : WfKlass mem' k' := by
  have hkk := (hwf k (hdom k k' h)).klass
  obtain ⟨hword, hR⟩ := hsim.klassWord hwf hdom h
  obtain ⟨hf, -⟩ := hsim.formatAt_eq hwf hdom h hk
  obtain ⟨hn, hnw⟩ := hsim.nisAt_eq hwf hdom h hk
  obtain ⟨hmf, -⟩ := hsim.formatAt_eq hwf hdom hR hkk
  obtain ⟨hmn, -⟩ := hsim.nisAt_eq hwf hdom hR hkk
  refine ⟨?_, ?_, ?_, hword, ?_, ?_⟩
  · rw [hf]
    exact hk.format
  · rw [hnw]
    exact hk.nisSmi
  · rw [hn]
    exact hk.nis_ge
  · rw [hmf]
    exact hk.metaFormat
  · rw [hmn]
    exact hk.metaNis

theorem Sim.lenSmi (h : R a a') {f : Format} (hf : formatAt mem (klassAt mem a) = some f)
    (hs : f.hasSizeSlot = true) :
    lenAt mem' a' = lenAt mem a ∧ IsSmi (mem' (a' + nisAt mem (klassAt mem a))) := by
  have hobj := hwf a (hdom a a' h)
  obtain ⟨-, hR⟩ := hsim.klassWord hwf hdom h
  have hsmi := hobj.lenSmi f hf hs
  have hge := hobj.klass.nis_ge
  have hword := hsim.smi_eq hwf hdom h (by omega) (hobj.nisAt_lt_sizeAt hf hs) hsmi
  unfold lenAt
  rw [(hsim.nisAt_eq hwf hdom hR hobj.klass).1, hword]
  exact ⟨rfl, hsmi⟩

/-- Related objects have the same size and the same slots. -/
theorem Sim.shape (h : R a a') :
    sizeAt mem' a' = sizeAt mem a ∧ slotsAt mem' a' = slotsAt mem a := by
  have hobj := hwf a (hdom a a' h)
  obtain ⟨-, hR⟩ := hsim.klassWord hwf hdom h
  obtain ⟨f, hf⟩ := hobj.klass.format
  have hf' : formatAt mem' (klassAt mem' a') = some f :=
    (hsim.formatAt_eq hwf hdom hR hobj.klass).1.trans hf
  have hlen : f.hasSizeSlot = true → lenAt mem' a' = lenAt mem a :=
    fun hs => (hsim.lenSmi hwf hdom h hf hs).1
  unfold sizeAt slotsAt
  rw [hf, hf', (hsim.nisAt_eq hwf hdom hR hobj.klass).1]
  simp only [Format.sizeWords_congr hlen, Format.tailOffsets_congr hlen, and_self]

/-- The object at `a'` is well-formed among any set that has the related objects. -/
theorem Sim.wfObject {isObj' : Nat → Prop} (h : R a a') (himg : ∀ b b', R b b' → isObj' b')
    (hmark : Mark.IsMark (mem' a')) (hgc : Mark.gcMark (mem' a') = 0) :
    WfObject mem' isObj' a' := by
  have hobj := hwf a (hdom a a' h)
  obtain ⟨hword, hR⟩ := hsim.klassWord hwf hdom h
  have hnis := (hsim.nisAt_eq hwf hdom hR hobj.klass).1
  have hfmt := (hsim.formatAt_eq hwf hdom hR hobj.klass).1
  refine ⟨hmark, hgc, hword, himg _ _ hR, hsim.wfKlass hwf hdom hR hobj.klass, ?_, ?_⟩
  · intro f hf hs
    rw [hfmt] at hf
    rw [hnis]
    exact (hsim.lenSmi hwf hdom h hf hs).2
  · intro off hoff
    rw [(hsim.shape hwf hdom h).2] at hoff
    exact ((hsim a a' h).slots off hoff).wfWord (hobj.slots off hoff) himg

/-- The size of a moved object, computed through any stand-in of its klass. -/
theorem Sim.sizeWordsForKlass (h : R a a') (hR : R (klassAt mem a) k') :
    sizeWordsForKlass mem' a' k' = some (sizeAt mem a) := by
  have hobj := hwf a (hdom a a' h)
  have hk := hsim.wfKlass hwf hdom hR hobj.klass
  obtain ⟨f, hf⟩ := hobj.klass.format
  have hf' : formatAt mem' k' = some f := (hsim.formatAt_eq hwf hdom hR hobj.klass).1.trans hf
  have hnis := (hsim.nisAt_eq hwf hdom hR hobj.klass).1
  rw [sizeWordsForKlass_eq hk hf' (fun hs => by
    rw [hnis]
    exact (hsim.lenSmi hwf hdom h hf hs).2), hnis]
  unfold sizeAt
  rw [hf]
  refine congrArg some (Format.sizeWords_congr fun hs => ?_)
  have hge := hobj.klass.nis_ge
  rw [hsim.smi_eq hwf hdom h (by omega) (hobj.nisAt_lt_sizeAt hf hs) (hobj.lenSmi f hf hs)]
  rfl

/-- `klass()` of a moved object. -/
theorem Sim.klassOop (h : R a a') :
    klassOop mem' (mem' (a' + 1)) = some (klassAt mem' a') := by
  obtain ⟨hword, hR⟩ := hsim.klassWord hwf hdom h
  rw [hword]
  exact (hsim.wfKlass hwf hdom hR (hwf a (hdom a a' h)).klass).klassOop

end Shape

end WinVm.Memory
