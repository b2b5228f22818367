import Mathlib.Data.List.Range
import Mathlib.Logic.Basic

/-!
# Words and objects

The object format of `oops/`: tagged words, mark words, klasses and the sizes and oop slots
they give their instances. Memory maps word addresses to 64-bit words; an address here is the
byte address divided by 8, so a mem oop for `a` is the word `8 * a + 1`.

Reading an object goes through its klass. The functions of the source check tags on the way
(`KlassOop::try_from`, `expect`); they return an `Option`, `none` where the source panics.
-/

namespace WinVm.Memory

/-- A word for every word address. -/
abbrev Mem := Nat → Nat

/-! ## Tags -/

abbrev IsSmi (w : Nat) : Prop := w % 4 = 0

abbrev IsMem (w : Nat) : Prop := w % 4 = 1

/-- The value of a smi; the ones read here are never negative. -/
def smiValue (w : Nat) : Nat := w / 4

def smi (n : Nat) : Nat := 4 * n

/-- The word address of a mem oop. -/
def memAddr (w : Nat) : Nat := w / 8

def oopAt (a : Nat) : Nat := 8 * a + 1

@[simp] theorem isMem_oopAt (a : Nat) : IsMem (oopAt a) := by
  unfold oopAt IsMem
  omega

@[simp] theorem memAddr_oopAt (a : Nat) : memAddr (oopAt a) = a := by
  unfold memAddr oopAt
  omega

theorem oopAt_injective {a b : Nat} (h : oopAt a = oopAt b) : a = b := by
  unfold oopAt at h
  omega

theorem not_isMem_of_isSmi {w : Nat} (h : IsSmi w) : ¬ IsMem w := by
  unfold IsSmi at h
  unfold IsMem
  omega

/-! ## Mark words -/

namespace Mark

/-- A mark has tag 3 and the sentinel bit. -/
def IsMark (w : Nat) : Prop := w % 8 = 7

def nearDeath (w : Nat) : Nat := w / 8 % 2

def taggedContents (w : Nat) : Nat := w / 16 % 2

def age (w : Nat) : Nat := w / 32 % 128

def hash (w : Nat) : Nat := w / 4096 % 4294967296

def gcMark (w : Nat) : Nat := w / 17592186044416 % 2

def pristine : Nat := 7

def withAge (w n : Nat) : Nat := w - 32 * age w + 32 * n

def withTaggedContents (w n : Nat) : Nat := w - 16 * taggedContents w + 16 * n

def withGcMark (w n : Nat) : Nat := w - 17592186044416 * gcMark w + 17592186044416 * n

/-- Everything of a mark but its age. -/
def SameIdentity (w w' : Nat) : Prop :=
  IsMark w' ∧ hash w' = hash w ∧ nearDeath w' = nearDeath w ∧
    taggedContents w' = taggedContents w ∧ gcMark w' = gcMark w

theorem SameIdentity.refl {w : Nat} (h : IsMark w) : SameIdentity w w :=
  ⟨h, rfl, rfl, rfl, rfl⟩

theorem sameIdentity_withAge {w n : Nat} (h : IsMark w) (hn : n < 128) :
    SameIdentity w (withAge w n) := by
  unfold IsMark at h
  unfold SameIdentity IsMark hash nearDeath taggedContents gcMark withAge age
  omega

theorem not_isMem {w : Nat} (h : IsMark w) : ¬ IsMem w := by
  unfold IsMark at h
  unfold IsMem
  omega

end Mark

/-! ## Klasses -/

inductive Format where
  | slots
  | indexableOops
  | indexableBytes
  | method
  | klass
  | double
  | closure
  | context
  | process
deriving DecidableEq, Repr

namespace Format

/-- `from_smi_value_checked`: the kind is in the low byte. -/
def ofCode (v : Nat) : Option Format :=
  match v % 256 with
  | 0 => some slots
  | 1 => some indexableOops
  | 2 => some indexableBytes
  | 3 => some method
  | 4 => some klass
  | 5 => some double
  | 6 => some closure
  | 7 => some context
  | 8 => some process
  | _ => none

/-- The formats whose instances have a size slot after the named words. -/
def hasSizeSlot : Format → Bool
  | indexableOops | indexableBytes | method | closure | context => true
  | slots | klass | double | process => false

/-- Instance size in words, by the klass's `non_indexable_size` and the size slot. -/
def sizeWords (f : Format) (nis len : Nat) : Nat :=
  match f with
  | slots | klass | double | process => nis
  | indexableOops | closure | context => nis + 1 + len
  | indexableBytes | method => nis + 1 + (len + 7) / 8

/-- The named oop-bearing body words, as offsets from the header. -/
def namedOffsets (f : Format) (nis : Nat) : List Nat :=
  match f with
  | double | process => []
  | _ => List.range' 2 (nis - 2)

/-- The oop-bearing tail words. -/
def tailOffsets (f : Format) (nis len : Nat) : List Nat :=
  match f with
  | indexableOops | closure | context => List.range' (nis + 1) len
  | _ => []

theorem mem_namedOffsets {f : Format} {nis off : Nat} (h : off ∈ f.namedOffsets nis) :
    2 ≤ off ∧ off < nis := by
  unfold namedOffsets at h
  cases f <;> simp only [List.mem_range'_1, List.not_mem_nil] at h <;> omega

theorem mem_tailOffsets {f : Format} {nis len off : Nat} (h : off ∈ f.tailOffsets nis len) :
    nis < off ∧ off < f.sizeWords nis len := by
  unfold tailOffsets at h
  unfold sizeWords
  cases f <;> simp only [List.mem_range'_1, List.not_mem_nil] at h ⊢ <;> omega

theorem namedOffsets_nodup (f : Format) (nis : Nat) : (f.namedOffsets nis).Nodup := by
  unfold namedOffsets
  cases f <;> first | exact List.nodup_range' | exact List.nodup_nil

theorem tailOffsets_nodup (f : Format) (nis len : Nat) : (f.tailOffsets nis len).Nodup := by
  unfold tailOffsets
  cases f <;> first | exact List.nodup_range' | exact List.nodup_nil

theorem nis_le_sizeWords (f : Format) (nis len : Nat) : nis ≤ f.sizeWords nis len := by
  unfold sizeWords
  cases f <;> simp only <;> omega

theorem nis_lt_sizeWords {f : Format} (h : f.hasSizeSlot = true) (nis len : Nat) :
    nis < f.sizeWords nis len := by
  unfold sizeWords
  cases f <;> first | (simp only; omega) | (simp [hasSizeSlot] at h)

end Format

/-- The size of a klass object. -/
def klassSizeWords : Nat := 10

/-- `format_of_klass_field` once the field is known to be a mem oop. -/
def formatAt (mem : Mem) (k : Nat) : Option Format :=
  if IsSmi (mem (k + 2)) then Format.ofCode (smiValue (mem (k + 2))) else none

/-- `has_untagged_contents`, as a mark bit. -/
def untaggedAt (mem : Mem) (k : Nat) : Nat := smiValue (mem (k + 2)) / 256 % 2

def nonIndexableSize (mem : Mem) (k : Nat) : Option Nat :=
  if IsSmi (mem (k + 3)) then some (smiValue (mem (k + 3))) else none

/-- `KlassOop::try_from`: the candidate's own klass must have the klass format. -/
def klassOop (mem : Mem) (w : Nat) : Option Nat :=
  if IsMem w then
    if IsMem (mem (memAddr w + 1)) ∧
        formatAt mem (memAddr (mem (memAddr w + 1))) = some .klass then
      some (memAddr w)
    else none
  else none

def rawSizeSlot (mem : Mem) (a nis : Nat) : Option Nat :=
  if IsSmi (mem (a + nis)) then some (smiValue (mem (a + nis))) else none

/-- `size_words_for_klass`. -/
def sizeWordsForKlass (mem : Mem) (a k : Nat) : Option Nat := do
  let nis ← nonIndexableSize mem k
  let f ← formatAt mem k
  if f.hasSizeSlot then
    let len ← rawSizeSlot mem a nis
    some (f.sizeWords nis len)
  else some (f.sizeWords nis 0)

/-- `instance_size_words`. -/
def instanceSizeWords (mem : Mem) (a : Nat) : Option Nat := do
  let k ← klassOop mem (mem (a + 1))
  sizeWordsForKlass mem a k

section Fields

variable {σ : Type}

/-- Replace one word of the state's memory by what `f` makes of it. -/
def visitSlot (mem : σ → Mem) (set : σ → Nat → Nat → σ) (f : σ → Nat → Option (σ × Nat))
    (st : σ) (x : Nat) : Option σ := do
  let (st', v) ← f st (mem st x)
  some (set st' x v)

def visitSlots (mem : σ → Mem) (set : σ → Nat → Nat → σ) (f : σ → Nat → Option (σ × Nat))
    (st : σ) (xs : List Nat) : Option σ :=
  xs.foldlM (visitSlot mem set f) st

/-- `for_each_oop_field`: every oop-bearing body word of `a`, by the format of the klass `k`;
the tail is sized after the named words were visited. -/
def forEachOopField (mem : σ → Mem) (set : σ → Nat → Nat → σ) (f : σ → Nat → Option (σ × Nat))
    (st : σ) (a k : Nat) : Option σ := do
  let nis ← nonIndexableSize (mem st) k
  let fmt ← formatAt (mem st) k
  let st ← visitSlots mem set f st ((fmt.namedOffsets nis).map (a + ·))
  match fmt with
  | .indexableOops | .closure | .context =>
    let len ← rawSizeSlot (mem st) a nis
    visitSlots mem set f st ((fmt.tailOffsets nis len).map (a + ·))
  | _ => some st

variable {mem : σ → Mem} {set : σ → Nat → Nat → σ} {f : σ → Nat → Option (σ × Nat)} {st st' : σ}

theorem visitSlots_cons (x : Nat) (xs : List Nat) : visitSlots mem set f st (x :: xs) =
    (visitSlot mem set f st x).bind fun st => visitSlots mem set f st xs := rfl

/-- The body of an object whose shape can be read: its named words, then its tail. -/
theorem forEachOopField_eq {fmt : Format} {a k nis len : Nat}
    (hnis : nonIndexableSize (mem st) k = some nis) (hfmt : formatAt (mem st) k = some fmt)
    (hnamed : visitSlots mem set f st ((fmt.namedOffsets nis).map (a + ·)) = some st')
    (hlen : fmt.hasSizeSlot = true → rawSizeSlot (mem st') a nis = some len) :
    forEachOopField mem set f st a k =
      visitSlots mem set f st' ((fmt.tailOffsets nis len).map (a + ·)) := by
  unfold forEachOopField
  simp only [hnis, hfmt, hnamed, Option.bind_eq_bind, Option.bind_some]
  cases fmt <;> first | rfl | simp only [hlen rfl, Option.bind_some]

end Fields

/-! ## Shapes -/

def klassAt (mem : Mem) (a : Nat) : Nat := memAddr (mem (a + 1))

def nisAt (mem : Mem) (k : Nat) : Nat := smiValue (mem (k + 3))

def lenAt (mem : Mem) (a : Nat) : Nat := smiValue (mem (a + nisAt mem (klassAt mem a)))

/-- The size of the object at `a`, 0 if its klass has no format. -/
def sizeAt (mem : Mem) (a : Nat) : Nat :=
  match formatAt mem (klassAt mem a) with
  | some f => f.sizeWords (nisAt mem (klassAt mem a)) (lenAt mem a)
  | none => 0

/-- The offsets of the oop-bearing words of the object at `a`, its klass field first. -/
def slotsAt (mem : Mem) (a : Nat) : List Nat :=
  match formatAt mem (klassAt mem a) with
  | some f => 1 :: (f.namedOffsets (nisAt mem (klassAt mem a)) ++
      f.tailOffsets (nisAt mem (klassAt mem a)) (lenAt mem a))
  | none => []

/-- `k` is klass-shaped: its format and size fields are smis that make sense, and its own klass
has the klass format. -/
structure WfKlass (mem : Mem) (k : Nat) : Prop where
  format : ∃ f, formatAt mem k = some f
  nisSmi : IsSmi (mem (k + 3))
  nis_ge : 2 ≤ nisAt mem k
  klassWord : mem (k + 1) = oopAt (klassAt mem k)
  metaFormat : formatAt mem (klassAt mem k) = some .klass
  metaNis : klassSizeWords ≤ nisAt mem (klassAt mem k)

/-- A smi, or an oop that names an object. -/
def WfWord (isObj : Nat → Prop) (w : Nat) : Prop := IsSmi w ∨ ∃ t, w = oopAt t ∧ isObj t

/-- A well-formed object among the objects `isObj`. -/
structure WfObject (mem : Mem) (isObj : Nat → Prop) (a : Nat) : Prop where
  mark : Mark.IsMark (mem a)
  notMarked : Mark.gcMark (mem a) = 0
  klassWord : mem (a + 1) = oopAt (klassAt mem a)
  klassObj : isObj (klassAt mem a)
  klass : WfKlass mem (klassAt mem a)
  lenSmi : ∀ f, formatAt mem (klassAt mem a) = some f → f.hasSizeSlot = true →
    IsSmi (mem (a + nisAt mem (klassAt mem a)))
  slots : ∀ off ∈ slotsAt mem a, WfWord isObj (mem (a + off))

variable {mem : Mem} {isObj : Nat → Prop} {a k : Nat}

theorem isSmi_of_formatAt {f : Format} (h : formatAt mem k = some f) : IsSmi (mem (k + 2)) := by
  unfold formatAt at h
  split at h
  · assumption
  · cases h

theorem WfKlass.nonIndexableSize (h : WfKlass mem k) :
    nonIndexableSize mem k = some (nisAt mem k) := by
  unfold Memory.nonIndexableSize
  rw [if_pos h.nisSmi]
  rfl

theorem WfKlass.klassOop (h : WfKlass mem k) : klassOop mem (oopAt k) = some k := by
  unfold Memory.klassOop
  rw [if_pos (isMem_oopAt k), memAddr_oopAt, h.klassWord, memAddr_oopAt,
    if_pos ⟨isMem_oopAt _, h.metaFormat⟩]

theorem sizeWordsForKlass_eq {f : Format} (hk : WfKlass mem k) (hf : formatAt mem k = some f)
    (hlen : f.hasSizeSlot = true → IsSmi (mem (a + nisAt mem k))) :
    sizeWordsForKlass mem a k = some (f.sizeWords (nisAt mem k)
      (smiValue (mem (a + nisAt mem k)))) := by
  unfold sizeWordsForKlass
  rw [hk.nonIndexableSize, hf]
  simp only [Option.bind_eq_bind, Option.bind_some]
  cases hs : f.hasSizeSlot with
  | true =>
    unfold rawSizeSlot
    rw [if_pos rfl, if_pos (hlen hs)]
    rfl
  | false =>
    -- these formats do not look at the length
    rw [if_neg (by simp)]
    cases f <;> first | rfl | cases hs

namespace WfObject

variable (h : WfObject mem isObj a)
include h

theorem klassOop : klassOop mem (mem (a + 1)) = some (klassAt mem a) := by
  rw [h.klassWord]
  exact h.klass.klassOop

theorem sizeWordsForKlass : sizeWordsForKlass mem a (klassAt mem a) = some (sizeAt mem a) := by
  obtain ⟨f, hf⟩ := h.klass.format
  rw [sizeWordsForKlass_eq h.klass hf (h.lenSmi f hf)]
  unfold sizeAt
  rw [hf]
  rfl

theorem instanceSizeWords : instanceSizeWords mem a = some (sizeAt mem a) := by
  unfold Memory.instanceSizeWords
  rw [h.klassOop]
  exact h.sizeWordsForKlass

theorem two_le_sizeAt : 2 ≤ sizeAt mem a := by
  obtain ⟨f, hf⟩ := h.klass.format
  unfold sizeAt
  rw [hf]
  exact h.klass.nis_ge.trans (f.nis_le_sizeWords _ _)

/-- An object with the size slot has room for it. -/
theorem nisAt_lt_sizeAt {f : Format} (hf : formatAt mem (klassAt mem a) = some f)
    (hs : f.hasSizeSlot = true) : nisAt mem (klassAt mem a) < sizeAt mem a := by
  unfold sizeAt
  rw [hf]
  exact Format.nis_lt_sizeWords hs _ _

theorem one_mem_slotsAt : 1 ∈ slotsAt mem a := by
  obtain ⟨f, hf⟩ := h.klass.format
  unfold slotsAt
  rw [hf]
  exact List.mem_cons_self

/-- Slots lie in the object, behind its mark. -/
theorem slot_bounds {off : Nat} (hoff : off ∈ slotsAt mem a) : 1 ≤ off ∧ off < sizeAt mem a := by
  obtain ⟨f, hf⟩ := h.klass.format
  have hnis := h.klass.nis_ge
  have hle := f.nis_le_sizeWords (nisAt mem (klassAt mem a)) (lenAt mem a)
  unfold slotsAt at hoff
  unfold sizeAt
  rw [hf] at hoff ⊢
  simp only [List.mem_cons, List.mem_append] at hoff ⊢
  rcases hoff with rfl | hoff | hoff
  · exact ⟨Nat.le_refl _, Nat.lt_of_lt_of_le hnis hle⟩
  · obtain ⟨h1, h2⟩ := Format.mem_namedOffsets hoff
    exact ⟨Nat.le_of_succ_le h1, Nat.lt_of_lt_of_le h2 hle⟩
  · obtain ⟨h1, h2⟩ := Format.mem_tailOffsets hoff
    exact ⟨by omega, h2⟩

/-- The size slot holds no oop. -/
theorem nisAt_not_mem_slotsAt : nisAt mem (klassAt mem a) ∉ slotsAt mem a := by
  obtain ⟨f, hf⟩ := h.klass.format
  have hnis := h.klass.nis_ge
  intro hoff
  unfold slotsAt at hoff
  rw [hf] at hoff
  simp only [List.mem_cons, List.mem_append] at hoff
  rcases hoff with h1 | hoff | hoff
  · omega
  · exact Nat.lt_irrefl _ (Format.mem_namedOffsets hoff).2
  · exact Nat.lt_irrefl _ (Format.mem_tailOffsets hoff).1

theorem slotsAt_nodup : (slotsAt mem a).Nodup := by
  obtain ⟨f, hf⟩ := h.klass.format
  have hnis := h.klass.nis_ge
  unfold slotsAt
  rw [hf]
  refine List.nodup_cons.mpr ⟨?_, List.nodup_append.mpr
    ⟨f.namedOffsets_nodup _, f.tailOffsets_nodup _ _, ?_⟩⟩
  · intro hoff
    rcases List.mem_append.mp hoff with hoff | hoff
    · exact absurd (Format.mem_namedOffsets hoff).1 (by decide)
    · have := (Format.mem_tailOffsets hoff).1
      omega
  · rintro x hx y hy rfl
    have h1 := (Format.mem_namedOffsets hx).2
    have h2 := (Format.mem_tailOffsets hy).1
    omega

end WfObject

/-- A klass-shaped object is as long as its fields need. -/
theorem klass_size_ge (hk : WfKlass mem k) :
    klassSizeWords ≤ sizeAt mem k := by
  unfold sizeAt
  rw [hk.metaFormat]
  exact hk.metaNis

end WinVm.Memory
