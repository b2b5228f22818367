import WinVm.Memory.Spaces

/-!
# Well-formed heaps

A heap between collections: every region is tiled by well-formed objects, the roots name
objects, the slots of old gen that point into new gen lie on dirty cards, and the offset table
resolves the cards of old gen.

Results: `decidableWfHeap`, the property can be checked on a heap given by its words.
-/

namespace WinVm.Memory

open WinVm.Lib

/-- The objects of a heap, region by region. -/
abbrev Objects := Region → List Nat

def IsObject (objs : Objects) (a : Nat) : Prop := ∃ r, a ∈ objs r

def IsYoung (objs : Objects) (a : Nat) : Prop := a ∈ objs .eden ∨ a ∈ objs .fromSpace

theorem IsYoung.isObject {objs : Objects} {a : Nat} (h : IsYoung objs a) : IsObject objs a :=
  h.elim (fun h => ⟨_, h⟩) (fun h => ⟨_, h⟩)

/-- A well-formed heap between collections. -/
structure WfHeap (u : Universe) (objs : Objects) : Prop where
  spaces : u.WfSpaces
  tiles : ∀ r, Tiles (sizeAt u.mem) (u.start r) (u.top r) (objs r)
  toEmpty : objs .toSpace = []
  object : ∀ a, IsObject objs a → WfObject u.mem (IsObject objs) a
  roots : ∀ w ∈ u.roots ++ u.codeWords, WfWord (IsObject objs) w
  remembered : ∀ a ∈ objs .old, ∀ off ∈ slotsAt u.mem a, IsMem (u.mem (a + off)) →
    memAddr (u.mem (a + off)) < u.old.start → u.dirty (u.cardIndex (a + off)) = true
  resolves : u.Resolves (sizeAt u.mem) (objs .old)
  noStall : u.pendingStall = none
  gcEnabled : u.gcEnabled = true

/-- Two states with the same heap and the same roots. -/
theorem WfHeap.of_eq {u u' : Universe} {objs : Objects} (h : WfHeap u objs)
    (hspaces : u'.eden = u.eden ∧ u'.fromSpace = u.fromSpace ∧ u'.toSpace = u.toSpace ∧
      u'.old = u.old) (hmem : u'.mem = u.mem) (hdirty : u'.dirty = u.dirty)
    (hoffsets : u'.offsets = u.offsets) (hroots : u'.roots = u.roots)
    (hcode : u'.codeRoots = u.codeRoots) (hstall : u'.pendingStall = u.pendingStall)
    (hgc : u'.gcEnabled = u.gcEnabled) : WfHeap u' objs := by
  obtain ⟨heden, hfrom, hto, hold⟩ := hspaces
  have hstart : ∀ r, u'.start r = u.start r := by
    intro r
    cases r <;> simp only [Universe.start, heden, hfrom, hto, hold]
  have htop : ∀ r, u'.top r = u.top r := by
    intro r
    cases r <;> simp only [Universe.top, heden, hfrom, hto, hold]
  refine ⟨h.spaces.of_eq heden hfrom hto hold, fun r => ?_, h.toEmpty, ?_, ?_, ?_, ?_,
    hstall.trans h.noStall, hgc.trans h.gcEnabled⟩
  · rw [hmem, hstart, htop]
    exact h.tiles r
  · rw [hmem]
    exact h.object
  · unfold Universe.codeWords
    rw [hroots, hcode]
    exact h.roots
  · rw [hmem, hold, hdirty]
    unfold Universe.cardIndex
    rw [hold]
    exact h.remembered
  · rw [hmem]
    exact h.resolves.of_offsets (by rw [hold]) (by rw [hold]) hoffsets

/-! ## Where its words lie -/

namespace WfHeap

variable {u : Universe} {objs : Objects} (h : WfHeap u objs)
include h

theorem top_apart (r s : Region) (hrs : r ≠ s) : u.top r ≤ u.start s ∨ u.top s ≤ u.start r := by
  have := h.spaces.apart r s hrs
  have := h.spaces.top_le r
  have := h.spaces.top_le s
  omega

theorem region_unique {a : Nat} {r s : Region} (hr : a ∈ objs r) (hs : a ∈ objs s) : r = s := by
  by_contra hne
  have hbr := (h.tiles r).bounds hr
  have hbs := (h.tiles s).bounds hs
  have := h.top_apart r s hne
  omega

/-- Words of different objects are different words. -/
theorem words_ne {a b off o : Nat} (ha : IsObject objs a) (hb : IsObject objs b) (hab : a ≠ b)
    (hoff : off < sizeAt u.mem a) (ho : o < sizeAt u.mem b) : a + off ≠ b + o := by
  obtain ⟨r, ha⟩ := ha
  obtain ⟨s, hb⟩ := hb
  have := Tiles.apart_of_family h.tiles h.top_apart ha hb hab
  omega

/-- No header lies inside another object. -/
theorem header_ne {a b off : Nat} (ha : IsObject objs a) (hb : IsObject objs b) (h1 : 1 ≤ off)
    (h2 : off < sizeAt u.mem a) : a + off ≠ b := by
  by_cases hab : a = b
  · omega
  · have hsize := (h.object b hb).two_le_sizeAt
    exact h.words_ne ha hb hab h2 (o := 0) (by omega)

end WfHeap

/-! ## Deciding it -/

section Decide

instance decidableForallRegion {P : Region → Prop} [DecidablePred P] : Decidable (∀ r, P r) :=
  decidable_of_iff (P .eden ∧ P .fromSpace ∧ P .toSpace ∧ P .old)
    ⟨fun ⟨h1, h2, h3, h4⟩ r => by cases r <;> assumption,
      fun h => ⟨h _, h _, h _, h _⟩⟩

instance decidableIsObject (objs : Objects) (a : Nat) : Decidable (IsObject objs a) :=
  decidable_of_iff (a ∈ objs .eden ∨ a ∈ objs .fromSpace ∨ a ∈ objs .toSpace ∨ a ∈ objs .old)
    ⟨fun h => by rcases h with h | h | h | h <;> exact ⟨_, h⟩, fun ⟨r, h⟩ => by cases r <;> tauto⟩

instance decidableIsMark (w : Nat) : Decidable (Mark.IsMark w) :=
  inferInstanceAs (Decidable (w % 8 = 7))

instance decidableWfWord (isObj : Nat → Prop) [DecidablePred isObj] (w : Nat) :
    Decidable (WfWord isObj w) :=
  decidable_of_iff (IsSmi w ∨ (w % 8 = 1 ∧ isObj (w / 8))) <| by
    refine or_congr_right ⟨fun ⟨h, ho⟩ => ⟨w / 8, ?_, ho⟩, ?_⟩
    · unfold oopAt
      omega
    · rintro ⟨t, rfl, ht⟩
      have h8 : oopAt t % 8 = 1 ∧ oopAt t / 8 = t := by
        unfold oopAt
        omega
      exact ⟨h8.1, h8.2.symm ▸ ht⟩

instance decidableWfKlass (mem : Mem) (k : Nat) : Decidable (WfKlass mem k) :=
  decidable_of_iff ((formatAt mem k).isSome ∧ IsSmi (mem (k + 3)) ∧ 2 ≤ nisAt mem k ∧
      mem (k + 1) = oopAt (klassAt mem k) ∧ formatAt mem (klassAt mem k) = some .klass ∧
      klassSizeWords ≤ nisAt mem (klassAt mem k))
    ⟨fun ⟨h1, h2, h3, h4, h5, h6⟩ => ⟨Option.isSome_iff_exists.mp h1, h2, h3, h4, h5, h6⟩,
      fun h => ⟨Option.isSome_iff_exists.mpr h.format, h.nisSmi, h.nis_ge, h.klassWord,
        h.metaFormat, h.metaNis⟩⟩

instance decidableWfObject (mem : Mem) (isObj : Nat → Prop) [DecidablePred isObj] (a : Nat) :
    Decidable (WfObject mem isObj a) :=
  decidable_of_iff (Mark.IsMark (mem a) ∧ Mark.gcMark (mem a) = 0 ∧
      mem (a + 1) = oopAt (klassAt mem a) ∧ isObj (klassAt mem a) ∧
      WfKlass mem (klassAt mem a) ∧
      (∀ f ∈ formatAt mem (klassAt mem a), f.hasSizeSlot = true →
        IsSmi (mem (a + nisAt mem (klassAt mem a)))) ∧
      ∀ off ∈ slotsAt mem a, WfWord isObj (mem (a + off)))
    ⟨fun ⟨h1, h2, h3, h4, h5, h6, h7⟩ => ⟨h1, h2, h3, h4, h5, h6, h7⟩,
      fun h => ⟨h.mark, h.notMarked, h.klassWord, h.klassObj, h.klass, h.lenSmi, h.slots⟩⟩

instance decidableTiles (size : Nat → Nat) : (a b : Nat) → (l : List Nat) →
    Decidable (Tiles size a b l)
  | a, b, [] => decidable_of_iff (a = b) ⟨fun h => h ▸ .nil a, fun h => by cases h; rfl⟩
  | a, b, x :: l =>
    have := decidableTiles size (a + size a) b l
    decidable_of_iff (x = a ∧ 0 < size a ∧ Tiles size (a + size a) b l)
      ⟨fun ⟨h1, h2, h3⟩ => by rw [h1]; exact .cons h2 h3,
        fun h => by cases h with | cons h2 h3 => exact ⟨rfl, h2, h3⟩⟩

instance decidableWfSpaces (u : Universe) : Decidable u.WfSpaces :=
  decidable_of_iff ((∀ r, u.start r ≤ u.top r) ∧ (∀ r, u.top r ≤ u.cap r) ∧
      (∀ r s, r ≠ s → u.cap r ≤ u.start s ∨ u.cap s ≤ u.start r) ∧
      (∀ r, r ≠ .old → u.cap r ≤ u.old.start) ∧ u.old.committedEnd ≤ u.old.limit)
    ⟨fun ⟨h1, h2, h3, h4, h5⟩ => ⟨h1, h2, h3, h4, h5⟩,
      fun h => ⟨h.start_le, h.top_le, h.apart, h.young, h.reserved⟩⟩

instance decidableResolves (u : Universe) (size : Nat → Nat) (olds : List Nat) :
    Decidable (u.Resolves size olds) :=
  decidable_of_iff (∀ i < u.old.top - u.old.start, u.cardBase i < u.old.top →
      ∃ a ∈ olds, u.resolve i = some a ∧ a ≤ u.cardBase i ∧ u.cardBase i < a + size a) <| by
    refine ⟨fun h i hi => h i ?_ hi, fun h i _ hi => h i hi⟩
    unfold Universe.cardBase Universe.cardSize at hi
    omega

instance decidableWfHeap (u : Universe) (objs : Objects) : Decidable (WfHeap u objs) :=
  decidable_of_iff (u.WfSpaces ∧ (∀ r, Tiles (sizeAt u.mem) (u.start r) (u.top r) (objs r)) ∧
      objs .toSpace = [] ∧ (∀ r, ∀ a ∈ objs r, WfObject u.mem (IsObject objs) a) ∧
      (∀ w ∈ u.roots ++ u.codeWords, WfWord (IsObject objs) w) ∧
      (∀ a ∈ objs .old, ∀ off ∈ slotsAt u.mem a, IsMem (u.mem (a + off)) →
        memAddr (u.mem (a + off)) < u.old.start → u.dirty (u.cardIndex (a + off)) = true) ∧
      u.Resolves (sizeAt u.mem) (objs .old) ∧ u.pendingStall.isNone = true ∧ u.gcEnabled = true)
    ⟨fun ⟨h1, h2, h3, h4, h5, h6, h7, h8, h9⟩ => ⟨h1, h2, h3, fun a ⟨r, ha⟩ => h4 r a ha, h5, h6,
        h7, Option.isNone_iff_eq_none.mp h8, h9⟩,
      fun h => ⟨h.spaces, h.tiles, h.toEmpty, fun r a ha => h.object a ⟨r, ha⟩, h.roots,
        h.remembered, h.resolves, Option.isNone_iff_eq_none.mpr h.noStall, h.gcEnabled⟩⟩

end Decide

/-! ## A small heap -/

/-- The memory with these words and 0 elsewhere. -/
def memOf (words : List (Nat × Nat)) : Mem := fun x =>
  ((words.find? fun w => w.1 == x).map Prod.snd).getD 0

/-- The words of a klass object: its mark, klass, format and instance size. -/
def klassWords (a k format nis : Nat) : List (Nat × Nat) :=
  [(a, Mark.pristine), (a + 1, oopAt k), (a + 2, smi format), (a + 3, smi nis)]

/-- The start of old gen behind an eden of so many words at 512. -/
def oldStart (edenWords : Nat) : Nat := 512 + edenWords + 131072

/-- Eden as it is sized by default, 32 MiB. -/
def defaultEden : Nat := 4194304

/-- A heap as it is configured by default but for its eden, with the metaclass knot, a class of
byte arrays and two byte arrays in eden; the first, of `dead` words, is no root. -/
def Universe.withByteArray (edenWords dead bytes : Nat) : Universe :=
  let o := oldStart edenWords
  { mem := memOf (klassWords o (o + 10) 4 10 ++ klassWords (o + 10) o 4 10 ++
      klassWords (o + 20) o 4 10 ++ klassWords (o + 30) (o + 20) 2 2 ++
      [(512, Mark.pristine), (513, oopAt (o + 30)), (514, smi (8 * dead)),
        (515 + dead, Mark.pristine), (516 + dead, oopAt (o + 30)), (517 + dead, smi bytes)])
    eden := ⟨512, 518 + dead + (bytes + 7) / 8, 512 + edenWords⟩
    fromSpace := ⟨512 + edenWords, 512 + edenWords, 66048 + edenWords⟩
    toSpace := ⟨66048 + edenWords, 66048 + edenWords, o⟩
    old := ⟨o, o + 1073741824, o + 2097152, o + 40⟩
    dirty := fun _ => false
    offsets := fun _ => 0
    tenuringThreshold := 127
    ageTable := fun _ => 0
    pendingStall := none
    promotionGuaranteeMet := true
    gcEnabled := true
    roots := [oopAt (515 + dead)]
    codeRoots := []
    idleNmethods := [] }

def Objects.withByteArray (edenWords dead : Nat) : Objects
  | .eden => [512, 515 + dead]
  | .fromSpace => []
  | .toSpace => []
  | .old => [oldStart edenWords, oldStart edenWords + 10, oldStart edenWords + 20,
      oldStart edenWords + 30]

example : WfHeap (.withByteArray defaultEden 5 16) (.withByteArray defaultEden 5) := by
  decide +kernel

end WinVm.Memory
