import WinVm.Lib.Graph
import WinVm.Memory.Copying

/-!
# Relocating the object graph

What a moving collection has to achieve, whatever its algorithm: every reachable object has one
image with the same shape, the same raw words and the same identity, its fields name the
images of their targets, and the roots were replaced in the same way.

Results: `Relocated.of_moved`, where it is enough to look at the objects that are reachable
before the collection.
-/

namespace WinVm.Memory

open WinVm.Lib

/-- The object graph: an object's successors are the objects its slots name. -/
def Universe.graph (u : Universe) : Rooted Nat where
  root t := oopAt t ∈ u.roots ++ u.codeWords
  edge a t := ∃ off ∈ slotsAt u.mem a, u.mem (a + off) = oopAt t

/-- What a word becomes when the objects move. -/
def imageWord (image : Nat → Nat) (w : Nat) : Nat :=
  if IsMem w then oopAt (image (memAddr w)) else w

/-- Where an object is found, by what its header became. -/
def imageOf (mem : Mem) (a : Nat) : Nat := if IsMem (mem a) then memAddr (mem a) else a

/-- The object at `a` is found again at its image; `keeps` is what becomes of its mark. -/
structure Moved (keeps : Nat → Nat → Prop) (mem mem' : Mem) (image : Nat → Nat) (a : Nat) :
    Prop where
  size : sizeAt mem' (image a) = sizeAt mem a
  slots : slotsAt mem' (image a) = slotsAt mem a
  fields : ∀ off ∈ slotsAt mem a, mem' (image a + off) = imageWord image (mem (a + off))
  raw : ∀ off, 1 ≤ off → off < sizeAt mem a → off ∉ slotsAt mem a →
    mem' (image a + off) = mem (a + off)
  mark : keeps (mem a) (mem' (image a))

/-- The second heap holds an isomorphic copy of what is reachable in the first. -/
structure Relocated (keeps : Nat → Nat → Prop) (u u' : Universe) (image : Nat → Nat) : Prop where
  roots : u'.roots = u.roots.map (imageWord image)
  codeRoots : u'.codeRoots = u.codeRoots.map fun r => r.setWord (imageWord image r.word)
  moved : ∀ a, u.graph.Reachable a → Moved keeps u.mem u'.mem image a
  injective : ∀ a b, u.graph.Reachable a → u.graph.Reachable b → image a = image b → a = b
  reachable : ∀ b, u'.graph.Reachable b ↔ ∃ a, u.graph.Reachable a ∧ image a = b

variable {u u' : Universe} {objs : Objects} {image : Nat → Nat} {keeps : Nat → Nat → Prop}

theorem WfHeap.wfWord_slot (h : WfHeap u objs) {a off : Nat} (ha : IsObject objs a)
    (hoff : off ∈ slotsAt u.mem a) : WfWord (IsObject objs) (u.mem (a + off)) :=
  (h.object a ha).slots off hoff

/-- An oop that is a root or in a slot names an object. -/
theorem isObject_of_wfWord {w t : Nat} (h : WfWord (IsObject objs) w) (hw : w = oopAt t) :
    IsObject objs t := by
  rcases h with hs | ⟨s, rfl, hs⟩
  · rw [hw] at hs
    exact absurd (isMem_oopAt t) (not_isMem_of_isSmi hs)
  · exact oopAt_injective hw ▸ hs

theorem WfHeap.isObject_of_reachable (h : WfHeap u objs) {a : Nat} (ha : u.graph.Reachable a) :
    IsObject objs a := by
  refine ha.closed (P := IsObject objs) (fun t ht => isObject_of_wfWord (h.roots _ ht) rfl) ?_
  rintro b t hb ⟨off, hoff, hw⟩
  exact isObject_of_wfWord (h.wfWord_slot hb hoff) hw

theorem imageWord_oopAt (t : Nat) : imageWord image (oopAt t) = oopAt (image t) := by
  unfold imageWord
  rw [if_pos (isMem_oopAt t), memAddr_oopAt]

theorem imageWord_of_not_isMem {w : Nat} (h : ¬ IsMem w) : imageWord image w = w := if_neg h

theorem imageWord_eq_oopAt {w b : Nat} (h : WfWord (IsObject objs) w) :
    imageWord image w = oopAt b ↔ ∃ a, w = oopAt a ∧ image a = b := by
  rcases h with hs | ⟨t, rfl, -⟩
  · have hn := not_isMem_of_isSmi hs
    rw [imageWord_of_not_isMem hn]
    constructor
    · rintro rfl
      exact absurd (isMem_oopAt b) hn
    · rintro ⟨a, rfl, -⟩
      exact absurd (isMem_oopAt a) hn
  · rw [imageWord_oopAt]
    constructor
    · exact fun heq => ⟨t, rfl, oopAt_injective heq⟩
    · rintro ⟨a, heq, rfl⟩
      rw [oopAt_injective heq]

/-- It is enough to move the objects that were reachable. -/
theorem Relocated.of_moved (h : WfHeap u objs) (hroots : u'.roots = u.roots.map (imageWord image))
    (hcode : u'.codeRoots = u.codeRoots.map fun r => r.setWord (imageWord image r.word))
    (hmoved : ∀ a, u.graph.Reachable a → Moved keeps u.mem u'.mem image a)
    (hinj : ∀ a b, u.graph.Reachable a → u.graph.Reachable b → image a = image b → a = b) :
    Relocated keeps u u' image := by
  refine ⟨hroots, hcode, hmoved, hinj, Rooted.Moves.reachable_iff ⟨fun b => ?_, fun a ha b => ?_⟩⟩
  · have hwords : u'.codeWords = u.codeWords.map (imageWord image) := by
      unfold Universe.codeWords
      rw [hcode, List.map_map, List.map_map]
      rfl
    change oopAt b ∈ u'.roots ++ u'.codeWords ↔ ∃ a, oopAt a ∈ u.roots ++ u.codeWords ∧ image a = b
    rw [hroots, hwords, ← List.map_append, List.mem_map]
    constructor
    · rintro ⟨w, hw, heq⟩
      obtain ⟨a, rfl, hab⟩ := (imageWord_eq_oopAt (h.roots w hw)).mp heq
      exact ⟨a, hw, hab⟩
    · rintro ⟨a, ha, rfl⟩
      exact ⟨_, ha, imageWord_oopAt a⟩
  · have hobj := h.isObject_of_reachable ha
    change (∃ off ∈ slotsAt u'.mem (image a), u'.mem (image a + off) = oopAt b) ↔
      ∃ a', (∃ off ∈ slotsAt u.mem a, u.mem (a + off) = oopAt a') ∧ image a' = b
    rw [(hmoved a ha).slots]
    constructor
    · rintro ⟨off, hoff, hw⟩
      rw [(hmoved a ha).fields off hoff] at hw
      obtain ⟨a', hw', rfl⟩ := (imageWord_eq_oopAt (h.wfWord_slot hobj hoff)).mp hw
      exact ⟨a', ⟨off, hoff, hw'⟩, rfl⟩
    · rintro ⟨a', ⟨off, hoff, hw⟩, rfl⟩
      refine ⟨off, hoff, ?_⟩
      rw [(hmoved a ha).fields off hoff, hw, imageWord_oopAt]

end WinVm.Memory
