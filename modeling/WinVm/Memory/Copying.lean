import WinVm.Memory.Heap
import WinVm.Memory.Scavenge
import WinVm.Memory.Simulation

/-!
# Copies and originals

The memory of a scavenge under way, as far as it concerns objects: young originals keep their
bodies, a forwarded header names the copy, and every settled object (a copy, or an object of
old gen) holds what its original held, each oop replaced by some stand-in of its target.

Results: `Copied.simulates`, all of this is a simulation of the memory the scavenge started
from; `Copied.add`, one more object may be copied.
-/

namespace WinVm.Memory

open WinVm.Lib

/-- An object stands for itself and, once forwarded, so does its copy. -/
def Stands (objs : Objects) (mem : Mem) (a a' : Nat) : Prop :=
  IsObject objs a ∧ (a' = a ∨ (IsYoung objs a ∧ mem a = oopAt a'))

theorem Stands.refl {objs : Objects} {mem : Mem} {a : Nat} (h : IsObject objs a) :
    Stands objs mem a a :=
  ⟨h, Or.inl rfl⟩

/-- A word of a well-formed heap still stands for itself. -/
theorem WfWord.wordSim_self {objs : Objects} {mem : Mem} {w : Nat}
    (h : WfWord (IsObject objs) w) : WordSim (Stands objs mem) w w := by
  rcases h with h | ⟨t, rfl, ht⟩
  · exact .same (not_isMem_of_isSmi h)
  · exact .oop (.refl ht)

/-- The objects of a memory `mem`, compared with those of the memory `mem0` before. -/
structure Copied (objs : Objects) (mem0 mem : Mem) (settled : Nat → Prop) (orig : Nat → Nat) :
    Prop where
  olds : ∀ a ∈ objs .old, settled a ∧ orig a = a
  header : ∀ a, IsYoung objs a →
    mem a = mem0 a ∨ ∃ c, settled c ∧ orig c = a ∧ mem a = oopAt c
  forwarded : ∀ c, settled c → c ∈ objs .old ∨ (IsYoung objs (orig c) ∧ mem (orig c) = oopAt c)
  body : ∀ a, IsYoung objs a → ∀ off, 1 ≤ off → off < sizeAt mem0 a →
    mem (a + off) = mem0 (a + off)
  sim : ∀ c, settled c → ObjSim mem0 mem (Stands objs mem) (orig c) c
  mark : ∀ c, settled c → Mark.SameIdentity (mem0 (orig c)) (mem c)

namespace Copied

variable {objs : Objects} {mem0 mem mem' : Mem} {settled : Nat → Prop} {orig : Nat → Nat}
variable (hwf : ∀ a, IsObject objs a → WfObject mem0 (IsObject objs) a)
variable (hto : objs .toSpace = [])
variable (h : Copied objs mem0 mem settled orig)

include hto in
theorem young_or_old {a : Nat} (ha : IsObject objs a) : IsYoung objs a ∨ a ∈ objs .old := by
  obtain ⟨r, hr⟩ := ha
  cases r with
  | eden => exact Or.inl (Or.inl hr)
  | fromSpace => exact Or.inl (Or.inr hr)
  | toSpace => rw [hto] at hr; cases hr
  | old => exact Or.inr hr

include h

theorem orig_stands {c : Nat} (hc : settled c) : Stands objs mem (orig c) c := by
  rcases h.forwarded c hc with hold | ⟨hy, hw⟩
  · rw [(h.olds c hold).2]
    exact .refl ⟨_, hold⟩
  · exact ⟨hy.isObject, Or.inr ⟨hy, hw⟩⟩

include hwf in
/-- What a header names is a settled copy. -/
theorem settled_of_forwarded {a c : Nat} (ha : IsYoung objs a) (hw : mem a = oopAt c) :
    settled c ∧ orig c = a := by
  rcases h.header a ha with hsame | ⟨c', hc', ho, hw'⟩
  · rw [hsame] at hw
    exact absurd (hw ▸ isMem_oopAt c) (Mark.not_isMem (hwf a ha.isObject).mark)
  · have : c' = c := oopAt_injective (hw'.symm.trans hw)
    exact this ▸ ⟨hc', ho⟩

include hwf hto in
/-- Every stand-in holds what the object held. -/
theorem simulates : Sim mem0 mem (Stands objs mem) := by
  rintro a a' ⟨ha, rfl | ⟨hy, hw⟩⟩
  · rcases young_or_old hto ha with hy | hold
    · refine ⟨fun off hoff => ?_, fun off h1 h2 _ => h.body a' hy off h1 h2⟩
      obtain ⟨h1, h2⟩ := (hwf a' ha).slot_bounds hoff
      rw [h.body a' hy off h1 h2]
      exact ((hwf a' ha).slots off hoff).wordSim_self
    · obtain ⟨hs, ho⟩ := h.olds a' hold
      have := h.sim a' hs
      rwa [ho] at this
  · obtain ⟨hs, ho⟩ := h.settled_of_forwarded hwf hy hw
    have := h.sim a' hs
    rwa [ho] at this

omit h in
theorem stands_dom : ∀ a a', Stands objs mem a a' → IsObject objs a := fun _ _ hs => hs.1

include hwf hto in
/-- The size of a young object, read while it is still in place. -/
theorem objectSizeForCopy {a : Nat} (ha : IsYoung objs a) :
    objectSizeForCopy mem a = some (sizeAt mem0 a) := by
  have hobj := hwf a ha.isObject
  have hsim := h.simulates hwf hto
  have hword : mem (a + 1) = oopAt (klassAt mem0 a) := by
    rw [h.body a ha 1 (Nat.le_refl 1) hobj.two_le_sizeAt]
    exact hobj.klassWord
  -- the klass itself or, if it was copied already, its copy
  have hk : ∃ k', effectiveKlass mem (oopAt (klassAt mem0 a)) = some k' ∧
      Stands objs mem (klassAt mem0 a) k' := by
    unfold effectiveKlass
    rw [if_pos (isMem_oopAt _), memAddr_oopAt]
    by_cases hf : IsMem (mem (klassAt mem0 a))
    · rw [if_pos hf]
      rcases young_or_old hto hobj.klassObj with hy | hold
      · rcases h.header _ hy with hsame | ⟨c, -, -, hw⟩
        · rw [hsame] at hf
          exact absurd hf (Mark.not_isMem (hwf _ hobj.klassObj).mark)
        · have hst : Stands objs mem (klassAt mem0 a) c := ⟨hobj.klassObj, Or.inr ⟨hy, hw⟩⟩
          rw [hw]
          exact ⟨c, (hsim.wfKlass hwf stands_dom hst hobj.klass).klassOop, hst⟩
      · obtain ⟨hs, -⟩ := h.olds _ hold
        exact absurd hf (Mark.not_isMem (h.mark _ hs).1)
    · rw [if_neg hf]
      have hst : Stands objs mem (klassAt mem0 a) (klassAt mem0 a) := .refl hobj.klassObj
      exact ⟨_, (hsim.wfKlass hwf stands_dom hst hobj.klass).klassOop, hst⟩
  obtain ⟨k', heff, hst⟩ := hk
  unfold Memory.objectSizeForCopy
  rw [hword, heff]
  exact hsim.sizeWordsForKlass hwf stands_dom (.refl ha.isObject) hst

end Copied

/-! ## The two ways the memory changes -/

namespace Copied

variable {objs : Objects} {mem0 mem mem' : Mem} {settled : Nat → Prop} {orig : Nat → Nat}
variable (hwf : ∀ a, IsObject objs a → WfObject mem0 (IsObject objs) a)
variable (h : Copied objs mem0 mem settled orig)
include h

/-- A slot of a settled object is set to a stand-in of what the original holds there. -/
theorem write {c off v : Nat} (hc : settled c) (hoff : off ∈ slotsAt mem0 (orig c))
    (hpos : 1 ≤ off) (hv : WordSim (Stands objs mem) (mem0 (orig c + off)) v)
    (hyoung : ∀ a, IsYoung objs a → ∀ o, o < sizeAt mem0 a → a + o ≠ c + off)
    (hpos' : ∀ a, IsYoung objs a → 0 < sizeAt mem0 a)
    (hother : ∀ c', settled c' → c' ≠ c → ∀ o, o < sizeAt mem0 (orig c') → c' + o ≠ c + off)
    (hsize : ∀ c', settled c' → 0 < sizeAt mem0 (orig c'))
    (hin : ∀ c', settled c' → ∀ o ∈ slotsAt mem0 (orig c'), o < sizeAt mem0 (orig c')) :
    Copied objs mem0 (Function.update mem (c + off) v) settled orig := by
  have hhead : ∀ a, IsYoung objs a → Function.update mem (c + off) v a = mem a := by
    intro a ha
    exact Function.update_of_ne (hyoung a ha 0 (hpos' a ha)) _ _
  have hstands : ∀ a a', Stands objs mem a a' →
      Stands objs (Function.update mem (c + off) v) a a' := by
    rintro a a' ⟨ha, hst⟩
    refine ⟨ha, hst.imp id fun ⟨hy, hw⟩ => ⟨hy, ?_⟩⟩
    rw [hhead a hy]
    exact hw
  refine ⟨h.olds, ?_, ?_, ?_, ?_, ?_⟩
  · intro a ha
    rw [hhead a ha]
    exact h.header a ha
  · intro c' hc'
    refine (h.forwarded c' hc').imp id fun ⟨hy, hw⟩ => ⟨hy, ?_⟩
    rw [hhead _ hy]
    exact hw
  · intro a ha o h1 h2
    rw [Function.update_of_ne (hyoung a ha o h2)]
    exact h.body a ha o h1 h2
  · intro c' hc'
    have hsim := h.sim c' hc'
    by_cases hcc : c' = c
    · subst hcc
      refine ⟨fun o ho => ?_, fun o h1 h2 hn => ?_⟩
      · by_cases hoo : o = off
        · subst hoo
          rw [Function.update_self]
          exact hv.mono hstands
        · rw [Function.update_of_ne (by omega)]
          exact (hsim.slots o ho).mono hstands
      · have hne : c' + o ≠ c' + off := fun heq => hn (Nat.add_left_cancel heq ▸ hoff)
        rw [Function.update_of_ne hne]
        exact hsim.raw o h1 h2 hn
    · refine ⟨fun o ho => ?_, fun o h1 h2 hn => ?_⟩
      · rw [Function.update_of_ne (hother c' hc' hcc o (hin c' hc' o ho))]
        exact (hsim.slots o ho).mono hstands
      · rw [Function.update_of_ne (hother c' hc' hcc o h2)]
        exact hsim.raw o h1 h2 hn
  · intro c' hc'
    rw [Function.update_of_ne]
    · exact h.mark c' hc'
    · by_cases hcc : c' = c
      · omega
      · exact hother c' hc' hcc 0 (hsize c' hc')

include hwf in
/-- A young object is copied to a fresh place and forwarded. -/
theorem add {t dest : Nat} (ht : IsYoung objs t) (hmark0 : mem t = mem0 t)
    (hcopy : ∀ off, 1 ≤ off → off < sizeAt mem0 t → mem' (dest + off) = mem (t + off))
    (hmark : Mark.SameIdentity (mem t) (mem' dest)) (hhead : mem' t = oopAt dest)
    (hframe : ∀ y, y ≠ t → ¬ (dest ≤ y ∧ y < dest + sizeAt mem0 t) → mem' y = mem y)
    (hyoung : ∀ a, IsYoung objs a → ∀ off, off < sizeAt mem0 a →
      ¬ (dest ≤ a + off ∧ a + off < dest + sizeAt mem0 t) ∧ (1 ≤ off → a + off ≠ t))
    (hsettled : ∀ c, settled c → ∀ off, off < sizeAt mem0 (orig c) →
      ¬ (dest ≤ c + off ∧ c + off < dest + sizeAt mem0 t) ∧ c + off ≠ t)
    (hobjSettled : ∀ c, settled c → IsObject objs (orig c)) (hnew : ¬ settled dest) :
    Copied objs mem0 mem' (fun c => settled c ∨ c = dest) (Function.update orig dest t) := by
  have hsize : ∀ a, IsObject objs a → 0 < sizeAt mem0 a := fun a ha =>
    Nat.lt_of_lt_of_le (by decide) (hwf a ha).two_le_sizeAt
  have hold : ∀ c, settled c → Function.update orig dest t c = orig c := by
    intro c hc
    refine Function.update_of_ne ?_ _ _
    rintro rfl
    exact hnew hc
  have hheader : ∀ a, IsYoung objs a → a ≠ t → mem' a = mem a := fun a ha hne =>
    hframe a hne (hyoung a ha 0 (hsize a ha.isObject)).1
  have hbody : ∀ a, IsYoung objs a → ∀ off, 1 ≤ off → off < sizeAt mem0 a →
      mem' (a + off) = mem (a + off) := fun a ha off h1 h2 =>
    hframe _ ((hyoung a ha off h2).2 h1) (hyoung a ha off h2).1
  have hkept : ∀ c, settled c → ∀ off, off < sizeAt mem0 (orig c) → mem' (c + off) = mem (c + off) :=
    fun c hc off h1 => hframe _ (hsettled c hc off h1).2 (hsettled c hc off h1).1
  have htmark : ¬ IsMem (mem t) := hmark0 ▸ Mark.not_isMem (hwf t ht.isObject).mark
  have hstands : ∀ a a', Stands objs mem a a' → Stands objs mem' a a' := by
    rintro a a' ⟨ha, hst⟩
    refine ⟨ha, hst.imp id fun ⟨hy, hw⟩ => ⟨hy, ?_⟩⟩
    rw [hheader a hy fun heq => htmark (heq ▸ hw ▸ isMem_oopAt a')]
    exact hw
  refine ⟨?_, ?_, ?_, ?_, ?_, ?_⟩
  · intro a ha
    obtain ⟨hs, ho⟩ := h.olds a ha
    exact ⟨Or.inl hs, (hold a hs).trans ho⟩
  · intro a ha
    by_cases hat : a = t
    · subst hat
      exact Or.inr ⟨dest, Or.inr rfl, Function.update_self .., hhead⟩
    · rw [hheader a ha hat]
      refine (h.header a ha).imp id ?_
      rintro ⟨c, hc, ho, hw⟩
      exact ⟨c, Or.inl hc, (hold c hc).trans ho, hw⟩
  · rintro c (hc | rfl)
    · rw [hold c hc]
      refine (h.forwarded c hc).imp id fun ⟨hy, hw⟩ => ⟨hy, ?_⟩
      rw [hheader _ hy fun heq => htmark (heq ▸ hw ▸ isMem_oopAt c)]
      exact hw
    · rw [Function.update_self]
      exact Or.inr ⟨ht, hhead⟩
  · intro a ha off h1 h2
    rw [hbody a ha off h1 h2]
    exact h.body a ha off h1 h2
  · rintro c (hc | rfl)
    · rw [hold c hc]
      have hsim := h.sim c hc
      have hobj := hwf _ (hobjSettled c hc)
      refine ⟨fun off hoff => ?_, fun off h1 h2 hn => ?_⟩
      · rw [hkept c hc off (hobj.slot_bounds hoff).2]
        exact (hsim.slots off hoff).mono hstands
      · rw [hkept c hc off h2]
        exact hsim.raw off h1 h2 hn
    · -- the copy's words are those of the original, which still stand for themselves
      rw [Function.update_self]
      have hobj := hwf t ht.isObject
      refine ⟨fun off hoff => ?_, fun off h1 h2 _ => ?_⟩
      · obtain ⟨h1, h2⟩ := hobj.slot_bounds hoff
        rw [hcopy off h1 h2, h.body t ht off h1 h2]
        exact (hobj.slots off hoff).wordSim_self
      · rw [hcopy off h1 h2, h.body t ht off h1 h2]
  · rintro c (hc | rfl)
    · rw [hold c hc]
      have := hkept c hc 0 (hsize _ (hobjSettled c hc))
      rw [Nat.add_zero] at this
      rw [this]
      exact h.mark c hc
    · rw [Function.update_self, ← hmark0]
      exact hmark

end Copied

end WinVm.Memory
