import WinVm.Memory.Allocation

/-!
# Stores of the mutator

A word stored into a slot of an object keeps the heap well-formed, if it does not hide a young
object from the scavenger: a store into old gen of an oop into new gen needs the slot's card
dirty. `store` and `post_write_barrier` see to it.

The mutator also writes into headers: an identity hash goes into the mark when it is first asked
for.

Results: `WfHeap.write`, `WfHeap.store`, `WfHeap.barrier`, `WfHeap.identityHash`.
-/

namespace WinVm.Memory

open WinVm.Lib

variable {u u' : Universe} {objs : Objects} {a off v : Nat}

/-! ## A word in an object -/

/-- A word that gives no object its shape: no klass field, no size slot, and no format or size field
of a klass. -/
structure PlainWord (mem : Mem) (a off : Nat) : Prop where
  noKlass : off ≠ 1
  inside : off < sizeAt mem a
  noSize : ∀ f, formatAt mem (klassAt mem a) = some f → f.hasSizeSlot = true →
    off ≠ nisAt mem (klassAt mem a)
  noShape : formatAt mem (klassAt mem a) = some .klass → off ≠ 2 ∧ off ≠ 3

/-- A slot behind the header that is no format or size field of a klass. -/
def BodySlot (mem : Mem) (a off : Nat) : Prop :=
  off ∈ slotsAt mem a ∧ 2 ≤ off ∧ (formatAt mem (klassAt mem a) = some .klass → 4 ≤ off)

theorem WfObject.tailStart {isObj : Nat → Prop} (h : WfObject u.mem isObj a) :
    u.tailStart a = some (a + nisAt u.mem (klassAt u.mem a) + 1) := by
  unfold Universe.tailStart
  simp only [h.klassOop, h.klass.nonIndexableSize, Option.bind_eq_bind, Option.bind_some]

theorem WfObject.plainWord {isObj : Nat → Prop} {mem : Mem} (h : WfObject mem isObj a)
    (slot : BodySlot mem a off) : PlainWord mem a off := by
  obtain ⟨mem, behind, noShape⟩ := slot
  refine ⟨by omega, (h.slot_bounds mem).2, ?_, fun klass => ?_⟩
  · rintro f - - rfl
    exact h.nisAt_not_mem_slotsAt mem
  · have := noShape klass
    omega

/-- A store that does not hide a young object. -/
def Universe.Recorded (u : Universe) (a off v : Nat) : Prop :=
  u.old.start ≤ a → IsMem v → memAddr v < u.old.start → u.dirty (u.cardIndex (a + off)) = true

namespace WfHeap

variable (h : WfHeap u objs)
include h

theorem old_ge (ha : a ∈ objs .old) : u.old.start ≤ a := ((h.tiles .old).bounds ha).1

section

variable (object : IsObject objs a) (plain : PlainWord u.mem a off)
include object plain

/-- The words that give the objects their shape stay as they are. -/
theorem write_word {b o : Nat} (hb : IsObject objs b) (ho : o < sizeAt u.mem b)
    (ne : a = b → off ≠ o) : (u.write (a + off) v).mem (b + o) = u.mem (b + o) := by
  refine Function.update_of_ne (fun same => ?_) _ _
  by_cases hab : a = b
  · subst hab
    exact ne rfl (Nat.add_left_cancel same).symm
  · exact h.words_ne object hb hab plain.inside ho same.symm

theorem write_klassAt {b : Nat} (hb : IsObject objs b) :
    (u.write (a + off) v).mem (b + 1) = u.mem (b + 1) ∧
      klassAt (u.write (a + off) v).mem b = klassAt u.mem b := by
  have two := (h.object b hb).two_le_sizeAt
  have word := h.write_word object plain hb (o := 1) (v := v) (by omega)
    fun _ => plain.noKlass
  exact ⟨word, by unfold klassAt; rw [word]⟩

theorem write_klass {k : Nat} (hk : IsObject objs k) (wf : WfKlass u.mem k) :
    formatAt (u.write (a + off) v).mem k = formatAt u.mem k ∧
      (u.write (a + off) v).mem (k + 3) = u.mem (k + 3) := by
  have size := klass_size_ge wf
  unfold klassSizeWords at size
  have format : (u.write (a + off) v).mem (k + 2) = u.mem (k + 2) := by
    refine h.write_word object plain hk (by omega) ?_
    rintro rfl
    exact (plain.noShape wf.metaFormat).1
  have nis : (u.write (a + off) v).mem (k + 3) = u.mem (k + 3) := by
    refine h.write_word object plain hk (by omega) ?_
    rintro rfl
    exact (plain.noShape wf.metaFormat).2
  refine ⟨?_, nis⟩
  unfold formatAt
  rw [format]

theorem write_wfKlass {k : Nat} (hk : IsObject objs k) (wf : WfKlass u.mem k) :
    WfKlass (u.write (a + off) v).mem k := by
  obtain ⟨format, nis⟩ := h.write_klass object plain (v := v) hk wf
  obtain ⟨klassWord, klass⟩ := h.write_klassAt object plain (v := v) hk
  have meta' := (h.object k hk).klass
  have metaObject := (h.object k hk).klassObj
  obtain ⟨metaFormat, metaNis⟩ := h.write_klass object plain (v := v) metaObject meta'
  refine ⟨?_, ?_, ?_, ?_, ?_, ?_⟩
  · rw [format]
    exact wf.format
  · rw [nis]
    exact wf.nisSmi
  · unfold nisAt
    rw [nis]
    exact wf.nis_ge
  · rw [klassWord, klass]
    exact wf.klassWord
  · rw [klass, metaFormat]
    exact wf.metaFormat
  · unfold nisAt
    rw [klass, metaNis]
    exact wf.metaNis

theorem write_len {b : Nat} {f : Format} (hb : IsObject objs b)
    (format : formatAt u.mem (klassAt u.mem b) = some f) (sized : f.hasSizeSlot = true) :
    (u.write (a + off) v).mem (b + nisAt u.mem (klassAt u.mem b)) =
      u.mem (b + nisAt u.mem (klassAt u.mem b)) := by
  refine h.write_word object plain hb ((h.object b hb).nisAt_lt_sizeAt format sized) ?_
  rintro rfl
  exact plain.noSize f format sized

theorem write_shape {b : Nat} (hb : IsObject objs b) :
    sizeAt (u.write (a + off) v).mem b = sizeAt u.mem b ∧
      slotsAt (u.write (a + off) v).mem b = slotsAt u.mem b := by
  have wf := h.object b hb
  obtain ⟨-, klass⟩ := h.write_klassAt object plain (v := v) hb
  obtain ⟨format, nis⟩ := h.write_klass object plain (v := v) wf.klassObj wf.klass
  obtain ⟨f, hf⟩ := wf.klass.format
  have nisAt_eq : nisAt (u.write (a + off) v).mem (klassAt u.mem b) = nisAt u.mem (klassAt u.mem b) := by
    unfold nisAt
    rw [nis]
  have len : f.hasSizeSlot = true → lenAt (u.write (a + off) v).mem b = lenAt u.mem b := by
    intro sized
    unfold lenAt
    rw [klass, nisAt_eq, h.write_len object plain hb hf sized]
  unfold sizeAt slotsAt
  rw [klass, format, hf, nisAt_eq]
  simp only [Format.sizeWords_congr len, Format.tailOffsets_congr len, and_self]

theorem write_mark (mark : off = 0 → Mark.IsMark v ∧ Mark.gcMark v = 0) {b : Nat}
    (hb : IsObject objs b) : Mark.IsMark ((u.write (a + off) v).mem b) ∧
      Mark.gcMark ((u.write (a + off) v).mem b) = 0 := by
  have wf := h.object b hb
  have two := wf.two_le_sizeAt
  by_cases same : a = b ∧ off = 0
  · obtain ⟨rfl, rfl⟩ := same
    have stored : (u.write (a + 0) v).mem a = v := Function.update_self _ _ _
    rw [stored]
    exact mark rfl
  · have kept := h.write_word object plain hb (o := 0) (v := v) (by omega) fun owner first =>
      same ⟨owner, first⟩
    rw [Nat.add_zero] at kept
    rw [kept]
    exact ⟨wf.mark, wf.notMarked⟩

theorem write_object (mark : off = 0 → Mark.IsMark v ∧ Mark.gcMark v = 0)
    (word : off ∈ slotsAt u.mem a → WfWord (IsObject objs) v) {b : Nat} (hb : IsObject objs b) :
    WfObject (u.write (a + off) v).mem (IsObject objs) b := by
  have wf := h.object b hb
  obtain ⟨isMark, notMarked⟩ := h.write_mark object plain mark hb
  obtain ⟨klassWord, klass⟩ := h.write_klassAt object plain (v := v) hb
  obtain ⟨format, nis⟩ := h.write_klass object plain (v := v) wf.klassObj wf.klass
  refine ⟨isMark, notMarked, ?_, ?_, ?_, ?_, fun o ho => ?_⟩
  · rw [klassWord, klass]
    exact wf.klassWord
  · rw [klass]
    exact wf.klassObj
  · rw [klass]
    exact h.write_wfKlass object plain wf.klassObj wf.klass
  · intro f hf sized
    rw [klass, format] at hf
    have nisAt_eq : nisAt (u.write (a + off) v).mem (klassAt u.mem b) =
        nisAt u.mem (klassAt u.mem b) := by
      unfold nisAt
      rw [nis]
    rw [klass, nisAt_eq, h.write_len object plain hb hf sized]
    exact wf.lenSmi f hf sized
  · rw [(h.write_shape object plain hb).2] at ho
    by_cases same : a + off = b + o
    · have owner : a = b := by
        by_contra ne
        exact h.words_ne object hb ne plain.inside (wf.slot_bounds ho).2 same
      subst owner
      obtain rfl := Nat.add_left_cancel same
      show WfWord (IsObject objs) (Function.update u.mem (a + off) v (a + off))
      rw [Function.update_self]
      exact word ho
    · show WfWord (IsObject objs) (Function.update u.mem (a + off) v (b + o))
      rw [Function.update_of_ne (Ne.symm same)]
      exact wf.slots o ho

/-- A word of an object; what goes into a slot is smi or oop, and hides no young object. -/
theorem write (mark : off = 0 → Mark.IsMark v ∧ Mark.gcMark v = 0)
    (word : off ∈ slotsAt u.mem a → WfWord (IsObject objs) v)
    (recorded : off ∈ slotsAt u.mem a → u.Recorded a off v) :
    WfHeap (u.write (a + off) v) objs := by
  refine ⟨h.spaces.of_eq rfl rfl rfl rfl, fun r => ?_, h.toEmpty, ?_, h.roots, ?_, ?_, h.noStall,
    h.gcEnabled⟩
  · refine (h.tiles r).congr fun b hb => ?_
    exact (h.write_shape object plain ⟨r, hb⟩).1
  · exact fun b hb => h.write_object object plain mark word hb
  · intro b hb o ho isMem young
    rw [(h.write_shape object plain ⟨_, hb⟩).2] at ho
    by_cases same : a + off = b + o
    · -- the slot written
      have inside := ((h.object b ⟨_, hb⟩).slot_bounds ho).2
      have owner : a = b := by
        by_contra ne
        exact h.words_ne object ⟨_, hb⟩ ne plain.inside inside same
      subst owner
      obtain rfl := Nat.add_left_cancel same
      have stored : (u.write (a + off) v).mem (a + off) = v := Function.update_self _ _ _
      rw [stored] at isMem young
      exact recorded ho (h.old_ge hb) isMem young
    · have kept : (u.write (a + off) v).mem (b + o) = u.mem (b + o) :=
        Function.update_of_ne (Ne.symm same) _ _
      rw [kept] at isMem young
      exact h.remembered b hb o ho isMem young
  · have resolves : u.Resolves (sizeAt (u.write (a + off) v).mem) (objs .old) :=
      h.resolves.congr fun b hb => (h.write_shape object plain ⟨_, hb⟩).1
    exact resolves.of_offsets rfl rfl rfl

end

/-- A word in a slot, unless it hides a young object. -/
theorem write_slot (object : IsObject objs a) (slot : BodySlot u.mem a off)
    (word : WfWord (IsObject objs) v) (recorded : u.Recorded a off v) :
    WfHeap (u.write (a + off) v) objs :=
  h.write object ((h.object a object).plainWord slot)
    (fun first => absurd slot.2.1 (by omega)) (fun _ => word) fun _ => recorded

/-! ## Cards -/

/-- More dirty cards do no harm. -/
theorem dirtier {dirty : Nat → Bool} (more : ∀ i, u.dirty i = true → dirty i = true) :
    WfHeap { u with dirty := dirty } objs :=
  ⟨h.spaces.of_eq rfl rfl rfl rfl, h.tiles, h.toEmpty, h.object, h.roots,
    fun b hb o ho isMem young => more _ (h.remembered b hb o ho isMem young),
    h.resolves.of_offsets rfl rfl rfl, h.noStall, h.gcEnabled⟩

/-! ## The stores of the source -/

theorem store {wordOffset : Nat} (object : IsObject objs a) (slot : BodySlot u.mem a (2 + wordOffset))
    (word : WfWord (IsObject objs) v) : WfHeap (u.store a wordOffset v) objs := by
  have place : a + 2 + wordOffset = a + (2 + wordOffset) := Nat.add_assoc _ _ _
  unfold Universe.store
  dsimp only
  rw [place]
  split
  · -- the card first, then the word
    have dirty : WfHeap (u.dirtyForSlot (a + (2 + wordOffset))) objs := h.dirtier fun i hi => by
      by_cases same : i = u.cardIndex (a + (2 + wordOffset))
      · rw [same, Function.update_self]
      · rw [Function.update_of_ne same]
        exact hi
    exact dirty.write_slot object slot word fun _ _ _ => Function.update_self _ _ _
  · rename_i clean
    exact h.write_slot object slot word fun old isMem young => absurd ⟨old, isMem, young⟩ clean

theorem storeTailOop {i : Nat} (object : IsObject objs a)
    (slot : BodySlot u.mem a (nisAt u.mem (klassAt u.mem a) + 1 + i)) (word : WfWord (IsObject objs) v)
    (stored : u.storeTailOop a i v = some u') : WfHeap u' objs := by
  have wf := h.object a object
  have nis := wf.klass.nis_ge
  unfold Universe.storeTailOop at stored
  rw [wf.tailStart] at stored
  cases stored
  have offset : 2 + (a + nisAt u.mem (klassAt u.mem a) + 1 - (a + 2) + i) =
      nisAt u.mem (klassAt u.mem a) + 1 + i := by omega
  exact h.store object (offset ▸ slot) word

/-- The cards of an object. -/
theorem recordMultistores (lo hi : Nat) : WfHeap (u.recordMultistores lo hi) objs := by
  obtain ⟨dirty, same, more⟩ := Universe.recordMultistores_eq u lo hi
  rw [same]
  exact h.dirtier more

end WfHeap

/-- Words stored behind an address, one after the other. -/
def storeWords (mem : Mem) (a : Nat) (words : List (Nat × Nat)) : Mem :=
  words.foldl (fun mem w => Function.update mem (a + w.1) w.2) mem

/-- Words written into the body of an object, without a barrier. -/
def Universe.rawWrites (u : Universe) (a : Nat) (words : List (Nat × Nat)) : Universe :=
  { u with mem := storeWords u.mem a words }

theorem recordMultistores_rawWrites (words : List (Nat × Nat)) (lo hi : Nat) :
    (u.rawWrites a words).recordMultistores lo hi = (u.recordMultistores lo hi).rawWrites a words := by
  unfold Universe.recordMultistores
  by_cases empty : hi ≤ lo
  · rw [if_pos empty, if_pos empty]
  · rw [if_neg empty, if_neg empty]
    rfl

/-- Raw writes into an object that is young, or all of whose cards are dirty. -/
theorem WfHeap.rawWrites (h : WfHeap u objs) (object : IsObject objs a)
    (dirty : u.old.start ≤ a → ∀ off < sizeAt u.mem a, u.dirty (u.cardIndex (a + off)) = true)
    {words : List (Nat × Nat)} (slots : ∀ w ∈ words, BodySlot u.mem a w.1)
    (wf : ∀ w ∈ words, WfWord (IsObject objs) w.2) :
    WfHeap (u.rawWrites a words) objs ∧ sizeAt (u.rawWrites a words).mem a = sizeAt u.mem a := by
  induction words generalizing u with
  | nil => exact ⟨h, rfl⟩
  | cons w words ih =>
    obtain ⟨off, v⟩ := w
    have slot := slots _ List.mem_cons_self
    have inside := ((h.object a object).slot_bounds slot.1).2
    have first := h.write_slot object slot (wf _ List.mem_cons_self) fun old _ _ => dirty old off inside
    have plain := (h.object a object).plainWord slot
    obtain ⟨size, slotsEq⟩ := h.write_shape object plain (v := v) object
    obtain ⟨-, klass⟩ := h.write_klassAt object plain (v := v) object
    obtain ⟨format, -⟩ := h.write_klass object plain (v := v) (h.object a object).klassObj
      (h.object a object).klass
    have rest := ih first (fun old o ho => dirty old o (size ▸ ho))
      (fun w mem => by
        unfold BodySlot
        rw [slotsEq, klass, format]
        exact slots w (List.mem_cons_of_mem _ mem))
      fun w mem => wf w (List.mem_cons_of_mem _ mem)
    exact ⟨rest.1, rest.2.trans size⟩

/-- Raw writes into an object, and `post_write_barrier` of it. -/
theorem WfHeap.barrier (h : WfHeap u objs) (object : IsObject objs a) {words : List (Nat × Nat)}
    (slots : ∀ w ∈ words, BodySlot u.mem a w.1) (wf : ∀ w ∈ words, WfWord (IsObject objs) w.2)
    (done : (u.rawWrites a words).postWriteBarrier a = some u') : WfHeap u' objs := by
  unfold Universe.postWriteBarrier at done
  split at done
  · -- the barrier first, then the words
    have marked := h.recordMultistores a (a + sizeAt u.mem a)
    have same : (u.recordMultistores a (a + sizeAt u.mem a)).mem = u.mem ∧
        (u.recordMultistores a (a + sizeAt u.mem a)).old = u.old := by
      unfold Universe.recordMultistores
      split <;> exact ⟨rfl, rfl⟩
    obtain ⟨written, size⟩ := marked.rawWrites object
      (fun _ off inside => by
        rw [same.1] at inside
        unfold Universe.cardIndex
        rw [same.2]
        exact Universe.recordMultistores_dirty u (a + off) a (a + sizeAt u.mem a) (Nat.le_add_right _ _)
          (Nat.add_lt_add_left inside _))
      (by rwa [same.1]) wf
    rw [same.1] at size
    have words_eq := (written.object a object).instanceSizeWords
    rw [size, ← recordMultistores_rawWrites] at words_eq
    rw [show ((u.rawWrites a words).recordMultistores a (a + sizeAt u.mem a)).mem =
      (u.rawWrites a words).mem by unfold Universe.recordMultistores; split <;> rfl] at words_eq
    change Option.bind (instanceSizeWords (u.rawWrites a words).mem a) _ = _ at done
    rw [words_eq] at done
    cases done
    rw [recordMultistores_rawWrites]
    exact written
  · cases done
    rename_i young
    exact (h.rawWrites object (fun old => absurd old young) slots wf).1

/-! ## Identity hashes -/

namespace Mark

def withHash (w h : Nat) : Nat := w - 4096 * hash w + 4096 * h

theorem withHash_eq {w h : Nat} (bound : h < 2 ^ 32) (mark : IsMark w) :
    IsMark (withHash w h) ∧ hash (withHash w h) = h ∧ gcMark (withHash w h) = gcMark w := by
  unfold IsMark at mark
  unfold withHash IsMark hash gcMark
  omega

end Mark

/-- `next_hash`: the counter is 32 bits wide and skips 0. -/
def nextHash (counter : Nat) : Nat :=
  let next := (counter + 1) % 2 ^ 32
  if next = 0 then 1 else next

theorem nextHash_bounds (counter : Nat) : nextHash counter ≠ 0 ∧ nextHash counter < 2 ^ 32 := by
  unfold nextHash
  dsimp only
  split <;> omega

/-- The hash of a smi, of its value. -/
def smiHash (w : Nat) : Nat :=
  let v := (BitVec.ofNat 64 w).sshiftRight 2
  (v.setWidth 32 ^^^ (v.sshiftRight 32).setWidth 32).toNat

/-- `identity_hash`, with the counter before and after; 0 in a mark is no hash yet. -/
def Universe.identityHash (u : Universe) (counter w : Nat) : Option (Universe × Nat × Nat) :=
  if IsSmi w then some (u, counter, smiHash w)
  else if IsMem w then
    let mark := u.mem (memAddr w)
    if Mark.hash mark = 0 then
      let h := nextHash counter
      some (u.write (memAddr w) (Mark.withHash mark h), h, h)
    else some (u, counter, Mark.hash mark)
  else none

theorem Universe.identityHash_oopAt (u : Universe) (counter a : Nat) :
    u.identityHash counter (oopAt a) = if Mark.hash (u.mem a) = 0 then
      some (u.write a (Mark.withHash (u.mem a) (nextHash counter)), nextHash counter,
        nextHash counter)
      else some (u, counter, Mark.hash (u.mem a)) := by
  unfold Universe.identityHash
  rw [if_neg fun smi => not_isMem_of_isSmi smi (isMem_oopAt a), if_pos (isMem_oopAt a), memAddr_oopAt]

theorem WfObject.plainMark {isObj : Nat → Prop} {mem : Mem} (h : WfObject mem isObj a) :
    PlainWord mem a 0 := by
  have two := h.two_le_sizeAt
  have nis := h.klass.nis_ge
  exact ⟨by decide, by omega, fun _ _ _ => by omega, fun _ => by decide⟩

/-- Asking for an identity hash keeps the heap well-formed, and a hash that is there. -/
theorem WfHeap.identityHash (h : WfHeap u objs) {counter counter' w hash : Nat}
    (word : WfWord (IsObject objs) w) (asked : u.identityHash counter w = some (u', counter', hash)) :
    WfHeap u' objs ∧ (u'.roots = u.roots ∧ u'.old = u.old) ∧
      ∀ a, Mark.hash (u.mem a) ≠ 0 → u'.mem a = u.mem a := by
  rcases word with isSmi | ⟨t, rfl, object⟩
  · unfold Universe.identityHash at asked
    rw [if_pos isSmi] at asked
    cases asked
    exact ⟨h, ⟨rfl, rfl⟩, fun _ _ => rfl⟩
  · rw [Universe.identityHash_oopAt] at asked
    split at asked
    · rename_i unset
      cases asked
      have wf := h.object t object
      obtain ⟨isMark, -, gcMark⟩ := Mark.withHash_eq (nextHash_bounds counter).2 wf.mark
      have slots : (0 : Nat) ∉ slotsAt u.mem t := fun mem => absurd (wf.slot_bounds mem).1 (by decide)
      have written := h.write (v := Mark.withHash (u.mem t) (nextHash counter)) object wf.plainMark
        (fun _ => ⟨isMark, gcMark.trans wf.notMarked⟩) (fun slot => absurd slot slots)
        fun slot => absurd slot slots
      refine ⟨written, ⟨rfl, rfl⟩, fun a set => Function.update_of_ne ?_ _ _⟩
      rintro rfl
      exact set unset
    · cases asked
      exact ⟨h, ⟨rfl, rfl⟩, fun _ _ => rfl⟩

end WinVm.Memory
