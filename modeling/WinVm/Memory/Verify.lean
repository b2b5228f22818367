import WinVm.Lib.Check
import WinVm.Memory.MutatorRuns

/-!
# The heap verifier

`verify.rs`: the walk over the heap that debug builds, and others on demand, do at every phase
boundary of a collection. A check has no meaning where the source panics. Sizes and lengths are
never negative here.

Results:

* `verifyHeapAt_passes_iff`: what a heap is that the verifier accepts;
* `MutatorRun.verifies`: the verifier accepts every heap of a run, also where its allocations enter
  and leave a scavenge;
* `verifyHeapAt_catches`: a store without a barrier that hides a young object is reported, by the
  slot.
-/

namespace WinVm.Memory

open WinVm.Lib

/-! ## Reports -/

/-- The phase boundaries. -/
inductive VerifyPoint where
  | scavengeEntry
  | scavengeExit
  | fullGcEntry
  | fullGcExit
  | manual
deriving DecidableEq, Repr

def VerifyPoint.text : VerifyPoint → String
  | scavengeEntry => "scavenge-entry"
  | scavengeExit => "scavenge-exit"
  | fullGcEntry => "full-gc-entry"
  | fullGcExit => "full-gc-exit"
  | manual => "manual"

def hex (n : Nat) : String := "0x" ++ String.ofList (Nat.toDigits 16 n)

/-- An address in bytes. -/
def hexAddr (a : Nat) : String := hex (8 * a)

def Format.name : Format → String
  | slots => "Slots"
  | indexableOops => "IndexableOops"
  | indexableBytes => "IndexableBytes"
  | method => "Method"
  | klass => "Klass"
  | double => "Double"
  | closure => "Closure"
  | context => "Context"
  | process => "Process"

/-- Passes, or fails with the text of a `VerifyError`. -/
abbrev Verify (α : Type) := Check String α

/-! ## One object -/

section

variable (debug : Bool)

/-- `Oop::from_raw`: debug builds assert that no reserved or mark tag is read. -/
def fromRaw (w : Nat) : Verify Nat :=
  Check.expect (if debug = true ∧ 2 ≤ w % 4 then none else some w)

/-- `instance_size_words`; a size slot in the header underflows in debug builds. -/
def checkedSize (mem : Mem) (a : Nat) : Option Nat := do
  let k ← klassOop mem (mem (a + 1))
  let nis ← nonIndexableSize mem k
  let f ← formatAt mem k
  if debug = true ∧ f.hasSizeSlot = true ∧ nis < 2 then none else sizeWordsForKlass mem a k

/-- `check_object`; an address is always mem-tagged. -/
def checkObject (mem : Mem) (addr : Nat) : Verify Nat := do
  let word := mem addr
  Check.reject (word % 4 ≠ 3 ∨ word / 4 % 2 = 0) <|
    s!"object at {hexAddr addr} has a malformed mark word {hex word} (forwarding pointer " ++
      "outside a scavenge, or corruption)"
  let klassWord ← fromRaw debug (mem (addr + 1))
  Check.reject (¬ IsMem klassWord) <|
    s!"object at {hexAddr addr} has a non-mem klass field {hex klassWord} (unpatched placeholder?)"
  Check.reject (klassOop mem klassWord = none) <|
    s!"object at {hexAddr addr}'s klass {hex klassWord} is not itself klass-shaped"
  let words ← Check.expect (checkedSize debug mem addr)
  Check.reject (words < 2) <|
    s!"object at {hexAddr addr} claims {words} words, smaller than a header"
  pure words

/-- `body_oop` and what is checked of it. -/
def withOop (mem : Mem) (a : Nat) (check : Nat → Nat → Verify Unit) (off : Nat) : Verify Unit := do
  let w ← fromRaw debug (mem (a + off))
  check off w

/-- The loops over the oops of a body that `check_body_oops` and `verify_cards_vs_heap` make, by
format; a check gets the format, the instance size, where the word is and the word. -/
def forBodyOops (mem : Mem) (a : Nat) (check : Format → Nat → String → Nat → Nat → Verify Unit) :
    Verify Unit := do
  let k ← Check.expect (klassOop mem (mem (a + 1)))
  let nis ← Check.expect (nonIndexableSize mem k)
  let _ ← Check.expect (if nis < 2 then none else some (nis - 2))
  let f ← Check.expect (formatAt mem k)
  (f.namedOffsets nis).forM (withOop debug mem a (check f nis "named field"))
  match f with
  | .indexableOops | .closure | .context =>
    let len ← Check.expect (rawSizeSlot mem a nis)
    (f.tailOffsets nis len).forM (withOop debug mem a (check f nis "tail element"))
  | _ => pure ()

/-- A word that is no oop, or names a word that is in use. -/
def Universe.ValidSlot (u : Universe) (w : Nat) : Prop :=
  ¬ IsMem w ∨ (u.eden.start ≤ memAddr w ∧ memAddr w < u.eden.top) ∨
    (u.fromSpace.start ≤ memAddr w ∧ memAddr w < u.fromSpace.top) ∨
    (u.old.start ≤ memAddr w ∧ memAddr w < u.old.top)

instance (u : Universe) (w : Nat) : Decidable (u.ValidSlot w) := by
  unfold Universe.ValidSlot
  infer_instance

variable (u : Universe) (point : VerifyPoint)

/-- `check_body_oops`. -/
def checkBodyOops (a : Nat) : Verify Unit :=
  forBodyOops debug u.mem a fun _ _ place _ w =>
    Check.reject (¬ u.ValidSlot w) <|
      s!"[{point.text}] object at {hexAddr a} {place} holds {hex w}, not a smi or a live-range oop"

/-- What `verify_cards_vs_heap` says of a slot. -/
def unbarriered (f : Format) (nis a off w : Nat) : String :=
  s!"[{point.text}] old slot {hexAddr (a + off)} (in a {f.name}-format object at {hexAddr a}, " ++
    s!"nis {nis}, slot word #{off}) holds new-gen oop {hex w} but card {u.cardIndex (a + off)} is " ++
    "clean — an unbarriered old-gen writer"

def checkCards (a : Nat) : Verify Unit :=
  forBodyOops debug u.mem a fun f nis _ off w =>
    Check.reject (IsMem w ∧ memAddr w < u.old.start ∧ u.dirty (u.cardIndex (a + off)) = false)
      (unbarriered u point f nis a off w)

/-! ## The heap -/

def verifyRange (start top : Nat) : Verify Unit := do
  let r ← walkBlocks (checkObject debug u.mem) (checkBodyOops debug u point) top (top - start) start
  Check.reject (r.1 ≠ top) <|
    s!"[{point.text}] heap walk ended at {hexAddr r.1}, expected exactly {hexAddr top}"

def verifyCardsVsHeap : Verify Unit := do
  let _ ← walkBlocks (checkObject debug u.mem) (checkCards debug u point) u.old.top
    (u.old.top - u.old.start) u.old.start
  pure ()

def verifyProcessStack (stack : List Nat) : Verify Unit :=
  stack.zipIdx.forM fun slot =>
    Check.reject (¬ u.ValidSlot slot.1) <|
      s!"[{point.text}] process stack slot {slot.2} holds {hex slot.1}, not a smi or a live-range oop"

/-- `verify_heap_at`, with the words of the process stack. -/
def verifyHeapAt (stack : List Nat) : Verify Unit := do
  verifyRange debug u point u.eden.start u.eden.top
  verifyRange debug u point u.fromSpace.start u.fromSpace.top
  verifyRange debug u point u.old.start u.old.top
  verifyCardsVsHeap debug u point
  verifyProcessStack u point stack

end

/-! ## What is accepted -/

/-- The offsets of the oop-bearing words behind the header. -/
def bodyOffsets (mem : Mem) (a : Nat) : List Nat := (slotsAt mem a).tail

/-- Debug builds read no other tags. -/
def Tagged (debug : Bool) (w : Nat) : Prop := debug = true → w % 4 < 2

structure VerifiedObject (debug : Bool) (u : Universe) (a : Nat) : Prop where
  mark : Mark.IsMark (u.mem a)
  size : checkedSize debug u.mem a = some (sizeAt u.mem a)
  header : 2 ≤ sizeAt u.mem a
  nis : 2 ≤ nisAt u.mem (klassAt u.mem a)
  slots : ∀ off ∈ bodyOffsets u.mem a, Tagged debug (u.mem (a + off)) ∧ u.ValidSlot (u.mem (a + off))

/-- The heap is tiled by such objects, and the slots of old gen with young objects lie on dirty
cards. -/
structure Verified (debug : Bool) (u : Universe) (stack : List Nat) (objs : Objects) : Prop where
  tiles : ∀ r, r ≠ .toSpace → Tiles (sizeAt u.mem) (u.start r) (u.top r) (objs r)
  object : ∀ r, r ≠ .toSpace → ∀ a ∈ objs r, VerifiedObject debug u a
  remembered : ∀ a ∈ objs .old, ∀ off ∈ bodyOffsets u.mem a, IsMem (u.mem (a + off)) →
    memAddr (u.mem (a + off)) < u.old.start → u.dirty (u.cardIndex (a + off)) = true
  stack : ∀ w ∈ stack, u.ValidSlot w

/-! ## Checks of one object -/

section Object

variable {debug : Bool} {mem : Mem} {a n : Nat}

theorem fromRaw_passes_iff {w v : Nat} : (fromRaw debug w).Passes v ↔ Tagged debug w ∧ v = w := by
  unfold fromRaw Tagged
  rw [Check.expect_passes_iff]
  split
  · rename_i bad
    constructor
    · intro none
      cases none
    · rintro ⟨tagged, -⟩
      have := tagged bad.1
      omega
  · rename_i good
    rw [Option.some.injEq]
    refine ⟨fun same => ⟨fun isDebug => ?_, same.symm⟩, fun both => both.2.symm⟩
    exact Nat.lt_of_not_le fun two => good ⟨isDebug, two⟩

/-- What is read of an object on the way to its size. -/
structure Shape (mem : Mem) (a : Nat) (f : Format) : Prop where
  klass : klassOop mem (mem (a + 1)) = some (klassAt mem a)
  nis : nonIndexableSize mem (klassAt mem a) = some (nisAt mem (klassAt mem a))
  format : formatAt mem (klassAt mem a) = some f
  len : f.hasSizeSlot = true → rawSizeSlot mem a (nisAt mem (klassAt mem a)) = some (lenAt mem a)

theorem klassOop_eq_some {w k : Nat} (h : klassOop mem w = some k) : IsMem w ∧ k = memAddr w := by
  unfold klassOop at h
  split at h
  · rename_i isMem
    split at h
    · exact ⟨isMem, (Option.some.inj h).symm⟩
    · cases h
  · cases h

theorem rawSizeSlot_eq_some {nis len : Nat} (h : rawSizeSlot mem a nis = some len) :
    len = smiValue (mem (a + nis)) := by
  unfold rawSizeSlot at h
  split at h
  · exact (Option.some.inj h).symm
  · cases h

theorem nonIndexableSize_eq_some {k nis : Nat} (h : nonIndexableSize mem k = some nis) :
    nis = nisAt mem k := by
  unfold nonIndexableSize at h
  split at h
  · exact (Option.some.inj h).symm
  · cases h

theorem checkedSize_eq_some (h : checkedSize debug mem a = some n) :
    (∃ f, Shape mem a f) ∧ n = sizeAt mem a := by
  unfold checkedSize at h
  obtain ⟨k, klass, h⟩ := Option.bind_eq_some_iff.mp h
  obtain ⟨nis, instance_, h⟩ := Option.bind_eq_some_iff.mp h
  obtain ⟨f, format, h⟩ := Option.bind_eq_some_iff.mp h
  obtain ⟨-, rfl⟩ := klassOop_eq_some klass
  obtain rfl := nonIndexableSize_eq_some instance_
  split at h
  · cases h
  · unfold sizeWordsForKlass at h
    rw [instance_, format] at h
    change (if f.hasSizeSlot = true then _ else _) = _ at h
    unfold sizeAt
    rw [show formatAt mem (klassAt mem a) = some f from format]
    split at h
    · obtain ⟨len, slot, size⟩ := Option.bind_eq_some_iff.mp h
      obtain rfl := rawSizeSlot_eq_some slot
      exact ⟨⟨f, klass, instance_, format, fun _ => slot⟩, (Option.some.inj size).symm⟩
    · rename_i sized
      refine ⟨⟨f, klass, instance_, format, fun yes => absurd yes sized⟩, ?_⟩
      obtain rfl := Option.some.inj h
      exact Format.sizeWords_congr fun yes => absurd yes sized

theorem checkObject_passes_iff : (checkObject debug mem a).Passes n ↔
    Mark.IsMark (mem a) ∧ checkedSize debug mem a = some n ∧ 2 ≤ n := by
  have mark : ¬ (mem a % 4 ≠ 3 ∨ mem a / 4 % 2 = 0) ↔ Mark.IsMark (mem a) := by
    unfold Mark.IsMark
    omega
  unfold checkObject
  constructor
  · intro passes
    obtain ⟨_, isMark, passes⟩ := Check.bind_passes_iff.mp passes
    obtain ⟨w, -, passes⟩ := Check.bind_passes_iff.mp passes
    obtain ⟨-, -, passes⟩ := Check.bind_passes_iff.mp passes
    obtain ⟨-, -, passes⟩ := Check.bind_passes_iff.mp passes
    obtain ⟨words, size, passes⟩ := Check.bind_passes_iff.mp passes
    obtain ⟨_, header, passes⟩ := Check.bind_passes_iff.mp passes
    obtain rfl := Check.pure_passes_iff.mp passes
    refine ⟨mark.mp (Check.reject_passes_iff.mp isMark), Check.expect_passes_iff.mp size, ?_⟩
    exact Nat.not_lt.mp (Check.reject_passes_iff.mp header)
  · rintro ⟨isMark, size, header⟩
    obtain ⟨⟨f, shape⟩, -⟩ := checkedSize_eq_some size
    obtain ⟨isMem, -⟩ := klassOop_eq_some shape.klass
    have read : (fromRaw debug (mem (a + 1))).Passes (mem (a + 1)) :=
      fromRaw_passes_iff.mpr ⟨fun _ => by omega, rfl⟩
    rw [(Check.reject_passes_iff.mpr (mark.mpr isMark)).bind, read.bind,
      (Check.reject_passes_iff.mpr (not_not.mpr isMem)).bind,
      (Check.reject_passes_iff.mpr (by rw [shape.klass]; exact Option.some_ne_none _)).bind,
      (Check.expect_passes_iff.mpr size).bind,
      (Check.reject_passes_iff.mpr (Nat.not_lt.mpr header)).bind]
    exact Check.passes_pure n

/-- The places of the oops of a body, in the order of the loops. -/
def places (f : Format) (nis len : Nat) : List (String × Nat) :=
  (f.namedOffsets nis).map (Prod.mk "named field") ++ (f.tailOffsets nis len).map (Prod.mk "tail element")

variable {f : Format} {check : Format → Nat → String → Nat → Nat → Verify Unit}

theorem bodyOffsets_eq (shape : Shape mem a f) : bodyOffsets mem a =
    (places f (nisAt mem (klassAt mem a)) (lenAt mem a)).map Prod.snd := by
  unfold bodyOffsets slotsAt places
  rw [shape.format]
  simp only [List.tail_cons, List.map_append, List.map_map, Function.comp_def, List.map_id']

theorem forBodyOops_eq (shape : Shape mem a f) (nis : 2 ≤ nisAt mem (klassAt mem a)) :
    forBodyOops debug mem a check =
      (places f (nisAt mem (klassAt mem a)) (lenAt mem a)).forM fun p =>
        withOop debug mem a (check f (nisAt mem (klassAt mem a)) p.1) p.2 := by
  unfold forBodyOops places
  rw [(Check.expect_passes_iff.mpr shape.klass).bind, (Check.expect_passes_iff.mpr shape.nis).bind,
    if_neg (Nat.not_lt.mpr nis), (Check.expect_passes_iff.mpr rfl).bind,
    (Check.expect_passes_iff.mpr shape.format).bind, Check.forM_append, Check.forM_map,
    Check.forM_map]
  refine congrArg (_ >>= ·) (funext fun _ => ?_)
  have len := shape.len
  cases f with
  | indexableOops => rw [(Check.expect_passes_iff.mpr (len rfl)).bind]
  | closure => rw [(Check.expect_passes_iff.mpr (len rfl)).bind]
  | context => rw [(Check.expect_passes_iff.mpr (len rfl)).bind]
  | slots | indexableBytes | method | klass | double | process => rfl

theorem forBodyOops_nis (passes : (forBodyOops debug mem a check).Passes ()) (shape : Shape mem a f) :
    2 ≤ nisAt mem (klassAt mem a) := by
  unfold forBodyOops at passes
  rw [(Check.expect_passes_iff.mpr shape.klass).bind,
    (Check.expect_passes_iff.mpr shape.nis).bind] at passes
  obtain ⟨named, room, -⟩ := Check.bind_passes_iff.mp passes
  have room := Check.expect_passes_iff.mp room
  split at room
  · cases room
  · omega

theorem forBodyOops_passes_iff {P : Nat → Prop} (shape : Shape mem a f)
    (passes : ∀ place off, (check f (nisAt mem (klassAt mem a)) place off (mem (a + off))).Passes () ↔
      P off) :
    (forBodyOops debug mem a check).Passes () ↔ 2 ≤ nisAt mem (klassAt mem a) ∧
      ∀ off ∈ bodyOffsets mem a, Tagged debug (mem (a + off)) ∧ P off := by
  have each : ∀ p : String × Nat,
      (withOop debug mem a (check f (nisAt mem (klassAt mem a)) p.1) p.2).Passes () ↔
        Tagged debug (mem (a + p.2)) ∧ P p.2 := by
    intro p
    unfold withOop
    rw [Check.bind_passes_iff, ← passes p.1]
    constructor
    · rintro ⟨w, read, checked⟩
      obtain ⟨tagged, rfl⟩ := fromRaw_passes_iff.mp read
      exact ⟨tagged, checked⟩
    · rintro ⟨tagged, checked⟩
      exact ⟨_, fromRaw_passes_iff.mpr ⟨tagged, rfl⟩, checked⟩
  rw [bodyOffsets_eq shape, List.forall_mem_map]
  constructor
  · intro all
    have nis := forBodyOops_nis all shape
    rw [forBodyOops_eq shape nis, Check.forM_passes_iff] at all
    exact ⟨nis, fun p mem => (each p).mp (all p mem)⟩
  · rintro ⟨nis, all⟩
    rw [forBodyOops_eq shape nis, Check.forM_passes_iff]
    exact fun p mem => (each p).mpr (all p mem)

/-- The first word that a check reports. -/
theorem forBodyOops_fails {off : Nat} {e : String} (shape : Shape mem a f)
    (nis : 2 ≤ nisAt mem (klassAt mem a)) (inBody : off ∈ bodyOffsets mem a)
    (tagged : ∀ o ∈ bodyOffsets mem a, Tagged debug (mem (a + o)))
    (others : ∀ o ∈ bodyOffsets mem a, o ≠ off → ∀ place,
      (check f (nisAt mem (klassAt mem a)) place o (mem (a + o))).Passes ())
    (fails : ∀ place, (check f (nisAt mem (klassAt mem a)) place off (mem (a + off))).Fails e) :
    (forBodyOops debug mem a check).Fails e := by
  rw [bodyOffsets_eq shape] at inBody tagged others
  rw [forBodyOops_eq shape nis]
  have read : ∀ p ∈ places f (nisAt mem (klassAt mem a)) (lenAt mem a),
      (fromRaw debug (mem (a + p.2))).Passes (mem (a + p.2)) := fun p inPlaces =>
    fromRaw_passes_iff.mpr ⟨tagged _ (List.mem_map_of_mem inPlaces), rfl⟩
  generalize places f (nisAt mem (klassAt mem a)) (lenAt mem a) = l at *
  induction l with
  | nil => cases inBody
  | cons p l ih =>
    by_cases here : p.2 = off
    · refine Check.forM_fails (l := []) (fun _ none => absurd none List.not_mem_nil) ?_
      unfold withOop
      rw [(read p List.mem_cons_self).bind, here]
      exact fails p.1
    · have checked := others p.2 (List.mem_map_of_mem List.mem_cons_self) here p.1
      have passes : (withOop debug mem a (check f (nisAt mem (klassAt mem a)) p.1) p.2).Passes () := by
        unfold withOop
        rw [(read p List.mem_cons_self).bind]
        exact checked
      show (withOop debug mem a (check f (nisAt mem (klassAt mem a)) p.1) p.2 >>= fun _ =>
        l.forM _).Fails e
      rw [passes.bind]
      refine ih ?_ ?_ ?_ ?_
      · rcases List.mem_cons.mp inBody with same | inRest
        · exact absurd same.symm here
        · exact inRest
      · exact fun o inRest => tagged o (List.mem_cons_of_mem _ inRest)
      · exact fun o inRest => others o (List.mem_cons_of_mem _ inRest)
      · exact fun q inRest => read q (List.mem_cons_of_mem _ inRest)

end Object

/-! ## Checks of the heap -/

section Heap

variable {debug : Bool} {u : Universe} {point : VerifyPoint} {stack : List Nat} {objs : Objects}
variable {a : Nat}

theorem checkObject_agrees (a n : Nat) (passes : (checkObject debug u.mem a).Passes n) :
    n = sizeAt u.mem a ∧ 0 < n := by
  obtain ⟨-, size, header⟩ := checkObject_passes_iff.mp passes
  exact ⟨(checkedSize_eq_some size).2, by omega⟩

theorem verifiedObject_iff (point : VerifyPoint) : VerifiedObject debug u a ↔
    (checkObject debug u.mem a).Passes (sizeAt u.mem a) ∧
      (checkBodyOops debug u point a).Passes () := by
  constructor
  · intro h
    obtain ⟨⟨f, shape⟩, -⟩ := checkedSize_eq_some h.size
    refine ⟨checkObject_passes_iff.mpr ⟨h.mark, h.size, h.header⟩, ?_⟩
    refine (forBodyOops_passes_iff (P := fun off => u.ValidSlot (u.mem (a + off))) shape
      fun _ _ => Check.reject_passes_iff.trans not_not).mpr ⟨h.nis, h.slots⟩
  · rintro ⟨object, body⟩
    obtain ⟨mark, size, header⟩ := checkObject_passes_iff.mp object
    obtain ⟨⟨f, shape⟩, -⟩ := checkedSize_eq_some size
    obtain ⟨nis, slots⟩ := (forBodyOops_passes_iff (P := fun off => u.ValidSlot (u.mem (a + off)))
      shape fun _ _ => Check.reject_passes_iff.trans not_not).mp body
    exact ⟨mark, size, header, nis, slots⟩

/-- The heap is walked, and the end is where it should be. -/
theorem verifyRange_passes_iff {start top : Nat} : (verifyRange debug u point start top).Passes () ↔
    ∃ l, Tiles (sizeAt u.mem) start top l ∧ ∀ a ∈ l, VerifiedObject debug u a := by
  unfold verifyRange
  constructor
  · intro passes
    obtain ⟨r, walked, ended⟩ := Check.bind_passes_iff.mp passes
    have last : r.1 = top := not_not.mp (Check.reject_passes_iff.mp ended)
    rw [show r = (top, r.2) from Prod.ext last rfl] at walked
    obtain ⟨l, tiles, sizes⟩ := walkBlocks_tiles checkObject_agrees (by omega) walked
    rw [walkBlocks_eq tiles sizes (by omega)] at walked
    obtain ⟨_, visited, -⟩ := Check.bind_passes_iff.mp walked
    have visited := Check.forM_passes_iff.mp visited
    exact ⟨l, tiles, fun a mem => (verifiedObject_iff point).mpr ⟨sizes a mem, visited a mem⟩⟩
  · rintro ⟨l, tiles, objects⟩
    have checked := fun a mem => (verifiedObject_iff point).mp (objects a mem)
    rw [walkBlocks_eq tiles (fun a mem => (checked a mem).1) (by omega),
      (Check.forM_passes_iff.mpr fun a mem => (checked a mem).2).bind, pure_bind]
    exact Check.reject_passes_iff.mpr (not_not.mpr rfl)

theorem checkCards_passes_iff (h : VerifiedObject debug u a) :
    (checkCards debug u point a).Passes () ↔ ∀ off ∈ bodyOffsets u.mem a, IsMem (u.mem (a + off)) →
      memAddr (u.mem (a + off)) < u.old.start → u.dirty (u.cardIndex (a + off)) = true := by
  obtain ⟨⟨f, shape⟩, -⟩ := checkedSize_eq_some h.size
  have each : ∀ off, ¬ (IsMem (u.mem (a + off)) ∧ memAddr (u.mem (a + off)) < u.old.start ∧
      u.dirty (u.cardIndex (a + off)) = false) ↔ (IsMem (u.mem (a + off)) →
        memAddr (u.mem (a + off)) < u.old.start → u.dirty (u.cardIndex (a + off)) = true) := by
    intro off
    rw [not_and, not_and, Bool.not_eq_false]
  unfold checkCards
  rw [forBodyOops_passes_iff shape fun _ off => Check.reject_passes_iff.trans (each off)]
  constructor
  · rintro ⟨-, all⟩ off mem
    exact (all off mem).2
  · intro all
    exact ⟨h.nis, fun off mem => ⟨(h.slots off mem).1, all off mem⟩⟩

/-- The second walk over old gen, once the first one has passed. -/
theorem verifyCardsVsHeap_eq {l : List Nat} (tiles : Tiles (sizeAt u.mem) u.old.start u.old.top l)
    (objects : ∀ a ∈ l, VerifiedObject debug u a) :
    verifyCardsVsHeap debug u point = l.forM (checkCards debug u point) := by
  unfold verifyCardsVsHeap
  rw [walkBlocks_eq tiles (fun a mem => ((verifiedObject_iff .manual).mp (objects a mem)).1) (by omega),
    bind_assoc]
  simp only [pure_bind]
  exact bind_pure _

theorem verifyProcessStack_passes_iff :
    (verifyProcessStack u point stack).Passes () ↔ ∀ w ∈ stack, u.ValidSlot w := by
  unfold verifyProcessStack
  rw [Check.forM_passes_iff]
  conv_rhs => rw [← List.zipIdx_map_fst 0 stack]
  rw [List.forall_mem_map]
  exact forall₂_congr fun slot _ => Check.reject_passes_iff.trans not_not

/-- The objects of the spaces in use. -/
def Objects.of (eden survivors olds : List Nat) : Objects
  | .eden => eden
  | .fromSpace => survivors
  | .toSpace => []
  | .old => olds

/-- Once the objects have passed, cards and stack are left. -/
theorem verifyHeapAt_eq
    (tiles : ∀ r, r ≠ .toSpace → Tiles (sizeAt u.mem) (u.start r) (u.top r) (objs r))
    (objects : ∀ r, r ≠ .toSpace → ∀ a ∈ objs r, VerifiedObject debug u a) :
    verifyHeapAt debug u point stack = (objs .old).forM (checkCards debug u point) >>= fun _ =>
      verifyProcessStack u point stack := by
  have eden : (verifyRange debug u point u.eden.start u.eden.top).Passes () :=
    verifyRange_passes_iff.mpr ⟨objs .eden, tiles .eden (by decide), objects .eden (by decide)⟩
  have survivors : (verifyRange debug u point u.fromSpace.start u.fromSpace.top).Passes () :=
    verifyRange_passes_iff.mpr
      ⟨objs .fromSpace, tiles .fromSpace (by decide), objects .fromSpace (by decide)⟩
  have olds : (verifyRange debug u point u.old.start u.old.top).Passes () :=
    verifyRange_passes_iff.mpr ⟨objs .old, tiles .old (by decide), objects .old (by decide)⟩
  unfold verifyHeapAt
  rw [eden.bind, survivors.bind, olds.bind,
    verifyCardsVsHeap_eq (tiles .old (by decide)) (objects .old (by decide))]

theorem Verified.passes (h : Verified debug u stack objs) :
    (verifyHeapAt debug u point stack).Passes () := by
  have cards : ((objs .old).forM (checkCards debug u point)).Passes () :=
    Check.forM_passes_iff.mpr fun a mem => (checkCards_passes_iff
      (h.object .old (by decide) a mem)).mpr (h.remembered a mem)
  rw [verifyHeapAt_eq h.tiles h.object, cards.bind]
  exact verifyProcessStack_passes_iff.mpr h.stack

end Heap

/-! ## Well-formed heaps pass -/

section Accepts

variable {debug : Bool} {u : Universe} {point : VerifyPoint} {stack : List Nat} {objs : Objects}
variable {a : Nat}

theorem WfHeap.validSlot (h : WfHeap u objs) {w : Nat} (word : WfWord (IsObject objs) w) :
    u.ValidSlot w := by
  rcases word with isSmi | ⟨t, rfl, r, mem⟩
  · exact Or.inl (not_isMem_of_isSmi isSmi)
  · have bounds := (h.tiles r).bounds mem
    have within : u.start r ≤ t ∧ t < u.top r := ⟨bounds.1, by omega⟩
    refine Or.inr ?_
    rw [memAddr_oopAt]
    cases r with
    | eden => exact Or.inl within
    | fromSpace => exact Or.inr (Or.inl within)
    | toSpace =>
      rw [h.toEmpty] at mem
      cases mem
    | old => exact Or.inr (Or.inr within)

theorem tagged_of_wfWord {isObj : Nat → Prop} {w : Nat} (word : WfWord isObj w) : Tagged debug w := by
  intro _
  rcases word with isSmi | ⟨t, rfl, -⟩
  · unfold IsSmi at isSmi
    omega
  · unfold oopAt
    omega

theorem WfObject.verified {isObj : Nat → Prop} (object : WfObject u.mem isObj a)
    (valid : ∀ w, WfWord isObj w → u.ValidSlot w) : VerifiedObject debug u a := by
  obtain ⟨f, format⟩ := object.klass.format
  have nis := object.klass.nis_ge
  refine ⟨object.mark, ?_, object.two_le_sizeAt, nis, fun off mem => ?_⟩
  · unfold checkedSize
    rw [object.klassOop]
    change Option.bind (nonIndexableSize u.mem (klassAt u.mem a)) _ = _
    rw [object.klass.nonIndexableSize]
    change Option.bind (formatAt u.mem (klassAt u.mem a)) _ = _
    rw [format]
    change (if _ then _ else _) = _
    rw [if_neg fun bad => absurd bad.2.2 (Nat.not_lt.mpr nis)]
    exact object.sizeWordsForKlass
  · have word := object.slots off (List.mem_of_mem_tail mem)
    exact ⟨tagged_of_wfWord word, valid _ word⟩

theorem WfHeap.verified (h : WfHeap u objs) (roots : ∀ w ∈ stack, w ∈ u.roots) :
    Verified debug u stack objs :=
  ⟨fun r _ => h.tiles r, fun r _ a mem => (h.object a ⟨r, mem⟩).verified fun _ => h.validSlot,
    fun a mem off inBody => h.remembered a mem off (List.mem_of_mem_tail inBody),
    fun w mem => h.validSlot (h.roots w (List.mem_append_left _ (roots w mem)))⟩

theorem WfHeap.accepted (h : WfHeap u objs) (roots : ∀ w ∈ stack, w ∈ u.roots) :
    (verifyHeapAt debug u point stack).Passes () :=
  (h.verified roots).passes

end Accepts

/-! ## Hidden young objects are reported -/

section Catches

variable {debug : Bool} {u : Universe} {point : VerifyPoint} {stack : List Nat} {objs : Objects}
variable {a off t : Nat}

theorem mem_bodyOffsets {mem : Mem} (slot : off ∈ slotsAt mem a) (behind : off ≠ 1) :
    off ∈ bodyOffsets mem a := by
  unfold bodyOffsets
  unfold slotsAt at slot ⊢
  split at slot
  · exact (List.mem_cons.mp slot).resolve_left behind
  · cases slot

/-- The words besides the one written are remembered as before. -/
theorem WfHeap.remembered_elsewhere {v b o : Nat} (h : WfHeap u objs) (holder : IsObject objs a)
    (plain : PlainWord u.mem a off) (hb : b ∈ objs .old) (ne : b = a → o ≠ off)
    (inBody : o ∈ bodyOffsets (u.write (a + off) v).mem b)
    (isMem : IsMem ((u.write (a + off) v).mem (b + o)))
    (young : memAddr ((u.write (a + off) v).mem (b + o)) < u.old.start) :
    u.dirty (u.cardIndex (b + o)) = true := by
  have slot := List.mem_of_mem_tail inBody
  rw [(h.write_shape holder plain ⟨.old, hb⟩).2] at slot
  have inside := ((h.object b ⟨.old, hb⟩).slot_bounds slot).2
  have kept := h.write_word holder plain (v := v) ⟨.old, hb⟩ inside fun owner =>
    Ne.symm (ne owner.symm)
  rw [kept] at isMem young
  exact h.remembered b hb o slot isMem young

/-- The loop over the body of the object reports the slot. -/
theorem checkCards_catches {f : Format} (h : WfHeap u objs) (old : a ∈ objs .old)
    (format : formatAt u.mem (klassAt u.mem a) = some f) (slot : BodySlot u.mem a off)
    (verified : VerifiedObject debug (u.write (a + off) (oopAt t)) a) (young : t < u.old.start)
    (clean : u.dirty (u.cardIndex (a + off)) = false) :
    (checkCards debug (u.write (a + off) (oopAt t)) point a).Fails
      (unbarriered u point f (nisAt u.mem (klassAt u.mem a)) a off (oopAt t)) := by
  have holder : IsObject objs a := ⟨.old, old⟩
  have plain := (h.object a holder).plainWord slot
  obtain ⟨⟨g, shape⟩, -⟩ := checkedSize_eq_some verified.size
  obtain ⟨-, klass⟩ := h.write_klassAt holder plain (v := oopAt t) holder
  obtain ⟨format', nis⟩ := h.write_klass holder plain (v := oopAt t) (h.object a holder).klassObj
    (h.object a holder).klass
  have sameNis : nisAt (u.write (a + off) (oopAt t)).mem (klassAt u.mem a) =
      nisAt u.mem (klassAt u.mem a) := by
    unfold nisAt
    rw [nis]
  obtain rfl : f = g := by
    have read := shape.format
    rw [klass, format', format] at read
    exact Option.some.inj read
  have inBody : off ∈ bodyOffsets (u.write (a + off) (oopAt t)).mem a := by
    refine mem_bodyOffsets ?_ plain.noKlass
    rw [(h.write_shape holder plain holder).2]
    exact slot.1
  have stored : (u.write (a + off) (oopAt t)).mem (a + off) = oopAt t := Function.update_self _ _ _
  refine forBodyOops_fails shape verified.nis inBody (fun o mem => (verified.slots o mem).1)
    (fun o mem ne place => Check.reject_passes_iff.mpr ?_) fun place => ?_
  · rintro ⟨isMem, hidden, unmarked⟩
    have marked := h.remembered_elsewhere holder plain old (fun _ => ne) mem isMem hidden
    exact absurd (marked.symm.trans unmarked) (by decide)
  · rw [stored, klass, sameNis]
    refine Check.reject_fails _ ⟨isMem_oopAt t, ?_, clean⟩
    rw [memAddr_oopAt]
    exact young

/-- An oop of a young object is written into a slot of old gen whose card is clean: the verifier fails
and names the slot. -/
theorem verifyHeapAt_catches {f : Format} (h : WfHeap u objs) (old : a ∈ objs .old)
    (format : formatAt u.mem (klassAt u.mem a) = some f) (slot : BodySlot u.mem a off)
    (object : IsObject objs t) (young : t < u.old.start)
    (clean : u.dirty (u.cardIndex (a + off)) = false) :
    (verifyHeapAt debug (u.write (a + off) (oopAt t)) point stack).Fails
      (unbarriered u point f (nisAt u.mem (klassAt u.mem a)) a off (oopAt t)) := by
  have holder : IsObject objs a := ⟨.old, old⟩
  have plain := (h.object a holder).plainWord slot
  have verified : ∀ b, IsObject objs b → VerifiedObject debug (u.write (a + off) (oopAt t)) b :=
    fun b hb => (h.write_object holder plain (fun first => absurd slot.2.1 (by omega))
      (fun _ => Or.inr ⟨t, rfl, object⟩) hb).verified fun w word => h.validSlot word
  have tiles : ∀ r, Tiles (sizeAt (u.write (a + off) (oopAt t)).mem) (u.start r) (u.top r) (objs r) :=
    fun r => (h.tiles r).congr fun b hb => (h.write_shape holder plain ⟨r, hb⟩).1
  rw [verifyHeapAt_eq (u := u.write (a + off) (oopAt t)) (fun r _ => tiles r)
    fun r _ b hb => verified b ⟨r, hb⟩]
  obtain ⟨before, after, split, first⟩ := List.eq_append_cons_of_mem old
  refine Check.Fails.bind ?_ _
  rw [split]
  refine Check.forM_fails (fun b mem => ?_)
    (checkCards_catches h old format slot (verified a holder) young clean)
  have hb : b ∈ objs .old := split ▸ List.mem_append_left _ mem
  refine (checkCards_passes_iff (verified b ⟨.old, hb⟩)).mpr fun o inBody => ?_
  exact h.remembered_elsewhere holder plain hb (fun same => absurd (same ▸ mem) first) inBody

theorem verifyHeapAt_catches_superclass :
    (verifyHeapAt true ((Universe.withByteArray defaultEden 5 16).write (oldStart defaultEden + 30 + 4)
      (oopAt 520)) .manual []).Fails (unbarriered (.withByteArray defaultEden 5 16) .manual .klass
        (nisAt (Universe.withByteArray defaultEden 5 16).mem (oldStart defaultEden + 20))
        (oldStart defaultEden + 30) 4 (oopAt 520)) :=
  verifyHeapAt_catches (f := .klass) wfVm_withByteArray.heap (by decide +kernel) (by decide +kernel)
    ⟨by decide +kernel, by decide, fun _ => by decide⟩ (by decide +kernel) (by decide +kernel) rfl

end Catches

end WinVm.Memory
