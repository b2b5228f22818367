import WinVm.Lib.Triples
import WinVm.Memory.FullGc

/-!
# The allocator

`alloc.rs` with `OldGen::grow` and the stores of `store.rs`. An allocation is a traced
computation over the VM state: its events are the states in which it enters a scavenge, it ends
for good with the report that `stall_exit` prints, and it has no meaning where the source panics.

As everywhere, sizes are in words: `OLD_GROWTH_SEGMENT` is 16 MiB, and a `usize` counts the bytes
of fewer than 2^61 words.
-/

namespace WinVm.Memory

open WinVm.Lib

/-- `OLD_GROWTH_SEGMENT`. -/
def oldGrowthSegment : Nat := 2097152

/-- The first number of words whose bytes overflow a `usize`. -/
def usizeWords : Nat := 2 ^ 61

/-! ## The heap's part -/

/-- `OldGen::grow`: the segment is committed as far as the reservation goes; answers the words
newly committed. -/
def OldGen.grow (o : OldGen) (segment : Nat) : OldGen × Nat :=
  let newEnd := min (o.committedEnd + max segment 1) o.limit
  let grown := newEnd - o.committedEnd
  if grown = 0 then (o, 0) else ({ o with committedEnd := newEnd }, grown)

namespace Universe

def growOld (u : Universe) (segment : Nat) : Universe × Nat :=
  let (old, grown) := u.old.grow segment
  ({ u with old := old }, grown)

/-- The growth loop of `ensure_promotion_guarantee`, at most so many segments. -/
def growTo (segment worst : Nat) : Nat → Universe → Universe
  | 0, u => u
  | n + 1, u =>
    if u.old.freeWords < worst then
      let (u', grown) := u.growOld segment
      if grown = 0 then u else growTo segment worst n u'
    else u

/-- `nil_obj` is the first root. -/
def nilObj (u : Universe) : Nat := u.roots.headD 0

/-- `try_bump_eden`. -/
def tryBumpEden (u : Universe) (words : Nat) : Option (Universe × Nat) :=
  if u.eden.limit < u.eden.top + words then none
  else some ({ u with eden := { u.eden with top := u.eden.top + words } }, u.eden.top)

/-- `init_object_at`. -/
def initObjectAt (u : Universe) (addr words klass : Nat) (tagged : Bool) : Universe :=
  let mark := Mark.withTaggedContents Mark.pristine tagged.toNat
  let fill := if tagged then u.nilObj else 0
  { u with mem := fun x =>
      if x = addr then mark
      else if x = addr + 1 then klass
      else if addr + 2 ≤ x ∧ x < addr + words then fill
      else u.mem x }

end Universe

/-! ## The VM's part -/

/-- The heap with what an allocation reads of the VM besides it. -/
structure VmState where
  /-- The `universe` of the source. -/
  heap : Universe
  /-- How many of the root words come before the end of the handle arena. -/
  handleEnd : Nat
  gcStress : Bool
  gcStressFullPeriod : Option Nat
  fullStressAllocCount : Nat

namespace VmState

def withUniverse (vm : VmState) (u : Universe) : VmState := { vm with heap := u }

/-- `HandleScope::handle`: one more root, at the end of the arena. -/
def pushHandle (klass : Nat) (vm : VmState) : VmState :=
  vm.withUniverse { vm.heap with
    roots := vm.heap.roots.take vm.handleEnd ++ klass :: vm.heap.roots.drop vm.handleEnd }

/-- The handle's scope ends. -/
def popHandle (vm : VmState) : VmState :=
  vm.withUniverse { vm.heap with roots := vm.heap.roots.eraseIdx vm.handleEnd }

/-- What the collections so far made of the handle. -/
def handle (vm : VmState) : Nat := vm.heap.roots.getD vm.handleEnd 0

end VmState

abbrev Alloc := Comp Universe VmState GcStallError

namespace Alloc

def setUniverse (u : Universe) : Alloc Unit := Comp.modify fun vm => vm.withUniverse u

/-- `full_gc`, expected to return. -/
def fullGc : Alloc Unit := do
  match ← Comp.get fun vm => vm.heap.fullGc with
  | none => Comp.wrong
  | some (u, _) => setUniverse u

/-- `scavenge`, with `stall_exit` on an error. -/
def scavenge : Alloc Unit := do
  let u ← Comp.get VmState.heap
  Comp.emit u
  match u.scavenge with
  | none => Comp.wrong
  | some (.error err) => Comp.halt fun _ => err
  | some (.ok (u, _)) => setUniverse u

/-- A full collection and as much growth as it takes, if there is no room for the worst case; every
growth commits at least one word. -/
def makeRoom (worst : Nat) : Alloc Unit := do
  if (← Comp.get fun vm => vm.heap.old.freeWords) < worst then do
    fullGc
    Comp.modify fun vm => vm.withUniverse
      (vm.heap.growTo oldGrowthSegment worst (vm.heap.old.limit - vm.heap.old.committedEnd + 1))
  else pure ()

/-- The worst case is what the young generation holds before the collection. -/
def ensurePromotionGuarantee : Alloc Unit := do
  let worst ← Comp.get fun vm => vm.heap.eden.used + vm.heap.fromSpace.used
  makeRoom worst
  Comp.modify fun vm => vm.withUniverse { vm.heap with
    promotionGuaranteeMet := decide (worst ≤ vm.heap.old.freeWords) }

/-- `MACVM_GC_STRESS=1`. -/
def stressScavenge : Alloc Unit := do
  if ← Comp.get fun vm => vm.gcStress && vm.heap.gcEnabled then do
    ensurePromotionGuarantee
    scavenge
  else pure ()

/-- `MACVM_GC_STRESS=full[:N]`. -/
def stressFullGc : Alloc Unit := do
  let vm ← Comp.get id
  match vm.gcStressFullPeriod with
  | none => pure ()
  | some period =>
    if vm.heap.gcEnabled then do
      if period ≤ vm.fullStressAllocCount + 1 then do
        Comp.modify fun vm => { vm with fullStressAllocCount := 0 }
        fullGc
      else Comp.modify fun vm => { vm with fullStressAllocCount := vm.fullStressAllocCount + 1 }
    else pure ()

/-- Bump eden, unless the new top overflows, and initialize the object. -/
def allocEden (words : Nat) (tagged : Bool) : Alloc (Option Nat) := do
  let u ← Comp.get VmState.heap
  if usizeWords ≤ u.eden.top + words then Comp.wrong
  else match u.tryBumpEden words with
    | none => pure none
    | some (u, addr) => do
      Comp.modify fun vm => vm.withUniverse (u.initObjectAt addr words vm.handle tagged)
      pure (some addr)

/-- `try_old_alloc`. -/
def tryOldAlloc (words : Nat) (tagged : Bool) : Alloc (Option Nat) := do
  match ← Comp.get fun vm => vm.heap.allocateOld words with
  | none => pure none
  | some (u, addr) => do
    Comp.modify fun vm => vm.withUniverse
      ((u.initObjectAt addr words vm.handle tagged).recordMultistores addr (addr + words))
    pure (some addr)

/-- One more segment, and another attempt in old gen if there was one. -/
def growThenOldAlloc (segment words : Nat) (tagged : Bool) : Alloc (Option Nat) := do
  let (u, grown) ← Comp.get fun vm => vm.heap.growOld segment
  if 0 < grown then do
    setUniverse u
    tryOldAlloc words tagged
  else pure none

def scavengeThenEden (words : Nat) (tagged : Bool) : Alloc (Option Nat) := do
  if ← Comp.get fun vm => vm.heap.gcEnabled then do
    ensurePromotionGuarantee
    scavenge
    allocEden words tagged
  else pure none

def fullGcThenEden (words : Nat) (tagged : Bool) : Alloc (Option Nat) := do
  fullGc
  allocEden words tagged

/-- The attempts after the stress modes, in their order. -/
def cascade (words : Nat) (tagged : Bool) : Alloc Nat :=
  .attempt (allocEden words tagged) <|
  .attempt (scavengeThenEden words tagged) <|
  .attempt (tryOldAlloc words tagged) <|
  .attempt (growThenOldAlloc oldGrowthSegment words tagged) <|
  .attempt (fullGcThenEden words tagged) <|
  .attempt (tryOldAlloc words tagged) <|
  .attempt (growThenOldAlloc oldGrowthSegment words tagged) <|
  Comp.halt fun vm => GcStallError.snapshot vm.heap words .mutator

/-- `alloc_words`; answers the address of the new object. -/
def allocWords (words klass : Nat) (tagged : Bool) : Alloc Nat := do
  if usizeWords ≤ words then Comp.wrong
  else do
    Comp.modify (VmState.pushHandle klass)
    stressScavenge
    stressFullGc
    let addr ← cascade words tagged
    Comp.modify VmState.popHandle
    pure addr

/-- `alloc_slots`. -/
def allocSlots (k : Nat) : Alloc Nat := do
  match ← Comp.get fun vm => nonIndexableSize vm.heap.mem k with
  | none => Comp.wrong
  | some nis => allocWords nis (oopAt k) true

/-- The allocators of objects with a size slot: the named words, the slot and so many words of
body. -/
def allocSized (k body len : Nat) (tagged : Bool) : Alloc Nat := do
  match ← Comp.get fun vm => nonIndexableSize vm.heap.mem k with
  | none => Comp.wrong
  | some nis =>
    if 8 * usizeWords ≤ nis + 1 + body then Comp.wrong
    else do
      let addr ← allocWords (nis + 1 + body) (oopAt k) tagged
      Comp.modify fun vm => vm.withUniverse (vm.heap.write (addr + nis) (smi len))
      pure addr

/-- `alloc_indexable_oops`; closures and contexts are allocated the same way. -/
def allocIndexableOops (k n : Nat) : Alloc Nat := allocSized k n n true

/-- `alloc_indexable_bytes`. -/
def allocIndexableBytes (k nbytes : Nat) : Alloc Nat :=
  allocSized k ((nbytes + 7) / 8) nbytes false

end Alloc

/-! ## Stores -/

namespace Universe

/-- `store`, by the offset of the slot from the body's start. -/
def store (u : Universe) (a wordOffset v : Nat) : Universe :=
  let slot := a + 2 + wordOffset
  let u := u.write slot v
  if u.old.start ≤ a ∧ IsMem v ∧ memAddr v < u.old.start then u.dirtyForSlot slot else u

/-- `store_tail_oop`. -/
def storeTailOop (u : Universe) (a i v : Nat) : Option Universe := do
  let start ← u.tailStart a
  some (u.store a (start - (a + 2) + i) v)

/-- `post_write_barrier`. -/
def postWriteBarrier (u : Universe) (a : Nat) : Option Universe :=
  if u.old.start ≤ a then do
    let words ← instanceSizeWords u.mem a
    some (u.recordMultistores a (a + words))
  else some u

end Universe

end WinVm.Memory
