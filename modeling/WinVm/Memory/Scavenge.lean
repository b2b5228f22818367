import Mathlib
import WinVm.Memory.Spaces

/-!
# The scavenger

`scavenge.rs`, function by function: copying one object, the dirty-card scan, the Cheney
loop over to-space and the promoted objects, the swap of the survivor spaces and the new
tenuring threshold. `none` stands for a panic of the source; a stall that a phase left pending
ends the collection with its error.
-/

namespace WinVm.Memory

open WinVm.Lib

/-- `MARK_AGE_MAX`. -/
def markAgeMax : Nat := 127

/-! ## One object -/

/-- `effective_klass`: one forwarding hop. -/
def effectiveKlass (mem : Mem) (candidate : Nat) : Option Nat :=
  if IsMem candidate then
    klassOop mem (if IsMem (mem (memAddr candidate)) then mem (memAddr candidate) else candidate)
  else none

def objectSizeForCopy (mem : Mem) (a : Nat) : Option Nat := do
  let k ← effectiveKlass mem (mem (a + 1))
  sizeWordsForKlass mem a k

/-- `copy_nonoverlapping`. -/
def copyWords (mem : Mem) (src dst size : Nat) : Mem := fun x =>
  if dst ≤ x ∧ x < dst + size then mem (src + (x - dst)) else mem x

namespace Universe

/-- `record_stall`: the first stall of a scavenge is the one that counts. -/
def recordStall (u : Universe) (size : Nat) (phase : GcPhase) : Universe :=
  match u.pendingStall with
  | some _ => u
  | none => { u with pendingStall := some (GcStallError.snapshot u size phase) }

/-- Where the copy of an object goes, and whether that is old gen; `none` if there is no room. -/
def placeCopy (u : Universe) (size : Nat) (agePromote : Bool) : Option (Universe × Nat × Bool) :=
  if agePromote || decide (u.toSpace.limit < u.toSpace.top + size) then
    (u.allocateOld size).map fun (u, dest) => (u, dest, true)
  else
    some ({ u with toSpace := { u.toSpace with top := u.toSpace.top + size } },
      u.toSpace.top, false)

/-- The bookkeeping for a copy: a promoted object's cards are dirtied, a survivor ages. -/
def settleCopy (u : Universe) (dest size age : Nat) (promoted : Bool) : Universe :=
  if promoted then u.recordMultistores dest (dest + size)
  else
    let newAge := min (age + 1) markAgeMax
    { u.write dest (Mark.withAge (u.mem dest) newAge) with
      ageTable := Function.update u.ageTable newAge (u.ageTable newAge + size) }

def scavengeOop (u : Universe) (w : Nat) : Option (Universe × Nat) :=
  if ¬ IsMem w then some (u, w)
  else if u.old.start ≤ memAddr w then some (u, w)
  else if u.toSpace.start ≤ memAddr w ∧ memAddr w < u.toSpace.top then none
  else if IsMem (u.mem (memAddr w)) then some (u, u.mem (memAddr w))
  else do
    let a := memAddr w
    let size ← objectSizeForCopy u.mem a
    let age := Mark.age (u.mem a)
    let agePromote := decide (u.tenuringThreshold ≤ age + 1)
    match u.placeCopy size agePromote with
    | none => some (u.recordStall size .scavengePromote, w)
    | some (u, dest, promoted) =>
      let u := { u with mem := copyWords u.mem a dest size }
      let u := u.settleCopy dest size age promoted
      some (u.write a (oopAt dest), oopAt dest)

/-- `scan_body`. -/
def scanBody (u : Universe) (a : Nat) : Option Universe := do
  let k ← klassOop u.mem (u.mem (a + 1))
  forEachOopField Universe.mem Universe.write scavengeOop u a k

/-! ## The dirty-card scan -/

/-- One slot, if it lies in the window; answers whether a visited slot still points into new
gen. -/
def touch (lo hi : Nat) : Universe × Bool → Nat → Option (Universe × Bool)
  | (u, stillNew), x =>
    if x < lo ∨ hi ≤ x then some (u, stillNew)
    else do
      let (u, v) ← scavengeOop u (u.mem x)
      some (u.write x v, stillNew || (decide (IsMem v) && decide (memAddr v < u.old.start)))

/-- `indexable_len`. -/
def indexableLen (u : Universe) (a : Nat) : Option Nat := do
  let k ← klassOop u.mem (u.mem (a + 1))
  let nis ← nonIndexableSize u.mem k
  let f ← formatAt u.mem k
  if f.hasSizeSlot then rawSizeSlot u.mem a nis else none

/-- `tail_start_word`, as an address. -/
def tailStart (u : Universe) (a : Nat) : Option Nat := do
  let k ← klassOop u.mem (u.mem (a + 1))
  let nis ← nonIndexableSize u.mem k
  some (a + nis + 1)

/-- The tail of an object with oops in it; only the indices inside the window are visited. -/
def touchTail (lo hi : Nat) (st : Universe × Bool) (a : Nat) : Option (Universe × Bool) := do
  let len ← st.1.indexableLen a
  if 0 < len then
    let base ← st.1.tailStart a
    let first := lo - base
    (List.range' (base + first) (min (hi - base) len - first)).foldlM (touch lo hi) st
  else some st

def scanSlotsInWindow (u : Universe) (a k lo hi : Nat) : Option (Universe × Bool) := do
  let nis ← nonIndexableSize u.mem k
  let st ← touch lo hi (u, false) (a + 1)
  let f ← formatAt st.1.mem k
  let st ← ((f.namedOffsets nis).map (a + ·)).foldlM (touch lo hi) st
  match f with
  | .indexableOops | .closure | .context => touchTail lo hi st a
  | _ => some st

/-- The objects across one card, from `addr` on. -/
def walkCard (lo hi oldTopBefore : Nat) : Nat → Nat → Universe × Bool → Option (Universe × Bool)
  | 0, _, _ => none
  | fuel + 1, addr, (u, stillNew) =>
    if addr < hi ∧ addr < oldTopBefore then do
      let k ← klassOop u.mem (u.mem (addr + 1))
      let size ← sizeWordsForKlass u.mem addr k
      if lo < addr + size then
        let (u, new) ← u.scanSlotsInWindow addr k lo hi
        walkCard lo hi oldTopBefore fuel (addr + size) (u, stillNew || new)
      else walkCard lo hi oldTopBefore fuel (addr + size) (u, stillNew)
    else some (u, stillNew)

def scanCard (u : Universe) (oldTopBefore i : Nat) : Option Universe := do
  let lo := u.cardBase i
  let hi := lo + cardSize
  let addr ← u.resolve i
  let (u, stillNew) ← walkCard lo hi oldTopBefore (hi - addr + 1) addr (u, false)
  if stillNew = false ∧ hi ≤ oldTopBefore then some (u.setClean i) else some u

/-- The cards from `i` on, at most `n` of them. -/
def scanCards (oldTopBefore : Nat) : Nat → Nat → Universe → Option Universe
  | 0, _, u => some u
  | n + 1, i, u =>
    if oldTopBefore ≤ u.cardBase i then some u
    else if u.dirty i then do
      let u ← u.scanCard oldTopBefore i
      scanCards oldTopBefore n (i + 1) u
    else scanCards oldTopBefore n (i + 1) u

def dirtyCardScan (u : Universe) (oldTopBefore : Nat) : Option Universe :=
  scanCards oldTopBefore u.nCards 0 u

/-! ## A whole collection -/

/-- The words of a root table, each replaced by what `scavenge_oop` answers. -/
def scavengeWords : Universe → List Nat → Option (Universe × List Nat)
  | u, [] => some (u, [])
  | u, w :: ws => do
    let (u, v) ← scavengeOop u w
    let (u, vs) ← scavengeWords u ws
    some (u, v :: vs)

/-- One object of the Cheney loop, its klass field first; with the size to step over. -/
def scanObject (u : Universe) (a : Nat) : Option (Except GcStallError (Universe × Nat)) := do
  let (u, v) ← scavengeOop u (u.mem (a + 1))
  let u ← (u.write (a + 1) v).scanBody a
  match u.pendingStall with
  | some err => some (.error err)
  | none =>
    let k ← klassOop u.mem v
    let size ← sizeWordsForKlass u.mem a k
    some (.ok (u, size))

/-- The Cheney fixed point, at most so many objects. -/
def cheney : Nat → Nat → Nat → Universe → Option (Except GcStallError Universe)
  | 0, _, _, _ => none
  | fuel + 1, toScan, oldScan, u =>
    if toScan < u.toSpace.top then do
      match ← u.scanObject toScan with
      | .error err => some (.error err)
      | .ok (u, size) => cheney fuel (toScan + size) oldScan u
    else if oldScan < u.old.top then do
      match ← u.scanObject oldScan with
      | .error err => some (.error err)
      | .ok (u, size) => cheney fuel toScan (oldScan + size) u
    else some (.ok u)

/-- `compute_threshold`: the ages from `age` on, at most `n` of them. -/
def thresholdFrom (bytesAtAge : Nat → Nat) (half : Nat) : Nat → Nat → Nat → Nat
  | 0, _, _ => markAgeMax
  | n + 1, age, cumulative =>
    if half < cumulative + bytesAtAge age then age
    else thresholdFrom bytesAtAge half n (age + 1) (cumulative + bytesAtAge age)

def computeThreshold (bytesAtAge : Nat → Nat) (survivorCapacity : Nat) : Nat :=
  thresholdFrom bytesAtAge (survivorCapacity / 2) (markAgeMax + 1) 0 0

/-- `from` and `to` change places, eden and the new `to` are empty. -/
def swapSpaces (u : Universe) : Universe :=
  { u with
    fromSpace := u.toSpace
    toSpace := u.fromSpace.reset
    eden := u.eden.reset }

structure ScavengeReport where
  survivorBytes : Nat
  promotedBytes : Nat
  newThreshold : Nat
deriving Repr

/-- After the Cheney loop: the swap and the tenuring policy. -/
def finishScavenge (u : Universe) (oldTopBefore : Nat) : Universe × ScavengeReport :=
  let u := u.swapSpaces
  let threshold := computeThreshold u.ageTable (u.fromSpace.limit - u.fromSpace.start)
  ({ u with tenuringThreshold := threshold },
    { survivorBytes := ((List.range (markAgeMax + 1)).map u.ageTable).sum
      promotedBytes := u.old.top - oldTopBefore
      newThreshold := threshold })

/-- The state a scavenge starts its root scan in. -/
def enterScavenge (u : Universe) : Universe :=
  { u with ageTable := fun _ => 0, toSpace := u.toSpace.reset }

/-- The root scan: roots, dirty cards, code roots. -/
def scanRoots (u : Universe) (oldTopBefore : Nat) : Option Universe := do
  let (u, roots) ← scavengeWords u u.roots
  let u ← { u with roots := roots }.dirtyCardScan oldTopBefore
  let (u, words) ← scavengeWords u u.codeWords
  some { u with codeRoots := setCodeWords u.codeRoots words }

def scavenge (u : Universe) : Option (Except GcStallError (Universe × ScavengeReport)) :=
  if u.gcEnabled then do
    let oldTopBefore := u.old.top
    let fuel := u.eden.used + u.fromSpace.used + 1
    let u ← u.enterScavenge.scanRoots oldTopBefore
    match u.pendingStall with
    | some err => some (.error err)
    | none =>
      match ← cheney fuel u.toSpace.start oldTopBefore u with
      | .error err => some (.error err)
      | .ok u => some (.ok (u.finishScavenge oldTopBefore))
  else none

end Universe

end WinVm.Memory
