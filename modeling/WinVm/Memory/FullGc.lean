import WinVm.Memory.Scavenge

/-!
# The full collection

`fullgc.rs`, phase by phase: marking, the flush of nmethods that lost their key klass, the
forwarding walk over each space, the rewrite of roots and slots in place, the slide, the
restored marks and the bookkeeping afterwards. As for the scavenger, `none` stands for a panic
of the source or a failed assertion.
-/

namespace WinVm.Memory

open WinVm.Lib

/-! ## A: mark -/

structure Marking where
  mem : Mem
  stack : List Nat
  markedWords : Nat

namespace Marking

def write (st : Marking) (x w : Nat) : Marking := { st with mem := Function.update st.mem x w }

/-- `mark_push`. -/
def push (st : Marking) (w : Nat) : Option Marking :=
  if IsMem w then
    let a := memAddr w
    if Mark.gcMark (st.mem a) = 0 then do
      let st := st.write a (Mark.withGcMark (st.mem a) 1)
      let size ← instanceSizeWords st.mem a
      some { st with stack := a :: st.stack, markedWords := st.markedWords + size }
    else some st
  else some st

/-- The visitor of a root or a slot: push the word, leave it as it is. -/
def visit (st : Marking) (w : Nat) : Option (Marking × Nat) := (st.push w).map fun st => (st, w)

/-- A popped object: its klass field, then its body. -/
def scan (st : Marking) (a : Nat) : Option Marking := do
  let klassField := st.mem (a + 1)
  let st ← st.push klassField
  let k ← klassOop st.mem klassField
  forEachOopField Marking.mem write visit st a k

/-- The worklist, at most so many objects. -/
def run : Nat → Marking → Option Marking
  | 0, _ => none
  | n + 1, st =>
    match st.stack with
    | [] => some st
    | a :: rest => do run n (← scan { st with stack := rest } a)

end Marking

namespace Universe

/-- The code roots the mark phase visits: the key klass of an alive nmethod is weak. -/
def strongCodeWords (u : Universe) : List Nat :=
  (u.codeRoots.filter fun r => r.weakKeyOf.isNone).map CodeRoot.word

def mark (u : Universe) : Option Marking := do
  let st ← (u.roots ++ u.strongCodeWords).foldlM Marking.push ⟨u.mem, [], 0⟩
  st.run (u.eden.used + u.fromSpace.used + (u.old.top - u.old.start) + 1)

/-- `weak_sweep`: the nmethods whose key klass was not marked; a key is always an oop. -/
def weakSweep (u : Universe) : List Nat :=
  u.codeRoots.filterMap fun r =>
    if IsMem r.word ∧ Mark.gcMark (u.mem (memAddr r.word)) = 1 then none else r.weakKeyOf

/-- `flush_nmethod` for every nmethod of the list, as far as the roots go. -/
def flushNmethods (u : Universe) (ids : List Nat) : Universe :=
  { u with codeRoots := u.codeRoots.filter fun r =>
      ids.all fun n => decide (r.weakKeyOf ≠ some n) && !r.flushedWith.contains n }

end Universe

/-! ## B: forwarding -/

/-- `CompactEntry`. -/
structure CompactEntry where
  old : Nat
  new : Nat
  sizeWords : Nat
deriving DecidableEq, Repr

abbrev CompactPlan := List CompactEntry

/-- The displaced marks, by new address. -/
abbrev SideMarks := Nat → Option Nat

/-- The largest size a `CompactEntry` holds. -/
def maxEntryWords : Nat := 4294967295

/-- A mark that says more than that the object is there. -/
def Mark.HasState (w : Nat) : Prop := hash w ≠ 0 ∨ age w ≠ 0 ∨ nearDeath w ≠ 0

instance (w : Nat) : Decidable (Mark.HasState w) :=
  inferInstanceAs (Decidable (_ ∨ _ ∨ _))

/-- What phase B leaves of a space: its headers, its side marks, its plan and its new top. -/
structure Forwarded where
  mem : Mem
  side : SideMarks
  plan : CompactPlan
  newTop : Nat

/-- `forwarding_compute`, from `addr` on and for at most so many objects. -/
def forwardFrom (top : Nat) : Nat → Nat → Nat → Mem → SideMarks → Option Forwarded
  | 0, _, _, _, _ => none
  | fuel + 1, addr, pointer, mem, side =>
    if addr < top then do
      let size ← instanceSizeWords mem addr
      let m := mem addr
      if Mark.gcMark m = 1 then
        -- the size of an entry is a `u32`, which the source asserts
        if maxEntryWords < size then none
        else do
          let side := if Mark.HasState m
            then Function.update side pointer (some (Mark.withGcMark m 0)) else side
          let out ← forwardFrom top fuel (addr + size) (pointer + size)
            (Function.update mem addr (oopAt pointer)) side
          some { out with plan := ⟨addr, pointer, size⟩ :: out.plan }
      else forwardFrom top fuel (addr + size) pointer mem side
    else some ⟨mem, side, [], pointer⟩

def forwardingCompute (start top : Nat) (mem : Mem) (side : SideMarks) : Option Forwarded :=
  forwardFrom top (top - start + 1) start start mem side

/-! ## C: rewrite -/

def forwardChase (mem : Mem) (w : Nat) : Nat :=
  if IsMem w ∧ IsMem (mem (memAddr w)) then mem (memAddr w) else w

/-- `rewrite_entry`: the body first, dispatched on the klass at its old address, then the klass
field. -/
def rewriteEntry (mem : Mem) (e : CompactEntry) : Option Mem := do
  let klassField := mem (e.old + 1)
  let mem ← forEachOopField id Function.update (fun mem w => some (mem, forwardChase mem w)) mem
    e.old (memAddr klassField)
  some (Function.update mem (e.old + 1) (forwardChase mem klassField))

def CodeRoot.chase (mem : Mem) (r : CodeRoot) : CodeRoot := r.setWord (forwardChase mem r.word)

/-! ## D: slide -/

/-- `slide_young`. -/
def slide (mem : Mem) (plan : CompactPlan) : Mem :=
  plan.foldl (fun mem e => copyWords mem e.old e.new e.sizeWords) mem

namespace Universe

/-- `clear_through`. -/
def clearThrough (u : Universe) (top : Nat) : Universe :=
  if top ≤ u.old.start then u
  else { u with offsets := fun i => if i ≤ u.cardIndex (top - 1) then 0 else u.offsets i }

/-- `slide_old`: the offset table is rebuilt on the way. -/
def slideOld (u : Universe) (plan : CompactPlan) : Universe :=
  plan.foldl (fun u e => { u with mem := copyWords u.mem e.old e.new e.sizeWords }.recordObject
    e.new e.sizeWords) (u.clearThrough u.old.top)

end Universe

/-! ## E: restore the marks -/

/-- The mark of one moved object; `tagged_contents` comes from its klass. -/
def restoreMark (side : SideMarks) (mem : Mem) (e : CompactEntry) : Option Mem := do
  let k ← klassOop mem (mem (e.new + 1))
  let base := (side e.new).getD Mark.pristine
  some (Function.update mem e.new
    (Mark.withGcMark (Mark.withTaggedContents base (1 - untaggedAt mem k)) 0))

def restoreMarks (side : SideMarks) (mem : Mem) (plan : CompactPlan) : Option Mem :=
  plan.foldlM (restoreMark side) mem

namespace Universe

/-! ## F: afterwards -/

/-- `post`: the cards of old gen's live range are cleaned, then dirtied. -/
def post (u : Universe) : Universe :=
  let u := if u.old.start < u.old.top then
      { u with dirty := fun i => if i ≤ u.cardIndex (u.old.top - 1) then false else u.dirty i }
    else u
  { u.recordMultistores u.old.start u.old.top with ageTable := fun _ => 0 }

structure FullGcReport where
  markedWords : Nat
  liveAfter : Nat
  reclaimedWords : Nat
deriving Repr

/-- Phases B to F. -/
def compact (u : Universe) (markedWords : Nat) : Option (Universe × FullGcReport) := do
  let eden ← forwardingCompute u.eden.start u.eden.top u.mem fun _ => none
  let survivors ← forwardingCompute u.fromSpace.start u.fromSpace.top eden.mem eden.side
  let olds ← forwardingCompute u.old.start u.old.top survivors.mem survivors.side
  let roots := u.roots.map (forwardChase olds.mem)
  let mem ← (eden.plan ++ survivors.plan ++ olds.plan).foldlM rewriteEntry olds.mem
  let codeRoots := u.codeRoots.map (CodeRoot.chase mem)
  let mem := slide (slide mem eden.plan) survivors.plan
  let moved := { u with mem := mem, roots := roots, codeRoots := codeRoots }.slideOld olds.plan
  let mem ← restoreMarks olds.side moved.mem eden.plan
  let mem ← restoreMarks olds.side mem survivors.plan
  let mem ← restoreMarks olds.side mem olds.plan
  let u' := { moved with
    mem := mem
    eden := { u.eden with top := eden.newTop }
    fromSpace := { u.fromSpace with top := survivors.newTop }
    old := { u.old with top := olds.newTop } }.post
  some (u', {
    markedWords := markedWords
    liveAfter := (eden.newTop - u.eden.start) + (survivors.newTop - u.fromSpace.start) +
      (olds.newTop - u.old.start)
    reclaimedWords := (u.eden.top - eden.newTop) + (u.fromSpace.top - survivors.newTop) +
      (u.old.top - olds.newTop) })

/-- `full_gc`. -/
def fullGc (u : Universe) : Option (Universe × FullGcReport) :=
  if u.gcEnabled then do
    let st ← u.mark
    let u := { u with mem := st.mem }
    (u.flushNmethods (u.weakSweep ++ u.idleNmethods)).compact st.markedWords
  else none

end Universe

end WinVm.Memory
