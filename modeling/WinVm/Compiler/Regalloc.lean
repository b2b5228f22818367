import Mathlib.Data.List.Sort
import WinVm.Compiler.Ir
import WinVm.Lib.Dfs
import WinVm.Lib.Ranges

/-!
# Register allocation

`compiler/regalloc.rs` and the map builder of `compiler/oopmap.rs`. Blocks are laid out in
reverse postorder and operations numbered through; every vreg gets one interval of positions
from its first mention to its last use, widened over the ranges of backward edges.
Intervals that cross a safepoint are spilled for their whole life, the others go through a
linear scan, and profitable spilled ones get a resident register besides. Facts about values
only a deoptimisation reads are kept beside the intervals, as pairs of a vreg and a position.

Hash maps keyed by vreg are functions; `min_def` and `max_use` always have the same keys and
are one map of pairs. Positions are natural numbers; spill slots are numbered in 16 bits, as
`len as u16` does. `sort_by_key` is stable, as insertion sort is.
-/

namespace WinVm.Compiler

open WinVm.Compiler.Scopes (SafepointKind)
open WinVm.Lib

inductive Assignment where
  | reg (r : Nat)
  | spill (slot : Nat)
deriving DecidableEq, Repr

structure LiveInterval where
  vreg : VReg
  start : Nat
  stop : Nat
  isOop : Bool
  isFp : Bool
  crossesSafepoint : Bool
  crossesCall : Bool
  assignment : Option Assignment
  residentReg : Option Nat
deriving DecidableEq, Repr, Inhabited

/-! ## Linearization -/

namespace IrMethod

variable (m : IrMethod)

/-- `reverse_postorder`. -/
def blockOrder : List BlockId := Dfs.reversePostorder m.succs m.blocks.length

/-- The operations in linear order; the position of an operation is its index here. -/
def linear : List (Point × Ir) :=
  m.blockOrder.flatMap fun b => (m.code b).zipIdx.map fun x => ((b, x.2), x.1)

/-- The code before block `b` in an order. -/
def startIn (b : BlockId) : List BlockId → Nat
  | [] => 0
  | c :: cs => if c = b then 0 else (m.code c).length + startIn b cs

/-- `block_start_pos`. -/
def blockStart (b : BlockId) : Nat := m.startIn b m.blockOrder

/-- `block_end_pos`: the position of the block's last operation. -/
def blockEnd (b : BlockId) : Nat := m.blockStart b + (m.code b).length - 1

/-- The position of a program point. -/
def pos (x : Point) : Nat := m.blockStart x.1 + x.2

def positionsOf (p : Ir → Bool) : List Nat :=
  (m.linear.zipIdx.filter fun x => p x.1.2).map Prod.snd

def safepointPositions : List Nat := m.positionsOf Ir.isSafepoint

def callPositions : List Nat := m.positionsOf Ir.isCall

/-! ## Intervals -/

/-- `min_def` and `max_use` as one map. -/
abbrev Ranges := VReg → Option (Nat × Nat)

def noteUse (pos : Nat) (r : Ranges) (v : VReg) : Ranges :=
  Function.update r v <| some <|
    match r v with
    | none => (pos, pos)
    | some (s, e) => (s, max e pos)

/-- A definition moves the start but extends nothing: `max_use` is only set when absent. -/
def noteDef (pos : Nat) (r : Ranges) (v : VReg) : Ranges :=
  Function.update r v <| some <|
    match r v with
    | none => (pos, pos)
    | some (s, e) => (min s pos, e)

def noteOp (r : Ranges) (x : (Point × Ir) × Nat) : Ranges :=
  x.1.2.defs.foldl (noteDef x.2) (x.1.2.uses.foldl (noteUse x.2) r)

def mentionRanges : Ranges := m.linear.zipIdx.foldl noteOp fun _ => none

/-- The range of every edge to a block laid out at or before its source. -/
def loopRanges : List (Nat × Nat) :=
  m.blockOrder.flatMap fun b => (m.succs b).filterMap fun s =>
    if m.blockStart s ≤ m.blockStart b then some (m.blockStart s, m.blockEnd b) else none

/-- Receiver and unified argument and temporary slots: what every rebuilt root frame reads. -/
def frameVregs : List VReg := List.range (m.argc + m.ntemps + 1)

def sitesAt (x : Point) : List DeoptRaw :=
  ((m.blocks[x.1]?.map IrBlock.deoptSites).getD []).filterMap fun site =>
    if site.1 = x.2 then some site.2 else none

/-- The vregs a deoptimisation at this operation resolves, as far as liveness does not keep
them alive by itself: traps and polls, and every site in an inlined body. -/
def recordedAt (x : Point) : List VReg :=
  (match (m.sitesAt x).find? fun raw => raw.kind = .uncommonTrap ∨ raw.kind = .loopPoll with
    | some raw => m.frameVregs ++ raw.stack
    | none => []) ++
  (match (m.sitesAt x).find? fun raw => !raw.inline.isEmpty with
    | some raw => m.frameVregs ++
        (raw.inline.flatMap fun l => l.receiver :: l.slots ++ l.callerPendingStack) ++ raw.stack
    | none => [])

/-- Each recorded vreg at the site and at every safepoint laid out before it. -/
def recordedFacts : List (VReg × Nat) :=
  m.linear.zipIdx.flatMap fun x => (m.recordedAt x.1.1).flatMap fun v =>
    (v, x.2) :: (m.safepointPositions.filter (· < x.2)).map fun sp => (v, sp)

/-- A recorded fact outside its vreg's range, in one loop range with it, makes the vreg
loop-carried: a fact at every safepoint of that loop range outside the vreg's own. -/
def loopMapFacts : List (VReg × Nat) :=
  m.recordedFacts.flatMap fun (v, p) =>
    match m.mentionRanges v with
    | none => []
    | some (s, e) =>
      if s ≤ p ∧ p ≤ e then []
      else m.loopRanges.flatMap fun (ls, le) =>
        if ls ≤ p ∧ p ≤ le ∧ s ≤ le ∧ ls ≤ e then
          (m.safepointPositions.filter fun sp =>
            ls ≤ sp ∧ sp ≤ le ∧ ¬ (s < sp ∧ sp < e)).map fun sp => (v, sp)
        else []

def extraOopLive : List (VReg × Nat) := m.recordedFacts ++ m.loopMapFacts

/-- `deopt_live_widen`: the promoted context temps, at every deoptimisation site. -/
def ctxFacts : List (VReg × Nat) :=
  m.linear.zipIdx.flatMap fun x =>
    if (m.sitesAt x.1.1).isEmpty then [] else m.ctxVregs.map fun cv => (cv, x.2)

def widenCtx (r : Option (Nat × Nat)) (sp : Nat) : Option (Nat × Nat) :=
  match r with
  | none => some (0, sp + 1)
  | some (s, e) => some (s, if e ≤ sp then sp + 1 else e)

def deoptReferenced (v : VReg) : Bool :=
  (m.extraOopLive.map Prod.fst).contains v || (m.ctxFacts.map Prod.fst).contains v

/-- The range a vreg ends up with: widened over loops, then past its context facts; a vreg
that only a deoptimisation mentions gets `(0, 0)`. -/
def range (v : VReg) : Option (Nat × Nat) :=
  let widened := (m.mentionRanges v).map (widen m.loopRanges)
  let ctx := (m.ctxFacts.filterMap fun f => if f.1 = v then some f.2 else none).foldl widenCtx
    widened
  match ctx with
  | some r => some r
  | none => if m.deoptReferenced v then some (0, 0) else none

def computeIntervals : List LiveInterval :=
  m.vregs.zipIdx.filterMap fun x =>
    (m.range x.2).map fun r =>
      { vreg := x.2
        start := r.1
        stop := r.2
        isOop := x.1.isOop
        isFp := x.1.isFp
        crossesSafepoint := m.deoptReferenced x.2 ||
          m.safepointPositions.any fun sp => r.1 ≤ sp && sp < r.2
        crossesCall := m.callPositions.any fun cp => r.1 ≤ cp && cp < r.2
        assignment := none
        residentReg := none }

end IrMethod

/-! ## The register file -/

/-- The registers a target offers: the two allocatable pools, the allocatable registers
residency may claim when unused, and the registers reserved for residents. Architectural
numbers; the floating-point file is numbered on its own. -/
structure RegFile where
  allocatable : List Nat
  fpAllocatable : List Nat
  residencyCandidates : List Nat
  residents : List Nat
  fpResidents : List Nat
  /-- Whether the emitter reloads residents after calls. -/
  reloadsAfterCalls : Bool
  allocatable_ne : allocatable ≠ []
  fpAllocatable_ne : fpAllocatable ≠ []
  allocatable_nodup : allocatable.Nodup
  fpAllocatable_nodup : fpAllocatable.Nodup
  residents_nodup : (residents ++ residencyCandidates).Nodup
  fpResidents_nodup : fpResidents.Nodup
  residents_disjoint : ∀ r ∈ residents, r ∉ allocatable
  fpResidents_disjoint : ∀ r ∈ fpResidents, r ∉ fpAllocatable

namespace RegFile

def x64 : RegFile where
  allocatable := [1, 2, 3, 6, 7, 8, 9]
  fpAllocatable := [0, 1, 2, 6, 7, 8, 9, 10, 11, 12, 13, 14, 15]
  residencyCandidates := [12, 13, 14]
  residents := []
  fpResidents := []
  reloadsAfterCalls := true
  allocatable_ne := by decide
  fpAllocatable_ne := by decide
  allocatable_nodup := by decide
  fpAllocatable_nodup := by decide
  residents_nodup := by decide
  fpResidents_nodup := by decide
  residents_disjoint := by decide
  fpResidents_disjoint := by decide

def aarch64 : RegFile where
  allocatable := [0, 1, 2, 3, 4, 5, 6, 7, 8, 9, 10, 11, 12, 13, 14, 15]
  fpAllocatable := [0, 1, 2, 3, 4, 5, 6, 7]
  residencyCandidates := [6, 7, 8, 9, 10, 11, 12, 13, 14, 15]
  residents := [21, 22, 23, 24, 25, 26, 27]
  fpResidents := [8, 9, 10, 11, 12, 13, 14, 15]
  reloadsAfterCalls := false
  allocatable_ne := by decide
  fpAllocatable_ne := by decide
  allocatable_nodup := by decide
  fpAllocatable_nodup := by decide
  residents_nodup := by decide
  fpResidents_nodup := by decide
  residents_disjoint := by decide
  fpResidents_disjoint := by decide

/-- The allocatable pool of a class, general purpose or floating point. -/
def pool (rf : RegFile) (isFp : Bool) : List Nat :=
  if isFp then rf.fpAllocatable else rf.allocatable

end RegFile

/-! ## Linear scan -/

/-- The state of the scan: assignments by interval index, the slots handed out, and for each
class the active intervals and the free registers (next to be popped first). -/
structure Scan where
  assigned : Nat → Option Assignment
  slotIsOop : List Bool
  active : Bool → List Nat
  free : Bool → List Nat

namespace Scan

variable (ivs : Nat → LiveInterval)

def spill (st : Scan) (i : Nat) : Scan :=
  { st with
    assigned := Function.update st.assigned i (some (.spill (st.slotIsOop.length % 65536)))
    slotIsOop := st.slotIsOop ++ [(ivs i).isOop] }

/-- Every interval that crosses a safepoint, before the scan starts. -/
def spillCrossing (st : Scan) (i : Nat) : Scan :=
  if (ivs i).crossesSafepoint then st.spill ivs i else st

/-- Return a register to the free list. -/
def release (st : Scan) (free : List Nat) (j : Nat) : List Nat :=
  match st.assigned j with
  | some (.reg r) => r :: free
  | _ => free

/-- Drop the active intervals that ended before `start` and free their registers. -/
def expire (st : Scan) (isFp : Bool) (start : Nat) : Scan :=
  { st with
    active := Function.update st.active isFp
      ((st.active isFp).filter fun j => !decide ((ivs j).stop < start))
    free := Function.update st.free isFp
      (((st.active isFp).filter fun j => decide ((ivs j).stop < start)).foldl st.release
        (st.free isFp)) }

/-- `max_by_key` on the end: the last of the furthest. -/
def furthest : List Nat → Option Nat
  | [] => none
  | j :: js =>
    match furthest js with
    | none => some j
    | some k => if (ivs k).stop < (ivs j).stop then some j else some k

def assign (st : Scan) (i r : Nat) : Scan :=
  { st with
    assigned := Function.update st.assigned i (some (.reg r))
    active := Function.update st.active (ivs i).isFp (st.active (ivs i).isFp ++ [i]) }

/-- One interval of the scan. -/
def step (st : Scan) (i : Nat) : Option Scan :=
  let isFp := (ivs i).isFp
  let st := st.expire ivs isFp (ivs i).start
  match st.free isFp with
  | r :: rest => some ({ st with free := Function.update st.free isFp rest }.assign ivs i r)
  | [] =>
    match furthest ivs (st.active isFp) with
    | none => none
    | some j =>
      if (ivs i).stop < (ivs j).stop then
        match st.assigned j with
        | some (.reg r) =>
          let st := st.spill ivs j
          some ({ st with
            active := Function.update st.active isFp ((st.active isFp).erase j) }.assign ivs i r)
        | _ => none
      else some (st.spill ivs i)

end Scan

/-- The allocator: the intervals with their assignments, and the slots with their kind. -/
def allocate (rf : RegFile) (intervals : List LiveInterval) :
    Option (List LiveInterval × List Bool) :=
  let ivs := fun i => intervals.getD i default
  let indices := List.range intervals.length
  let spilled := indices.foldl (Scan.spillCrossing ivs)
    { assigned := fun i => (ivs i).assignment
      slotIsOop := []
      active := fun _ => []
      free := rf.pool }
  let order := (indices.filter fun i => (spilled.assigned i).isNone).insertionSort
    fun i j => (ivs i).start ≤ (ivs j).start
  match order.foldlM (Scan.step ivs) spilled with
  | none => none
  | some st =>
    let result := intervals.zipIdx.map fun x => { x.1 with assignment := st.assigned x.2 }
    -- `verify_spill_all`
    if result.all fun iv => !(iv.crossesSafepoint &&
        (match iv.assignment with | some (.reg _) => true | _ => false)) then
      some (result, st.slotIsOop)
    else none

/-! ## Residents -/

namespace IrMethod

variable (m : IrMethod)

def satAdd (a b : Nat) : Nat := min (a + b) (2 ^ 32 - 1)

/-- The spans of backward edges, in block indices of the order. -/
def loopSpans : List (Nat × Nat) :=
  m.blockOrder.zipIdx.flatMap fun x => (m.succs x.1).filterMap fun s =>
    let j := m.blockOrder.idxOf s
    if j ≤ x.2 then some (j, x.2) else none

/-- Ten to the loop depth, at most three. -/
def weightOf (b : BlockId) : Nat :=
  let ix := m.blockOrder.idxOf b
  10 ^ min 3 (m.loopSpans.countP fun s => s.1 ≤ ix && ix ≤ s.2)

/-- The loop-weighted number of mentions of `v` that `mentions` selects. -/
def weightedCount (mentions : Ir → List VReg) (v : VReg) : Nat :=
  m.blocks.zipIdx.foldl (fun acc x =>
    x.1.code.foldl (fun acc op =>
      ((mentions op).filter (· = v)).foldl (fun acc _ => satAdd acc (m.weightOf x.2)) acc) acc) 0

def reads (v : VReg) : Nat := m.weightedCount Ir.uses v

def writes (v : VReg) : Nat := m.weightedCount Ir.defs v

def callWeights : List (Nat × Nat) :=
  (m.linear.zipIdx.filter fun x => x.1.2.isCall).map fun x => (x.2, m.weightOf x.1.1.1)

/-- Call-crossing intervals are admitted only where the emitter reloads after calls, and only
if the weighted reads clearly outnumber writes and crossed calls. -/
def admits (rf : RegFile) (iv : LiveInterval) : Bool :=
  if iv.crossesCall then
    rf.reloadsAfterCalls &&
      decide (satAdd (satAdd (m.writes iv.vreg)
        ((m.callWeights.filter fun c => iv.start ≤ c.1 && c.1 < iv.stop).map Prod.snd).sum) 2 <
          m.reads iv.vreg)
  else true

/-- Profitability first, length second, both descending. -/
def residentKey (iv : LiveInterval) : Nat × Nat :=
  (m.reads iv.vreg - m.writes iv.vreg, iv.stop - iv.start)

end IrMethod

/-- The registers of a class that residents may use: the reserved ones, and the candidates no
general-purpose interval was assigned. -/
def residentPool (rf : RegFile) (intervals : List LiveInterval) (isFp : Bool) : List Nat :=
  if isFp then rf.fpResidents
  else rf.residents ++ rf.residencyCandidates.filter fun r =>
    !intervals.any fun iv => !iv.isFp && iv.assignment == some (.reg r)

/-- Which register each resident interval got, and what each register of the pool is taken
for, by its index in the pool. -/
structure Residency where
  resident : Nat → Option Nat
  taken : Bool → Nat → List (Nat × Nat)

namespace Residency

/-- The first register of the pool that is free over `[s, e]`; touching ends are allowed. -/
def place (pool : List Nat) (taken : Nat → List (Nat × Nat)) (s e : Nat) : Option (Nat × Nat) :=
  pool.zipIdx.find? fun x => (taken x.2).all fun t => e ≤ t.1 || t.2 ≤ s

def step (rf : RegFile) (intervals : List LiveInterval) (st : Residency) (i : Nat) : Residency :=
  let iv := intervals.getD i default
  match place (residentPool rf intervals iv.isFp) (st.taken iv.isFp) iv.start iv.stop with
  | none => st
  | some (reg, ri) =>
    { resident := Function.update st.resident i (some reg)
      taken := Function.update st.taken iv.isFp <|
        Function.update (st.taken iv.isFp) ri ((iv.start, iv.stop) :: st.taken iv.isFp ri) }

end Residency

/-- `assign_residents`. -/
def assignResidents (rf : RegFile) (m : IrMethod) (intervals : List LiveInterval) :
    List LiveInterval :=
  let iv := fun i => intervals.getD i default
  let candidates := (List.range intervals.length).filter fun i =>
    (match (iv i).assignment with | some (.spill _) => true | _ => false) &&
      m.admits rf (iv i) && decide (2 ≤ (iv i).stop - (iv i).start)
  let order := candidates.insertionSort fun i j =>
    (m.residentKey (iv j)).1 < (m.residentKey (iv i)).1 ∨
      (m.residentKey (iv j)).1 = (m.residentKey (iv i)).1 ∧
        (m.residentKey (iv j)).2 ≤ (m.residentKey (iv i)).2
  let st := order.foldl (Residency.step rf intervals) ⟨fun _ => none, fun _ _ => []⟩
  intervals.zipIdx.map fun x => { x.1 with residentReg := st.resident x.2 }

/-! ## The whole pass -/

structure RegallocResult where
  blockOrder : List BlockId
  intervals : List LiveInterval
  frameSlots : Nat
  slotIsOop : List Bool
  safepointPositions : List Nat
  extraOopLive : List (VReg × Nat)
  deoptNilInitSlots : List Nat

/-- Keep a vreg's slot alive past the last position any interval reaches. -/
def pin (v : Option VReg) (intervals : List LiveInterval) : List LiveInterval :=
  match v with
  | none => intervals
  | some cv =>
    let maxPos := (intervals.map LiveInterval.stop).foldl max 0 + 2
    intervals.map fun iv =>
      if iv.vreg = cv then { iv with stop := maxPos, crossesSafepoint := true } else iv

namespace IrMethod

variable (m : IrMethod)

/-- The whitelist of operations that neither divert control nor skip their definition. -/
def isLeading : Ir → Bool
  | .param _ | .constPool _ | .constSmi _ | .move _ _ => true
  | _ => false

/-- The vregs the leading run of the entry block defines. -/
def entryEarlyDefs : List VReg :=
  if m.isOsr then []
  else ((m.code (m.blockOrder.getD 0 0)).takeWhile isLeading).flatMap Ir.defs

def allDefs : List VReg := m.blocks.flatMap fun block => block.code.flatMap Ir.defs

/-- More than one static definition. -/
def multiDef (v : VReg) : Bool := 2 ≤ m.allDefs.count v

/-- Whether the prologue fills the slot of this interval's vreg with nil. -/
def nilFilled (iv : LiveInterval) : Bool :=
  ((m.extraOopLive.map Prod.fst).contains iv.vreg ||
    (iv.isOop && m.multiDef iv.vreg &&
      m.safepointPositions.any fun sp => iv.start < sp && sp < iv.stop)) &&
  !m.entryEarlyDefs.contains iv.vreg

def pinnedIntervals : List LiveInterval :=
  pin m.methodCtxVreg (pin m.blockClosureVreg m.computeIntervals)

def regalloc (rf : RegFile) : Option RegallocResult :=
  match allocate rf m.pinnedIntervals with
  | none => none
  | some (allocated, slotIsOop) =>
    let intervals := assignResidents rf m allocated
    some {
      blockOrder := m.blockOrder
      intervals := intervals
      frameSlots := slotIsOop.length % 65536
      slotIsOop := slotIsOop
      safepointPositions := m.safepointPositions
      extraOopLive := m.extraOopLive
      deoptNilInitSlots := (((intervals.filter m.nilFilled).filterMap fun iv =>
        match iv.assignment with
        | some (.spill slot) => some slot
        | _ => none).insertionSort (· ≤ ·)).dedup }

end IrMethod

/-- The slots that hold a live oop at `position`: strictly inside the interval, or an exact
fact for that position. -/
def buildForPosition (intervals : List LiveInterval) (position : Nat)
    (extraOopLive : List (VReg × Nat)) : List Nat :=
  intervals.filterMap fun iv =>
    if iv.isOop then
      match iv.assignment with
      | some (.spill slot) =>
        if (iv.start < position ∧ position < iv.stop) ∨ (iv.vreg, position) ∈ extraOopLive then
          some slot
        else none
      | _ => none
    else none

end WinVm.Compiler
