import WinVm.Interpreter.Lookup

/-!
# The code table

`codecache/nmethod.rs`: the nmethods the compiler has published, and the five indexes over
them. `slots` owns the nmethods and reuses freed slots; `byKey`, `byBlock` and `osrTable` are
hash maps keyed by raw oops; `byAddr` is sorted by code address. A hash map is the partial
function it implements, and an oop is its address.

Operations that `expect` something of the table return `none` where the source panics.
-/

namespace WinVm.Codecache

open WinVm.Interpreter

/-! ## Nmethods -/

/-- A published range of the code cache. -/
structure CodeHandle where
  base : Nat
  len : Nat
deriving DecidableEq, Repr

def CodeHandle.Contains (h : CodeHandle) (pc : Nat) : Prop := h.base ≤ pc ∧ pc < h.base + h.len

instance (h : CodeHandle) (pc : Nat) : Decidable (h.Contains pc) :=
  inferInstanceAs (Decidable (_ ∧ _))

/-- The ranges do not overlap. -/
def CodeHandle.Apart (h h' : CodeHandle) : Prop :=
  h.base + h.len ≤ h'.base ∨ h'.base + h'.len ≤ h.base

/-- The lattice of a compiled call site. -/
inductive IcState where
  | unresolved
  | mono (klass : Addr) (target : Nat)
  | pic (stub : CodeHandle)
  | mega (stub : CodeHandle)
deriving DecidableEq, Repr

/-- A compiled call site; `superKlass` is the fixed superclass of a super send. -/
structure IcSite where
  off : Nat
  selector : Addr
  argc : Nat
  state : IcState
  superKlass : Option Addr
deriving DecidableEq, Repr

inductive NmState where
  | alive
  | notEntrant
  | zombie
deriving DecidableEq, Repr

/-- An nmethod. `method` is the method the driver compiled, which the source keeps in the
literal pool only, as it does those of the inlined scopes; `osrBci` is the loop header of its
OSR map. A block nmethod has its block in `blockMethod`, and its key is a filler. -/
structure Nmethod where
  id : Nat
  method : Addr
  keyKlass : Addr
  keySelector : Addr
  code : CodeHandle
  entryOff : Nat
  verifiedEntryOff : Nat
  state : NmState
  version : Nat
  icSites : List IcSite
  blockMethod : Option Addr
  inlined : List Addr := []
  inlineDeps : List (Addr × Addr)
  selfDevirt : Bool
  osrBci : Option Nat
  osrColdSends : Nat
deriving DecidableEq, Repr

namespace Nmethod

def key (nm : Nmethod) : Addr × Addr := (nm.keyKlass, nm.keySelector)

/-- An OSR compile that baked cold send sites; ordinary dispatch declines it. -/
def isHalfWarmOsr (nm : Nmethod) : Bool := nm.osrBci.isSome && decide (0 < nm.osrColdSends)

end Nmethod

/-! ## The table -/

structure CodeTable where
  slots : List (Option Nmethod)
  byKey : Addr × Addr → Option Nat
  byBlock : Addr → Option Nat
  osrTable : Addr × Addr × Nat → Option Nat
  byAddr : List (Nat × Nat)

namespace CodeTable

def empty : CodeTable :=
  { slots := [], byKey := fun _ => none, byBlock := fun _ => none, osrTable := fun _ => none,
    byAddr := [] }

def get (ct : CodeTable) (id : Nat) : Option Nmethod := (ct.slots[id]?).join

/-- The first free slot, or one past the end. -/
def freeSlot (ct : CodeTable) : Nat := ct.slots.findIdx (·.isNone)

/-- Write a slot, appending it if it is one past the end. -/
def setSlot (slots : List (Option Nmethod)) (i : Nat) (v : Option Nmethod) :
    List (Option Nmethod) :=
  if i < slots.length then slots.set i v else slots ++ [v]

/-- `partition_point` of a slice. -/
def partitionPoint (p : Nat × Nat → Bool) (l : List (Nat × Nat)) : Nat := (l.takeWhile p).length

def install (ct : CodeTable) (nm : Nmethod) : CodeTable × Nat :=
  let id := ct.freeSlot
  let pos := partitionPoint (fun e => decide (e.1 < nm.code.base)) ct.byAddr
  let ct' := { ct with
    slots := setSlot ct.slots id (some { nm with id })
    byAddr := ct.byAddr.insertIdx pos (nm.code.base, id) }
  match nm.blockMethod with
  | some b => ({ ct' with byBlock := Function.update ct.byBlock b (some id) }, id)
  | none => ({ ct' with byKey := Function.update ct.byKey nm.key (some id) }, id)

def findByPc (ct : CodeTable) (pc : Nat) : Option Nat :=
  let idx := partitionPoint (fun e => decide (e.1 ≤ pc)) ct.byAddr
  if idx = 0 then none
  else
    match ct.byAddr[idx - 1]? with
    | none => none
    | some (base, id) =>
      match ct.get id with
      | none => none
      | some nm => if base ≤ pc ∧ pc < base + nm.code.len then some id else none

def lookup (ct : CodeTable) (k sel : Addr) : Option Nat := ct.byKey (k, sel)

def lookupOsr (ct : CodeTable) (k sel : Addr) (bci : Nat) : Option Nat :=
  ct.osrTable (k, sel, bci)

def installOsr (ct : CodeTable) (k sel : Addr) (bci id : Nat) : CodeTable :=
  { ct with osrTable := Function.update ct.osrTable (k, sel, bci) (some id) }

def iterAlive (ct : CodeTable) : List Nmethod :=
  (ct.slots.filterMap id).filter (fun nm => decide (nm.state = .alive))

def notEntrantIds (ct : CodeTable) : List Nat :=
  ((ct.slots.filterMap id).filter (fun nm => decide (nm.state = .notEntrant))).map (·.id)

/-- Drop a map's entry for `k` if it still names `id`. -/
def unhook {κ : Type} [DecidableEq κ] (m : κ → Option Nat) (k : κ) (id : Nat) : κ → Option Nat :=
  if m k = some id then Function.update m k none else m

/-- Unhook one nmethod from all three maps; an entry that names a successor stays. -/
def unhookAll (ct : CodeTable) (nm : Nmethod) (id : Nat) : CodeTable :=
  { ct with
    osrTable :=
      match nm.osrBci with
      | some b => unhook ct.osrTable (nm.keyKlass, nm.keySelector, b) id
      | none => ct.osrTable
    byKey := unhook ct.byKey nm.key id
    byBlock :=
      match nm.blockMethod with
      | some b => unhook ct.byBlock b id
      | none => ct.byBlock }

/-- The two retirements do the same but for the state they leave. -/
def retire (ct : CodeTable) (id : Nat) (state : NmState) : Option CodeTable :=
  match ct.get id with
  | none => none
  | some nm =>
    some { ct.unhookAll nm id with slots := ct.slots.set id (some { nm with state }) }

def markZombie (ct : CodeTable) (id : Nat) : Option CodeTable := ct.retire id .zombie

def setNotEntrant (ct : CodeTable) (id : Nat) : Option CodeTable := ct.retire id .notEntrant

def remove (ct : CodeTable) (id : Nat) : Option (CodeTable × Nmethod) :=
  match ct.get id with
  | none => none
  | some nm =>
    match ct.byAddr.findIdx? (fun e => e.2 == id) with
    | none => none
    | some pos =>
      some ({ ct with slots := ct.slots.set id none, byAddr := ct.byAddr.eraseIdx pos }, nm)

/-! ## Collections -/

def IcState.updateKeys (f : Addr → Addr) : IcState → IcState
  | .mono klass target => .mono (f klass) target
  | s => s

def IcSite.updateKeys (f : Addr → Addr) (s : IcSite) : IcSite :=
  { s with
    selector := f s.selector
    state := IcState.updateKeys f s.state
    superKlass := s.superKlass.map f }

/-- Every Rust-side oop of an nmethod, its key klass only if the collector asks for it. -/
def updateNmethod (includeKeyKlass : Bool) (f : Addr → Addr) (nm : Nmethod) : Nmethod :=
  { nm with
    method := f nm.method
    keyKlass := if includeKeyKlass then f nm.keyKlass else nm.keyKlass
    keySelector := f nm.keySelector
    blockMethod := nm.blockMethod.map f
    icSites := nm.icSites.map (IcSite.updateKeys f)
    inlined := nm.inlined.map f
    inlineDeps := nm.inlineDeps.map (fun d => (f d.1, f d.2)) }

def updateKeys (ct : CodeTable) (includeKeyKlass : Bool) (f : Addr → Addr) : CodeTable :=
  { ct with slots := ct.slots.map (Option.map (updateNmethod includeKeyKlass f)) }

/-- One nmethod enters the maps again, unless it is retired. -/
def rehashOne (ct : CodeTable) (nm : Nmethod) : CodeTable :=
  if nm.state ≠ .alive then ct
  else
    match nm.blockMethod with
    | some b => { ct with byBlock := Function.update ct.byBlock b (some nm.id) }
    | none =>
      let ct := { ct with byKey := Function.update ct.byKey nm.key (some nm.id) }
      match nm.osrBci with
      | some b => ct.installOsr nm.keyKlass nm.keySelector b nm.id
      | none => ct

/-- The maps are rebuilt in slot order. -/
def rehash (ct : CodeTable) : CodeTable :=
  (ct.slots.filterMap id).foldl rehashOne
    { ct with byKey := fun _ => none, byBlock := fun _ => none, osrTable := fun _ => none }

/-- What a moving collection does to the table. -/
def relocate (ct : CodeTable) (f : Addr → Addr) : CodeTable := (ct.updateKeys true f).rehash

end CodeTable

end WinVm.Codecache
