import Mathlib
import WinVm.Interpreter.Lookup

/-!
# Inline caches

The per-send-site cache of `interpreter/ic.rs`: the four words of a site, its packed meta
word, the poly pairs array, `resolve`, `reverify_poly`, the transition table
`ic_transition` row by row, and `send_generic` with its fast path (no compiled code). The
one allocation of a transition, the pairs array, may trigger a moving collection; where it
goes and whether it collects is the `Alloc` argument. A failed `expect` is `none`.
-/

namespace WinVm.Interpreter

/-! ## Site words -/

def icGuardPoly : Int := 1
def icGuardMega : Int := 2
def icPolyMaxPairs : Nat := 4
def icPolyArrayLen : Nat := 12

namespace SendSite

/-- Bits 0..8 of the meta word. -/
def argc (s : SendSite) : Nat := s.info % 2 ^ 8

/-- Bits 8..32 of the meta word. -/
def epoch (s : SendSite) : Nat := s.info / 2 ^ 8 % 2 ^ 24

def setMeta (s : SendSite) (epoch : Nat) : SendSite := { s with info := s.argc + epoch * 2 ^ 8 }

def setMono (s : SendSite) (k m : Addr) (epoch : Nat) : SendSite :=
  { s with guard := .ref k, target := .ref m }.setMeta epoch

def setPoly (s : SendSite) (pairs : Addr) (epoch : Nat) : SendSite :=
  { s with guard := .smi icGuardPoly, target := .ref pairs }.setMeta epoch

def setMega (s : SendSite) : SendSite := { s with guard := .smi icGuardMega, target := .nil }

def setEmpty (s : SendSite) : SendSite := { s with guard := .nil, target := .nil }

end SendSite

namespace Vm

/-- `InterpreterIc::at`. -/
def site (vm : Vm) (caller : Addr) (icIdx : Nat) : Option SendSite :=
  (vm.methods caller).bind fun m => m.ics[icIdx]?

def setSite (vm : Vm) (caller : Addr) (icIdx : Nat) (s : SendSite) : Vm :=
  { vm with
    methods := Function.update vm.methods caller
      ((vm.methods caller).map fun m => { m with ics := m.ics.set icIdx s }) }

def setArray (vm : Vm) (a : Addr) (pairs : List Word) : Vm :=
  { vm with arrays := Function.update vm.arrays a (some pairs) }

/-- `KlassOop::try_from(w).is_some()`. -/
def isKlass (vm : Vm) : Word → Bool
  | .ref a => (vm.klasses a).isSome
  | _ => false

/-- `MethodOop::try_from(w)`. -/
def asMethod (vm : Vm) : Word → Option Addr
  | .ref a => if (vm.methods a).isSome then some a else none
  | _ => none

end Vm

/-! ## The pairs array -/

/-- Element `i` of a pairs array (key, method, key, method, …, then one count an arm). -/
def pairAt (pairs : List Word) (i : Nat) : Word := pairs.getD i .nil

/-- Occupied pairs from pair `i` on, at most `n` of them. -/
def polyArityFrom (vm : Vm) (pairs : List Word) : Nat → Nat → Nat
  | 0, i => i
  | n + 1, i => if vm.isKlass (pairAt pairs (2 * i)) then polyArityFrom vm pairs n (i + 1) else i

/-- Index of the first unoccupied pair. -/
def polyArity (vm : Vm) (pairs : List Word) : Nat := polyArityFrom vm pairs icPolyMaxPairs 0

/-- Arm `i`'s hit count; `nil` reads as 0. -/
def polyCountAt (pairs : List Word) (i : Nat) : Int :=
  match pairAt pairs (2 * icPolyMaxPairs + i) with
  | .smi v => v
  | _ => 0

/-- Saturating bump of arm `i`'s count. -/
def polyCountBump (pairs : List Word) (i : Nat) : List Word :=
  let c := polyCountAt pairs i
  if c < 2 ^ 31 - 1 then pairs.set (2 * icPolyMaxPairs + i) (.smi (c + 1)) else pairs

/-- The arm of class `k` among pairs `i`, …, `i + n - 1`. -/
def findArm (pairs : List Word) (k : Addr) : Nat → Nat → Option Nat
  | 0, _ => none
  | n + 1, i => if pairAt pairs (2 * i) = .ref k then some i else findArm pairs k n (i + 1)

/-- An arm `reverify_poly` keeps: class, method and hit count. -/
abbrev KeptArm := Addr × Addr × Int

def keptKey (kept : List KeptArm) (i : Nat) : Word :=
  match kept[i]? with
  | some arm => .ref arm.1
  | none => .nil

def keptMethod (kept : List KeptArm) (i : Nat) : Word :=
  match kept[i]? with
  | some arm => .ref arm.2.1
  | none => .nil

def keptCount (kept : List KeptArm) (i : Nat) : Word :=
  match kept[i]? with
  | some arm => .smi arm.2.2
  | none => .nil

/-- What `reverify_poly` writes back: the kept arms compacted left, `nil` behind them, and the
count that travels with each arm. -/
def rebuildPairs (kept : List KeptArm) : List Word :=
  [keptKey kept 0, keptMethod kept 0, keptKey kept 1, keptMethod kept 1,
   keptKey kept 2, keptMethod kept 2, keptKey kept 3, keptMethod kept 3,
   keptCount kept 0, keptCount kept 1, keptCount kept 2, keptCount kept 3]

/-! ## Transitions -/

/-- `L(k)`: for a super site the lookup starts at `holder.superclass`, whatever the
receiver class. -/
def resolve (vm : Vm) (caller selector : Addr) (isSuper : Bool) (rcvrKlass : Addr) :
    Option (Option Addr × Vm) :=
  if isSuper then
    match (vm.methods caller).map Method.holder with
    | some (.ref h) =>
      match vm.klasses h with
      | some holder =>
        match holder.superclass with
        | .ref s => if (vm.klasses s).isSome then some (vm.lookup s selector) else some (none, vm)
        | _ => some (none, vm)
      | none => none
    | _ => none
  else some (vm.lookup rcvrKlass selector)

/-- The loop of `reverify_poly` over the arms `i`, …, `i + n - 1`: re-resolve each, keep
the count of those that still resolve. -/
def reverifyArms (caller selector : Addr) (isSuper : Bool) (pairs : List Word) :
    Nat → Nat → Vm → Option (List KeptArm × Vm)
  | 0, _, vm => some ([], vm)
  | n + 1, i, vm =>
    match pairAt pairs (2 * i) with
    | .ref k => do
      let (r, vm) ← resolve vm caller selector isSuper k
      let (kept, vm) ← reverifyArms caller selector isSuper pairs n (i + 1) vm
      match r with
      | some m => return ((k, m, polyCountAt pairs i) :: kept, vm)
      | none => return (kept, vm)
    | _ => none

/-- Row 8: the pairs array rewritten in place. -/
def reverifyPoly (vm : Vm) (caller selector : Addr) (isSuper : Bool) (a : Addr)
    (pairs : List Word) : Option (List Word × Vm) := do
  let (kept, vm) ← reverifyArms caller selector isSuper pairs (polyArity vm pairs) 0 vm
  return (rebuildPairs kept, vm.setArray a (rebuildPairs kept))

/-- Where a fresh pairs array goes, and the collection its allocation triggers, if any. -/
structure Alloc where
  gc : Option (Equiv.Perm Addr)
  addr : Addr

def Alloc.moved (al : Alloc) : Equiv.Perm Addr := al.gc.getD (Equiv.refl Addr)

def Alloc.collect (al : Alloc) (vm : Vm) : Vm :=
  match al.gc with
  | some ρ => vm.collect ρ
  | none => vm

/-- The allocated address is free once the collection is over. -/
def Alloc.Fresh (al : Alloc) (vm : Vm) : Prop :=
  (al.collect vm).klasses al.addr = none ∧ (al.collect vm).methods al.addr = none ∧
    (al.collect vm).arrays al.addr = none

/-- What a send did: the state, how objects moved, and the method it activates (`none` is
`doesNotUnderstand`). -/
structure Outcome where
  vm : Vm
  moved : Equiv.Perm Addr
  method : Option Addr

def Outcome.stay (vm : Vm) (method : Option Addr) : Outcome := ⟨vm, Equiv.refl Addr, method⟩

/-- Rows 1 and 2, also entered from row 8 when no arm is left. -/
def transitionEmpty (vm : Vm) (caller : Addr) (icIdx : Nat) (s : SendSite) (k : Addr) :
    Option Outcome := do
  let (r, vm) ← resolve vm caller s.sel s.isSuper k
  match r with
  | some m => return .stay (vm.setSite caller icIdx (s.setMono k m vm.icEpoch)) (some m)
  | none => return .stay vm none

/-- Row 4: same class, stale epoch. -/
def transitionSelfHeal (vm : Vm) (caller : Addr) (icIdx : Nat) (s : SendSite) (k0 : Addr) :
    Option Outcome := do
  let (r, vm) ← resolve vm caller s.sel s.isSuper k0
  match r with
  | some m => return .stay (vm.setSite caller icIdx (s.setMono k0 m vm.icEpoch)) (some m)
  | none => return .stay (vm.setSite caller icIdx s.setEmpty) none

/-- The method of a mono arm being demoted: its target, or a fresh resolution where the
target is compiled code. -/
def oldArm (vm : Vm) (caller : Addr) (s : SendSite) (k0 : Addr) : Option (Addr × Vm) :=
  match vm.asMethod s.target with
  | some m0 => some (m0, vm)
  | none =>
    match resolve vm caller s.sel s.isSuper k0 with
    | some (some m0, vm) => some (m0, vm)
    | _ => none

/-- A fresh pairs array with its two arms; the triggering dispatch is arm 1's first hit. -/
def twoPairs (k0 m0 k m : Addr) : List Word :=
  [.ref k0, .ref m0, .ref k, .ref m, .nil, .nil, .nil, .nil, .nil, .smi 1, .nil, .nil]

/-- Row 5 behind the allocation, everything re-derived: the old arm is read through the fresh
view and copied as it is, and the pair is stamped with the current epoch. -/
def demoteMono (vm : Vm) (caller : Addr) (icIdx : Nat) (k m : Addr) (al : Alloc) :
    Option Outcome := do
  let s ← vm.site caller icIdx
  match s.guard with
  | .ref k0 =>
    if (vm.klasses k0).isSome then
      let (m0, vm) ← oldArm vm caller s k0
      let vm := vm.setArray al.addr (twoPairs k0 m0 k m)
      return ⟨vm.setSite caller icIdx (s.setPoly al.addr vm.icEpoch), al.moved, some m⟩
    else none
  | _ => none

/-- Rows 5 and 6: another class. -/
def transitionToPoly (vm : Vm) (caller : Addr) (icIdx : Nat) (s : SendSite) (k : Addr)
    (al : Alloc) : Option Outcome := do
  let (r, vm) ← resolve vm caller s.sel s.isSuper k
  match r with
  | none => return .stay vm none
  | some m => demoteMono (al.collect vm) (al.moved caller) icIdx (al.moved k) (al.moved m) al

/-- Rows 7, 9, 10 and 11: the probe of a poly site whose arms are current. -/
def transitionProbe (vm : Vm) (caller : Addr) (icIdx : Nat) (s : SendSite) (a : Addr)
    (pairs : List Word) (k : Addr) : Option Outcome :=
  let arity := polyArity vm pairs
  match findArm pairs k arity 0 with
  | some i =>
    return .stay (vm.setArray a (polyCountBump pairs i)) (vm.asMethod (pairAt pairs (2 * i + 1)))
  | none => do
    let (r, vm) ← resolve vm caller s.sel s.isSuper k
    match r with
    | none => return .stay vm none
    | some m =>
      if arity < icPolyMaxPairs then
        let pairs := ((pairs.set (2 * arity) (.ref k)).set (2 * arity + 1) (.ref m)).set
          (2 * icPolyMaxPairs + arity) (.smi 1)
        return .stay ((vm.setArray a pairs).setSite caller icIdx (s.setPoly a vm.icEpoch)) (some m)
      else return .stay (vm.setSite caller icIdx s.setMega) (some m)

/-- Rows 7 to 11, with row 8 in front when the stamp is stale. -/
def transitionPoly (vm : Vm) (caller : Addr) (icIdx : Nat) (s : SendSite) (a : Addr)
    (pairs : List Word) (k : Addr) : Option Outcome :=
  if s.epoch ≠ vm.icEpoch then do
    let (pairs, vm) ← reverifyPoly vm caller s.sel s.isSuper a pairs
    if polyArity vm pairs = 0 then
      transitionEmpty (vm.setSite caller icIdx s.setEmpty) caller icIdx s.setEmpty k
    else
      let s := s.setPoly a vm.icEpoch
      transitionProbe (vm.setSite caller icIdx s) caller icIdx s a pairs k
  else transitionProbe vm caller icIdx s a pairs k

/-- Every non-fast-path case of the transition table. -/
def icTransition (vm : Vm) (caller : Addr) (icIdx : Nat) (k : Addr) (al : Alloc) :
    Option Outcome := do
  let s ← vm.site caller icIdx
  match s.guard with
  | .nil => transitionEmpty vm caller icIdx s k
  | .ref k0 =>
    if (vm.klasses k0).isSome then
      if k0 = k then transitionSelfHeal vm caller icIdx s k0
      else transitionToPoly vm caller icIdx s k al
    else none
  | .smi v =>
    if v = icGuardPoly then
      match s.target with
      | .ref a => do
        let pairs ← vm.arrays a
        transitionPoly vm caller icIdx s a pairs k
      | _ => none
    else if v = icGuardMega then do
      let (r, vm) ← resolve vm caller s.sel s.isSuper k
      return .stay vm r
    else none

/-- The send: the mono fast path under a current stamp, else the transition table. A smi
target names compiled code, which is never entered with the JIT off. -/
def sendGeneric (vm : Vm) (caller : Addr) (icIdx : Nat) (k : Addr) (al : Alloc) :
    Option Outcome := do
  let s ← vm.site caller icIdx
  if s.guard = .ref k ∧ s.epoch = vm.icEpoch then
    match s.target with
    | .smi _ => icTransition vm caller icIdx k al
    | t => do
      let m ← vm.asMethod t
      return .stay vm (some m)
  else icTransition vm caller icIdx k al

end WinVm.Interpreter
