import WinVm.Codecache.Deps
import WinVm.Interpreter.Ic

/-!
# Dispatch truth

The three places that compile a method and publish it under `(class of the receiver, selector)`:
`activate_method` in `interpreter/send.rs`, `rt_osr_request` in `runtime/osr.rs` and the hatch at
the end of `rt_interpret_call` in `codecache/stubs.rs`; and the recompilation of
`runtime/recompile.rs`. A published nmethod answers every later send of its key, so it must have
been compiled from the method that lookup finds there.

Two of the three check this before they compile. `activate_method` does not: a super send brings
it an ancestor's method with a receiver of the subclass, and the ancestor's code is published
under, or the override's code entered for, the wrong key (`super_send_compiles_ancestor`). In runs
where each activation that passes the compile gate is of the method lookup finds, dispatch and
compiled code agree (`dispatch_truth`).
-/

namespace WinVm.Codecache

open WinVm.Interpreter CodeTable

/-! ## The model -/

/-- The counters word of a compiled method: bits 0-15, 16-31, 33 and 32. -/
structure Counters where
  invocation : Nat
  loopCount : Nat
  compileDisabled : Bool
  hasBp : Bool
deriving DecidableEq, Repr

/-- What `set_compile_disabled` writes: the whole word. -/
def Counters.disabled : Counters := ⟨0, 0, true, false⟩

/-- The VM as far as dispatch and compiled code go. `selector` and `counters` are words of the
compiled methods; `threshold` is the JIT mode, `none` where it is off; `compileEnabled` is the
debug switch. -/
structure Jit where
  vm : Vm
  ct : CodeTable
  selector : Addr → Addr
  counters : Addr → Counters
  threshold : Option Nat
  compileEnabled : Bool

/-- What the back end hands to the driver; `inlined` are the methods of its inlined scopes. -/
structure Body where
  code : CodeHandle
  verifiedEntryOff : Nat
  icSites : List IcSite
  inlined : List Addr
  inlineDeps : List (Addr × Addr)
  selfDevirt : Bool
  osrColdSends : Nat

/-- How a compile ends: never to be tried again, not now, no room in the code cache, or code. -/
inductive CompileResult where
  | noPermanent
  | notNow
  | exhausted
  | compiled (body : Body)

def invocationMax : Nat := 0xFFFF

def maxVersions : Nat := 3

namespace Jit

/-- The cached lookup. -/
def lookup (j : Jit) (k s : Addr) : Option Addr × Jit :=
  let (r, vm) := j.vm.lookup k s
  (r, { j with vm })

def setCounters (j : Jit) (m : Addr) (c : Counters) : Jit :=
  { j with counters := Function.update j.counters m c }

def setCompileDisabled (j : Jit) (m : Addr) : Jit := j.setCounters m .disabled

/-- `bump_invocation`. -/
def bumpInvocation (j : Jit) (m : Addr) : Nat × Jit :=
  let bumped := min ((j.counters m).invocation + 1) invocationMax
  (bumped, j.setCounters m { j.counters m with invocation := bumped })

/-- `saturate_invocation`, with the mode's threshold. -/
def saturateInvocation (j : Jit) (m : Addr) : Jit :=
  match j.threshold with
  | none => j
  | some n =>
    let want := max (j.counters m).invocation (min n invocationMax)
    j.setCounters m { j.counters m with invocation := want }

/-- The nmethod the driver installs. -/
def newNmethod (j : Jit) (k m : Addr) (isBlock : Bool) (version : Nat) (osrBci : Option Nat)
    (b : Body) : Nmethod :=
  { id := 0, method := m, keyKlass := k, keySelector := j.selector m, code := b.code, entryOff := 0,
    verifiedEntryOff := b.verifiedEntryOff, state := .alive, version, icSites := b.icSites,
    blockMethod := if isBlock then some m else none, inlined := b.inlined,
    inlineDeps := b.inlineDeps, selfDevirt := b.selfDevirt, osrBci,
    osrColdSends := if osrBci.isSome then b.osrColdSends else 0 }

/-- Install under the key, and in the OSR table if there is an OSR entry. -/
def publish (ct : CodeTable) (nm : Nmethod) : CodeTable × Nat :=
  let (ct, id) := ct.install nm
  match nm.osrBci with
  | some bci => (ct.installOsr nm.keyKlass nm.keySelector bci id, id)
  | none => (ct, id)

/-- `compile_method_full`. -/
def compileMethodFull (j : Jit) (k m : Addr) (isBlock : Bool) (version : Nat)
    (osrBci : Option Nat) : CompileResult → Jit × Option Nat
  | .noPermanent => (j.setCompileDisabled m, none)
  | .notNow => (j, none)
  | .exhausted => ({ j with threshold := none }, none)
  | .compiled b =>
    let (ct, id) := publish j.ct (j.newNmethod k m isBlock version osrBci b)
    ({ j with ct }.saturateInvocation m, some id)

def compileMethodVersioned (j : Jit) (k m : Addr) (version : Nat) (r : CompileResult) :
    Jit × Option Nat :=
  j.compileMethodFull k m false version none r

def compileMethod (j : Jit) (k m : Addr) (r : CompileResult) : Jit × Option Nat :=
  j.compileMethodVersioned k m 0 r

/-- The version is that of the code the key has now. The dispatch guard of the only caller has
found the method in a dictionary, so it is no block. -/
def compileMethodOsr (j : Jit) (k m : Addr) (bci : Nat) (r : CompileResult) : Jit × Option Nat :=
  let version := (((j.ct.lookup k (j.selector m)).bind j.ct.get).map (·.version)).getD 0
  j.compileMethodFull k m false version (some bci) r

/-- `make_not_entrant_lazy`, as far as the table goes. -/
def makeNotEntrantLazy (j : Jit) (id : Nat) : Option Jit :=
  (j.ct.setNotEntrant id).map fun ct => { j with ct }

/-- The nmethod a map names, if it is Alive. -/
def alive (j : Jit) (id : Option Nat) : Option (Nat × Nmethod) :=
  match id with
  | none => none
  | some id =>
    match j.ct.get id with
    | none => none
    | some nm => if nm.state = .alive then some (id, nm) else none

/-- The arm that `activate_method` and the hatch share: reuse the Alive nmethod of the key, heal
a half-warm one, or compile. -/
def reuseOrCompile (j : Jit) (k m : Addr) (heal fresh : CompileResult) : Option (Jit × Option Nat) :=
  match j.alive (j.ct.lookup k (j.selector m)) with
  | none => some (j.compileMethod k m fresh)
  | some (id, nm) =>
    if nm.isHalfWarmOsr then
      match j.compileMethodVersioned k m (nm.version + 1) heal with
      | (j, some newId) => (j.makeNotEntrantLazy id).map fun j => (j, some newId)
      | (j, none) => some (j, some id)
    else some (j, some id)

/-- `set_mono_compiled` on the caller's site, if it is empty or mono on the same class. -/
def seedSite (j : Jit) (icSite : Option (Addr × Nat)) (k id : Nat) : Jit :=
  match icSite with
  | none => j
  | some (caller, icIdx) =>
    match j.vm.site caller icIdx with
    | none => j
    | some s =>
      if s.guard = .nil ∨ s.guard = .ref k then
        let s := { s with guard := .ref k, target := .smi id }.setMeta j.vm.icEpoch
        { j with vm := j.vm.setSite caller icIdx s }
      else j

/-- The counter has reached the threshold and nothing forbids compiling. -/
def compileGate (j : Jit) (m : Addr) : Bool :=
  match j.threshold with
  | none => false
  | some n => decide (n ≤ min ((j.counters m).invocation + 1) invocationMax) &&
      !(j.counters m).compileDisabled && j.compileEnabled

/-- `activate_method` for a receiver of class `k`, up to the primitive and the interpreted body;
the result is the nmethod that is entered. -/
def activateMethod (j : Jit) (k m : Addr) (icSite : Option (Addr × Nat))
    (heal fresh : CompileResult) : Option (Jit × Option Nat) :=
  let gate := j.compileGate m
  let (_, j) := j.bumpInvocation m
  if gate then
    (j.reuseOrCompile k m heal fresh).map fun (j, compiled) =>
      match compiled with
      | some id => (j.seedSite icSite k id, some id)
      | none => (j, none)
  else some (j, none)

/-- `rt_osr_request` for an unmarked frame of `m` with a receiver of class `k`; a declined request
leaves the frame to the interpreter. -/
def rtOsrRequest (j : Jit) (k m : Addr) (targetBci : Nat) (r : CompileResult) : Jit × Option Nat :=
  let j := j.setCounters m { j.counters m with loopCount := 0 }
  if j.threshold.isNone || !j.compileEnabled then (j, none)
  else
    let (found, j) := j.lookup k (j.selector m)
    if found ≠ some m then (j, none)
    else
      match j.alive (j.ct.lookupOsr k (j.selector m) targetBci) with
      | some (id, nm) => if nm.isHalfWarmOsr then (j, none) else (j, some id)
      | none => j.compileMethodOsr k m targetBci r

/-- The hatch at the end of `rt_interpret_call`, after the interpreted run of `m`. The debug
switch is not asked. -/
def interpretCallHatch (j : Jit) (k m : Addr) (heal fresh : CompileResult) :
    Option (Jit × Option Nat) :=
  match j.threshold with
  | none => some (j, none)
  | some n =>
    let (bumped, j) := j.bumpInvocation m
    if n ≤ bumped ∧ (j.counters m).compileDisabled = false then
      let (found, j) := j.lookup k (j.selector m)
      if found ≠ some m then some (j, none) else j.reuseOrCompile k m heal fresh
    else some (j, none)

/-- The replacement is installed first, then the old code is retired; where there is none the
version is capped. -/
def replaceNmethod (id : Nat) : Jit × Option Nat → Option Jit
  | (j, some _) => j.makeNotEntrantLazy id
  | (j, none) =>
    (j.ct.get id).map fun nm =>
      { j with ct := { j.ct with slots := j.ct.slots.set id (some { nm with version := maxVersions }) } }

/-- `note_uncommon_trap`: `due` says that the trap counter has reached its limit, `changed` that
the profile is not the one of the compile. -/
def noteUncommonTrap (j : Jit) (id : Nat) (due changed : Bool) (r : CompileResult) : Option Jit :=
  match (if j.compileEnabled then j.alive (some id) else none) with
  | none => some j
  | some (id, nm) =>
    if !due || decide (maxVersions ≤ nm.version) then some j
    else
      match nm.blockMethod with
      | some blk =>
        if changed then
          replaceNmethod id (j.compileMethodFull nm.keyKlass blk true (nm.version + 1) none r)
        else some j
      | none =>
        match j.lookup nm.keyKlass nm.keySelector with
        | (none, j) => some j
        | (some m, j) =>
          if changed then
            replaceNmethod id (j.compileMethodVersioned nm.keyKlass m (nm.version + 1) r)
          else some j

/-- `install_method`, with the collection its allocation may trigger. -/
def install (j : Jit) (gc : Option (Equiv.Perm Addr)) (holder selector m : Addr) : Option Jit :=
  let ρ := gc.getD (Equiv.refl Addr)
  (installMethod j.vm j.ct gc holder selector m).map fun (vm, ct) =>
    { j with
      vm
      ct
      selector := fun a => ρ (j.selector (ρ.symm a))
      counters := fun a => j.counters (ρ.symm a) }

/-- A moving collection. -/
def collect (j : Jit) (ρ : Equiv.Perm Addr) : Jit :=
  { j with
    vm := j.vm.collect ρ
    ct := j.ct.relocate ρ
    selector := fun a => ρ (j.selector (ρ.symm a))
    counters := fun a => j.counters (ρ.symm a) }

/-- `flush_nmethod`, as far as the table goes. -/
def flush (j : Jit) (id : Nat) : Option Jit :=
  ((j.ct.markZombie id).bind (·.remove id)).map fun (ct, _) => { j with ct }

end Jit

/-! ## Runs -/

/-- What the interpreter, the compiled code and the collector ask of the VM, with what the compiler
and the heap answer. -/
inductive Op where
  | activate (k m : Addr) (icSite : Option (Addr × Nat)) (heal fresh : CompileResult)
  | osrRequest (k m : Addr) (targetBci : Nat) (r : CompileResult)
  | interpretCall (k m : Addr) (heal fresh : CompileResult)
  | uncommonTrap (id : Nat) (due changed : Bool) (r : CompileResult)
  | lookup (k s : Addr)
  | install (gc : Option (Equiv.Perm Addr)) (holder selector m : Addr)
  | collect (ρ : Equiv.Perm Addr)
  | flush (id : Nat)
  | setCompileEnabled (on : Bool)

namespace Jit

def exec (j : Jit) : Op → Option Jit
  | .activate k m icSite heal fresh => (j.activateMethod k m icSite heal fresh).map Prod.fst
  | .osrRequest k m targetBci r => some (j.rtOsrRequest k m targetBci r).1
  | .interpretCall k m heal fresh => (j.interpretCallHatch k m heal fresh).map Prod.fst
  | .uncommonTrap id due changed r => j.noteUncommonTrap id due changed r
  | .lookup k s => some (j.lookup k s).2
  | .install gc holder selector m => j.install gc holder selector m
  | .collect ρ => some (j.collect ρ)
  | .flush id => j.flush id
  | .setCompileEnabled on => some { j with compileEnabled := on }

end Jit

/-- The code cache hands out ranges that no nmethod uses. -/
def CompileResult.Fresh (ct : CodeTable) : CompileResult → Prop
  | .compiled b => 0 < b.code.len ∧ ∀ i nm, ct.get i = some nm → b.code.Apart nm.code
  | _ => True

def Op.Fresh (ct : CodeTable) : Op → Prop
  | .activate _ _ _ heal fresh => heal.Fresh ct ∧ fresh.Fresh ct
  | .osrRequest _ _ _ r => r.Fresh ct
  | .interpretCall _ _ heal fresh => heal.Fresh ct ∧ fresh.Fresh ct
  | .uncommonTrap _ _ _ r => r.Fresh ct
  | _ => True

/-- An activation that passes the compile gate is of the method lookup finds for the class of the
receiver. -/
def Op.ActivatesFound (j : Jit) : Op → Prop
  | .activate k m _ _ _ => j.compileGate m = true → j.vm.lookupUncached k (j.selector m) = some m
  | _ => True

/-- Runs from a VM without compiled code; `ok` restricts the operations. -/
inductive Reaches (ok : Jit → Op → Prop) : Jit → Prop
  | start {j : Jit} (hct : j.ct = empty) (hcache : CacheOk j.vm) : Reaches ok j
  | step {j j' : Jit} (op : Op) (h : Reaches ok j) (hfresh : op.Fresh j.ct) (hok : ok j op)
      (hexec : j.exec op = some j') : Reaches ok j'

/-! ## The invariant -/

/-- Every Alive nmethod of a method was compiled from what lookup finds for its key, and the
selector of its key is that of the method. -/
structure Truth (j : Jit) : Prop where
  coherent : Coherent j.ct
  cache : CacheOk j.vm
  compiledFrom : ∀ i nm, j.ct.get i = some nm → nm.state = .alive → nm.blockMethod = none →
    j.vm.lookupUncached nm.keyKlass nm.keySelector = some nm.method ∧
      nm.keySelector = j.selector nm.method

section Steps

variable {j j' : Jit} {k m id : Nat}

/-- A table whose Alive nmethods were there before. -/
theorem Truth.withTable (h : Truth j) {ct : CodeTable} (hc : Coherent ct)
    (hfrom : ∀ i nm', ct.get i = some nm' → nm'.state = .alive →
      ∃ nm, j.ct.get i = some nm ∧ nm.state = .alive ∧ nm.blockMethod = nm'.blockMethod ∧
        nm.keyKlass = nm'.keyKlass ∧ nm.keySelector = nm'.keySelector ∧ nm.method = nm'.method) :
    Truth { j with ct } := by
  refine ⟨hc, h.cache, fun i nm' hget halive hblock => ?_⟩
  obtain ⟨nm, hget₀, halive₀, hblock₀, hk, hs, hm⟩ := hfrom i nm' hget halive
  rw [← hk, ← hs, ← hm]
  exact h.compiledFrom i nm hget₀ halive₀ (hblock₀.trans hblock)

theorem Truth.lookup (h : Truth j) (k s : Addr) :
    ∃ c, j.lookup k s = (j.vm.lookupUncached k s, { j with vm := { j.vm with lookupCache := c } }) ∧
      Truth { j with vm := { j.vm with lookupCache := c } } := by
  obtain ⟨c, heq, hc⟩ := lookup_eq h.cache k s
  refine ⟨c, ?_, h.coherent, hc, h.compiledFrom⟩
  unfold Jit.lookup
  rw [heq]

theorem Truth.setCounters (h : Truth j) (m : Addr) (c : Counters) : Truth (j.setCounters m c) :=
  ⟨h.coherent, h.cache, h.compiledFrom⟩

theorem Truth.bumpInvocation (h : Truth j) (m : Addr) : Truth (j.bumpInvocation m).2 :=
  h.setCounters m _

theorem saturateInvocation_eq (j : Jit) (m : Addr) :
    ∃ c, j.saturateInvocation m = { j with counters := c } := by
  unfold Jit.saturateInvocation
  split
  · exact ⟨j.counters, rfl⟩
  · exact ⟨_, rfl⟩

/-- An OSR entry changes no slot. -/
theorem publish_spec {ct : CodeTable} (h : Coherent ct) {nm : Nmethod} (halive : nm.state = .alive)
    (hb : nm.osrBci ≠ none → nm.blockMethod = none) (hlen : 0 < nm.code.len)
    (hapart : ∀ i nm', ct.get i = some nm' → nm.code.Apart nm'.code) :
    (Jit.publish ct nm).2 = ct.freeSlot ∧ Coherent (Jit.publish ct nm).1 ∧
      ∀ i, (Jit.publish ct nm).1.get i =
        if i = ct.freeSlot then some { nm with id := ct.freeSlot } else ct.get i := by
  have hc := h.install halive hlen hapart
  rcases Option.eq_none_or_eq_some nm.osrBci with hbci | ⟨bci, hbci⟩
  · have hp : Jit.publish ct nm = ct.install nm := by simp only [Jit.publish, hbci]
    rw [hp]
    exact ⟨install_id, hc, get_install⟩
  · have hp : Jit.publish ct nm = ((ct.install nm).1.installOsr nm.keyKlass nm.keySelector bci
        (ct.install nm).2, (ct.install nm).2) := by simp only [Jit.publish, hbci]
    rw [hp]
    have hnew : (ct.install nm).1.get (ct.install nm).2 = some { nm with id := ct.freeSlot } := by
      rw [install_id, get_install, if_pos rfl]
    have hblock : nm.blockMethod = none := hb (by rw [hbci]; exact Option.some_ne_none bci)
    have hosr := @Coherent.installOsr _ hc _ bci { nm with id := ct.freeSlot } hnew halive hblock hbci
    exact ⟨install_id, hosr, get_install⟩

/-- What a compile does to the table: nothing, or one new nmethod of `m` in a free slot. -/
theorem Truth.compileMethodFull (h : Truth j) {isBlock : Bool} {version : Nat}
    {osrBci : Option Nat} {r : CompileResult} (hr : r.Fresh j.ct)
    (hb : osrBci ≠ none → isBlock = false)
    (hm : isBlock = false → j.vm.lookupUncached k (j.selector m) = some m)
    (he : j.compileMethodFull k m isBlock version osrBci r = (j', some id)) :
    Truth j' ∧ j.ct.get id = none ∧ (∃ nm, j'.ct.get id = some nm ∧ nm.method = m) ∧
      ∀ i, i ≠ id → j'.ct.get i = j.ct.get i := by
  cases r with
  | noPermanent => simp [Jit.compileMethodFull] at he
  | notNow => simp [Jit.compileMethodFull] at he
  | exhausted => simp [Jit.compileMethodFull] at he
  | compiled b =>
    simp only [Jit.compileMethodFull, Prod.mk.injEq, Option.some.injEq] at he
    obtain ⟨he, rfl⟩ := he
    have hspec := @publish_spec _ h.coherent (j.newNmethod k m isBlock version osrBci b) rfl
      (fun hn => by
        change (if isBlock then some m else none) = none
        rw [hb hn]
        rfl) hr.1 hr.2
    generalize hnm : j.newNmethod k m isBlock version osrBci b = nm at he hspec
    obtain ⟨hid, hc, hget'⟩ := hspec
    obtain ⟨inv, hinv⟩ := saturateInvocation_eq { j with ct := (Jit.publish j.ct nm).1 } m
    rw [hinv] at he
    subst he
    refine ⟨⟨hc, h.cache, fun i nm' hget halive hblock => ?_⟩, by rw [hid]; exact get_freeSlot,
      ⟨_, (hget' _).trans (if_pos hid), by rw [← hnm]; rfl⟩, fun i hi => ?_⟩
    · rw [hget'] at hget
      split at hget
      · cases hget
        subst hnm
        have hnb : isBlock = false := by
          cases isBlock with
          | false => rfl
          | true => cases hblock
        exact ⟨hm hnb, rfl⟩
      · exact h.compiledFrom i nm' hget halive hblock
    · rw [hget', if_neg (by rw [← hid]; exact hi)]

/-- A compile that fails changes no table. -/
theorem Truth.compileMethodFull_none (h : Truth j) {isBlock : Bool} {version : Nat}
    {osrBci : Option Nat} {r : CompileResult}
    (he : j.compileMethodFull k m isBlock version osrBci r = (j', none)) :
    Truth j' ∧ j'.ct = j.ct := by
  cases r with
  | noPermanent =>
    cases he
    exact ⟨⟨h.coherent, h.cache, h.compiledFrom⟩, rfl⟩
  | notNow =>
    cases he
    exact ⟨h, rfl⟩
  | exhausted =>
    cases he
    exact ⟨⟨h.coherent, h.cache, h.compiledFrom⟩, rfl⟩
  | compiled b => simp [Jit.compileMethodFull] at he

theorem Truth.retire (h : Truth j) {st : NmState} (hst : st ≠ .alive) {ct : CodeTable}
    (he : j.ct.retire id st = some ct) : Truth { j with ct } := by
  obtain ⟨nm, -, hg, -⟩ := retire_spec he
  refine h.withTable (h.coherent.retire he) fun i nm' hget halive => ?_
  rw [hg] at hget
  split at hget
  · cases hget
    exact absurd halive hst
  · exact ⟨nm', hget, halive, rfl, rfl, rfl, rfl⟩

theorem Truth.makeNotEntrantLazy (h : Truth j) (he : j.makeNotEntrantLazy id = some j') :
    Truth j' ∧ ∀ i, i ≠ id → j'.ct.get i = j.ct.get i := by
  unfold Jit.makeNotEntrantLazy at he
  obtain ⟨ct, hct, rfl⟩ := Option.map_eq_some_iff.mp he
  obtain ⟨nm, -, hg, -⟩ := retire_spec hct
  exact ⟨h.retire NmState.noConfusion hct, fun i hi => by rw [hg, if_neg hi]⟩

theorem alive_eq_some {o : Option Nat} {nm : Nmethod} (h : j.alive o = some (id, nm)) :
    o = some id ∧ j.ct.get id = some nm ∧ nm.state = .alive := by
  unfold Jit.alive at h
  split at h
  · cases h
  · split at h
    · cases h
    · next hget =>
      split at h
      next halive =>
        cases h
        exact ⟨rfl, hget, halive⟩
      next => cases h

/-- Reusing or compiling for the method lookup finds yields code of this method. -/
theorem Truth.reuseOrCompile (h : Truth j) {heal fresh : CompileResult} (hheal : heal.Fresh j.ct)
    (hfresh : fresh.Fresh j.ct) (hm : j.vm.lookupUncached k (j.selector m) = some m)
    {entered : Option Nat} (he : j.reuseOrCompile k m heal fresh = some (j', entered)) :
    Truth j' ∧ ∀ id, entered = some id → ∃ nm, j'.ct.get id = some nm ∧ nm.method = m := by
  unfold Jit.reuseOrCompile at he
  split at he
  · -- no Alive nmethod of the key
    cases entered with
    | none =>
      have he : j.compileMethodFull k m false 0 none fresh = (j', none) := Option.some.inj he
      exact ⟨(h.compileMethodFull_none he).1, fun id hid => by cases hid⟩
    | some id =>
      have he : j.compileMethodFull k m false 0 none fresh = (j', some id) := Option.some.inj he
      obtain ⟨ht, -, hnm, -⟩ :=
        h.compileMethodFull hfresh (fun hn => absurd rfl hn) (fun _ => hm) he
      exact ⟨ht, fun id' hid => by cases hid; exact hnm⟩
  · next id nm halive =>
    obtain ⟨hlk, hget, hst⟩ := alive_eq_some halive
    -- the key names it, so it was compiled from what lookup finds
    have hnm : nm.method = m := by
      obtain ⟨nm', hget', -, hblock, hkey⟩ := h.coherent.byKey _ _ hlk
      rw [hget] at hget'
      cases hget'
      have hfrom := (h.compiledFrom id nm hget hst hblock).1
      obtain ⟨hk, hs⟩ := Prod.mk.inj hkey
      rw [hk, hs, hm] at hfrom
      exact (Option.some.inj hfrom).symm
    split at he
    · -- half-warm: the replacement, then the old code retired
      split at he
      · next j₁ newId hcomp =>
        obtain ⟨h₁, hnone, ⟨nm₁, hget₁, hm₁⟩, -⟩ :=
          h.compileMethodFull hheal (fun hn => absurd rfl hn) (fun _ => hm) hcomp
        obtain ⟨j₂, hlazy, heq⟩ := Option.map_eq_some_iff.mp he
        cases heq
        obtain ⟨h₂, hkeep⟩ := h₁.makeNotEntrantLazy hlazy
        have hne : newId ≠ id := by
          rintro rfl
          rw [hnone] at hget
          cases hget
        exact ⟨h₂, fun id' hid => by cases hid; exact ⟨nm₁, (hkeep _ hne).trans hget₁, hm₁⟩⟩
      · next j₁ hcomp =>
        cases he
        obtain ⟨h₁, hct⟩ := h.compileMethodFull_none hcomp
        exact ⟨h₁, fun id' hid => by cases hid; exact ⟨nm, by rw [hct]; exact hget, hnm⟩⟩
    · cases he
      exact ⟨h, fun id' hid => by cases hid; exact ⟨nm, hget, hnm⟩⟩

/-- Seeding writes a site, which no lookup reads. -/
theorem Truth.seedSite (h : Truth j) (icSite : Option (Addr × Nat)) (k id : Nat) :
    Truth (j.seedSite icSite k id) ∧ (j.seedSite icSite k id).ct = j.ct := by
  unfold Jit.seedSite
  split
  · exact ⟨h, rfl⟩
  · split
    · exact ⟨h, rfl⟩
    · split
      · exact ⟨⟨h.coherent, h.cache, h.compiledFrom⟩, rfl⟩
      · exact ⟨h, rfl⟩

theorem Truth.activateMethod (h : Truth j) {icSite : Option (Addr × Nat)}
    {heal fresh : CompileResult} (hheal : heal.Fresh j.ct) (hfresh : fresh.Fresh j.ct)
    (hm : j.compileGate m = true → j.vm.lookupUncached k (j.selector m) = some m)
    {entered : Option Nat} (he : j.activateMethod k m icSite heal fresh = some (j', entered)) :
    Truth j' ∧ ∀ id, entered = some id → ∃ nm, j'.ct.get id = some nm ∧ nm.method = m := by
  unfold Jit.activateMethod at he
  have hb := h.bumpInvocation m
  by_cases hgate : j.compileGate m = true
  · simp only [hgate, if_true] at he
    obtain ⟨⟨j₁, compiled⟩, hr, heq⟩ := Option.map_eq_some_iff.mp he
    obtain ⟨h₁, hent⟩ := hb.reuseOrCompile hheal hfresh (hm hgate) hr
    cases compiled with
    | none =>
      cases heq
      exact ⟨h₁, fun id hid => by cases hid⟩
    | some id =>
      cases heq
      obtain ⟨h₂, hct⟩ := h₁.seedSite icSite k id
      refine ⟨h₂, fun id' hid => ?_⟩
      cases hid
      rw [hct]
      exact hent id rfl
  · simp only [hgate] at he
    cases he
    exact ⟨hb, fun id hid => by cases hid⟩

theorem Truth.rtOsrRequest (h : Truth j) {bci : Nat} {r : CompileResult} (hr : r.Fresh j.ct) :
    Truth (j.rtOsrRequest k m bci r).1 := by
  unfold Jit.rtOsrRequest
  replace hr : r.Fresh (j.setCounters m { j.counters m with loopCount := 0 }).ct := hr
  replace h := h.setCounters m { j.counters m with loopCount := 0 }
  generalize j.setCounters m { j.counters m with loopCount := 0 } = j at h hr
  simp only
  split
  · exact h
  · obtain ⟨c, heq, hc⟩ := h.lookup k (j.selector m)
    rw [heq]
    simp only
    split
    · exact hc
    · next hfound =>
      split
      · split
        · exact hc
        · exact hc
      · unfold Jit.compileMethodOsr
        cases hcomp : Jit.compileMethodFull _ k m false _ (some bci) r with
        | mk j₁ o =>
          cases o with
          | none => exact (hc.compileMethodFull_none hcomp).1
          | some id =>
            exact (hc.compileMethodFull hr (fun _ => rfl) (fun _ => not_not.mp hfound) hcomp).1

theorem Truth.interpretCallHatch (h : Truth j) {heal fresh : CompileResult}
    (hheal : heal.Fresh j.ct) (hfresh : fresh.Fresh j.ct) {entered : Option Nat}
    (he : j.interpretCallHatch k m heal fresh = some (j', entered)) : Truth j' := by
  unfold Jit.interpretCallHatch at he
  split at he
  · cases he
    exact h
  · have hb := h.bumpInvocation m
    simp only at he
    split at he
    · obtain ⟨c, heq, hc⟩ := hb.lookup k (j.selector m)
      have hsel : (j.bumpInvocation m).2.selector m = j.selector m := rfl
      rw [hsel, heq] at he
      simp only at he
      split at he
      · cases he
        exact hc
      · next hfound => exact (hc.reuseOrCompile hheal hfresh (not_not.mp hfound) he).1
    · cases he
      exact hb

/-- Capping the version of an nmethod. -/
theorem Truth.replaceNmethod (h : Truth j) {compiled : Option Nat}
    (he : Jit.replaceNmethod id (j, compiled) = some j') : Truth j' := by
  cases compiled with
  | some newId => exact (h.makeNotEntrantLazy he).1
  | none =>
    unfold Jit.replaceNmethod at he
    obtain ⟨nm, hget, rfl⟩ := Option.map_eq_some_iff.mp he
    have hg : ∀ i, CodeTable.get { j.ct with
        slots := j.ct.slots.set id (some { nm with version := maxVersions }) } i =
        if i = id then some { nm with version := maxVersions } else j.ct.get i :=
      get_set j.ct.slots (lt_of_get hget) rfl
    have hfrom : ∀ i nm', CodeTable.get { j.ct with
        slots := j.ct.slots.set id (some { nm with version := maxVersions }) } i = some nm' →
        ∃ nm₀, j.ct.get i = some nm₀ ∧ SameIndex nm₀ nm' ∧ nm₀.method = nm'.method := by
      intro i nm' hget'
      rw [hg] at hget'
      split at hget'
      next hi =>
        cases hget'
        exact ⟨nm, hi ▸ hget, ⟨rfl, rfl, rfl, rfl, rfl, rfl⟩, rfl⟩
      next => exact ⟨nm', hget', ⟨rfl, rfl, rfl, rfl, rfl, rfl⟩, rfl⟩
    have hto : ∀ i nm₀, j.ct.get i = some nm₀ → ∃ nm', CodeTable.get { j.ct with
        slots := j.ct.slots.set id (some { nm with version := maxVersions }) } i = some nm' ∧
        SameIndex nm₀ nm' := by
      intro i nm₀ hget₀
      rw [hg]
      split
      next hi =>
        rw [hi, hget] at hget₀
        cases hget₀
        exact ⟨_, rfl, rfl, rfl, rfl, rfl, rfl, rfl⟩
      next => exact ⟨nm₀, hget₀, rfl, rfl, rfl, rfl, rfl, rfl⟩
    refine h.withTable (h.coherent.congr rfl rfl rfl rfl hto fun i nm' hget' => ?_)
      fun i nm' hget' halive => ?_
    · obtain ⟨nm₀, hget₀, hsame, -⟩ := hfrom i nm' hget'
      exact ⟨nm₀, hget₀, hsame⟩
    · obtain ⟨nm₀, hget₀, ⟨-, hst, hkey, -, hblock, -⟩, hm⟩ := hfrom i nm' hget'
      obtain ⟨hk, hs⟩ := Prod.mk.inj hkey
      exact ⟨nm₀, hget₀, hst.symm.trans halive, hblock.symm, hk.symm, hs.symm, hm⟩

theorem Truth.noteUncommonTrap (h : Truth j) {due changed : Bool} {r : CompileResult}
    (hr : r.Fresh j.ct) (he : j.noteUncommonTrap id due changed r = some j') : Truth j' := by
  unfold Jit.noteUncommonTrap at he
  split at he
  · cases he
    exact h
  · next id' nm halive =>
    have halive : j.alive (some id) = some (id', nm) := by
      split at halive
      · exact halive
      · cases halive
    obtain ⟨-, hget, hst⟩ := alive_eq_some halive
    split at he
    · cases he
      exact h
    · split at he
      · -- a block: its key is a filler
        split at he
        · cases hcomp : j.compileMethodFull nm.keyKlass _ true (nm.version + 1) none r with
          | mk j₁ o =>
            rw [hcomp] at he
            cases o with
            | none => exact (h.compileMethodFull_none hcomp).1.replaceNmethod he
            | some newId =>
              exact (h.compileMethodFull hr (fun hn => absurd rfl hn) Bool.noConfusion
                hcomp).1.replaceNmethod he
        · cases he
          exact h
      · next hblock =>
        obtain ⟨hfrom, hsel⟩ := h.compiledFrom id' nm hget hst hblock
        obtain ⟨c, heq, hc⟩ := h.lookup nm.keyKlass nm.keySelector
        rw [heq, hfrom] at he
        simp only at he
        split at he
        · unfold Jit.compileMethodVersioned at he
          cases hcomp : Jit.compileMethodFull { j with vm := { j.vm with lookupCache := c } }
              nm.keyKlass nm.method false (nm.version + 1) none r with
          | mk j₁ o =>
            rw [hcomp] at he
            cases o with
            | none => exact (hc.compileMethodFull_none hcomp).1.replaceNmethod he
            | some newId =>
              have hm : j.vm.lookupUncached nm.keyKlass (j.selector nm.method) = some nm.method := by
                rw [← hsel]
                exact hfrom
              exact (hc.compileMethodFull hr (fun hn => absurd rfl hn) (fun _ => hm)
                hcomp).1.replaceNmethod he
        · cases he
          exact hc

/-- A collection moves keys, methods and what lookup finds alike. -/
theorem Truth.collect (h : Truth j) (ρ : Equiv.Perm Addr) : Truth (j.collect ρ) := by
  refine ⟨h.coherent.relocate, CacheOk.flush rfl, fun i nm' hget halive hblock => ?_⟩
  change (j.ct.relocate ρ).get i = some nm' at hget
  rw [get_relocate] at hget
  obtain ⟨nm, hget₀, rfl⟩ := Option.map_eq_some_iff.mp hget
  obtain ⟨hfrom, hsel⟩ := h.compiledFrom i nm hget₀ halive (Option.map_eq_none_iff.mp hblock)
  constructor
  · change (j.vm.collect ρ).lookupUncached (ρ nm.keyKlass) (ρ nm.keySelector) = some (ρ nm.method)
    rw [lookupUncached_collect, hfrom]
    rfl
  · change ρ nm.keySelector = ρ (j.selector (ρ.symm (ρ nm.method)))
    rw [Equiv.symm_apply_apply, hsel]

/-- What is Alive after an install is unaffected by it, so its lookup finds what it found. -/
theorem Truth.install (h : Truth j) {gc : Option (Equiv.Perm Addr)} {holder selector m : Addr}
    (he : j.install gc holder selector m = some j') : Truth j' := by
  unfold Jit.install at he
  obtain ⟨⟨vm', ct'⟩, hinst, rfl⟩ := Option.map_eq_some_iff.mp he
  unfold installMethod at hinst
  simp only [Option.bind_eq_bind, Option.bind_eq_some_iff, Option.some.injEq, Prod.mk.injEq] at hinst
  obtain ⟨vm₁, hvm, ct₁, hct, rfl, rfl⟩ := hinst
  set ρ := gc.getD (Equiv.refl Addr) with hρ
  have hcoh : Coherent (j.ct.collected gc) := h.coherent.collected gc
  have hcache : vm₁.lookupCache = LookupCache.flush := by
    unfold Vm.installMethod at hvm
    simp only at hvm
    split at hvm
    · cases hvm
      rfl
    · cases hvm
  -- before the scan: what the collection, if there is one, leaves
  have hbefore : ∀ i nm, (j.ct.collected gc).get i = some nm → nm.state = .alive →
      nm.blockMethod = none →
      (j.vm.collect ρ).lookupUncached nm.keyKlass nm.keySelector = some nm.method ∧
        nm.keySelector = ρ (j.selector (ρ.symm nm.method)) := by
    intro i nm hget halive hblock
    cases gc with
    | some ρ' => exact (h.collect ρ').compiledFrom i nm hget halive hblock
    | none =>
      obtain ⟨hfrom, hsel⟩ := h.compiledFrom i nm hget halive hblock
      refine ⟨?_, hsel⟩
      exact (lookupUncached_collect j.vm (Equiv.refl Addr) nm.keyKlass nm.keySelector).trans
        (by rw [hfrom]; rfl)
  obtain ⟨hc', hkeep⟩ := alive_of_invalidateDependents hcoh hct
  refine ⟨hc', CacheOk.flush hcache, fun i nm' hget halive hblock => ?_⟩
  change ct₁.get i = some nm' at hget
  -- an Alive nmethod is one the scan left alone
  have hkept := hkeep i nm' hget halive
  obtain ⟨hfrom, hsel⟩ := hbefore i nm' hkept.1 halive hblock
  refine ⟨?_, hsel⟩
  by_contra hne
  have haff : nmethodAffected vm₁ (ρ holder) (ρ selector) nm' = true :=
    nmethodAffected_iff.mpr ⟨nm'.key, List.mem_cons_self, pairAffected_of_lookup_ne hvm (by
      change vm₁.lookupUncached nm'.keyKlass nm'.keySelector ≠ _
      rw [show (j.vm.collect ρ).lookupUncached nm'.key.1 nm'.key.2 = some nm'.method from hfrom]
      exact hne)⟩
  rw [hkept.2] at haff
  cases haff

theorem Truth.flush (h : Truth j) (he : j.flush id = some j') : Truth j' := by
  unfold Jit.flush at he
  obtain ⟨⟨ct₂, nm⟩, hbind, rfl⟩ := Option.map_eq_some_iff.mp he
  obtain ⟨ct₁, hz, hr⟩ := Option.bind_eq_some_iff.mp hbind
  have h₁ := h.retire NmState.noConfusion hz
  obtain ⟨nm₀, -, hg₁, -⟩ := retire_spec hz
  obtain ⟨hget, hg₂, -⟩ := remove_spec hr
  have hzombie : nm.state ≠ .alive := by
    rw [hg₁, if_pos rfl] at hget
    cases hget
    exact NmState.noConfusion
  refine h₁.withTable (h₁.coherent.remove hr hzombie) fun i nm' hget' halive => ?_
  rw [hg₂] at hget'
  split at hget'
  · cases hget'
  · exact ⟨nm', hget', halive, rfl, rfl, rfl, rfl⟩

/-- One step: whatever the operation, if it meets the condition. -/
theorem Truth.exec (h : Truth j) {op : Op} (hfresh : op.Fresh j.ct) (hok : op.ActivatesFound j)
    (he : j.exec op = some j') : Truth j' := by
  cases op with
  | activate k m icSite heal fresh =>
    obtain ⟨⟨j₁, entered⟩, hact, rfl⟩ := Option.map_eq_some_iff.mp he
    exact (h.activateMethod hfresh.1 hfresh.2 hok hact).1
  | osrRequest k m targetBci r =>
    cases he
    exact h.rtOsrRequest hfresh
  | interpretCall k m heal fresh =>
    obtain ⟨⟨j₁, entered⟩, hcall, rfl⟩ := Option.map_eq_some_iff.mp he
    exact h.interpretCallHatch hfresh.1 hfresh.2 hcall
  | uncommonTrap id due changed r => exact h.noteUncommonTrap hfresh he
  | lookup k s =>
    obtain ⟨c, heq, hc⟩ := h.lookup k s
    cases he
    rw [heq]
    exact hc
  | install gc holder selector m => exact h.install he
  | collect ρ =>
    cases he
    exact h.collect ρ
  | flush id => exact h.flush he
  | setCompileEnabled on =>
    cases he
    exact ⟨h.coherent, h.cache, h.compiledFrom⟩

end Steps

theorem Reaches.truth {j : Jit} (h : Reaches (fun j op => op.ActivatesFound j) j) : Truth j := by
  induction h with
  | start hct hcache =>
    refine ⟨by rw [hct]; exact coherent_empty, hcache, fun i nm hget => ?_⟩
    rw [hct] at hget
    cases hget
  | step op _ hfresh hok hexec ih => exact ih.exec hfresh hok hexec

/-- In runs whose activations are of the methods lookup finds, what the code table has for a key
was compiled from the method lookup finds there, and an activation only enters code of its method. -/
theorem dispatch_truth {j : Jit} (h : Reaches (fun j op => op.ActivatesFound j) j) :
    (∀ k s id, j.ct.lookup k s = some id → ∃ nm, j.ct.get id = some nm ∧ nm.state = .alive ∧
      j.vm.lookupUncached k s = some nm.method) ∧
    ∀ k m icSite heal fresh j' id, (Op.activate k m icSite heal fresh).Fresh j.ct →
      (Op.activate k m icSite heal fresh).ActivatesFound j →
      j.activateMethod k m icSite heal fresh = some (j', some id) →
      ∃ nm, j'.ct.get id = some nm ∧ nm.method = m := by
  have ht := h.truth
  refine ⟨fun k s id hlk => ?_, fun k m icSite heal fresh j' id hfresh hok hact => ?_⟩
  · obtain ⟨nm, hget, halive, hblock, hkey⟩ := ht.coherent.byKey _ _ hlk
    obtain ⟨hk, hs⟩ := Prod.mk.inj hkey
    have hfrom := (ht.compiledFrom id nm hget halive hblock).1
    rw [hk, hs] at hfrom
    exact ⟨nm, hget, halive, hfrom⟩
  · exact (ht.activateMethod hfresh.1 hfresh.2 hok hact).2 id rfl

/-! ## A super send -/

/-- Class 2 with method 20 for selector 7, below it class 1 with the override 10. -/
def overriding : Vm :=
  { klasses := fun a =>
      if a = 1 then some ⟨.ref 2, fun s => if s = 7 then some 10 else none⟩
      else if a = 2 then some ⟨.nil, fun s => if s = 7 then some 20 else none⟩
      else none
    methods := fun a =>
      if a = 10 then some ⟨.ref 1, false, [], [⟨true, 7, 0, .nil, .nil⟩]⟩
      else if a = 20 then some ⟨.ref 2, false, [], []⟩
      else none
    arrays := fun _ => none
    lookupCache := LookupCache.flush
    icEpoch := 0
    depth := 2 }

/-- Nothing is compiled, and the first call is over the threshold. -/
def overridingJit : Jit :=
  { vm := overriding, ct := empty, selector := fun _ => 7, 
    counters := fun _ => ⟨0, 0, false, false⟩, threshold := some 1, compileEnabled := true }

def sampleBody : CompileResult := .compiled ⟨⟨0, 16⟩, 0, [], [], [], false, 0⟩

/-- After the override's super send: the ancestor's method, a receiver of class 1. -/
def afterSuper : Jit :=
  ((overridingJit.activateMethod 1 20 none .notNow sampleBody).map Prod.fst).getD overridingJit

/-- The super send in method 10 resolves to method 20. Its activation publishes the code of 20
for class 1, where lookup finds 10; and the next activation of 10 enters that code. -/
theorem super_send_compiles_ancestor :
    (resolve overriding 10 7 true 1).map Prod.fst = some (some 20) ∧
      Reaches (fun _ _ => True) afterSuper ∧ afterSuper.vm.lookupUncached 1 7 = some 10 ∧
      afterSuper.ct.lookup 1 7 = some 0 ∧ (afterSuper.ct.get 0).map (·.method) = some 20 ∧
      (afterSuper.activateMethod 1 10 none .notNow .notNow).map Prod.snd = some (some 0) := by
  refine ⟨by decide, ?_, by decide, by decide, by decide, by decide⟩
  refine .step (.activate 1 20 none .notNow sampleBody) (j := overridingJit)
    (.start rfl (CacheOk.flush rfl)) ?_ trivial rfl
  refine ⟨trivial, by decide, fun i nm hget => ?_⟩
  cases hget

/-- After a call of the override itself. -/
def afterCall : Jit :=
  ((overridingJit.activateMethod 1 10 none .notNow sampleBody).map Prod.fst).getD overridingJit

theorem dispatch_truth_afterCall :
    Reaches (fun j op => op.ActivatesFound j) afterCall ∧ afterCall.ct.lookup 1 7 = some 0 ∧
      ∃ nm, afterCall.ct.get 0 = some nm ∧ nm.method = 10 := by
  have hreach : Reaches (fun j op => op.ActivatesFound j) afterCall := by
    refine .step (.activate 1 10 none .notNow sampleBody) (j := overridingJit)
      (.start rfl (CacheOk.flush rfl)) ?_ (fun _ => by decide) rfl
    refine ⟨trivial, by decide, fun i nm hget => ?_⟩
    cases hget
  have hlk : afterCall.ct.lookup 1 7 = some 0 := by decide
  obtain ⟨nm, hget, -, hfrom⟩ := (dispatch_truth hreach).1 1 7 0 hlk
  have hfound : afterCall.vm.lookupUncached 1 7 = some 10 := by decide
  rw [hfound] at hfrom
  exact ⟨hreach, hlk, nm, hget, (Option.some.inj hfrom).symm⟩

end WinVm.Codecache
