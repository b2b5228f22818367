import WinVm.Process.Stack

/-!
# Entries of an embedded VM

`embed.rs`: the entry points of `VmHandle` (`eval`, `exec`, `render_fragment`, `eval_to_string`
and their like are `EntryKind.request`, `dispatch_callback` is `EntryKind.callback`), with the
control state of `VmState` that the paths under them open and close. This is the Windows
build, the one where entries nest: each claims a recovery slot and pushes an idle baseline,
and a guest error or a recovered native fault jumps to the innermost one.

The native stack is explicit. Each element is a Rust frame that will put something back when it
returns; a jump drops the elements above the entry it lands on, and runs none of them.
-/

namespace WinVm.Embed

open WinVm.Process (HomeRef Oop)

/-! ## Control state -/

/-- `TierLink`. -/
inductive TierLink where
  | deoptBridge (deadFp callerRetPc : Nat)
  | intoCompiled (interpFrame entrySp nmId : Nat)
  | intoInterpreter (compiledFp compiledRetPc : Nat)
deriving DecidableEq, Repr

/-- `last_compiled_fp`, `last_compiled_pc` and `last_compiled_kind` while the first is not
zero; with a zero fp nothing reads the other two. -/
structure Anchor where
  fp : Nat
  pc : Nat
  kind : Nat
deriving DecidableEq, Repr

structure NlrState where
  home : HomeRef
  value : Oop
  closure : Option Oop
deriving DecidableEq, Repr

structure PendingDeopt where
  origRetPc : Nat
  nm : Nat
deriving DecidableEq, Repr

/-- `FrameActivation`. -/
structure FrameActivation where
  fp : Nat
  hasFrame : Bool
deriving DecidableEq, Repr

/-- The fields of `VmState` (and of its process stack, register block and debugger) that the
paths under an entry open and close. The innermost tier link is first; `pendingDeopts` is keyed
by the redirected activation's fp. -/
@[ext] structure VmState where
  sp : Nat
  fp : Nat
  hasFrame : Bool
  arenaLen : Nat
  tierLinks : List TierLink
  compiledDepth : UInt32
  anchor : Option Anchor
  nlrState : Option NlrState
  pendingDeopts : List (Nat × PendingDeopt)
  cocoaMintStack : List Oop
  deoptResumeDepth : UInt32
  curtailingOnError : Bool
  sessionDepth : UInt32
deriving DecidableEq, Repr

/-- `IdleBaseline`. -/
structure IdleBaseline where
  stackSp : Nat
  stackFp : Nat
  stackHasFrame : Bool
  arenaLen : Nat
deriving DecidableEq, Repr

/-- A VM with its `VmHandle` and the thread's own entries: `CALLBACK_DEPTH` and
`ENTRY_SLOT_STACK`. The innermost baseline and slot are first. -/
@[ext] structure Control where
  vm : VmState
  idleBaselines : List IdleBaseline
  callbackDepth : Nat
  entrySlots : List Nat
deriving DecidableEq, Repr

/-- `ErrorPolicy`. -/
inductive ErrorPolicy where
  | resume
  | die
deriving DecidableEq, Repr

inductive EntryKind where
  | request
  | callback
deriving DecidableEq, Repr

/-! ## The native stack -/

/-- A call of an entry point: its recovery slot, and the control state when it was called. -/
structure Entry where
  kind : EntryKind
  slot : Nat
  began : Control
deriving DecidableEq, Repr

/-- A Rust frame that puts something back when it returns. -/
inductive Bracket where
  /-- A `HandleScope`. -/
  | scope (savedLen : Nat)
  /-- `enter_compiled`, and the entry of `rt_osr_request`. -/
  | compiled
  /-- The link around a nested interpreter run: `rt_interpret_call`, `rt_dnu`,
  `rt_must_be_boolean`, `rt_value_fallback`, and a deopt's bridge. -/
  | link
  /-- `run_method_reentrant`, and the nested run of a handler. -/
  | reentrant (saved : FrameActivation)
  /-- `interpret_active`. -/
  | resume (saved : FrameActivation)
  /-- `run_curtailment_blocks_on_error`. -/
  | curtail (savedLen : Nat)
  /-- `debug::halt`, and the send prompt. -/
  | halt
deriving DecidableEq, Repr

abbrev NativeStack := List (Bracket ⊕ Entry)

structure State where
  control : Control
  stack : NativeStack
deriving DecidableEq, Repr

namespace VmState

/-- A VM at rest that has run nothing. -/
def boot : VmState :=
  { sp := 0, fp := 0, hasFrame := false, arenaLen := 0, tierLinks := [], compiledDepth := 0,
    anchor := none, nlrState := none, pendingDeopts := [], cocoaMintStack := [],
    deoptResumeDepth := 0, curtailingOnError := false, sessionDepth := 0 }

/-- `save_activation`. -/
def saveActivation (vm : VmState) : FrameActivation :=
  ⟨vm.fp, vm.hasFrame⟩

/-- `restore_activation`. -/
def restoreActivation (vm : VmState) (saved : FrameActivation) : VmState :=
  { vm with fp := saved.fp, hasFrame := saved.hasFrame }

/-- `restore_baseline` of the process stack. -/
def restoreBaseline (vm : VmState) (sp fp : Nat) (hasFrame : Bool) : VmState :=
  { vm with sp, fp, hasFrame }

/-- `HandleArena::reset_to`; a scope's drop truncates the same way. -/
def resetTo (vm : VmState) (baseLen : Nat) : VmState :=
  if baseLen < vm.arenaLen then { vm with arenaLen := baseLen } else vm

/-- `ENTRY_FRAME_SENTINEL as usize`. -/
def entryFrameSentinel : Nat := 2 ^ 64 - 1

/-- The link of `enter_compiled`. -/
def compiledLink (vm : VmState) (nmId : Nat) : TierLink :=
  .intoCompiled (if vm.hasFrame then vm.fp else entryFrameSentinel) vm.sp nmId

end VmState

/-- What a frame puts back when it returns. The counters are `u32` and wrap, as the release
build's do. -/
def Bracket.close : Bracket → VmState → VmState
  | .scope savedLen, vm => vm.resetTo savedLen
  | .compiled, vm =>
    { vm with tierLinks := vm.tierLinks.tail, compiledDepth := vm.compiledDepth - 1 }
  | .link, vm => { vm with tierLinks := vm.tierLinks.tail }
  | .reentrant saved, vm => vm.restoreActivation saved
  | .resume saved, vm =>
    { vm.restoreActivation saved with deoptResumeDepth := vm.deoptResumeDepth - 1 }
  | .curtail savedLen, vm => ({ vm with curtailingOnError := false } : VmState).resetTo savedLen
  | .halt, vm => { vm with sessionDepth := vm.sessionDepth - 1 }

namespace Control

/-- Between entries, nothing open. -/
def boot : Control :=
  { vm := .boot, idleBaselines := [], callbackDepth := 0, entrySlots := [] }

/-- `push_idle_baseline`. -/
def pushIdleBaseline (c : Control) : Control :=
  { c with idleBaselines := ⟨c.vm.sp, c.vm.fp, c.vm.hasFrame, c.vm.arenaLen⟩ :: c.idleBaselines }

/-- `push_entry_frame`, with the free slot it found. -/
def pushEntryFrame (c : Control) (slot : Nat) : Control :=
  { c with entrySlots := slot :: c.entrySlots }

/-- `pop_entry`: the baseline, and `pop_entry_frame`. -/
def popEntry (c : Control) : Control :=
  { c with idleBaselines := c.idleBaselines.tail, entrySlots := c.entrySlots.tail }

/-- `enter_callback`. -/
def enterCallback (c : Control) : Control :=
  { c with callbackDepth := c.callbackDepth + 1 }

/-- `leave_callback`. -/
def leaveCallback (c : Control) : Control :=
  { c with callbackDepth := c.callbackDepth - 1 }

/-- An entry point up to its body. -/
def enter (c : Control) (kind : EntryKind) (slot : Nat) : Control :=
  let c := (c.pushEntryFrame slot).pushIdleBaseline
  match kind with
  | .request => c
  | .callback => c.enterCallback

/-- An entry point after its body. -/
def leave (c : Control) : EntryKind → Control
  | .request => c.popEntry
  | .callback => c.leaveCallback.popEntry

/-- `restore_after_guest_fatal`. -/
def restoreAfterGuestFatal (c : Control) : Control :=
  let b := c.idleBaselines.headD ⟨0, 0, false, 0⟩
  let vm := (c.vm.restoreBaseline b.stackSp b.stackFp b.stackHasFrame).resetTo b.arenaLen
  { c with
    vm := { vm with
      cocoaMintStack := []
      tierLinks := []
      compiledDepth := 0
      anchor := none
      nlrState := none
      pendingDeopts := [] } }

/-- The recovery arm of an entry point, and `handle_guest_fatal` and `handle_native_fault` in it:
`none` is the `fatal_exit` of `ErrorPolicy::Die`, which a callback never consults. -/
def recoveryArm (c : Control) (policy : ErrorPolicy) (kind : EntryKind) : Option Control :=
  match kind, policy with
  | .request, .die => none
  | .request, .resume => some c.restoreAfterGuestFatal.popEntry
  | .callback, _ => some c.restoreAfterGuestFatal.leaveCallback.popEntry

end Control

/-! ## Steps -/

/-- `JMP_REGISTRY_CAP`. -/
def jmpRegistryCap : Nat := 64

/-- One step of the thread. `frames` is any progress of the interpreter on the process stack,
and `close` the return of the innermost frame. -/
inductive Action where
  | enter (kind : EntryKind) (slot : Nat)
  | finish
  | abort
  | close
  | openScope
  | handle
  | enterCompiled (nmId : Nat)
  | enterInterpreter
  | bridgeDeopt (deadFp callerRetPc : Nat)
  | reenter
  | resumeDeopt
  | curtail
  | halt
  | frames (sp fp : Nat) (hasFrame : Bool)
  | setAnchor (anchor : Option Anchor)
  | setNlr (nlr : Option NlrState)
  | redirectReturn (fp : Nat) (pending : PendingDeopt)
  | takePending (fp : Nat)
deriving DecidableEq, Repr

/-- The frame that owns a recovery slot, and what is below it: where `siglongjmp` lands. -/
def landing (slot : Nat) : NativeStack → Option (Entry × NativeStack)
  | [] => none
  | .inl _ :: rest => landing slot rest
  | .inr e :: rest => if e.slot = slot then some (e, rest) else landing slot rest

/-- Whether a handle scope is open above the innermost entry. -/
def scopeOpen : NativeStack → Bool
  | .inl (.scope _) :: _ | .inl (.curtail _) :: _ => true
  | .inl _ :: rest => scopeOpen rest
  | [] | .inr _ :: _ => false

namespace State

def boot : State := ⟨.boot, []⟩

def withVm (s : State) (vm : VmState) : State :=
  { s with control := { s.control with vm } }

/-- A frame that will run `b.close`, over the state it leaves while open. -/
def opened (s : State) (b : Bracket) (vm : VmState) : State :=
  ⟨{ s.control with vm }, .inl b :: s.stack⟩

/-- `raise_guest_fatal`, or the fault handler: the jump to the thread's top slot, and the recovery
arm it lands on. -/
def abort (s : State) (policy : ErrorPolicy) : Option State := do
  let slot ← s.control.entrySlots.head?
  let (e, below) ← landing slot s.stack
  let control ← s.control.recoveryArm policy e.kind
  some ⟨control, below⟩

def step (policy : ErrorPolicy) (s : State) : Action → Option State
  | .enter kind slot =>
    if slot < jmpRegistryCap ∧ slot ∉ s.control.entrySlots then
      some ⟨s.control.enter kind slot, .inr ⟨kind, slot, s.control⟩ :: s.stack⟩
    else none
  | .finish =>
    match s.stack with
    | .inr e :: rest => some ⟨s.control.leave e.kind, rest⟩
    | _ => none
  | .abort => s.abort policy
  | .close =>
    match s.stack with
    | .inl b :: rest => some ⟨{ s.control with vm := b.close s.control.vm }, rest⟩
    | _ => none
  | .openScope => some (s.opened (.scope s.control.vm.arenaLen) s.control.vm)
  | .handle =>
    if scopeOpen s.stack then
      some (s.withVm { s.control.vm with arenaLen := s.control.vm.arenaLen + 1 })
    else none
  | .enterCompiled nmId =>
    let vm := s.control.vm
    some (s.opened .compiled { vm with
      tierLinks := vm.compiledLink nmId :: vm.tierLinks, compiledDepth := vm.compiledDepth + 1 })
  | .enterInterpreter =>
    let vm := s.control.vm
    -- every stub that gets here has set the anchor
    match vm.anchor with
    | some a =>
      some (s.opened .link { vm with tierLinks := .intoInterpreter a.fp a.pc :: vm.tierLinks })
    | none => none
  | .bridgeDeopt deadFp callerRetPc =>
    let vm := s.control.vm
    some (s.opened .link { vm with tierLinks := .deoptBridge deadFp callerRetPc :: vm.tierLinks })
  | .reenter => some (s.opened (.reentrant s.control.vm.saveActivation) s.control.vm)
  | .resumeDeopt =>
    let vm := s.control.vm
    some (s.opened (.resume vm.saveActivation)
      { vm with deoptResumeDepth := vm.deoptResumeDepth + 1 })
  | .curtail =>
    let vm := s.control.vm
    -- the re-entrancy guard: an error inside a cleanup collects nothing
    if vm.curtailingOnError then some s
    else some (s.opened (.curtail vm.arenaLen) { vm with curtailingOnError := true })
  | .halt =>
    let vm := s.control.vm
    some (s.opened .halt { vm with sessionDepth := vm.sessionDepth + 1 })
  | .frames sp fp hasFrame => some (s.withVm { s.control.vm with sp, fp, hasFrame })
  | .setAnchor anchor => some (s.withVm { s.control.vm with anchor })
  | .setNlr nlrState => some (s.withVm { s.control.vm with nlrState })
  | .redirectReturn fp pending =>
    let vm := s.control.vm
    some (s.withVm { vm with
      pendingDeopts := (fp, pending) :: vm.pendingDeopts.filter (·.1 ≠ fp) })
  | .takePending fp =>
    let vm := s.control.vm
    some (s.withVm { vm with pendingDeopts := vm.pendingDeopts.filter (·.1 ≠ fp) })

/-- A run of steps, `none` when one of them cannot be taken. -/
def run (policy : ErrorPolicy) : List Action → State → Option State
  | [], s => some s
  | a :: as, s => (s.step policy a).bind (run policy as)

end State

end WinVm.Embed
