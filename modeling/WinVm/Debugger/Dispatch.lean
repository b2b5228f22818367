import Mathlib.Data.List.Basic

/-!
# The dispatch loop and its debug hook

The control of the interpreter, as `dispatch_from` of `interpreter/mod.rs` and the
routines it calls move it: the frames of each nested dispatch loop, the loop's locals
`method` and `bci`, and the mirror register `vm.regs` that every way of entering a frame
stamps or leaves alone. What the arms and the runtime do to the heap, the operand stack
and the compiled code is a `Guest`: it decides where control goes, the model how it gets
there. Methods are identities, so a collection, which updates every root, is not seen.

The ways into a frame are the constructors `enter` (a send, a block activation, an unwind
handler, `#cannotReturn:`), `runEntry` (`activate_entry` under `run_method`), `runBlock`
(a `run_method` whose primitive activates a block), `resumeDeopt` (`interpret_active`)
and, back into a frame, `deliver`, `complete` and `replace`.

`step` is one iteration of the innermost loop or one move of the runtime. `debugStep` is
`step` with the hook of `dispatch_from`: a breakpoint or a step plan that fires runs one
command of the session and reloads the loop's method from `vm.regs`.
-/

namespace WinVm.Debugger

/-! ## Control state -/

/-- `InterpRegs`. -/
structure Regs (μ : Type) where
  method : Option μ
  bci : Nat
deriving DecidableEq, Repr

/-- An interpreter frame. Its saved frame pointer is its place in the list of its loop. -/
structure Frame (μ : Type) where
  fp : Nat
  method : μ
  savedBci : Nat
deriving DecidableEq, Repr

/-- What the innermost loop is doing: fetching, inside the runtime call of a bytecode,
offering its frame for replacement, or taking frames off on a return or an unwind. -/
inductive Phase where
  | dispatching
  | calling
  | offered
  | unwinding
deriving DecidableEq, Repr

/-- One invocation of `dispatch_from`: the frames of its run, the innermost apart, its two
locals, and what `run_method_reentrant` or `interpret_active` saved of `vm.regs`.
`stamped` is a ghost: some routine has stamped `vm.regs.method` since the loop was
entered. -/
structure Loop (μ : Type) where
  top : Frame μ
  rest : List (Frame μ)
  method : μ
  bci : Nat
  phase : Phase
  saved : Option (Regs μ)
  stamped : Bool
deriving DecidableEq, Repr

structure Vm (μ σ : Type) where
  data : σ
  regs : Regs μ
  loops : List (Loop μ)
deriving DecidableEq, Repr

/-- How an arm of the dispatch loop leaves the bytecode. -/
inductive Arm where
  /-- Pushes, stores, jumps and branches: the local `method` is kept. -/
  | goto (bci : Nat)
  /-- `push_closure`: the local is read again from the frame. -/
  | reread (bci : Nat)
  /-- Sends, `#mustBeBoolean` and `nlr_tos`: `vm.regs` is stamped with the local method
  and a bci, and the runtime is called. -/
  | call (bci : Nat)
  /-- The OSR offer of `jump_back`, stamped likewise. -/
  | offer (bci : Nat)
  /-- The returns. -/
  | giveBack
deriving DecidableEq, Repr

/-- What the runtime does next on behalf of the innermost loop. -/
inductive Move (μ : Type) where
  | work
  /-- `push_frame` of `activate_method`, or `activate_block_interp`: `resume` is the
  sentinel a handler's activation saves in place of `regs.bci`. -/
  | enter (m : μ) (fp : Nat) (resume : Option Nat)
  /-- A primitive or compiled code answered: on after the bytecode. -/
  | complete
  /-- `OsrOutcome::Declined`. -/
  | decline
  /-- `rt_osr_request` takes the frame off and stamps its caller, if it has one. -/
  | replace
  /-- `pop_frames_above`. -/
  | unwind (k : Nat)
  /-- `pop_and_deliver` to a resume sentinel. -/
  | drop
  /-- `pop_and_deliver` to a caller. -/
  | deliver
  /-- The entry frame returned, or a non-local return escaped past it. -/
  | leave
  | runEntry (m : μ) (fp : Nat)
  | runBlock (m : μ) (fp : Nat)
  | resumeDeopt (top : Frame μ) (rest : List (Frame μ)) (bci : Nat)
deriving DecidableEq, Repr

/-- The arms and the runtime, as far as they decide where control goes. Neither sees the
debugger. -/
structure Guest (μ σ : Type) where
  execute : Vm μ σ → σ × Arm
  runtime : Vm μ σ → σ × Move μ

/-- The bytecode an iteration executes: in which frame, of which method, at which bci. -/
structure Event (μ : Type) where
  fp : Nat
  method : μ
  bci : Nat
deriving DecidableEq, Repr

section
variable {μ σ : Type}

namespace Vm

variable (vm : Vm μ σ)

def withData (data : σ) : Vm μ σ := { vm with data }

/-! ## The arms -/

/-- The arm of the bytecode at the loop's locals. -/
def applyArm (l : Loop μ) (ls : List (Loop μ)) : Arm → Vm μ σ
  | .goto bci => { vm with loops := { l with bci } :: ls }
  | .reread bci => { vm with loops := { l with method := l.top.method, bci } :: ls }
  | .call bci => { vm with
      regs := ⟨some l.method, bci⟩
      loops := { l with bci, phase := .calling, stamped := true } :: ls }
  | .offer bci => { vm with
      regs := ⟨some l.method, bci⟩
      loops := { l with bci, phase := .offered, stamped := true } :: ls }
  | .giveBack => { vm with loops := { l with phase := .unwinding } :: ls }

/-- One iteration of the innermost loop, past the hook, with `method` in its local. -/
def dispatch (G : Guest μ σ) (l : Loop μ) (ls : List (Loop μ)) (method : μ) :
    Event μ × Vm μ σ :=
  let l := { l with method }
  let vm := { vm with loops := l :: ls }
  let (data, arm) := G.execute vm
  (⟨l.top.fp, method, l.bci⟩, (vm.withData data).applyArm l ls arm)

/-! ## The runtime -/

/-- A new dispatch loop. Below another one it was called through `run_method_reentrant` or
`interpret_active`, which save `vm.regs`. -/
def openLoop (regs : Regs μ) (top : Frame μ) (rest : List (Frame μ)) (bci : Nat)
    (stamped : Bool) : Vm μ σ :=
  { vm with
    regs
    loops := {
      top, rest, bci, stamped
      method := top.method
      phase := .dispatching
      saved := if vm.loops.isEmpty then none else some vm.regs } :: vm.loops }

/-- The moves that open a loop, from any loop or from the top level. -/
def openMove : Move μ → Option (Vm μ σ)
  | .work => some vm
  | .runEntry m fp => some (vm.openLoop vm.regs ⟨fp, m, 0⟩ [] 0 false)
  | .runBlock m fp => some (vm.openLoop ⟨some m, 0⟩ ⟨fp, m, 0⟩ [] 0 true)
  | .resumeDeopt top rest bci => some (vm.openLoop vm.regs top rest bci false)
  | _ => none

/-- `rt_osr_request` for the loop `l`. -/
def applyOffer (l : Loop μ) (ls : List (Loop μ)) : Move μ → Option (Vm μ σ)
  | .work => some vm
  | .decline => some { vm with loops := { l with phase := .dispatching } :: ls }
  | .replace => match l.rest with
    | [] => some { vm with loops := { l with phase := .unwinding } :: ls }
    | caller :: rest => some { vm with
        regs := ⟨some caller.method, l.top.savedBci⟩
        loops := { l with
          top := caller, rest, bci := l.top.savedBci, phase := .calling } :: ls }
  | _ => none

/-- The moves of the runtime for the loop `l`. A move the phase does not allow is a failed
check of the runtime. -/
def applyMove (l : Loop μ) (ls : List (Loop μ)) : Move μ → Option (Vm μ σ)
  | .enter m fp resume => some { vm with
      regs := ⟨some m, 0⟩
      loops := { l with
        top := ⟨fp, m, resume.getD vm.regs.bci⟩
        rest := l.top :: l.rest
        method := m, bci := 0, phase := .dispatching, stamped := true } :: ls }
  | .complete => if l.phase = .calling then
      some { vm with loops := { l with method := l.top.method, phase := .dispatching } :: ls }
    else none
  | .unwind k => match (l.top :: l.rest).drop k with
    | top :: rest => some { vm with loops := { l with top, rest, phase := .unwinding } :: ls }
    | [] => none
  | .drop => match l.phase, l.rest with
    | .unwinding, caller :: rest => some { vm with loops := { l with top := caller, rest } :: ls }
    | _, _ => none
  | .deliver => match l.phase, l.rest with
    | .unwinding, caller :: rest => some { vm with
        regs := ⟨some caller.method, l.top.savedBci⟩
        loops := { l with
          top := caller, rest
          method := caller.method, bci := l.top.savedBci
          phase := .dispatching, stamped := true } :: ls }
    | _, _ => none
  | .leave => some { vm with regs := l.saved.getD vm.regs, loops := ls }
  | move => vm.openMove move

/-- One move of the runtime, between two dispatch loops or for the innermost one. -/
def runtimeStep (G : Guest μ σ) : Option (Vm μ σ) :=
  let (data, move) := G.runtime vm
  match vm.loops with
  | [] => (vm.withData data).openMove move
  | l :: ls =>
    if l.phase = .offered then (vm.withData data).applyOffer l ls move
    else (vm.withData data).applyMove l ls move

/-- One step of the interpreter with debugging inactive. -/
def step (G : Guest μ σ) : Option (List (Event μ) × Vm μ σ) :=
  match vm.loops with
  | l :: ls => match l.phase with
    | .dispatching =>
      let (event, vm) := vm.dispatch G l ls l.method
      some ([event], vm)
    | _ => (vm.runtimeStep G).map ([], ·)
  | [] => (vm.runtimeStep G).map ([], ·)

end Vm

/-! ## The debugger -/

/-- Into, over, out. -/
inductive StepKind where
  | into
  | over
  | out
deriving DecidableEq, Repr

structure StepPlan where
  kind : StepKind
  baseFp : Nat
  baseBci : Nat
deriving DecidableEq, Repr

/-- The commands that resume. -/
inductive Command where
  | continue_
  | step
  | next
  | finish
deriving DecidableEq, Repr

/-- What the debugger reads of a method: its counters bit, its identity hash and its
selector. -/
structure Methods (μ : Type) where
  hasBp : μ → Bool
  identityHash : μ → Nat
  selector : μ → String

/-- `DebugState`. A breakpoint is the selector it was set for; `session` holds the commands
still to be read, and the end of the input continues. -/
structure DebugState where
  active : Bool
  breakpoints : Nat → Nat → Option String
  step : Option StepPlan
  sessionDepth : Nat
  session : List Command

namespace DebugState

variable (d : DebugState)

/-- `hit`. -/
def hit (M : Methods μ) (method : μ) (bci : Nat) : Bool :=
  if 0 < d.sessionDepth ∨ 65535 < bci then false
  else match d.breakpoints (M.identityHash method) bci with
    | none => false
    | some selector => M.selector method = selector

def StepPlan.fires (plan : StepPlan) (fp bci : Nat) : Bool :=
  match plan.kind with
  | .into => fp ≠ plan.baseFp ∨ bci ≠ plan.baseBci
  | .over => fp < plan.baseFp ∨ (fp = plan.baseFp ∧ bci ≠ plan.baseBci)
  | .out => fp < plan.baseFp

/-- `step_check`: the plan is consumed when it fires. -/
def stepCheck (fp bci : Nat) : Bool × DebugState :=
  if 0 < d.sessionDepth then (false, d)
  else match d.step with
    | none => (false, d)
    | some plan =>
      if StepPlan.fires plan fp bci then (true, { d with step := none }) else (false, d)

/-- `arm_step`. -/
def armStep (kind : StepKind) (fp bci : Nat) : DebugState :=
  { d with step := some ⟨kind, fp, bci⟩ }

/-- `halt`: one resuming command. The session depth it raises is lowered again before it
returns. -/
def halt (fp bci : Nat) : DebugState :=
  match d.session with
  | [] => d
  | c :: session =>
    let d := { d with session }
    match c with
    | .continue_ => d
    | .step => d.armStep .into fp bci
    | .next => d.armStep .over fp bci
    | .finish => d.armStep .out fp bci

/-- Whether the hook halts in front of the bytecode, and the state after its checks. -/
def check (M : Methods μ) (method : μ) (fp bci : Nat) : Bool × DebugState :=
  let hitBp := M.hasBp method && d.hit M method bci
  let (hitStep, d) := d.stepCheck fp bci
  (hitBp || hitStep, d)

end DebugState

/-- The hook: the method the loop goes on with, `none` for its failed `expect`. -/
def hook (M : Methods μ) (vm : Vm μ σ) (l : Loop μ) (d : DebugState) :
    Option (μ × DebugState) :=
  if d.active then
    match d.check M l.method l.top.fp l.bci with
    | (true, d) => vm.regs.method.map (·, d.halt l.top.fp l.bci)
    | (false, d) => some (l.method, d)
  else some (l.method, d)

/-- One step of the interpreter under the debugger. -/
def debugStep (G : Guest μ σ) (M : Methods μ) (s : Vm μ σ × DebugState) :
    Option (List (Event μ) × Vm μ σ × DebugState) :=
  match s.1.loops with
  | l :: ls => match l.phase with
    | .dispatching =>
      match hook M s.1 l s.2 with
      | none => none
      | some (method, d) =>
        let (event, vm) := s.1.dispatch G l ls method
        some ([event], vm, d)
    | _ => (s.1.runtimeStep G).map fun vm => ([], vm, s.2)
  | [] => (s.1.runtimeStep G).map fun vm => ([], vm, s.2)

/-! ## Runs -/

/-- `n` steps and what they execute. -/
def run (G : Guest μ σ) : Nat → Vm μ σ → Option (List (Event μ) × Vm μ σ)
  | 0, vm => some ([], vm)
  | n + 1, vm => do
    let (events, vm) ← run G n vm
    let (more, vm) ← vm.step G
    return (events ++ more, vm)

def debugRun (G : Guest μ σ) (M : Methods μ) :
    Nat → Vm μ σ × DebugState → Option (List (Event μ) × Vm μ σ × DebugState)
  | 0, s => some ([], s)
  | n + 1, s => do
    let (events, s) ← debugRun G M n s
    let (more, s) ← debugStep G M s
    return (events ++ more, s)

/-- A VM that has run nothing yet. -/
def Vm.fresh (data : σ) : Vm μ σ := ⟨data, ⟨none, 0⟩, []⟩

end

end WinVm.Debugger
