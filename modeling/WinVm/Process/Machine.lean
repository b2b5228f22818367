import WinVm.Process.Stack

/-!
# The interpreter's activations

Frames, blocks and returns of the interpreter with the JIT off: `push_frame`,
`activate_block_interp`, `make_closure`, `do_return`, `continue_unwind`, the
`ensure:`/`ifCurtailed:` primitives and the dispatch loop that drives them
(`interpreter/mod.rs`, `interpreter/blocks.rs`, `interpreter/unwind.rs`,
`interpreter/send.rs`, `runtime/primitives.rs`).

One `step` executes one bytecode. The tail calls between the return routines are steps of
their own (`Control`), and a nested `run_method` is a `Nested` record of the Rust locals
that wait for it. Everything the activations do not look into is the guest's: objects,
globals, method dictionaries and the other primitives are an abstract heap.

The `ledger` is a ghost: the activations in progress, innermost first. No function reads
it. `handlerRuns` is a ghost too, the armed activations whose handler was started.
-/

namespace WinVm.Process

/-! ## Code -/

/-- What a push bytecode reads. -/
inductive Source where
  | self
  | nil
  | bool (b : Bool)
  | smi (v : Int)
  | literal (v : Oop)
  | temp (t : Nat)
  | instvar (i : Nat)
  | global (i : Nat)
  | ctxTemp (depth idx : Nat)
deriving DecidableEq, Repr

/-- What a store-and-pop bytecode writes. -/
inductive Dest where
  | temp (t : Nat)
  | instvar (i : Nat)
  | global (i : Nat)
  | ctxTemp (depth idx : Nat)
deriving DecidableEq, Repr

/-- The bytecodes; a bci counts instructions. -/
inductive Instr where
  | push (s : Source)
  | storeTemp (t : Nat)
  | storePop (d : Dest)
  | pop
  | dup
  | jump (target : Nat)
  | brTrue (target : Nat)
  | brFalse (target : Nat)
  /-- A send site: its selector, and for a super send the class it starts at. -/
  | send (site argc : Nat)
  | pushClosure (blk nValueCaptures : Nat)
  | returnTos
  | returnSelf
  | blockReturnTos
  | nlrTos
deriving DecidableEq, Repr

/-- The primitives that activate; every other one only computes. -/
inductive Primitive where
  | none
  /-- `prim_value0` to `prim_value3`: the count is the method's own `argc`. -/
  | value
  | valueWithArguments
  | ensureLike (kind : MarkerKind)
  | performWithArguments
  | other (id : Nat)
deriving DecidableEq, Repr

/-- A `CompiledMethod` or `CompiledBlock`. -/
structure Method where
  argc : Nat
  ntemps : Nat
  isBlock : Bool
  hasCtx : Bool
  nctx : Nat
  capturesCtx : Bool
  primitive : Primitive
  bytecode : List Instr

/-- The guest: its code, and the operations on objects that activations rest on. -/
structure Guest (σ : Type) where
  method : Nat → Method
  lookup : σ → Nat → Oop → Option Nat
  /-- `dnu` builds a `Message` from a site's selector and the arguments. -/
  message : σ → Nat → List Oop → σ × Oop
  siteDoesNotUnderstand : Nat
  siteMustBeBoolean : Nat
  siteCannotReturn : Nat
  /-- The other primitives: `none` is `PrimResult::Fail`. -/
  prim : Nat → σ → Oop → List Oop → Option (σ × Oop)
  instvar : σ → Oop → Nat → Option Oop
  setInstvar : σ → Oop → Nat → Oop → Option σ
  global : σ → Nat → Nat → Oop
  setGlobal : σ → Nat → Nat → Oop → σ
  /-- The elements of an `Array`, and the send site a `Symbol` names. -/
  elements : σ → Oop → Option (List Oop)
  symbol : σ → Oop → Option Nat
  /-- Whether allocating the `n`-th context runs a collection that moves young objects. -/
  collects : Nat → Bool

/-! ## State -/

structure Closure where
  method : Nat
  home : Int
  copied : List Oop
deriving DecidableEq, Repr

structure Context where
  homeHint : Oop
  slots : List Oop
deriving DecidableEq, Repr

structure Token where
  home : Int
  value : Oop
deriving DecidableEq, Repr

/-- `InterpRegs`. -/
structure Regs where
  method : Option Nat
  bci : Nat
deriving DecidableEq, Repr

/-- The locals of `run_method_reentrant` and of the `try_primitive` that called it.
`entry` says that this attempt was itself made by a `run_method`. -/
structure Nested where
  fp : Nat
  hasFrame : Bool
  regs : Regs
  base : Nat
  entry : Bool
deriving DecidableEq, Repr

/-- What runs next. -/
inductive Control where
  | dispatch (method bci : Nat)
  | resumeEnsureRet
  | resumeUnwind
  | runMethod (method argc : Nat)
  /-- The innermost `run_method` has returned this word to Rust. -/
  | returned (v : Oop)
deriving DecidableEq, Repr

/-- One activation: where its frame is, and its number among all activations made. -/
structure Activation where
  fp : Nat
  id : Nat
deriving DecidableEq, Repr

structure Vm (σ : Type) where
  stack : ProcessStack
  regs : Regs
  /-- Activations made so far; the `u32` handed out is this modulo `2^32`. -/
  nextFrameSerial : Nat
  closures : List Closure
  contexts : List Context
  tokens : List Token
  heap : σ
  nlrState : Option (HomeRef × Oop)
  nested : List Nested
  control : Control
  ledger : List Activation
  handlerRuns : List Nat

def bciResumeEnsureRet : Nat := 0x7FFF0001
def bciResumeUnwind : Nat := 0x7FFF0002
def bciResumeCannotReturn : Nat := 0x7FFF0003

section
variable {σ : Type} (G : Guest σ)

namespace ProcessStack

variable (st : ProcessStack)

/-- `Frame::method`. -/
def frameMethodId (fp : Nat) : Except Fault Nat :=
  match st.slots (fp + frameMethod) with
  | .method m => .ok m
  | _ => .error .notAMethod

/-- `Frame::receiver_slot`. -/
def receiverSlot (G : Guest σ) (fp : Nat) : Except Fault Nat := do
  let m ← st.frameMethodId fp
  .ok (fp - (G.method m).argc - 1)

/-- `Frame::temp_index`. -/
def tempIndex (G : Guest σ) (fp t : Nat) : Except Fault Nat := do
  let m ← st.frameMethodId fp
  if t < (G.method m).argc then .ok (fp - (G.method m).argc + t)
  else if t < (G.method m).argc + (G.method m).ntemps then
    .ok (fp + frameTempsBase + (t - (G.method m).argc))
  else .error .badTemp

/-- The floor of the operand stack: `fp + FRAME_TEMPS_BASE + ntemps`. -/
def operandFloor (G : Guest σ) (fp : Nat) : Except Fault Nat := do
  let m ← st.frameMethodId fp
  .ok (fp + frameTempsBase + (G.method m).ntemps)

/-- Writes a run of words from `idx`, one `set` for each. -/
def setRun (idx : Nat) (vs : List Oop) : ProcessStack :=
  { st with
    slots := fun i => if idx ≤ i then (vs[i - idx]?).getD (st.slots i) else st.slots i }

/-- The words of `[i, i + n)`, deepest first. -/
def words (i n : Nat) : List Oop := (List.range n).map fun k => st.slots (i + k)

end ProcessStack

/-- The header and the nil temporaries of a fresh frame. -/
def frameWords (m : Method) (mid : Nat) (savedFp : Int) (savedBci : Nat) (receiver : Oop)
    (serial : Nat) : List Oop :=
  [.method mid, .smi savedFp, .smi savedBci, .nil, receiver, .smi serial, .nil] ++
    List.replicate m.ntemps .nil

namespace Vm

variable (vm : Vm σ)

def withStack (st : ProcessStack) : Vm σ := { vm with stack := st }
def withSp (sp : Nat) : Vm σ := vm.withStack (vm.stack.withSp sp)
def withControl (control : Control) : Vm σ := { vm with control }

@[simp] theorem withStack_stack (st : ProcessStack) : (vm.withStack st).stack = st := rfl
@[simp] theorem withSp_stack (sp : Nat) : (vm.withSp sp).stack = vm.stack.withSp sp := rfl

/-- Checks that `n` operands lie above the current frame's floor. -/
def needs (n : Nat) : Except Fault Unit := do
  let floor ← vm.stack.operandFloor G vm.stack.fp
  if floor + n ≤ vm.stack.sp then .ok () else .error .operandUnderflow

def push (v : Oop) : Except Fault (Vm σ) := do
  let st ← vm.stack.push v
  .ok (vm.withStack st)

/-- `ProcessStack::pop`, with the floor of the current frame. -/
def pop : Except Fault (Oop × Vm σ) := do
  vm.needs G 1
  .ok (vm.stack.slots (vm.stack.sp - 1), vm.withSp (vm.stack.sp - 1))

/-- `dispatch` from the current frame's method. -/
def dispatchCurrent (bci : Nat) : Except Fault (Vm σ) := do
  let m ← vm.stack.frameMethodId vm.stack.fp
  .ok (vm.withControl (.dispatch m bci))

/-! ## Frames and blocks -/

/-- Pushes a frame's words at `sp` and makes it the active one: the part `push_frame` and
`activate_block_interp` share. -/
def pushWords (mid : Nat) (savedFp : Int) (savedBci : Nat) (receiver : Oop) :
    Except Fault (Vm σ) := do
  let fpNew := vm.stack.sp
  let st ← vm.stack.pushAll (frameWords (G.method mid) mid savedFp savedBci receiver
    (vm.nextFrameSerial % 2 ^ 32))
  .ok { vm with
    stack := st.activateFrame fpNew
    nextFrameSerial := vm.nextFrameSerial + 1
    ledger := ⟨fpNew, vm.nextFrameSerial⟩ :: vm.ledger }

/-- `push_frame`: the receiver is copied from under the arguments. -/
def pushFrame (mid argc : Nat) (savedFp : Int) (savedBci : Nat) : Except Fault (Vm σ) :=
  vm.pushWords G mid savedFp savedBci (vm.stack.slots (vm.stack.sp - argc - 1))

/-- `maybe_alloc_context`. -/
def maybeAllocContext (mid fp : Nat) (enclosing : Oop) : Vm σ :=
  if (G.method mid).hasCtx then
    { vm with
      stack := vm.stack.setContext fp (.context vm.contexts.length)
      contexts := vm.contexts ++ [⟨enclosing, List.replicate (G.method mid).nctx .nil⟩] }
  else vm

/-- `ClosureOop::try_from`. -/
def closureOf : Oop → Except Fault Closure
  | .closure c => match vm.closures[c]? with
    | some cl => .ok cl
    | none => .error .notAClosure
  | _ => .error .notAClosure

/-- The value captures of a closure: what `copied` holds after the receiver and, when the
block captures it, the context. -/
def captures (cl : Closure) : List Oop :=
  cl.copied.drop (1 + if (G.method cl.method).capturesCtx then 1 else 0)

/-- The context a block frame starts from: the creator's, when the block captures it. -/
def enclosing (cl : Closure) : Oop :=
  if (G.method cl.method).capturesCtx then cl.copied.getD 1 .nil else .nil

/-- The end of `activate_block_interp`: the closure is read again from the receiver slot,
since making the context may have moved it, and its value captures become the first
temporaries. -/
def copyCaptures (fp : Nat) : Except Fault (Vm σ) := do
  let cl ← vm.closureOf (vm.stack.slots (← vm.stack.receiverSlot G fp))
  if (captures G cl).length ≤ (G.method cl.method).ntemps then
    .ok { vm with
      stack := vm.stack.setRun (fp + frameTempsBase) (captures G cl)
      regs := ⟨some cl.method, 0⟩
      control := .dispatch cl.method 0 }
  else .error .badTemp

/-- `activate_block_interp`. `none` is `PrimResult::Fail`. -/
def activateBlockInterp (closure : Oop) (argc : Nat) : Except Fault (Option (Vm σ)) := do
  let cl ← vm.closureOf closure
  let blk := G.method cl.method
  if blk.argc ≠ argc then .ok none
  else
    let fpNew := vm.stack.sp
    let vm ← vm.pushWords G cl.method (asI64 vm.stack.fp) vm.regs.bci (cl.copied.getD 0 .nil)
    let vm := if blk.hasCtx then vm.maybeAllocContext G cl.method fpNew (enclosing G cl)
      else vm.withStack (vm.stack.setContext fpNew (enclosing G cl))
    .ok (some (← vm.copyCaptures G fpNew))

/-- `home_ref_for_new_closure`: a block frame hands on its own closure's home. -/
def homeRefForNewClosure : Except Fault Int := do
  let fp := vm.stack.fp
  let m ← vm.stack.frameMethodId fp
  if (G.method m).isBlock then
    let enclosing ← vm.closureOf (vm.stack.slots (← vm.stack.receiverSlot G fp))
    .ok enclosing.home
  else
    .ok (packHomeRef { proc := 0, serial := ← vm.stack.serial fp, fp })

/-- `make_closure`, and the push of the closure that follows it. -/
def makeClosure (blk nValueCaptures : Nat) : Except Fault (Vm σ) := do
  vm.needs G nValueCaptures
  let base := vm.stack.sp - nValueCaptures
  let captures := vm.stack.words base nValueCaptures
  let context := if (G.method blk).capturesCtx then [vm.stack.context vm.stack.fp] else []
  let home ← vm.homeRefForNewClosure G
  let closure : Closure := ⟨blk, home, vm.stack.receiver vm.stack.fp :: context ++ captures⟩
  let made := { vm.withSp base with closures := vm.closures ++ [closure] }
  made.push (.closure vm.closures.length)

/-! ## Markers -/

/-- `MarkerClass`. -/
inductive MarkerClass where
  | none
  | handler (closure : Oop)
  | token (id : Nat)
deriving DecidableEq, Repr

/-- `marker_class`. -/
def markerClass (st : ProcessStack) (fp : Nat) : Except Fault MarkerClass :=
  match st.marker fp with
  | .nil => .ok .none
  | .closure c => .ok (.handler (.closure c))
  | .token t => .ok (.token t)
  | _ => .error .badMarker

/-- The resume sentinel stamped where the next activation takes its saved bci from; the
ghost log notes whose handler starts. -/
def noteHandler (resume : Nat) : Vm σ :=
  { vm with
    regs := ⟨vm.regs.method, resume⟩
    handlerRuns := vm.handlerRuns ++ (vm.ledger.head?.map Activation.id).toList }

/-- Starts the handler of the current frame: the closure is pushed as the receiver a
`value` send would leave, and the activation's saved bci is the resume sentinel. -/
def startHandler (handler : Oop) (resume : Nat) : Except Fault (Vm σ) := do
  let vm ← vm.push handler
  match ← (vm.noteHandler resume).activateBlockInterp G handler 0 with
  | some vm => .ok vm
  | none => .error .badMarker

/-! ## Returns -/

/-- `pop_and_deliver`. -/
def popAndDeliver (result : Oop) : Except Fault (Vm σ) := do
  let m ← vm.stack.frameMethodId vm.stack.fp
  let base := vm.stack.fp - (G.method m).argc - 1
  let savedFp ← vm.stack.savedFp vm.stack.fp
  let savedBci ← vm.stack.savedBci vm.stack.fp
  let vm := { vm with
    stack := (vm.stack.set base result).withSp (base + 1)
    ledger := vm.ledger.tail }
  if savedFp = entryFrameSentinel then
    .ok { vm with
      stack := (vm.stack.withSp base).deactivate
      control := .returned result }
  else
    let vm := vm.withStack (vm.stack.activateFrame savedFp.toNat)
    if savedBci = bciResumeEnsureRet then .ok (vm.withControl .resumeEnsureRet)
    else if savedBci = bciResumeUnwind then .ok (vm.withControl .resumeUnwind)
    else if savedBci = bciResumeCannotReturn then .error .resumedFromCannotReturn
    else
      let caller ← vm.stack.frameMethodId vm.stack.fp
      .ok { vm with regs := ⟨some caller, savedBci⟩, control := .dispatch caller savedBci }

/-- `do_return`, with `intercept_ensure_return` as its last arm. -/
def doReturn (result : Oop) : Except Fault (Vm σ) := do
  let fp := vm.stack.fp
  match ← markerClass vm.stack fp with
  | .none => vm.popAndDeliver G result
  | .token _ => .error .tokenOnReturn
  | .handler h =>
    match ← vm.stack.markerKind fp with
    | .ifCurtailed => (vm.withStack (vm.stack.clearMarker fp)).popAndDeliver G result
    | .ensure =>
      let vm ← (vm.withStack (vm.stack.clearMarker fp)).push result
      vm.startHandler G h bciResumeEnsureRet

/-- `resume_ensure_ret`. -/
def resumeEnsureRet : Except Fault (Vm σ) := do
  let (result, vm) ← (vm.withSp (vm.stack.sp - 1)).pop G
  vm.doReturn G result

/-! ## Unwinding -/

/-- `home_is_live`. -/
def homeIsLive (home : HomeRef) : Bool :=
  if home.proc ≠ 0 then false
  else if vm.stack.sp ≤ home.fp + frameMarker then false
  else match vm.stack.slots (home.fp + frameSerial) with
    | .smi v => serialBits v == home.serial
    | _ => false

/-- `ScanResult`. -/
inductive ScanResult where
  | marked (fp : Nat) (handler : Oop)
  | reachedHome
  | crossedBoundary (fp : Nat)
deriving DecidableEq, Repr

/-- `innermost_marked_frame`; the loop runs over strictly falling indices. -/
def innermostMarkedFrame (st : ProcessStack) : Nat → Nat → Nat → Except Fault ScanResult
  | 0, _, _ => .error .entryWalk
  | fuel + 1, fp, homeFp => do
    if fp = homeFp then .ok .reachedHome
    else match ← markerClass st fp with
      | .handler h => .ok (.marked fp h)
      | _ =>
        let savedFp ← st.savedFp fp
        if savedFp = entryFrameSentinel then .ok (.crossedBoundary fp)
        else innermostMarkedFrame st fuel savedFp.toNat homeFp

/-- The loop of `pop_frames_above`: the frame chain reaches `target`. -/
def walkTo (st : ProcessStack) : Nat → Nat → Nat → Except Fault Unit
  | 0, _, _ => .error .entryWalk
  | fuel + 1, fp, target => do
    if fp = target then .ok ()
    else
      let savedFp ← st.savedFp fp
      if savedFp = entryFrameSentinel then .error .entryWalk
      else walkTo st fuel savedFp.toNat target

/-- `pop_frames_above`. -/
def popFramesAbove (target : Nat) : Except Fault (Vm σ) := do
  walkTo vm.stack (vm.stack.fp + 1) vm.stack.fp target
  let floor ← vm.stack.operandFloor G target
  .ok { vm with
    stack := (vm.stack.activateFrame target).withSp floor
    ledger := vm.ledger.dropWhile fun a => a.fp ≠ target }

/-! ## Sends -/

/-- `PrimitiveOutcome`, with the nested run a re-entrant primitive starts. -/
inductive PrimitiveOutcome where
  | fallthrough
  | result (v : Oop)
  | activated
  | nested
deriving DecidableEq, Repr

/-- `prim_ensure_like`. The handler is a bare local over the protected block's
activation, so a collection at its context allocation leaves the old address in it. -/
def primEnsureLike (base : Nat) (kind : MarkerKind) : Except Fault (Vm σ × PrimitiveOutcome) := do
  let handler := vm.stack.slots (base + 1)
  match vm.closureOf (vm.stack.slots base), vm.closureOf handler with
  | .ok protected_, .ok handlerCl =>
    if (G.method protected_.method).argc ≠ 0 ∨ (G.method handlerCl.method).argc ≠ 0 then
      .ok (vm, .fallthrough)
    else
      match ← (vm.withSp (vm.stack.sp - 1)).activateBlockInterp G (vm.stack.slots base) 0 with
      | none => .ok (vm, .fallthrough)
      | some act =>
        let moved := (G.method protected_.method).hasCtx && G.collects vm.contexts.length
        let st ← act.stack.setMarker act.stack.fp (if moved then .stale else handler) kind
        .ok (act.withStack st, .activated)
  | _, _ => .ok (vm, .fallthrough)

/-- `prim_perform_with_arguments` up to the nested run's own entry. -/
def primPerform (base : Nat) (entry : Bool) : Except Fault (Vm σ × PrimitiveOutcome) := do
  let receiver := vm.stack.slots base
  match G.symbol vm.heap (vm.stack.slots (base + 1)),
      G.elements vm.heap (vm.stack.slots (base + 2)) with
  | some site, some args =>
    match G.lookup vm.heap site receiver with
    | none => .ok (vm, .fallthrough)
    | some m =>
      if (G.method m).argc ≠ args.length then .ok (vm, .fallthrough)
      else
        let saved : Nested := ⟨vm.stack.fp, vm.stack.hasFrame, vm.regs, base, entry⟩
        let st ← vm.stack.pushAll (receiver :: args)
        .ok ({ vm with
          stack := st
          nested := saved :: vm.nested
          control := .runMethod m args.length }, .nested)
  | _, _ => .ok (vm, .fallthrough)

/-- `try_primitive`. -/
def tryPrimitive (mid argc : Nat) (entry : Bool) : Except Fault (Vm σ × PrimitiveOutcome) := do
  let base := vm.stack.sp - argc - 1
  let receiver := vm.stack.slots base
  match (G.method mid).primitive with
  | .none => .ok (vm, .fallthrough)
  | .value =>
    match vm.closureOf receiver with
    | .error _ => .ok (vm, .fallthrough)
    | .ok _ => match ← vm.activateBlockInterp G receiver argc with
      | some act => .ok (act, .activated)
      | none => .ok (vm, .fallthrough)
  | .valueWithArguments =>
    if argc ≠ 1 then .error .noReceiver else
    match vm.closureOf receiver, G.elements vm.heap (vm.stack.slots (base + 1)) with
    | .ok cl, some args =>
      if args.length ≠ (G.method cl.method).argc then .ok (vm, .fallthrough)
      else
        let st ← (vm.withSp (base + 1)).stack.pushAll args
        match ← (vm.withStack st).activateBlockInterp G receiver args.length with
        | some act => .ok (act, .activated)
        | none => .ok (vm, .fallthrough)
    | _, _ => .ok (vm, .fallthrough)
  | .ensureLike kind =>
    if argc ≠ 1 then .error .noReceiver else vm.primEnsureLike G base kind
  | .performWithArguments =>
    if argc ≠ 2 then .error .noReceiver else vm.primPerform G base entry
  | .other id =>
    match G.prim id vm.heap receiver (vm.stack.words (base + 1) argc) with
    | some (heap, v) => .ok ({ vm.withSp base with heap }, .result v)
    | none => .ok (vm, .fallthrough)

/-- `activate_method`. -/
def activateMethod (mid argc : Nat) : Except Fault (Vm σ) := do
  match ← vm.tryPrimitive G mid argc false with
  | (vm, .result v) => (← vm.push v).dispatchCurrent vm.regs.bci
  | (vm, .activated) => .ok vm
  | (vm, .nested) => .ok vm
  | (vm, .fallthrough) =>
    let vm ← vm.pushFrame G mid argc (asI64 vm.stack.fp) vm.regs.bci
    let vm := vm.maybeAllocContext G mid vm.stack.fp .nil
    .ok { vm with regs := ⟨some mid, 0⟩, control := .dispatch mid 0 }

/-- `send_generic` with its `dnu` arm. -/
def sendGeneric (site argc : Nat) : Except Fault (Vm σ) := do
  vm.needs G (argc + 1)
  let base := vm.stack.sp - argc - 1
  let receiver := vm.stack.slots base
  match G.lookup vm.heap site receiver with
  | some m =>
    if (G.method m).argc = argc then vm.activateMethod G m argc else .error .noReceiver
  | none =>
    let (heap, msg) := G.message vm.heap site (vm.stack.words (base + 1) argc)
    let vm ← ({ vm.withSp (base + 1) with heap } : Vm σ).push msg
    match G.lookup vm.heap G.siteDoesNotUnderstand receiver with
    | some m => if (G.method m).argc = 1 then vm.activateMethod G m 1 else .error .noReceiver
    | none => .error .doesNotUnderstand

/-- `cannot_return`. -/
def cannotReturn (closure value : Oop) : Except Fault (Vm σ) := do
  let vm ← vm.push closure
  let vm ← vm.push value
  match G.lookup vm.heap G.siteCannotReturn closure with
  | some m =>
    if (G.method m).argc = 1 then
      ({ vm with regs := ⟨vm.regs.method, bciResumeCannotReturn⟩ } : Vm σ).activateMethod G m 1
    else .error .noReceiver
  | none => .error .doesNotUnderstand

/-- `continue_unwind`. `origin` is the closure whose `nlr_tos` started the unwind, when
the caller has it. -/
def continueUnwind (home : HomeRef) (value : Oop) (origin : Option Oop) :
    Except Fault (Vm σ) := do
  if vm.stack.fp = usizeMax then
    .ok { vm with nlrState := some (home, value), control := .returned .nlrSentinel }
  else if ¬ vm.homeIsLive home then
    match origin with
    | some closure => vm.cannotReturn G closure value
    | none => vm.cannotReturn G (vm.stack.slots (← vm.stack.receiverSlot G vm.stack.fp)) value
  else
    match ← innermostMarkedFrame vm.stack (vm.stack.fp + 1) vm.stack.fp home.fp with
    | .reachedHome => (← vm.popFramesAbove G home.fp).doReturn G value
    | .crossedBoundary entryFp =>
      let m ← vm.stack.frameMethodId entryFp
      .ok { vm with
        stack := (vm.stack.withSp (entryFp - (G.method m).argc - 1)).deactivate
        ledger := (vm.ledger.dropWhile fun a => a.fp ≠ entryFp).tail
        nlrState := some (home, value)
        control := .returned .nlrSentinel }
    | .marked mfp handler =>
      let vm ← vm.popFramesAbove G mfp
      -- `alloc_unwind_token` parks the value on the operand stack over its allocation
      let _ ← vm.push value
      let st ← vm.stack.setMarker mfp (.token vm.tokens.length) .ensure
      let vm := { vm.withStack st with tokens := vm.tokens ++ [(⟨packHomeRef home, value⟩ : Token)] }
      vm.startHandler G handler bciResumeUnwind

/-- `resume_unwind`. -/
def resumeUnwind : Except Fault (Vm σ) := do
  let vm := vm.withSp (vm.stack.sp - 1)
  let fp := vm.stack.fp
  match ← markerClass vm.stack fp with
  | .token t =>
    match vm.tokens[t]? with
    | some token =>
      (vm.withStack (vm.stack.clearMarker fp)).continueUnwind G
        (unpackHomeRef token.home) token.value none
    | none => .error .noToken
  | _ => .error .noToken

/-! ## The dispatch loop -/

/-- `ctx_temp_walk`: `depth` hops along the chain of contexts. -/
def ctxTempWalk (contexts : List Context) : Nat → Oop → Except Fault Nat
  | 0, .context c => if c < contexts.length then .ok c else .error .notAContext
  | depth + 1, .context c => match contexts[c]? with
    | some ctx => ctxTempWalk contexts depth ctx.homeHint
    | none => .error .notAContext
  | _, _ => .error .notAContext

/-- The slot of a context a `ctx_temp` bytecode reads. -/
def readContext (contexts : List Context) (depth idx : Nat) (from_ : Oop) : Except Fault Oop := do
  let c ← ctxTempWalk contexts depth from_
  match (contexts[c]?).bind fun ctx => ctx.slots[idx]? with
  | some v => .ok v
  | none => .error .notAContext

/-- The contexts after a `store_ctx_temp_pop`. -/
def writeContext (contexts : List Context) (depth idx : Nat) (from_ v : Oop) :
    Except Fault (List Context) := do
  let c ← ctxTempWalk contexts depth from_
  .ok (contexts.modify c fun ctx => { ctx with slots := ctx.slots.set idx v })

/-- The word a push bytecode pushes. -/
def load (method : Nat) : Source → Except Fault Oop
  | .self => .ok (vm.stack.receiver vm.stack.fp)
  | .nil => .ok .nil
  | .bool b => .ok (.bool b)
  | .smi v => .ok (.smi v)
  | .literal v => .ok v
  | .temp t => do .ok (vm.stack.slots (← vm.stack.tempIndex G vm.stack.fp t))
  | .instvar i => match G.instvar vm.heap (vm.stack.receiver vm.stack.fp) i with
    | some v => .ok v
    | none => .error .noReceiver
  | .global i => .ok (G.global vm.heap method i)
  | .ctxTemp depth idx => readContext vm.contexts depth idx (vm.stack.context vm.stack.fp)

/-- The effect of a store bytecode. -/
def store (method : Nat) (v : Oop) : Dest → Except Fault (Vm σ)
  | .temp t => do
    let i ← vm.stack.tempIndex G vm.stack.fp t
    .ok (vm.withStack (vm.stack.set i v))
  | .instvar i => match G.setInstvar vm.heap (vm.stack.receiver vm.stack.fp) i v with
    | some heap => .ok { vm with heap }
    | none => .error .noReceiver
  | .global i => .ok { vm with heap := G.setGlobal vm.heap method i v }
  | .ctxTemp depth idx => do
    let contexts ← writeContext vm.contexts depth idx (vm.stack.context vm.stack.fp) v
    .ok { vm with contexts }

/-- A branch bytecode: the popped boolean, or a `#mustBeBoolean` send from the branch. -/
def branch (method bci : Nat) (sense : Bool) (target : Nat) : Except Fault (Vm σ) := do
  let (t, vm) ← vm.pop G
  match t with
  | .bool b => .ok (vm.withControl (.dispatch method (if b = sense then target else bci + 1)))
  | t =>
    let vm ← vm.push t
    match G.lookup vm.heap G.siteMustBeBoolean t with
    | some m =>
      if (G.method m).argc = 0 then
        ({ vm with regs := ⟨some method, bci⟩ } : Vm σ).activateMethod G m 0
      else .error .noReceiver
    | none => .error .doesNotUnderstand

/-- One bytecode of the active frame's method. -/
def execute (method bci : Nat) : Instr → Except Fault (Vm σ)
  | .push s => do
    let vm ← vm.push (← vm.load G method s)
    .ok (vm.withControl (.dispatch method (bci + 1)))
  | .storeTemp t => do
    vm.needs G 1
    let vm ← vm.store G method (vm.stack.slots (vm.stack.sp - 1)) (.temp t)
    .ok (vm.withControl (.dispatch method (bci + 1)))
  | .storePop d => do
    let (v, vm) ← vm.pop G
    let vm ← vm.store G method v d
    .ok (vm.withControl (.dispatch method (bci + 1)))
  | .pop => do
    let (_, vm) ← vm.pop G
    .ok (vm.withControl (.dispatch method (bci + 1)))
  | .dup => do
    vm.needs G 1
    let vm ← vm.push (vm.stack.slots (vm.stack.sp - 1))
    .ok (vm.withControl (.dispatch method (bci + 1)))
  | .jump target => .ok (vm.withControl (.dispatch method target))
  | .brTrue target => vm.branch G method bci true target
  | .brFalse target => vm.branch G method bci false target
  | .send site argc => ({ vm with regs := ⟨some method, bci + 1⟩ } : Vm σ).sendGeneric G site argc
  | .pushClosure blk n => do
    let vm ← vm.makeClosure G blk n
    .ok (vm.withControl (.dispatch method (bci + 1)))
  | .returnTos | .blockReturnTos => do
    let (r, vm) ← vm.pop G
    vm.doReturn G r
  | .returnSelf => vm.doReturn G (vm.stack.receiver vm.stack.fp)
  | .nlrTos => do
    let (value, vm) ← vm.pop G
    let vm : Vm σ := { vm with regs := ⟨some method, bci⟩ }
    let closure := vm.stack.slots (← vm.stack.receiverSlot G vm.stack.fp)
    let cl ← vm.closureOf closure
    vm.continueUnwind G (unpackHomeRef cl.home) value (some closure)

/-- `run_method` once the receiver and the arguments are pushed: the primitive attempt
under the spoofed `fp`, then the entry frame. -/
def runMethod (mid argc : Nat) : Except Fault (Vm σ) := do
  let spoofed := { vm with stack := { vm.stack with fp := usizeMax }, regs := ⟨vm.regs.method, 0⟩ }
  match ← spoofed.tryPrimitive G mid argc true with
  | (vm, .result v) => .ok (vm.withControl (.returned v))
  | (vm, .activated) => .ok vm
  | (vm, .nested) => .ok vm
  | (_, .fallthrough) =>
    let act ← vm.pushFrame G mid argc entryFrameSentinel 0
    let act := act.maybeAllocContext G mid act.stack.fp .nil
    .ok (act.withControl (.dispatch mid 0))

/-- The innermost `run_method` returned `v`: `run_method_reentrant` restores what it saved
and the primitive's `Ok` arm delivers the word as the send's result. -/
def returnNested (v : Oop) : Except Fault (Vm σ) := do
  match vm.nested with
  | [] => .error .stopped
  | n :: rest =>
    let vm := { vm with
      stack := { vm.stack.withSp n.base with fp := n.fp, hasFrame := n.hasFrame }
      regs := n.regs
      nested := rest }
    if n.entry then .ok (vm.withControl (.returned v))
    else (← vm.push v).dispatchCurrent n.regs.bci

/-- One step of the machine. -/
def step : Except Fault (Vm σ) :=
  match vm.control with
  | .dispatch method bci => match (G.method method).bytecode[bci]? with
    | some instr => vm.execute G method bci instr
    | none => .error .fellOffEnd
  | .resumeEnsureRet => vm.resumeEnsureRet G
  | .resumeUnwind => vm.resumeUnwind G
  | .runMethod m argc => vm.runMethod G m argc
  | .returned v => vm.returnNested v

/-- The process stack a VM starts with. -/
def emptyStack : ProcessStack := { slots := fun _ => .smi 0, sp := 0, fp := 0, hasFrame := false }

/-- `run_method` at the top level, up to the primitive attempt: the receiver and the
arguments are pushed. The heap is what reading and compiling the doit left. -/
def begin (heap : σ) (mid : Nat) (receiver : Oop) (args : List Oop) : Except Fault (Vm σ) := do
  let stack ← vm.stack.pushAll (receiver :: args)
  .ok { vm with stack, heap, control := .runMethod mid args.length }

/-- A VM that has run nothing yet. -/
def fresh (heap : σ) : Vm σ where
  stack := emptyStack
  regs := ⟨none, 0⟩
  nextFrameSerial := 0
  closures := []
  contexts := []
  tokens := []
  heap
  nlrState := none
  nested := []
  control := .returned .nil
  ledger := []
  handlerRuns := []

end Vm

end

end WinVm.Process
