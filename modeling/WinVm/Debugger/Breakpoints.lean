import WinVm.Compiler.Inline

/-!
# Breakpoints and compiled code

`set_breakpoint`, `clear_breakpoint`, `pin_method` and `unpin_method` of `runtime/debug.rs`, over
the VM's compiled code. A breakpoint is a row in a table keyed by identity hash and bci, and two
bits in the counters of its method: one the dispatch hook asks before it searches the table, one
that keeps the method from being compiled. Setting it retires the nmethods that depend on the
method.

`Act` is what can happen while a breakpoint stands: the operations of `Codecache.Op` with the
sends their compiles come to, the activation of a block, a call of compiled code, and the commands
of the debugger.
-/

namespace WinVm.Debugger

open WinVm.Interpreter WinVm.Codecache WinVm.Compiler

/-! ## State -/

/-- A row of the table, as far as the hook and `clear_breakpoint` read it. -/
structure Breakpoint where
  selector : String
  restoreCompile : Bool
deriving DecidableEq, Repr

/-- The VM with its debugger. `symbol` is the text of a selector and `boundary` whether an
instruction of a method starts at a bci; `standing` is a ghost: the breakpoints set and not yet
cleared. -/
structure Debugged where
  jit : Jit
  identityHash : Addr → Nat
  symbol : Addr → String
  boundary : Addr → Nat → Bool
  shape : Addr → Shape
  smiKlass : Addr
  closureKlass : Addr
  active : Bool
  breakpoints : List ((Nat × Nat) × Breakpoint)
  pinned : List (Nat × Bool)
  standing : List (Addr × Nat)

/-- `HashMap::insert`. -/
def insertRow {κ β : Type} [DecidableEq κ] (k : κ) (b : β) (rows : List (κ × β)) : List (κ × β) :=
  (k, b) :: rows.filter fun r => decide (r.1 ≠ k)

/-- `HashMap::get`. -/
def findRow {κ β : Type} [DecidableEq κ] (k : κ) (rows : List (κ × β)) : Option β :=
  (rows.find? fun r => decide (r.1 = k)).map Prod.snd

/-- The rows `HashMap::remove` leaves. -/
def removeRow {κ β : Type} [DecidableEq κ] (k : κ) (rows : List (κ × β)) : List (κ × β) :=
  rows.filter fun r => decide (r.1 ≠ k)

namespace Debugged

variable (d : Debugged)

def key (m : Addr) (bci : Nat) : Nat × Nat := (d.identityHash m, bci)

/-- `hit`, outside a halt session. -/
def hit (m : Addr) (bci : Nat) : Bool :=
  if 65535 < bci then false
  else match findRow (d.key m bci) d.breakpoints with
    | none => false
    | some b => decide (d.symbol (d.jit.selector m) = b.selector)

/-- The test of the dispatch hook. -/
def hitBp (m : Addr) (bci : Nat) : Bool :=
  d.active && (d.jit.counters m).hasBp && d.hit m bci

def setFlags (m : Addr) (f : Counters → Counters) : Debugged :=
  { d with jit := d.jit.setCounters m (f (d.jit.counters m)) }

def setHasBp (m : Addr) : Debugged := d.setFlags m fun c => { c with hasBp := true }

def clearHasBp (m : Addr) : Debugged := d.setFlags m fun c => { c with hasBp := false }

def setCompileDisabled (m : Addr) : Debugged := { d with jit := d.jit.setCompileDisabled m }

def clearCompileDisabled (m : Addr) : Debugged :=
  d.setFlags m fun c => { c with compileDisabled := false }

/-- `invalidate_dependents` under the holder and the selector of `m`. -/
def retireDependents (m : Addr) : Option Debugged :=
  match (d.jit.vm.methods m).map Method.holder with
  | some (.ref h) => (invalidateDependents d.jit.vm d.jit.ct h (d.jit.selector m)).map fun ct =>
      { d with jit := { d.jit with ct } }
  | _ => some d

/-! ## Commands -/

/-- `set_breakpoint`; a bci that starts no instruction is an error and changes nothing. -/
def setBreakpoint (m : Addr) (bci : Nat) : Option Debugged :=
  if d.boundary m bci then
    let restoreCompile := !(d.jit.counters m).compileDisabled
    let row := ⟨d.symbol (d.jit.selector m), restoreCompile⟩
    let d := { d with breakpoints := insertRow (d.key m bci) row d.breakpoints }
    let d := { d.setHasBp m with active := true }
    let d := (d.setCompileDisabled m).setHasBp m
    (d.retireDependents m).map fun d => { d with standing := (m, bci) :: d.standing }
  else some d

/-- `clear_breakpoint`. -/
def clearBreakpoint (m : Addr) (bci : Nat) : Debugged :=
  match findRow (d.key m bci) d.breakpoints with
  | none => d
  | some b =>
    let d := { d with
      breakpoints := removeRow (d.key m bci) d.breakpoints
      standing := d.standing.filter fun p => decide (p ≠ (m, bci)) }
    let anyLeft := d.breakpoints.any fun r => decide (r.1.1 = d.identityHash m)
    if anyLeft then d
    else if b.restoreCompile then (d.clearHasBp m).clearCompileDisabled m
    else d.clearHasBp m

/-- `pin_method`. -/
def pin (m : Addr) : Option Debugged :=
  let restoreCompile := !(d.jit.counters m).compileDisabled
  let d := { d with pinned := insertRow (d.identityHash m) restoreCompile d.pinned }
  (d.setCompileDisabled m).retireDependents m

/-- `unpin_method`. -/
def unpin (m : Addr) : Debugged :=
  match findRow (d.identityHash m) d.pinned with
  | none => d
  | some restoreCompile =>
    let d := { d with pinned := removeRow (d.identityHash m) d.pinned }
    if restoreCompile then d.clearCompileDisabled m else d

/-! ## Blocks -/

/-- `lookup_block`. -/
def lookupBlock (blk : Addr) : Option Nat :=
  (d.jit.alive (d.jit.ct.byBlock blk)).map Prod.fst

/-- `activate_block`, up to the interpreted activation: `plain` says that the closure captured
nothing but its receiver and context. The result is the nmethod that is entered. -/
def activateBlock (blk : Addr) (plain : Bool) (r : CompileResult) : Debugged × Option Nat :=
  let (count, jit) := d.jit.bumpInvocation blk
  let d := { d with jit }
  match jit.threshold with
  | none => (d, none)
  | some n =>
    match d.lookupBlock blk with
    | some id => (d, some id)
    | none =>
      if n ≤ count ∧ (jit.counters blk).compileDisabled = false ∧ jit.compileEnabled = true then
        if plain then
          let (jit, id) := jit.compileMethodFull d.closureKlass blk true 0 none r
          ({ d with jit }, id)
        else (d.setCompileDisabled blk, none)
      else (d, none)

/-! ## Moving collections -/

/-- The debugger's tables hold no references; what is keyed by an address moves with it. -/
def move (ρ : Equiv.Perm Addr) (jit : Jit) : Debugged :=
  { d with
    jit
    identityHash := fun a => d.identityHash (ρ.symm a)
    symbol := fun a => d.symbol (ρ.symm a)
    boundary := fun a => d.boundary (ρ.symm a)
    shape := fun a => d.shape (ρ.symm a)
    smiKlass := ρ d.smiKlass
    closureKlass := ρ d.closureKlass
    standing := d.standing.map fun p => (ρ p.1, p.2) }

end Debugged

/-- How an operation moves the heap. -/
def moves : Op → Equiv.Perm Addr
  | .install gc _ _ _ => gc.getD (Equiv.refl Addr)
  | .collect ρ => ρ
  | _ => Equiv.refl Addr

/-! ## Acts -/

/-- What running code and the debugger can do; `sites` are the sends that the compile of the
act, if there is one, comes to. -/
inductive Act where
  | vm (op : Op) (sites : List Site)
  | activateBlock (blk : Addr) (plain : Bool) (r : CompileResult) (sites : List Site)
  /-- A linked call site or an inline cache calls an nmethod; the entry of a retired one is
  patched. -/
  | callCompiled (id : Nat)
  | setBreakpoint (m : Addr) (bci : Nat)
  | clearBreakpoint (m : Addr) (bci : Nat)
  | pin (m : Addr)
  | unpin (m : Addr)

namespace Debugged

variable (d : Debugged)

def exec : Act → Option Debugged
  | .vm op _ => (d.jit.exec op).map (d.move (moves op))
  | .activateBlock blk plain r _ => some (d.activateBlock blk plain r).1
  | .callCompiled _ => some d
  | .setBreakpoint m bci => d.setBreakpoint m bci
  | .clearBreakpoint m bci => some (d.clearBreakpoint m bci)
  | .pin m => d.pin m
  | .unpin m => some (d.unpin m)

/-- The nmethod an act enters. -/
def enters : Act → Option Nat
  | .vm (.activate k m icSite heal fresh) _ =>
    (d.jit.activateMethod k m icSite heal fresh).bind Prod.snd
  | .vm (.osrRequest k m targetBci r) _ => (d.jit.rtOsrRequest k m targetBci r).2
  | .activateBlock blk plain r _ => (d.activateBlock blk plain r).2
  | .callCompiled id => (d.jit.alive (some id)).map Prod.fst
  | _ => none

/-- The compiles an act asks for. -/
def asks : Act → Request → Prop
  | .vm op _, q => op.asks d.jit q
  | .activateBlock blk _ r _, q =>
    (d.jit.counters blk).compileDisabled = false ∧ q = ⟨d.closureKlass, blk, true, r⟩
  | _, _ => False

end Debugged

def Act.sites : Act → List Site
  | .vm _ sites => sites
  | .activateBlock _ _ _ sites => sites
  | _ => []

end WinVm.Debugger
