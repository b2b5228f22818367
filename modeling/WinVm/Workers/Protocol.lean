import Mathlib

/-!
# The worker protocol

`runtime/workers.rs`: a primary VM, the worker VMs it spawns or registers, one channel from the
primary to each worker and one shared inbox back. A worker is known to the guest by the number
of its slot, and slots are reused; here each spawned or registered worker is also an
*incarnation*, a position in `State.workers` that is never reused. Envelopes carry the
incarnation they are about as a ghost.

Channels are FIFO and lossless: a queue, beside the log of what was sent and of what was
delivered. A thread that ends drops its receiver, except by `fatal_exit`, which runs no drops.
The wake hooks carry no data and are left out, as are clones of a worker's sender.
-/

namespace WinVm.Workers

/-- `MAX_WORKERS`. -/
def maxWorkers : Nat := 16

/-- What the pickled bytes of an envelope to the primary hold. -/
inductive Payload where
  | message (bytes : List UInt8)
  | transcript (text : String)
  | workerDied (id : Nat)
deriving DecidableEq, Repr

/-- Who put an envelope in the inbox: a worker, or the registry about a worker. -/
inductive Origin where
  | worker (n : Nat)
  | registry (n : Nat)
deriving DecidableEq, Repr

def Origin.incarnation : Origin → Nat
  | .worker n => n
  | .registry n => n

/-- `Envelope`, to the primary. -/
structure Envelope where
  fromId : Nat
  corr : Nat
  payload : Payload
  origin : Origin
deriving DecidableEq, Repr

/-- `died_envelope`. -/
def diedEnvelope (id : Nat) (origin : Origin) : Envelope :=
  { fromId := id, corr := 0, payload := .workerDied id, origin }

def Envelope.isNotice (e : Envelope) : Bool :=
  match e.payload with
  | .workerDied _ => true
  | .message _ | .transcript _ => false

/-- An envelope to a worker; its `from` is 0. -/
structure Message where
  corr : Nat
  bytes : List UInt8
deriving DecidableEq, Repr

/-- How a worker's thread ended: with its own notice, because its channel closed, or in
`fatal_exit`. -/
inductive Ending where
  | reported
  | silent
  | fatal
deriving DecidableEq, Repr

/-- Where a worker is: `worker_main`, or the host's loop. -/
inductive Phase where
  | booting
  | initializing
  | idle
  | dispatching
  | ended (how : Ending)
deriving DecidableEq, Repr

def Phase.live : Phase → Bool
  | .ended _ => false
  | .booting | .initializing | .idle | .dispatching => true

/-- Whether the receiver of the worker's channel still exists. -/
def Phase.listening : Phase → Bool
  | .ended .reported | .ended .silent => false
  | .ended .fatal | .booting | .initializing | .idle | .dispatching => true

/-- One incarnation, with the logs of its two directions. -/
structure Worker where
  id : Nat
  hosted : Bool
  phase : Phase
  inbound : List Message := []
  delivered : List Message := []
  commanded : List Message := []
  posted : List Envelope := []
deriving DecidableEq, Repr

/-- `WorkerLink`. The sender is the worker's own until `terminate` puts a dead-ended one in its
place; `worker` goes on naming the last incarnation in the slot. -/
structure Link where
  worker : Nat
  connected : Bool
  alive : Bool
deriving DecidableEq, Repr

/-- An envelope as the guest got it, with the incarnation then in the slot it names. -/
structure Polled where
  envelope : Envelope
  occupant : Option Nat
deriving DecidableEq, Repr

structure State where
  links : List Link := []
  workers : List Worker := []
  inbox : List Envelope := []
  polled : List Polled := []
  aborted : Bool := false
deriving DecidableEq, Repr

/-- A build with overflow checks panics where one without them wraps. -/
structure Build where
  overflowChecks : Bool
deriving DecidableEq, Repr

/-- What one worker's thread does next. -/
inductive WorkerAction where
  | bootOk
  | bootFail
  | initOk
  | initFail
  | receive
  | hangUp
  | reply (corr : Nat) (bytes : List UInt8)
  | write (text : String)
  | dispatchOk
  | dispatchFail
  | fatal
  | drop
deriving DecidableEq, Repr

inductive Action where
  | spawn
  | registerHosted
  | send (id corr : Nat) (bytes : List UInt8)
  | terminate (id : Nat)
  | alive (id : Nat)
  | poll
  | worker (n : Nat) (action : WorkerAction)
deriving DecidableEq, Repr

/-- `id as usize - 1`; `none` is the panic. -/
def Build.slot (b : Build) (id : Nat) : Option Nat :=
  if id = 0 then if b.overflowChecks then none else some (2 ^ 64 - 1) else some (id - 1)

namespace State

/-- The last incarnation in a slot, by the number the guest knows. -/
def occupant (s : State) (id : Nat) : Option Nat :=
  if id = 0 then none else (s.links[id - 1]?).map Link.worker

def phase? (s : State) (n : Nat) : Option Phase :=
  (s.workers[n]?).map Worker.phase

def enqueue (s : State) (e : Envelope) : State :=
  { s with inbox := s.inbox ++ [e] }

def setWorker (s : State) (n : Nat) (w : Worker) : State :=
  { s with workers := s.workers.set n w }

def setLink (s : State) (i : Nat) (l : Link) : State :=
  { s with links := s.links.set i l }

/-- Whether some link still feeds the worker. -/
def fed (s : State) (n : Nat) : Bool :=
  s.links.any fun l => l.worker == n && l.connected

/-! ## The primary -/

/-- `spawn`: the first dead slot, or a new one under the cap. -/
def spawn (s : State) : State :=
  let n := s.workers.length
  let link : Link := { worker := n, connected := true, alive := true }
  match s.links.findIdx? fun l => !l.alive with
  | some idx =>
    { s with
      links := s.links.set idx link
      workers := s.workers ++ [{ id := idx + 1, hosted := false, phase := .booting }] }
  | none =>
    if s.links.length ≥ maxWorkers then s
    else
      { s with
        links := s.links ++ [link]
        workers := s.workers ++ [{ id := s.links.length + 1, hosted := false, phase := .booting }] }

/-- `register_hosted_worker`, which never reuses a slot. -/
def registerHosted (s : State) : State :=
  if s.links.length ≥ maxWorkers then s
  else
    { s with
      links := s.links ++ [{ worker := s.workers.length, connected := true, alive := true }]
      workers := s.workers ++ [{ id := s.links.length + 1, hosted := true, phase := .idle }] }

/-- `send`, from the primary. -/
def send (s : State) (id corr : Nat) (bytes : List UInt8) : State :=
  if id = 0 then s
  else
    match s.links[id - 1]? with
    | none => s
    | some link =>
      if !link.alive then s
      else
        match s.workers[link.worker]? with
        | none => s
        | some w =>
          if link.connected && w.phase.listening then
            s.setWorker link.worker { w with
              inbound := w.inbound ++ [⟨corr, bytes⟩]
              commanded := w.commanded ++ [⟨corr, bytes⟩] }
          else
            -- the receiver is gone: the worker died between messages
            (s.setLink (id - 1) { link with alive := false }).enqueue
              (diedEnvelope id (.registry link.worker))

/-- `terminate`. -/
def terminate (b : Build) (s : State) (id : Nat) : State :=
  match b.slot id with
  | none => { s with aborted := true }
  | some i =>
    match s.links[i]? with
    | none => s
    | some link => s.setLink i { link with alive := false, connected := false }

/-- `alive`, for its aborts alone: it changes nothing. -/
def queryAlive (b : Build) (s : State) (id : Nat) : State :=
  match b.slot id with
  | none => { s with aborted := true }
  | some _ => s

/-- `poll`. -/
def poll (s : State) : State :=
  match s.inbox with
  | [] => s
  | e :: rest => { s with inbox := rest, polled := s.polled ++ [⟨e, s.occupant e.fromId⟩] }

/-! ## A worker -/

/-- The worker's own send to the primary, and the phase after it. -/
def post (s : State) (n : Nat) (w : Worker) (corr : Nat) (payload : Payload) (phase : Phase) :
    State :=
  let e : Envelope := { fromId := w.id, corr, payload, origin := .worker n }
  (s.setWorker n { w with posted := w.posted ++ [e], phase }).enqueue e

/-- `worker_main` fails: a notice, and the thread unwinds. -/
def die (s : State) (n : Nat) (w : Worker) : State :=
  s.post n w 0 (.workerDied w.id) (.ended .reported)

/-- One step of `worker_main`; a hosted worker starts idle, its errors are its host's, and it ends
when the host drops its inbox. -/
def workerStep (s : State) (n : Nat) (w : Worker) : WorkerAction → Option State
  | .bootOk =>
    if w.phase = .booting then some (s.setWorker n { w with phase := .initializing }) else none
  | .bootFail => if w.phase = .booting then some (s.die n w) else none
  | .initOk =>
    if w.phase = .initializing then some (s.setWorker n { w with phase := .idle }) else none
  | .initFail => if w.phase = .initializing then some (s.die n w) else none
  | .receive =>
    match w.phase, w.inbound with
    | .idle, m :: rest =>
      some (s.setWorker n { w with
        inbound := rest, delivered := w.delivered ++ [m], phase := .dispatching })
    | _, _ => none
  | .hangUp =>
    if w.phase = .idle ∧ w.inbound = [] ∧ s.fed n = false ∧ w.hosted = false then
      some (s.setWorker n { w with phase := .ended .silent })
    else none
  | .reply corr bytes =>
    if w.phase = .initializing ∨ w.phase = .dispatching ∨ (w.phase = .idle ∧ w.hosted) then
      some (s.post n w corr (.message bytes) w.phase)
    else none
  | .write text =>
    if w.phase = .initializing ∨ w.phase = .dispatching ∨ (w.phase = .idle ∧ w.hosted) then
      some (s.post n w 0 (.transcript text) w.phase)
    else none
  | .dispatchOk =>
    if w.phase = .dispatching then some (s.setWorker n { w with phase := .idle }) else none
  | .dispatchFail =>
    if w.phase = .dispatching then
      some (if w.hosted then s.setWorker n { w with phase := .idle } else s.die n w)
    else none
  | .fatal =>
    if w.phase.live then some (s.setWorker n { w with phase := .ended .fatal }) else none
  | .drop =>
    if w.hosted ∧ w.phase.live then some (s.setWorker n { w with phase := .ended .silent })
    else none

/-- One step of the system; nothing runs after an abort. -/
def step (b : Build) (s : State) (a : Action) : Option State :=
  if s.aborted then none
  else
    match a with
    | .spawn => some s.spawn
    | .registerHosted => some s.registerHosted
    | .send id corr bytes => some (s.send id corr bytes)
    | .terminate id => some (terminate b s id)
    | .alive id => some (queryAlive b s id)
    | .poll => some s.poll
    | .worker n action =>
      match s.workers[n]? with
      | none => none
      | some w => s.workerStep n w action

/-- A run of steps, `none` when one of them cannot be taken. -/
def run (b : Build) : List Action → State → Option State
  | [], s => some s
  | a :: as, s => (s.step b a).bind (run b as)

end State

end WinVm.Workers
