import Mathlib.Data.List.Basic
import Mathlib.Logic.Function.Basic

/-!
# The coalesced wake of an inbox

Any number of calls of `InboxSender::send` against one drainer (`runtime/workers.rs`). A send
enqueues its envelope, swaps the flag, and calls the hook if the flag was not set. The drainer
clears the flag and tries to receive (`HostedInbox::poll`, `WorkerState::poll`) until nothing is
there, and then parks until a hook call. The channel is first in, first out, and lossless, and a hook
is registered.

The state also counts the drainer's clears and records at which count each hook call occurred.
A call of the hook while the drainer runs is remembered (`signal`), as the run loop it pokes
remembers it.

Results: `Inv.run`; `no_lost_wakeup`, what a completed send leaves behind; `wakeup_in_flight`, a
completed send whose wake another send has yet to call.
-/

namespace WinVm.Workers.Wakeup

/-- How far a call of `send` is. An envelope goes by the number of its call. -/
inductive Send where
  | idle
  | enqueued
  /-- The swap found the flag clear, after so many clears of the drainer. -/
  | waking (clears : Nat)
  | done
deriving DecidableEq, Repr

inductive Drainer where
  | polling
  /-- The flag is cleared, and the receive comes next. -/
  | cleared
  | parked
deriving DecidableEq, Repr

structure State where
  sends : Nat → Send
  queue : List Nat
  wakePending : Bool
  drainer : Drainer
  signal : Bool
  clears : Nat
  /-- For each hook call, how many clears there were before it. -/
  hooks : List Nat
  delivered : List Nat

/-- No send has begun, and the drainer is about to poll. -/
def State.start : State := ⟨fun _ => .idle, [], false, .polling, false, 0, [], []⟩

inductive Action where
  | enqueue (i : Nat)
  | swap (i : Nat)
  | hook (i : Nat)
  | clear
  | receive
  | wake
deriving DecidableEq, Repr

namespace State

variable (s : State)

def set (i : Nat) (p : Send) : State := { s with sends := Function.update s.sends i p }

/-- One atomic step. -/
def step : Action → Option State
  | .enqueue i =>
    match s.sends i with
    | .idle => some { s.set i .enqueued with queue := s.queue ++ [i] }
    | _ => none
  | .swap i =>
    match s.sends i with
    | .enqueued =>
      some { s.set i (if s.wakePending then .done else .waking s.clears) with wakePending := true }
    | _ => none
  | .hook i =>
    match s.sends i with
    | .waking _ => some { s.set i .done with signal := true, hooks := s.clears :: s.hooks }
    | _ => none
  | .clear =>
    match s.drainer with
    | .polling => some { s with wakePending := false, drainer := .cleared, clears := s.clears + 1 }
    | _ => none
  | .receive =>
    match s.drainer, s.queue with
    | .cleared, e :: queue =>
      some { s with queue, drainer := .polling, delivered := s.delivered ++ [e] }
    | .cleared, [] => some { s with drainer := .parked }
    | _, _ => none
  | .wake =>
    match s.drainer with
    | .parked => if s.signal then some { s with drainer := .polling, signal := false } else none
    | _ => none

def run (s : State) : List Action → Option State
  | [] => some s
  | a :: as => (s.step a).bind fun s => s.run as

end State

variable {s s' : State} {a : Action}

/-! ## What a step can do -/

inductive Steps (s : State) : Action → State → Prop
  | enqueue {i : Nat} : s.sends i = .idle →
      Steps s (.enqueue i) { s.set i .enqueued with queue := s.queue ++ [i] }
  | coalesced {i : Nat} : s.sends i = .enqueued → s.wakePending = true →
      Steps s (.swap i) (s.set i .done)
  | first {i : Nat} : s.sends i = .enqueued → s.wakePending = false →
      Steps s (.swap i) { s.set i (.waking s.clears) with wakePending := true }
  | hook {i c : Nat} : s.sends i = .waking c →
      Steps s (.hook i) { s.set i .done with signal := true, hooks := s.clears :: s.hooks }
  | clear : s.drainer = .polling →
      Steps s .clear { s with wakePending := false, drainer := .cleared, clears := s.clears + 1 }
  | receive {e : Nat} {queue : List Nat} : s.drainer = .cleared → s.queue = e :: queue →
      Steps s .receive { s with queue, drainer := .polling, delivered := s.delivered ++ [e] }
  | park : s.drainer = .cleared → s.queue = [] → Steps s .receive { s with drainer := .parked }
  | wake : s.drainer = .parked → s.signal = true →
      Steps s .wake { s with drainer := .polling, signal := false }

theorem steps_of_step (h : s.step a = some s') : Steps s a s' := by
  cases a with
  | enqueue i =>
    rw [State.step] at h
    split at h
    · next idle => exact Option.some.inj h ▸ .enqueue idle
    · cases h
  | swap i =>
    rw [State.step] at h
    split at h
    · next enqueued =>
      rw [← Option.some.inj h]
      cases pending : s.wakePending with
      | true =>
        have same : s.set i .done = { s.set i .done with wakePending := true } := by
          rw [← pending]
          rfl
        exact same ▸ .coalesced enqueued pending
      | false => exact .first enqueued pending
    · cases h
  | hook i =>
    rw [State.step] at h
    split at h
    · next waking => exact Option.some.inj h ▸ .hook waking
    · cases h
  | clear =>
    rw [State.step] at h
    split at h
    · next polling => exact Option.some.inj h ▸ .clear polling
    · cases h
  | receive =>
    rw [State.step] at h
    split at h
    · next cleared queued => exact Option.some.inj h ▸ .receive cleared queued
    · next cleared empty => exact Option.some.inj h ▸ .park cleared empty
    · cases h
  | wake =>
    rw [State.step] at h
    split at h
    · next parked =>
      split at h
      · next signal => exact Option.some.inj h ▸ .wake parked signal
      · cases h
    · cases h

theorem sends_set (s : State) (i : Nat) (p : Send) : (s.set i p).sends i = p :=
  Function.update_self ..

/-- A send in another phase than the one that moves stays where it is. -/
theorem sends_set_other {i j : Nat} {p q : Send} (hi : s.sends i = p) (hj : s.sends j = q)
    (ne : q ≠ p) (p' : Send) : (s.set i p').sends j = q := by
  have apart : j ≠ i := fun same => ne (hj.symm.trans (same ▸ hi))
  exact (Function.update_of_ne apart _ _).trans hj

theorem begun_set {i j : Nat} {p : Send} (hp : p ≠ .idle) (hj : s.sends j ≠ .idle) :
    (s.set i p).sends j ≠ .idle := by
  by_cases same : j = i
  · rw [same, sends_set]
    exact hp
  · rwa [show (s.set i p).sends j = s.sends j from Function.update_of_ne same _ _]

/-! ## The invariant -/

/-- A wake for what came after the last clear: the hook was called, or a send is about to. -/
def State.Woken (s : State) : Prop :=
  s.clears ∈ s.hooks ∨ ∃ i, s.sends i = .waking s.clears

structure Inv (s : State) : Prop where
  /-- Whoever sets the flag first after a clear calls the hook. -/
  pending : s.wakePending = true → s.Woken
  /-- What is in the queue of a parked drainer came after its last clear. -/
  parked : s.drainer = .parked → ∀ i ∈ s.queue, s.sends i = .enqueued ∨ s.wakePending = true
  begun : ∀ i ∈ s.queue, s.sends i ≠ .idle
  past : ∀ c ∈ s.hooks, c ≤ s.clears
  signal : s.drainer ≠ .polling → s.clears ∈ s.hooks → s.signal = true

theorem inv_start : Inv .start := by
  refine ⟨nofun, nofun, ?_, ?_, nofun⟩ <;> exact List.forall_mem_nil _

theorem Inv.step (h : Inv s) (steps : s.step a = some s') : Inv s' := by
  cases steps_of_step steps with
  | @enqueue i idle =>
    refine ⟨fun pending => ?_, fun parked j mem => ?_, fun j mem => ?_, h.past, h.signal⟩
    · exact (h.pending pending).imp_right fun ⟨j, waking⟩ =>
        ⟨j, sends_set_other idle waking nofun _⟩
    · rcases List.mem_append.mp mem with mem | mem
      · rcases h.parked parked j mem with enqueued | pending
        · exact .inl (sends_set_other idle enqueued nofun .enqueued)
        · exact .inr pending
      · rw [List.mem_singleton.mp mem]
        exact .inl (sends_set s i _)
    · rcases List.mem_append.mp mem with mem | mem
      · exact begun_set nofun (h.begun j mem)
      · rw [List.mem_singleton.mp mem, show _ = Send.enqueued from sends_set s i _]
        exact nofun
  | @coalesced i enqueued pending =>
    refine ⟨fun _ => ?_, fun _ _ _ => .inr pending, fun j mem => begun_set nofun (h.begun j mem),
      h.past, h.signal⟩
    exact (h.pending pending).imp_right fun ⟨j, waking⟩ =>
      ⟨j, sends_set_other enqueued waking nofun _⟩
  | @first i enqueued clear =>
    exact ⟨fun _ => .inr ⟨i, sends_set s i _⟩, fun _ _ _ => .inr rfl,
      fun j mem => begun_set nofun (h.begun j mem), h.past, h.signal⟩
  | @hook i c waking =>
    refine ⟨fun _ => .inl List.mem_cons_self, fun parked j mem => ?_,
      fun j mem => begun_set nofun (h.begun j mem), fun c' mem => ?_, fun _ _ => rfl⟩
    · rcases h.parked parked j mem with enqueued | pending
      · exact .inl (sends_set_other waking enqueued nofun .done)
      · exact .inr pending
    · rcases List.mem_cons.mp mem with rfl | mem
      · exact Nat.le_refl _
      · exact h.past c' mem
  | clear polling =>
    refine ⟨nofun, nofun, h.begun, fun c mem => Nat.le_succ_of_le (h.past c mem), fun _ mem => ?_⟩
    exact absurd (h.past _ mem) (Nat.not_succ_le_self _)
  | receive cleared queued =>
    refine ⟨h.pending, nofun, fun i mem => h.begun i ?_, h.past, fun now => absurd rfl now⟩
    rw [queued]
    exact List.mem_cons_of_mem _ mem
  | park cleared empty =>
    refine ⟨h.pending, fun _ i mem => ?_, h.begun, h.past, fun _ => h.signal ?_⟩
    · rw [empty] at mem
      cases mem
    · rw [cleared]
      exact nofun
  | wake parked signal => exact ⟨h.pending, nofun, h.begun, h.past, fun now => absurd rfl now⟩

theorem Inv.run {actions : List Action} (h : Inv s) (runs : s.run actions = some s') : Inv s' := by
  induction actions generalizing s with
  | nil => exact Option.some.inj runs ▸ h
  | cons a actions ih =>
    obtain ⟨s₁, first, rest⟩ := Option.bind_eq_some_iff.mp runs
    exact ih (h.step first) rest

/-! ## Draining -/

/-- A drainer that polls takes all there is. -/
theorem drains (polling : s.drainer = .polling) :
    ∃ actions s', s.run actions = some s' ∧ s'.delivered = s.delivered ++ s.queue := by
  generalize queued : s.queue = queue
  induction queue generalizing s with
  | nil => exact ⟨[], s, rfl, (List.append_nil _).symm⟩
  | cons e queue ih =>
    have clear : s.step .clear =
        some { s with wakePending := false, drainer := .cleared, clears := s.clears + 1 } := by
      rw [State.step, polling]
    have receive : State.step
        { s with wakePending := false, drainer := .cleared, clears := s.clears + 1 } .receive =
          some { s with
            wakePending := false, drainer := .polling, clears := s.clears + 1, queue,
            delivered := s.delivered ++ [e] } := by
      rw [State.step, queued]
    obtain ⟨actions, s', rest, delivered⟩ := ih
      (show State.drainer { s with
        wakePending := false, drainer := .polling, clears := s.clears + 1, queue,
        delivered := s.delivered ++ [e] } = .polling from rfl) rfl
    refine ⟨.clear :: .receive :: actions, s', ?_, ?_⟩
    · rw [State.run, clear, Option.bind_some, State.run, receive, Option.bind_some, rest]
    · rw [delivered, List.append_assoc, List.singleton_append]

/-- A parked drainer whose hook was called after its last clear wakes up and drains. -/
theorem Inv.wakes (h : Inv s) (parked : s.drainer = .parked) (called : s.clears ∈ s.hooks) :
    ∃ actions s', s.run (.wake :: actions) = some s' ∧ s'.delivered = s.delivered ++ s.queue := by
  have signal := h.signal (by rw [parked]; exact nofun) called
  have wake : s.step .wake = some { s with drainer := .polling, signal := false } := by
    rw [State.step, parked]
    exact if_pos signal
  obtain ⟨actions, s', rest, delivered⟩ := drains
    (show State.drainer { s with drainer := .polling, signal := false } = .polling from rfl)
  exact ⟨actions, s', by rw [State.run, wake, Option.bind_some, rest], delivered⟩

/-- Behind a completed send, the hook was called after the last clear or is about to be; once no
send is about to call it, it was called, and the drainer wakes up and takes the envelope. -/
theorem no_lost_wakeup {actions : List Action} (runs : State.start.run actions = some s)
    (parked : s.drainer = .parked) {i : Nat} (queued : i ∈ s.queue) (completed : s.sends i = .done) :
    s.Woken ∧
    ((∀ j c, s.sends j ≠ .waking c) → s.clears ∈ s.hooks) ∧
    (s.clears ∈ s.hooks → ∃ later s', s.run (.wake :: later) = some s' ∧ i ∈ s'.delivered) := by
  have h := inv_start.run runs
  have woken : s.Woken := by
    refine h.pending ((h.parked parked i queued).resolve_left ?_)
    rw [completed]
    exact nofun
  refine ⟨woken, fun quiet => woken.resolve_right fun ⟨j, waking⟩ => quiet j _ waking, fun called => ?_⟩
  obtain ⟨later, s', rest, delivered⟩ := h.wakes parked called
  exact ⟨later, s', rest, by rw [delivered]; exact List.mem_append_right _ queued⟩

/-- One send, which finds the drainer parked. -/
theorem no_lost_wakeup_one : ∃ s, State.start.run [.clear, .receive, .enqueue 0, .swap 0, .hook 0] =
    some s ∧ s.Woken ∧ ∃ later s', s.run (.wake :: later) = some s' ∧ 0 ∈ s'.delivered := by
  obtain ⟨woken, called, delivered⟩ := no_lost_wakeup (i := 0)
    (show State.start.run [.clear, .receive, .enqueue 0, .swap 0, .hook 0] = some _ from rfl)
    rfl List.mem_cons_self rfl
  exact ⟨_, rfl, woken, delivered List.mem_cons_self⟩

/-- The second send is coalesced with the first, and completes before the first calls the hook. -/
theorem wakeup_in_flight : ∃ s,
    State.start.run [.clear, .receive, .enqueue 0, .swap 0, .enqueue 1, .swap 1] = some s ∧
    s.drainer = .parked ∧ 1 ∈ s.queue ∧ s.sends 1 = .done ∧ s.clears ∉ s.hooks ∧
    s.step .wake = none :=
  ⟨_, rfl, rfl, List.mem_cons_of_mem _ List.mem_cons_self, rfl, List.not_mem_nil, rfl⟩

end WinVm.Workers.Wakeup
