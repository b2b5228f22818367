import Mathlib.Data.List.Nodup
import Mathlib.Data.List.Perm.Subperm
import WinVm.Workers.Protocol

/-!
# Safety of the worker protocol

`Orderly` is the condition on a step under which slots may be reused: the previous worker in the
slot has ended, and nothing from it waits in the inbox. It also asks that the primary does
not send to a worker whose own death notice is already on its way, and, in a build with
overflow checks, that slot 0 is not named.

Results:
* `Inv.step`: one orderly step keeps the invariant, one lemma for each way the state changes;
* `worker_protocol_safe`: every orderly run delivers in order and at most once, attributes
  every polled envelope to the incarnation that sent it, delivers one notice at most for
  each dead incarnation and none for a live one, keeps the cap, and never aborts;
* `worker_protocol_unsafe`: four runs that are not orderly.
-/

namespace WinVm.Workers

variable {b : Build} {s s' : State} {n : Nat} {w w' : Worker} {a : Action}

/-! ## What is claimed of a state -/

/-- Every envelope that reached the inbox, in the order it did. -/
def State.envelopes (s : State) : List Envelope := s.polled.map Polled.envelope ++ s.inbox

/-- The incarnations whose thread or host still runs. -/
def State.live (s : State) : List Nat :=
  (List.range s.workers.length).filter fun n => s.workers[n]?.any fun w => w.phase.live

def Envelope.notices (n : Nat) (e : Envelope) : Bool :=
  e.isNotice && e.origin.incarnation == n

structure Safe (s : State) : Prop where
  /-- Messages reach a worker in the order they were sent, each at most once. -/
  commands : ∀ (n : Nat) (w : Worker), s.workers[n]? = some w → w.delivered <+: w.commanded
  /-- And so do a worker's envelopes reach the primary. -/
  replies : ∀ (n : Nat) (w : Worker), s.workers[n]? = some w →
    (s.polled.map Polled.envelope).filter (·.origin = .worker n) <+: w.posted
  /-- The incarnation in the slot an envelope names is the one that sent it. -/
  attributed : ∀ p ∈ s.polled, p.occupant = some p.envelope.origin.incarnation
  noticedOnce : ∀ n, (s.polled.map Polled.envelope).countP (Envelope.notices n) ≤ 1
  noticedDead : ∀ p ∈ s.polled, p.envelope.isNotice = true →
    p.envelope.origin.incarnation ∉ s.live
  capped : s.live.length ≤ maxWorkers
  running : s.aborted = false

/-- The steps that the protocol is safe under. -/
def Orderly (b : Build) (s : State) : Action → Prop
  | .spawn => ∀ idx ∈ s.links.findIdx? (fun l => !l.alive),
      (∀ n ∈ s.live, s.occupant (idx + 1) ≠ some n) ∧ ∀ e ∈ s.inbox, e.fromId ≠ idx + 1
  | .send id _ _ => ∀ l ∈ s.links[id - 1]?, l.alive = true →
      s.phase? l.worker ≠ some (.ended .reported)
  | .terminate id | .alive id => id = 0 → b.overflowChecks = false
  | .registerHosted | .poll | .worker _ _ => True

/-! ## The invariant -/

structure Inv (s : State) : Prop where
  capped : s.links.length ≤ maxWorkers
  linked : ∀ (i : Nat) (l : Link), s.links[i]? = some l →
    (∃ w, s.workers[l.worker]? = some w ∧ w.id = i + 1) ∧ (l.alive = true → l.connected = true)
  seated : ∀ (n : Nat) (w : Worker), s.workers[n]? = some w → w.phase.live = true → s.occupant w.id = some n
  queued : ∀ e ∈ s.inbox, s.occupant e.fromId = some e.origin.incarnation
  attributed : ∀ p ∈ s.polled, p.occupant = some p.envelope.origin.incarnation
  commands : ∀ (n : Nat) (w : Worker), s.workers[n]? = some w → w.delivered ++ w.inbound = w.commanded
  posted : ∀ (n : Nat) (w : Worker), s.workers[n]? = some w → s.envelopes.filter (·.origin = .worker n) = w.posted
  known : ∀ e ∈ s.envelopes, e.origin.incarnation < s.workers.length
  noticed : ∀ e ∈ s.envelopes, e.isNotice = true →
    ∀ w, s.workers[e.origin.incarnation]? = some w → w.phase.live = false
  once : ∀ n, s.envelopes.countP (Envelope.notices n) ≤ 1
  unreported : ∀ (i : Nat) (l : Link) (w : Worker), s.links[i]? = some l → l.alive = true →
    s.workers[l.worker]? = some w → w.phase ≠ .ended .reported →
    s.envelopes.countP (Envelope.notices l.worker) = 0
  running : s.aborted = false

theorem mem_live : n ∈ s.live ↔ ∃ w, s.workers[n]? = some w ∧ w.phase.live = true := by
  rw [State.live, List.mem_filter, List.mem_range]
  constructor
  · rintro ⟨-, live⟩
    exact (Option.any_eq_true _ _).mp live
  · rintro ⟨w, found, live⟩
    exact ⟨(List.getElem?_eq_some_iff.mp found).1, (Option.any_eq_true _ _).mpr ⟨w, found, live⟩⟩

theorem occupant_succ (s : State) (i : Nat) : s.occupant (i + 1) = (s.links[i]?).map Link.worker := by
  rw [State.occupant, if_neg (Nat.succ_ne_zero i), Nat.add_sub_cancel]

theorem occupant_eq_some {id : Nat} : s.occupant id = some n ↔
    ∃ (i : Nat) (l : Link), id = i + 1 ∧ s.links[i]? = some l ∧ l.worker = n := by
  cases id with
  | zero => simp [State.occupant]
  | succ i =>
    rw [occupant_succ, Option.map_eq_some_iff]
    constructor
    · rintro ⟨l, found, is⟩
      exact ⟨i, l, rfl, found, is⟩
    · rintro ⟨j, l, same, found, is⟩
      obtain rfl := Nat.succ.inj same
      exact ⟨l, found, is⟩

/-- A worker no notice is about may still get its one. -/
theorem Inv.live_unnoticed (h : Inv s) (hw : s.workers[n]? = some w) (live : w.phase.live = true) :
    s.envelopes.countP (Envelope.notices n) = 0 := by
  rw [List.countP_eq_zero]
  intro e mem notices
  rw [Envelope.notices, Bool.and_eq_true, beq_iff_eq] at notices
  obtain ⟨notice, rfl⟩ := notices
  have dead := h.noticed e mem notice w hw
  rw [live] at dead
  cases dead

/-- Each live incarnation has a slot of its own. -/
theorem Inv.live_capped (h : Inv s) : s.live.length ≤ maxWorkers := by
  have seat : ∀ n ∈ s.live, ∃ (i : Nat) (l : Link), s.links[i]? = some l ∧ l.worker = n := by
    intro n mem
    obtain ⟨w, hw, live⟩ := mem_live.mp mem
    obtain ⟨i, l, -, found, is⟩ := occupant_eq_some.mp (h.seated n w hw live)
    exact ⟨i, l, found, is⟩
  have within : s.live ⊆ s.links.map Link.worker := by
    intro n mem
    obtain ⟨i, l, found, rfl⟩ := seat n mem
    exact List.mem_map_of_mem (List.mem_of_getElem? found)
  have nodup : s.live.Nodup := List.nodup_range.filter _
  calc s.live.length ≤ (s.links.map Link.worker).length := (List.subperm_of_subset nodup within).length_le
    _ = s.links.length := List.length_map ..
    _ ≤ maxWorkers := h.capped

theorem Inv.safe (h : Inv s) : Safe s where
  commands n w hw := ⟨w.inbound, h.commands n w hw⟩
  replies n w hw := by
    rw [← h.posted n w hw, State.envelopes, List.filter_append]
    exact List.prefix_append _ _
  attributed := h.attributed
  noticedOnce n := by
    have once := h.once n
    rw [State.envelopes, List.countP_append] at once
    exact Nat.le_trans (Nat.le_add_right _ _) once
  noticedDead p mem notice alive := by
    obtain ⟨w, hw, live⟩ := mem_live.mp alive
    have mem : p.envelope ∈ s.envelopes := List.mem_append_left _ (List.mem_map_of_mem mem)
    rw [h.noticed p.envelope mem notice w hw] at live
    cases live
  capped := h.live_capped
  running := h.running

/-! ## One change at a time -/

theorem worker_setWorker (hw : s.workers[n]? = some w) (m : Nat) :
    (s.setWorker n w').workers[m]? = if m = n then some w' else s.workers[m]? := by
  have bound := (List.getElem?_eq_some_iff.mp hw).1
  rw [State.setWorker, List.getElem?_set]
  by_cases same : m = n
  · rw [if_pos same.symm, if_pos same, if_pos (same ▸ bound)]
  · rw [if_neg (Ne.symm same), if_neg same]

/-- A worker's own record changes: its queue, or its phase while it is live. -/
theorem Inv.setWorker (h : Inv s) (hw : s.workers[n]? = some w) (id : w'.id = w.id)
    (posted : w'.posted = w.posted) (commands : w'.delivered ++ w'.inbound = w'.commanded)
    (phase : w'.phase = w.phase ∨ w.phase.live = true ∧ w'.phase ≠ .ended .reported) :
    Inv (s.setWorker n w') where
  capped := h.capped
  linked i l found := by
    obtain ⟨⟨v, hv, seat⟩, connected⟩ := h.linked i l found
    refine ⟨?_, connected⟩
    rw [worker_setWorker hw]
    split
    · next same =>
      rw [same, hw] at hv
      cases hv
      exact ⟨w', rfl, id.trans seat⟩
    · exact ⟨v, hv, seat⟩
  seated m v hv live := by
    rw [worker_setWorker hw] at hv
    split at hv
    · next same =>
      cases hv
      have was : w.phase.live = true := by
        rcases phase with same | was
        · rw [← same]
          exact live
        · exact was.1
      rw [id, same]
      exact h.seated n w hw was
    · exact h.seated m v hv live
  queued := h.queued
  attributed := h.attributed
  commands m v hv := by
    rw [worker_setWorker hw] at hv
    split at hv
    · cases hv
      exact commands
    · exact h.commands m v hv
  posted m v hv := by
    rw [worker_setWorker hw] at hv
    split at hv
    · next same =>
      cases hv
      rw [posted, same]
      exact h.posted n w hw
    · exact h.posted m v hv
  known e mem := by
    rw [State.setWorker, List.length_set]
    exact h.known e mem
  noticed e mem notice v hv := by
    rw [worker_setWorker hw] at hv
    split at hv
    · next same =>
      cases hv
      have dead := h.noticed e mem notice w (same ▸ hw)
      rcases phase with same | was
      · rw [same]
        exact dead
      · rw [dead] at was
        cases was.1
    · exact h.noticed e mem notice v hv
  once := h.once
  unreported i l v found alive hv fresh := by
    rw [worker_setWorker hw] at hv
    split at hv
    · next same =>
      cases hv
      rcases phase with kept | was
      · exact h.unreported i l w found alive (same ▸ hw) (kept ▸ fresh)
      · rw [same]
        exact h.live_unnoticed hw was.1
    · exact h.unreported i l v found alive hv fresh
  running := h.running

theorem countP_enqueue (s : State) (e : Envelope) (p : Envelope → Bool) :
    (s.enqueue e).envelopes.countP p = s.envelopes.countP p + if p e then 1 else 0 := by
  rw [State.envelopes, State.envelopes, State.enqueue, ← List.append_assoc, List.countP_append]
  cases hp : p e <;> simp [hp]

theorem envelopes_enqueue (s : State) (e : Envelope) :
    (s.enqueue e).envelopes = s.envelopes ++ [e] :=
  (List.append_assoc _ _ _).symm

/-- A live worker puts one envelope in the inbox; a notice is the last thing it does. -/
theorem Inv.post (h : Inv s) (hw : s.workers[n]? = some w) (live : w.phase.live = true) (corr : Nat)
    {payload : Payload} {phase : Phase}
    (last : (⟨w.id, corr, payload, .worker n⟩ : Envelope).isNotice = true → phase = .ended .reported)
    (stays : (⟨w.id, corr, payload, .worker n⟩ : Envelope).isNotice = false → phase = w.phase) :
    Inv (s.post n w corr payload phase) := by
  let e : Envelope := ⟨w.id, corr, payload, .worker n⟩
  let w' : Worker := { w with posted := w.posted ++ [e], phase }
  have lookup : ∀ m, (s.post n w corr payload phase).workers[m]? =
      if m = n then some w' else s.workers[m]? := worker_setWorker hw
  have sent : (s.post n w corr payload phase).envelopes = s.envelopes ++ [e] :=
    envelopes_enqueue _ _
  have counted : ∀ m, (s.post n w corr payload phase).envelopes.countP (Envelope.notices m) =
      s.envelopes.countP (Envelope.notices m) + if e.notices m then 1 else 0 :=
    fun m => countP_enqueue _ _ _
  have unnoticed := h.live_unnoticed hw live
  have elsewhere : ∀ m, m ≠ n → e.notices m = false := fun m other => by
    rw [Envelope.notices, show e.origin.incarnation = n from rfl, beq_eq_false_iff_ne.mpr other.symm,
      Bool.and_false]
  refine {
    capped := h.capped, attributed := h.attributed, running := h.running
    linked := ?_, seated := ?_, queued := ?_, commands := ?_, posted := ?_, known := ?_
    noticed := ?_, once := ?_, unreported := ?_ }
  · intro i l found
    obtain ⟨⟨v, hv, seat⟩, connected⟩ := h.linked i l found
    refine ⟨?_, connected⟩
    rw [lookup]
    split
    · next same =>
      rw [same, hw] at hv
      cases hv
      exact ⟨w', rfl, seat⟩
    · exact ⟨v, hv, seat⟩
  · intro m v hv alive
    rw [lookup] at hv
    split at hv
    · next same =>
      cases hv
      rw [same]
      exact h.seated n w hw live
    · exact h.seated m v hv alive
  · intro e' mem
    rcases List.mem_append.mp mem with mem | mem
    · exact h.queued e' mem
    · obtain rfl := List.mem_singleton.mp mem
      exact h.seated n w hw live
  · intro m v hv
    rw [lookup] at hv
    split at hv
    · cases hv
      exact h.commands n w hw
    · exact h.commands m v hv
  · intro m v hv
    rw [lookup] at hv
    rw [sent, List.filter_append]
    split at hv
    · next same =>
      cases hv
      rw [same, h.posted n w hw]
      exact congrArg (w.posted ++ ·) (List.filter_cons_of_pos (decide_eq_true rfl))
    · next other =>
      have none : [e].filter (·.origin = .worker m) = [] := by
        refine List.filter_cons_of_neg ?_
        rw [decide_eq_true_iff]
        exact fun is => other (Origin.worker.inj is).symm
      rw [none, List.append_nil]
      exact h.posted m v hv
  · intro e' mem
    have length : (s.post n w corr payload phase).workers.length = s.workers.length := List.length_set ..
    rw [length]
    rw [sent] at mem
    rcases List.mem_append.mp mem with mem | mem
    · exact h.known e' mem
    · obtain rfl := List.mem_singleton.mp mem
      exact (List.getElem?_eq_some_iff.mp hw).1
  · intro e' mem notice v hv
    rw [lookup] at hv
    rw [sent] at mem
    rcases List.mem_append.mp mem with mem | mem
    · split at hv
      · next same =>
        rw [h.noticed e' mem notice w (same ▸ hw)] at live
        cases live
      · exact h.noticed e' mem notice v hv
    · obtain rfl := List.mem_singleton.mp mem
      obtain rfl : w' = v := Option.some.inj ((if_pos rfl).symm.trans hv)
      show phase.live = false
      rw [last notice]
      rfl
  · intro m
    rw [counted]
    split
    · next notices =>
      by_cases same : m = n
      · simp only [same, unnoticed, Nat.zero_add, Nat.le_refl]
      · rw [elsewhere m same] at notices
        cases notices
    · exact h.once m
  · intro i l v found alive hv fresh
    rw [counted]
    rw [lookup] at hv
    split at hv
    · next same =>
      cases hv
      have plain : e.isNotice = false := by
        cases is : e.isNotice with
        | false => rfl
        | true => exact absurd (last is) fresh
      rw [same, unnoticed, Envelope.notices, plain]
      rfl
    · next other =>
      rw [elsewhere _ other, h.unreported i l v found alive hv fresh]
      rfl

variable {i : Nat} {l l' : Link}

theorem link_setLink (hl : s.links[i]? = some l) (j : Nat) :
    (s.setLink i l').links[j]? = if j = i then some l' else s.links[j]? := by
  have bound := (List.getElem?_eq_some_iff.mp hl).1
  rw [State.setLink, List.getElem?_set]
  by_cases same : j = i
  · rw [if_pos same.symm, if_pos same, if_pos (same ▸ bound)]
  · rw [if_neg (Ne.symm same), if_neg same]

theorem occupant_setLink (hl : s.links[i]? = some l) (worker : l'.worker = l.worker) (id : Nat) :
    (s.setLink i l').occupant id = s.occupant id := by
  cases id with
  | zero => rfl
  | succ j =>
    rw [occupant_succ, occupant_succ, link_setLink hl]
    split
    · next same =>
      rw [same, hl, Option.map_some, Option.map_some, worker]
    · rfl

/-- A slot is given up. -/
theorem Inv.setLink (h : Inv s) (hl : s.links[i]? = some l) (worker : l'.worker = l.worker)
    (dead : l'.alive = false) : Inv (s.setLink i l') where
  capped := by
    rw [State.setLink, List.length_set]
    exact h.capped
  linked j k found := by
    rw [link_setLink hl] at found
    split at found
    · next same =>
      cases found
      rw [dead, worker, same]
      exact ⟨(h.linked i l hl).1, fun no => by cases no⟩
    · exact h.linked j k found
  seated m v hv live := (occupant_setLink hl worker v.id).trans (h.seated m v hv live)
  queued e mem := (occupant_setLink hl worker e.fromId).trans (h.queued e mem)
  attributed := h.attributed
  commands := h.commands
  posted := h.posted
  known := h.known
  noticed := h.noticed
  once := h.once
  unreported j k v found alive := by
    rw [link_setLink hl] at found
    split at found
    · cases found
      rw [dead] at alive
      cases alive
    · exact h.unreported j k v found alive
  running := h.running

/-- The registry finds a worker's receiver gone, and reports it. -/
theorem Inv.report (h : Inv s) (hl : s.links[i]? = some l) (dead : l.alive = false)
    (ended : ∀ w, s.workers[l.worker]? = some w → w.phase.live = false)
    (fresh : s.envelopes.countP (Envelope.notices l.worker) = 0) :
    Inv (s.enqueue (diedEnvelope (i + 1) (.registry l.worker))) := by
  obtain ⟨⟨w, hw, seat⟩, -⟩ := h.linked i l hl
  have elsewhere : ∀ m, m ≠ l.worker →
      (diedEnvelope (i + 1) (.registry l.worker)).notices m = false := fun m other =>
    beq_eq_false_iff_ne.mpr other.symm
  refine {
    capped := h.capped, attributed := h.attributed, running := h.running, linked := h.linked
    seated := h.seated, commands := h.commands, queued := ?_, posted := ?_, known := ?_
    noticed := ?_, once := ?_, unreported := ?_ }
  · intro e mem
    rcases List.mem_append.mp mem with mem | mem
    · exact h.queued e mem
    · obtain rfl := List.mem_singleton.mp mem
      exact occupant_eq_some.mpr ⟨i, l, rfl, hl, rfl⟩
  · intro m v hv
    rw [envelopes_enqueue, List.filter_append]
    have none : [diedEnvelope (i + 1) (.registry l.worker)].filter (·.origin = .worker m) = [] := rfl
    rw [none, List.append_nil]
    exact h.posted m v hv
  · intro e mem
    rw [envelopes_enqueue] at mem
    rcases List.mem_append.mp mem with mem | mem
    · exact h.known e mem
    · obtain rfl := List.mem_singleton.mp mem
      exact (List.getElem?_eq_some_iff.mp hw).1
  · intro e mem notice v hv
    rw [envelopes_enqueue] at mem
    rcases List.mem_append.mp mem with mem | mem
    · exact h.noticed e mem notice v hv
    · obtain rfl := List.mem_singleton.mp mem
      exact ended v hv
  · intro m
    rw [countP_enqueue]
    split
    · next notices =>
      by_cases same : m = l.worker
      · simp only [same, fresh, Nat.zero_add, Nat.le_refl]
      · rw [elsewhere m same] at notices
        cases notices
    · exact h.once m
  · intro j k v found alive hv unreported
    have other : k.worker ≠ l.worker := by
      -- one incarnation sits in one slot, and this slot is given up
      intro same
      obtain ⟨⟨u, hu, seatU⟩, -⟩ := h.linked j k found
      rw [same, hw] at hu
      cases hu
      obtain rfl : i = j := Nat.succ.inj (seat.symm.trans seatU)
      have found : s.links[i]? = some k := found
      rw [hl] at found
      cases found
      rw [dead] at alive
      cases alive
    rw [countP_enqueue, elsewhere _ other, h.unreported j k v found alive hv unreported]
    rfl

/-- The primary takes the next envelope. -/
theorem Inv.poll (h : Inv s) : Inv s.poll := by
  unfold State.poll
  cases hi : s.inbox with
  | nil => exact h
  | cons e rest =>
    have same : (s.polled ++ [(⟨e, s.occupant e.fromId⟩ : Polled)]).map Polled.envelope ++ rest = s.envelopes := by
      rw [State.envelopes, hi, List.map_append, List.append_assoc]
      rfl
    refine {
      capped := h.capped, linked := h.linked, seated := h.seated, commands := h.commands
      running := h.running, queued := ?_, attributed := ?_, posted := ?_, known := ?_
      noticed := ?_, once := ?_, unreported := ?_ }
    · exact fun e' mem => h.queued e' (hi ▸ List.mem_cons_of_mem _ mem)
    · intro p mem
      rcases List.mem_append.mp mem with mem | mem
      · exact h.attributed p mem
      · obtain rfl := List.mem_singleton.mp mem
        exact h.queued e (hi ▸ List.mem_cons_self)
    · intro m v hv
      rw [State.envelopes, same]
      exact h.posted m v hv
    · rw [State.envelopes, same]
      exact h.known
    · rw [State.envelopes, same]
      exact h.noticed
    · rw [State.envelopes, same]
      exact h.once
    · rw [State.envelopes, same]
      exact h.unreported

/-- A new incarnation takes the slot `i`, new or given up by one that ended with nothing queued. -/
theorem Inv.seat (h : Inv s) {links : List Link} {hosted : Bool} {phase : Phase}
    (lookup : ∀ j, links[j]? = if j = i then some ⟨s.workers.length, true, true⟩ else s.links[j]?)
    (capped : links.length ≤ maxWorkers) (live : phase.live = true)
    (vacated : ∀ m ∈ s.live, s.occupant (i + 1) ≠ some m)
    (clear : ∀ e ∈ s.inbox, e.fromId ≠ i + 1) :
    Inv { s with links, workers := s.workers ++ [{ id := i + 1, hosted, phase }] } := by
  let s' : State := { s with links, workers := s.workers ++ [{ id := i + 1, hosted, phase }] }
  have old : ∀ m w, s.workers[m]? = some w → s'.workers[m]? = some w := fun m w hw =>
    (List.getElem?_append_left (List.getElem?_eq_some_iff.mp hw).1).trans hw
  have cases_ : ∀ m w, s'.workers[m]? = some w → s.workers[m]? = some w ∨
      m = s.workers.length ∧ w = { id := i + 1, hosted, phase } := by
    intro m w hw
    rcases Nat.lt_or_ge m s.workers.length with lt | ge
    · exact .inl ((List.getElem?_append_left lt).symm.trans hw)
    · have hw := (List.getElem?_append_right ge).symm.trans hw
      rw [List.getElem?_singleton] at hw
      split at hw
      · next zero =>
        exact .inr ⟨by omega, (Option.some.inj hw).symm⟩
      · cases hw
  have unknown : ∀ m, s.workers.length ≤ m → ∀ e ∈ s.envelopes, e.origin.incarnation ≠ m :=
    fun m le e mem is => absurd (h.known e mem) (by omega)
  have elsewhere : ∀ id, id ≠ i + 1 → s'.occupant id = s.occupant id := by
    intro id other
    cases id with
    | zero => rfl
    | succ j =>
      rw [occupant_succ, occupant_succ, lookup, if_neg fun same : j = i => other (congrArg Nat.succ same)]
  have here : s'.occupant (i + 1) = some s.workers.length := by
    rw [occupant_succ, lookup, if_pos rfl]
    rfl
  refine {
    capped, attributed := h.attributed, running := h.running, once := h.once
    linked := ?_, seated := ?_, queued := ?_, commands := ?_, posted := ?_, known := ?_
    noticed := ?_, unreported := ?_ }
  · intro j l found
    rw [lookup] at found
    split at found
    · next same =>
      cases found
      refine ⟨⟨_, List.getElem?_concat_length, ?_⟩, fun _ => rfl⟩
      rw [same]
    · obtain ⟨⟨w, hw, seat⟩, connected⟩ := h.linked j l found
      exact ⟨⟨w, old _ w hw, seat⟩, connected⟩
  · intro m w hw alive
    rcases cases_ m w hw with hw | ⟨rfl, rfl⟩
    · have seated := h.seated m w hw alive
      have other : w.id ≠ i + 1 := fun same =>
        vacated m (mem_live.mpr ⟨w, hw, alive⟩) (same ▸ seated)
      exact (elsewhere w.id other).trans seated
    · exact here
  · exact fun e mem => (elsewhere e.fromId (clear e mem)).trans (h.queued e mem)
  · intro m w hw
    rcases cases_ m w hw with hw | ⟨rfl, rfl⟩
    · exact h.commands m w hw
    · rfl
  · intro m w hw
    rcases cases_ m w hw with hw | ⟨rfl, rfl⟩
    · exact h.posted m w hw
    · refine List.filter_eq_nil_iff.mpr fun e mem is => ?_
      have origin : e.origin = .worker s.workers.length := of_decide_eq_true is
      exact unknown _ (Nat.le_refl _) e mem (congrArg Origin.incarnation origin)
  · intro e mem
    rw [List.length_append]
    exact Nat.lt_add_right _ (h.known e mem)
  · intro e mem notice w hw
    rcases cases_ _ w hw with hw | ⟨same, -⟩
    · exact h.noticed e mem notice w hw
    · exact absurd same (unknown _ (Nat.le_refl _) e mem)
  · intro j l w found alive hw fresh
    rw [lookup] at found
    split at found
    · cases found
      refine List.countP_eq_zero.mpr fun e mem notices => ?_
      rw [Envelope.notices, Bool.and_eq_true, beq_iff_eq] at notices
      exact unknown _ (Nat.le_refl _) e mem notices.2
    · rcases cases_ _ w hw with hw | ⟨same, -⟩
      · exact h.unreported j l w found alive hw fresh
      · obtain ⟨⟨v, hv, -⟩, -⟩ := h.linked j l found
        have bound := (List.getElem?_eq_some_iff.mp hv).1
        omega

/-- A slot past the last one has no occupant, and nothing is queued from it. -/
theorem Inv.seat_last (h : Inv s) {hosted : Bool} {phase : Phase} (live : phase.live = true)
    (room : ¬ s.links.length ≥ maxWorkers) :
    Inv { s with
      links := s.links ++ [⟨s.workers.length, true, true⟩]
      workers := s.workers ++ [{ id := s.links.length + 1, hosted, phase }] } := by
  have vacant : s.occupant (s.links.length + 1) = none := by
    rw [occupant_succ, List.getElem?_eq_none (Nat.le_refl _)]
    rfl
  refine h.seat (fun j => ?_) ?_ live ?_ fun e mem same => ?_
  · split
    · next same =>
      rw [same]
      exact List.getElem?_concat_length
    · next other =>
      rcases Nat.lt_or_ge j s.links.length with lt | ge
      · exact List.getElem?_append_left lt
      · rw [List.getElem?_eq_none (by rw [List.length_append, List.length_singleton]; omega),
          List.getElem?_eq_none ge]
  · rw [List.length_append, List.length_singleton]
    omega
  · intro m _ seated
    rw [vacant] at seated
    cases seated
  · have seated := h.queued e mem
    rw [same, vacant] at seated
    cases seated

/-! ## Steps -/

theorem Inv.spawn (h : Inv s) (orderly : Orderly b s .spawn) : Inv s.spawn := by
  rw [State.spawn]
  cases found : s.links.findIdx? fun l => !l.alive with
  | some idx =>
    obtain ⟨vacated, clear⟩ := orderly idx found
    have bound : idx < s.links.length := (List.findIdx?_eq_some_iff_getElem.mp found).1
    refine h.seat (fun j => ?_) ?_ rfl vacated clear
    · rw [List.getElem?_set]
      by_cases same : j = idx
      · rw [if_pos same.symm, if_pos same, if_pos (same ▸ bound)]
      · rw [if_neg (Ne.symm same), if_neg same]
    · rw [List.length_set]
      exact h.capped
  | none =>
    simp only
    split
    · exact h
    · next room => exact h.seat_last rfl room

theorem Inv.registerHosted (h : Inv s) : Inv s.registerHosted := by
  rw [State.registerHosted]
  split
  · exact h
  · next room => exact h.seat_last rfl room

theorem Inv.send (h : Inv s) {id corr : Nat} {bytes : List UInt8}
    (orderly : Orderly b s (.send id corr bytes)) : Inv (s.send id corr bytes) := by
  rw [State.send]
  split
  · exact h
  next nonzero =>
  cases hl : s.links[id - 1]? with
  | none => exact h
  | some link =>
    obtain ⟨⟨w, hw, -⟩, connected⟩ := h.linked _ _ hl
    cases alive : link.alive with
    | false => simpa only [alive, Bool.not_false, if_true] using h
    | true =>
      simp only [alive, Bool.not_true, Bool.false_eq_true, if_false, hw, connected alive, Bool.true_and]
      split
      · refine h.setWorker hw rfl rfl ?_ (.inl rfl)
        rw [← List.append_assoc, h.commands _ w hw]
      · next deaf =>
        -- the only receivers that are gone belong to threads that have ended
        have ended : w.phase.live = false := by
          cases hp : w.phase <;> rw [hp] at deaf <;> first | rfl | exact absurd rfl deaf
        have fresh := h.unreported _ _ w hl alive hw fun is =>
          orderly link hl alive ((congrArg (Option.map Worker.phase) hw).trans (congrArg some is))
        have down : Inv (s.setLink (id - 1) ⟨link.worker, true, false⟩) := h.setLink hl rfl rfl
        have again : (s.setLink (id - 1) ⟨link.worker, true, false⟩).links[id - 1]? =
            some ⟨link.worker, true, false⟩ := by
          rw [link_setLink hl, if_pos rfl]
        have report := down.report again rfl (fun v hv => ?_) fresh
        · rw [Nat.sub_add_cancel (Nat.one_le_iff_ne_zero.mpr nonzero)] at report
          exact report
        · have hv : s.workers[link.worker]? = some v := hv
          rw [hw] at hv
          cases hv
          exact ended

theorem slot_isSome {id : Nat} (ok : id = 0 → b.overflowChecks = false) : ∃ i, b.slot id = some i := by
  rw [Build.slot]
  split
  · next zero => exact ⟨_, by rw [ok zero]; rfl⟩
  · exact ⟨_, rfl⟩

theorem Inv.terminate (h : Inv s) {id : Nat} (orderly : Orderly b s (.terminate id)) :
    Inv (State.terminate b s id) := by
  obtain ⟨i, slot⟩ := slot_isSome orderly
  simp only [State.terminate, slot]
  cases hl : s.links[i]? with
  | none => exact h
  | some link => exact h.setLink hl rfl rfl

theorem Inv.queryAlive (h : Inv s) {id : Nat} (orderly : Orderly b s (.alive id)) :
    Inv (State.queryAlive b s id) := by
  obtain ⟨i, slot⟩ := slot_isSome orderly
  simp only [State.queryAlive, slot]
  exact h

/-- A worker's own steps, by what they do: post, report its death, or change its record. -/
theorem Inv.workerStep (h : Inv s) (hw : s.workers[n]? = some w) {action : WorkerAction}
    (steps : s.workerStep n w action = some s') : Inv s' := by
  have dies : w.phase.live = true → Inv (s.die n w) := fun live =>
    h.post hw live 0 (fun _ => rfl) fun no => by cases no
  have moves : ∀ phase, w.phase.live = true → phase ≠ .ended .reported →
      Inv (s.setWorker n { w with phase }) := fun phase live other =>
    h.setWorker hw rfl rfl (h.commands n w hw) (.inr ⟨live, other⟩)
  have speaks : w.phase = .initializing ∨ w.phase = .dispatching ∨ (w.phase = .idle ∧ w.hosted) →
      w.phase.live = true := by
    rintro (is | is | ⟨is, -⟩) <;> rw [is] <;> rfl
  cases action with
  | bootOk =>
    rw [State.workerStep] at steps
    split at steps
    · next is =>
      cases steps
      exact moves _ (by rw [is]; rfl) (by simp)
    · cases steps
  | bootFail =>
    rw [State.workerStep] at steps
    split at steps
    · next is =>
      cases steps
      exact dies (by rw [is]; rfl)
    · cases steps
  | initOk =>
    rw [State.workerStep] at steps
    split at steps
    · next is =>
      cases steps
      exact moves _ (by rw [is]; rfl) (by simp)
    · cases steps
  | initFail =>
    rw [State.workerStep] at steps
    split at steps
    · next is =>
      cases steps
      exact dies (by rw [is]; rfl)
    · cases steps
  | receive =>
    rw [State.workerStep] at steps
    split at steps
    · next m rest is queue =>
      cases steps
      refine h.setWorker hw rfl rfl ?_ (.inr ⟨by rw [is]; rfl, by simp⟩)
      rw [← h.commands n w hw, queue, List.append_assoc]
      rfl
    · cases steps
  | hangUp =>
    rw [State.workerStep] at steps
    split at steps
    · next is =>
      cases steps
      exact moves _ (by rw [is.1]; rfl) (by simp)
    · cases steps
  | reply corr bytes =>
    rw [State.workerStep] at steps
    split at steps
    · next is =>
      cases steps
      exact h.post hw (speaks is) corr (fun no => by cases no) fun _ => rfl
    · cases steps
  | write text =>
    rw [State.workerStep] at steps
    split at steps
    · next is =>
      cases steps
      exact h.post hw (speaks is) 0 (fun no => by cases no) fun _ => rfl
    · cases steps
  | dispatchOk =>
    rw [State.workerStep] at steps
    split at steps
    · next is =>
      cases steps
      exact moves _ (by rw [is]; rfl) (by simp)
    · cases steps
  | dispatchFail =>
    rw [State.workerStep] at steps
    split at steps
    · next is =>
      cases steps
      split
      · exact moves _ (by rw [is]; rfl) (by simp)
      · exact dies (by rw [is]; rfl)
    · cases steps
  | fatal =>
    rw [State.workerStep] at steps
    split at steps
    · next live =>
      cases steps
      exact moves _ live (by simp)
    · cases steps
  | drop =>
    rw [State.workerStep] at steps
    split at steps
    · next is =>
      cases steps
      exact moves _ is.2 (by simp)
    · cases steps

/-- What one orderly step preserves. -/
theorem Inv.step (h : Inv s) (steps : s.step b a = some s') (orderly : Orderly b s a) : Inv s' := by
  unfold State.step at steps
  rw [if_neg (by rw [h.running]; exact Bool.false_ne_true)] at steps
  cases a with
  | spawn =>
    cases steps
    exact h.spawn orderly
  | registerHosted =>
    cases steps
    exact h.registerHosted
  | send id corr bytes =>
    cases steps
    exact h.send orderly
  | terminate id =>
    cases steps
    exact h.terminate orderly
  | alive id =>
    cases steps
    exact h.queryAlive orderly
  | poll =>
    cases steps
    exact h.poll
  | worker n action =>
    cases hw : s.workers[n]? with
    | none =>
      simp only [hw] at steps
      cases steps
    | some w =>
      simp only [hw] at steps
      exact h.workerStep hw steps

/-! ## Runs -/

/-- Every step of the run is orderly where it is taken. -/
def OrderlyRun (b : Build) : List Action → State → Prop
  | [], _ => True
  | a :: as, s => Orderly b s a ∧ ∀ s' ∈ s.step b a, OrderlyRun b as s'

instance (b : Build) (s : State) : (a : Action) → Decidable (Orderly b s a)
  | .spawn => inferInstanceAs (Decidable (∀ idx ∈ s.links.findIdx? (fun l => !l.alive),
      (∀ n ∈ s.live, s.occupant (idx + 1) ≠ some n) ∧ ∀ e ∈ s.inbox, e.fromId ≠ idx + 1))
  | .send id _ _ => inferInstanceAs (Decidable (∀ l ∈ s.links[id - 1]?, l.alive = true →
      s.phase? l.worker ≠ some (.ended .reported)))
  | .terminate id | .alive id => inferInstanceAs (Decidable (id = 0 → b.overflowChecks = false))
  | .registerHosted | .poll | .worker _ _ => inferInstanceAs (Decidable True)

instance decidableOrderlyRun (b : Build) : (as : List Action) → (s : State) → Decidable (OrderlyRun b as s)
  | [], _ => inferInstanceAs (Decidable True)
  | a :: as, s =>
    have := decidableOrderlyRun b as
    inferInstanceAs (Decidable (Orderly b s a ∧ ∀ s' ∈ s.step b a, OrderlyRun b as s'))

theorem inv_start : Inv {} := by
  refine { capped := Nat.zero_le _, running := rfl, linked := ?_, seated := ?_, queued := ?_
           attributed := ?_, commands := ?_, posted := ?_, known := ?_, noticed := ?_, once := ?_
           unreported := ?_ }
  · exact fun i l found => by cases found
  · exact fun n w hw => by cases hw
  · exact fun e mem => by cases mem
  · exact fun p mem => by cases mem
  · exact fun n w hw => by cases hw
  · exact fun n w hw => by cases hw
  · exact fun e mem => by cases mem
  · exact fun e mem => by cases mem
  · exact fun n => Nat.zero_le _
  · exact fun i l w found => by cases found

theorem Inv.run {actions : List Action} (h : Inv s) (runs : s.run b actions = some s')
    (orderly : OrderlyRun b actions s) : Inv s' := by
  induction actions generalizing s with
  | nil =>
    cases runs
    exact h
  | cons a actions ih =>
    obtain ⟨s₁, steps, runs⟩ := Option.bind_eq_some_iff.mp runs
    exact ih (h.step steps orderly.1) runs (orderly.2 s₁ steps)

/-- Any interleaving of the primary and its workers is safe, as long as its steps are orderly. -/
theorem worker_protocol_safe {actions : List Action} (runs : State.run b actions {} = some s)
    (orderly : OrderlyRun b actions {}) : Safe s :=
  (inv_start.run runs orderly).safe

/-! ## Orderly and disorderly runs -/

/-- A worker answers, is polled, is terminated and ends before its slot is spawned again. -/
def answeredRun : List Action :=
  [.spawn, .worker 0 .bootOk, .worker 0 .initOk, .send 1 7 [1], .worker 0 .receive,
    .worker 0 (.reply 7 [2]), .worker 0 .dispatchOk, .poll, .terminate 1, .worker 0 .hangUp, .spawn]

theorem worker_protocol_safe_answered : ∃ s, State.run ⟨true⟩ answeredRun {} = some s ∧
    s.polled.length = 1 ∧ s.occupant 1 = some 1 ∧ Safe s := by
  have runs : State.run ⟨true⟩ answeredRun {} = some _ := rfl
  exact ⟨_, runs, rfl, rfl, worker_protocol_safe runs (by decide)⟩

/-- A worker terminated with its answer still queued, and the slot spawned again. -/
def reusedSlot : List Action :=
  [.spawn, .worker 0 .bootOk, .worker 0 .initOk, .send 1 7 [1], .worker 0 .receive,
    .worker 0 (.reply 7 [2]), .terminate 1, .spawn, .poll]

/-- A worker that crashed, sent to before its notice is polled. -/
def sentToCrashed : List Action :=
  [.spawn, .worker 0 .bootOk, .worker 0 .initOk, .send 1 7 [1], .worker 0 .receive,
    .worker 0 .dispatchFail, .send 1 8 [1], .poll, .poll]

/-- The first answer is taken for the second worker's, one crash is announced twice, a terminated
worker that has not ended is one too many, and terminating worker 0 panics. -/
theorem worker_protocol_unsafe :
    (∃ s, State.run ⟨true⟩ reusedSlot {} = some s ∧
      ∃ p ∈ s.polled, p.occupant = some 1 ∧ p.envelope.origin = .worker 0) ∧
    (∃ s, State.run ⟨true⟩ sentToCrashed {} = some s ∧
      (s.polled.map Polled.envelope).countP (Envelope.notices 0) = 2) ∧
    (∃ s, State.run ⟨true⟩ (List.replicate 16 .spawn ++ [.terminate 1, .spawn]) {} = some s ∧
      s.live.length = 17) ∧
    ∃ s, State.run ⟨true⟩ [.spawn, .terminate 0] {} = some s ∧ s.aborted = true := by
  refine ⟨⟨_, rfl, ⟨_, List.mem_singleton_self _, rfl, rfl⟩⟩, ⟨_, rfl, rfl⟩, ⟨_, rfl, ?_⟩,
    ⟨_, rfl, rfl⟩⟩
  decide

end WinVm.Workers
