import Mathlib
import WinVm.Embed.Entries
import WinVm.Lib.Brackets

/-!
# Recovery from a guest error

A jump to an entry skips the closers of every frame above it, so the recovery arm puts the
control state back by hand. `Balance` is the part of that state that closers put back; had
they run, they would have led to what the entry began with (`Settled`), and the recovery arm
is compared with that.

Results:
* `Careful.settled`: in every run whose jumps so far were restorable, closing what is open
  leads each entry back to where it began;
* `finished_balance`: so an entry that returns leaves the balance it found;
* `recovery_exact_iff`: a jump out of one restores the whole control state if and only if the
  entry began with nothing compiled active, and no deopt resume, curtailment or debugger halt
  is open above it.
-/

namespace WinVm.Embed

open WinVm.Lib

/-! ## What closers put back -/

/-- The control state that closers read or write. -/
@[ext] structure Balance where
  arenaLen : Nat
  tierLinks : List TierLink
  compiledDepth : UInt32
  deoptResumeDepth : UInt32
  curtailingOnError : Bool
  sessionDepth : UInt32
  idleBaselines : List IdleBaseline
  callbackDepth : Nat
  entrySlots : List Nat

def Control.balance (c : Control) : Balance :=
  { arenaLen := c.vm.arenaLen
    tierLinks := c.vm.tierLinks
    compiledDepth := c.vm.compiledDepth
    deoptResumeDepth := c.vm.deoptResumeDepth
    curtailingOnError := c.vm.curtailingOnError
    sessionDepth := c.vm.sessionDepth
    idleBaselines := c.idleBaselines
    callbackDepth := c.callbackDepth
    entrySlots := c.entrySlots }

/-- `Bracket.close`, on the balance alone. -/
def Bracket.putBack : Bracket → Balance → Balance
  | .scope savedLen, t => { t with arenaLen := min savedLen t.arenaLen }
  | .compiled, t => { t with tierLinks := t.tierLinks.tail, compiledDepth := t.compiledDepth - 1 }
  | .link, t => { t with tierLinks := t.tierLinks.tail }
  | .reentrant _, t => t
  | .resume _, t => { t with deoptResumeDepth := t.deoptResumeDepth - 1 }
  | .curtail savedLen, t =>
    { t with curtailingOnError := false, arenaLen := min savedLen t.arenaLen }
  | .halt, t => { t with sessionDepth := t.sessionDepth - 1 }

/-- What an open bracket expects of the balance it closes over. -/
def Bracket.Fits : Bracket → Balance → Prop
  | .scope savedLen, t => savedLen ≤ t.arenaLen
  | .curtail savedLen, t => savedLen ≤ t.arenaLen ∧ t.curtailingOnError = true
  | .compiled, _ | .link, _ | .reentrant _, _ | .resume _, _ | .halt, _ => True

/-- The entries of an embedded VM as brackets that a jump may land on. -/
def entryBrackets : Brackets Balance Bracket Entry where
  close := Bracket.putBack
  Fits := Bracket.Fits
  began e := e.began.balance
  entered e := (e.began.enter e.kind e.slot).balance

/-- Closing what is open leads each entry back to where it began. -/
def Settled (s : State) : Prop := entryBrackets.Settles s.stack s.control.balance

theorem resetTo_eq (vm : VmState) (n : Nat) :
    vm.resetTo n = { vm with arenaLen := min n vm.arenaLen } := by
  unfold VmState.resetTo
  split
  · next less => rw [Nat.min_eq_left (Nat.le_of_lt less)]
  · next more => rw [Nat.min_eq_right (Nat.not_lt.mp more)]

theorem balance_close (b : Bracket) (c : Control) :
    ({ c with vm := b.close c.vm } : Control).balance = b.putBack c.balance := by
  cases b <;> simp only [Bracket.close, Bracket.putBack, resetTo_eq] <;> rfl

theorem balance_enter (c : Control) (kind : EntryKind) (slot : Nat) :
    (c.enter kind slot).balance = { c.balance with
      idleBaselines := ⟨c.vm.sp, c.vm.fp, c.vm.hasFrame, c.vm.arenaLen⟩ :: c.idleBaselines
      callbackDepth := c.callbackDepth + (if kind = .callback then 1 else 0)
      entrySlots := slot :: c.entrySlots } := by
  cases kind <;> rfl

theorem balance_leave (c : Control) (kind : EntryKind) :
    (c.leave kind).balance = { c.balance with
      idleBaselines := c.balance.idleBaselines.tail
      callbackDepth := c.balance.callbackDepth - (if kind = .callback then 1 else 0)
      entrySlots := c.balance.entrySlots.tail } := by
  cases kind <;> rfl

/-! ## Skipped closers -/

variable {policy : ErrorPolicy} {s s' : State} {c c' : Control} {b : Bracket} {e : Entry}
  {above : List Bracket} {below : NativeStack} {t t' : Balance}

def Bracket.isResume : Bracket → Bool
  | .resume _ => true
  | _ => false

def Bracket.isHalt : Bracket → Bool
  | .halt => true
  | _ => false

def Bracket.isCurtail : Bracket → Bool
  | .curtail _ => true
  | _ => false

/-- What no closer but an entry's own changes. -/
theorem closeAll_entries (above : List Bracket) (t : Balance) :
    (entryBrackets.closeAll above t).idleBaselines = t.idleBaselines ∧
    (entryBrackets.closeAll above t).callbackDepth = t.callbackDepth ∧
    (entryBrackets.closeAll above t).entrySlots = t.entrySlots := by
  induction above generalizing t with
  | nil => exact ⟨rfl, rfl, rfl⟩
  | cons b above ih =>
    rw [Brackets.closeAll]
    obtain ⟨baselines, depth, slots⟩ := ih (b.putBack t)
    cases b <;> exact ⟨baselines, depth, slots⟩

/-- Closers only shorten the handle arena. -/
theorem closeAll_arenaLen_le (above : List Bracket) (t : Balance) :
    (entryBrackets.closeAll above t).arenaLen ≤ t.arenaLen := by
  induction above generalizing t with
  | nil => exact Nat.le_refl _
  | cons b above ih =>
    have closed : (b.putBack t).arenaLen ≤ t.arenaLen := by
      cases b <;> first | exact Nat.min_le_right _ _ | exact Nat.le_refl _
    exact Nat.le_trans (ih (b.putBack t)) closed

/-- A counter that one kind of closer takes one off counts the open brackets of that kind. -/
theorem closeAll_counter (counter : Balance → UInt32) (kind : Bracket → Bool)
    (counts : ∀ b t, counter t = counter (b.putBack t) + if kind b then 1 else 0)
    (above : List Bracket) (t : Balance) :
    counter t = counter (entryBrackets.closeAll above t) + UInt32.ofNat (above.countP kind) := by
  induction above generalizing t with
  | nil => simp [Brackets.closeAll]
  | cons b above ih =>
    rw [Brackets.closeAll, counts b t, ih (b.putBack t), List.countP_cons, UInt32.ofNat_add,
      UInt32.add_assoc]
    cases kind b <;> rfl

theorem closeAll_deoptResumeDepth (above : List Bracket) (t : Balance) :
    t.deoptResumeDepth = (entryBrackets.closeAll above t).deoptResumeDepth +
      UInt32.ofNat (above.countP Bracket.isResume) := by
  refine closeAll_counter Balance.deoptResumeDepth Bracket.isResume (fun b t => ?_) above t
  cases b with
  | resume saved => exact (UInt32.sub_add_cancel _ _).symm
  | scope | compiled | link | reentrant | curtail | halt => exact (UInt32.add_zero _).symm

theorem closeAll_sessionDepth (above : List Bracket) (t : Balance) :
    t.sessionDepth = (entryBrackets.closeAll above t).sessionDepth +
      UInt32.ofNat (above.countP Bracket.isHalt) := by
  refine closeAll_counter Balance.sessionDepth Bracket.isHalt (fun b t => ?_) above t
  cases b with
  | halt => exact (UInt32.sub_add_cancel _ _).symm
  | scope | compiled | link | reentrant | curtail | resume => exact (UInt32.add_zero _).symm

/-- An open curtailment holds its flag up, and closing it takes the flag down. -/
theorem closeAll_curtailing (fits : entryBrackets.FitsAll above t) :
    if above.any Bracket.isCurtail then
      t.curtailingOnError = true ∧ (entryBrackets.closeAll above t).curtailingOnError = false
    else (entryBrackets.closeAll above t).curtailingOnError = t.curtailingOnError := by
  induction above generalizing t with
  | nil => rfl
  | cons b above ih =>
    have rest := ih fits.2
    rw [Brackets.closeAll]
    cases b with
    | curtail savedLen =>
      refine ⟨fits.1.2, ?_⟩
      split at rest
      · exact rest.2
      · exact rest
    | scope | compiled | link | reentrant | resume | halt => exact rest

/-! ## The recovery arm -/

/-- Nothing compiled is active, parked or pending, and no pool scope is open. -/
structure VmState.Quiet (vm : VmState) : Prop where
  tierLinks : vm.tierLinks = []
  compiledDepth : vm.compiledDepth = 0
  anchor : vm.anchor = none
  nlrState : vm.nlrState = none
  pendingDeopts : vm.pendingDeopts = []
  cocoaMintStack : vm.cocoaMintStack = []

/-- The jumps the recovery arm is written for: out of the entry `e`, over the open frames
`above`. The two counters are as wide as the source's. -/
structure Restorable (above : List Bracket) (e : Entry) : Prop where
  quiet : e.began.vm.Quiet
  resumes : UInt32.ofNat (above.countP Bracket.isResume) = 0
  halts : UInt32.ofNat (above.countP Bracket.isHalt) = 0
  curtails : above.any Bracket.isCurtail = false

theorem restoreAfterGuestFatal_eq {base : IdleBaseline} {rest : List IdleBaseline}
    (top : c.idleBaselines = base :: rest) :
    c.restoreAfterGuestFatal = { c with
      vm := { c.vm with
        sp := base.stackSp
        fp := base.stackFp
        hasFrame := base.stackHasFrame
        arenaLen := min base.arenaLen c.vm.arenaLen
        cocoaMintStack := []
        tierLinks := []
        compiledDepth := 0
        anchor := none
        nlrState := none
        pendingDeopts := [] } } := by
  simp only [Control.restoreAfterGuestFatal, top, List.headD_cons, resetTo_eq,
    VmState.restoreBaseline]

theorem recoveryArm_eq_some {kind : EntryKind} (arm : c.recoveryArm policy kind = some c') :
    c' = c.restoreAfterGuestFatal.leave kind := by
  cases kind <;> cases policy <;> cases arm <;> rfl

/-- What the arm puts back is what the skipped closers would have, when there is nothing else to
put back. -/
theorem leave_eq_began_iff (fits : entryBrackets.FitsAll above c.balance)
    (closed : entryBrackets.closeAll above c.balance = (e.began.enter e.kind e.slot).balance) :
    c.restoreAfterGuestFatal.leave e.kind = e.began ↔ Restorable above e := by
  rw [balance_enter] at closed
  obtain ⟨baselines, depth, slots⟩ := closeAll_entries above c.balance
  have arena := closeAll_arenaLen_le above c.balance
  have resumes := closeAll_deoptResumeDepth above c.balance
  have halts := closeAll_sessionDepth above c.balance
  have curtails := closeAll_curtailing fits
  rw [closed] at baselines depth slots arena resumes halts curtails
  have left : c.restoreAfterGuestFatal.leave e.kind = { e.began with
      vm := { c.vm with
        sp := e.began.vm.sp
        fp := e.began.vm.fp
        hasFrame := e.began.vm.hasFrame
        arenaLen := e.began.vm.arenaLen
        cocoaMintStack := []
        tierLinks := []
        compiledDepth := 0
        anchor := none
        nlrState := none
        pendingDeopts := [] } } := by
    have kept : min e.began.vm.arenaLen c.vm.arenaLen = e.began.vm.arenaLen := Nat.min_eq_left arena
    have baselines : c.idleBaselines = _ := baselines.symm
    have depth : c.callbackDepth = _ := depth.symm
    have slots : c.entrySlots = _ := slots.symm
    rw [restoreAfterGuestFatal_eq baselines, kept]
    cases hkind : e.kind <;>
      simp only [Control.leave, Control.popEntry, Control.leaveCallback, baselines, depth, slots, hkind,
        List.tail_cons] <;> rfl
  rw [left, Control.ext_iff, VmState.ext_iff]
  simp only [true_and, and_true]
  constructor
  · rintro ⟨links, depth, anchor, nlr, pending, mint, resumesKept, flagKept, haltsKept⟩
    refine ⟨⟨links.symm, depth.symm, anchor.symm, nlr.symm, pending.symm, mint.symm⟩, ?_, ?_, ?_⟩
    · exact UInt32.add_eq_left.mp (resumes.symm.trans resumesKept)
    · exact UInt32.add_eq_left.mp (halts.symm.trans haltsKept)
    · cases any : above.any Bracket.isCurtail with
      | false => rfl
      | true =>
        -- the flag is up now, and the skipped closer would have taken it down
        rw [any] at curtails
        have up : c.vm.curtailingOnError = true := curtails.1
        have down : e.began.vm.curtailingOnError = false := curtails.2
        rw [flagKept, down] at up
        cases up
  · rintro ⟨quiet, noResume, noHalt, noCurtail⟩
    rw [noResume, UInt32.add_zero] at resumes
    rw [noHalt, UInt32.add_zero] at halts
    rw [noCurtail] at curtails
    exact ⟨quiet.tierLinks.symm, quiet.compiledDepth.symm, quiet.anchor.symm, quiet.nlrState.symm,
      quiet.pendingDeopts.symm, quiet.cocoaMintStack.symm, resumes, curtails.symm, halts⟩

/-! ## Runs -/

theorem landing_split {slot : Nat} {stack : NativeStack} (found : landing slot stack = some (e, below)) :
    ∃ (above : List Bracket) (e₀ : Entry) (below₀ : NativeStack),
      stack = above.map Sum.inl ++ .inr e₀ :: below₀ := by
  induction stack with
  | nil => cases found
  | cons frame rest ih =>
    cases frame with
    | inl b =>
      obtain ⟨above, e₀, below₀, rfl⟩ := ih found
      exact ⟨b :: above, e₀, below₀, rfl⟩
    | inr e₀ => exact ⟨[], e₀, rest, rfl⟩

theorem landing_innermost (above : List Bracket) (e : Entry) (below : NativeStack) :
    landing e.slot (above.map Sum.inl ++ .inr e :: below) = some (e, below) := by
  induction above with
  | nil => exact if_pos rfl
  | cons b above ih => exact ih

/-- The thread's top slot is the innermost entry's, so that is where a jump lands. -/
theorem Settled.abort_eq (h : Settled s) (split : s.stack = above.map Sum.inl ++ .inr e :: below) :
    s.abort policy = (s.control.recoveryArm policy e.kind).map fun c => ⟨c, below⟩ := by
  have settles := h
  rw [Settled, split] at settles
  obtain ⟨-, closed, -⟩ := settles.landed
  have slots := (closeAll_entries above s.control.balance).2.2
  rw [closed] at slots
  have top : s.control.entrySlots = e.slot :: e.began.entrySlots := by
    rw [show s.control.entrySlots = s.control.balance.entrySlots from rfl, ← slots]
    exact congrArg Balance.entrySlots (balance_enter e.began e.kind e.slot)
  rw [State.abort, top, split]
  simp only [List.head?_cons, landing_innermost, Option.bind_eq_bind, Option.bind_some]
  cases s.control.recoveryArm policy e.kind <;> rfl

/-- A jump lands on the innermost entry, with the entry's frames gone. -/
theorem Settled.aborted (h : Settled s) (aborts : s.abort policy = some s') :
    ∃ (above : List Bracket) (e : Entry), s.stack = above.map Sum.inl ++ .inr e :: s'.stack ∧
      s'.control = s.control.restoreAfterGuestFatal.leave e.kind := by
  have found := aborts
  rw [State.abort] at found
  obtain ⟨slot, -, found⟩ := Option.bind_eq_some_iff.mp found
  obtain ⟨⟨e₁, below₁⟩, land, -⟩ := Option.bind_eq_some_iff.mp found
  obtain ⟨above, e, below, split⟩ := landing_split land
  rw [h.abort_eq split] at aborts
  obtain ⟨c, arm, rfl⟩ := Option.map_eq_some_iff.mp aborts
  exact ⟨above, e, split, recoveryArm_eq_some arm⟩

/-- A handle is made in a scope, and goes with it. -/
theorem settles_handle {stack : NativeStack} (h : entryBrackets.Settles stack t)
    (scope : scopeOpen stack = true) :
    entryBrackets.Settles stack { t with arenaLen := t.arenaLen + 1 } := by
  induction stack generalizing t with
  | nil => cases scope
  | cons frame rest ih =>
    cases frame with
    | inr e => cases scope
    | inl b =>
      obtain ⟨fits, rest⟩ := h
      cases b with
      | scope savedLen =>
        have low : savedLen ≤ t.arenaLen := fits
        refine ⟨Nat.le_succ_of_le low, ?_⟩
        have back : Bracket.putBack (.scope savedLen) { t with arenaLen := t.arenaLen + 1 } =
            Bracket.putBack (.scope savedLen) t := by
          simp only [Bracket.putBack, Nat.min_eq_left low, Nat.min_eq_left (Nat.le_succ_of_le low)]
        exact (congrArg (entryBrackets.Settles _) back).mpr rest
      | curtail savedLen =>
        have low : savedLen ≤ t.arenaLen := fits.1
        refine ⟨⟨Nat.le_succ_of_le low, fits.2⟩, ?_⟩
        have back : Bracket.putBack (.curtail savedLen) { t with arenaLen := t.arenaLen + 1 } =
            Bracket.putBack (.curtail savedLen) t := by
          simp only [Bracket.putBack, Nat.min_eq_left low, Nat.min_eq_left (Nat.le_succ_of_le low)]
        exact (congrArg (entryBrackets.Settles _) back).mpr rest
      | compiled | link | reentrant | resume | halt => exact ⟨trivial, ih rest scope⟩

theorem Settled.opened (h : Settled s) {vm : VmState}
    (fits : b.Fits ({ s.control with vm } : Control).balance)
    (undone : b.putBack ({ s.control with vm } : Control).balance = s.control.balance) :
    Settled (s.opened b vm) :=
  Brackets.Settles.opened h fits undone

theorem Settled.withVm (h : Settled s) {vm : VmState}
    (same : ({ s.control with vm } : Control).balance = s.control.balance) : Settled (s.withVm vm) := by
  rw [Settled, State.withVm, same]
  exact h

/-- Whether a jump made now is one the recovery arm is written for. -/
def State.Restorable (s : State) : Prop :=
  ∀ (above : List Bracket) (e : Entry) (below : NativeStack),
    s.stack = above.map Sum.inl ++ .inr e :: below → Embed.Restorable above e

/-- A jump out of `e` leaves the control state `e` began with. -/
theorem Settled.recovered_iff (h : Settled s) (aborts : s.abort policy = some s')
    (split : s.stack = above.map Sum.inl ++ .inr e :: below) :
    s'.control = e.began ∧ s'.stack = below ↔ Restorable above e := by
  have settles := h
  rw [Settled, split] at settles
  obtain ⟨fits, closed, -⟩ := settles.landed
  rw [h.abort_eq split] at aborts
  obtain ⟨c, arm, rfl⟩ := Option.map_eq_some_iff.mp aborts
  rw [recoveryArm_eq_some arm]
  exact ⟨fun same => (leave_eq_began_iff fits closed).mp same.1,
    fun ok => ⟨(leave_eq_began_iff fits closed).mpr ok, rfl⟩⟩

/-- An entry that returns puts back the balance it found. -/
theorem Settled.finished_balance (h : Settled s) (top : s.stack = .inr e :: below) :
    (s.control.leave e.kind).balance = e.began.balance := by
  rw [Settled, top] at h
  have entered : s.control.balance = (e.began.enter e.kind e.slot).balance := h.1
  rw [balance_leave, entered, balance_enter]
  simp only [List.tail_cons, Nat.add_sub_cancel]
  rfl

/-- What one step preserves. -/
theorem Settled.step {a : Action} (h : Settled s) (steps : s.step policy a = some s')
    (clean : a = .abort → s.Restorable) : Settled s' := by
  cases a with
  | enter kind slot =>
    rw [State.step] at steps
    split at steps
    · cases steps
      exact ⟨rfl, h⟩
    · cases steps
  | finish =>
    rw [State.step] at steps
    split at steps
    · next e rest top =>
      cases steps
      have began := h.finished_balance top
      rw [Settled, top] at h
      rw [Settled, began]
      exact h.2
    · cases steps
  | abort =>
    obtain ⟨above, e, split, -⟩ := h.aborted steps
    have same := (h.recovered_iff steps split).mpr (clean rfl above e _ split)
    rw [Settled, split] at h
    rw [Settled, same.1]
    exact h.landed.2.2
  | close =>
    rw [State.step] at steps
    split at steps
    · next b rest top =>
      cases steps
      rw [Settled, top] at h
      rw [Settled, balance_close]
      exact h.2
    · cases steps
  | openScope =>
    cases steps
    refine h.opened (Nat.le_refl _) ?_
    exact Balance.ext (Nat.min_self _) rfl rfl rfl rfl rfl rfl rfl rfl
  | handle =>
    rw [State.step] at steps
    split at steps
    · next scope =>
      cases steps
      exact settles_handle h scope
    · cases steps
  | enterCompiled nmId =>
    cases steps
    refine h.opened trivial ?_
    exact Balance.ext rfl rfl (UInt32.add_sub_cancel _ _) rfl rfl rfl rfl rfl rfl
  | enterInterpreter =>
    rw [State.step] at steps
    split at steps
    · cases steps
      exact h.opened trivial rfl
    · cases steps
  | bridgeDeopt deadFp callerRetPc =>
    cases steps
    exact h.opened trivial rfl
  | reenter =>
    cases steps
    exact h.opened trivial rfl
  | resumeDeopt =>
    cases steps
    refine h.opened trivial ?_
    exact Balance.ext rfl rfl rfl (UInt32.add_sub_cancel _ _) rfl rfl rfl rfl rfl
  | curtail =>
    simp only [State.step] at steps
    split at steps
    · cases steps
      exact h
    · next down =>
      cases steps
      refine h.opened ⟨Nat.le_refl _, rfl⟩ ?_
      exact Balance.ext (Nat.min_self _) rfl rfl rfl (Bool.not_eq_true _ ▸ down).symm rfl rfl rfl rfl
  | halt =>
    cases steps
    refine h.opened trivial ?_
    exact Balance.ext rfl rfl rfl rfl rfl (UInt32.add_sub_cancel _ _) rfl rfl rfl
  | frames sp fp hasFrame | setAnchor anchor | setNlr nlr | redirectReturn fp pending
  | takePending fp =>
    cases steps
    exact h.withVm rfl

/-- The states reached from boot by runs whose jumps were all restorable when made. -/
inductive Careful (policy : ErrorPolicy) : State → Prop where
  | boot : Careful policy .boot
  | step {s s' : State} (a : Action) : Careful policy s → s.step policy a = some s' →
      (a = .abort → s.Restorable) → Careful policy s'

theorem Careful.settled (h : Careful policy s) : Settled s := by
  induction h with
  | boot => trivial
  | step a _ steps clean ih => exact ih.step steps clean

/-- After any such run, a jump out of the innermost entry leaves the process stack, the handle
arena, the tier journal and every other piece of control state as that entry found it, exactly
when the jump is restorable; the frames below the entry are left in place. -/
theorem recovery_exact_iff (careful : Careful policy s)
    (split : s.stack = above.map Sum.inl ++ .inr e :: below)
    (aborts : s.step policy .abort = some s') :
    s'.control = e.began ∧ s'.stack = below ↔ Restorable above e :=
  careful.settled.recovered_iff aborts split

/-! ## Two runs -/

theorem Careful.run {actions : List Action} (careful : Careful policy s)
    (noJump : ∀ a ∈ actions, a ≠ .abort) (runs : s.run policy actions = some s') :
    Careful policy s' := by
  induction actions generalizing s with
  | nil =>
    cases runs
    exact careful
  | cons a actions ih =>
    obtain ⟨s₁, steps, runs⟩ := Option.bind_eq_some_iff.mp runs
    have next := careful.step a steps fun is => absurd is (noJump a List.mem_cons_self)
    exact ih next (fun a mem => noJump a (List.mem_cons_of_mem _ mem)) runs

/-- A doit that errors in compiled code, two handles deep. -/
def erringDoit : List Action :=
  [.enter .request 0, .openScope, .handle, .handle, .frames 8 3 true, .enterCompiled 7,
    .setAnchor (some ⟨4096, 64, 2⟩), .redirectReturn 4128 ⟨80, 7⟩]

theorem recovery_exact_erringDoit : ∃ s s' : State, State.boot.run .resume erringDoit = some s ∧
    s.step .resume .abort = some s' ∧ s'.control = .boot ∧ s'.stack = [] := by
  obtain ⟨s, runs, s', aborts, split⟩ : ∃ s, State.boot.run .resume erringDoit = some s ∧
      ∃ s', s.step .resume .abort = some s' ∧
        s.stack = [Bracket.compiled, .scope 0].map Sum.inl ++ .inr ⟨.request, 0, .boot⟩ :: [] :=
    ⟨_, rfl, _, rfl, rfl⟩
  have careful := Careful.boot.run (by decide) runs
  have restorable : Restorable [.compiled, .scope 0] ⟨.request, 0, .boot⟩ :=
    ⟨⟨rfl, rfl, rfl, rfl, rfl, rfl⟩, rfl, rfl, rfl⟩
  exact ⟨s, s', runs, aborts, (recovery_exact_iff careful split aborts).mpr restorable⟩

/-- A window procedure entered from compiled code. -/
def nestedCallback : List Action :=
  [.enter .request 0, .frames 8 3 true, .enterCompiled 7, .enter .callback 1]

/-- Its error clears the tier journal of the doit it was called from, whose compiled frame is still
on the native stack: when that frame returns, the depth of compiled frames wraps. -/
theorem nested_recovery_clears_outer : ∃ (s s' s'' : State) (e : Entry) (below : NativeStack),
    Careful .resume s ∧ s.stack = .inr e :: below ∧ s.step .resume .abort = some s' ∧
      s'.control ≠ e.began ∧
      e.began.vm.tierLinks = [.intoCompiled 3 8 7] ∧ s'.control.vm.tierLinks = [] ∧
      s'.step .resume .close = some s'' ∧ s''.control.vm.compiledDepth = 2 ^ 32 - 1 := by
  obtain ⟨s, runs, s', aborts, e, below, top, s'', closes, began, cleared, wrapped⟩ :
      ∃ s, State.boot.run .resume nestedCallback = some s ∧
      ∃ s', s.step .resume .abort = some s' ∧ ∃ e below, s.stack = .inr e :: below ∧
      ∃ s'', s'.step .resume .close = some s'' ∧
        e.began.vm.tierLinks = [.intoCompiled 3 8 7] ∧ s'.control.vm.tierLinks = [] ∧
        s''.control.vm.compiledDepth = 2 ^ 32 - 1 :=
    ⟨_, rfl, _, rfl, _, _, rfl, _, rfl, rfl, rfl, by decide⟩
  have careful := Careful.boot.run (by decide) runs
  refine ⟨s, s', s'', e, below, careful, top, aborts, fun same => ?_, began, cleared, closes, wrapped⟩
  rw [same, began] at cleared
  cases cleared

end WinVm.Embed
