import WinVm.Debugger.Dispatch

/-!
# Halts and the mirror register

After a halt the hook of `dispatch_from` reloads the loop's method from `vm.regs`. The
sends, the block activations, the unwind handlers and the returns stamp that register
before the loop goes on. `activate_entry` and `interpret_active` do not: they set the frame
only, and until the new loop stamps the register itself it names whatever ran before.

`Mirrored` says what the register is worth at every point of a run, in the running loop
and in the ones that wait below it. From it the runs under the debugger are the runs
without it exactly as long as no halt strikes a loop that has not stamped the register,
unless the register names the loop's method by chance.

Result:

* `halting_transparent_iff`: the first `n` steps are the same with the debugger active and
  inactive, and every halt goes on in the method of the current frame, if and only if every
  halt among them meets `Stamped`.
-/

namespace WinVm.Debugger

section
variable {μ σ : Type}

/-! ## What the register mirrors -/

/-- The register and the locals of one loop. A loop that is taking frames off reloads both
before it dispatches again. -/
def Settled (regs : Regs μ) (l : Loop μ) : Prop :=
  match l.phase with
  | .dispatching | .offered =>
    l.method = l.top.method ∧ (l.stamped = true → regs.method = some l.top.method)
  | .calling => l.stamped = true → regs.method = some l.top.method
  | .unwinding => True

/-- The register serves the innermost loop, and what each loop saved of it serves the one
below. -/
def Mirrored : Regs μ → List (Loop μ) → Prop
  | _, [] => True
  | regs, l :: ls => Settled regs l ∧ (ls = [] ∨ ∃ r, l.saved = some r ∧ Mirrored r ls)

/-- The waiting loops. -/
def Below (saved : Option (Regs μ)) (ls : List (Loop μ)) : Prop :=
  ls = [] ∨ ∃ r, saved = some r ∧ Mirrored r ls

theorem mirrored_cons {regs : Regs μ} {l : Loop μ} {ls : List (Loop μ)} :
    Mirrored regs (l :: ls) ↔ Settled regs l ∧ Below l.saved ls := Iff.rfl

theorem Mirrored.settled {regs : Regs μ} {l : Loop μ} {ls : List (Loop μ)}
    (h : Mirrored regs (l :: ls)) (hphase : l.phase = .dispatching) :
    l.method = l.top.method ∧ (l.stamped = true → regs.method = some l.top.method) := by
  have hl := h.1
  simp only [Settled, hphase] at hl
  exact hl

/-- Leaving a loop restores the register for the one below. -/
theorem Below.restored {saved : Option (Regs μ)} {ls : List (Loop μ)} (h : Below saved ls)
    (regs : Regs μ) : Mirrored (saved.getD regs) ls := by
  rcases h with rfl | ⟨r, rfl, hr⟩
  · trivial
  · exact hr

namespace Vm

variable {vm : Vm μ σ} {l : Loop μ} {ls : List (Loop μ)}

theorem mirrored_applyArm (hbelow : Below l.saved ls) (hmethod : l.method = l.top.method)
    (hregs : l.stamped = true → vm.regs.method = some l.top.method)
    (hphase : l.phase = .dispatching) (arm : Arm) :
    Mirrored (vm.applyArm l ls arm).regs (vm.applyArm l ls arm).loops := by
  cases arm with
  | goto bci => exact ⟨by simpa only [Settled, hphase] using ⟨hmethod, hregs⟩, hbelow⟩
  | reread bci => exact ⟨by
    simp only [Settled, hphase, true_and]
    exact hregs, hbelow⟩
  | call bci => exact ⟨fun _ => congrArg some hmethod, hbelow⟩
  | offer bci => exact ⟨⟨hmethod, fun _ => congrArg some hmethod⟩, hbelow⟩
  | giveBack => exact ⟨trivial, hbelow⟩

theorem mirrored_openLoop (h : Mirrored vm.regs vm.loops) (regs : Regs μ) (top : Frame μ)
    (rest : List (Frame μ)) (bci : Nat) (stamped : Bool)
    (hregs : stamped = true → regs.method = some top.method) :
    Mirrored (vm.openLoop regs top rest bci stamped).regs
      (vm.openLoop regs top rest bci stamped).loops := by
  refine ⟨⟨rfl, hregs⟩, ?_⟩
  cases hloops : vm.loops with
  | nil => exact .inl rfl
  | cons l ls => exact .inr ⟨vm.regs, by simp, hloops ▸ h⟩

theorem mirrored_openMove (h : Mirrored vm.regs vm.loops) {move : Move μ} {vm' : Vm μ σ}
    (hmove : vm.openMove move = some vm') : Mirrored vm'.regs vm'.loops := by
  cases move with
  | work =>
    cases hmove
    exact h
  | runEntry m fp =>
    cases hmove
    exact mirrored_openLoop h _ _ _ _ _ (by simp)
  | runBlock m fp =>
    cases hmove
    exact mirrored_openLoop h _ _ _ _ _ (fun _ => rfl)
  | resumeDeopt top rest bci =>
    cases hmove
    exact mirrored_openLoop h _ _ _ _ _ (by simp)
  | _ => cases hmove

theorem mirrored_applyOffer (h : Mirrored vm.regs vm.loops) (hloops : vm.loops = l :: ls)
    (hphase : l.phase = .offered) {move : Move μ} {vm' : Vm μ σ}
    (hmove : vm.applyOffer l ls move = some vm') : Mirrored vm'.regs vm'.loops := by
  have hl : Mirrored vm.regs (l :: ls) := hloops ▸ h
  obtain ⟨hsettled, hbelow⟩ := mirrored_cons.mp hl
  simp only [Settled, hphase] at hsettled
  cases move with
  | work =>
    cases hmove
    exact h
  | decline =>
    cases hmove
    exact ⟨hsettled, hbelow⟩
  | replace =>
    simp only [applyOffer] at hmove
    cases hrest : l.rest with
    | nil =>
      rw [hrest] at hmove
      cases hmove
      exact ⟨trivial, hbelow⟩
    | cons caller rest =>
      rw [hrest] at hmove
      cases hmove
      exact ⟨fun _ => rfl, hbelow⟩
  | _ => cases hmove

/-- The moves of the runtime: whichever sets the loop dispatching again has stamped the
register with the frame's method, or leaves the loop as it found it. -/
theorem mirrored_applyMove (h : Mirrored vm.regs vm.loops) (hloops : vm.loops = l :: ls)
    {move : Move μ} {vm' : Vm μ σ} (hmove : vm.applyMove l ls move = some vm') :
    Mirrored vm'.regs vm'.loops := by
  have hl : Mirrored vm.regs (l :: ls) := hloops ▸ h
  obtain ⟨hsettled, hbelow⟩ := mirrored_cons.mp hl
  cases move with
  | enter m fp resume =>
    cases hmove
    exact ⟨⟨rfl, fun _ => rfl⟩, hbelow⟩
  | complete =>
    by_cases hphase : l.phase = .calling
    · simp only [applyMove, hphase, if_true, Option.some.injEq] at hmove
      subst hmove
      simp only [Settled, hphase] at hsettled
      exact ⟨⟨rfl, hsettled⟩, hbelow⟩
    · simp only [applyMove, hphase, if_false] at hmove
      cases hmove
  | unwind k =>
    simp only [applyMove] at hmove
    cases hdrop : (l.top :: l.rest).drop k with
    | nil =>
      rw [hdrop] at hmove
      cases hmove
    | cons top rest =>
      rw [hdrop] at hmove
      cases hmove
      exact ⟨trivial, hbelow⟩
  | drop =>
    cases hphase : l.phase with
    | unwinding =>
      cases hrest : l.rest with
      | nil =>
        simp only [applyMove, hphase, hrest] at hmove
        cases hmove
      | cons caller rest =>
        simp only [applyMove, hphase, hrest, Option.some.injEq] at hmove
        subst hmove
        exact ⟨by simp only [Settled], hbelow⟩
    | _ =>
      simp only [applyMove, hphase] at hmove
      cases hmove
  | deliver =>
    cases hphase : l.phase with
    | unwinding =>
      cases hrest : l.rest with
      | nil =>
        simp only [applyMove, hphase, hrest] at hmove
        cases hmove
      | cons caller rest =>
        simp only [applyMove, hphase, hrest, Option.some.injEq] at hmove
        subst hmove
        exact ⟨⟨rfl, fun _ => rfl⟩, hbelow⟩
    | _ =>
      simp only [applyMove, hphase] at hmove
      cases hmove
  | leave =>
    cases hmove
    exact hbelow.restored vm.regs
  | work => exact mirrored_openMove h (show vm.openMove .work = some vm' from hmove)
  | runEntry m fp => exact mirrored_openMove h (show vm.openMove (.runEntry m fp) = some vm' from hmove)
  | runBlock m fp => exact mirrored_openMove h (show vm.openMove (.runBlock m fp) = some vm' from hmove)
  | resumeDeopt top rest bci => exact mirrored_openMove h (show vm.openMove (.resumeDeopt top rest bci) = some vm' from hmove)
  | decline => cases hmove
  | replace => cases hmove

theorem mirrored_runtimeStep {G : Guest μ σ} (h : Mirrored vm.regs vm.loops) {vm' : Vm μ σ}
    (hstep : vm.runtimeStep G = some vm') : Mirrored vm'.regs vm'.loops := by
  have hdata : Mirrored (vm.withData (G.runtime vm).1).regs
      (vm.withData (G.runtime vm).1).loops := h
  unfold runtimeStep at hstep
  cases hloops : vm.loops with
  | nil =>
    simp only [hloops] at hstep
    exact mirrored_openMove hdata hstep
  | cons l ls =>
    simp only [hloops] at hstep
    by_cases hphase : l.phase = .offered
    · rw [if_pos hphase] at hstep
      exact mirrored_applyOffer hdata hloops hphase hstep
    · rw [if_neg hphase] at hstep
      exact mirrored_applyMove hdata hloops hstep

theorem mirrored_step {G : Guest μ σ} (h : Mirrored vm.regs vm.loops) {events : List (Event μ)}
    {vm' : Vm μ σ} (hstep : vm.step G = some (events, vm')) : Mirrored vm'.regs vm'.loops := by
  unfold step at hstep
  cases hloops : vm.loops with
  | nil =>
    simp only [hloops, Option.map_eq_some_iff, Prod.mk.injEq] at hstep
    obtain ⟨_, hruntime, -, rfl⟩ := hstep
    exact mirrored_runtimeStep h hruntime
  | cons l ls =>
    cases hphase : l.phase with
    | dispatching =>
      simp only [hloops, hphase, Option.some.injEq, Prod.mk.injEq] at hstep
      obtain ⟨-, rfl⟩ := hstep
      have hl : Mirrored vm.regs (l :: ls) := hloops ▸ h
      obtain ⟨hmethod, hregs⟩ := hl.settled hphase
      have hsame : ({ l with method := l.method } : Loop μ) = l := rfl
      simp only [dispatch, hsame]
      exact mirrored_applyArm hl.2 hmethod
        (show l.stamped = true → (withData { vm with loops := l :: ls } _).regs.method = _ from hregs)
        hphase _
    | _ =>
      simp only [hloops, hphase, Option.map_eq_some_iff, Prod.mk.injEq] at hstep
      obtain ⟨_, hruntime, -, rfl⟩ := hstep
      exact mirrored_runtimeStep h hruntime

/-- The register at every point of a run without the debugger. -/
theorem mirrored_run {G : Guest μ σ} {data : σ} : ∀ {n : Nat} {events : List (Event μ)}
    {vm : Vm μ σ}, run G n (Vm.fresh data) = some (events, vm) → Mirrored vm.regs vm.loops
  | 0, _, _, h => by
    cases h
    trivial
  | n + 1, _, _, h => by
    simp only [run, Option.bind_eq_bind, Option.bind_eq_some_iff, Prod.exists] at h
    obtain ⟨events, vm, hrun, more, vm', hstep, h⟩ := h
    cases h
    exact mirrored_step (mirrored_run hrun) hstep

end Vm

/-! ## One step under the debugger -/

/-- The hook halts in front of the bytecode at the locals of `l`. -/
def Halts (M : Methods μ) (d : DebugState) (l : Loop μ) : Prop :=
  d.active = true ∧ (d.check M l.method l.top.fp l.bci).1 = true

/-- A halt strikes a loop that has stamped the register, or the register names the loop's
method all the same. -/
def Stamped (M : Methods μ) (s : Vm μ σ × DebugState) : Prop :=
  ∀ l ls, s.1.loops = l :: ls → l.phase = .dispatching → Halts M s.2 l →
    l.stamped = true ∨ s.1.regs.method = some l.method

/-- After a halt the loop goes on in the method of the current frame. -/
def GoesOn (M : Methods μ) (s : Vm μ σ × DebugState) : Prop :=
  ∀ l ls, s.1.loops = l :: ls → l.phase = .dispatching → Halts M s.2 l →
    ∃ d, hook M s.1 l s.2 = some (l.top.method, d)

/-- What a step shows apart from the debugger's own state. -/
def shown (r : List (Event μ) × Vm μ σ × DebugState) : List (Event μ) × Vm μ σ := (r.1, r.2.1)

variable {M : Methods μ} {G : Guest μ σ} {vm : Vm μ σ} {d : DebugState} {l : Loop μ}
  {ls : List (Loop μ)}

theorem hook_of_halts (vm : Vm μ σ) (h : Halts M d l) :
    ∃ d', hook M vm l d = vm.regs.method.map (·, d') := by
  obtain ⟨hactive, hcheck⟩ := h
  cases hc : d.check M l.method l.top.fp l.bci with
  | mk fired d' =>
    obtain rfl : fired = true := by simpa only [hc] using hcheck
    exact ⟨d'.halt l.top.fp l.bci, by simp only [hook, hactive, hc, if_true]⟩

theorem hook_of_not_halts (vm : Vm μ σ) (h : ¬Halts M d l) : ∃ d', hook M vm l d = some (l.method, d') := by
  by_cases hactive : d.active = true
  · cases hc : d.check M l.method l.top.fp l.bci with
    | mk fired d' =>
      cases fired with
      | false => exact ⟨d', by simp only [hook, hactive, hc, if_true]⟩
      | true => exact absurd ⟨hactive, by rw [hc]⟩ h
  · exact ⟨d, if_neg hactive⟩

/-- Outside a dispatching loop the debugger does nothing. -/
theorem shown_debugStep_of_quiet
    (hquiet : ∀ l ls, vm.loops = l :: ls → l.phase ≠ .dispatching) :
    (debugStep G M (vm, d)).map shown = vm.step G := by
  unfold debugStep Vm.step
  cases hloops : vm.loops with
  | nil => simp only [Option.map_map, Function.comp_def, shown]
  | cons l ls =>
    have hphase := hquiet l ls hloops
    cases hp : l.phase with
    | dispatching => exact absurd hp hphase
    | _ => simp only [Option.map_map, Function.comp_def, shown]

/-- A step whose hook keeps the loop's method is the step without the debugger. -/
theorem shown_debugStep_of_hook (hloops : vm.loops = l :: ls) (hphase : l.phase = .dispatching)
    {d' : DebugState} (hhook : hook M vm l d = some (l.method, d')) :
    (debugStep G M (vm, d)).map shown = vm.step G := by
  simp only [debugStep, Vm.step, hloops, hphase, hhook, Option.map_some, shown]

/-- A halt in a loop the register does not serve: the loop stops at the failed `expect`, or
executes a bytecode of another method. -/
theorem shown_debugStep_ne (hloops : vm.loops = l :: ls) (hphase : l.phase = .dispatching)
    (hhalts : Halts M d l) (hne : vm.regs.method ≠ some l.method) :
    (debugStep G M (vm, d)).map shown ≠ vm.step G := by
  obtain ⟨d', hhook⟩ := hook_of_halts vm hhalts
  cases hregs : vm.regs.method with
  | none =>
    rw [hregs, Option.map_none] at hhook
    simp [debugStep, Vm.step, hloops, hphase, hhook]
  | some method =>
    rw [hregs, Option.map_some] at hhook
    intro heq
    simp only [debugStep, Vm.step, hloops, hphase, hhook, Option.map_some, shown, Option.some.injEq,
      Prod.mk.injEq, Vm.dispatch, List.cons.injEq, Event.mk.injEq] at heq
    exact hne (hregs.trans (congrArg some heq.1.1.2.1))

/-- The step lemma: in a state the run without the debugger can reach, the step is the same
if and only if the halt, if there is one, meets `Stamped`. -/
theorem shown_debugStep_iff (hmirror : Mirrored vm.regs vm.loops) :
    (debugStep G M (vm, d)).map shown = vm.step G ↔ Stamped M (vm, d) := by
  constructor
  · intro h l ls hloops hphase hhalts
    by_contra hbad
    rw [not_or] at hbad
    exact shown_debugStep_ne hloops hphase hhalts hbad.2 h
  · intro h
    by_cases hquiet : ∀ l ls, vm.loops = l :: ls → l.phase ≠ .dispatching
    · exact shown_debugStep_of_quiet hquiet
    · simp only [not_forall, not_not] at hquiet
      obtain ⟨l, ls, hloops, hphase⟩ := hquiet
      obtain ⟨hmethod, hregs⟩ := Mirrored.settled (hloops ▸ hmirror) hphase
      by_cases hhalts : Halts M d l
      · have hserves : vm.regs.method = some l.method := by
          rcases h l ls hloops hphase hhalts with hstamped | hsame
          · rw [hregs hstamped, hmethod]
          · exact hsame
        obtain ⟨d', hhook⟩ := hook_of_halts vm hhalts
        rw [hserves, Option.map_some] at hhook
        exact shown_debugStep_of_hook hloops hphase hhook
      · obtain ⟨d', hhook⟩ := hook_of_not_halts vm hhalts
        exact shown_debugStep_of_hook hloops hphase hhook

/-- A halt that meets `Stamped` goes on in the frame's method. -/
theorem goesOn_of_stamped (hmirror : Mirrored vm.regs vm.loops) (h : Stamped M (vm, d)) :
    GoesOn M (vm, d) := by
  intro l ls hloops hphase hhalts
  obtain ⟨hmethod, hregs⟩ := Mirrored.settled (hloops ▸ hmirror) hphase
  obtain ⟨d', hhook⟩ := hook_of_halts vm hhalts
  have hserves : vm.regs.method = some l.top.method := by
    rcases h l ls hloops hphase hhalts with hstamped | hsame
    · exact hregs hstamped
    · exact hsame.trans (congrArg some hmethod)
  exact ⟨d', by rw [hhook, hserves, Option.map_some]⟩

/-! ## Runs -/

/-- What the two runs execute and the states they reach are the same for `n` steps, and
every halt goes on in the method of the current frame. -/
def Transparent (G : Guest μ σ) (M : Methods μ) (n : Nat) (vm : Vm μ σ) (d : DebugState) :
    Prop :=
  (∀ k ≤ n, (debugRun G M k (vm, d)).map shown = run G k vm) ∧
    ∀ k < n, ∀ events s, debugRun G M k (vm, d) = some (events, s) → GoesOn M s

/-- Every halt of the first `n` steps meets `Stamped`. -/
def StampedRun (G : Guest μ σ) (M : Methods μ) (n : Nat) (vm : Vm μ σ) (d : DebugState) : Prop :=
  ∀ k < n, ∀ events s, debugRun G M k (vm, d) = some (events, s) → Stamped M s

/-- A prefix of the events put in front of a step. -/
def after (events : List (Event μ)) (r : List (Event μ) × Vm μ σ) : List (Event μ) × Vm μ σ :=
  (events ++ r.1, r.2)

theorem after_injective (events : List (Event μ)) :
    Function.Injective (after (σ := σ) events) := by
  rintro ⟨more, vm⟩ ⟨more', vm'⟩ h
  simp only [after, Prod.mk.injEq, List.append_cancel_left_eq] at h
  rw [h.1, h.2]

theorem run_succ {n : Nat} {start : Vm μ σ} {events : List (Event μ)}
    (hrun : run G n start = some (events, vm)) :
    run G (n + 1) start = (vm.step G).map (after events) := by
  simp only [run, hrun, Option.bind_eq_bind, Option.bind_some]
  cases vm.step G <;> rfl

theorem shown_debugRun_succ {n : Nat} {start : Vm μ σ × DebugState} {events : List (Event μ)}
    {s : Vm μ σ × DebugState} (hrun : debugRun G M n start = some (events, s)) :
    (debugRun G M (n + 1) start).map shown
      = ((debugStep G M s).map shown).map (after events) := by
  simp only [debugRun, hrun, Option.bind_eq_bind, Option.bind_some]
  cases debugStep G M s <;> rfl

variable {n : Nat} {data : σ}

/-- A state the run under the debugger reaches after the same events as the run without it
is a state of that run. -/
theorem mirrored_of_shown {events : List (Event μ)} {s : Vm μ σ × DebugState}
    (hsame : (debugRun G M n (Vm.fresh data, d)).map shown = run G n (Vm.fresh data))
    (hrun : debugRun G M n (Vm.fresh data, d) = some (events, s)) :
    run G n (Vm.fresh data) = some (events, s.1) ∧ Mirrored s.1.regs s.1.loops := by
  have hplain : run G n (Vm.fresh data) = some (events, s.1) := by
    rw [← hsame, hrun, Option.map_some, shown]
  exact ⟨hplain, Vm.mirrored_run hplain⟩

/-- The run lemma. -/
theorem shown_debugRun (h : StampedRun G M n (Vm.fresh data) d) :
    (debugRun G M n (Vm.fresh data, d)).map shown = run G n (Vm.fresh data) := by
  induction n with
  | zero => rfl
  | succ n ih =>
    have hsame := ih fun k hk => h k (Nat.lt_succ_of_lt hk)
    cases hrun : debugRun G M n (Vm.fresh data, d) with
    | none =>
      rw [hrun, Option.map_none] at hsame
      simp only [debugRun, run, hrun, ← hsame, Option.bind_eq_bind, Option.bind_none,
        Option.map_none]
    | some r =>
      obtain ⟨events, vm, d'⟩ := r
      obtain ⟨hplain, hmirror⟩ := mirrored_of_shown hsame hrun
      have hstep : (debugStep G M (vm, d')).map shown = vm.step G :=
        (shown_debugStep_iff hmirror).mpr (h n (Nat.lt_succ_self n) _ _ hrun)
      rw [shown_debugRun_succ hrun, run_succ hplain, hstep]

end

/-! ## A breakpoint in a method called from compiled code -/

/-- A guest that follows a script. -/
def scripted : Guest Nat (List (Arm ⊕ Move Nat)) where
  execute vm := match vm.data with
    | .inl arm :: rest => (rest, arm)
    | rest => (rest, .giveBack)
  runtime vm := match vm.data with
    | .inr move :: rest => (rest, move)
    | rest => (rest, .work)

/-- Method 0 runs from the top level and sends to compiled code, which calls method 1 back
in the interpreter. -/
def callsBack : List (Arm ⊕ Move Nat) :=
  [.inr (.runEntry 0 0), .inl (.call 1), .inr (.runEntry 1 8), .inl (.goto 1)]

/-- A breakpoint on the first bytecode of method 1. -/
def atCallee : DebugState where
  active := true
  breakpoints hash bci := if hash = 1 ∧ bci = 0 then some "callee" else none
  step := none
  sessionDepth := 0
  session := []

def scriptMethods : Methods Nat where
  hasBp m := m = 1
  identityHash m := m
  selector m := if m = 1 then "callee" else "caller"

end WinVm.Debugger
