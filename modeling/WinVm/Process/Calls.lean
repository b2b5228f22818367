import WinVm.Process.Represents

/-!
# Leaving a frame

A call is seen from both ends. `Calling` is the state before it, with the receiver at `base`
and the arguments above; `Called` is any later state in which the callee's frame is the
active one. From there the frame is left in one of three ways, each read off the routine
that does it:

* `Called.doReturn`: a return delivers the value at `base`;
* `Called.skip`: an unwind passes an unarmed frame and goes on from its caller;
* `Called.catch`: an unwind that has reached its home returns from it.

An unwind is never followed through the entry frame of a nested run: `Unwinds` says that the
scan stops before it.
-/

namespace WinVm.Process

open Lib

/-- A computation that has its value goes on with it. -/
theorem ok_bind {α β : Type} (a : α) (f : α → Except Fault β) : (Except.ok a >>= f) = f a := rfl

section
variable {σ : Type} {G : Guest σ}

namespace Vm

/-- From `vm` the machine gets to a state in `P`, or exhausts the process stack. -/
def Reaches (G : Guest σ) (P : Vm σ → Prop) (vm : Vm σ) : Prop :=
  Reach (fun s => s.step G) Overflow P vm

/-- The routine `x` leaves a state from which the machine gets to `P`. -/
def After (G : Guest σ) (P : Vm σ → Prop) (x : Except Fault (Vm σ)) : Prop :=
  Yields Overflow (Reaches G P) x

variable {P : Vm σ → Prop} {vm vm₀ vm₁ vm₂ : Vm σ} {W W₀ W' : World σ} {live : List Nat} {k : Bool}
  {base m id : Nat}

theorem reaches_of_step (h : After G P (vm.step G)) : Reaches G P vm := Reach.of_yields h

/-! ## Calls -/

/-- Where a return to a frame of the method `m` goes on. -/
def resumeControl (m bci : Nat) : Control :=
  if bci = bciResumeEnsureRet then .resumeEnsureRet
  else if bci = bciResumeUnwind then .resumeUnwind
  else .dispatch m bci

/-- The state before a call with its receiver at `base`: from the active frame, or, when
`entry` is set, as the entry of an interpreter run. -/
structure Calling (G : Guest σ) (vm : Vm σ) (W : World σ) (live : List Nat) (entry : Bool)
    (base : Nat) : Prop where
  shows : vm.Shows G W
  live : ∀ h ∈ live, ∃ a ∈ vm.ledger, a.id = h
  grounded : Grounded vm.stack vm.ledger vm.nextFrameSerial base
  cap : vm.stack.sp ≤ stackCapacity
  active : entry = false → ∃ m id rest, vm.ledger = ⟨vm.stack.fp, id⟩ :: rest ∧
    vm.stack.slots vm.stack.fp = .method m ∧ vm.floor G m ≤ base ∧
    vm.regs.bci < bciResumeCannotReturn

/-- The active frame is that of the call made in `vm₀`, running the method `m`. -/
structure Called (G : Guest σ) (vm₀ : Vm σ) (entry : Bool) (base m id : Nat) (vm : Vm σ) : Prop where
  grows : Grows vm₀ vm
  ledger : vm.ledger = ⟨vm.stack.fp, id⟩ :: vm₀.ledger
  later : vm₀.nextFrameSerial ≤ id
  fresh : id < vm.nextFrameSerial
  serial : readSerial (vm.stack.slots (vm.stack.fp + 5)) = some (id % 2 ^ 32)
  method : vm.stack.slots vm.stack.fp = .method m
  at_ : vm.stack.fp = base + (G.method m).argc + 1
  savedFp : vm.stack.slots (vm.stack.fp + 1) = .smi (vm₀.linkOf entry)
  savedBci : ∃ b : Nat, vm.stack.slots (vm.stack.fp + 2) = .smi b ∧ (entry = false → b = vm₀.regs.bci)
  below : ∀ i < base, vm.stack.slots i = vm₀.stack.slots i

/-- The call has returned `v`. -/
structure Returned (G : Guest σ) (vm₀ : Vm σ) (entry : Bool) (base : Nat) (v : Oop) (W : World σ)
    (vm : Vm σ) : Prop where
  shows : vm.Shows G W
  grows : Grows vm₀ vm
  ledger : vm.ledger = vm₀.ledger
  below : ∀ i < base, vm.stack.slots i = vm₀.stack.slots i
  delivered : if entry then vm.stack.sp = base ∧ vm.control = .returned v
    else vm.stack.fp = vm₀.stack.fp ∧ vm.stack.sp = base + 1 ∧ vm.stack.slots base = v ∧
      ∀ m, vm₀.stack.slots vm₀.stack.fp = .method m → vm.control = resumeControl m vm₀.regs.bci

/-- The call has been left by an unwind that goes on from the caller's frame. -/
structure Passed (G : Guest σ) (vm₀ : Vm σ) (base : Nat) (W : World σ) (vm : Vm σ) : Prop where
  shows : vm.Shows G W
  grows : Grows vm₀ vm
  ledger : vm.ledger = vm₀.ledger
  fp : vm.stack.fp = vm₀.stack.fp
  below : ∀ i < base, vm.stack.slots i = vm₀.stack.slots i
  above : base ≤ vm.stack.sp
  cap : vm.stack.sp ≤ stackCapacity

/-- The scan for armed frames stopped inside the interpreter run it started in. -/
def ScanResult.Inside : ScanResult → Prop
  | .crossedBoundary _ => False
  | _ => True

/-- The non-local return of `v` to `ref`, continued from the active frame, gets to `P`. -/
structure Unwinds (G : Guest σ) (P : Vm σ → Prop) (ref : HomeRef) (v : Oop) (vm : Vm σ) : Prop where
  scan : ∃ s, innermostMarkedFrame vm.stack (vm.stack.fp + 1) vm.stack.fp ref.fp = .ok s ∧ s.Inside
  after : ∀ origin, After G P (vm.continueUnwind G ref v origin)

/-- Both ways a call can end lead to `P`. A non-local return that leaves a nested run is not
followed. -/
def Ends (G : Guest σ) (P : Vm σ → Prop) (vm : Vm σ) (live : List Nat) (entry : Bool) (base : Nat)
    (W : World σ) : Outcome → Prop
  | .ret v => ∀ vm', Returned G vm entry base v W vm' → Reaches G P vm'
  | .nlr h v => entry = false ∧ (h ∈ live → ∀ vm' ref, Passed G vm base W vm' →
      Names vm'.ledger vm'.nextFrameSerial ref h → Unwinds G P ref v vm')

/-- Both ways an activation can end lead to `P`. -/
def Exits (G : Guest σ) (P : Vm σ → Prop) (vm : Vm σ) (live : List Nat) : Outcome → Prop
  | .ret v => After G P (vm.doReturn G v)
  | .nlr h v => h ∈ live → ∀ ref, Names vm.ledger vm.nextFrameSerial ref h → Unwinds G P ref v vm

theorem Passed.same {base' : Nat} (h : Passed G vm₀ base W vm) (hbase : base' < base)
    (hfp : vm₀.stack.fp + 7 ≤ base) : Same base' vm₀ vm :=
  .of_slots h.grows h.fp h.ledger fun i hi => h.below i (by omega)

theorem Returned.same {base' : Nat} {v : Oop} (h : Returned G vm₀ false base v W vm)
    (hbase : base' < base) (hfp : vm₀.stack.fp + 7 ≤ base) : Same base' vm₀ vm :=
  .of_slots h.grows h.delivered.1 h.ledger fun i hi => h.below i (by omega)

theorem Called.framed (h : Called G vm₀ k base m id vm) (hs : Framed base vm vm₁) :
    Called G vm₀ k base m id vm₁ := by
  obtain ⟨b, hb, hbci⟩ := h.savedBci
  have hnext := hs.grows.next
  have hfresh := h.fresh
  refine ⟨h.grows.trans hs.grows, ?_, h.later, by omega, ?_, ?_, ?_, ?_, ⟨b, ?_, hbci⟩, ?_⟩
  · rw [hs.ledger, hs.fp, h.ledger]
  · rw [hs.fp, hs.serial, h.serial]
  · rw [hs.fp]
    exact (hs.header 0 (by decide)).trans h.method
  · rw [hs.fp, h.at_]
  · rw [hs.fp, hs.header 1 (by decide), h.savedFp]
  · rw [hs.fp, hs.header 2 (by decide), hb]
  · intro i hi
    rw [hs.below i (by omega), h.below i hi]

/-- The frames under the callee, and the callee's own. -/
theorem Called.grounded {top : Nat} (h : Called G vm₀ k base m id vm)
    (hg : Grounded vm₀.stack vm₀.ledger vm₀.nextFrameSerial base) (htop : vm.stack.fp + 7 ≤ top) :
    Grounded vm.stack vm.ledger vm.nextFrameSerial top := by
  have hbase := h.at_
  rw [h.ledger]
  have hlow : Grounded vm.stack vm₀.ledger id base :=
    (hg.congr h.below).mono h.later (Nat.le_refl _)
  exact Grounded.cons (a := ⟨vm.stack.fp, id⟩) hlow (by omega) h.fresh htop h.serial

theorem Called.frameMethodId (h : Called G vm₀ k base m id vm) :
    vm.stack.frameMethodId vm.stack.fp = .ok m := frameMethodId_eq h.method

theorem Called.base_eq (h : Called G vm₀ k base m id vm) :
    vm.stack.fp - (G.method m).argc - 1 = base := by
  have hbase := h.at_
  omega

/-! ## Returning -/

/-- What `pop_and_deliver` does from the frame of a call. -/
theorem Called.popAndDeliver {v : Oop} (hc : Calling G vm₀ W₀ live k base)
    (h : Called G vm₀ k base m id vm) (hshows : vm.Shows G W)
    (hend : Ends G P vm₀ live k base W (.ret v)) : After G P (vm.popAndDeliver G v) := by
  obtain ⟨b, hb, hbci⟩ := h.savedBci
  have hbase := h.base_eq
  have hother : ∀ i < base, (vm.stack.set base v).slots i = vm₀.stack.slots i := by
    intro i hi
    rw [vm.stack.set_slots_ne v (Nat.ne_of_lt hi), h.below i hi]
  have htail : ∀ a ∈ vm.ledger.tail, a ∈ vm.ledger := fun a ha => List.mem_of_mem_tail ha
  have hgrows := h.grows
  unfold Vm.popAndDeliver
  simp only [h.frameMethodId, ProcessStack.savedFp, ProcessStack.savedBci, frameSavedFp,
    frameSavedBci, h.savedFp, hb, Oop.asSmi, Except.map, hbase, ok_bind]
  cases k with
  | true =>
    rw [if_pos (show vm₀.linkOf true = entryFrameSentinel from rfl)]
    refine hend _ ⟨hshows.congr rfl rfl rfl rfl rfl htail, hgrows.congr rfl rfl rfl rfl, ?_, hother, rfl, rfl⟩
    show vm.ledger.tail = _
    rw [h.ledger, List.tail_cons]
  | false =>
    obtain ⟨m₀, id₀, rest, hledger, hm₀, hfloor, hbound⟩ := hc.active rfl
    obtain rfl := hbci rfl
    have hlink : vm₀.linkOf false ≠ entryFrameSentinel := by
      show ((vm₀.stack.fp : Nat) : Int) ≠ -1
      omega
    have hback : (((vm₀.regs.bci : Nat) : Int) % 2 ^ 64).toNat = vm₀.regs.bci := by
      unfold bciResumeCannotReturn at hbound
      omega
    rw [if_neg hlink, hback]
    have hend' : ∀ (regs : Regs) (c : Control), c = resumeControl m₀ vm₀.regs.bci →
        Reaches G P { vm with
          stack := ((vm.stack.set base v).withSp (base + 1)).activateFrame vm₀.stack.fp
          ledger := vm.ledger.tail
          regs := regs
          control := c } := by
      intro regs c hcontrol
      refine hend _ ⟨hshows.congr rfl rfl rfl rfl rfl htail, hgrows.congr rfl rfl rfl rfl, ?_, hother, rfl, rfl,
        vm.stack.set_slots_self _ _, ?_⟩
      · show vm.ledger.tail = _
        rw [h.ledger, List.tail_cons]
      · intro m' hm'
        rw [hm₀] at hm'
        obtain rfl := Oop.method.inj hm'
        exact hcontrol
    unfold resumeControl at hend'
    have hcaller : (((vm.stack.set base v).withSp (base + 1)).activateFrame
        vm₀.stack.fp).frameMethodId vm₀.stack.fp = .ok m₀ := by
      apply frameMethodId_eq
      unfold floor at hfloor
      exact (hother _ (by omega)).trans hm₀
    split
    · rename_i heq
      exact hend' _ _ (if_pos heq).symm
    · rename_i hne
      split
      · rename_i heq
        exact hend' _ _ (by rw [if_neg hne, if_pos heq])
      · rename_i hne'
        rw [if_neg (by omega)]
        refine Yields.bind (Q := fun caller => caller = m₀) ?_ ?_
        · show Yields Overflow _ (ProcessStack.frameMethodId
            (((vm.stack.set base v).withSp (base + 1)).activateFrame vm₀.stack.fp) vm₀.stack.fp)
          rw [hcaller]
          exact rfl
        · rintro caller rfl
          exact hend' _ _ (by rw [if_neg hne, if_neg hne'])

/-- A return from an unarmed frame. -/
theorem Called.doReturn {v : Oop} (hc : Calling G vm₀ W₀ live k base)
    (h : Called G vm₀ k base m id vm) (hmark : vm.stack.slots (vm.stack.fp + 6) = .nil)
    (hshows : vm.Shows G W) (hend : Ends G P vm₀ live k base W (.ret v)) :
    After G P (vm.doReturn G v) := by
  unfold Vm.doReturn
  simp only [markerClass, ProcessStack.marker, frameMarker, hmark]
  exact h.popAndDeliver hc hshows hend

/-! ## Unwinding -/

variable {st st' : ProcessStack} {fuel fuel' fp target : Nat}

/-- The scan reads the slots only. -/
theorem scan_congr (h : st'.slots = st.slots) (fuel fp target : Nat) :
    innermostMarkedFrame st' fuel fp target = innermostMarkedFrame st fuel fp target := by
  induction fuel generalizing fp with
  | zero => rfl
  | succ fuel ih =>
    simp only [innermostMarkedFrame, markerClass, ProcessStack.marker, ProcessStack.savedFp, h, ih]

theorem walkTo_congr (h : st'.slots = st.slots) (fuel fp target : Nat) :
    walkTo st' fuel fp target = walkTo st fuel fp target := by
  induction fuel generalizing fp with
  | zero => rfl
  | succ fuel ih => simp only [walkTo, ProcessStack.savedFp, h, ih]

/-- Once it has an answer, the scan keeps it under more fuel. -/
theorem scan_mono {s : ScanResult} (h : innermostMarkedFrame st fuel fp target = .ok s)
    (hle : fuel ≤ fuel') : innermostMarkedFrame st fuel' fp target = .ok s := by
  induction fuel generalizing fp fuel' with
  | zero => cases h
  | succ fuel ih =>
    obtain ⟨more, rfl⟩ := Nat.exists_eq_add_of_le hle
    rw [show fuel + 1 + more = (fuel + more) + 1 by omega]
    unfold innermostMarkedFrame at h ⊢
    split
    · rename_i heq
      rw [if_pos heq] at h
      exact h
    · rename_i hne
      rw [if_neg hne] at h
      obtain ⟨mark, hmark, h⟩ := bind_ok h
      rw [hmark, ok_bind]
      cases mark with
      | handler c => exact h
      | none =>
        obtain ⟨link, hlink, h⟩ := bind_ok h
        simp only [hlink, ok_bind]
        split
        · rename_i hentry
          rw [if_pos hentry] at h
          exact h
        · rename_i hentry
          rw [if_neg hentry] at h
          exact ih h (Nat.le_add_right _ _)
      | token t =>
        obtain ⟨link, hlink, h⟩ := bind_ok h
        simp only [hlink, ok_bind]
        split
        · rename_i hentry
          rw [if_pos hentry] at h
          exact h
        · rename_i hentry
          rw [if_neg hentry] at h
          exact ih h (Nat.le_add_right _ _)

theorem walkTo_mono {u : Unit} (h : walkTo st fuel fp target = .ok u) (hle : fuel ≤ fuel') :
    walkTo st fuel' fp target = .ok u := by
  induction fuel generalizing fp fuel' with
  | zero => cases h
  | succ fuel ih =>
    obtain ⟨more, rfl⟩ := Nat.exists_eq_add_of_le hle
    rw [show fuel + 1 + more = (fuel + more) + 1 by omega]
    unfold walkTo at h ⊢
    split
    · rfl
    · rename_i hne
      rw [if_neg hne] at h
      obtain ⟨link, hlink, h⟩ := bind_ok h
      rw [hlink, ok_bind]
      split
      · rename_i hentry
        rw [if_pos hentry] at h
        cases h
      · rename_i hentry
        rw [if_neg hentry] at h
        exact ih h (Nat.le_add_right _ _)

/-- The frame a scan stops at is armed. -/
theorem scan_marked {mfp : Nat} {handler : Oop}
    (h : innermostMarkedFrame st fuel fp target = .ok (.marked mfp handler)) :
    markerClass st mfp = .ok (.handler handler) := by
  induction fuel generalizing fp with
  | zero => cases h
  | succ fuel ih =>
    unfold innermostMarkedFrame at h
    split at h
    · cases h
    · obtain ⟨mark, hmark, h⟩ := bind_ok h
      split at h
      · obtain ⟨rfl, rfl⟩ := ScanResult.marked.inj (Except.ok.inj h)
        exact hmark
      · obtain ⟨link, hlink, h⟩ := bind_ok h
        split at h
        · cases h
        · exact ih h

/-- The frame is not armed: no marker, or the token of an unwind it has already been part of. -/
def Unarmed (vm : Vm σ) : Prop :=
  vm.stack.slots (vm.stack.fp + 6) = .nil ∨ ∃ t, vm.stack.slots (vm.stack.fp + 6) = .token t

theorem Unarmed.markerClass_eq (h : vm.Unarmed) :
    ∃ c, markerClass vm.stack vm.stack.fp = .ok c ∧ ∀ handler, c ≠ .handler handler := by
  simp only [markerClass, ProcessStack.marker, frameMarker]
  rcases h with h | ⟨t, h⟩ <;> rw [h]
  · exact ⟨_, rfl, nofun⟩
  · exact ⟨_, rfl, nofun⟩

/-- A home among the frames is found live. -/
theorem homeIsLive_of_names {ref : HomeRef} {h top next : Nat} {ledger : List Activation}
    (hg : Grounded vm.stack ledger next top) (hsp : top ≤ vm.stack.sp)
    (hn : Names ledger next ref h) (hlive : ∃ a ∈ ledger, a.id = h) : vm.homeIsLive ref = true := by
  obtain ⟨a, ha, rfl⟩ := hlive
  have hfp := hn.fp a ha rfl
  have htop := hg.below a ha
  rw [homeIsLive_eq hn.proc, ← hfp, hn.serial]
  exact ⟨by omega, hg.serial a ha⟩

/-- The state with the caller's frame active again, and the callee's words still above. -/
def toCaller (vm₀ vm : Vm σ) : Vm σ :=
  { vm with stack := { vm.stack with fp := vm₀.stack.fp }, ledger := vm₀.ledger }

/-- A scan from an unarmed frame that is not the home is a scan from its caller. -/
theorem Called.scan {ref : HomeRef} {s : ScanResult} (h : Called G vm₀ false base m id vm)
    (hfloor : vm₀.stack.fp + 7 ≤ base) (hmark : vm.Unarmed) (hne : vm.stack.fp ≠ ref.fp)
    (hs : innermostMarkedFrame vm.stack (vm₀.stack.fp + 1) vm₀.stack.fp ref.fp = .ok s) :
    innermostMarkedFrame vm.stack (vm.stack.fp + 1) vm.stack.fp ref.fp = .ok s := by
  have hbase := h.at_
  obtain ⟨c, hc, hno⟩ := hmark.markerClass_eq
  have hlink : vm.stack.savedFp vm.stack.fp = .ok (vm₀.stack.fp : Int) := by
    simp only [ProcessStack.savedFp, frameSavedFp, h.savedFp]
    rfl
  have hentry : ((vm₀.stack.fp : Nat) : Int) ≠ entryFrameSentinel := by
    unfold entryFrameSentinel
    omega
  have hrest : innermostMarkedFrame vm.stack vm.stack.fp vm₀.stack.fp ref.fp = .ok s :=
    scan_mono hs (by omega)
  rw [innermostMarkedFrame, if_neg hne, hc, ok_bind]
  cases c with
  | handler c => exact absurd rfl (hno c)
  | none =>
    simp only [hlink, ok_bind, if_neg hentry, Int.toNat_natCast]
    exact hrest
  | token t =>
    simp only [hlink, ok_bind, if_neg hentry, Int.toNat_natCast]
    exact hrest

/-- Popping to a frame below the callee is popping to it from the caller. -/
theorem Called.popFramesAbove (h : Called G vm₀ false base m id vm)
    (hfloor : vm₀.stack.fp + 7 ≤ base) (hne : vm.stack.fp ≠ target)
    (hpop : (toCaller vm₀ vm).popFramesAbove G target = .ok vm₁) :
    vm.popFramesAbove G target = .ok vm₁ := by
  have hbase := h.at_
  obtain ⟨u, hwalk, hpop⟩ := bind_ok hpop
  obtain ⟨floor, hfl, hpop⟩ := bind_ok hpop
  have hlink : vm.stack.savedFp vm.stack.fp = .ok (vm₀.stack.fp : Int) := by
    simp only [ProcessStack.savedFp, frameSavedFp, h.savedFp]
    rfl
  have hentry : ((vm₀.stack.fp : Nat) : Int) ≠ entryFrameSentinel := by
    unfold entryFrameSentinel
    omega
  have hwalk' : walkTo vm.stack (vm.stack.fp + 1) vm.stack.fp target = .ok u := by
    rw [@walkTo_congr vm.stack (toCaller vm₀ vm).stack rfl] at hwalk
    rw [walkTo, if_neg hne]
    simp only [hlink, ok_bind, if_neg hentry, Int.toNat_natCast]
    exact walkTo_mono hwalk (by show vm₀.stack.fp + 1 ≤ _; omega)
  have hdrop : vm.ledger.dropWhile (fun a => a.fp ≠ target) =
      vm₀.ledger.dropWhile fun a => a.fp ≠ target := by
    rw [h.ledger, List.dropWhile_cons_of_pos (by simpa using hne)]
  unfold Vm.popFramesAbove
  rw [hwalk', ok_bind]
  rw [show vm.stack.operandFloor G target = .ok floor from hfl, ok_bind, hdrop]
  exact hpop

/-- Popping frames pushes nothing. -/
theorem popFramesAbove_ne_overflow (vm : Vm σ) (target : Nat) :
    vm.popFramesAbove G target ≠ .error .stackOverflow := by
  have hsaved : ∀ fp, vm.stack.savedFp fp ≠ .error .stackOverflow := by
    intro fp
    unfold ProcessStack.savedFp Oop.asSmi
    split <;> simp
  have hwalk : ∀ fuel fp, walkTo vm.stack fuel fp target ≠ .error .stackOverflow := by
    intro fuel
    induction fuel with
    | zero => simp [walkTo]
    | succ fuel ih =>
      intro fp h
      unfold walkTo at h
      split at h
      · cases h
      · cases hs : vm.stack.savedFp fp with
        | error e =>
          rw [hs] at h
          exact hsaved fp (hs.trans (congrArg Except.error (Except.error.inj h)))
        | ok link =>
          rw [hs, ok_bind] at h
          split at h
          · cases h
          · exact ih _ h
  intro h
  unfold Vm.popFramesAbove at h
  cases hw : walkTo vm.stack (vm.stack.fp + 1) vm.stack.fp target with
  | error e =>
    rw [hw] at h
    exact hwalk _ _ (hw.trans (congrArg Except.error (Except.error.inj h)))
  | ok u =>
    rw [hw, ok_bind] at h
    unfold ProcessStack.operandFloor ProcessStack.frameMethodId at h
    split at h <;> cases h

theorem not_usizeMax {fp : Nat} (h : fp ≤ stackCapacity) : fp ≠ usizeMax := by
  unfold stackCapacity at h
  unfold usizeMax
  omega

/-- An unwind passes an unarmed frame that is not its home. -/
theorem Called.skip {ref : HomeRef} {v : Oop} (hc : Calling G vm₀ W₀ live false base)
    (h : Called G vm₀ false base m id vm) (hmark : vm.Unarmed) (hne : vm.stack.fp ≠ ref.fp)
    (hlive : vm.homeIsLive ref = true) (hcap : vm.stack.fp ≤ stackCapacity)
    (hu : Unwinds G P ref v (toCaller vm₀ vm)) : Unwinds G P ref v vm := by
  obtain ⟨m₀, -, -, -, -, hfloor, -⟩ := hc.active rfl
  have hbase := h.at_
  have hfp : vm₀.stack.fp + 7 ≤ base := Nat.le_trans (Nat.le_add_right _ _) hfloor
  obtain ⟨s, hscan, hin⟩ := hu.scan
  have hscan₀ := hscan
  rw [@scan_congr vm.stack (toCaller vm₀ vm).stack rfl] at hscan
  have hscan' := h.scan hfp hmark hne hscan
  refine ⟨⟨s, hscan', hin⟩, fun origin => ?_⟩
  have hafter := hu.after origin
  have hlive₀ : (toCaller vm₀ vm).homeIsLive ref = true := hlive
  have hmax₀ : (toCaller vm₀ vm).stack.fp ≠ usizeMax :=
    not_usizeMax (by show vm₀.stack.fp ≤ _; omega)
  unfold continueUnwind at hafter ⊢
  rw [if_neg hmax₀, hlive₀, if_neg (by decide), hscan₀, ok_bind] at hafter
  rw [if_neg (not_usizeMax hcap), hlive, if_neg (by decide), hscan', ok_bind]
  -- popping gives one and the same state from both frames
  have hpop : ∀ {t : Nat} {f : Vm σ → Except Fault (Vm σ)}, vm.stack.fp ≠ t →
      After G P ((toCaller vm₀ vm).popFramesAbove G t >>= f) →
      After G P (vm.popFramesAbove G t >>= f) := by
    intro t f ht hx
    cases hpop : (toCaller vm₀ vm).popFramesAbove G t with
    | ok vm₁ =>
      rw [hpop] at hx
      rw [h.popFramesAbove hfp ht hpop]
      exact hx
    | error e =>
      rw [hpop] at hx
      have hov : e = .stackOverflow := hx
      subst hov
      exact absurd hpop (popFramesAbove_ne_overflow _ _)
  cases s with
  | crossedBoundary e => exact hin.elim
  | reachedHome => exact hpop hne hafter
  | marked mfp handler =>
    have harm := scan_marked hscan
    obtain ⟨c, hcls, hno⟩ := hmark.markerClass_eq
    refine hpop ?_ hafter
    rintro rfl
    rw [hcls] at harm
    exact hno _ (Except.ok.inj harm)

/-- An unwind to a home further down leaves an unarmed frame. -/
theorem Called.pass {ref : HomeRef} {v : Oop} {h : Nat} (hc : Calling G vm₀ W₀ live false base)
    (hcall : Called G vm₀ false base m id vm) (hmark : vm.Unarmed) (hshows : vm.Shows G W)
    (hroom : vm.stack.fp + 7 ≤ vm.stack.sp) (hcap : vm.stack.sp ≤ stackCapacity) (hlive : h ∈ live)
    (hn : Names vm.ledger vm.nextFrameSerial ref h)
    (hend : Ends G P vm₀ live false base W (.nlr h v)) : Unwinds G P ref v vm := by
  have hbase := hcall.at_
  obtain ⟨a, ha, hid⟩ := hc.live h hlive
  have hmem : a ∈ vm.ledger := by
    rw [hcall.ledger]
    exact List.mem_cons_of_mem _ ha
  have hbelow := hc.grounded.below a ha
  have hfp := hn.fp a hmem hid
  have hsub : ∀ b ∈ vm₀.ledger, b ∈ vm.ledger := by
    rw [hcall.ledger]
    exact fun b hb => List.mem_cons_of_mem _ hb
  have hpassed : Passed G vm₀ base W (toCaller vm₀ vm) := by
    refine ⟨hshows.congr rfl rfl rfl rfl rfl hsub, hcall.grows.congr rfl rfl rfl rfl, rfl, rfl,
      hcall.below, ?_, hcap⟩
    show base ≤ vm.stack.sp
    omega
  have hisLive := homeIsLive_of_names (hcall.grounded hc.grounded (Nat.le_refl _)) hroom hn ⟨a, hmem, hid⟩
  refine hcall.skip hc hmark (by omega) hisLive (by omega) ?_
  exact hend.2 hlive _ ref hpassed (hn.mono (fun b hb => .inl (hsub b hb)) (Nat.le_refl _))

/-- The active frame with its operands dropped, as `pop_frames_above` leaves it. -/
def emptied (G : Guest σ) (vm : Vm σ) (m : Nat) : Vm σ :=
  vm.withStack ((vm.stack.activateFrame vm.stack.fp).withSp (vm.floor G m))

theorem Called.popFramesAbove_self (h : Called G vm₀ k base m id vm) :
    vm.popFramesAbove G vm.stack.fp = .ok (vm.emptied G m) := by
  have hdrop : vm.ledger.dropWhile (fun a => a.fp ≠ vm.stack.fp) = vm.ledger := by
    rw [h.ledger, List.dropWhile_cons_of_neg (by simp)]
  unfold Vm.popFramesAbove
  rw [walkTo, if_pos rfl, ok_bind, ProcessStack.operandFloor, h.frameMethodId, hdrop]
  rfl

/-- An unwind that has reached its home returns from it. -/
theorem Called.catch {ref : HomeRef} {v : Oop} (hc : Calling G vm₀ W₀ live k base)
    (h : Called G vm₀ k base m id vm) (hroom : vm.stack.fp + 7 ≤ vm.stack.sp)
    (hcap : vm.stack.sp ≤ stackCapacity) (hn : Names vm.ledger vm.nextFrameSerial ref id)
    (hafter : After G P ((vm.emptied G m).doReturn G v)) : Unwinds G P ref v vm := by
  have hhead : (⟨vm.stack.fp, id⟩ : Activation) ∈ vm.ledger := by
    rw [h.ledger]
    exact List.mem_cons_self
  have hfp : vm.stack.fp = ref.fp := hn.fp _ hhead rfl
  have hscan : innermostMarkedFrame vm.stack (vm.stack.fp + 1) vm.stack.fp ref.fp =
      .ok .reachedHome := by
    rw [innermostMarkedFrame, if_pos hfp]
  have hlive := homeIsLive_of_names (h.grounded hc.grounded (Nat.le_refl _)) hroom hn ⟨_, hhead, rfl⟩
  refine ⟨⟨_, hscan, trivial⟩, fun origin => ?_⟩
  unfold continueUnwind
  rw [if_neg (not_usizeMax (by omega)), hlive, if_neg (by decide), hscan, ok_bind]
  simp only [← hfp, h.popFramesAbove_self, ok_bind]
  exact hafter

/-! ## Entering -/

/-- The frame of a call, entered: it stands for a fresh activation. -/
theorem Calling.enter {e : Entry} {cs : List Context} {args : List Oop} {live' : List Nat} {home : Nat}
    (hc : Calling G vm W live k base) (hsp : vm.stack.sp = base + 1 + args.length)
    (hargs : vm.stack.Holds (base + 1) args) (hargc : (G.method e.mid).argc = args.length)
    (hroom : vm.stack.sp + 7 + (G.method e.mid).ntemps ≤ stackCapacity)
    (htemps : e.temps.length = (G.method e.mid).ntemps) (hlink : e.savedFp = vm.linkOf k)
    (hbci : k = false → e.savedBci = vm.regs.bci) (hlive : ∀ h ∈ live', h = W.next ∨ h ∈ live)
    (hhome : if (G.method e.mid).isBlock then
        ∃ c cl, vm.stack.slots base = .closure c ∧ vm.closures[c]? = some cl ∧
          Names vm.ledger vm.nextFrameSerial (unpackHomeRef cl.home) home
      else home = W.next) :
    (vm.enter e cs).Represents G { W with next := W.next + 1, contexts := W.contexts ++ cs } live'
        ⟨W.next, home, e.mid, e.receiver, args, e.temps, e.context, []⟩ ∧
      Called G vm k base e.mid W.next (vm.enter e cs) ∧
      (vm.enter e cs).stack.slots ((vm.enter e cs).stack.fp + 6) = .nil := by
  have hnext := hc.shows.next
  have hfp : (vm.enter e cs).stack.fp = vm.stack.sp := rfl
  have hledger : (vm.enter e cs).ledger = ⟨vm.stack.sp, W.next⟩ :: vm.ledger := by
    rw [← hnext]
    rfl
  have hlow : ∀ i < vm.stack.sp, (vm.enter e cs).stack.slots i = vm.stack.slots i :=
    fun i hi => enter_slots_lt hi
  have hend : (vm.enter e cs).stack.sp = vm.stack.sp + 7 + (G.method e.mid).ntemps := by
    show vm.stack.sp + (Entry.words e _).length = _
    rw [Entry.words, List.length_append, length_headerWords, htemps, ← Nat.add_assoc]
  have hserial : readSerial ((vm.enter e cs).stack.slots (vm.stack.sp + 5)) = some (W.next % 2 ^ 32) := by
    rw [enter_slots_at (k := 5) rfl, readSerial, hnext,
      serialBits_ofNat (Nat.mod_lt _ (Nat.two_pow_pos 32))]
  have hwords := @ProcessStack.holds_write vm.stack (Entry.words e (vm.nextFrameSerial % 2 ^ 32))
  rw [Entry.words, ProcessStack.holds_append, length_headerWords] at hwords
  have hbase : (vm.enter e cs).receiverBase G e.mid = base := by
    rw [receiverBase, hfp, hsp, hargc]
    omega
  have hground : Grounded (vm.enter e cs).stack vm.ledger W.next base := by
    rw [← hnext]
    exact hc.grounded.congr fun i hi => hlow i (by omega)
  have hnew : ∀ a ∈ (vm.enter e cs).ledger, a ∈ vm.ledger ∨ vm.nextFrameSerial ≤ a.id := by
    intro a ha
    rw [hledger] at ha
    rcases List.mem_cons.mp ha with rfl | ha
    · exact .inr hnext.le
    · exact .inl ha
  have hgrow : vm.nextFrameSerial ≤ (vm.enter e cs).nextFrameSerial := Nat.le_succ _
  have hmono : ∀ {ref : HomeRef} {h : Nat}, Names vm.ledger vm.nextFrameSerial ref h →
      Names (vm.enter e cs).ledger (vm.enter e cs).nextFrameSerial ref h :=
    fun hn => hn.mono hnew hgrow
  refine ⟨⟨?_, ?_, ⟨vm.ledger, hledger, ?_⟩, ?_, hserial, ?_, ?_, ?_, ?_, hargc.symm, htemps, ?_, ?_,
    ProcessStack.holds_nil, ?_, ?_, ?_⟩, ?_, ?_⟩
  · refine ⟨?_, hc.shows.heap, ?_, hc.shows.handlerRuns, ?_⟩
    · show vm.contexts ++ cs = _
      rw [hc.shows.contexts]
    · show vm.nextFrameSerial + 1 = _
      rw [hnext]
    · exact hc.shows.blocks.imp fun c b hb => ⟨hb.method, hb.copied, hb.isBlock, hmono hb.home⟩
  · intro h hh
    rw [hledger]
    rcases hlive h hh with rfl | hh
    · exact ⟨_, List.mem_cons_self, rfl⟩
    · obtain ⟨a, ha, hid⟩ := hc.live h hh
      exact ⟨a, List.mem_cons_of_mem _ ha, hid⟩
  · rw [hbase]
    exact hground
  · show W.next < vm.nextFrameSerial + 1
    omega
  · exact enter_slots_at (k := 0) rfl
  · exact enter_slots_at (k := 3) rfl
  · exact enter_slots_at (k := 4) rfl
  · show (G.method e.mid).argc + 1 ≤ vm.stack.sp
    omega
  · show (vm.enter e cs).stack.Holds (vm.stack.sp - (G.method e.mid).argc) args
    rw [hargc, hsp, Nat.add_sub_cancel]
    exact hargs.congr fun i hi => hlow _ (by omega)
  · exact hwords.2
  · exact hend
  · rw [hend]
    exact hroom
  · split at hhome
    · rename_i hblock
      obtain ⟨c, cl, hslot, hcl, hn⟩ := hhome
      rw [if_pos hblock]
      refine ⟨c, cl, ?_, hcl, hmono hn⟩
      rw [hbase, hlow _ (by omega), hslot]
    · rename_i hblock
      rw [if_neg hblock]
      exact hhome
  · refine ⟨⟨rfl, List.prefix_refl _, List.prefix_refl _, hgrow⟩, hledger, hnext.le, ?_, hserial,
      enter_slots_at (k := 0) rfl, ?_, ?_, ⟨e.savedBci, enter_slots_at (k := 2) rfl, hbci⟩, ?_⟩
    · show W.next < vm.nextFrameSerial + 1
      omega
    · show vm.stack.sp = _
      omega
    · rw [← hlink]
      exact enter_slots_at (k := 1) rfl
    · exact fun i hi => hlow i (by omega)
  · exact enter_slots_at (k := 6) rfl

end Vm

end

end WinVm.Process
