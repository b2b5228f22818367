import WinVm.Process.Handlers

/-!
# The interpreter follows the semantics

A call attempts the method's primitive and falls through to its body. With every primitive
that activates followed here, the induction on the fuel of the semantics closes.

Results:

* `sound`: each of the mutually recursive functions of the semantics is followed by the
  interpreter.
-/

namespace WinVm.Process

open Lib

section
variable {σ : Type} {G : Guest σ}

namespace Vm

variable {P : Vm σ → Prop} {vm vm' : Vm σ} {W W' : World σ} {live : List Nat} {k : Bool}
  {base mid n : Nat} {r : Result σ} {v : Oop}

/-! ## Calls -/

/-- The state in which the primitive of a called method is attempted. -/
def attempt (vm : Vm σ) (entry : Bool) : Vm σ :=
  if entry then { vm with stack := { vm.stack with fp := usizeMax }, regs := ⟨vm.regs.method, 0⟩ }
  else vm

/-- What a call does once its primitive has been attempted. -/
def finish (G : Guest σ) (vm : Vm σ) (entry : Bool) (mid argc : Nat) :
    Vm σ × PrimitiveOutcome → Except Fault (Vm σ)
  | (vm', .result v) =>
    if entry then .ok (vm'.withControl (.returned v))
    else do (← vm'.push v).dispatchCurrent vm'.regs.bci
  | (vm', .activated) => .ok vm'
  | (vm', .nested) => .ok vm'
  | (vm', .fallthrough) =>
    if entry then do
      let act ← vm.pushFrame G mid argc entryFrameSentinel 0
      .ok ((act.maybeAllocContext G mid act.stack.fp .nil).withControl (.dispatch mid 0))
    else do
      let act ← vm'.pushFrame G mid argc (asI64 vm'.stack.fp) vm'.regs.bci
      .ok { act.maybeAllocContext G mid act.stack.fp .nil with
        regs := ⟨some mid, 0⟩
        control := .dispatch mid 0 }

theorem call_eq (vm : Vm σ) (entry : Bool) (mid argc : Nat) :
    vm.call G entry mid argc =
      (vm.attempt entry).tryPrimitive G mid argc entry >>= finish G vm entry mid argc := by
  cases entry with
  | false =>
    show (vm.tryPrimitive G mid argc false >>= _) = _
    refine congrArg _ (funext fun x => ?_)
    obtain ⟨vm', o⟩ := x
    cases o <;> rfl
  | true =>
    show ((vm.attempt true).tryPrimitive G mid argc true >>= _) = _
    refine congrArg _ (funext fun x => ?_)
    obtain ⟨vm', o⟩ := x
    cases o <;> rfl

theorem pushFrame_yields {argc savedBci : Nat} {savedFp : Int} {Q : Vm σ → Prop}
    (hcap : vm.stack.sp ≤ stackCapacity)
    (h : vm.stack.sp + 7 + (G.method mid).ntemps ≤ stackCapacity → ∀ act : Vm σ,
      act.maybeAllocContext G mid act.stack.fp .nil = vm.enterMethod G mid argc savedFp savedBci →
      Q act) : Yields Overflow Q (vm.pushFrame G mid argc savedFp savedBci) := by
  have heq := @pushFrame_eq _ G vm mid argc savedBci savedFp hcap
  cases hp : vm.pushFrame G mid argc savedFp savedBci with
  | ok act =>
    rw [hp, ok_bind] at heq
    split at heq
    · rename_i hroom
      exact h hroom act (Except.ok.inj heq)
    · cases heq
  | error e =>
    rw [hp] at heq
    split at heq
    · cases heq
    · exact Except.error.inj heq

/-- The two states look the same from a call at `base`. -/
structure Alike (entry : Bool) (base : Nat) (vm vm' : Vm σ) : Prop where
  below : ∀ i < base, vm'.stack.slots i = vm.stack.slots i
  ledger : vm'.ledger = vm.ledger
  nested : vm'.nested = vm.nested
  tokens : vm'.tokens = vm.tokens
  closures : vm'.closures = vm.closures
  next : vm'.nextFrameSerial = vm.nextFrameSerial
  active : entry = false → vm'.stack.fp = vm.stack.fp ∧ vm'.regs.bci = vm.regs.bci

theorem Alike.grows {vm₂ : Vm σ} (h : Alike k base vm vm') (hg : Grows vm' vm₂) : Grows vm vm₂ :=
  ⟨hg.nested.trans h.nested, h.tokens ▸ hg.tokens, h.closures ▸ hg.closures, h.next ▸ hg.next⟩

/-- The end of a call is seen alike from both. -/
theorem Alike.ends {o : Outcome} (h : Alike k base vm vm') (hc : Calling G vm W live k base)
    (hend : Ends G P vm live k base W' o) : Ends G P vm' live k base W' o := by
  cases o with
  | ret v =>
    intro vm₂ hret
    have hdelivered := hret.delivered
    refine hend vm₂ ⟨hret.shows, h.grows hret.grows, hret.ledger.trans h.ledger,
      fun i hi => (hret.below i hi).trans (h.below i hi), ?_⟩
    cases k with
    | true => exact hdelivered
    | false =>
      obtain ⟨hfp, hsp, hv, hcontrol⟩ := hdelivered
      obtain ⟨hfp', hbci⟩ := h.active rfl
      obtain ⟨m, id, rest, -, hm, hfloor, -⟩ := hc.active rfl
      unfold floor at hfloor
      refine ⟨hfp.trans hfp', hsp, hv, fun m' hm' => ?_⟩
      rw [hfp', h.below _ (by omega), hbci] at hcontrol
      exact hcontrol m' hm'
  | nlr home v =>
    obtain ⟨rfl, hgo⟩ := hend
    obtain ⟨hfp', -⟩ := h.active rfl
    refine ⟨rfl, fun hlive vm₂ ref hp hn => hgo hlive vm₂ ref ⟨hp.shows, h.grows hp.grows,
      hp.ledger.trans h.ledger, hp.fp.trans hfp', fun i hi => (hp.below i hi).trans (h.below i hi),
      hp.above, hp.cap⟩ hn⟩

/-- A call from a state that looks alike. -/
theorem Alike.calling {W₁ : World σ} (h : Alike k base vm vm') (hc : Calling G vm W live k base)
    (hshows : vm'.Shows G W₁) (hcap : vm'.stack.sp ≤ stackCapacity) :
    Calling G vm' W₁ live k base := by
  refine ⟨hshows, ?_, ?_, hcap, fun hk => ?_⟩
  · rw [h.ledger]
    exact hc.live
  · rw [h.ledger, h.next]
    exact hc.grounded.congr h.below
  · obtain ⟨m, id, rest, hledger, hm, hfloor, hbci⟩ := hc.active hk
    obtain ⟨hfp, hregs⟩ := h.active hk
    have hfl : vm.floor G m = vm.stack.fp + 7 + (G.method m).ntemps := rfl
    have hfl' : vm'.floor G m = vm.floor G m := by
      rw [floor, floor, hfp]
    refine ⟨m, id, rest, ?_, ?_, hfl' ▸ hfloor, hregs ▸ hbci⟩
    · rw [h.ledger, hfp, hledger]
    · rw [hfp, h.below _ (by omega), hm]

theorem attempt_alike (vm : Vm σ) (k : Bool) (base : Nat) : Alike k base vm (vm.attempt k) := by
  cases k with
  | true => exact ⟨fun _ _ => rfl, rfl, rfl, rfl, rfl, rfl, nofun⟩
  | false => exact ⟨fun _ _ => rfl, rfl, rfl, rfl, rfl, rfl, fun _ => ⟨rfl, rfl⟩⟩

/-- A value handed back without a frame: by a primitive, or by a nested run. -/
theorem deliver_next {bci : Nat} (hc : Calling G vm W live k base)
    (hbci : k = false → bci = vm.regs.bci ∧ bci < bciResumeEnsureRet) (hgrows : Grows vm vm')
    (hledger : vm'.ledger = vm.ledger) (hbelow : ∀ i < base, vm'.stack.slots i = vm.stack.slots i)
    (hshows : vm'.Shows G W') (hsp : vm'.stack.sp = base) (hfp : k = false → vm'.stack.fp = vm.stack.fp)
    (hend : Ends G P vm live k base W' (.ret v)) :
    After G P (if k then .ok (vm'.withControl (.returned v))
      else do (← vm'.push v).dispatchCurrent bci) := by
  cases k with
  | true =>
    refine hend _ ⟨hshows.congr rfl rfl rfl rfl rfl fun _ ha => ha, hgrows.congr rfl rfl rfl rfl,
      hledger, hbelow, hsp, rfl⟩
  | false =>
    obtain ⟨rfl, hbound⟩ := hbci rfl
    obtain ⟨m, id, rest, -, hm, hfloor, -⟩ := hc.active rfl
    unfold floor at hfloor
    have hfp := hfp rfl
    refine Yields.bind (push_yields (Q := fun vm₂ => vm₂ = vm'.pushed v) fun _ => rfl) ?_
    rintro vm₂ rfl
    have hother : ∀ i < base, (vm'.pushed v).stack.slots i = vm.stack.slots i := by
      intro i hi
      rw [← hbelow i hi]
      exact vm'.stack.set_slots_ne v (by omega)
    have hid : (vm'.pushed v).stack.frameMethodId (vm'.pushed v).stack.fp = .ok m := by
      apply frameMethodId_eq
      rw [show (vm'.pushed v).stack.fp = vm.stack.fp from hfp, hother _ (by omega), hm]
    unfold dispatchCurrent
    rw [hid, ok_bind]
    refine hend _ ⟨hshows.congr rfl rfl rfl rfl rfl fun _ ha => ha, hgrows.congr rfl rfl rfl rfl,
      hledger, hother, hfp, ?_, ?_, fun m' hm' => ?_⟩
    · show vm'.stack.sp + 1 = _
      rw [hsp]
    · show (vm'.stack.set vm'.stack.sp v).slots base = v
      rw [hsp, ProcessStack.set_slots_self]
    · rw [hm] at hm'
      obtain rfl := Oop.method.inj hm'
      show Control.dispatch m vm.regs.bci = _
      rw [resumeControl, if_neg (Nat.ne_of_lt hbound),
        if_neg (Nat.ne_of_lt (Nat.lt_trans hbound (by decide)))]

theorem attempt_calling (hc : Calling G vm W live k base) :
    Calling G (vm.attempt k) W live k base := by
  have hshows : (vm.attempt k).Shows G W := by
    cases k <;> exact hc.shows.congr rfl rfl rfl rfl rfl fun _ ha => ha
  have hcap : (vm.attempt k).stack.sp ≤ stackCapacity := by
    cases k <;> exact hc.cap
  exact (attempt_alike vm k base).calling hc hshows hcap

theorem attempt_sp (vm : Vm σ) (k : Bool) : (vm.attempt k).stack.sp = vm.stack.sp := by
  cases k <;> rfl

theorem attempt_slots (vm : Vm σ) (k : Bool) : (vm.attempt k).stack.slots = vm.stack.slots := by
  cases k <;> rfl

theorem attempt_link (hc : Calling G vm W live k base) (hbase : base ≤ vm.stack.sp) :
    asI64 (vm.attempt k).stack.fp = (vm.attempt k).linkOf k := by
  cases k with
  | true => rfl
  | false =>
    obtain ⟨m, id, rest, -, -, hfloor, -⟩ := hc.active rfl
    have hcap := hc.cap
    apply asI64_of_lt
    show vm.stack.fp < _
    unfold floor at hfloor
    unfold stackCapacity at hcap
    omega

/-- The primitive failed, or there is none: the method's own frame is pushed. -/
theorem fallthrough_next (ih : Sound G n) {receiver : Oop} {args : List Oop}
    (hc : Calling G vm W live k base) (hpushed : vm.Pushed base receiver args)
    (hargc : (G.method mid).argc = args.length) (hmeth : (G.method mid).isBlock = false)
    (he : evalBody G n W live mid receiver args = some r) (hclean : r.clean = true)
    (hend : Ends G P vm live k base r.world r.outcome) :
    After G P (finish G vm k mid args.length (vm.attempt k, .fallthrough)) := by
  have hsp := hpushed.sp
  have hlink := attempt_link hc (by omega)
  cases k with
  | true =>
    refine Yields.bind (pushFrame_yields (Q := fun act => After G P
      (.ok ((act.maybeAllocContext G mid act.stack.fp .nil).withControl (.dispatch mid 0)))) hc.cap
      fun hroom act hact => ?_) fun _ h => h
    rw [hact]
    exact ih.body hc hpushed nofun hargc hmeth hroom he hclean hend
  | false =>
    refine Yields.bind (pushFrame_yields (Q := fun act => After G P
      (.ok { act.maybeAllocContext G mid act.stack.fp .nil with
        regs := ⟨some mid, 0⟩
        control := .dispatch mid 0 })) hc.cap fun hroom act hact => ?_) fun _ h => h
    rw [hact]
    have hlink' : asI64 (vm.attempt false).stack.fp = vm.linkOf false := hlink
    rw [hlink']
    exact ih.body hc hpushed (fun _ => rfl) hargc hmeth hroom he hclean hend

/-- A clean protected block's handler was not moved while the block was activated. -/
theorem evalProtected_unmoved {kind : MarkerKind} {p h : Block}
    (he : evalProtected G n W live kind p h = some r) (hclean : r.clean = true) :
    ((G.method p.method).hasCtx && G.collects W.contexts.length) = false := by
  cases n with
  | zero =>
    rw [evalProtected] at he
    cases he
  | succ n =>
    rw [evalProtected] at he
    obtain ⟨⟨act, W₁⟩, -, he⟩ := Option.bind_eq_some_iff.mp he
    obtain ⟨r₁, -, he⟩ := Option.bind_eq_some_iff.mp he
    simp only at he
    split at he
    · obtain rfl := Option.some.inj he
      simp only [Bool.and_eq_true, Bool.not_eq_true'] at hclean
      exact hclean.2
    · obtain ⟨r', -, rfl⟩ := Option.map_eq_some_iff.mp he
      simp only [Bool.and_eq_true, Bool.not_eq_true'] at hclean
      exact hclean.2

/-- `prim_ensure_like` on two blocks without parameters. -/
theorem primEnsureLike_next (ih : Sound G n) {kind : MarkerKind} {receiver handler : Oop} {p h : Block}
    (hc : Calling G vm W live k base) (hpushed : vm.Pushed base receiver [handler])
    (hlink : asI64 vm.stack.fp = vm.linkOf k) (hp : W.blockOf receiver = some p)
    (hh : W.blockOf handler = some h)
    (hargc : ¬ ((G.method p.method).argc ≠ 0 ∨ (G.method h.method).argc ≠ 0))
    (he : evalProtected G n W live kind p h = some r) (hclean : r.clean = true)
    (hend : Ends G P vm live k base r.world r.outcome) :
    Yields Overflow (fun x => ∃ act, x = (act, PrimitiveOutcome.activated) ∧ Reaches G P act)
      (vm.primEnsureLike G base kind) := by
  obtain ⟨c, cl, rfl, hcl, hof, hblk⟩ := hc.shows.closureOf hp
  obtain ⟨ch, clh, rfl, hclh, hofh, hblkh⟩ := hc.shows.closureOf hh
  simp only [not_or, not_not] at hargc
  have hsp := hpushed.sp
  have hhandler : vm.stack.slots (base + 1) = .closure ch := ProcessStack.holds_singleton.mp hpushed.args
  have hnot : ¬ ((G.method cl.method).argc ≠ 0 ∨ (G.method clh.method).argc ≠ 0) := by
    rw [hblk.method, hblkh.method, hargc.1, hargc.2]
    exact fun h => h.elim (fun h => h rfl) (fun h => h rfl)
  unfold primEnsureLike
  simp only [hpushed.receiver, hhandler, hof, hofh, if_neg hnot]
  -- the handler is popped, the protected block is the receiver of a call with no arguments
  have hspB : (vm.withSp (vm.stack.sp - 1)).stack.sp = base + 1 := by
    show vm.stack.sp - 1 = _
    rw [hsp, List.length_singleton, Nat.add_sub_cancel]
  have halike : Alike k base vm (vm.withSp (vm.stack.sp - 1)) :=
    ⟨fun _ _ => rfl, rfl, rfl, rfl, rfl, rfl, fun _ => ⟨rfl, rfl⟩⟩
  have hcap := hc.cap
  have hcB : Calling G (vm.withSp (vm.stack.sp - 1)) W live k base :=
    halike.calling hc (hc.shows.congr rfl rfl rfl rfl rfl fun _ ha => ha) (by omega)
  have hrB : Ready G (vm.withSp (vm.stack.sp - 1)) k base c cl p [] :=
    ⟨⟨hspB, hpushed.receiver, ProcessStack.holds_nil⟩, hcl, hblk, hargc.1, hlink⟩
  have hfit : (p.captures G).length ≤ (G.method p.method).ntemps := by
    cases n with
    | zero =>
      rw [evalProtected] at he
      cases he
    | succ n =>
      rw [evalProtected] at he
      obtain ⟨⟨act, W₁⟩, hact, -⟩ := Option.bind_eq_some_iff.mp he
      exact captures_fit hact
  have hmoved : ((G.method cl.method).hasCtx && G.collects vm.contexts.length) = false := by
    rw [hblk.method, hc.shows.contexts]
    exact evalProtected_unmoved he hclean
  refine Yields.bind (hrB.activate (Q := fun o => o = some ((vm.withSp (vm.stack.sp - 1)).enterBlock G cl) ∧
    (vm.withSp (vm.stack.sp - 1)).stack.sp + 7 + (G.method p.method).ntemps ≤ stackCapacity)
    hcB.cap hfit fun hspace => ⟨rfl, hspace⟩) ?_
  rintro o ⟨rfl, hspace⟩
  simp only [hmoved, Bool.false_eq_true, ↓reduceIte]
  refine Yields.bind (ih.protected_ hcB hrB hspace hclh hblkh hargc.2 he hclean (halike.ends hc hend)) ?_
  exact fun st hst => ⟨_, rfl, hst⟩

/-- `prim_perform_with_arguments`: a nested run that returns. -/
theorem primPerform_next (ih : Sound G n) {receiver symbol arr : Oop} {elements : List Oop} {site : Nat}
    (hc : Calling G vm W live k base) (hpushed : vm.Pushed base receiver [symbol, arr])
    (hbci : k = false → vm.regs.bci < bciResumeEnsureRet) (hsymbol : G.symbol W.heap symbol = some site)
    (helements : G.elements W.heap arr = some elements)
    (hlookup : G.lookup W.heap site receiver = some mid)
    (hargc : (G.method mid).argc = elements.length) (hmeth : (G.method mid).isBlock = false)
    (he : Process.invoke G n W live mid receiver elements = some r) (hclean : r.clean = true)
    (hret : r.outcome = .ret v) (hend : Ends G P vm live k base r.world (.ret v)) :
    Yields Overflow (fun x => ∃ act, x = (act, PrimitiveOutcome.nested) ∧ Reaches G P act)
      (vm.primPerform G base k) := by
  have hsp := hpushed.sp
  obtain ⟨hsym, harr⟩ := ProcessStack.holds_cons.mp hpushed.args
  have harr' : vm.stack.slots (base + 2) = arr := ProcessStack.holds_singleton.mp harr
  rw [← hc.shows.heap] at hsymbol helements hlookup
  unfold primPerform
  simp only [hsym, harr', hpushed.receiver, hsymbol, helements, hlookup, hargc, ne_eq,
    not_true_eq_false, ↓reduceIte]
  rw [ProcessStack.pushAll_eq hc.cap]
  split
  · rename_i hroom
    refine ⟨_, rfl, ?_⟩
    set vmN : Vm σ := { vm with
      stack := vm.stack.write (receiver :: elements)
      nested := ⟨vm.stack.fp, vm.stack.hasFrame, vm.regs, base, k⟩ :: vm.nested
      control := .runMethod mid elements.length } with hvmN
    have hlow : ∀ i < vm.stack.sp, vmN.stack.slots i = vm.stack.slots i :=
      fun i hi => vm.stack.write_slots_lt _ hi
    obtain ⟨hreceiver, helts⟩ := ProcessStack.holds_cons.mp
      (@ProcessStack.holds_write vm.stack (receiver :: elements))
    have hpushedN : vmN.Pushed vm.stack.sp receiver elements := by
      refine ⟨?_, hreceiver, helts⟩
      show vm.stack.sp + (receiver :: elements).length = _
      rw [List.length_cons]
      omega
    have hground : Grounded vm.stack vm.ledger vm.nextFrameSerial vm.stack.sp :=
      hc.grounded.mono (Nat.le_refl _) (by omega)
    have hcN : Calling G vmN W live true vm.stack.sp :=
      ⟨hc.shows.congr rfl rfl rfl rfl rfl fun _ ha => ha, hc.live, hground.congr hlow, hroom, nofun⟩
    refine reaches_of_step (ih.invoke hcN hpushedN nofun hargc hmeth he hclean ?_)
    rw [hret]
    intro vm' hret'
    obtain ⟨hsp', hcontrol⟩ := hret'.delivered
    have hnested : vm'.nested = ⟨vm.stack.fp, vm.stack.hasFrame, vm.regs, base, k⟩ :: vm.nested :=
      hret'.grows.nested
    refine reaches_of_step ?_
    simp only [step, hcontrol, returnNested, hnested]
    refine deliver_next hc (fun hk => ⟨rfl, hbci hk⟩) ?_ hret'.ledger ?_ ?_ rfl (fun _ => rfl) hend
    · exact ⟨rfl, hret'.grows.tokens, hret'.grows.closures, hret'.grows.next⟩
    · intro i hi
      have hlt : i < vm.stack.sp := by omega
      exact (hret'.below i hlt).trans (hlow i hlt)
    · exact hret'.shows.congr rfl rfl rfl rfl rfl fun _ ha => ha
  · exact rfl

/-- `valueWithArguments:` spreads its array over the stack and activates the block. -/
theorem valueWithArguments_next (ih : Sound G n) {c : Nat} {cl : Closure} {b : Block} {arr : Oop}
    {elements : List Oop} (hc : Calling G vm W live k base)
    (hpushed : vm.Pushed base (.closure c) [arr]) (hlink : asI64 vm.stack.fp = vm.linkOf k)
    (hcl : vm.closures[c]? = some cl) (hblk : ShowsBlock G vm.ledger vm.nextFrameSerial cl b)
    (hargc : elements.length = (G.method b.method).argc)
    (he : evalBlock G n W live b elements = some r) (hclean : r.clean = true)
    (hend : Ends G P vm live k base r.world r.outcome) :
    Yields Overflow (fun x => ∃ act, x = (act, PrimitiveOutcome.activated) ∧ Reaches G P act) (do
      let st ← (vm.withSp (base + 1)).stack.pushAll elements
      match ← (vm.withStack st).activateBlockInterp G (.closure c) elements.length with
      | some act => .ok (act, .activated)
      | none => .ok (vm, .fallthrough)) := by
  have hsp := hpushed.sp
  have hcap := hc.cap
  rw [ProcessStack.pushAll_eq (by show base + 1 ≤ _; omega)]
  split
  · rename_i hroom
    set st := (vm.withSp (base + 1)).stack.write elements with hst
    have hlow : ∀ i < base + 1, st.slots i = vm.stack.slots i :=
      fun i hi => (vm.withSp (base + 1)).stack.write_slots_lt _ hi
    have halike : Alike k base vm (vm.withStack st) :=
      ⟨fun i hi => hlow i (by omega), rfl, rfl, rfl, rfl, rfl, fun _ => ⟨rfl, rfl⟩⟩
    have hcB : Calling G (vm.withStack st) W live k base :=
      halike.calling hc (hc.shows.congr rfl rfl rfl rfl rfl fun _ ha => ha) hroom
    have hrB : Ready G (vm.withStack st) k base c cl b elements :=
      ⟨⟨rfl, (hlow base (Nat.lt_succ_self _)).trans hpushed.receiver, ProcessStack.holds_write⟩, hcl,
        hblk, hargc.symm, hlink⟩
    rw [ok_bind]
    refine Yields.bind (activate_next ih hcB hrB he hclean (halike.ends hc hend)) ?_
    rintro o ⟨act, rfl, hreach⟩
    exact ⟨act, rfl, hreach⟩
  · exact rfl

theorem invoke_ok (hG : G.WellFormed) (ih : Sound G n) : InvokeOk G (n + 1) := by
  intro P vm W live entry base mid receiver args r hc hpushed hbci hargc hmeth he hclean hend
  have hsp := hpushed.sp
  have hcA : Calling G (vm.attempt entry) W live entry base := attempt_calling hc
  have halike := attempt_alike vm entry base
  have hlink := attempt_link hc (by omega)
  have hpushedA : (vm.attempt entry).Pushed base receiver args := by
    refine ⟨(attempt_sp vm entry).trans hsp, ?_, ?_⟩
    · rw [attempt_slots]
      exact hpushed.receiver
    · exact hpushed.args.congr fun i _ => by rw [attempt_slots]
  have hbase : (vm.attempt entry).stack.sp - args.length - 1 = base := by
    rw [hpushedA.sp]
    omega
  have hendA : Ends G P (vm.attempt entry) live entry base r.world r.outcome := halike.ends hc hend
  have hbciA : entry = false → (vm.attempt entry).regs.bci < bciResumeEnsureRet := by
    intro hk
    rw [(halike.active hk).2]
    exact hbci hk
  -- the method's own body, when its primitive fails
  have hfall : evalBody G n W live mid receiver args = some r →
      After G P (finish G vm entry mid args.length (vm.attempt entry, .fallthrough)) :=
    fun hbody => fallthrough_next ih hc hpushed hargc hmeth hbody hclean hend
  have hactivated : ∀ {x : Vm σ × PrimitiveOutcome},
      (∃ act, x = (act, PrimitiveOutcome.activated) ∧ Reaches G P act) →
      After G P (finish G vm entry mid args.length x) := by
    rintro x ⟨act, rfl, hreach⟩
    exact hreach
  rw [call_eq]
  refine Yields.bind (Q := fun x => After G P (finish G vm entry mid args.length x)) ?_ fun _ h => h
  unfold Process.invoke at he
  unfold tryPrimitive
  simp only [hbase, hpushedA.receiver]
  cases hprim : (G.method mid).primitive with
  | none =>
    simp only [hprim] at he
    exact hfall he
  | value =>
    simp only [hprim] at he
    split at he
    · rename_i b hb
      obtain ⟨c, cl, rfl, hcl, hof, hblk⟩ := hcA.shows.closureOf hb
      simp only [hof]
      split at he
      · rename_i hargcb
        have hr : Ready G (vm.attempt entry) entry base c cl b args :=
          ⟨hpushedA, hcl, hblk, hargcb, hlink⟩
        refine Yields.bind (activate_next ih hcA hr he hclean hendA) ?_
        rintro o ⟨act, rfl, hreach⟩
        exact hreach
      · rename_i hargcb
        rw [← hblk.method] at hargcb
        unfold activateBlockInterp
        simp only [hof, ok_bind, ne_eq, hargcb, not_false_eq_true, ↓reduceIte]
        exact hfall he
    · rename_i hb
      simp only [hcA.shows.closureOf_none hb]
      exact hfall he
  | valueWithArguments =>
    simp only [hprim] at he
    split at he
    · rename_i arr
      have harr : (vm.attempt entry).stack.slots (base + 1) = arr :=
        ProcessStack.holds_singleton.mp hpushedA.args
      simp only [List.length_singleton, ne_eq, not_true_eq_false, ↓reduceIte, harr, hcA.shows.heap]
      split at he
      · rename_i b elements hb helements
        obtain ⟨c, cl, rfl, hcl, hof, hblk⟩ := hcA.shows.closureOf hb
        simp only [hof, helements]
        split at he
        · rename_i hargcb
          have hnot : ¬ elements.length ≠ (G.method cl.method).argc := by
            rw [hblk.method, hargcb]
            exact fun h => h rfl
          simp only [if_neg hnot]
          exact (valueWithArguments_next ih hcA hpushedA hlink hcl hblk hargcb he hclean hendA).imp
            fun _ hx => hactivated hx
        · rename_i hargcb
          rw [← hblk.method] at hargcb
          simp only [ne_eq, hargcb, not_false_eq_true, ↓reduceIte]
          exact hfall he
      · rename_i hno
        split
        · rename_i cl elements hof helements
          cases hb : W.blockOf receiver with
          | none =>
            rw [hcA.shows.closureOf_none hb] at hof
            cases hof
          | some b => exact (hno b elements hb helements).elim
        · exact hfall he
    · cases he
  | ensureLike kind =>
    simp only [hprim] at he
    split at he
    · rename_i handler
      have hhandler : (vm.attempt entry).stack.slots (base + 1) = handler :=
        ProcessStack.holds_singleton.mp hpushedA.args
      simp only [List.length_singleton, ne_eq, not_true_eq_false, ↓reduceIte]
      split at he
      · rename_i p h hp hh
        split at he
        · rename_i hargcs
          obtain ⟨c, cl, rfl, hcl, hof, hblk⟩ := hcA.shows.closureOf hp
          obtain ⟨ch, clh, rfl, hclh, hofh, hblkh⟩ := hcA.shows.closureOf hh
          rw [← hblk.method, ← hblkh.method] at hargcs
          unfold primEnsureLike
          simp only [hpushedA.receiver, hhandler, hof, hofh, if_pos hargcs]
          exact hfall he
        · rename_i hargcs
          exact (primEnsureLike_next ih hcA hpushedA hlink hp hh hargcs he hclean hendA).imp
            fun _ hx => hactivated hx
      · rename_i hno
        unfold primEnsureLike
        simp only [hpushedA.receiver, hhandler]
        split
        · rename_i cl clh hof hofh
          cases hp : W.blockOf receiver with
          | none =>
            rw [hcA.shows.closureOf_none hp] at hof
            cases hof
          | some p =>
            cases hh : W.blockOf handler with
            | none =>
              rw [hcA.shows.closureOf_none hh] at hofh
              cases hofh
            | some h => exact (hno p h hp hh).elim
        · exact hfall he
    · cases he
  | performWithArguments =>
    simp only [hprim] at he
    split at he
    · rename_i symbol arr
      obtain ⟨hsym, harr⟩ := ProcessStack.holds_cons.mp hpushedA.args
      have harr' : (vm.attempt entry).stack.slots (base + 2) = arr :=
        ProcessStack.holds_singleton.mp harr
      have hlen : [symbol, arr].length = 2 := rfl
      simp only [hlen, ne_eq, not_true_eq_false, ↓reduceIte]
      split at he
      · rename_i site elements hsymbol helements
        split at he
        · rename_i m hm
          split at he
          · rename_i hargcm
            unfold primPerform
            simp only [hcA.shows.heap, hsym, harr', hpushedA.receiver, hsymbol, helements, hm, if_pos hargcm]
            exact hfall he
          · rename_i hargcm
            obtain ⟨r', hr', rfl⟩ := Option.map_eq_some_iff.mp he
            cases hout : r'.outcome with
            | ret v =>
              simp only [hout] at hclean hendA
              refine (primPerform_next ih hcA hpushedA hbciA hsymbol helements hm (not_not.mp hargcm)
                (hG.lookup _ _ _ _ hm) hr' hclean hout hendA).imp ?_
              rintro x ⟨act, rfl, hreach⟩
              exact hreach
            | nlr home v =>
              simp only [hout] at hclean
              cases hclean
        · rename_i hm
          unfold primPerform
          simp only [hcA.shows.heap, hsym, harr', hpushedA.receiver, hsymbol, helements, hm]
          exact hfall he
      · rename_i hno
        unfold primPerform
        simp only [hcA.shows.heap, hsym, harr', hpushedA.receiver]
        cases hsymbol : G.symbol W.heap symbol with
        | none => exact hfall he
        | some site =>
          cases helements : G.elements W.heap arr with
          | none => exact hfall he
          | some elements => exact (hno site elements hsymbol helements).elim
    · cases he
  | other id =>
    simp only [hprim] at he
    have hwords : (vm.attempt entry).stack.words (base + 1) args.length = args := hpushedA.args.words
    simp only [hwords, hcA.shows.heap]
    cases hp : G.prim id W.heap receiver args with
    | some answer =>
      obtain ⟨heap, v⟩ := answer
      simp only [hp] at he ⊢
      obtain rfl := Option.some.inj he
      have hshows : Shows G { (vm.attempt entry).withSp base with heap := heap } { W with heap := heap } :=
        ⟨hcA.shows.contexts, rfl, hcA.shows.next, hcA.shows.handlerRuns, hcA.shows.blocks⟩
      refine deliver_next hc (fun hk => ⟨(halike.active hk).2, hbciA hk⟩) ?_ halike.ledger halike.below
        hshows rfl (fun hk => (halike.active hk).1) hend
      exact halike.grows ⟨rfl, List.prefix_refl _, List.prefix_refl _, Nat.le_refl _⟩
    | none =>
      simp only [hp] at he ⊢
      exact hfall he

/-- The interpreter follows the semantics. -/
theorem sound (hG : G.WellFormed) (n : Nat) : Sound G n := by
  induction n with
  | zero => exact sound_zero
  | succ n ih =>
    exact ⟨evalFrom_ok hG ih, evalBranch_ok hG ih, invoke_ok hG ih, evalBody_ok ih, evalBlock_ok ih,
      evalProtected_ok ih⟩

end Vm

end

end WinVm.Process
