import WinVm.Process.Bytecodes

/-!
# Activations and handlers follow the semantics

Method and block activations are entered, run and left; a protected block is a block whose
frame is armed. A return through an armed frame runs the handler and resumes; an unwind that
stops at an armed frame leaves a token in it, runs the handler and resumes from the token,
unless the handler leaves by a non-local return of its own, which then goes on from the same
frame.

Results:

* `evalBody_ok`, `evalBlock_ok`, `evalProtected_ok`;
* `armed_return`, `armed_unwind`: the two ways an armed frame is met.
-/

namespace WinVm.Process

open Lib

section
variable {σ : Type} {G : Guest σ}

namespace Vm

variable {P : Vm σ → Prop} {vm vm' vm₀ vm₁ : Vm σ} {W W' : World σ} {live : List Nat} {k : Bool}
  {act : Act} {base m mid n : Nat} {r : Result σ} {v : Oop}

/-! ## Activations -/

/-- The end of an unarmed frame is the end of the call. -/
theorem Called.exits {id : Nat} {o : Outcome} (hc : Calling G vm₀ W live k base)
    (h : Called G vm₀ k base m id vm) (hmark : vm.stack.slots (vm.stack.fp + 6) = .nil)
    (hshows : vm.Shows G W') (hroom : vm.floor G m ≤ vm.stack.sp) (hcap : vm.stack.sp ≤ stackCapacity)
    (hend : Ends G P vm₀ live k base W' o) : Exits G P vm live o := by
  cases o with
  | ret v => exact h.doReturn hc hmark hshows hend
  | nlr home v =>
    intro hlive ref hn
    obtain rfl := hend.1
    unfold floor at hroom
    exact h.pass hc (.inl hmark) hshows (by omega) hcap hlive hn hend

theorem freshContext_eq {enclosing : Oop} (h : vm.contexts = W.contexts) :
    freshContext G W.contexts mid enclosing =
      ((vm.contextFor G mid enclosing).1, W.contexts ++ (vm.contextFor G mid enclosing).2) := by
  unfold freshContext contextFor
  rw [h]
  split
  · rfl
  · rw [List.append_nil]

/-- A frame emptied of its operands is the same frame. -/
theorem emptied_same {m' : Nat} (hbase : base < vm.stack.fp) : Same base vm (vm.emptied G m') :=
  .of_stack rfl fun _ _ => rfl

theorem evalBody_ok (ih : Sound G n) : BodyOk G (n + 1) := by
  intro P vm W live entry base mid savedBci regs receiver args r hcalling hpushed hbci hargc hmeth
    hroom he hclean hend
  rw [evalBody] at he
  have hreceiver : vm.stack.slots (vm.stack.sp - args.length - 1) = receiver := by
    rw [← hpushed.receiver, hpushed.sp]
    congr 1
    omega
  set e := methodEntry G vm mid args.length (vm.linkOf entry) savedBci with he'
  set cs := (vm.contextFor G mid .nil).2 with hcs
  obtain ⟨hrep, hcalled, hmark⟩ := @Calling.enter _ _ vm W live entry base e cs args (W.next :: live)
    W.next hcalling hpushed.sp hpushed.args hargc hroom (List.length_replicate ..) rfl hbci
    (fun h hh => List.mem_cons.mp hh) (by rw [if_neg (by rw [he', methodEntry, hmeth]; decide)])
  have hact : methodAct G W mid receiver args =
      (⟨W.next, W.next, mid, e.receiver, args, e.temps, e.context, []⟩,
        { W with next := W.next + 1, contexts := W.contexts ++ cs }) := by
    unfold methodAct
    rw [freshContext_eq hcalling.shows.contexts, he', methodEntry, hreceiver]
  rw [hact] at he
  obtain ⟨r₀, hr₀, rfl⟩ := Option.map_eq_some_iff.mp he
  have hclean₀ : r₀.clean = true := by
    unfold Result.catch at hclean
    split at hclean
    · split at hclean <;> exact hclean
    · exact hclean
  set vm' : Vm σ := { vm.enter e cs with regs := regs, control := .dispatch mid 0 } with hvm'
  have hgrows : Grows (vm.enter e cs) vm' :=
    ⟨rfl, List.prefix_refl _, List.prefix_refl _, Nat.le_refl _⟩
  have hs' : Same base (vm.enter e cs) vm' := .of_slots hgrows rfl rfl fun _ _ => rfl
  have hrep' : vm'.Represents G _ (W.next :: live) _ := @Represents.congr _ _ _ vm' _ _ _ _ hrep
    rfl rfl hgrows (@Shows.congr _ _ _ vm' _ hrep.shows rfl rfl rfl rfl rfl fun _ ha => ha)
  have hbase : vm'.receiverBase G mid = base := by
    have hat : (vm.enter e cs).stack.fp = base + (G.method mid).argc + 1 := hcalled.at_
    show (vm.enter e cs).stack.fp - (G.method mid).argc - 1 = base
    omega
  refine ih.eval hrep' rfl hr₀ hclean₀ ?_
  intro vm₁ hs hshows hfloor hcap
  change Same (vm'.receiverBase G mid) vm' vm₁ at hs
  rw [hbase] at hs
  have hfloor₁ : vm₁.floor G mid ≤ vm₁.stack.sp := by
    rw [floor, hs.fp]
    exact hfloor
  have hcalled₁ : Called G vm entry base mid W.next vm₁ :=
    hcalled.framed (hs'.toFramed.trans hs.toFramed)
  have hmark₁ : vm₁.stack.slots (vm₁.stack.fp + 6) = .nil := by
    rw [hs.fp, hs.marker]
    exact hmark
  have hlt : base < vm₁.stack.fp := by
    have hat := hcalled₁.at_
    omega
  cases hout : r₀.outcome with
  | ret v =>
    rw [Result.catch, hout] at hend
    rw [hout] at hend
    exact hcalled₁.doReturn hcalling hmark₁ hshows hend
  | nlr h v =>
    intro hlive ref hn
    by_cases hid : h = W.next
    · -- the activation itself is the home
      subst hid
      rw [Result.catch, hout] at hend
      simp only [↓reduceIte] at hend
      have hs₂ : Same base vm₁ (vm₁.emptied G mid) := emptied_same hlt
      have hcalled₂ := hcalled₁.framed hs₂.toFramed
      refine hcalled₁.catch hcalling ?_ hcap hn ?_
      · unfold floor at hfloor₁
        omega
      · refine hcalled₂.doReturn hcalling hmark₁ ?_ hend
        exact hshows.congr rfl rfl rfl rfl rfl fun _ ha => ha
    · rw [Result.catch, hout] at hend
      simp only [hid, ↓reduceIte] at hend
      rw [hout] at hend
      have hmem : h ∈ live := (List.mem_cons.mp hlive).resolve_left hid
      exact hcalled₁.exits hcalling hmark₁ hshows hfloor₁ hcap hend hmem ref hn

/-- A block's frame, entered. -/
theorem Ready.enter {c : Nat} {cl : Closure} {b : Block} {args : List Oop}
    (hr : Ready G vm k base c cl b args) (hc : Calling G vm W live k base)
    (hspace : vm.stack.sp + 7 + (G.method b.method).ntemps ≤ stackCapacity)
    (hb : blockAct G W b args = some (act, W')) :
    (vm.enterBlock G cl).Represents G W' live act ∧
      Called G vm k base b.method W.next (vm.enterBlock G cl) ∧
      (vm.enterBlock G cl).stack.slots ((vm.enterBlock G cl).stack.fp + 6) = .nil ∧
      (vm.enterBlock G cl).control = .dispatch act.method 0 ∧ act.method = b.method ∧
      act.id = W.next := by
  obtain ⟨hm, hcopied, hblock, hnames⟩ := hr.block
  have hcaps : captures G cl = b.captures G := by
    rw [captures, Block.captures, hm, hcopied]
  have hencl : enclosing G cl = b.enclosing G := by
    rw [enclosing, Block.enclosing, hm, hcopied]
  unfold blockAct at hb
  simp only at hb
  split at hb
  · rename_i hlen
    rw [freshContext_eq hc.shows.contexts] at hb
    obtain ⟨rfl, rfl⟩ := Prod.mk.inj (Option.some.inj hb)
    set e := blockEntry G vm cl with he
    set cs := (vm.contextFor G cl.method (enclosing G cl)).2 with hcs
    have hmid : e.mid = b.method := hm
    have hfit : (captures G cl).length ≤ (G.method cl.method).ntemps := by
      rw [hcaps, hm]
      exact hlen
    have htemps : e.temps.length = (G.method e.mid).ntemps := length_captured hfit
    have hargc : (G.method e.mid).argc = args.length := by rw [hmid, hr.argc]
    have hroom : vm.stack.sp + 7 + (G.method e.mid).ntemps ≤ stackCapacity := by
      rw [hmid]
      exact hspace
    obtain ⟨hrep, hcalled, hmark⟩ := @Calling.enter _ _ vm W live k base e cs args live b.home hc
      hr.pushed.sp hr.pushed.args hargc hroom htemps hr.link (fun _ => rfl) (fun h hh => .inr hh) (by
        rw [if_pos (by rw [hmid, hblock])]
        exact ⟨c, cl, hr.pushed.receiver, hr.closure, hnames⟩)
    have hgrows : Grows (vm.enter e cs) (vm.enterBlock G cl) :=
      ⟨rfl, List.prefix_refl _, List.prefix_refl _, Nat.le_refl _⟩
    have hs : Same base (vm.enter e cs) (vm.enterBlock G cl) := .of_slots hgrows rfl rfl fun _ _ => rfl
    have hrep' := @Represents.congr _ _ _ (vm.enterBlock G cl) _ _ _ _ hrep rfl rfl hgrows
      (@Shows.congr _ _ _ (vm.enterBlock G cl) _ hrep.shows rfl rfl rfl rfl rfl fun _ ha => ha)
    have hcalled' := hcalled.framed hs.toFramed
    refine ⟨?_, ?_, hmark, ?_, rfl, rfl⟩
    · rw [← hcaps, ← hencl, ← hm, ← hcopied]
      exact hrep'
    · rw [← hm]
      exact hcalled'
    · show Control.dispatch cl.method 0 = _
      rw [hm]
  · cases hb

/-- A block's frame, followed to its end from any state in which nothing but its marker has
changed. -/
theorem block_ends (ih : Sound G n) {c : Nat} {cl : Closure} {b : Block} {args : List Oop}
    (hr : Ready G vm k base c cl b args) (hc : Calling G vm W live k base)
    (hspace : vm.stack.sp + 7 + (G.method b.method).ntemps ≤ stackCapacity)
    (hb : blockAct G W b args = some (act, W'))
    (hrep : vm'.Represents G W' live act) (hf : Framed base (vm.enterBlock G cl) vm')
    (hcontrol : vm'.control = .dispatch act.method 0) (he : evalFrom G n W' live act 0 = some r)
    (hclean : r.clean = true)
    (hend : ∀ vm₁, Called G vm k base b.method W.next vm₁ → Same base vm' vm₁ → vm₁.Shows G r.world →
      vm₁.floor G b.method ≤ vm₁.stack.sp → vm₁.stack.sp ≤ stackCapacity →
      Exits G P vm₁ live r.outcome) : Reaches G P vm' := by
  obtain ⟨-, hcalled, -, -, hm, -⟩ := hr.enter hc hspace hb
  have hcalled' := hcalled.framed hf
  have hbase : vm'.receiverBase G act.method = base := by
    rw [hm, receiverBase, hcalled'.at_]
    omega
  refine ih.eval hrep hcontrol he hclean ?_
  intro vm₁ hs hshows hfloor hcap
  rw [hbase] at hs
  refine hend vm₁ (hcalled'.framed hs.toFramed) hs hshows ?_ hcap
  rw [floor, hs.fp, ← hm]
  exact hfloor

theorem evalBlock_ok (ih : Sound G n) : BlockOk G (n + 1) := by
  intro P vm W live entry base c cl b args r hcalling hready hspace he hclean hend
  rw [evalBlock] at he
  obtain ⟨⟨act, W'⟩, hb, he⟩ := Option.bind_eq_some_iff.mp he
  obtain ⟨hrep, hcalled, hmark, hcontrol, hm, -⟩ := hready.enter hcalling hspace hb
  refine block_ends ih hready hcalling hspace hb hrep (Same.refl _ _).toFramed hcontrol he hclean ?_
  intro vm₁ hcalled₁ hs hshows hfloor hcap
  refine hcalled₁.exits hcalling ?_ hshows hfloor hcap hend
  rw [hs.fp, hs.marker]
  exact hmark

/-- `activate_block_interp` on a closure with room for its captures enters the frame. -/
theorem Ready.activate {Q : Option (Vm σ) → Prop} {c : Nat} {cl : Closure} {b : Block}
    {args : List Oop} (hr : Ready G vm k base c cl b args) (hcap : vm.stack.sp ≤ stackCapacity)
    (hfit : (b.captures G).length ≤ (G.method b.method).ntemps)
    (hnext : vm.stack.sp + 7 + (G.method b.method).ntemps ≤ stackCapacity →
      Q (some (vm.enterBlock G cl))) :
    Yields Overflow Q (vm.activateBlockInterp G (.closure c) args.length) := by
  obtain ⟨hm, hcopied, -, -⟩ := hr.block
  have hsp := hr.pushed.sp
  have hcaps : (captures G cl).length ≤ (G.method cl.method).ntemps := by
    rw [captures, hm, hcopied]
    exact hfit
  have hslot : vm.stack.slots (vm.stack.sp - args.length - 1) = .closure c := by
    rw [← hr.pushed.receiver]
    congr 1
    omega
  have hargc : ¬ (G.method cl.method).argc ≠ args.length := by
    rw [hm, hr.argc]
    exact fun h => h rfl
  rw [activateBlockInterp_eq hr.closure hslot (by omega) hcap, if_neg hargc, if_pos hcaps]
  split
  · rename_i hroom
    rw [hm] at hroom
    exact hnext hroom
  · exact rfl

theorem captures_fit {b : Block} {args : List Oop} (h : blockAct G W b args = some (act, W')) :
    (b.captures G).length ≤ (G.method b.method).ntemps := by
  unfold blockAct at h
  simp only at h
  split at h
  · assumption
  · cases h

theorem evalBlock_fit {b : Block} {args : List Oop} (h : evalBlock G n W live b args = some r) :
    (b.captures G).length ≤ (G.method b.method).ntemps := by
  cases n with
  | zero =>
    rw [evalBlock] at h
    cases h
  | succ n =>
    rw [evalBlock] at h
    obtain ⟨⟨act, W₁⟩, hact, -⟩ := Option.bind_eq_some_iff.mp h
    exact captures_fit hact

/-- A block activated and run to its end. -/
theorem activate_next (ih : Sound G n) {c : Nat} {cl : Closure} {b : Block} {args : List Oop}
    (hc : Calling G vm W live k base) (hr : Ready G vm k base c cl b args)
    (he : evalBlock G n W live b args = some r) (hclean : r.clean = true)
    (hend : Ends G P vm live k base r.world r.outcome) :
    Yields Overflow (fun o => ∃ act, o = some act ∧ Reaches G P act)
      (vm.activateBlockInterp G (.closure c) args.length) :=
  hr.activate hc.cap (evalBlock_fit he) fun hspace =>
    ⟨_, rfl, ih.block hc hr hspace he hclean hend⟩

/-! ## Markers -/

/-- The stack with a marker set on the frame with serial `s`. -/
def mark (st : ProcessStack) (fp s : Nat) (m : Oop) (kind : MarkerKind) : ProcessStack :=
  (st.set (fp + 5) (.smi (s + kind.bit))).set (fp + 6) m

variable {st : ProcessStack} {fp s : Nat} {kind : MarkerKind} {w : Oop}

theorem mark_slots_ne {i : Nat} (h₅ : i ≠ fp + 5) (h₆ : i ≠ fp + 6) :
    (mark st fp s w kind).slots i = st.slots i := by
  rw [mark, ProcessStack.set_slots_ne _ _ h₆, ProcessStack.set_slots_ne _ _ h₅]

theorem mark_marker : (mark st fp s w kind).slots (fp + 6) = w :=
  ProcessStack.set_slots_self _ _ _

theorem mark_serial : (mark st fp s w kind).slots (fp + 5) = .smi (s + kind.bit) := by
  rw [mark, ProcessStack.set_slots_ne _ _ (by omega), ProcessStack.set_slots_self]

theorem setMarker_eq (h : readSerial (st.slots (fp + 5)) = some s) :
    st.setMarker fp w kind = .ok (mark st fp s w kind) := by
  have hserial : st.serial fp = .ok s := by
    unfold readSerial at h
    split at h
    · rename_i v hv
      obtain rfl := Option.some.inj h
      simp only [ProcessStack.serial, frameSerial, hv, Oop.asSmi, Except.map]
    · cases h
  rw [ProcessStack.setMarker, hserial]
  rfl

/-- The kind of a marker is the one it was set with. -/
theorem markerKind_eq (hs : s < 2 ^ 32) (h : st.slots (fp + 5) = .smi (s + kind.bit)) :
    st.markerKind fp = .ok kind := by
  simp only [ProcessStack.markerKind, frameSerial, h, Oop.asSmi, Except.map]
  cases kind with
  | ensure =>
    have hbit : ((s : Int) + 0) / 2 ^ 32 % 2 = 0 := by omega
    exact congrArg Except.ok (if_pos hbit)
  | ifCurtailed =>
    have hbit : ¬ ((s : Int) + 2 ^ 32) / 2 ^ 32 % 2 = 0 := by omega
    exact congrArg Except.ok (if_neg hbit)

theorem mark_framed (hbase : base < vm.stack.fp) (hs : s < 2 ^ 32)
    (h : readSerial (vm.stack.slots (vm.stack.fp + 5)) = some s) :
    Framed base vm (vm.withStack (mark vm.stack vm.stack.fp s w kind)) := by
  refine ⟨⟨rfl, List.prefix_refl _, List.prefix_refl _, Nat.le_refl _⟩, rfl, rfl, ?_, ?_, ?_⟩
  · exact fun i hi => mark_slots_ne (by omega) (by omega)
  · exact fun i hi => mark_slots_ne (by omega) (by omega)
  · rw [h]
    show readSerial ((mark vm.stack vm.stack.fp s w kind).slots (vm.stack.fp + 5)) = _
    rw [mark_serial, readSerial, serialBits_add_bit hs]

theorem clearMarker_framed (hbase : base < vm.stack.fp) :
    Framed base vm (vm.withStack (vm.stack.clearMarker vm.stack.fp)) := by
  have hother : ∀ i, i ≠ vm.stack.fp + 6 →
      (vm.stack.clearMarker vm.stack.fp).slots i = vm.stack.slots i :=
    fun i hi => vm.stack.set_slots_ne .nil hi
  refine ⟨⟨rfl, List.prefix_refl _, List.prefix_refl _, Nat.le_refl _⟩, rfl, rfl, ?_, ?_, ?_⟩
  · exact fun i hi => hother _ (by omega)
  · exact fun i hi => hother _ (by omega)
  · exact congrArg readSerial (hother _ (by omega))

/-- Marking the frame changes nothing the activation sees. -/
theorem Represents.marked (h : vm.Represents G W live act) :
    (vm.withStack (mark vm.stack vm.stack.fp (act.id % 2 ^ 32) w kind)).Represents G W live act := by
  have hlt := h.receiverBase_lt
  have hbelow := h.below
  have hargc := h.argc
  have hfloor : vm.floor G act.method = vm.stack.fp + 7 + (G.method act.method).ntemps := rfl
  have hs := @mark_framed _ vm _ _ kind w hlt (Nat.mod_lt _ (Nat.two_pow_pos 32)) h.serial
  refine h.keep hs (h.shows.congr rfl rfl rfl rfl rfl fun _ ha => ha) rfl rfl rfl ?_ ?_ ?_ h.sp h.cap
  · exact h.args.congr fun i hi => mark_slots_ne (by omega) (by omega)
  · exact h.temps.congr fun i _ => mark_slots_ne (by omega) (by omega)
  · exact h.operands.congr fun i _ => mark_slots_ne (by omega) (by omega)

/-! ## Handlers -/

/-- A handler is started above the operands of its frame, and what it does is followed to the
end of its activation. -/
theorem startHandler_next (ih : Sound G n) {id ch resume : Nat} {clh : Closure} {h : Block}
    (hc : Calling G vm₀ W live k base) (hcalled : Called G vm₀ k base m id vm)
    (hshows : vm.Shows G W') (hfloor : vm.floor G m ≤ vm.stack.sp)
    (hcl : vm.closures[ch]? = some clh) (hblk : ShowsBlock G vm.ledger vm.nextFrameSerial clh h)
    (hargc : (G.method h.method).argc = 0) (hresume : resume < bciResumeCannotReturn)
    (he : evalBlock G n { W' with handlerRuns := W'.handlerRuns ++ [id] } live h [] = some r)
    (hclean : r.clean = true)
    (hend : ∀ vmH, vmH = (vm.pushed (.closure ch)).noteHandler resume →
      Ends G P vmH live false vm.stack.sp r.world r.outcome) :
    After G P (vm.startHandler G (.closure ch) resume) := by
  have hbase := hcalled.at_
  have hfl : vm.floor G m = vm.stack.fp + 7 + (G.method m).ntemps := rfl
  refine Yields.bind (push_yields (Q := fun vm' => vm' = vm.pushed (.closure ch) ∧
    vm.stack.sp < stackCapacity) fun hroom => ⟨rfl, hroom⟩) ?_
  rintro vm' ⟨rfl, hroom⟩
  set vmH := (vm.pushed (.closure ch)).noteHandler resume with hvmH
  have hlow : ∀ i < vm.stack.sp, vmH.stack.slots i = vm.stack.slots i :=
    fun i hi => vm.stack.set_slots_ne _ (Nat.ne_of_lt hi)
  have hcapH : vmH.stack.sp ≤ stackCapacity := hroom
  have hmethod : vmH.stack.slots vmH.stack.fp = .method m :=
    (hlow vm.stack.fp (by omega)).trans hcalled.method
  have hcalling : Calling G vmH { W' with handlerRuns := W'.handlerRuns ++ [id] } live false
      vm.stack.sp := by
    refine ⟨⟨hshows.contexts, hshows.heap, hshows.next, ?_, hshows.blocks⟩, ?_, ?_, hcapH, fun _ =>
      ⟨m, id, vm₀.ledger, hcalled.ledger, hmethod, hfloor, hresume⟩⟩
    · show vm.handlerRuns ++ (vm.ledger.head?.map Activation.id).toList = _
      rw [hshows.handlerRuns, hcalled.ledger]
      rfl
    · intro x hx
      obtain ⟨a, ha, hid⟩ := hc.live x hx
      refine ⟨a, ?_, hid⟩
      show a ∈ vm.ledger
      rw [hcalled.ledger]
      exact List.mem_cons_of_mem _ ha
    · have hground : Grounded vm.stack vm.ledger vm.nextFrameSerial vm.stack.sp :=
        hcalled.grounded hc.grounded (by omega)
      exact hground.congr hlow
  have hlink : asI64 vmH.stack.fp = vmH.linkOf false := by
    apply asI64_of_lt
    show vm.stack.fp < _
    unfold stackCapacity at hroom
    omega
  have hready : Ready G vmH false vm.stack.sp ch clh h [] :=
    ⟨⟨rfl, vm.stack.set_slots_self _ _, ProcessStack.holds_nil⟩, hcl, hblk, hargc, hlink⟩
  refine Yields.bind (activate_next ih hcalling hready he hclean (hend vmH rfl)) ?_
  rintro o ⟨act, rfl, hreach⟩
  exact hreach

/-- The handler that ran on a return is done: the return goes on. -/
theorem resumeEnsureRet_next {id : Nat} (hc : Calling G vm₀ W live k base)
    (hcalled : Called G vm₀ k base m id vm) (hmark : vm.stack.slots (vm.stack.fp + 6) = .nil)
    (hshows : vm.Shows G W') (hcontrol : vm.control = .resumeEnsureRet)
    (hfloor : vm.floor G m + 2 ≤ vm.stack.sp) (htop : vm.stack.slots (vm.stack.sp - 2) = v)
    (hend : Ends G P vm₀ live k base W' (.ret v)) : Reaches G P vm := by
  have hfl : vm.floor G m = vm.stack.fp + 7 + (G.method m).ntemps := rfl
  have hbase := hcalled.at_
  refine reaches_of_step ?_
  simp only [step, hcontrol]
  unfold Vm.resumeEnsureRet Vm.pop Vm.needs ProcessStack.operandFloor
  have hid : (vm.withSp (vm.stack.sp - 1)).stack.frameMethodId
      (vm.withSp (vm.stack.sp - 1)).stack.fp = .ok m := hcalled.frameMethodId
  have hle : (vm.withSp (vm.stack.sp - 1)).stack.fp + frameTempsBase + (G.method m).ntemps + 1 ≤
      (vm.withSp (vm.stack.sp - 1)).stack.sp := by
    show vm.stack.fp + 7 + (G.method m).ntemps + 1 ≤ vm.stack.sp - 1
    omega
  simp only [hid, ok_bind, if_pos hle]
  have hval : (vm.withSp (vm.stack.sp - 1)).stack.slots ((vm.withSp (vm.stack.sp - 1)).stack.sp - 1) =
      v := by
    rw [← htop]
    show vm.stack.slots (vm.stack.sp - 1 - 1) = _
    rw [Nat.sub_sub]
  rw [hval]
  have hs : Same base vm ((vm.withSp (vm.stack.sp - 1)).withSp
      ((vm.withSp (vm.stack.sp - 1)).stack.sp - 1)) := .of_stack rfl fun _ _ => rfl
  exact (hcalled.framed hs.toFramed).doReturn hc hmark
    (hshows.congr rfl rfl rfl rfl rfl fun _ ha => ha) hend

/-- The handler that ran on an unwind is done: the unwind goes on to its home. -/
theorem resumeUnwind_next {id t home : Nat} {ref : HomeRef} (hc : Calling G vm₀ W live k base)
    (hcalled : Called G vm₀ k base m id vm) (hmark : vm.stack.slots (vm.stack.fp + 6) = .token t)
    (htoken : vm.tokens[t]? = some ⟨packHomeRef ref, v⟩) (hshows : vm.Shows G W')
    (hcontrol : vm.control = .resumeUnwind) (hfloor : vm.floor G m + 1 ≤ vm.stack.sp)
    (hcap : vm.stack.sp ≤ stackCapacity + 1) (hlive : home ∈ live)
    (hn : Names vm.ledger vm.nextFrameSerial ref home)
    (hend : Ends G P vm₀ live k base W' (.nlr home v)) : Reaches G P vm := by
  obtain rfl := hend.1
  have hfl : vm.floor G m = vm.stack.fp + 7 + (G.method m).ntemps := rfl
  have hbase := hcalled.at_
  have hserial : ref.serial < 2 ^ 32 := by
    rw [hn.serial]
    exact Nat.mod_lt _ (Nat.two_pow_pos 32)
  have hproc : ref.proc < 2 ^ 8 := by
    rw [hn.proc]
    exact Nat.two_pow_pos 8
  refine reaches_of_step ?_
  simp only [step, hcontrol]
  unfold Vm.resumeUnwind
  have hclass : markerClass (vm.withSp (vm.stack.sp - 1)).stack (vm.withSp (vm.stack.sp - 1)).stack.fp =
      .ok (.token t) := by
    show markerClass (vm.stack.withSp (vm.stack.sp - 1)) vm.stack.fp = _
    simp only [markerClass, ProcessStack.marker, frameMarker, ProcessStack.withSp_slots, hmark]
  have htoken' : (vm.withSp (vm.stack.sp - 1)).tokens[t]? = some ⟨packHomeRef ref, v⟩ := htoken
  simp only [hclass, ok_bind, htoken', unpackHomeRef_pack hproc hserial hn.bound]
  set vmC : Vm σ := (vm.withSp (vm.stack.sp - 1)).withStack ((vm.withSp
    (vm.stack.sp - 1)).stack.clearMarker (vm.withSp (vm.stack.sp - 1)).stack.fp) with hvmC
  have hs : Same base vm (vm.withSp (vm.stack.sp - 1)) := .of_stack rfl fun _ _ => rfl
  have hf : Framed base vm vmC := hs.toFramed.trans (clearMarker_framed (by
    show base < vm.stack.fp
    omega))
  have hunwinds := (hcalled.framed hf).pass hc (.inl (ProcessStack.set_slots_self _ _ _))
    (hshows.congr rfl rfl rfl rfl rfl fun _ ha => ha) (by
      show vm.stack.fp + 7 ≤ vm.stack.sp - 1
      omega) (by
      show vm.stack.sp - 1 ≤ stackCapacity
      omega) hlive hn hend
  exact hunwinds.after none

/-- The outcome of a protected block whose handler has run. -/
def afterHandler (o o' : Outcome) : Outcome :=
  match o' with
  | .ret _ => o
  | .nlr _ _ => o'

/-- The handler's own start changes nothing in the frame it belongs to. -/
theorem noteHandler_same {resume : Nat} (hroom : vm.floor G m ≤ vm.stack.sp)
    (hbase : base < vm.stack.fp) : Same base vm ((vm.pushed w).noteHandler resume) := by
  have hfl : vm.floor G m = vm.stack.fp + 7 + (G.method m).ntemps := rfl
  refine .of_slots ⟨rfl, List.prefix_refl _, List.prefix_refl _, Nat.le_refl _⟩ rfl rfl fun i hi => ?_
  exact vm.stack.set_slots_ne _ (by omega)

/-- A handler left by its own non-local return: the frame it belongs to is passed. -/
theorem handler_passed {id home : Nat} {resume : Nat} (hc : Calling G vm₀ W live k base)
    (hcalled : Called G vm₀ k base m id vm) (hroom : vm.floor G m ≤ vm.stack.sp)
    (hmark : vm.Unarmed) (hend : Ends G P vm₀ live k base W' (.nlr home v)) :
    Ends G P ((vm.pushed w).noteHandler resume) live false vm.stack.sp W' (.nlr home v) := by
  have hfl : vm.floor G m = vm.stack.fp + 7 + (G.method m).ntemps := rfl
  have hbase := hcalled.at_
  obtain rfl := hend.1
  refine ⟨rfl, fun hlive vm' ref hpassed hn => ?_⟩
  have hstarted : Same base vm ((vm.pushed w).noteHandler resume) := noteHandler_same hroom (by omega)
  have hs : Same base vm vm' := hstarted.trans
    (hpassed.same (by omega) (by show vm.stack.fp + 7 ≤ _; omega))
  have hmark' : vm'.Unarmed := by
    unfold Unarmed
    rw [hs.fp, hs.marker]
    exact hmark
  have habove := hpassed.above
  refine (hcalled.framed hs.toFramed).pass hc hmark' hpassed.shows ?_ hpassed.cap hlive hn hend
  rw [hs.fp]
  omega

/-- A return from a frame armed by `ensure:` runs the handler first. -/
theorem armed_return (ih : Sound G n) {id ch s : Nat} {clh : Closure} {h : Block}
    (hc : Calling G vm₀ W live k base) (hcalled : Called G vm₀ k base m id vm)
    (hmark : vm.stack.slots (vm.stack.fp + 6) = .closure ch)
    (hkind : vm.stack.slots (vm.stack.fp + 5) = .smi (s + MarkerKind.ensure.bit)) (hs : s < 2 ^ 32)
    (hshows : vm.Shows G W') (hfloor : vm.floor G m ≤ vm.stack.sp)
    (hcl : vm.closures[ch]? = some clh) (hblk : ShowsBlock G vm.ledger vm.nextFrameSerial clh h)
    (hargc : (G.method h.method).argc = 0)
    (he : evalBlock G n { W' with handlerRuns := W'.handlerRuns ++ [id] } live h [] = some r)
    (hclean : r.clean = true)
    (hend : Ends G P vm₀ live k base r.world (afterHandler (.ret v) r.outcome)) :
    After G P (vm.doReturn G v) := by
  have hfl : vm.floor G m = vm.stack.fp + 7 + (G.method m).ntemps := rfl
  have hbase := hcalled.at_
  have hlt : base < vm.stack.fp := by omega
  have hclass : markerClass vm.stack vm.stack.fp = .ok (.handler (.closure ch)) := by
    simp only [markerClass, ProcessStack.marker, frameMarker, hmark]
  have hensure := markerKind_eq hs hkind
  unfold Vm.doReturn
  simp only [hclass, hensure, ok_bind]
  set vmC : Vm σ := vm.withStack (vm.stack.clearMarker vm.stack.fp) with hvmC
  refine Yields.bind (push_yields (Q := fun vm' => vm' = vmC.pushed v) fun _ => rfl) ?_
  rintro vmV rfl
  have hfC : Framed base vm vmC := clearMarker_framed hlt
  have hother : ∀ i < vm.stack.sp, (vmC.pushed v).stack.slots i = vmC.stack.slots i :=
    fun i hi => vmC.stack.set_slots_ne v (Nat.ne_of_lt hi)
  have hsV : Same base vmC (vmC.pushed v) := by
    refine .of_slots ⟨rfl, List.prefix_refl _, List.prefix_refl _, Nat.le_refl _⟩ rfl rfl fun i hi =>
      hother i ?_
    have hfp : vmC.stack.fp = vm.stack.fp := rfl
    omega
  have hnil : (vmC.pushed v).stack.slots ((vmC.pushed v).stack.fp + 6) = .nil := by
    show (vmC.pushed v).stack.slots (vm.stack.fp + 6) = _
    rw [hother _ (by omega)]
    exact ProcessStack.set_slots_self _ _ _
  have hcalledV := hcalled.framed (hfC.trans hsV.toFramed)
  have hspV : (vmC.pushed v).stack.sp = vm.stack.sp + 1 := rfl
  have hflV : (vmC.pushed v).floor G m = vm.floor G m := rfl
  have hfpV : (vmC.pushed v).stack.fp = vm.stack.fp := rfl
  refine startHandler_next ih hc hcalledV (hshows.congr rfl rfl rfl rfl rfl fun _ ha => ha) (by omega)
    hcl hblk hargc (by decide) he hclean ?_
  rintro vmH rfl
  cases hout : r.outcome with
  | ret v' =>
    rw [hout] at hend
    intro vm₂ hret
    have hroom : (vmC.pushed v).floor G m ≤ (vmC.pushed v).stack.sp := by omega
    have hsH : Same base (vmC.pushed v)
        (((vmC.pushed v).pushed (.closure ch)).noteHandler bciResumeEnsureRet) :=
      noteHandler_same hroom (by omega)
    have hs₂ : Same base (vmC.pushed v) vm₂ := hsH.trans (hret.same (by omega) (by
      show vm.stack.fp + 7 ≤ _
      omega))
    obtain ⟨-, hsp₂, -, hcontrol⟩ := hret.delivered
    have hcalled₂ := hcalledV.framed hs₂.toFramed
    refine resumeEnsureRet_next hc hcalled₂ ?_ hret.shows (hcontrol m ?_) ?_ ?_ hend
    · rw [hs₂.fp, hs₂.marker]
      exact hnil
    · exact (hsH.header 0 (by decide)).trans hcalledV.method
    · rw [floor, hs₂.fp, hsp₂]
      show vm.stack.fp + 7 + (G.method m).ntemps + 2 ≤ _
      omega
    · have hidx : vm₂.stack.sp - 2 = vm.stack.sp := by omega
      rw [hidx, hret.below _ (by omega)]
      exact ((vmC.pushed v).stack.set_slots_ne _ (by omega)).trans (vmC.stack.set_slots_self _ _)
  | nlr home v' =>
    rw [hout] at hend
    exact handler_passed hc hcalledV (by omega) (.inl hnil) hend

/-- The frame an unwind stops at: armed, it becomes part of the unwind and its handler runs. -/
theorem armed_unwind (ih : Sound G n) {id ch home : Nat} {clh : Closure} {h : Block} {ref : HomeRef}
    (hc : Calling G vm₀ W live k base) (hcalled : Called G vm₀ k base m id vm)
    (hmark : vm.stack.slots (vm.stack.fp + 6) = .closure ch)
    (hshows : vm.Shows G W') (hfloor : vm.floor G m ≤ vm.stack.sp) (hcap : vm.stack.sp ≤ stackCapacity)
    (hcl : vm.closures[ch]? = some clh) (hblk : ShowsBlock G vm.ledger vm.nextFrameSerial clh h)
    (hargc : (G.method h.method).argc = 0)
    (he : evalBlock G n { W' with handlerRuns := W'.handlerRuns ++ [id] } live h [] = some r)
    (hclean : r.clean = true) (hlive : home ∈ live)
    (hn : Names vm.ledger vm.nextFrameSerial ref home)
    (hend : Ends G P vm₀ live k base r.world (afterHandler (.nlr home v) r.outcome)) :
    Unwinds G P ref v vm := by
  have hfl : vm.floor G m = vm.stack.fp + 7 + (G.method m).ntemps := rfl
  have hbase := hcalled.at_
  have hlt : base < vm.stack.fp := by omega
  have hserial : id % 2 ^ 32 < 2 ^ 32 := Nat.mod_lt _ (Nat.two_pow_pos 32)
  obtain ⟨a, ha, hid⟩ := hc.live home hlive
  have hmem : a ∈ vm.ledger := by
    rw [hcalled.ledger]
    exact List.mem_cons_of_mem _ ha
  have hbelow := hc.grounded.below a ha
  have hfp := hn.fp a hmem hid
  have hne : vm.stack.fp ≠ ref.fp := by omega
  have hclass : markerClass vm.stack vm.stack.fp = .ok (.handler (.closure ch)) := by
    simp only [markerClass, ProcessStack.marker, frameMarker, hmark]
  have hscan : innermostMarkedFrame vm.stack (vm.stack.fp + 1) vm.stack.fp ref.fp =
      .ok (.marked vm.stack.fp (.closure ch)) := by
    rw [innermostMarkedFrame, if_neg hne, hclass]
    rfl
  have hground : Grounded vm.stack vm.ledger vm.nextFrameSerial vm.stack.sp :=
    hcalled.grounded hc.grounded (by omega)
  have hisLive := homeIsLive_of_names hground (Nat.le_refl _) hn ⟨a, hmem, hid⟩
  refine ⟨⟨_, hscan, trivial⟩, fun origin => ?_⟩
  unfold continueUnwind
  rw [if_neg (not_usizeMax (by omega)), hisLive, if_neg (by decide), hscan, ok_bind]
  simp only [hcalled.popFramesAbove_self, ok_bind]
  refine Yields.bind (push_yields (Q := fun _ => True) fun _ => trivial) fun _ _ => ?_
  have hsE : Same base vm (vm.emptied G m) := emptied_same hlt
  have hcalledE := hcalled.framed hsE.toFramed
  have hset : (vm.emptied G m).stack.setMarker vm.stack.fp (.token (vm.emptied G m).tokens.length)
      .ensure = .ok (mark (vm.emptied G m).stack vm.stack.fp (id % 2 ^ 32)
        (.token (vm.emptied G m).tokens.length) .ensure) := setMarker_eq hcalledE.serial
  rw [hset, ok_bind]
  set vmT : Vm σ := { (vm.emptied G m).withStack (mark (vm.emptied G m).stack vm.stack.fp
      (id % 2 ^ 32) (.token (vm.emptied G m).tokens.length) .ensure) with
    tokens := (vm.emptied G m).tokens ++ [⟨packHomeRef ref, v⟩] } with hvmT
  have hfT : Framed base vm vmT := by
    have hm := @mark_framed _ (vm.emptied G m) base _ .ensure (.token vm.tokens.length) hlt hserial
      hcalledE.serial
    refine hsE.toFramed.trans ⟨⟨rfl, List.prefix_append _ _, List.prefix_refl _, Nat.le_refl _⟩, rfl,
      rfl, hm.below, hm.header, hm.serial⟩
  have hcalledT := hcalled.framed hfT
  have htok : vmT.stack.slots (vmT.stack.fp + 6) = .token vm.tokens.length := mark_marker
  have hget : vmT.tokens[vm.tokens.length]? = some ⟨packHomeRef ref, v⟩ := by
    show (vm.tokens ++ [_])[vm.tokens.length]? = _
    rw [List.getElem?_concat_length]
  have hspT : vmT.stack.sp = vm.floor G m := rfl
  have hfpT : vmT.stack.fp = vm.stack.fp := rfl
  have hflT : vmT.floor G m = vm.floor G m := rfl
  refine startHandler_next ih hc hcalledT (hshows.congr rfl rfl rfl rfl rfl fun _ ha => ha)
    (Nat.le_refl _) hcl hblk hargc (by decide) he hclean ?_
  rintro vmH rfl
  cases hout : r.outcome with
  | ret v' =>
    rw [hout] at hend
    obtain rfl := hend.1
    intro vm₂ hret
    have hroom : vmT.floor G m ≤ vmT.stack.sp := Nat.le_refl _
    have hsH : Same base vmT ((vmT.pushed (.closure ch)).noteHandler bciResumeUnwind) :=
      noteHandler_same hroom (by omega)
    have hs₂ : Same base vmT vm₂ := hsH.trans (hret.same (by omega) (by
      show vm.stack.fp + 7 ≤ _
      omega))
    obtain ⟨-, hsp₂, -, hcontrol⟩ := hret.delivered
    have hcalled₂ := hcalledT.framed hs₂.toFramed
    have hctl : vm₂.control = resumeControl m bciResumeUnwind :=
      hcontrol m ((hsH.header 0 (by decide)).trans hcalledT.method)
    obtain ⟨more, hmore⟩ := hs₂.grows.tokens
    have hget₂ : vm₂.tokens[vm.tokens.length]? = some ⟨packHomeRef ref, v⟩ := by
      rw [← hmore, List.getElem?_append_left (by simp [hvmT, emptied, withStack]), hget]
    have hn₂ : Names vm₂.ledger vm₂.nextFrameSerial ref home := by
      refine hn.mono (fun b hb => .inl ?_) (Nat.le_trans hfT.grows.next hs₂.grows.next)
      rw [hs₂.ledger] at hb
      exact hb
    refine resumeUnwind_next hc hcalled₂ ?_ hget₂ hret.shows hctl ?_ ?_ hlive hn₂ hend
    · rw [hs₂.fp, hs₂.marker]
      exact htok
    · rw [floor, hs₂.fp, hsp₂]
      exact Nat.le_refl _
    · rw [hsp₂]
      omega
  | nlr home' v' =>
    rw [hout] at hend
    exact handler_passed hc hcalledT (Nat.le_refl _) (.inr ⟨_, htok⟩) hend

theorem evalProtected_ok (ih : Sound G n) : ProtectedOk G (n + 1) := by
  intro P vm W live entry base c ch cl clh p h kind r hcalling hready hspace hclh hblk hargc he hclean
    hend
  rw [evalProtected] at he
  obtain ⟨⟨act, W₁⟩, hb, he⟩ := Option.bind_eq_some_iff.mp he
  obtain ⟨r₁, hr₁, he⟩ := Option.bind_eq_some_iff.mp he
  obtain ⟨hrep, hcalled, -, hcontrol, hm, hid⟩ := hready.enter hcalling hspace hb
  rw [setMarker_eq hrep.serial]
  set vmP := (vm.enterBlock G cl).withStack (mark (vm.enterBlock G cl).stack
    (vm.enterBlock G cl).stack.fp (act.id % 2 ^ 32) (.closure ch) kind) with hvmP
  have hlt : base < (vm.enterBlock G cl).stack.fp := by
    have hat := hcalled.at_
    omega
  have hs32 : act.id % 2 ^ 32 < 2 ^ 32 := Nat.mod_lt _ (Nat.two_pow_pos 32)
  have hframed : Framed base (vm.enterBlock G cl) vmP := mark_framed hlt hs32 hrep.serial
  have hgrows : Grows vm vmP := hcalled.grows.trans hframed.grows
  -- the handler outlives the protected block's frame
  have hkeep : ∀ {vm₁ : Vm σ}, Called G vm entry base p.method W.next vm₁ →
      vm₁.closures[ch]? = some clh ∧ ShowsBlock G vm₁.ledger vm₁.nextFrameSerial clh h := by
    intro vm₁ hcalled₁
    refine ⟨hcalled₁.grows.closure hclh, hblk.method, hblk.copied, hblk.isBlock, ?_⟩
    refine hblk.home.mono (fun a ha => ?_) hcalled₁.grows.next
    rw [hcalled₁.ledger] at ha
    rcases List.mem_cons.mp ha with rfl | ha
    · exact .inr hcalled₁.later
    · exact .inl ha
  have hclean₁ : r₁.clean = true := by
    simp only at he
    split at he
    · obtain rfl := Option.some.inj he
      simp only [Bool.and_eq_true] at hclean
      exact hclean.1
    · obtain ⟨r', -, rfl⟩ := Option.map_eq_some_iff.mp he
      simp only [Bool.and_eq_true] at hclean
      exact hclean.1.1
  refine block_ends ih hready hcalling hspace hb hrep.marked hframed hcontrol hr₁ hclean₁ ?_
  intro vm₁ hcalled₁ hs hshows hfloor hcap
  obtain ⟨hclh₁, hblk₁⟩ := hkeep hcalled₁
  have hmark₁ : vm₁.stack.slots (vm₁.stack.fp + 6) = .closure ch := by
    rw [hs.fp, hs.marker]
    exact mark_marker
  have hkind₁ : vm₁.stack.slots (vm₁.stack.fp + 5) = .smi ((act.id % 2 ^ 32 : Nat) + kind.bit) := by
    rw [hs.fp, hs.kind]
    exact mark_serial
  -- every case but a curtailed block's return runs the handler
  have hrun : (∀ {r' : Result σ}, evalBlock G n { r₁.world with
        handlerRuns := r₁.world.handlerRuns ++ [W.next] } live h [] = some r' → r'.clean = true →
      Ends G P vm live entry base r'.world (afterHandler r₁.outcome r'.outcome) →
      Exits G P vm₁ live r₁.outcome) → (∃ r' : Result σ, evalBlock G n { r₁.world with
        handlerRuns := r₁.world.handlerRuns ++ [act.id] } live h [] = some r' ∧
      r = ⟨r'.world, afterHandler r₁.outcome r'.outcome,
        r₁.clean && r'.clean && !((G.method p.method).hasCtx && G.collects W.contexts.length)⟩) →
      Exits G P vm₁ live r₁.outcome := by
    rintro hgo ⟨r', hr', rfl⟩
    simp only [Bool.and_eq_true] at hclean
    rw [hid] at hr'
    exact hgo hr' hclean.1.2 hend
  cases hout : r₁.outcome with
  | ret v =>
    cases kind with
    | ensure =>
      simp only [hout] at he hrun
      obtain ⟨r', hr', rfl⟩ := Option.map_eq_some_iff.mp he
      refine hrun (fun hr' hcl' hend' => ?_) ⟨r', hr', ?_⟩
      · exact armed_return ih hcalling hcalled₁ hmark₁ hkind₁ hs32 hshows hfloor hclh₁ hblk₁ hargc hr'
          hcl' hend'
      · cases hr : r'.outcome <;> rfl
    | ifCurtailed =>
      simp only [hout] at he
      obtain rfl := Option.some.inj he
      have hclass : markerClass vm₁.stack vm₁.stack.fp = .ok (.handler (.closure ch)) := by
        simp only [markerClass, ProcessStack.marker, frameMarker, hmark₁]
      have hlt₁ : base < vm₁.stack.fp := by
        have hat := hcalled₁.at_
        omega
      show After G P (vm₁.doReturn G v)
      unfold Vm.doReturn
      simp only [hclass, markerKind_eq hs32 hkind₁, ok_bind]
      exact (hcalled₁.framed (clearMarker_framed hlt₁)).popAndDeliver hcalling
        (hshows.congr rfl rfl rfl rfl rfl fun _ ha => ha) hend
  | nlr home v =>
    have he' : ∃ r' : Result σ, evalBlock G n { r₁.world with
        handlerRuns := r₁.world.handlerRuns ++ [act.id] } live h [] = some r' ∧
        r = ⟨r'.world, afterHandler r₁.outcome r'.outcome,
          r₁.clean && r'.clean && !((G.method p.method).hasCtx && G.collects W.contexts.length)⟩ := by
      simp only [hout] at he ⊢
      obtain ⟨r', hr', rfl⟩ := Option.map_eq_some_iff.mp he
      refine ⟨r', hr', ?_⟩
      cases hr : r'.outcome <;> rfl
    rw [hout] at hrun he'
    refine hrun (fun hr' hcl' hend' hlive ref hn => ?_) he'
    exact armed_unwind ih hcalling hcalled₁ hmark₁ hshows hfloor hcap hclh₁ hblk₁ hargc hr' hcl' hlive
      hn hend'

end Vm

end

end WinVm.Process
