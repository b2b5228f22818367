import Mathlib.Data.List.Nodup
import WinVm.Process.Activation

/-!
# Home liveness

`home_is_live` compares one stack word with a serial. The word is the serial word of a
frame as long as that frame is on the stack, so a live home is always found; once the
frame is gone the word belongs to whatever later activations put there.

The invariant of every run is `Stacked`: the ledger of activations is laid out on the
process stack as disjoint frames, linked by their saved frame pointers, with the nested
interpreter runs between them.

Results:

* `Vm.step_stacked`: every step keeps the layout;
* `home_is_live_exact`: in a run where no step leaves the serial of a dead captured
  activation in that activation's old serial word, `home_is_live` is exact.
-/

namespace WinVm.Process

section
variable {σ : Type} {G : Guest σ}

/-! ## The layout of the stack -/

/-- The frame of `a`: its link words, its serial, and its place below `top`. -/
structure FrameOk (G : Guest σ) (st : ProcessStack) (a : Activation) (link : Int) (m top : Nat) :
    Prop where
  method : st.slots a.fp = .method m
  savedFp : st.slots (a.fp + 1) = .smi link
  savedBci : ∃ b, st.slots (a.fp + 2) = .smi b
  serial : ∃ w, st.slots (a.fp + 5) = .smi w ∧ serialBits w = a.id % 2 ^ 32
  below : (G.method m).argc + 1 ≤ a.fp
  above : a.fp + 7 + (G.method m).ntemps ≤ top

/-- The frames of a ledger, innermost first, below `top`. The flag says whether the
innermost interpreter run has a frame yet; an entry frame is linked by the sentinel, and
the record of its nested run says which frame waits for it. -/
inductive Stacked (G : Guest σ) (st : ProcessStack) : Bool → List Activation → List Nested → Nat → Prop
  | bottom (top : Nat) : Stacked G st false [] [] top
  | call {a b : Activation} {l : List Activation} {ns : List Nested} {m top : Nat}
      (frame : FrameOk G st a b.fp m top)
      (rest : Stacked G st true (b :: l) ns (a.fp - (G.method m).argc - 1)) :
      Stacked G st true (a :: b :: l) ns top
  | entry {a : Activation} {l : List Activation} {ns : List Nested} {m top : Nat}
      (frame : FrameOk G st a entryFrameSentinel m top)
      (rest : Stacked G st false l ns (a.fp - (G.method m).argc - 1)) :
      Stacked G st true (a :: l) ns top
  | send {a : Activation} {l : List Activation} {n : Nested} {ns : List Nested} {top : Nat}
      (entry : n.entry = false) (fp : n.fp = a.fp) (base : n.base ≤ top)
      (rest : Stacked G st true (a :: l) ns n.base) : Stacked G st false (a :: l) (n :: ns) top
  | reenter {l : List Activation} {n : Nested} {ns : List Nested} {top : Nat}
      (entry : n.entry = true) (base : n.base ≤ top)
      (rest : Stacked G st false l ns n.base) : Stacked G st false l (n :: ns) top

theorem FrameOk.congr {st st' : ProcessStack} {a : Activation} {link : Int} {m top : Nat}
    (h : FrameOk G st a link m top) (heq : ∀ i < top, st'.slots i = st.slots i) :
    FrameOk G st' a link m top := by
  have habove := h.above
  obtain ⟨b, hb⟩ := h.savedBci
  obtain ⟨w, hw, hbits⟩ := h.serial
  refine ⟨?_, ?_, ⟨b, ?_⟩, ⟨w, ?_, hbits⟩, h.below, h.above⟩
  · rw [heq _ (by omega), h.method]
  · rw [heq _ (by omega), h.savedFp]
  · rw [heq _ (by omega), hb]
  · rw [heq _ (by omega), hw]

theorem FrameOk.mono {st : ProcessStack} {a : Activation} {link : Int} {m top top' : Nat}
    (h : FrameOk G st a link m top) (hle : top ≤ top') : FrameOk G st a link m top' :=
  { h with above := Nat.le_trans h.above hle }

namespace Stacked

variable {st st' : ProcessStack} {k : Bool} {l : List Activation} {ns : List Nested} {top top' : Nat}

theorem congr (h : Stacked G st k l ns top) (heq : ∀ i < top, st'.slots i = st.slots i) :
    Stacked G st' k l ns top := by
  induction h with
  | bottom top => exact .bottom top
  | call frame rest ih =>
    have habove := frame.above
    exact .call (frame.congr heq) (ih fun i hi => heq i (by omega))
  | entry frame rest ih =>
    have habove := frame.above
    exact .entry (frame.congr heq) (ih fun i hi => heq i (by omega))
  | send entry fp base rest ih => exact .send entry fp base (ih fun i hi => heq i (by omega))
  | reenter entry base rest ih => exact .reenter entry base (ih fun i hi => heq i (by omega))

theorem mono (h : Stacked G st k l ns top) (hle : top ≤ top') : Stacked G st k l ns top' := by
  cases h with
  | bottom top => exact .bottom top'
  | call frame rest => exact .call (frame.mono hle) rest
  | entry frame rest => exact .entry (frame.mono hle) rest
  | send entry fp base rest => exact .send entry fp (Nat.le_trans base hle) rest
  | reenter entry base rest => exact .reenter entry (Nat.le_trans base hle) rest

/-- Every activation of the ledger has its frame on the stack. -/
theorem frameOk (h : Stacked G st k l ns top) {a : Activation} (ha : a ∈ l) :
    ∃ link m, FrameOk G st a link m top := by
  induction h with
  | bottom top => cases ha
  | call frame rest ih =>
    have habove := frame.above
    rcases List.mem_cons.mp ha with rfl | ha
    · exact ⟨_, _, frame⟩
    · obtain ⟨link, m, hf⟩ := ih ha
      exact ⟨link, m, hf.mono (by omega)⟩
  | entry frame rest ih =>
    have habove := frame.above
    rcases List.mem_cons.mp ha with rfl | ha
    · exact ⟨_, _, frame⟩
    · obtain ⟨link, m, hf⟩ := ih ha
      exact ⟨link, m, hf.mono (by omega)⟩
  | send entry fp base rest ih =>
    obtain ⟨link, m, hf⟩ := ih ha
    exact ⟨link, m, hf.mono base⟩
  | reenter entry base rest ih =>
    obtain ⟨link, m, hf⟩ := ih ha
    exact ⟨link, m, hf.mono base⟩

/-- A write inside the innermost frame, or among its arguments, that leaves the method,
the links and the serial alone keeps the layout. -/
theorem head_congr {a : Activation} {m : Nat} (h : Stacked G st true (a :: l) ns top)
    (hm : st.slots a.fp = .method m)
    (hbelow : ∀ i < a.fp - (G.method m).argc - 1, st'.slots i = st.slots i)
    (hword : ∀ i, i = 0 ∨ i = 1 ∨ i = 2 → st'.slots (a.fp + i) = st.slots (a.fp + i))
    (hserial : ∀ w, st.slots (a.fp + 5) = .smi w →
      ∃ w', st'.slots (a.fp + 5) = .smi w' ∧ serialBits w' = serialBits w) :
    Stacked G st' true (a :: l) ns top := by
  have hframe : ∀ {link : Int} {m' : Nat}, FrameOk G st a link m' top →
      m' = m ∧ FrameOk G st' a link m' top := by
    intro link m' hf
    have hsame : m' = m := by
      have := hf.method
      rw [hm] at this
      exact (Oop.method.inj this).symm
    obtain ⟨b, hb⟩ := hf.savedBci
    obtain ⟨w, hw, hbits⟩ := hf.serial
    obtain ⟨w', hw', hbits'⟩ := hserial w hw
    refine ⟨hsame, ?_, ?_, ⟨b, ?_⟩, ⟨w', hw', hbits'.trans hbits⟩, hf.below, hf.above⟩
    · exact (hword 0 (.inl rfl)).trans hf.method
    · exact (hword 1 (.inr (.inl rfl))).trans hf.savedFp
    · exact (hword 2 (.inr (.inr rfl))).trans hb
  cases h with
  | call frame rest =>
    obtain ⟨rfl, hf⟩ := hframe frame
    exact .call hf (rest.congr hbelow)
  | entry frame rest =>
    obtain ⟨rfl, hf⟩ := hframe frame
    exact .entry hf (rest.congr hbelow)

/-- The innermost frame reaches up to its temporaries only. -/
theorem lower {a : Activation} {m : Nat} (h : Stacked G st true (a :: l) ns top)
    (hm : st.slots a.fp = .method m) (hle : a.fp + 7 + (G.method m).ntemps ≤ top') :
    Stacked G st true (a :: l) ns top' := by
  have hframe : ∀ {link : Int} {m' : Nat}, FrameOk G st a link m' top →
      FrameOk G st a link m' top' := by
    intro link m' hf
    have hsame : m' = m := by
      have := hf.method
      rw [hm] at this
      exact (Oop.method.inj this).symm
    subst hsame
    exact { hf with above := hle }
  cases h with
  | call frame rest => exact .call (hframe frame) rest
  | entry frame rest => exact .entry (hframe frame) rest

end Stacked

/-! ## The invariant -/

namespace Vm

/-- What is below a new frame whose receiver slot is at `top`: the active frame, or, for an
entry, the frames of the outer runs. -/
def Base (G : Guest σ) (vm : Vm σ) (entry : Bool) (top : Nat) : Prop :=
  if entry then Stacked G vm.stack false vm.ledger vm.nested top
  else Stacked G vm.stack true vm.ledger vm.nested top ∧
    ∃ a l, vm.ledger = a :: l ∧ a.fp = vm.stack.fp

/-- The numbering of activations, and what a captured home names: an activation made
earlier, at the index it still has if it is still there. -/
structure Numbered (vm : Vm σ) : Prop where
  cap : vm.stack.sp ≤ stackCapacity
  ordered : vm.ledger.Pairwise fun a b => b.id < a.id
  fresh : ∀ a ∈ vm.ledger, a.id < vm.nextFrameSerial
  homes : ∀ c ∈ vm.closures, ∃ id < vm.nextFrameSerial, (unpackHomeRef c.home).proc = 0 ∧
    (unpackHomeRef c.home).serial = id % 2 ^ 32 ∧
    ∀ a ∈ vm.ledger, a.id = id → a.fp = (unpackHomeRef c.home).fp

/-- The layout each control state relies on. -/
def Laid (G : Guest σ) (vm : Vm σ) : Prop :=
  match vm.control with
  | .dispatch _ _ => vm.Base G false vm.stack.sp
  | .resumeEnsureRet => 1 ≤ vm.stack.sp ∧ vm.Base G false (vm.stack.sp - 1)
  | .resumeUnwind => 1 ≤ vm.stack.sp ∧ vm.Base G false (vm.stack.sp - 1)
  | .runMethod m argc => (G.method m).argc = argc ∧ argc + 1 ≤ vm.stack.sp ∧
    Stacked G vm.stack false vm.ledger vm.nested (vm.stack.sp - argc - 1)
  | .returned _ => Stacked G vm.stack false vm.ledger vm.nested vm.stack.sp

/-- What every routine leaves behind: the invariant, and the closures it found. -/
structure Keeps (G : Guest σ) (vm vm' : Vm σ) : Prop where
  numbered : vm'.Numbered
  laid : vm'.Laid G
  closures : vm'.closures = vm.closures

variable {vm vm' : Vm σ}

/-- A frame is active and the dispatch loop is about to run it. -/
structure Running (G : Guest σ) (vm vm' : Vm σ) : Prop where
  numbered : vm'.Numbered
  base : vm'.Base G false vm'.stack.sp
  control : ∃ m bci, vm'.control = .dispatch m bci
  closures : vm'.closures = vm.closures

theorem Running.keeps (h : Running G vm vm') : Keeps G vm vm' := by
  obtain ⟨m, bci, hc⟩ := h.control
  refine ⟨h.numbered, ?_, h.closures⟩
  rw [Laid, hc]
  exact h.base

theorem Running.trans_closures {vm₀ : Vm σ} (h : Running G vm vm')
    (hc : vm.closures = vm₀.closures) : Running G vm₀ vm' :=
  ⟨h.numbered, h.base, h.control, h.closures.trans hc⟩

theorem Numbered.sub (h : vm.Numbered) (hcap : vm'.stack.sp ≤ stackCapacity)
    (hl : vm'.ledger.Sublist vm.ledger) (hn : vm'.nextFrameSerial = vm.nextFrameSerial)
    (hc : vm'.closures = vm.closures) : vm'.Numbered := by
  refine ⟨hcap, h.ordered.sublist hl, ?_, ?_⟩
  · intro a ha
    rw [hn]
    exact h.fresh a (hl.subset ha)
  · rw [hc, hn]
    intro c hmem
    obtain ⟨id, hid, hproc, hserial, hfp⟩ := h.homes c hmem
    exact ⟨id, hid, hproc, hserial, fun a ha => hfp a (hl.subset ha)⟩

/-- No two activations on the stack have the same number. -/
theorem Numbered.eq_of_id (h : vm.Numbered) {a b : Activation} (ha : a ∈ vm.ledger)
    (hb : b ∈ vm.ledger) (heq : a.id = b.id) : a = b := by
  have hnodup : (vm.ledger.map Activation.id).Nodup := by
    rw [List.Nodup, List.pairwise_map]
    exact h.ordered.imp fun hlt => (Nat.ne_of_lt hlt).symm
  exact List.inj_on_of_nodup_map hnodup ha hb heq

theorem Base.mono {k : Bool} {top top' : Nat} (h : vm.Base G k top) (hle : top ≤ top') :
    vm.Base G k top' := by
  cases k with
  | false => exact ⟨h.1.mono hle, h.2⟩
  | true => exact Stacked.mono h hle

theorem Base.congr {k : Bool} {top : Nat} (h : vm.Base G k top) (hl : vm'.ledger = vm.ledger)
    (hn : vm'.nested = vm.nested) (hfp : vm'.stack.fp = vm.stack.fp)
    (heq : ∀ i < top, vm'.stack.slots i = vm.stack.slots i) : vm'.Base G k top := by
  cases k with
  | false =>
    refine ⟨?_, ?_⟩
    · rw [hl, hn]
      exact h.1.congr heq
    · rw [hl, hfp]
      exact h.2
  | true =>
    show Stacked G _ false vm'.ledger vm'.nested top
    rw [hl, hn]
    exact Stacked.congr h heq

/-- The active frame. -/
theorem Base.active {top : Nat} (h : vm.Base G false top) :
    ∃ a l link m, vm.ledger = a :: l ∧ a.fp = vm.stack.fp ∧ FrameOk G vm.stack a link m top := by
  obtain ⟨hs, a, l, hl, hfp⟩ := h
  obtain ⟨link, m, hf⟩ := hs.frameOk (a := a) (by rw [hl]; exact List.mem_cons_self)
  exact ⟨a, l, link, m, hl, hfp, hf⟩

/-! ## Entering a frame -/

theorem Numbered.enter (h : vm.Numbered) (e : Entry) (cs : List Context)
    (hroom : vm.stack.sp + 7 + e.temps.length ≤ stackCapacity) : (vm.enter e cs).Numbered := by
  refine ⟨?_, ?_, ?_, ?_⟩
  · show vm.stack.sp + (Entry.words e _).length ≤ stackCapacity
    rw [Entry.words, List.length_append, length_headerWords]
    omega
  · exact List.pairwise_cons.mpr ⟨fun a ha => h.fresh a ha, h.ordered⟩
  · intro a ha
    rcases List.mem_cons.mp ha with rfl | ha
    · exact Nat.lt_succ_self _
    · exact Nat.lt_succ_of_lt (h.fresh a ha)
  · intro c hc
    obtain ⟨id, hid, hproc, hserial, hfp⟩ := h.homes c hc
    refine ⟨id, Nat.lt_succ_of_lt hid, hproc, hserial, ?_⟩
    intro a ha heq
    rcases List.mem_cons.mp ha with rfl | ha
    · simp only at heq
      omega
    · exact hfp a ha heq

/-- The saved frame pointer of an activation: the active frame, or the entry sentinel. -/
def linkOf (vm : Vm σ) (entry : Bool) : Int :=
  if entry then entryFrameSentinel else vm.stack.fp

theorem Base.asI64_fp {top : Nat} (h : vm.Base G false top) (hcap : top ≤ stackCapacity) :
    asI64 vm.stack.fp = vm.linkOf false := by
  obtain ⟨a, l, link, m, -, hfp, hf⟩ := h.active
  have habove := hf.above
  have hlt : vm.stack.fp < 2 ^ 63 := by
    unfold stackCapacity at hcap
    omega
  exact asI64_of_lt hlt

/-- The frame just entered, and those under it. -/
theorem Base.enter {k : Bool} (e : Entry) (cs : List Context)
    (hargc : (G.method e.mid).argc + 1 ≤ vm.stack.sp)
    (h : vm.Base G k (vm.stack.sp - (G.method e.mid).argc - 1))
    (htemps : e.temps.length = (G.method e.mid).ntemps) (hlink : e.savedFp = vm.linkOf k) :
    (vm.enter e cs).Base G false (vm.enter e cs).stack.sp := by
  have hsp : (vm.enter e cs).stack.sp = vm.stack.sp + 7 + (G.method e.mid).ntemps := by
    show vm.stack.sp + (Entry.words e _).length = _
    rw [Entry.words, List.length_append, length_headerWords, htemps]
    omega
  have hframe : FrameOk G (vm.enter e cs).stack ⟨vm.stack.sp, vm.nextFrameSerial⟩ (vm.linkOf k)
      e.mid (vm.enter e cs).stack.sp := by
    refine ⟨enter_slots_at (k := 0) rfl, ?_, ⟨e.savedBci, enter_slots_at (k := 2) rfl⟩,
      ⟨_, enter_slots_at (k := 5) rfl, ?_⟩, hargc, hsp.ge⟩
    · rw [← hlink]
      exact enter_slots_at (k := 1) rfl
    · exact serialBits_ofNat (Nat.mod_lt _ (by decide))
  have heq : ∀ i < vm.stack.sp - (G.method e.mid).argc - 1,
      (vm.enter e cs).stack.slots i = vm.stack.slots i :=
    fun i hi => enter_slots_lt (by omega)
  refine ⟨?_, _, _, rfl, rfl⟩
  cases k with
  | false =>
    obtain ⟨hs, a, l, hl, hfp⟩ := h
    show Stacked G _ true (_ :: vm.ledger) vm.nested _
    rw [hl] at hs ⊢
    rw [show vm.linkOf false = (a.fp : Int) by rw [hfp]; rfl] at hframe
    exact .call hframe (hs.congr heq)
  | true => exact .entry hframe (Stacked.congr h heq)

/-- An activation leaves its frame running, whatever registers it hands to the dispatch
loop. -/
theorem enter_running {k : Bool} (e : Entry) (cs : List Context) (hn : vm.Numbered)
    (hargc : (G.method e.mid).argc + 1 ≤ vm.stack.sp)
    (hb : vm.Base G k (vm.stack.sp - (G.method e.mid).argc - 1))
    (htemps : e.temps.length = (G.method e.mid).ntemps) (hlink : e.savedFp = vm.linkOf k)
    (hroom : vm.stack.sp + 7 + (G.method e.mid).ntemps ≤ stackCapacity)
    (regs : Regs) (m bci : Nat) :
    Running G vm { vm.enter e cs with regs, control := .dispatch m bci } := by
  have hnum := hn.enter e cs (by rw [htemps]; exact hroom)
  exact ⟨hnum.sub hnum.cap (List.Sublist.refl _) rfl rfl, Base.enter e cs hargc hb htemps hlink,
    ⟨m, bci, rfl⟩, rfl⟩

theorem length_captured {cl : Closure} (h : (captures G cl).length ≤ (G.method cl.method).ntemps) :
    (blockEntry G vm cl).temps.length = (G.method cl.method).ntemps := by
  simp only [blockEntry, List.length_append, List.length_replicate]
  omega

theorem closureOf_ok {w : Oop} {cl : Closure} (h : vm.closureOf w = .ok cl) :
    ∃ c, w = .closure c ∧ vm.closures[c]? = some cl := by
  cases w with
  | closure c =>
    simp only [closureOf] at h
    split at h
    · rename_i hsome
      exact ⟨c, rfl, by rw [hsome, Except.ok.inj h]⟩
    · cases h
  | _ => cases h

/-- A block activation leaves the block's frame running. -/
theorem activateBlockInterp_running {k : Bool} {closure : Oop} {argc : Nat} (hn : vm.Numbered)
    (hlink : asI64 vm.stack.fp = vm.linkOf k) (hargc : argc + 1 ≤ vm.stack.sp)
    (hb : vm.Base G k (vm.stack.sp - argc - 1))
    (hslot : vm.stack.slots (vm.stack.sp - argc - 1) = closure)
    (h : vm.activateBlockInterp G closure argc = .ok (some vm')) : Running G vm vm' := by
  obtain ⟨cl, hcl, -⟩ := bind_ok h
  obtain ⟨c, rfl, hget⟩ := closureOf_ok hcl
  rw [activateBlockInterp_eq hget hslot hargc hn.cap] at h
  split at h
  · cases h
  · rename_i hsame
    rw [not_ne_iff] at hsame
    subst hsame
    split at h
    · rename_i hroom
      split at h
      · rename_i hlen
        obtain rfl := Option.some.inj (Except.ok.inj h)
        exact enter_running _ _ hn hargc hb (length_captured hlen) hlink hroom _ _ _
      · cases h
    · cases h

/-- A method activation leaves the method's frame running. -/
theorem pushFrame_running {k : Bool} {mid argc savedBci : Nat} {savedFp : Int} {act : Vm σ}
    (hn : vm.Numbered) (hm : (G.method mid).argc = argc) (hargc : argc + 1 ≤ vm.stack.sp)
    (hb : vm.Base G k (vm.stack.sp - argc - 1)) (hlink : savedFp = vm.linkOf k)
    (h : vm.pushFrame G mid argc savedFp savedBci = .ok act) (regs : Regs) (m bci : Nat) :
    Running G vm { act.maybeAllocContext G mid act.stack.fp .nil with
      regs, control := .dispatch m bci } := by
  have heq := @pushFrame_eq σ G vm mid argc savedBci savedFp hn.cap
  rw [h] at heq
  subst hm
  by_cases hroom : vm.stack.sp + 7 + (G.method mid).ntemps ≤ stackCapacity
  · rw [if_pos hroom] at heq
    have hact : act.maybeAllocContext G mid act.stack.fp .nil =
        vm.enterMethod G mid (G.method mid).argc savedFp savedBci := Except.ok.inj heq
    rw [hact]
    exact enter_running _ _ hn hargc hb (by simp [methodEntry]) hlink hroom _ _ _
  · rw [if_neg hroom] at heq
    cases heq

/-! ## Pushes and pops -/

theorem push_ok {v : Oop} (h : vm.push v = .ok vm') :
    vm.stack.sp + 1 ≤ stackCapacity ∧
      vm' = vm.withStack ((vm.stack.set vm.stack.sp v).withSp (vm.stack.sp + 1)) := by
  obtain ⟨st, hst, h⟩ := bind_ok h
  unfold ProcessStack.push at hst
  split at hst
  · cases hst
  · obtain rfl := Except.ok.inj hst
    exact ⟨by omega, (Except.ok.inj h).symm⟩

theorem push_base {k : Bool} {v : Oop} {top : Nat} (hb : vm.Base G k top)
    (htop : top ≤ vm.stack.sp) (h : vm.push v = .ok vm') : vm'.Base G k top := by
  obtain ⟨-, rfl⟩ := push_ok h
  exact hb.congr rfl rfl rfl fun i hi => vm.stack.set_slots_ne v (by omega)

theorem push_numbered {v : Oop} (hn : vm.Numbered) (h : vm.push v = .ok vm') : vm'.Numbered := by
  obtain ⟨hroom, rfl⟩ := push_ok h
  exact hn.sub hroom (List.Sublist.refl _) rfl rfl

theorem operandFloor_ok {fp floor : Nat} (h : vm.stack.operandFloor G fp = .ok floor) :
    ∃ m, vm.stack.slots fp = .method m ∧ floor = fp + 7 + (G.method m).ntemps := by
  obtain ⟨m, hm, h⟩ := bind_ok h
  refine ⟨m, ?_, (Except.ok.inj h).symm⟩
  unfold ProcessStack.frameMethodId at hm
  split at hm
  · rename_i hslot
    rw [← Except.ok.inj hm]
    exact hslot
  · cases hm

theorem needs_ok {n : Nat} {u : Unit} (h : vm.needs G n = .ok u) :
    ∃ m, vm.stack.slots vm.stack.fp = .method m ∧
      vm.stack.fp + 7 + (G.method m).ntemps + n ≤ vm.stack.sp := by
  obtain ⟨floor, hfloor, h⟩ := bind_ok h
  obtain ⟨m, hm, rfl⟩ := operandFloor_ok hfloor
  refine ⟨m, hm, ?_⟩
  split at h
  · assumption
  · cases h

/-- Dropping `n` operands that are there leaves the layout. -/
theorem needs_base {n : Nat} {u : Unit} {top : Nat} (hb : vm.Base G false top)
    (h : vm.needs G n = .ok u) :
    n ≤ vm.stack.sp ∧ vm.Base G false (vm.stack.sp - n) := by
  obtain ⟨m, hm, hsp⟩ := needs_ok h
  obtain ⟨hs, a, l, hl, hfp⟩ := hb
  refine ⟨by omega, ?_, a, l, hl, hfp⟩
  rw [hl] at hs ⊢
  rw [← hfp] at hm hsp
  exact hs.lower hm (by omega)

theorem pop_ok {v : Oop} (h : vm.pop G = .ok (v, vm')) :
    vm.needs G 1 = .ok () ∧ v = vm.stack.slots (vm.stack.sp - 1) ∧
      vm' = vm.withSp (vm.stack.sp - 1) := by
  obtain ⟨u, hu, h⟩ := bind_ok h
  cases h
  exact ⟨hu, rfl, rfl⟩

theorem pop_keeps {v : Oop} {top : Nat} (hn : vm.Numbered) (hb : vm.Base G false top)
    (h : vm.pop G = .ok (v, vm')) :
    vm'.Numbered ∧ vm'.Base G false vm'.stack.sp ∧ vm'.closures = vm.closures := by
  obtain ⟨hu, rfl, rfl⟩ := pop_ok h
  obtain ⟨hle, hbase⟩ := needs_base hb hu
  refine ⟨hn.sub ?_ (List.Sublist.refl _) rfl rfl,
    hbase.congr rfl rfl rfl (fun i hi => rfl), rfl⟩
  have := hn.cap
  show vm.stack.sp - 1 ≤ stackCapacity
  omega

/-! ## Markers and handlers -/

theorem Keeps.trans_closures {vm₀ : Vm σ} (h : Keeps G vm vm') (hc : vm.closures = vm₀.closures) :
    Keeps G vm₀ vm' :=
  ⟨h.numbered, h.laid, h.closures.trans hc⟩

/-- Writing the marker word, and the serial word with its serial kept, leaves the layout. -/
theorem marker_base {top : Nat} {st : ProcessStack} (hb : vm.Base G false top)
    (hfp : st.fp = vm.stack.fp)
    (heq : ∀ i, i ≠ vm.stack.fp + 5 → i ≠ vm.stack.fp + 6 → st.slots i = vm.stack.slots i)
    (hserial : ∀ w, vm.stack.slots (vm.stack.fp + 5) = .smi w →
      ∃ w', st.slots (vm.stack.fp + 5) = .smi w' ∧ serialBits w' = serialBits w) :
    (vm.withStack st).Base G false top := by
  obtain ⟨a, l, link, m, hl, ha, hf⟩ := hb.active
  have hbelow := hf.below
  refine ⟨?_, a, l, hl, ha.trans hfp.symm⟩
  show Stacked G st true vm.ledger vm.nested top
  rw [hl]
  refine Stacked.head_congr (hl ▸ hb.1) hf.method ?_ ?_ ?_
  · intro i hi
    exact heq i (by omega) (by omega)
  · intro i hi
    exact heq _ (by omega) (by omega)
  · intro w hw
    rw [ha] at hw ⊢
    exact hserial w hw

theorem clearMarker_base {top : Nat} (hb : vm.Base G false top) :
    (vm.withStack (vm.stack.clearMarker vm.stack.fp)).Base G false top := by
  refine marker_base hb rfl ?_ ?_
  · intro i _ h6
    exact vm.stack.set_slots_ne _ h6
  · intro w hw
    refine ⟨w, ?_, rfl⟩
    rw [← hw]
    exact vm.stack.set_slots_ne _ (by simp only [frameMarker]; omega)

theorem setMarker_base {top : Nat} {mark : Oop} {kind : MarkerKind} {st : ProcessStack}
    (hb : vm.Base G false top) (h : vm.stack.setMarker vm.stack.fp mark kind = .ok st) :
    (vm.withStack st).Base G false top ∧ st.sp = vm.stack.sp := by
  obtain ⟨s, hs, h⟩ := bind_ok h
  obtain rfl := Except.ok.inj h
  refine ⟨marker_base hb rfl ?_ ?_, rfl⟩
  · intro i h5 h6
    exact (ProcessStack.set_slots_ne _ _ h6).trans (ProcessStack.set_slots_ne _ _ h5)
  · intro w hw
    have hs' : s = serialBits w := by
      simp only [ProcessStack.serial, frameSerial, hw, Oop.asSmi, Except.map] at hs
      exact (Except.ok.inj hs).symm
    refine ⟨s + kind.bit, ?_, ?_⟩
    · rw [ProcessStack.set_slots_ne _ _ (by simp only [frameMarker]; omega)]
      exact ProcessStack.set_slots_self _ _ _
    · rw [hs', serialBits_add_bit (serialBits_lt w)]

theorem numbered_withStack {st : ProcessStack} (hn : vm.Numbered) (hsp : st.sp ≤ stackCapacity) :
    (vm.withStack st).Numbered :=
  hn.sub hsp (List.Sublist.refl _) rfl rfl

theorem startHandler_keeps {handler : Oop} {resume : Nat} (hn : vm.Numbered)
    (hb : vm.Base G false vm.stack.sp) (h : vm.startHandler G handler resume = .ok vm') :
    Keeps G vm vm' := by
  obtain ⟨v1, h1, h⟩ := bind_ok h
  obtain ⟨r, h2, h⟩ := bind_ok h
  have hb1 := push_base hb (Nat.le_refl _) h1
  have hn1 := push_numbered hn h1
  obtain ⟨hroom, rfl⟩ := push_ok h1
  cases r with
  | none => cases h
  | some act =>
    obtain rfl := Except.ok.inj h
    refine (activateBlockInterp_running (k := false) ?_ ?_ ?_ ?_ ?_ h2).keeps.trans_closures rfl
    · exact hn1.sub hn1.cap (List.Sublist.refl _) rfl rfl
    · exact hb.asI64_fp hn.cap
    · exact Nat.le_add_left 1 _
    · exact hb1.congr rfl rfl rfl fun i hi => rfl
    · exact ProcessStack.set_slots_self _ _ _

/-! ## Returns -/

theorem frameMethodId_ok {st : ProcessStack} {fp m : Nat} (h : st.frameMethodId fp = .ok m) :
    st.slots fp = .method m := by
  unfold ProcessStack.frameMethodId at h
  split at h
  · rename_i hslot
    rw [← Except.ok.inj h]
    exact hslot
  · cases h

theorem frameMethodId_eq {st : ProcessStack} {fp m : Nat} (h : st.slots fp = .method m) :
    st.frameMethodId fp = .ok m := by
  simp only [ProcessStack.frameMethodId, frameMethod, Nat.add_zero, h]

/-- `pop_and_deliver` leaves the caller's frame active, or the outer run waiting. -/
theorem popAndDeliver_keeps {result : Oop} {top : Nat} (hn : vm.Numbered)
    (hb : vm.Base G false top) (htop : top ≤ stackCapacity)
    (h : vm.popAndDeliver G result = .ok vm') : Keeps G vm vm' := by
  obtain ⟨m, hm, h⟩ := bind_ok h
  obtain ⟨savedFp, hfp, h⟩ := bind_ok h
  obtain ⟨savedBci, hbci, h⟩ := bind_ok h
  have hm := frameMethodId_ok hm
  obtain ⟨hs, a, l, hl, ha⟩ := hb
  set base := vm.stack.fp - (G.method m).argc - 1 with hbase
  set popped : Vm σ := { vm with
    stack := (vm.stack.set base result).withSp (base + 1)
    ledger := vm.ledger.tail } with hpopped
  have hbelow : ∀ i < base, popped.stack.slots i = vm.stack.slots i :=
    fun i hi => vm.stack.set_slots_ne result (by omega)
  have hsub : popped.ledger.Sublist vm.ledger := List.tail_sublist _
  rw [hl] at hs
  have hlink : ∀ {link : Int} {m' : Nat}, FrameOk G vm.stack a link m' top →
      savedFp = link ∧ m' = m ∧ base + 1 ≤ stackCapacity := by
    intro link m' hf
    have hm' := hf.method
    have hfp' := hf.savedFp
    have habove := hf.above
    have hbel := hf.below
    rw [ha] at hm' hfp'
    rw [hm] at hm'
    simp only [ProcessStack.savedFp, frameSavedFp, hfp', Oop.asSmi] at hfp
    exact ⟨(Except.ok.inj hfp).symm, (Oop.method.inj hm').symm, by omega⟩
  cases hs with
  | entry frame rest =>
    obtain ⟨rfl, rfl, hcap⟩ := hlink frame
    rw [if_pos rfl] at h
    obtain rfl := Except.ok.inj h
    refine ⟨hn.sub (by show base ≤ _; omega) hsub rfl rfl, ?_, rfl⟩
    show Stacked G _ false vm.ledger.tail vm.nested base
    rw [ha, ← hbase] at rest
    rw [hl]
    exact rest.congr hbelow
  | call frame rest =>
    rename_i b rest' m'
    obtain ⟨rfl, rfl, hcap⟩ := hlink frame
    rw [if_neg (by unfold entryFrameSentinel; omega), Int.toNat_natCast] at h
    rw [ha, ← hbase] at rest
    have hcaller : ∀ vm'' : Vm σ, vm''.stack = popped.stack.activateFrame b.fp →
        vm''.ledger = popped.ledger → vm''.nested = vm.nested → vm''.Base G false base := by
      intro vm'' hst hled hnest
      have hled' : vm''.ledger = b :: rest' := by rw [hled, hpopped]; simp [hl]
      refine ⟨?_, b, rest', hled', by rw [hst]; rfl⟩
      rw [hled', hnest, hst]
      exact rest.congr hbelow
    have hnum : ∀ vm'' : Vm σ, vm''.stack.sp = base + 1 → vm''.ledger = popped.ledger →
        vm''.nextFrameSerial = vm.nextFrameSerial → vm''.closures = vm.closures → vm''.Numbered := by
      intro vm'' hsp hled hnext hcl
      exact hn.sub (by rw [hsp]; exact hcap) (by rw [hled]; exact hsub) hnext hcl
    split at h
    · obtain rfl := Except.ok.inj h
      exact ⟨hnum _ rfl rfl rfl rfl, ⟨Nat.le_add_left 1 _, hcaller _ rfl rfl rfl⟩, rfl⟩
    · split at h
      · obtain rfl := Except.ok.inj h
        exact ⟨hnum _ rfl rfl rfl rfl, ⟨Nat.le_add_left 1 _, hcaller _ rfl rfl rfl⟩, rfl⟩
      · split at h
        · cases h
        · obtain ⟨caller, -, h⟩ := bind_ok h
          obtain rfl := Except.ok.inj h
          refine ⟨hnum _ rfl rfl rfl rfl, ?_, rfl⟩
          show Base G _ false (base + 1)
          exact Base.mono (hcaller _ rfl rfl rfl) (Nat.le_add_right base 1)

/-- `do_return` on the active frame. -/
theorem doReturn_keeps {result : Oop} (hn : vm.Numbered) (hb : vm.Base G false vm.stack.sp)
    (h : vm.doReturn G result = .ok vm') : Keeps G vm vm' := by
  obtain ⟨mc, -, h⟩ := bind_ok h
  have hclear := clearMarker_base hb
  have hnclear : (vm.withStack (vm.stack.clearMarker vm.stack.fp)).Numbered :=
    numbered_withStack hn hn.cap
  cases mc with
  | none => exact popAndDeliver_keeps hn hb hn.cap h
  | token t => cases h
  | handler w =>
    obtain ⟨kind, -, h⟩ := bind_ok h
    cases kind with
    | ifCurtailed => exact (popAndDeliver_keeps hnclear hclear hn.cap h).trans_closures rfl
    | ensure =>
      obtain ⟨pushed, hp, h⟩ := bind_ok h
      have hbp := push_base hclear (Nat.le_refl _) hp
      have hnp := push_numbered hnclear hp
      obtain ⟨-, rfl⟩ := push_ok hp
      exact (startHandler_keeps hnp (hbp.mono (Nat.le_add_right _ 1)) h).trans_closures rfl

theorem resumeEnsureRet_keeps (hn : vm.Numbered) (hb : vm.Base G false (vm.stack.sp - 1))
    (h : vm.resumeEnsureRet G = .ok vm') : Keeps G vm vm' := by
  obtain ⟨⟨result, popped⟩, hp, h⟩ := bind_ok h
  have hnd : (vm.withSp (vm.stack.sp - 1)).Numbered :=
    numbered_withStack hn (Nat.le_trans (Nat.sub_le _ _) hn.cap)
  have hbd : (vm.withSp (vm.stack.sp - 1)).Base G false (vm.stack.sp - 1) :=
    hb.congr rfl rfl rfl fun i hi => rfl
  obtain ⟨hnp, hbp, hcp⟩ := pop_keeps hnd hbd hp
  exact (doReturn_keeps hnp hbp h).trans_closures hcp

/-! ## Unwinding -/

theorem savedFp_eq {st : ProcessStack} {a : Activation} {link : Int} {m top : Nat}
    (h : FrameOk G st a link m top) : st.savedFp a.fp = .ok link := by
  simp only [ProcessStack.savedFp, frameSavedFp, h.savedFp, Oop.asSmi]

/-- Walking the frame chain to `target` stops at a frame of the ledger. -/
theorem walkTo_stacked {st : ProcessStack} {fuel target : Nat} {ns : List Nested} {u : Unit} :
    ∀ {a : Activation} {l : List Activation} {top : Nat}, Stacked G st true (a :: l) ns top →
      walkTo st fuel a.fp target = .ok u → ∃ a' l' m,
        (a :: l).dropWhile (fun x => x.fp ≠ target) = a' :: l' ∧ a'.fp = target ∧
        st.slots target = .method m ∧ target + 7 + (G.method m).ntemps ≤ top ∧
        Stacked G st true (a' :: l') ns (target + 7 + (G.method m).ntemps) := by
  induction fuel with
  | zero =>
    intro a l top _ h
    cases h
  | succ fuel ih =>
    intro a l top hs h
    unfold walkTo at h
    split at h
    · rename_i heq
      obtain ⟨link, m, hf⟩ := hs.frameOk List.mem_cons_self
      refine ⟨a, l, m, by simp [heq], heq, heq ▸ hf.method, heq ▸ hf.above, ?_⟩
      rw [← heq]
      exact hs.lower hf.method (Nat.le_refl _)
    · rename_i hne
      cases hs with
      | entry frame rest =>
        rw [savedFp_eq frame] at h
        cases h
      | call frame rest =>
        rename_i b l' m'
        have habove := frame.above
        rw [savedFp_eq frame] at h
        have h' : walkTo st fuel b.fp target = .ok u := by
          have hpos : (b.fp : Int) ≠ entryFrameSentinel := by unfold entryFrameSentinel; omega
          simpa [bind, Except.bind, hpos] using h
        obtain ⟨a', l', m, hdrop, hfp, hm, hle, hs'⟩ := ih rest h'
        exact ⟨a', l', m, by rw [List.dropWhile_cons_of_pos (by simp [hne])]; exact hdrop,
          hfp, hm, by omega, hs'⟩

/-- `pop_frames_above` leaves the target frame active with an empty operand stack. -/
theorem popFramesAbove_keeps {target top : Nat} (hn : vm.Numbered) (hb : vm.Base G false top)
    (htop : top ≤ stackCapacity) (h : vm.popFramesAbove G target = .ok vm') :
    vm'.Numbered ∧ vm'.Base G false vm'.stack.sp ∧ vm'.stack.fp = target ∧
      vm'.closures = vm.closures := by
  obtain ⟨u, hwalk, h⟩ := bind_ok h
  obtain ⟨floor, hfloor, h⟩ := bind_ok h
  obtain ⟨hs, a, l, hl, hfp⟩ := hb
  rw [hl] at hs
  rw [← hfp] at hwalk
  obtain ⟨a', l', m, hdrop, hfp', hm, hle, hs'⟩ := walkTo_stacked hs hwalk
  obtain ⟨m', hm', rfl⟩ := operandFloor_ok hfloor
  rw [hm] at hm'
  obtain rfl := Oop.method.inj hm'
  obtain rfl := Except.ok.inj h
  have hsub : (vm.ledger.dropWhile fun a => a.fp ≠ target).Sublist vm.ledger :=
    List.dropWhile_sublist _
  refine ⟨hn.sub (Nat.le_trans hle htop) hsub rfl rfl, ⟨?_, a', l', ?_, hfp'⟩, rfl, rfl⟩
  · show Stacked G _ true (vm.ledger.dropWhile fun a => a.fp ≠ target) vm.nested _
    rw [hl, hdrop]
    exact hs'.congr fun i hi => rfl
  · show (vm.ledger.dropWhile fun a => a.fp ≠ target) = a' :: l'
    rw [hl, hdrop]

/-- A scan that leaves the run's own frames stops at its entry frame. -/
theorem scan_crossed {st : ProcessStack} {fuel homeFp entryFp : Nat} {ns : List Nested} :
    ∀ {a : Activation} {l : List Activation} {top : Nat}, Stacked G st true (a :: l) ns top →
      innermostMarkedFrame st fuel a.fp homeFp = .ok (.crossedBoundary entryFp) → ∃ a' l' m,
        (a :: l).dropWhile (fun x => x.fp ≠ entryFp) = a' :: l' ∧
        st.slots entryFp = .method m ∧ entryFp < top ∧
        Stacked G st false l' ns (entryFp - (G.method m).argc - 1) := by
  induction fuel with
  | zero =>
    intro a l top _ h
    cases h
  | succ fuel ih =>
    intro a l top hs h
    unfold innermostMarkedFrame at h
    split at h
    · cases h
    · obtain ⟨mc, -, h⟩ := bind_ok h
      have hnext : ∃ savedFp, st.savedFp a.fp = .ok savedFp ∧
          (if savedFp = entryFrameSentinel then
            (.ok (.crossedBoundary a.fp) : Except Fault ScanResult)
          else innermostMarkedFrame st fuel savedFp.toNat homeFp) =
            .ok (.crossedBoundary entryFp) := by
        cases mc with
        | handler w => cases h
        | none => exact bind_ok h
        | token t => exact bind_ok h
      obtain ⟨savedFp, hsaved, h⟩ := hnext
      cases hs with
      | entry frame rest =>
        have habove := frame.above
        rw [savedFp_eq frame] at hsaved
        obtain rfl := Except.ok.inj hsaved
        obtain rfl : a.fp = entryFp := by simpa using h
        exact ⟨a, l, _, by simp, frame.method, by omega, rest⟩
      | call frame rest =>
        rename_i b l' m'
        have habove := frame.above
        rw [savedFp_eq frame] at hsaved
        obtain rfl := Except.ok.inj hsaved
        have hpos : (b.fp : Int) ≠ entryFrameSentinel := by unfold entryFrameSentinel; omega
        rw [if_neg hpos, Int.toNat_natCast] at h
        obtain ⟨a', l', m, hdrop, hm, hlt, hs'⟩ := ih rest h
        have hne : a.fp ≠ entryFp := by omega
        exact ⟨a', l', m, by rw [List.dropWhile_cons_of_pos (by simp [hne])]; exact hdrop,
          hm, by omega, hs'⟩

/-! ## Sends -/

/-- What a primitive attempt leaves, by its outcome. -/
def Attempted (G : Guest σ) (vm : Vm σ) (k : Bool) (vm' : Vm σ) : PrimitiveOutcome → Prop
  | .fallthrough => vm' = vm
  | .result _ => vm'.Numbered ∧ vm'.Base G k vm'.stack.sp ∧ vm'.closures = vm.closures
  | .activated => Keeps G vm vm'
  | .nested => Keeps G vm vm'

theorem primEnsureLike_attempted {k : Bool} {kind : MarkerKind} {outcome : PrimitiveOutcome}
    (hn : vm.Numbered) (hlink : asI64 vm.stack.fp = vm.linkOf k) (hargc : 2 ≤ vm.stack.sp)
    (hb : vm.Base G k (vm.stack.sp - 2))
    (h : vm.primEnsureLike G (vm.stack.sp - 2) kind = .ok (vm', outcome)) :
    Attempted G vm k vm' outcome := by
  have hidx : vm.stack.sp - 1 - 0 - 1 = vm.stack.sp - 2 := by omega
  unfold primEnsureLike at h
  simp only at h
  split at h
  · split at h
    · cases h
      rfl
    · obtain ⟨r, hr, h⟩ := bind_ok h
      cases r with
      | none =>
        cases h
        rfl
      | some act =>
        obtain ⟨st, hst, h⟩ := bind_ok h
        cases h
        have hrun : Running G vm act := by
          refine (activateBlockInterp_running (k := k) ?_ ?_ ?_ ?_ ?_ hr).trans_closures rfl
          · exact numbered_withStack hn (Nat.le_trans (Nat.sub_le _ _) hn.cap)
          · exact hlink
          · show 1 ≤ vm.stack.sp - 1
            omega
          · show Base G _ k (vm.stack.sp - 1 - 0 - 1)
            rw [hidx]
            exact hb.congr rfl rfl rfl fun i hi => rfl
          · show vm.stack.slots (vm.stack.sp - 1 - 0 - 1) = _
            rw [hidx]
        obtain ⟨hmark, hsp⟩ := setMarker_base hrun.base hst
        have hdone : Running G vm (act.withStack st) :=
          ⟨numbered_withStack hrun.numbered (hsp ▸ hrun.numbered.cap),
            by rw [show (act.withStack st).stack.sp = act.stack.sp from hsp]; exact hmark,
            hrun.control, hrun.closures⟩
        exact hdone.keeps
  · cases h
    rfl

theorem pushAll_ok {st st' : ProcessStack} {vs : List Oop} (hcap : st.sp ≤ stackCapacity)
    (h : st.pushAll vs = .ok st') : st.sp + vs.length ≤ stackCapacity ∧ st' = st.write vs := by
  rw [ProcessStack.pushAll_eq hcap] at h
  split at h
  · exact ⟨by assumption, (Except.ok.inj h).symm⟩
  · cases h

theorem primPerform_attempted {k : Bool} {outcome : PrimitiveOutcome} (hn : vm.Numbered)
    (hb : vm.Base G k (vm.stack.sp - 3))
    (h : vm.primPerform G (vm.stack.sp - 3) k = .ok (vm', outcome)) :
    Attempted G vm k vm' outcome := by
  unfold primPerform at h
  simp only at h
  split at h
  · split at h
    · cases h
      rfl
    · split at h
      · cases h
        rfl
      · rename_i site args _ _ _ m _ hm
        obtain ⟨st, hst, h⟩ := bind_ok h
        obtain ⟨hroom, rfl⟩ := pushAll_ok hn.cap hst
        cases h
        refine ⟨hn.sub hroom (List.Sublist.refl _) rfl rfl, ⟨not_ne_iff.mp hm, ?_, ?_⟩, rfl⟩
        · show args.length + 1 ≤ vm.stack.sp + (args.length + 1)
          omega
        · show Stacked G _ false vm.ledger (_ :: vm.nested)
            (vm.stack.sp + (args.length + 1) - args.length - 1)
          have hidx : vm.stack.sp + (args.length + 1) - args.length - 1 = vm.stack.sp := by omega
          have heq : ∀ i < vm.stack.sp - 3,
              (vm.stack.write (vm.stack.slots (vm.stack.sp - 3) :: args)).slots i =
                vm.stack.slots i :=
            fun i hi => vm.stack.write_slots_lt _ (by omega)
          rw [hidx]
          cases k with
          | false =>
            obtain ⟨hs, a, l, hl, hfp⟩ := hb
            rw [hl] at hs ⊢
            exact .send rfl hfp.symm (Nat.sub_le _ _) (hs.congr heq)
          | true => exact .reenter rfl (Nat.sub_le _ _) (Stacked.congr hb heq)
  · cases h
    rfl

theorem tryPrimitive_attempted {k : Bool} {mid argc : Nat} {outcome : PrimitiveOutcome}
    (hn : vm.Numbered) (hlink : asI64 vm.stack.fp = vm.linkOf k) (hargc : argc + 1 ≤ vm.stack.sp)
    (hb : vm.Base G k (vm.stack.sp - argc - 1))
    (h : vm.tryPrimitive G mid argc k = .ok (vm', outcome)) : Attempted G vm k vm' outcome := by
  unfold tryPrimitive at h
  simp only at h
  split at h
  · cases h
    rfl
  · -- the `value` family
    split at h
    · cases h
      rfl
    · obtain ⟨r, hr, h⟩ := bind_ok h
      cases r with
      | none =>
        cases h
        rfl
      | some act =>
        cases h
        exact (activateBlockInterp_running hn hlink hargc hb rfl hr).keeps
  · -- `valueWithArguments:` spreads the array over its own slot
    split at h
    · cases h
    · rename_i hone
      rw [not_ne_iff] at hone
      subst hone
      split at h
      · split at h
        · cases h
          rfl
        · rename_i cl args _ _ _
          obtain ⟨st, hst, h⟩ := bind_ok h
          have hcap : (vm.withSp (vm.stack.sp - 1 - 1 + 1)).stack.sp ≤ stackCapacity := by
            have := hn.cap
            show vm.stack.sp - 1 - 1 + 1 ≤ stackCapacity
            omega
          obtain ⟨hroom, rfl⟩ := pushAll_ok hcap hst
          obtain ⟨r, hr, h⟩ := bind_ok h
          have hlow : ∀ i < vm.stack.sp - 1 - 1 + 1,
              ((vm.withSp (vm.stack.sp - 1 - 1 + 1)).stack.write args).slots i =
                vm.stack.slots i :=
            fun i hi => ProcessStack.write_slots_lt _ _ hi
          have hidx : vm.stack.sp - 1 - 1 + 1 + args.length - args.length - 1 =
              vm.stack.sp - 1 - 1 := by omega
          cases r with
          | none =>
            cases h
            rfl
          | some act =>
            cases h
            refine (activateBlockInterp_running (k := k) ?_ ?_ ?_ ?_ ?_ hr).keeps.trans_closures rfl
            · exact numbered_withStack hn hroom
            · exact hlink
            · show args.length + 1 ≤ vm.stack.sp - 1 - 1 + 1 + args.length
              omega
            · show Base G _ k (vm.stack.sp - 1 - 1 + 1 + args.length - args.length - 1)
              rw [hidx]
              exact hb.congr rfl rfl rfl fun i hi => hlow i (by omega)
            · show ProcessStack.slots _ (vm.stack.sp - 1 - 1 + 1 + args.length - args.length - 1) = _
              rw [hidx]
              exact hlow _ (by omega)
      · cases h
        rfl
  · split at h
    · cases h
    · rename_i hone
      rw [not_ne_iff] at hone
      subst hone
      exact primEnsureLike_attempted hn hlink hargc hb h
  · split at h
    · cases h
    · rename_i htwo
      rw [not_ne_iff] at htwo
      subst htwo
      exact primPerform_attempted hn hb h
  · split at h
    · cases h
      refine ⟨hn.sub ?_ (List.Sublist.refl _) rfl rfl, hb.congr rfl rfl rfl fun i hi => rfl, rfl⟩
      show vm.stack.sp - argc - 1 ≤ stackCapacity
      have := hn.cap
      omega
    · cases h
      rfl

theorem dispatchCurrent_running {bci : Nat} (hn : vm.Numbered) (hb : vm.Base G false vm.stack.sp)
    (h : vm.dispatchCurrent bci = .ok vm') : Running G vm vm' := by
  obtain ⟨m, -, h⟩ := bind_ok h
  obtain rfl := Except.ok.inj h
  exact ⟨hn.sub hn.cap (List.Sublist.refl _) rfl rfl, hb.congr rfl rfl rfl (fun i hi => rfl),
    ⟨m, bci, rfl⟩, rfl⟩

/-- A word delivered to the active frame, which then runs on. -/
theorem deliver_keeps {v : Oop} {bci : Nat} (hn : vm.Numbered) (hb : vm.Base G false vm.stack.sp)
    (h : (do (← vm.push v).dispatchCurrent bci) = .ok vm') : Keeps G vm vm' := by
  obtain ⟨pushed, hp, h⟩ := bind_ok h
  have hbp := push_base hb (Nat.le_refl _) hp
  have hnp := push_numbered hn hp
  obtain ⟨-, rfl⟩ := push_ok hp
  exact (dispatchCurrent_running hnp (hbp.mono (Nat.le_add_right _ 1)) h).keeps.trans_closures rfl

theorem activateMethod_keeps {mid argc : Nat} (hn : vm.Numbered) (hm : (G.method mid).argc = argc)
    (hargc : argc + 1 ≤ vm.stack.sp) (hb : vm.Base G false (vm.stack.sp - argc - 1))
    (h : vm.activateMethod G mid argc = .ok vm') : Keeps G vm vm' := by
  obtain ⟨⟨tried, outcome⟩, ht, hrest⟩ := bind_ok h
  have hlink : asI64 vm.stack.fp = vm.linkOf false :=
    hb.asI64_fp (by have := hn.cap; omega)
  have hat := tryPrimitive_attempted hn hlink hargc hb ht
  cases outcome with
  | result v =>
    obtain ⟨hnt, hbt, hct⟩ := hat
    exact (deliver_keeps hnt hbt hrest).trans_closures hct
  | activated =>
    cases hrest
    exact hat
  | nested =>
    cases hrest
    exact hat
  | fallthrough =>
    obtain rfl : tried = vm := hat
    obtain ⟨act, hact, hrest⟩ :=
      bind_ok (x := tried.pushFrame G mid argc (asI64 tried.stack.fp) tried.regs.bci) hrest
    obtain rfl := Except.ok.inj hrest
    exact (pushFrame_running hn hm hargc hb hlink hact _ _ _).keeps

theorem sendGeneric_keeps {site argc : Nat} (hn : vm.Numbered) (hb : vm.Base G false vm.stack.sp)
    (h : vm.sendGeneric G site argc = .ok vm') : Keeps G vm vm' := by
  obtain ⟨u, hu, h⟩ := bind_ok h
  obtain ⟨hle, hbase⟩ := needs_base hb hu
  have hidx : vm.stack.sp - (argc + 1) = vm.stack.sp - argc - 1 := by omega
  rw [hidx] at hbase
  cases hl : G.lookup vm.heap site (vm.stack.slots (vm.stack.sp - argc - 1)) with
  | some m =>
    simp only [hl] at h
    split at h
    · rename_i hm
      exact activateMethod_keeps hn hm hle hbase h
    · cases h
  | none =>
    simp only [hl] at h
    obtain ⟨pushed, hp, h⟩ := bind_ok h
    set dropped : Vm σ := { vm.withSp (vm.stack.sp - argc - 1 + 1) with
      heap := (G.message vm.heap site
        (vm.stack.words (vm.stack.sp - argc - 1 + 1) argc)).1 } with hdropped
    have hcap : vm.stack.sp - argc - 1 + 1 ≤ stackCapacity := by
      have := hn.cap
      omega
    have hnd : dropped.Numbered := hn.sub hcap (List.Sublist.refl _) rfl rfl
    have hbd : dropped.Base G false (vm.stack.sp - argc - 1) :=
      hbase.congr rfl rfl rfl fun i hi => rfl
    have hnp := push_numbered hnd hp
    have hbp := push_base hbd (Nat.le_add_right _ 1) hp
    obtain ⟨-, rfl⟩ := push_ok hp
    split at h
    · split at h
      · rename_i hm
        refine (activateMethod_keeps hnp hm ?_ ?_ h).trans_closures rfl
        · show 1 + 1 ≤ vm.stack.sp - argc - 1 + 1 + 1
          omega
        · exact hbp
      · cases h
    · cases h

theorem cannotReturn_keeps {closure value : Oop} (hn : vm.Numbered)
    (hb : vm.Base G false vm.stack.sp) (h : vm.cannotReturn G closure value = .ok vm') :
    Keeps G vm vm' := by
  obtain ⟨v1, h1, h⟩ := bind_ok h
  obtain ⟨v2, h2, h⟩ := bind_ok h
  have hn2 := push_numbered (push_numbered hn h1) h2
  have hb1 := push_base hb (Nat.le_refl _) h1
  obtain ⟨-, rfl⟩ := push_ok h1
  have hb2 := push_base hb1 (Nat.le_add_right _ 1) h2
  obtain ⟨-, rfl⟩ := push_ok h2
  split at h
  · split at h
    · rename_i hm
      refine (activateMethod_keeps ?_ hm ?_ ?_ h).trans_closures rfl
      · exact hn2.sub hn2.cap (List.Sublist.refl _) rfl rfl
      · show 1 + 1 ≤ vm.stack.sp + 1 + 1
        omega
      · exact hb2.congr rfl rfl rfl fun i hi => rfl
    · cases h
  · cases h

/-- `continue_unwind` keeps the layout whether or not the home it is given is real. -/
theorem continueUnwind_keeps {home : HomeRef} {value : Oop} {origin : Option Oop}
    (hn : vm.Numbered) (hb : vm.Base G false vm.stack.sp)
    (h : vm.continueUnwind G home value origin = .ok vm') : Keeps G vm vm' := by
  unfold continueUnwind at h
  split at h
  · rename_i hspoof
    obtain ⟨a, l, link, m, -, hfp, hf⟩ := hb.active
    have habove := hf.above
    have hcap := hn.cap
    unfold usizeMax at hspoof
    unfold stackCapacity at hcap
    omega
  split at h
  · split at h
    · exact cannotReturn_keeps hn hb h
    · obtain ⟨slot, -, h⟩ := bind_ok h
      exact cannotReturn_keeps hn hb h
  · obtain ⟨scan, hscan, h⟩ := bind_ok h
    cases scan with
    | reachedHome =>
      obtain ⟨popped, hp, h⟩ := bind_ok h
      obtain ⟨hnp, hbp, -, hcp⟩ := popFramesAbove_keeps hn hb hn.cap hp
      exact (doReturn_keeps hnp hbp h).trans_closures hcp
    | crossedBoundary entryFp =>
      obtain ⟨m, hm, h⟩ := bind_ok h
      obtain rfl := Except.ok.inj h
      obtain ⟨hs, a, l, hl, hfp⟩ := hb
      rw [hl] at hs
      rw [← hfp] at hscan
      obtain ⟨a', l', m', hdrop, hm', hlt, hs'⟩ := scan_crossed hs hscan
      rw [frameMethodId_ok hm] at hm'
      obtain rfl := Oop.method.inj hm'
      have hcap := hn.cap
      have hsub : (vm.ledger.dropWhile fun a => a.fp ≠ entryFp).tail.Sublist vm.ledger :=
        (List.tail_sublist _).trans (List.dropWhile_sublist _)
      refine ⟨hn.sub ?_ hsub rfl rfl, ?_, rfl⟩
      · show entryFp - (G.method m).argc - 1 ≤ stackCapacity
        omega
      · show Stacked G _ false (vm.ledger.dropWhile fun a => a.fp ≠ entryFp).tail vm.nested _
        rw [hl, hdrop]
        exact hs'.congr fun i hi => rfl
    | marked mfp handler =>
      obtain ⟨popped, hp, h⟩ := bind_ok h
      obtain ⟨parked, -, h⟩ := bind_ok h
      obtain ⟨st, hst, h⟩ := bind_ok h
      obtain ⟨hnp, hbp, hfp, hcp⟩ := popFramesAbove_keeps hn hb hn.cap hp
      rw [← hfp] at hst
      obtain ⟨hbm, hsp⟩ := setMarker_base hbp hst
      refine (startHandler_keeps ?_ ?_ h).trans_closures hcp
      · exact hnp.sub (by show st.sp ≤ _; rw [hsp]; exact hnp.cap) (List.Sublist.refl _) rfl rfl
      · show Base G _ false st.sp
        rw [hsp]
        exact hbm.congr rfl rfl rfl fun i hi => rfl

theorem resumeUnwind_keeps (hn : vm.Numbered) (hb : vm.Base G false (vm.stack.sp - 1))
    (h : vm.resumeUnwind G = .ok vm') : Keeps G vm vm' := by
  have hnd : (vm.withSp (vm.stack.sp - 1)).Numbered :=
    numbered_withStack hn (Nat.le_trans (Nat.sub_le _ _) hn.cap)
  have hbd : (vm.withSp (vm.stack.sp - 1)).Base G false (vm.stack.sp - 1) :=
    hb.congr rfl rfl rfl fun i hi => rfl
  obtain ⟨mc, -, h⟩ := bind_ok h
  cases mc with
  | none => cases h
  | handler w => cases h
  | token t =>
    simp only at h
    split at h
    · refine (continueUnwind_keeps ?_ ?_ h).trans_closures rfl
      · exact numbered_withStack hnd hnd.cap
      · exact clearMarker_base hbd
    · cases h

/-! ## Bytecodes -/

/-- Writing a temporary or an argument of the active frame leaves the layout. -/
theorem store_running {method m bci : Nat} {v : Oop} {d : Dest} (hn : vm.Numbered)
    (hb : vm.Base G false vm.stack.sp) (h : vm.store G method v d = .ok vm') :
    Running G vm (vm'.withControl (.dispatch m bci)) := by
  have hsame : ∀ vm'' : Vm σ, vm''.stack = vm.stack → vm''.ledger = vm.ledger →
      vm''.nested = vm.nested → vm''.nextFrameSerial = vm.nextFrameSerial →
      vm''.closures = vm.closures → Running G vm (vm''.withControl (.dispatch m bci)) := by
    intro vm'' hst hl hns hnext hcl
    refine ⟨hn.sub ?_ ?_ hnext hcl, ?_, ⟨m, bci, rfl⟩, hcl⟩
    · show vm''.stack.sp ≤ _
      rw [hst]
      exact hn.cap
    · show vm''.ledger.Sublist _
      rw [hl]
    · have hsp : (vm''.withControl (.dispatch m bci)).stack.sp = vm.stack.sp := by
        show vm''.stack.sp = _
        rw [hst]
      rw [hsp]
      refine hb.congr hl hns ?_ fun i hi => ?_
      · show vm''.stack.fp = _
        rw [hst]
      · show vm''.stack.slots i = _
        rw [hst]
  cases d with
  | temp t =>
    obtain ⟨i, hi, h⟩ := bind_ok h
    obtain rfl := Except.ok.inj h
    obtain ⟨mid, hmid, hi⟩ := bind_ok hi
    have hmid := frameMethodId_ok hmid
    obtain ⟨a, l, link, m', hl, hfp, hf⟩ := hb.active
    have hbelow := hf.below
    have hm' : m' = mid := by
      have := hf.method
      rw [hfp, hmid] at this
      exact (Oop.method.inj this).symm
    subst hm'
    -- the slot written is an argument, just under the frame, or a temporary, past its header
    have hplace : (a.fp - (G.method m').argc ≤ i ∧ i < a.fp) ∨ a.fp + 7 ≤ i := by
      simp only [frameTempsBase] at hi
      split at hi
      · have := Except.ok.inj hi
        omega
      · split at hi
        · have := Except.ok.inj hi
          omega
        · cases hi
    have hother : ∀ j, j ≠ i → (vm.stack.set i v).slots j = vm.stack.slots j :=
      fun j hj => vm.stack.set_slots_ne v hj
    refine ⟨hn.sub hn.cap (List.Sublist.refl _) rfl rfl, ⟨?_, a, l, hl, hfp⟩, ⟨m, bci, rfl⟩, rfl⟩
    show Stacked G (vm.stack.set i v) true vm.ledger vm.nested vm.stack.sp
    rw [hl]
    refine Stacked.head_congr (hl ▸ hb.1) hf.method ?_ ?_ ?_
    · exact fun j hj => hother j (by omega)
    · exact fun j hj => hother _ (by omega)
    · exact fun w hw => ⟨w, by rw [hother _ (by omega), hw], rfl⟩
  | instvar i =>
    simp only [store] at h
    split at h
    · obtain rfl := Except.ok.inj h
      exact hsame _ rfl rfl rfl rfl rfl
    · cases h
  | global i =>
    obtain rfl := Except.ok.inj h
    exact hsame _ rfl rfl rfl rfl rfl
  | ctxTemp depth idx =>
    obtain ⟨c, -, h⟩ := bind_ok h
    obtain rfl := Except.ok.inj h
    exact hsame _ rfl rfl rfl rfl rfl

theorem push_running {v : Oop} {m bci : Nat} (hn : vm.Numbered) (hb : vm.Base G false vm.stack.sp)
    (h : vm.push v = .ok vm') : Running G vm (vm'.withControl (.dispatch m bci)) := by
  have hbp := push_base hb (Nat.le_refl _) h
  have hnp := push_numbered hn h
  obtain ⟨-, rfl⟩ := push_ok h
  exact ⟨hnp.sub hnp.cap (List.Sublist.refl _) rfl rfl,
    (hbp.mono (Nat.le_add_right _ 1)).congr rfl rfl rfl (fun i hi => rfl), ⟨m, bci, rfl⟩, rfl⟩

theorem branch_keeps {method bci target : Nat} {sense : Bool} (hn : vm.Numbered)
    (hb : vm.Base G false vm.stack.sp) (h : vm.branch G method bci sense target = .ok vm') :
    Keeps G vm vm' := by
  obtain ⟨⟨t, popped⟩, hp, h⟩ := bind_ok h
  obtain ⟨hnp, hbp, hcp⟩ := pop_keeps hn hb hp
  simp only at h
  split at h
  · obtain rfl := Except.ok.inj h
    refine (Running.keeps ⟨?_, ?_, ⟨_, _, rfl⟩, rfl⟩).trans_closures hcp
    · exact hnp.sub hnp.cap (List.Sublist.refl _) rfl rfl
    · exact hbp.congr rfl rfl rfl fun i hi => rfl
  · obtain ⟨pushed, hpush, h⟩ := bind_ok h
    have hnq := push_numbered hnp hpush
    have hbq := push_base hbp (Nat.le_refl _) hpush
    obtain ⟨-, rfl⟩ := push_ok hpush
    split at h
    · split at h
      · rename_i hm
        refine (activateMethod_keeps ?_ hm ?_ ?_ h).trans_closures hcp
        · exact hnq.sub hnq.cap (List.Sublist.refl _) rfl rfl
        · exact Nat.le_add_left 1 _
        · exact hbq.congr rfl rfl rfl fun i hi => rfl
      · cases h
    · cases h

/-- Every bytecode but the one that makes a closure. -/
theorem execute_keeps {method bci : Nat} {instr : Instr} (hn : vm.Numbered)
    (hb : vm.Base G false vm.stack.sp) (hnot : ∀ blk n, instr ≠ .pushClosure blk n)
    (h : vm.execute G method bci instr = .ok vm') : Keeps G vm vm' := by
  cases instr with
  | push s =>
    obtain ⟨v, -, h⟩ := bind_ok h
    obtain ⟨pushed, hp, h⟩ := bind_ok h
    obtain rfl := Except.ok.inj h
    exact (push_running hn hb hp).keeps
  | storeTemp t =>
    obtain ⟨u, -, h⟩ := bind_ok h
    obtain ⟨stored, hs, h⟩ := bind_ok h
    obtain rfl := Except.ok.inj h
    exact (store_running hn hb hs).keeps
  | storePop d =>
    obtain ⟨⟨v, popped⟩, hp, h⟩ := bind_ok h
    obtain ⟨stored, hs, h⟩ := bind_ok h
    obtain rfl := Except.ok.inj h
    obtain ⟨hnp, hbp, hcp⟩ := pop_keeps hn hb hp
    exact (store_running hnp hbp hs).keeps.trans_closures hcp
  | pop =>
    obtain ⟨⟨v, popped⟩, hp, h⟩ := bind_ok h
    obtain rfl := Except.ok.inj h
    obtain ⟨hnp, hbp, hcp⟩ := pop_keeps hn hb hp
    refine (Running.keeps ⟨?_, ?_, ⟨_, _, rfl⟩, rfl⟩).trans_closures hcp
    · exact hnp.sub hnp.cap (List.Sublist.refl _) rfl rfl
    · exact hbp.congr rfl rfl rfl fun i hi => rfl
  | dup =>
    obtain ⟨u, -, h⟩ := bind_ok h
    obtain ⟨pushed, hp, h⟩ := bind_ok h
    obtain rfl := Except.ok.inj h
    exact (push_running hn hb hp).keeps
  | jump target =>
    obtain rfl := Except.ok.inj h
    exact ⟨hn.sub hn.cap (List.Sublist.refl _) rfl rfl, hb.congr rfl rfl rfl (fun i hi => rfl), rfl⟩
  | brTrue target => exact branch_keeps hn hb h
  | brFalse target => exact branch_keeps hn hb h
  | send site argc =>
    refine (sendGeneric_keeps ?_ ?_ h).trans_closures rfl
    · exact hn.sub hn.cap (List.Sublist.refl _) rfl rfl
    · exact hb.congr rfl rfl rfl fun i hi => rfl
  | pushClosure blk n => exact absurd rfl (hnot blk n)
  | returnTos =>
    obtain ⟨⟨r, popped⟩, hp, h⟩ := bind_ok h
    obtain ⟨hnp, hbp, hcp⟩ := pop_keeps hn hb hp
    exact (doReturn_keeps hnp hbp h).trans_closures hcp
  | blockReturnTos =>
    obtain ⟨⟨r, popped⟩, hp, h⟩ := bind_ok h
    obtain ⟨hnp, hbp, hcp⟩ := pop_keeps hn hb hp
    exact (doReturn_keeps hnp hbp h).trans_closures hcp
  | returnSelf => exact doReturn_keeps hn hb h
  | nlrTos =>
    obtain ⟨⟨value, popped⟩, hp, h⟩ := bind_ok h
    obtain ⟨hnp, hbp, hcp⟩ := pop_keeps hn hb hp
    obtain ⟨slot, -, h⟩ := bind_ok h
    obtain ⟨cl, -, h⟩ := bind_ok h
    refine (continueUnwind_keeps ?_ ?_ h).trans_closures hcp
    · exact hnp.sub hnp.cap (List.Sublist.refl _) rfl rfl
    · exact hbp.congr rfl rfl rfl fun i hi => rfl

/-! ## Closures -/

/-- The home of a new closure: the enclosing closure's, or the active frame itself. -/
theorem homeRefForNewClosure_ok {home : Int} (hn : vm.Numbered) (hb : vm.Base G false vm.stack.sp)
    (h : vm.homeRefForNewClosure G = .ok home) :
    (∃ c ∈ vm.closures, c.home = home) ∨
      ∃ a ∈ vm.ledger, unpackHomeRef home = ⟨0, a.id % 2 ^ 32, a.fp⟩ := by
  obtain ⟨m, -, h⟩ := bind_ok h
  split at h
  · obtain ⟨slot, -, h⟩ := bind_ok h
    obtain ⟨cl, hcl, h⟩ := bind_ok h
    obtain ⟨c, -, hget⟩ := closureOf_ok hcl
    exact .inl ⟨cl, List.mem_of_getElem? hget, Except.ok.inj h⟩
  · obtain ⟨serial, hserial, h⟩ := bind_ok h
    obtain ⟨a, l, link, m', hl, hfp, hf⟩ := hb.active
    obtain ⟨w, hw, hbits⟩ := hf.serial
    have habove := hf.above
    have hcap := hn.cap
    have hs : serial = a.id % 2 ^ 32 := by
      rw [hfp] at hw
      simp only [ProcessStack.serial, frameSerial, hw, Oop.asSmi, Except.map] at hserial
      rw [← Except.ok.inj hserial, hbits]
    refine .inr ⟨a, by rw [hl]; exact List.mem_cons_self, ?_⟩
    have hproc : 0 < 2 ^ 8 := by decide
    rw [← Except.ok.inj h, unpackHomeRef_pack hproc, hs, hfp]
    · show serial < 2 ^ 32
      rw [hs]
      exact Nat.mod_lt _ (by decide)
    · show vm.stack.fp < 2 ^ 22
      unfold stackCapacity at hcap
      omega

/-- What a step does to the closures: it keeps them, or adds one whose home is that of an
older closure or an activation on the stack. -/
def Captures (vm vm' : Vm σ) : Prop :=
  vm'.closures = vm.closures ∨ ∃ c, vm'.closures = vm.closures ++ [c] ∧ vm'.ledger = vm.ledger ∧
    ((∃ c₀ ∈ vm.closures, c₀.home = c.home) ∨
      ∃ a ∈ vm.ledger, unpackHomeRef c.home = ⟨0, a.id % 2 ^ 32, a.fp⟩)

theorem Numbered.capture (hn : vm.Numbered) {c : Closure} (hcap : vm'.stack.sp ≤ stackCapacity)
    (hc : vm'.closures = vm.closures ++ [c]) (hl : vm'.ledger = vm.ledger)
    (hnext : vm'.nextFrameSerial = vm.nextFrameSerial)
    (hnew : (∃ c₀ ∈ vm.closures, c₀.home = c.home) ∨
      ∃ a ∈ vm.ledger, unpackHomeRef c.home = ⟨0, a.id % 2 ^ 32, a.fp⟩) : vm'.Numbered := by
  refine ⟨hcap, by rw [hl]; exact hn.ordered, by rw [hl, hnext]; exact hn.fresh, ?_⟩
  rw [hc, hl, hnext]
  intro c' hc'
  rcases List.mem_append.mp hc' with hc' | hc'
  · exact hn.homes c' hc'
  · obtain rfl := List.mem_singleton.mp hc'
    rcases hnew with ⟨c₀, hc₀, heq⟩ | ⟨a, ha, heq⟩
    · rw [← heq]
      exact hn.homes c₀ hc₀
    · rw [heq]
      exact ⟨a.id, hn.fresh a ha, rfl, rfl, fun b hb hid => by rw [hn.eq_of_id hb ha hid]⟩

theorem makeClosure_captures {blk n m bci : Nat} (hn : vm.Numbered)
    (hb : vm.Base G false vm.stack.sp) (h : vm.makeClosure G blk n = .ok vm') :
    (vm'.withControl (.dispatch m bci)).Numbered ∧
      (vm'.withControl (.dispatch m bci)).Laid G ∧ Captures vm vm' := by
  obtain ⟨u, hu, h⟩ := bind_ok h
  obtain ⟨home, hhome, h⟩ := bind_ok h
  obtain ⟨hle, hbase⟩ := needs_base hb hu
  have hnew := homeRefForNewClosure_ok hn hb hhome
  obtain ⟨hroom, rfl⟩ := push_ok h
  refine ⟨hn.capture hroom rfl rfl rfl hnew, ?_, .inr ⟨_, rfl, rfl, hnew⟩⟩
  refine Base.mono (hbase.congr rfl rfl rfl fun i hi => ?_) (Nat.le_add_right _ 1)
  exact ProcessStack.set_slots_ne _ _ (by simp only [withSp_stack, ProcessStack.withSp_sp]; omega)

/-! ## Steps and runs -/

theorem runMethod_keeps {mid argc : Nat} (hn : vm.Numbered) (hm : (G.method mid).argc = argc)
    (hargc : argc + 1 ≤ vm.stack.sp)
    (hs : Stacked G vm.stack false vm.ledger vm.nested (vm.stack.sp - argc - 1))
    (h : vm.runMethod G mid argc = .ok vm') : Keeps G vm vm' := by
  obtain ⟨⟨tried, outcome⟩, ht, hrest⟩ := bind_ok h
  set spoofed : Vm σ := { vm with
    stack := { vm.stack with fp := usizeMax }
    regs := ⟨vm.regs.method, 0⟩ } with hspoofed
  have hnsp : spoofed.Numbered := hn.sub hn.cap (List.Sublist.refl _) rfl rfl
  have hbsp : spoofed.Base G true (vm.stack.sp - argc - 1) := hs.congr fun i hi => rfl
  have hat := tryPrimitive_attempted hnsp rfl hargc hbsp ht
  cases outcome with
  | result v =>
    cases hrest
    obtain ⟨hnt, hbt, hct⟩ := hat
    exact ⟨hnt.sub hnt.cap (List.Sublist.refl _) rfl rfl, hbt, hct⟩
  | activated =>
    cases hrest
    exact hat.trans_closures rfl
  | nested =>
    cases hrest
    exact hat.trans_closures rfl
  | fallthrough =>
    obtain ⟨act, hact, hrest⟩ := bind_ok (x := vm.pushFrame G mid argc entryFrameSentinel 0) hrest
    obtain rfl := Except.ok.inj hrest
    exact (pushFrame_running (k := true) hn hm hargc hs rfl hact _ _ _).keeps

/-- What a nested run returns to: the frame that waits for it, or an outer entry. -/
theorem returnNested_keeps {v : Oop} (hn : vm.Numbered)
    (hs : Stacked G vm.stack false vm.ledger vm.nested vm.stack.sp)
    (h : vm.returnNested v = .ok vm') : Keeps G vm vm' := by
  unfold returnNested at h
  split at h
  · cases h
  · rename_i n outer hnested
    rw [hnested] at hs
    have hcap := hn.cap
    have hnum : ∀ vm'' : Vm σ, n.base ≤ vm.stack.sp → vm''.stack.sp = n.base →
        vm''.ledger = vm.ledger → vm''.nextFrameSerial = vm.nextFrameSerial →
        vm''.closures = vm.closures → vm''.Numbered := by
      intro vm'' hbase hsp hl hnext hcl
      exact hn.sub (by omega) (by rw [hl]) hnext hcl
    simp only at h
    generalize hled : vm.ledger = led at hs
    cases hs with
    | send entry fp base rest =>
      rename_i a l
      rw [if_neg (by rw [entry]; decide)] at h
      refine (deliver_keeps ?_ ?_ h).trans_closures rfl
      · exact hnum _ base rfl rfl rfl rfl
      · refine ⟨?_, a, l, hled, fp.symm⟩
        show Stacked G _ true vm.ledger outer n.base
        rw [hled]
        exact rest.congr fun i hi => rfl
    | reenter entry base rest =>
      rw [if_pos entry] at h
      obtain rfl := Except.ok.inj h
      refine ⟨hnum _ base rfl rfl rfl rfl, ?_, rfl⟩
      show Stacked G _ false vm.ledger outer n.base
      rw [hled]
      exact rest.congr fun i hi => rfl

/-- Every step keeps the numbering and the layout, and captures only real homes. -/
theorem step_stacked (hn : vm.Numbered) (hl : vm.Laid G) (h : vm.step G = .ok vm') :
    vm'.Numbered ∧ vm'.Laid G ∧ Captures vm vm' := by
  have hkeep : Keeps G vm vm' → vm'.Numbered ∧ vm'.Laid G ∧ Captures vm vm' :=
    fun k => ⟨k.numbered, k.laid, .inl k.closures⟩
  unfold step at h
  unfold Laid at hl
  split at h
  · rename_i method bci hc
    rw [hc] at hl
    split at h
    · rename_i instr _
      by_cases hclosure : ∃ blk n, instr = .pushClosure blk n
      · obtain ⟨blk, n, rfl⟩ := hclosure
        obtain ⟨made, hm, h⟩ := bind_ok h
        obtain rfl := Except.ok.inj h
        exact makeClosure_captures hn hl hm
      · exact hkeep (execute_keeps hn hl (fun blk n heq => hclosure ⟨blk, n, heq⟩) h)
    · cases h
  · rename_i hc
    rw [hc] at hl
    exact hkeep (resumeEnsureRet_keeps hn hl.2 h)
  · rename_i hc
    rw [hc] at hl
    exact hkeep (resumeUnwind_keeps hn hl.2 h)
  · rename_i m argc hc
    rw [hc] at hl
    exact hkeep (runMethod_keeps hn hl.1 hl.2.1 hl.2.2 h)
  · rename_i v hc
    rw [hc] at hl
    exact hkeep (returnNested_keeps hn hl h)

/-- The stack below `sp` in any state of a run. -/
theorem Laid.stacked (h : vm.Laid G) :
    ∃ k, Stacked G vm.stack k vm.ledger vm.nested vm.stack.sp := by
  unfold Laid at h
  split at h
  · exact ⟨true, h.1⟩
  · exact ⟨true, h.2.1.mono (Nat.sub_le _ _)⟩
  · exact ⟨true, h.2.1.mono (Nat.sub_le _ _)⟩
  · exact ⟨false, h.2.2.mono (by omega)⟩
  · exact ⟨false, h⟩

/-- A doit begun at the top level, where no run is waiting. -/
theorem begin_stacked {v : Oop} {heap : σ} {mid : Nat} {receiver : Oop} {args : List Oop}
    (hn : vm.Numbered) (hl : vm.Laid G) (hc : vm.control = .returned v) (ht : vm.nested = [])
    (hargc : args.length = (G.method mid).argc) (h : vm.begin heap mid receiver args = .ok vm') :
    Keeps G vm vm' := by
  rw [Laid, hc, ht] at hl
  obtain ⟨st, hst, h⟩ := bind_ok h
  obtain ⟨hroom, rfl⟩ := pushAll_ok hn.cap hst
  obtain rfl := Except.ok.inj h
  refine ⟨hn.sub hroom (List.Sublist.refl _) rfl rfl, ⟨hargc.symm, ?_, ?_⟩, rfl⟩
  · show args.length + 1 ≤ vm.stack.sp + (args.length + 1)
    omega
  · show Stacked G _ false vm.ledger vm.nested (vm.stack.sp + (args.length + 1) - args.length - 1)
    have hidx : vm.stack.sp + (args.length + 1) - args.length - 1 = vm.stack.sp := by omega
    rw [hidx, ht]
    exact hl.congr fun i hi => vm.stack.write_slots_lt _ hi

/-- A run whose steps all meet `P`: doits one after the other, each step by step. -/
inductive Runs (G : Guest σ) (P : Vm σ → Vm σ → Prop) (s : Vm σ) : Vm σ → Prop
  | start : Runs G P s s
  | step {vm vm' : Vm σ} (run : Runs G P s vm) (step : vm.step G = .ok vm') (meets : P vm vm') :
      Runs G P s vm'
  | doit {vm vm' : Vm σ} {v : Oop} {heap : σ} {mid : Nat} {receiver : Oop} {args : List Oop}
      (run : Runs G P s vm) (returned : vm.control = .returned v) (top : vm.nested = [])
      (argc : args.length = (G.method mid).argc)
      (begins : vm.begin heap mid receiver args = .ok vm') (meets : P vm vm') : Runs G P s vm'

theorem fresh_stacked (heap : σ) : (fresh heap).Numbered ∧ (fresh heap).Laid G :=
  ⟨⟨Nat.zero_le _, List.Pairwise.nil, nofun, nofun⟩, .bottom _⟩

theorem Runs.stacked {P : Vm σ → Vm σ → Prop} {heap : σ} (h : Runs G P (fresh heap) vm) :
    vm.Numbered ∧ vm.Laid G := by
  induction h with
  | start => exact fresh_stacked heap
  | step run hstep _ ih =>
    obtain ⟨hn', hl', -⟩ := step_stacked ih.1 ih.2 hstep
    exact ⟨hn', hl'⟩
  | doit run hret htop hargc hbegin _ ih =>
    have hk := begin_stacked ih.1 ih.2 hret htop hargc hbegin
    exact ⟨hk.numbered, hk.laid⟩

/-- `n` steps, each of which must meet the decidable condition `P`. -/
def checkedRun (G : Guest σ) (P : Vm σ → Vm σ → Prop) [∀ vm vm', Decidable (P vm vm')] :
    Nat → Vm σ → Option (Vm σ)
  | 0, vm => some vm
  | n + 1, vm => match vm.step G with
    | .ok vm' => if P vm vm' then checkedRun G P n vm' else none
    | .error _ => none

theorem Runs.trans {P : Vm σ → Vm σ → Prop} {s : Vm σ} (h : Runs G P s vm) (h' : Runs G P vm vm') :
    Runs G P s vm' := by
  induction h' with
  | start => exact h
  | step _ hstep hmeets ih => exact .step ih hstep hmeets
  | doit _ hret htop hargc hbegin hmeets ih => exact .doit ih hret htop hargc hbegin hmeets

theorem runs_of_checkedRun {P : Vm σ → Vm σ → Prop} [∀ vm vm', Decidable (P vm vm')] {n : Nat}
    (h : checkedRun G P n vm = some vm') : Runs G P vm vm' := by
  induction n generalizing vm with
  | zero =>
    obtain rfl := Option.some.inj h
    exact .start
  | succ n ih =>
    unfold checkedRun at h
    split at h
    · rename_i next hstep
      split at h
      · rename_i hmeets
        exact Runs.trans (.step .start hstep hmeets) (ih h)
      · cases h
    · cases h

/-! ## Liveness -/

/-- The serial a stack word reads as. -/
def readSerial : Oop → Option Nat
  | .smi v => some (serialBits v)
  | _ => none

/-- The activation a home reference names is on the stack. -/
def OnStack (vm : Vm σ) (h : HomeRef) : Prop :=
  ∃ a ∈ vm.ledger, a.fp = h.fp ∧ a.id % 2 ^ 32 = h.serial

/-- The word at a home's serial index is below `sp`, is no frame's serial word, and reads
as the home's serial all the same. -/
def Aliased (vm : Vm σ) (h : HomeRef) : Prop :=
  h.fp + 5 < vm.stack.sp ∧ (∀ a ∈ vm.ledger, a.fp ≠ h.fp) ∧
    readSerial (vm.stack.slots (h.fp + 5)) = some h.serial

/-- The step put a word into `h`'s serial index, or took `h`'s activation off the stack. -/
def Rewrites (vm vm' : Vm σ) (h : HomeRef) : Prop :=
  vm.stack.sp ≤ h.fp + 5 ∨ vm'.stack.slots (h.fp + 5) ≠ vm.stack.slots (h.fp + 5) ∨ vm.OnStack h

/-- No step leaves in the old serial word of a dead captured activation an operand, an
argument, a temporary, a receiver or a frame link that reads as its serial. -/
def CollisionFree (vm vm' : Vm σ) : Prop :=
  ∀ c ∈ vm'.closures, ¬ vm'.OnStack (unpackHomeRef c.home) →
    Rewrites vm vm' (unpackHomeRef c.home) → ¬ vm'.Aliased (unpackHomeRef c.home)

instance (vm : Vm σ) (h : HomeRef) : Decidable (vm.OnStack h) :=
  inferInstanceAs (Decidable (∃ a ∈ vm.ledger, a.fp = h.fp ∧ a.id % 2 ^ 32 = h.serial))

instance (vm : Vm σ) (h : HomeRef) : Decidable (vm.Aliased h) :=
  inferInstanceAs (Decidable (_ ∧ _ ∧ _))

instance (vm vm' : Vm σ) (h : HomeRef) : Decidable (Rewrites vm vm' h) :=
  inferInstanceAs (Decidable (_ ∨ _ ∨ _))

instance (vm vm' : Vm σ) : Decidable (CollisionFree vm vm') :=
  inferInstanceAs (Decidable (∀ c ∈ vm'.closures, _ → _ → _))

/-- Dead captured homes are not aliased. -/
def Unaliased (vm : Vm σ) : Prop :=
  ∀ c ∈ vm.closures, ¬ vm.OnStack (unpackHomeRef c.home) → ¬ vm.Aliased (unpackHomeRef c.home)

/-- The serial word of a frame on the stack reads as that frame's number. -/
theorem Laid.serial_word (hl : vm.Laid G) {a : Activation} (ha : a ∈ vm.ledger) :
    a.fp + 7 ≤ vm.stack.sp ∧
      readSerial (vm.stack.slots (a.fp + 5)) = some (a.id % 2 ^ 32) := by
  obtain ⟨k, hs⟩ := hl.stacked
  obtain ⟨link, m, hf⟩ := hs.frameOk ha
  have habove := hf.above
  obtain ⟨w, hw, hbits⟩ := hf.serial
  refine ⟨by omega, ?_⟩
  rw [hw, ← hbits]
  rfl

theorem step_unaliased (hl : vm.Laid G) (hc : Captures vm vm') (hfree : CollisionFree vm vm')
    (hu : vm.Unaliased) : vm'.Unaliased := by
  intro c hmem hdead halias
  by_cases hw : Rewrites vm vm' (unpackHomeRef c.home)
  · exact hfree c hmem hdead hw halias
  · simp only [Rewrites, not_or, not_le, ne_eq, not_not] at hw
    obtain ⟨hsp, hsame, hdead₀⟩ := hw
    obtain ⟨-, -, hread⟩ := halias
    rw [hsame] at hread
    have hold : ∃ c₀ ∈ vm.closures, unpackHomeRef c₀.home = unpackHomeRef c.home := by
      rcases hc with heq | ⟨c', heq, -, hnew⟩
      · exact ⟨c, heq ▸ hmem, rfl⟩
      · rw [heq] at hmem
        rcases List.mem_append.mp hmem with hmem | hmem
        · exact ⟨c, hmem, rfl⟩
        · obtain rfl := List.mem_singleton.mp hmem
          rcases hnew with ⟨c₀, hc₀, hhome⟩ | ⟨a, ha, hhome⟩
          · exact ⟨c₀, hc₀, by rw [hhome]⟩
          · exact absurd ⟨a, ha, by rw [hhome], by rw [hhome]⟩ hdead₀
    obtain ⟨c₀, hc₀, hhome⟩ := hold
    refine hu c₀ hc₀ (by rw [hhome]; exact hdead₀) ?_
    rw [hhome]
    refine ⟨hsp, ?_, hread⟩
    intro a ha hfp
    obtain ⟨-, hserial⟩ := hl.serial_word ha
    rw [hfp, hread] at hserial
    exact hdead₀ ⟨a, ha, hfp, (Option.some.inj hserial).symm⟩

theorem Runs.unaliased {heap : σ} (h : Runs G CollisionFree (fresh heap) vm) : vm.Unaliased := by
  induction h with
  | start => exact nofun
  | step run hstep hfree ih =>
    obtain ⟨hn, hl⟩ := run.stacked
    obtain ⟨-, -, hc⟩ := step_stacked hn hl hstep
    exact step_unaliased hl hc hfree ih
  | doit run hret htop hargc hbegin hfree ih =>
    obtain ⟨hn, hl⟩ := run.stacked
    have hk := begin_stacked hn hl hret htop hargc hbegin
    exact step_unaliased hl (.inl hk.closures) hfree ih

/-- What `home_is_live` checks once the process id is the only one there is. -/
theorem homeIsLive_eq {h : HomeRef} (hproc : h.proc = 0) :
    vm.homeIsLive h = true ↔
      h.fp + 6 < vm.stack.sp ∧ readSerial (vm.stack.slots (h.fp + 5)) = some h.serial := by
  simp only [homeIsLive, hproc, ne_eq, not_true_eq_false, ↓reduceIte]
  split
  · rename_i hsp
    simp only [frameMarker] at hsp
    simp only [Bool.false_eq_true, false_iff, not_and]
    omega
  · rename_i hsp
    simp only [frameMarker] at hsp
    split
    · rename_i v hv
      simp only [frameSerial] at hv
      simp only [beq_iff_eq, hv, readSerial, Option.some.injEq]
      omega
    · rename_i hno
      have hread : readSerial (vm.stack.slots (h.fp + 5)) = none := by
        unfold readSerial
        split
        · rename_i v hv
          exact absurd hv (hno v)
        · rfl
      simp [hread]

/-- Where no dead captured home is aliased, `home_is_live` is exact. -/
theorem homeIsLive_iff (hn : vm.Numbered) (hl : vm.Laid G) (hu : vm.Unaliased) {c : Closure}
    (hc : c ∈ vm.closures) :
    vm.homeIsLive (unpackHomeRef c.home) = true ↔ vm.OnStack (unpackHomeRef c.home) := by
  obtain ⟨id, -, hproc, -, -⟩ := hn.homes c hc
  rw [homeIsLive_eq hproc]
  constructor
  · rintro ⟨hsp, hread⟩
    by_contra hdead
    refine hu c hc hdead ⟨by omega, ?_, hread⟩
    intro a ha hfp
    obtain ⟨-, hserial⟩ := hl.serial_word ha
    rw [hfp, hread] at hserial
    exact hdead ⟨a, ha, hfp, (Option.some.inj hserial).symm⟩
  · rintro ⟨a, ha, hfp, hserial⟩
    obtain ⟨hsp, hread⟩ := hl.serial_word ha
    rw [hfp] at hread hsp
    exact ⟨by omega, by rw [hread, hserial]⟩

/-- With fewer than `2^32` activations a serial names one activation. -/
theorem onStack_iff (hn : vm.Numbered) (hfew : vm.nextFrameSerial < 2 ^ 32) (h : HomeRef) :
    vm.OnStack h ↔ (⟨h.fp, h.serial⟩ : Activation) ∈ vm.ledger := by
  constructor
  · rintro ⟨a, ha, hfp, hserial⟩
    have hlt := hn.fresh a ha
    rw [Nat.mod_eq_of_lt (by omega)] at hserial
    rw [← hfp, ← hserial]
    exact ha
  · intro hmem
    have hlt := hn.fresh _ hmem
    exact ⟨_, hmem, rfl, Nat.mod_eq_of_lt (Nat.lt_trans hlt hfew)⟩

end Vm

/-- **Home liveness.** In every run with fewer than `2^32` activations in which no step
leaves, in the stack word where a dead captured activation kept its serial, a SmallInteger
that reads as that serial, `home_is_live` answers true for a captured home exactly when that
very activation is on the process stack. A live home is found in every run. Packing a home
reference loses nothing. -/
theorem home_is_live_exact {heap : σ} {vm : Vm σ} (hrun : Vm.Runs G Vm.CollisionFree (Vm.fresh heap) vm)
    (hfew : vm.nextFrameSerial < 2 ^ 32) :
    (∀ c ∈ vm.closures, vm.homeIsLive (unpackHomeRef c.home) = true ↔
      (⟨(unpackHomeRef c.home).fp, (unpackHomeRef c.home).serial⟩ : Activation) ∈ vm.ledger) ∧
    ∀ h : HomeRef, h.proc < 2 ^ 8 → h.serial < 2 ^ 32 → h.fp < 2 ^ 22 →
      unpackHomeRef (packHomeRef h) = h := by
  obtain ⟨hn, hl⟩ := hrun.stacked
  refine ⟨?_, fun h hp hserial hfp => unpackHomeRef_pack hp hserial hfp⟩
  intro c hc
  rw [Vm.homeIsLive_iff hn hl hrun.unaliased hc, Vm.onStack_iff hn hfew]

end

/-! ## A guest that collides

`run` sends `make`, which answers a block whose home is its own activation, and then keeps
small integers on its operand stack. The seventh one lies over the serial word of the dead
activation. -/

/-- A method with no arguments, temporaries or context. -/
def plainMethod (bytecode : List Instr) : Method where
  argc := 0
  ntemps := 0
  isBlock := false
  hasCtx := false
  nctx := 0
  capturesCtx := false
  primitive := .none
  bytecode

/-- Method 0 is `run` over the operands `vs`, method 1 is `make`, method 2 its block. -/
def operandGuest (vs : List Int) : Guest Unit where
  method
    | 0 => plainMethod ([.push .self, .send 0 0] ++ vs.map (.push ∘ .smi) ++ [.returnTos])
    | 1 => plainMethod [.pushClosure 2 0, .returnTos]
    | _ => { plainMethod [.push .nil, .blockReturnTos] with isBlock := true }
  lookup := fun _ _ _ => some 1
  message := fun _ _ _ => ((), .nil)
  siteDoesNotUnderstand := 0
  siteMustBeBoolean := 0
  siteCannotReturn := 0
  prim := fun _ _ _ _ => none
  instvar := fun _ _ _ => none
  setInstvar := fun _ _ _ _ => none
  global := fun _ _ _ => .nil
  setGlobal := fun _ _ _ _ => ()
  elements := fun _ _ => none
  symbol := fun _ _ => none
  collects := fun _ => false

/-- Twelve steps of `run`: the entry, the send, the block, its return and the operands. -/
def operandRun (vs : List Int) (P : Vm Unit → Vm Unit → Prop) [∀ vm vm', Decidable (P vm vm')] :
    Option (Vm Unit) :=
  match (Vm.fresh ()).begin () 0 .nil [] with
  | .ok s => if P (Vm.fresh ()) s then Vm.checkedRun (operandGuest vs) P 12 s else none
  | .error _ => none

/-- The captured home of the block, its liveness and the ledger. -/
def operandView (vm : Vm Unit) : List (HomeRef × Bool) × List Activation :=
  (vm.closures.map fun c => (unpackHomeRef c.home, vm.homeIsLive (unpackHomeRef c.home)), vm.ledger)

theorem operandRun_runs {vs : List Int} {P : Vm Unit → Vm Unit → Prop}
    [∀ vm vm', Decidable (P vm vm')] {vm : Vm Unit} (h : operandRun vs P = some vm) :
    Vm.Runs (operandGuest vs) P (Vm.fresh ()) vm := by
  unfold operandRun at h
  split at h
  · rename_i s hs
    split at h
    · rename_i hmeets
      exact Vm.Runs.trans (.doit .start rfl rfl rfl hs hmeets) (Vm.runs_of_checkedRun h)
    · cases h
  · cases h

/-- Seven operands equal to the dead activation's serial 1: `home_is_live` answers true for
an activation that is no longer on the stack. -/
theorem guest_smi_revives_home :
    ¬ ∀ (G : Guest Unit) (vm : Vm Unit), Vm.Runs G (fun _ _ => True) (Vm.fresh ()) vm →
      vm.nextFrameSerial < 2 ^ 32 →
      ∀ c ∈ vm.closures, vm.homeIsLive (unpackHomeRef c.home) = true ↔
        (⟨(unpackHomeRef c.home).fp, (unpackHomeRef c.home).serial⟩ : Activation) ∈ vm.ledger := by
  intro hall
  have hview : (operandRun [1, 1, 1, 1, 1, 1, 1] fun _ _ => True).map
      (fun vm => (operandView vm, vm.nextFrameSerial)) =
        some (([(⟨0, 1, 9⟩, true)], [⟨1, 0⟩]), 2) := by
    decide +kernel
  obtain ⟨vm, hrun, hv⟩ := Option.map_eq_some_iff.mp hview
  have hruns := operandRun_runs hrun
  simp only [operandView, Prod.mk.injEq] at hv
  obtain ⟨⟨hclosures, hledger⟩, hnext⟩ := hv
  obtain ⟨c, hc, hhome⟩ : ∃ c ∈ vm.closures,
      (unpackHomeRef c.home, vm.homeIsLive (unpackHomeRef c.home)) = (⟨0, 1, 9⟩, true) := by
    rw [← List.mem_map, hclosures]
    exact List.mem_singleton_self _
  obtain ⟨hhome, hlive⟩ := Prod.mk.inj hhome
  have hon := (hall _ vm hruns (by rw [hnext]; decide) c hc).mp hlive
  rw [hhome, hledger] at hon
  exact absurd hon (by decide)

/-- With other operands the same run stays exact: the home is captured, dead, and read so. -/
theorem home_is_live_exact_operands :
    ∃ vm, Vm.Runs (operandGuest [2, 3, 4, 5, 6, 7, 8]) Vm.CollisionFree (Vm.fresh ()) vm ∧
      operandView vm = ([(⟨0, 1, 9⟩, false)], [⟨1, 0⟩]) ∧
      ∀ c ∈ vm.closures, vm.homeIsLive (unpackHomeRef c.home) = true ↔
        (⟨(unpackHomeRef c.home).fp, (unpackHomeRef c.home).serial⟩ : Activation) ∈ vm.ledger := by
  have hview : (operandRun [2, 3, 4, 5, 6, 7, 8] Vm.CollisionFree).map
      (fun vm => (operandView vm, vm.nextFrameSerial)) =
        some (([(⟨0, 1, 9⟩, false)], [⟨1, 0⟩]), 2) := by
    decide +kernel
  obtain ⟨vm, hrun, hv⟩ := Option.map_eq_some_iff.mp hview
  have hruns := operandRun_runs hrun
  obtain ⟨hv, hnext⟩ := Prod.mk.inj hv
  exact ⟨vm, hruns, hv, (home_is_live_exact hruns (by rw [hnext]; decide)).1⟩

end WinVm.Process
