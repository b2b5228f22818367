import WinVm.Lib.Reach
import WinVm.Process.Liveness
import WinVm.Process.Semantics

/-!
# Activations on the process stack

When a state of the interpreter stands for an activation of the semantics: the frame holds
the activation's words, every captured home names its activation by serial and index, and
the frames under it are laid out below the receiver. Each bytecode that stays inside the
frame is followed here; calls, returns and unwinding are the next module's.

Results:

* `Represents.load`, `Represents.store`, `Represents.push`, `Represents.pop`,
  `Represents.makeClosure`: the frame and the activation do the same.
-/

namespace WinVm.Process

open Lib

/-! ## Words in a row -/

namespace ProcessStack

/-- The words `vs` lie on the stack from `idx` on. -/
def Holds (st : ProcessStack) (idx : Nat) (vs : List Oop) : Prop :=
  ∀ i v, vs[i]? = some v → st.slots (idx + i) = v

variable {st st' : ProcessStack} {idx : Nat} {vs ws : List Oop}

theorem holds_nil : st.Holds idx [] := by
  intro i v h
  cases h

theorem Holds.congr (h : st.Holds idx vs)
    (heq : ∀ i < vs.length, st'.slots (idx + i) = st.slots (idx + i)) : st'.Holds idx vs := by
  intro i v hv
  obtain ⟨hlt, -⟩ := List.getElem?_eq_some_iff.mp hv
  rw [heq i hlt]
  exact h i v hv

theorem holds_append :
    st.Holds idx (vs ++ ws) ↔ st.Holds idx vs ∧ st.Holds (idx + vs.length) ws := by
  constructor
  · intro h
    refine ⟨fun i v hv => ?_, fun i v hv => ?_⟩
    · obtain ⟨hlt, -⟩ := List.getElem?_eq_some_iff.mp hv
      exact h i v (by rw [List.getElem?_append_left hlt, hv])
    · have := h (vs.length + i) v (by rw [List.getElem?_append_right (Nat.le_add_right _ _)]; simpa using hv)
      rwa [← Nat.add_assoc] at this
  · rintro ⟨hv, hw⟩ i v hi
    rcases Nat.lt_or_ge i vs.length with hlt | hge
    · rw [List.getElem?_append_left hlt] at hi
      exact hv i v hi
    · obtain ⟨j, rfl⟩ := Nat.exists_eq_add_of_le hge
      rw [List.getElem?_append_right hge, Nat.add_sub_cancel_left] at hi
      rw [← Nat.add_assoc]
      exact hw j v hi

theorem holds_singleton {v : Oop} : st.Holds idx [v] ↔ st.slots idx = v := by
  constructor
  · intro h
    exact h 0 v rfl
  · intro h i w hw
    cases i with
    | zero =>
      obtain rfl := Option.some.inj hw
      exact h
    | succ i => cases hw

theorem holds_cons {v : Oop} :
    st.Holds idx (v :: vs) ↔ st.slots idx = v ∧ st.Holds (idx + 1) vs := by
  have h := @holds_append st idx [v] vs
  rwa [holds_singleton] at h

theorem Holds.words (h : st.Holds idx vs) : st.words idx vs.length = vs := by
  apply List.ext_getElem
  · simp [ProcessStack.words]
  · intro i h₁ h₂
    simp only [ProcessStack.words, List.getElem_map, List.getElem_range]
    exact h i _ (List.getElem?_eq_getElem h₂)

theorem Holds.set {k : Nat} (v : Oop) (h : st.Holds idx vs) :
    (st.set (idx + k) v).Holds idx (vs.set k v) := by
  intro i w hw
  by_cases hik : i = k
  · subst hik
    obtain ⟨hlt, hval⟩ := List.getElem?_eq_some_iff.mp hw
    rw [List.getElem_set_self] at hval
    rw [set_slots_self, hval]
  · rw [set_slots_ne _ _ (by omega)]
    rw [List.getElem?_set_ne (Ne.symm hik)] at hw
    exact h i w hw

theorem holds_write : (st.write vs).Holds st.sp vs := fun _ _ h => st.write_slots_at vs h

end ProcessStack

section
variable {σ : Type} {G : Guest σ}

/-! ## Worlds -/

/-- The reference `ref` names the activation `h`: by its serial, and by its index for as
long as it is on the stack. -/
structure Names (ledger : List Activation) (next : Nat) (ref : HomeRef) (h : Nat) : Prop where
  proc : ref.proc = 0
  serial : ref.serial = h % 2 ^ 32
  bound : ref.fp < 2 ^ 22
  old : h < next
  fp : ∀ a ∈ ledger, a.id = h → a.fp = ref.fp

theorem Names.mono {l l' : List Activation} {n n' h : Nat} {ref : HomeRef}
    (hn : Names l n ref h) (hl : ∀ a ∈ l', a ∈ l ∨ n ≤ a.id) (hle : n ≤ n') :
    Names l' n' ref h := by
  have hold := hn.old
  refine ⟨hn.proc, hn.serial, hn.bound, by omega, ?_⟩
  intro a ha hid
  rcases hl a ha with hmem | hnew
  · exact hn.fp a hmem hid
  · omega

/-- A closure stands for a block. -/
structure ShowsBlock (G : Guest σ) (ledger : List Activation) (next : Nat) (c : Closure) (b : Block) :
    Prop where
  method : c.method = b.method
  copied : c.copied = b.copied
  isBlock : (G.method b.method).isBlock = true
  home : Names ledger next (unpackHomeRef c.home) b.home

namespace Vm

/-- The state shows the world: its heap and contexts, the count of activations, the handlers
started so far, and a closure for each block. -/
structure Shows (G : Guest σ) (vm : Vm σ) (W : World σ) : Prop where
  contexts : vm.contexts = W.contexts
  heap : vm.heap = W.heap
  next : vm.nextFrameSerial = W.next
  handlerRuns : vm.handlerRuns = W.handlerRuns
  blocks : List.Forall₂ (ShowsBlock G vm.ledger vm.nextFrameSerial) vm.closures W.blocks

variable {vm vm' : Vm σ} {W : World σ}

/-- The same objects under another ledger. -/
theorem Shows.congr (h : vm.Shows G W) (hctx : vm'.contexts = vm.contexts)
    (hheap : vm'.heap = vm.heap) (hnext : vm'.nextFrameSerial = vm.nextFrameSerial)
    (hruns : vm'.handlerRuns = vm.handlerRuns) (hcl : vm'.closures = vm.closures)
    (hl : ∀ a ∈ vm'.ledger, a ∈ vm.ledger) : vm'.Shows G W := by
  refine ⟨hctx.trans h.contexts, hheap.trans h.heap, hnext.trans h.next, hruns.trans h.handlerRuns, ?_⟩
  rw [hcl, hnext]
  exact h.blocks.imp fun c b hb =>
    ⟨hb.method, hb.copied, hb.isBlock, hb.home.mono (fun a ha => .inl (hl a ha)) (Nat.le_refl _)⟩

/-- The block of a closure word. -/
theorem Shows.closureOf {w : Oop} {b : Block} (h : vm.Shows G W) (hb : W.blockOf w = some b) :
    ∃ c cl, w = .closure c ∧ vm.closures[c]? = some cl ∧ vm.closureOf w = .ok cl ∧
      ShowsBlock G vm.ledger vm.nextFrameSerial cl b := by
  unfold World.blockOf at hb
  split at hb
  · rename_i c
    obtain ⟨hlt, hval⟩ := List.getElem?_eq_some_iff.mp hb
    have hlen := h.blocks.length_eq
    have hcl : vm.closures[c]? = some vm.closures[c] := List.getElem?_eq_getElem (by omega)
    refine ⟨c, vm.closures[c], rfl, hcl, by simp only [Vm.closureOf, hcl], ?_⟩
    rw [← hval]
    exact h.blocks.get (by omega) (by omega)
  · cases hb

/-- A word that is no block's closure is refused. -/
theorem Shows.closureOf_none {w : Oop} (h : vm.Shows G W) (hb : W.blockOf w = none) :
    vm.closureOf w = .error .notAClosure := by
  cases w with
  | closure c =>
    have hlen := h.blocks.length_eq
    have hcl : vm.closures[c]? = none := by
      have hb : W.blocks[c]? = none := hb
      rw [List.getElem?_eq_none_iff] at hb ⊢
      omega
    unfold Vm.closureOf
    simp only [hcl]
  | _ => rfl

end Vm

/-! ## Frames -/

/-- The frames of a ledger lie below `top`, numbered below `next`, and their serial words are
as they were pushed. -/
structure Grounded (st : ProcessStack) (ledger : List Activation) (next top : Nat) : Prop where
  ordered : ledger.Pairwise fun a b => b.id < a.id
  fresh : ∀ a ∈ ledger, a.id < next
  below : ∀ a ∈ ledger, a.fp + 7 ≤ top
  serial : ∀ a ∈ ledger, Vm.readSerial (st.slots (a.fp + 5)) = some (a.id % 2 ^ 32)

namespace Grounded

variable {st st' : ProcessStack} {ledger : List Activation} {next next' top top' : Nat}

theorem congr (h : Grounded st ledger next top) (heq : ∀ i < top, st'.slots i = st.slots i) :
    Grounded st' ledger next top := by
  refine ⟨h.ordered, h.fresh, h.below, ?_⟩
  intro a ha
  have hlt := h.below a ha
  rw [heq _ (by omega)]
  exact h.serial a ha

theorem mono (h : Grounded st ledger next top) (hn : next ≤ next') (ht : top ≤ top') :
    Grounded st ledger next' top' :=
  ⟨h.ordered, fun a ha => Nat.lt_of_lt_of_le (h.fresh a ha) hn,
    fun a ha => Nat.le_trans (h.below a ha) ht, h.serial⟩

theorem cons {a : Activation} (h : Grounded st ledger a.id top) (hle : top ≤ top') (hid : a.id < next)
    (hfp : a.fp + 7 ≤ top') (hserial : Vm.readSerial (st.slots (a.fp + 5)) = some (a.id % 2 ^ 32)) :
    Grounded st (a :: ledger) next top' := by
  have hrest := h.mono (Nat.le_of_lt hid) hle
  refine ⟨List.pairwise_cons.mpr ⟨h.fresh, h.ordered⟩, ?_, ?_, ?_⟩
  · exact List.forall_mem_cons.mpr ⟨hid, hrest.fresh⟩
  · exact List.forall_mem_cons.mpr ⟨hfp, hrest.below⟩
  · exact List.forall_mem_cons.mpr ⟨hserial, hrest.serial⟩

end Grounded

namespace Vm

/-- The receiver slot of the active frame, when it runs the method `m`. -/
def receiverBase (G : Guest σ) (vm : Vm σ) (m : Nat) : Nat := vm.stack.fp - (G.method m).argc - 1

/-- Where the operands of the active frame begin. -/
def floor (G : Guest σ) (vm : Vm σ) (m : Nat) : Nat := vm.stack.fp + 7 + (G.method m).ntemps

/-- The active frame is the activation `act` in the world `W`, where the activations in
`live` are in progress. -/
structure Represents (G : Guest σ) (vm : Vm σ) (W : World σ) (live : List Nat) (act : Act) : Prop where
  shows : vm.Shows G W
  live : ∀ h ∈ live, ∃ a ∈ vm.ledger, a.id = h
  ledger : ∃ rest, vm.ledger = ⟨vm.stack.fp, act.id⟩ :: rest ∧
    Grounded vm.stack rest act.id (vm.receiverBase G act.method)
  fresh : act.id < vm.nextFrameSerial
  serial : readSerial (vm.stack.slots (vm.stack.fp + 5)) = some (act.id % 2 ^ 32)
  method : vm.stack.slots vm.stack.fp = .method act.method
  context : vm.stack.context vm.stack.fp = act.context
  receiver : vm.stack.receiver vm.stack.fp = act.receiver
  below : (G.method act.method).argc + 1 ≤ vm.stack.fp
  argc : act.args.length = (G.method act.method).argc
  ntemps : act.temps.length = (G.method act.method).ntemps
  args : vm.stack.Holds (vm.stack.fp - (G.method act.method).argc) act.args
  temps : vm.stack.Holds (vm.stack.fp + 7) act.temps
  operands : vm.stack.Holds (vm.floor G act.method) act.operands.reverse
  sp : vm.stack.sp = vm.floor G act.method + act.operands.length
  cap : vm.stack.sp ≤ stackCapacity
  home : if (G.method act.method).isBlock then
      ∃ c cl, vm.stack.slots (vm.receiverBase G act.method) = .closure c ∧
        vm.closures[c]? = some cl ∧ Names vm.ledger vm.nextFrameSerial (unpackHomeRef cl.home) act.home
    else act.home = act.id

/-- What only ever grows while a frame runs. -/
structure Grows (vm vm' : Vm σ) : Prop where
  nested : vm'.nested = vm.nested
  tokens : vm.tokens <+: vm'.tokens
  closures : vm.closures <+: vm'.closures
  next : vm.nextFrameSerial ≤ vm'.nextFrameSerial

/-- The frame whose receiver slot is `base` is still the active one, with the same stack below
it and the same header but for its marker. -/
structure Framed (base : Nat) (vm vm' : Vm σ) : Prop where
  grows : Grows vm vm'
  fp : vm'.stack.fp = vm.stack.fp
  ledger : vm'.ledger = vm.ledger
  below : ∀ i ≤ base, vm'.stack.slots i = vm.stack.slots i
  header : ∀ i < 5, vm'.stack.slots (vm.stack.fp + i) = vm.stack.slots (vm.stack.fp + i)
  serial : readSerial (vm'.stack.slots (vm.stack.fp + 5)) =
    readSerial (vm.stack.slots (vm.stack.fp + 5))

/-- The same, with the marker and its kind as well. -/
structure Same (base : Nat) (vm vm' : Vm σ) : Prop extends Framed base vm vm' where
  kind : vm'.stack.slots (vm.stack.fp + 5) = vm.stack.slots (vm.stack.fp + 5)
  marker : vm'.stack.slots (vm.stack.fp + 6) = vm.stack.slots (vm.stack.fp + 6)

variable {vm vm' vm'' : Vm σ} {W W' : World σ} {live : List Nat} {act act' : Act} {base : Nat}

theorem Grows.refl (vm : Vm σ) : Grows vm vm :=
  ⟨rfl, List.prefix_refl _, List.prefix_refl _, Nat.le_refl _⟩

theorem Grows.trans (h : Grows vm vm') (h' : Grows vm' vm'') : Grows vm vm'' :=
  ⟨h'.nested.trans h.nested, h.tokens.trans h'.tokens, h.closures.trans h'.closures,
    Nat.le_trans h.next h'.next⟩

theorem Grows.congr (h : Grows vm vm') (hnested : vm''.nested = vm'.nested)
    (htokens : vm''.tokens = vm'.tokens) (hclosures : vm''.closures = vm'.closures)
    (hnext : vm''.nextFrameSerial = vm'.nextFrameSerial) : Grows vm vm'' :=
  ⟨hnested.trans h.nested, htokens ▸ h.tokens, hclosures ▸ h.closures, hnext ▸ h.next⟩

theorem Grows.closure {c : Nat} {cl : Closure} (h : Grows vm vm') (hc : vm.closures[c]? = some cl) :
    vm'.closures[c]? = some cl := by
  obtain ⟨more, hmore⟩ := h.closures
  obtain ⟨hlt, -⟩ := List.getElem?_eq_some_iff.mp hc
  rw [← hmore, List.getElem?_append_left hlt, hc]

theorem Framed.trans (h : Framed base vm vm') (h' : Framed base vm' vm'') : Framed base vm vm'' := by
  have hheader := h'.header
  have hserial := h'.serial
  rw [h.fp] at hheader hserial
  refine ⟨h.grows.trans h'.grows, h'.fp.trans h.fp, h'.ledger.trans h.ledger, ?_, ?_,
    hserial.trans h.serial⟩
  · intro i hi
    rw [h'.below i hi, h.below i hi]
  · intro i hi
    rw [hheader i hi, h.header i hi]

theorem Same.refl (base : Nat) (vm : Vm σ) : Same base vm vm :=
  ⟨⟨.refl vm, rfl, rfl, fun _ _ => rfl, fun _ _ => rfl, rfl⟩, rfl, rfl⟩

theorem Same.trans (h : Same base vm vm') (h' : Same base vm' vm'') : Same base vm vm'' := by
  have hkind := h'.kind
  have hmarker := h'.marker
  rw [h.fp] at hkind hmarker
  exact ⟨h.toFramed.trans h'.toFramed, hkind.trans h.kind, hmarker.trans h.marker⟩

/-- A frame whose stack differs only in words that are neither its header nor below it. -/
theorem Same.of_slots (hgrows : Grows vm vm') (hfp : vm'.stack.fp = vm.stack.fp)
    (hledger : vm'.ledger = vm.ledger)
    (heq : ∀ i, i ≤ base ∨ (vm.stack.fp ≤ i ∧ i < vm.stack.fp + 7) →
      vm'.stack.slots i = vm.stack.slots i) : Same base vm vm' := by
  have hhead : ∀ i < 7, vm'.stack.slots (vm.stack.fp + i) = vm.stack.slots (vm.stack.fp + i) :=
    fun i hi => heq _ (.inr (by omega))
  exact ⟨⟨hgrows, hfp, hledger, fun i hi => heq i (.inl hi), fun i hi => hhead i (by omega),
    by rw [hhead 5 (by decide)]⟩, hhead 5 (by decide), hhead 6 (by decide)⟩

theorem Same.of_stack {st : ProcessStack} (hfp : st.fp = vm.stack.fp)
    (heq : ∀ i, i ≤ base ∨ (vm.stack.fp ≤ i ∧ i < vm.stack.fp + 7) → st.slots i = vm.stack.slots i) :
    Same base vm (vm.withStack st) :=
  .of_slots ⟨rfl, List.prefix_refl _, List.prefix_refl _, Nat.le_refl _⟩ hfp rfl heq

/-- The state after a push that had room. -/
def pushed (vm : Vm σ) (v : Oop) : Vm σ :=
  vm.withStack ((vm.stack.set vm.stack.sp v).withSp (vm.stack.sp + 1))

/-- The one fault a run may end in instead of what it means. -/
def Overflow (f : Fault) : Prop := f = .stackOverflow

theorem push_yields {v : Oop} {Q : Vm σ → Prop}
    (h : vm.stack.sp < stackCapacity → Q (vm.pushed v)) : Yields Overflow Q (vm.push v) := by
  unfold push ProcessStack.push
  split
  · exact rfl
  · exact h (by omega)

namespace Represents

/-- The activation the frame has become. -/
theorem keep (h : vm.Represents G W live act) (hs : Framed (vm.receiverBase G act.method) vm vm')
    (hshows : vm'.Shows G W')
    (hact : act' = { act with args := act'.args, temps := act'.temps, operands := act'.operands })
    (hargc : act'.args.length = act.args.length) (hntemps : act'.temps.length = act.temps.length)
    (hargs : vm'.stack.Holds (vm.stack.fp - (G.method act.method).argc) act'.args)
    (htemps : vm'.stack.Holds (vm.stack.fp + 7) act'.temps)
    (hoperands : vm'.stack.Holds (vm.floor G act.method) act'.operands.reverse)
    (hsp : vm'.stack.sp = vm.floor G act.method + act'.operands.length)
    (hcap : vm'.stack.sp ≤ stackCapacity) : vm'.Represents G W' live act' := by
  obtain ⟨id, home, method, receiver, args, temps, context, operands⟩ := act'
  obtain ⟨rfl, rfl, rfl, rfl, rfl⟩ : id = act.id ∧ home = act.home ∧ method = act.method ∧
      receiver = act.receiver ∧ context = act.context := by
    simpa using hact
  obtain ⟨rest, hrest, hground⟩ := h.ledger
  have hbase : vm'.receiverBase G act.method = vm.receiverBase G act.method := by
    rw [receiverBase, receiverBase, hs.fp]
  have hfloor : vm'.floor G act.method = vm.floor G act.method := by
    rw [floor, floor, hs.fp]
  have hnext := hs.grows.next
  refine ⟨hshows, ?_, ⟨rest, ?_, ?_⟩, Nat.lt_of_lt_of_le h.fresh hnext, ?_, ?_, ?_, ?_, ?_, hargc.trans h.argc,
    hntemps.trans h.ntemps, ?_, ?_, ?_, ?_, hcap, ?_⟩
  · rw [hs.ledger]
    exact h.live
  · rw [hs.ledger, hs.fp, hrest]
  · rw [hbase]
    exact hground.congr fun i hi => hs.below i (Nat.le_of_lt hi)
  · rw [hs.fp, hs.serial, h.serial]
  · rw [hs.fp]
    exact (hs.header 0 (by decide)).trans h.method
  · rw [ProcessStack.context, hs.fp]
    exact (hs.header 3 (by decide)).trans h.context
  · rw [ProcessStack.receiver, hs.fp]
    exact (hs.header 4 (by decide)).trans h.receiver
  · rw [hs.fp]
    exact h.below
  · rw [hs.fp]
    exact hargs
  · rw [hs.fp]
    exact htemps
  · rw [hfloor]
    exact hoperands
  · rw [hfloor, hsp]
  · have hhome := h.home
    split
    · rename_i hblock
      rw [if_pos hblock] at hhome
      obtain ⟨c, cl, hslot, hcl, hnames⟩ := hhome
      refine ⟨c, cl, ?_, hs.grows.closure hcl, ?_⟩
      · rw [hbase, hs.below _ (Nat.le_refl _), hslot]
      · exact hnames.mono (fun a ha => .inl (by rwa [hs.ledger] at ha)) hnext
    · rename_i hblock
      rw [if_neg hblock] at hhome
      exact hhome

/-! ## Reading the frame -/

theorem frameMethodId (h : vm.Represents G W live act) :
    vm.stack.frameMethodId vm.stack.fp = .ok act.method :=
  frameMethodId_eq h.method

theorem operandFloor (h : vm.Represents G W live act) :
    vm.stack.operandFloor G vm.stack.fp = .ok (vm.floor G act.method) := by
  rw [ProcessStack.operandFloor, h.frameMethodId]
  rfl

theorem receiverSlot (h : vm.Represents G W live act) :
    vm.stack.receiverSlot G vm.stack.fp = .ok (vm.receiverBase G act.method) := by
  rw [ProcessStack.receiverSlot, h.frameMethodId]
  rfl

theorem needs {n : Nat} (h : vm.Represents G W live act) (hn : n ≤ act.operands.length) :
    vm.needs G n = .ok () := by
  have hsp := h.sp
  rw [Vm.needs, h.operandFloor]
  show (if vm.floor G act.method + n ≤ vm.stack.sp then _ else _) = _
  rw [if_pos (by omega)]

theorem receiverBase_lt (h : vm.Represents G W live act) :
    vm.receiverBase G act.method < vm.stack.fp := by
  have hbelow := h.below
  unfold receiverBase
  omega

/-- The local variable `t` is the word its index finds. -/
theorem local_eq {t : Nat} {v : Oop} (h : vm.Represents G W live act) (hv : act.local? t = .ok v) :
    ∃ i, vm.stack.tempIndex G vm.stack.fp t = .ok i ∧ vm.stack.slots i = v ∧
      (t < (G.method act.method).argc ∧ i = vm.stack.fp - (G.method act.method).argc + t ∨
        (G.method act.method).argc ≤ t ∧ t - (G.method act.method).argc < (G.method act.method).ntemps ∧
          i = vm.stack.fp + 7 + (t - (G.method act.method).argc)) := by
  have hargc := h.argc
  have hntemps := h.ntemps
  unfold Act.local? at hv
  split at hv
  · rename_i w hw
    obtain rfl := Except.ok.inj hv
    rw [ProcessStack.tempIndex, h.frameMethodId]
    show ∃ i, (if t < (G.method act.method).argc then _ else _) = _ ∧ _
    rcases Nat.lt_or_ge t (G.method act.method).argc with hlt | hge
    · rw [if_pos hlt]
      rw [List.getElem?_append_left (by omega)] at hw
      exact ⟨_, rfl, h.args t w hw, .inl ⟨hlt, rfl⟩⟩
    · obtain ⟨k, rfl⟩ := Nat.exists_eq_add_of_le hge
      rw [List.getElem?_append_right (by omega)] at hw
      obtain ⟨hk, -⟩ := List.getElem?_eq_some_iff.mp hw
      rw [if_neg (by omega), if_pos (by omega), Nat.add_sub_cancel_left]
      refine ⟨_, rfl, ?_, .inr ⟨hge, by omega, rfl⟩⟩
      exact h.temps k w (by rw [← hw, hargc, Nat.add_sub_cancel_left])
  · cases hv

/-- A push bytecode reads the same word. -/
theorem load {s : Source} {v : Oop} (h : vm.Represents G W live act) (hv : act.load G W s = .ok v) :
    vm.load G act.method s = .ok v := by
  cases s with
  | temp t =>
    obtain ⟨i, hi, hval, -⟩ := h.local_eq hv
    show (do let i ← vm.stack.tempIndex G vm.stack.fp t; Except.ok (vm.stack.slots i)) = _
    rw [hi]
    exact congrArg Except.ok hval
  | self => rw [← hv, Vm.load, Act.load, h.receiver]
  | instvar i =>
    rw [← hv]
    cases hi : G.instvar W.heap act.receiver i <;>
      simp only [Vm.load, Act.load, h.receiver, h.shows.heap, hi]
  | global i => rw [← hv, Vm.load, Act.load, h.shows.heap]
  | ctxTemp depth idx => rw [← hv, Vm.load, Act.load, h.context, h.shows.contexts]
  | nil => exact hv
  | bool b => exact hv
  | smi v => exact hv
  | literal v => exact hv

/-! ## Bytecodes inside the frame -/

/-- Only what the activation does not see has changed, or the world alone. -/
theorem congr (h : vm.Represents G W live act) (hstack : vm'.stack = vm.stack)
    (hledger : vm'.ledger = vm.ledger) (hgrows : Grows vm vm') (hshows : vm'.Shows G W') :
    vm'.Represents G W' live act := by
  have hs : Same (vm.receiverBase G act.method) vm vm' :=
    .of_slots hgrows (by rw [hstack]) hledger fun i _ => by rw [hstack]
  refine h.keep hs.toFramed hshows rfl rfl rfl ?_ ?_ ?_ ?_ ?_ <;> rw [hstack]
  · exact h.args
  · exact h.temps
  · exact h.operands
  · exact h.sp
  · exact h.cap

theorem withControl (h : vm.Represents G W live act) (c : Control) :
    (vm.withControl c).Represents G W live act :=
  h.congr rfl rfl ⟨rfl, List.prefix_refl _, List.prefix_refl _, Nat.le_refl _⟩
    (h.shows.congr rfl rfl rfl rfl rfl fun _ ha => ha)

/-- A push above the operands. -/
theorem pushed {v : Oop} (h : vm.Represents G W live act) (hroom : vm.stack.sp < stackCapacity) :
    (vm.pushed v).Represents G W live { act with operands := v :: act.operands } ∧
      Same (vm.receiverBase G act.method) vm (vm.pushed v) := by
  have hsp := h.sp
  have hbase := h.receiverBase_lt
  have hfloor : vm.floor G act.method = vm.stack.fp + 7 + (G.method act.method).ntemps := rfl
  have hargc := h.argc
  have hntemps := h.ntemps
  have hother : ∀ i, i < vm.stack.sp → (vm.pushed v).stack.slots i = vm.stack.slots i :=
    fun i hi => vm.stack.set_slots_ne v (Nat.ne_of_lt hi)
  have hs : Same (vm.receiverBase G act.method) vm (vm.pushed v) :=
    Same.of_stack rfl fun i hi => hother i (by omega)
  refine ⟨h.keep hs.toFramed (h.shows.congr rfl rfl rfl rfl rfl fun _ ha => ha) rfl rfl rfl ?_ ?_ ?_ ?_ ?_, hs⟩
  · refine h.args.congr fun i (hi : i < act.args.length) => hother _ ?_
    have hbelow := h.below
    omega
  · refine h.temps.congr fun i (hi : i < act.temps.length) => hother _ ?_
    omega
  · rw [List.reverse_cons, ProcessStack.holds_append, ProcessStack.holds_singleton,
      List.length_reverse, ← hsp]
    refine ⟨h.operands.congr fun i hi => hother _ ?_, vm.stack.set_slots_self _ _⟩
    rw [List.length_reverse] at hi
    omega
  · show vm.stack.sp + 1 = _
    rw [hsp, List.length_cons, Nat.add_assoc]
  · exact hroom

theorem push (h : vm.Represents G W live act) (v : Oop) :
    Yields Overflow (fun vm' => vm'.Represents G W live { act with operands := v :: act.operands } ∧
      Same (vm.receiverBase G act.method) vm vm') (vm.push v) :=
  push_yields fun hroom => h.pushed hroom

/-- Dropping operands. -/
theorem dropped {n : Nat} (h : vm.Represents G W live act) (hn : n ≤ act.operands.length) :
    (vm.withSp (vm.stack.sp - n)).Represents G W live { act with operands := act.operands.drop n } ∧
      Same (vm.receiverBase G act.method) vm (vm.withSp (vm.stack.sp - n)) := by
  have hsp := h.sp
  have hcap := h.cap
  have hs : Same (vm.receiverBase G act.method) vm (vm.withSp (vm.stack.sp - n)) :=
    Same.of_stack rfl fun i hi => rfl
  refine ⟨h.keep hs.toFramed (h.shows.congr rfl rfl rfl rfl rfl fun _ ha => ha) rfl rfl rfl h.args h.temps
    ?_ ?_ ?_, hs⟩
  · have hops := h.operands
    rw [← List.take_append_drop n act.operands, List.reverse_append,
      ProcessStack.holds_append] at hops
    exact hops.1
  · show vm.stack.sp - n = _ + (act.operands.drop n).length
    rw [List.length_drop]
    omega
  · show vm.stack.sp - n ≤ _
    omega

/-- The top `n` operands, deepest first. -/
theorem words {n : Nat} (h : vm.Represents G W live act) (hn : n ≤ act.operands.length) :
    vm.stack.Holds (vm.stack.sp - n) (act.operands.take n).reverse := by
  have hsp := h.sp
  have hops := h.operands
  rw [← List.take_append_drop n act.operands, List.reverse_append, ProcessStack.holds_append,
    List.length_reverse, List.length_drop] at hops
  have hidx : vm.floor G act.method + (act.operands.length - n) = vm.stack.sp - n := by omega
  rw [hidx] at hops
  exact hops.2

/-- The top operand stays where it is. -/
theorem top {v : Oop} {rest : List Oop} (h : vm.Represents G W live act)
    (hops : act.operands = v :: rest) : vm.stack.slots (vm.stack.sp - 1) = v := by
  have hone : 1 ≤ act.operands.length := by
    rw [hops, List.length_cons]
    omega
  have hw := h.words hone
  rw [hops] at hw
  exact ProcessStack.holds_singleton.mp hw

/-- A pop takes the top operand. -/
theorem pop {v : Oop} {rest : List Oop} (h : vm.Represents G W live act)
    (hops : act.operands = v :: rest) :
    vm.pop G = .ok (v, vm.withSp (vm.stack.sp - 1)) ∧
      (vm.withSp (vm.stack.sp - 1)).Represents G W live { act with operands := rest } ∧
      Same (vm.receiverBase G act.method) vm (vm.withSp (vm.stack.sp - 1)) := by
  have hone : 1 ≤ act.operands.length := by
    rw [hops, List.length_cons]
    omega
  refine ⟨?_, ?_⟩
  · rw [Vm.pop, h.needs hone, h.top hops]
    rfl
  · have hd := h.dropped hone
    rw [hops] at hd
    exact hd

/-- A store into a local variable. -/
theorem setLocal {t : Nat} {v w : Oop} (h : vm.Represents G W live act) (hv : act.local? t = .ok w) :
    ∃ i, vm.stack.tempIndex G vm.stack.fp t = .ok i ∧
      (vm.withStack (vm.stack.set i v)).Represents G W live (act.setLocal t v) ∧
      Same (vm.receiverBase G act.method) vm (vm.withStack (vm.stack.set i v)) := by
  obtain ⟨i, hi, -, hwhere⟩ := h.local_eq hv
  have hargc := h.argc
  have hntemps := h.ntemps
  have hbelow := h.below
  have hbase : vm.receiverBase G act.method = vm.stack.fp - (G.method act.method).argc - 1 := rfl
  have hfloor : vm.floor G act.method = vm.stack.fp + 7 + (G.method act.method).ntemps := rfl
  have hother : ∀ j, j ≠ i → (vm.withStack (vm.stack.set i v)).stack.slots j = vm.stack.slots j :=
    fun j hj => vm.stack.set_slots_ne v hj
  have hs : Same (vm.receiverBase G act.method) vm (vm.withStack (vm.stack.set i v)) :=
    Same.of_stack rfl fun j hj => hother j (by omega)
  have hshows : (vm.withStack (vm.stack.set i v)).Shows G W :=
    h.shows.congr rfl rfl rfl rfl rfl fun _ ha => ha
  have hops : (vm.withStack (vm.stack.set i v)).stack.Holds (vm.floor G act.method)
      act.operands.reverse := h.operands.congr fun j _ => hother _ (by omega)
  refine ⟨i, hi, ?_, hs⟩
  unfold Act.setLocal
  split
  · rename_i hlt
    obtain rfl : i = vm.stack.fp - (G.method act.method).argc + t := by omega
    refine h.keep hs.toFramed hshows rfl (List.length_set ..) rfl (h.args.set v) ?_ hops h.sp h.cap
    exact h.temps.congr fun j _ => hother _ (by omega)
  · rename_i hge
    obtain rfl : i = vm.stack.fp + 7 + (t - act.args.length) := by omega
    refine h.keep hs.toFramed hshows rfl rfl (List.length_set ..) ?_ (h.temps.set v) hops h.sp h.cap
    exact h.args.congr fun j (hj : j < act.args.length) => hother _ (by omega)

/-- A store bytecode changes the activation and the world in the same way. -/
theorem store {v : Oop} {d : Dest} (h : vm.Represents G W live act)
    (hv : act.store G W v d = .ok (act', W')) :
    ∃ vm', vm.store G act.method v d = .ok vm' ∧ vm'.Represents G W' live act' ∧
      Same (vm.receiverBase G act.method) vm vm' ∧ act'.method = act.method := by
  have hsame : ∀ {vm' : Vm σ}, vm'.stack = vm.stack → vm'.ledger = vm.ledger → Grows vm vm' →
      Same (vm.receiverBase G act.method) vm vm' := by
    intro vm' hstack hledger hgrows
    exact .of_slots hgrows (by rw [hstack]) hledger fun i _ => by rw [hstack]
  have hgrow : ∀ {vm' : Vm σ}, vm'.nested = vm.nested → vm'.tokens = vm.tokens →
      vm'.closures = vm.closures → vm'.nextFrameSerial = vm.nextFrameSerial → Grows vm vm' := by
    intro vm' h₁ h₂ h₃ h₄
    exact ⟨h₁, h₂ ▸ List.prefix_refl _, h₃ ▸ List.prefix_refl _, h₄.ge⟩
  have hshows := h.shows
  cases d with
  | temp t =>
    obtain ⟨w, hw, hv⟩ := bind_ok hv
    obtain ⟨rfl, rfl⟩ := Prod.mk.inj (Except.ok.inj hv)
    obtain ⟨i, hi, hrep, hs⟩ := h.setLocal (v := v) hw
    refine ⟨_, ?_, hrep, hs, ?_⟩
    · show (do let i ← vm.stack.tempIndex G vm.stack.fp t; Except.ok (vm.withStack (vm.stack.set i v))) = _
      rw [hi]
      rfl
    · unfold Act.setLocal
      split <;> rfl
  | instvar i =>
    simp only [Act.store] at hv
    split at hv
    · rename_i heap hheap
      obtain ⟨rfl, rfl⟩ := Prod.mk.inj (Except.ok.inj hv)
      refine ⟨{ vm with heap }, ?_, ?_, hsame rfl rfl (hgrow rfl rfl rfl rfl), rfl⟩
      · simp only [Vm.store, h.receiver, hshows.heap, hheap]
      · exact h.congr rfl rfl (hgrow rfl rfl rfl rfl)
          ⟨hshows.contexts, rfl, hshows.next, hshows.handlerRuns, hshows.blocks⟩
    · cases hv
  | global i =>
    obtain ⟨rfl, rfl⟩ := Prod.mk.inj (Except.ok.inj hv)
    refine ⟨_, rfl, ?_, hsame rfl rfl (hgrow rfl rfl rfl rfl), rfl⟩
    refine h.congr rfl rfl (hgrow rfl rfl rfl rfl)
      ⟨hshows.contexts, ?_, hshows.next, hshows.handlerRuns, hshows.blocks⟩
    rw [← hshows.heap]
  | ctxTemp depth idx =>
    obtain ⟨contexts, hctx, hv⟩ := bind_ok hv
    obtain ⟨rfl, rfl⟩ := Prod.mk.inj (Except.ok.inj hv)
    refine ⟨{ vm with contexts }, ?_, ?_, hsame rfl rfl (hgrow rfl rfl rfl rfl), rfl⟩
    · show (do
        let contexts ← writeContext vm.contexts depth idx (vm.stack.context vm.stack.fp) v
        Except.ok { vm with contexts }) = _
      rw [h.context, hshows.contexts, hctx]
      rfl
    · exact h.congr rfl rfl (hgrow rfl rfl rfl rfl)
        ⟨rfl, hshows.heap, hshows.next, hshows.handlerRuns, hshows.blocks⟩

/-- A new closure's home names the activation's own. -/
theorem homeRef (h : vm.Represents G W live act) :
    ∃ home, vm.homeRefForNewClosure G = .ok home ∧
      Names vm.ledger vm.nextFrameSerial (unpackHomeRef home) act.home := by
  simp only [homeRefForNewClosure, h.frameMethodId]
  show ∃ home, (if (G.method act.method).isBlock = true then _ else _) = _ ∧ _
  have hhome := h.home
  split
  · rename_i hblock
    rw [if_pos hblock] at hhome
    obtain ⟨c, cl, hslot, hcl, hnames⟩ := hhome
    refine ⟨cl.home, ?_, hnames⟩
    rw [h.receiverSlot]
    show (do let e ← vm.closureOf (vm.stack.slots (vm.receiverBase G act.method)); Except.ok e.home) = _
    rw [hslot, Vm.closureOf]
    simp only [hcl]
    rfl
  · rename_i hblock
    rw [if_neg hblock] at hhome
    obtain ⟨rest, hledger, hground⟩ := h.ledger
    obtain ⟨w, hw, hbits⟩ : ∃ w, vm.stack.slots (vm.stack.fp + 5) = .smi w ∧
        serialBits w = act.id % 2 ^ 32 := by
      have hserial := h.serial
      unfold readSerial at hserial
      split at hserial
      · rename_i w hw
        exact ⟨w, hw, Option.some.inj hserial⟩
      · cases hserial
    have hlt : act.id % 2 ^ 32 < 2 ^ 32 := Nat.mod_lt _ (by decide)
    have hfp : vm.stack.fp < 2 ^ 22 := by
      have hsp := h.sp
      have hcap := h.cap
      unfold floor at hsp
      unfold stackCapacity at hcap
      omega
    refine ⟨packHomeRef ⟨0, act.id % 2 ^ 32, vm.stack.fp⟩, ?_, ?_⟩
    · unfold ProcessStack.serial
      simp only [frameSerial, hw, Oop.asSmi, Except.map, hbits]
      rfl
    · rw [unpackHomeRef_pack (Nat.two_pow_pos 8) hlt hfp, hhome]
      refine ⟨rfl, rfl, hfp, h.fresh, ?_⟩
      intro a ha hid
      rw [hledger] at ha
      rcases List.mem_cons.mp ha with rfl | ha
      · rfl
      · have := hground.fresh a ha
        omega

/-- `push_closure` makes the block. -/
theorem makeClosure {blk n : Nat} (h : vm.Represents G W live act)
    (hblk : (G.method blk).isBlock = true) (hn : n ≤ act.operands.length) :
    Yields Overflow (fun vm' =>
      vm'.Represents G { W with blocks := W.blocks ++ [act.makeBlock G blk n] } live
        { act with operands := .closure W.blocks.length :: act.operands.drop n } ∧
      Same (vm.receiverBase G act.method) vm vm') (vm.makeClosure G blk n) := by
  obtain ⟨home, hhome, hnames⟩ := h.homeRef
  have hlen := h.shows.blocks.length_eq
  have hwords : vm.stack.words (vm.stack.sp - n) n = (act.operands.take n).reverse := by
    have hw := (h.words hn).words
    rwa [List.length_reverse, List.length_take_of_le hn] at hw
  have hcopied : vm.stack.receiver vm.stack.fp :: (if (G.method blk).capturesCtx = true then
        [vm.stack.context vm.stack.fp] else []) ++ vm.stack.words (vm.stack.sp - n) n =
      (act.makeBlock G blk n).copied := by
    rw [h.receiver, h.context, hwords]
    rfl
  unfold Vm.makeClosure
  rw [h.needs hn, hhome]
  show Yields Overflow _ (Vm.push _ _)
  obtain ⟨hrep, hs⟩ := h.dropped hn
  set made : Vm σ := { vm.withSp (vm.stack.sp - n) with
    closures := vm.closures ++ [⟨blk, home, vm.stack.receiver vm.stack.fp ::
      (if (G.method blk).capturesCtx = true then [vm.stack.context vm.stack.fp] else []) ++
        vm.stack.words (vm.stack.sp - n) n⟩] } with hmade
  have hgrows : Grows (vm.withSp (vm.stack.sp - n)) made :=
    ⟨rfl, List.prefix_refl _, List.prefix_append _ _, Nat.le_refl _⟩
  have hshows : made.Shows G { W with blocks := W.blocks ++ [act.makeBlock G blk n] } := by
    refine ⟨h.shows.contexts, h.shows.heap, h.shows.next, h.shows.handlerRuns, ?_⟩
    exact List.rel_append h.shows.blocks (.cons ⟨rfl, hcopied, hblk, hnames⟩ .nil)
  have hbase : made.receiverBase G act.method = vm.receiverBase G act.method := rfl
  have hrep' := @congr _ _ _ made _ _ _ _ hrep rfl rfl hgrows hshows
  have hs' : Same (vm.receiverBase G act.method) vm made :=
    hs.trans (.of_slots hgrows rfl rfl fun _ _ => rfl)
  refine push_yields fun hroom => ?_
  obtain ⟨hpush, hsp⟩ := hrep'.pushed (v := .closure vm.closures.length) hroom
  rw [← hlen]
  exact ⟨hpush, hs'.trans hsp⟩

end Represents

end Vm

end

end WinVm.Process
