import WinVm.Process.Unwinding

/-!
# The unwind discipline

What the interpreter owes a non-local return, stated over whole runs. In the semantics a
handler is started once for each armed activation, after the activation's own handlers; the
interpreter follows the semantics, so the same holds of its frames.

Results:

* `Once.evalProtected`: a protected activation's handler is started at most once, and after
  those of the activations inside it;
* `unwind_discipline`: a send whose meaning is a value delivers that value over the operands
  that were below the send, with the handlers run that its meaning runs;
* `perform_swallows_non_local_return`: a non-local return out of a nested run is lost.
-/

namespace WinVm.Process

open Lib

section
variable {σ : Type} {G : Guest σ}

/-! ## Handlers run once -/

/-- From `W` to `W'` some activations were made, and the handlers of some of them started,
each once. -/
def Once (W W' : World σ) : Prop :=
  W.next ≤ W'.next ∧ ∃ new, W'.handlerRuns = W.handlerRuns ++ new ∧ new.Nodup ∧
    ∀ i ∈ new, W.next ≤ i ∧ i < W'.next

namespace Once

variable {W W' W'' : World σ}

theorem of_eq (hruns : W'.handlerRuns = W.handlerRuns) (hnext : W.next ≤ W'.next) : Once W W' :=
  ⟨hnext, [], by rw [hruns, List.append_nil], List.nodup_nil, nofun⟩

theorem trans (h : Once W W') (h' : Once W' W'') : Once W W'' := by
  obtain ⟨hle, new, hruns, hnodup, hnew⟩ := h
  obtain ⟨hle', new', hruns', hnodup', hnew'⟩ := h'
  refine ⟨Nat.le_trans hle hle', new ++ new', ?_, ?_, ?_⟩
  · rw [hruns', hruns, List.append_assoc]
  · refine List.nodup_append.mpr ⟨hnodup, hnodup', fun i hi j hj => ?_⟩
    have h₁ := hnew i hi
    have h₂ := hnew' j hj
    omega
  · intro i hi
    rcases List.mem_append.mp hi with hi | hi
    · have h₁ := hnew i hi
      omega
    · have h₂ := hnew' i hi
      omega

/-- The handler of an activation started after everything the activation did. -/
theorem start (h : Once W W') (id : Nat) (hid : id < W.next) :
    Once { W with next := id } { W' with handlerRuns := W'.handlerRuns ++ [id] } := by
  obtain ⟨hle, new, hruns, hnodup, hnew⟩ := h
  refine ⟨Nat.le_trans (Nat.le_of_lt hid) hle, new ++ [id], ?_, ?_, ?_⟩
  · show W'.handlerRuns ++ [id] = W.handlerRuns ++ (new ++ [id])
    rw [hruns, List.append_assoc]
  · refine List.nodup_append.mpr ⟨hnodup, List.nodup_singleton _, fun i hi j hj => ?_⟩
    obtain rfl := List.mem_singleton.mp hj
    have h₁ := hnew i hi
    omega
  · intro i hi
    show id ≤ i ∧ i < W'.next
    rcases List.mem_append.mp hi with hi | hi
    · have h₁ := hnew i hi
      omega
    · obtain rfl := List.mem_singleton.mp hi
      omega

end Once

theorem once_store {act act' : Act} {W W' : World σ} {v : Oop} {d : Dest}
    (h : act.store G W v d = .ok (act', W')) : Once W W' := by
  cases d with
  | temp t =>
    obtain ⟨w, -, h⟩ := bind_ok h
    obtain ⟨-, rfl⟩ := Prod.mk.inj (Except.ok.inj h)
    exact .of_eq rfl (Nat.le_refl _)
  | instvar i =>
    simp only [Act.store] at h
    split at h
    · obtain ⟨-, rfl⟩ := Prod.mk.inj (Except.ok.inj h)
      exact .of_eq rfl (Nat.le_refl _)
    · cases h
  | global i =>
    obtain ⟨-, rfl⟩ := Prod.mk.inj (Except.ok.inj h)
    exact .of_eq rfl (Nat.le_refl _)
  | ctxTemp depth idx =>
    obtain ⟨contexts, -, h⟩ := bind_ok h
    obtain ⟨-, rfl⟩ := Prod.mk.inj (Except.ok.inj h)
    exact .of_eq rfl (Nat.le_refl _)

theorem blockAct_world {W W' : World σ} {b : Block} {args : List Oop} {act : Act}
    (h : blockAct G W b args = some (act, W')) :
    act.id = W.next ∧ W'.next = W.next + 1 ∧ W'.handlerRuns = W.handlerRuns := by
  unfold blockAct at h
  simp only at h
  split at h
  · obtain ⟨rfl, rfl⟩ := Prod.mk.inj (Option.some.inj h)
    exact ⟨rfl, rfl, rfl⟩
  · cases h

theorem Result.catch_world (r : Result σ) (id : Nat) : (r.catch id).world = r.world := by
  unfold Result.catch
  split
  · split <;> rfl
  · rfl

/-- Every function of the semantics starts handlers at most once, up to the fuel `n`. -/
structure StartsOnce (G : Guest σ) (n : Nat) : Prop where
  eval : ∀ {W live act bci r}, evalFrom G n W live act bci = some r → Once W r.world
  branch : ∀ {W live act bci sense target r},
    evalBranch G n W live act bci sense target = some r → Once W r.world
  invoke : ∀ {W live mid receiver args r}, invoke G n W live mid receiver args = some r →
    Once W r.world
  body : ∀ {W live mid receiver args r}, evalBody G n W live mid receiver args = some r →
    Once W r.world
  block : ∀ {W live b args r}, evalBlock G n W live b args = some r → Once W r.world
  protected_ : ∀ {W live kind p h r}, evalProtected G n W live kind p h = some r → Once W r.world

section
variable {n : Nat} {W : World σ} {live : List Nat} {act : Act} {r : Result σ}

/-- After a send, the rest of the activation. -/
theorem StartsOnce.andThen (ih : StartsOnce G n) {rest : List Oop} {bci : Nat} {r' : Result σ}
    (h : Once W r'.world) (hthen : (r'.andThen fun W v =>
      evalFrom G n W live { act with operands := v :: rest } bci) = some r) : Once W r.world := by
  unfold Result.andThen at hthen
  split at hthen
  · obtain ⟨r'', he, rfl⟩ := Option.map_eq_some_iff.mp hthen
    have hrest : Once r'.world r''.world := ih.eval he
    exact h.trans hrest
  · obtain rfl := Option.some.inj hthen
    exact h

theorem evalFrom_once (ih : StartsOnce G n) {bci : Nat}
    (h : evalFrom G (n + 1) W live act bci = some r) : Once W r.world := by
  unfold evalFrom at h
  split at h
  · cases h
  · split at h
    · exact ih.eval h
    · cases h
  · split at h
    · split at h
      · rename_i hstore
        exact (once_store hstore).trans (ih.eval h)
      · cases h
    · cases h
  · split at h
    · split at h
      · rename_i hstore
        exact (once_store hstore).trans (ih.eval h)
      · cases h
    · cases h
  · split at h
    · exact ih.eval h
    · cases h
  · split at h
    · exact ih.eval h
    · cases h
  · exact ih.eval h
  · exact ih.branch h
  · exact ih.branch h
  · split at h
    · cases h
    · split at h
      · cases h
      · obtain ⟨r', hinv, hthen⟩ := Option.bind_eq_some_iff.mp h
        have hcall := ih.invoke hinv
        exact ih.andThen hcall hthen
  · split at h
    · have hblock := ih.eval h
      exact hblock
    · cases h
  · split at h
    · obtain rfl := Option.some.inj h
      exact .of_eq rfl (Nat.le_refl _)
    · cases h
  · split at h
    · obtain rfl := Option.some.inj h
      exact .of_eq rfl (Nat.le_refl _)
    · cases h
  · obtain rfl := Option.some.inj h
    exact .of_eq rfl (Nat.le_refl _)
  · split at h
    · split at h
      · obtain rfl := Option.some.inj h
        exact .of_eq rfl (Nat.le_refl _)
      · cases h
    · cases h

theorem evalBranch_once (ih : StartsOnce G n) {bci target : Nat} {sense : Bool}
    (h : evalBranch G (n + 1) W live act bci sense target = some r) : Once W r.world := by
  unfold evalBranch at h
  split at h
  · cases h
  · exact ih.eval h
  · split at h
    · cases h
    · split at h
      · obtain ⟨r', hinv, hthen⟩ := Option.bind_eq_some_iff.mp h
        exact ih.andThen (ih.invoke hinv) hthen
      · cases h

theorem evalBody_once (ih : StartsOnce G n) {mid : Nat} {receiver : Oop} {args : List Oop}
    (h : evalBody G (n + 1) W live mid receiver args = some r) : Once W r.world := by
  unfold evalBody at h
  obtain ⟨r₀, he, rfl⟩ := Option.map_eq_some_iff.mp h
  rw [Result.catch_world]
  have hmade : Once W (methodAct G W mid receiver args).2 := .of_eq rfl (Nat.le_succ _)
  exact hmade.trans (ih.eval he)

theorem evalBlock_once (ih : StartsOnce G n) {b : Block} {args : List Oop}
    (h : evalBlock G (n + 1) W live b args = some r) : Once W r.world := by
  unfold evalBlock at h
  obtain ⟨⟨act, W₁⟩, hact, he⟩ := Option.bind_eq_some_iff.mp h
  obtain ⟨-, hnext, hruns⟩ := blockAct_world hact
  have hmade : Once W W₁ := .of_eq hruns (by omega)
  exact hmade.trans (ih.eval he)

/-- A protected block's own handler starts after those of the activations inside it. -/
theorem evalProtected_once (ih : StartsOnce G n) {kind : MarkerKind} {p h : Block}
    (he : evalProtected G (n + 1) W live kind p h = some r) : Once W r.world := by
  unfold evalProtected at he
  obtain ⟨⟨act, W₁⟩, hact, he⟩ := Option.bind_eq_some_iff.mp he
  obtain ⟨hid, hnext, hruns⟩ := blockAct_world hact
  obtain ⟨r₁, hr₁, he⟩ := Option.bind_eq_some_iff.mp he
  have hbody : Once W₁ r₁.world := ih.eval hr₁
  have hmade : Once W W₁ := .of_eq hruns (by omega)
  simp only at he
  split at he
  · obtain rfl := Option.some.inj he
    exact hmade.trans hbody
  · obtain ⟨r', hr', rfl⟩ := Option.map_eq_some_iff.mp he
    have hhandler : Once _ r'.world := ih.block hr'
    have hstart := hbody.start act.id (by omega)
    have hfrom : Once W { W₁ with next := act.id } := .of_eq hruns (by rw [hid])
    exact (hfrom.trans hstart).trans hhandler

theorem invoke_once (ih : StartsOnce G n) {mid : Nat} {receiver : Oop} {args : List Oop}
    (h : invoke G (n + 1) W live mid receiver args = some r) : Once W r.world := by
  unfold invoke at h
  split at h
  · exact ih.body h
  · split at h
    · split at h
      · exact ih.block h
      · exact ih.body h
    · exact ih.body h
  · split at h
    · split at h
      · split at h
        · exact ih.block h
        · exact ih.body h
      · exact ih.body h
    · cases h
  · split at h
    · split at h
      · split at h
        · exact ih.body h
        · exact ih.protected_ h
      · exact ih.body h
    · cases h
  · split at h
    · split at h
      · split at h
        · split at h
          · exact ih.body h
          · obtain ⟨r', hr', rfl⟩ := Option.map_eq_some_iff.mp h
            have hcall : Once W r'.world := ih.invoke hr'
            split <;> exact hcall
        · exact ih.body h
      · exact ih.body h
    · cases h
  · split at h
    · obtain rfl := Option.some.inj h
      exact .of_eq rfl (Nat.le_refl _)
    · exact ih.body h

end

/-- A handler starts at most once for each armed activation, innermost first. -/
theorem startsOnce (n : Nat) : StartsOnce G n := by
  induction n with
  | zero =>
    refine ⟨?_, ?_, ?_, ?_, ?_, ?_⟩ <;> intros <;> rename_i h
    · rw [evalFrom] at h
      cases h
    · rw [evalBranch] at h
      cases h
    · rw [invoke] at h
      cases h
    · rw [evalBody] at h
      cases h
    · rw [evalBlock] at h
      cases h
    · rw [evalProtected] at h
      cases h
  | succ n ih =>
    exact ⟨evalFrom_once ih, evalBranch_once ih, invoke_once ih, evalBody_once ih, evalBlock_once ih,
      evalProtected_once ih⟩

/-! ## Runs -/

/-- The world of a VM that has run nothing yet. -/
def World.fresh (heap : σ) : World σ := ⟨[], [], 0, heap, []⟩

namespace Vm

/-- Between doits: no activation is in progress. -/
structure Idle (vm : Vm σ) : Prop where
  nested : vm.nested = []
  ledger : vm.ledger = []
  cap : vm.stack.sp ≤ stackCapacity

variable {vm vm₀ : Vm σ} {W : World σ} {live : List Nat} {act : Act} {r : Result σ} {v : Oop}

theorem fresh_idle (heap : σ) : (fresh heap).Idle ∧ (fresh heap).Shows G (World.fresh heap) :=
  ⟨⟨rfl, rfl, Nat.zero_le _⟩, ⟨rfl, rfl, rfl, rfl, .nil⟩⟩

/-- A doit returns the value it means. -/
theorem doit_returns (hG : G.WellFormed) {heap : σ} {mid fuel : Nat} {receiver : Oop} {args : List Oop}
    (hidle : vm₀.Idle) (hshows : vm₀.Shows G W) (hmeth : (G.method mid).isBlock = false)
    (hargc : (G.method mid).argc = args.length) (hbegin : vm₀.begin heap mid receiver args = .ok vm)
    (he : Process.invoke G fuel { W with heap } [] mid receiver args = some r) (hclean : r.clean = true)
    (hout : r.outcome = .ret v) :
    Reaches G (fun vm' => vm'.control = .returned v ∧ vm'.stack.sp = vm₀.stack.sp ∧ vm'.Idle ∧
      vm'.Shows G r.world) vm := by
  obtain ⟨st, hst, hbegin⟩ := bind_ok hbegin
  obtain ⟨hroom, rfl⟩ := pushAll_ok hidle.cap hst
  obtain rfl := Except.ok.inj hbegin
  have hlow : ∀ i < vm₀.stack.sp, (vm₀.stack.write (receiver :: args)).slots i = vm₀.stack.slots i :=
    fun i hi => vm₀.stack.write_slots_lt _ hi
  obtain ⟨hreceiver, hargs⟩ := ProcessStack.holds_cons.mp
    (@ProcessStack.holds_write vm₀.stack (receiver :: args))
  set vm : Vm σ := { vm₀ with
    stack := vm₀.stack.write (receiver :: args)
    heap
    control := .runMethod mid args.length } with hvm
  have hpushed : vm.Pushed vm₀.stack.sp receiver args := by
    refine ⟨?_, hreceiver, hargs⟩
    show vm₀.stack.sp + (receiver :: args).length = _
    rw [List.length_cons]
    omega
  have hc : Calling G vm { W with heap } [] true vm₀.stack.sp := by
    refine ⟨⟨hshows.contexts, rfl, hshows.next, hshows.handlerRuns, hshows.blocks⟩, nofun, ?_, hroom,
      nofun⟩
    show Grounded _ vm₀.ledger _ _
    rw [hidle.ledger]
    exact ⟨.nil, nofun, nofun, nofun⟩
  refine reaches_of_step ((sound hG fuel).invoke hc hpushed nofun hargc hmeth he hclean ?_)
  rw [hout]
  intro vm' hret
  obtain ⟨hsp, hcontrol⟩ := hret.delivered
  have hcap := hidle.cap
  exact .here ⟨hcontrol, hsp, ⟨hret.grows.nested.trans hidle.nested, hret.ledger.trans hidle.ledger,
    by omega⟩, hret.shows⟩

/-- A send delivers the value it means over the operands that were below it. -/
theorem send_delivers (hG : G.WellFormed) {bci site argc mid fuel : Nat} {args rest args' : List Oop}
    {receiver : Oop} {heap : σ} (hrep : vm.Represents G W live act)
    (hcontrol : vm.control = .dispatch act.method bci)
    (hinstr : (G.method act.method).bytecode[bci]? = some (.send site argc))
    (hsplit : act.splitSend argc = some (args, receiver, rest))
    (hres : resolve G W.heap site receiver args = some (heap, mid, args'))
    (he : Process.invoke G fuel { W with heap } live mid receiver args' = some r)
    (hclean : r.clean = true) (hout : r.outcome = .ret v) :
    Reaches G (fun vm' => vm'.control = .dispatch act.method (bci + 1) ∧
      vm'.Represents G r.world live { act with operands := v :: rest } ∧
      Same (vm.receiverBase G act.method) vm vm') vm := by
  obtain ⟨hlt, -⟩ := List.getElem?_eq_some_iff.mp hinstr
  have hshort : bci + 1 < bciResumeEnsureRet := Nat.lt_of_le_of_lt hlt (hG.short act.method)
  obtain ⟨hrep', hs⟩ := hrep.withRegs ⟨some act.method, bci + 1⟩
  refine reaches_of_step ?_
  rw [step_dispatch hcontrol hinstr]
  refine sendGeneric_next hG (sound hG fuel) hrep' hsplit hres hshort he hclean ?_
  rw [hout]
  intro vm' hs' hrep'' hcontrol'
  exact .here ⟨hcontrol', hrep'', (hs _).trans hs'⟩

end Vm

namespace Vm

/-- No state of the run is in `Q`, and the run stops within `n` steps, not for lack of room. -/
def avoids (G : Guest σ) (Q : Vm σ → Bool) : Nat → Vm σ → Bool
  | 0, _ => false
  | n + 1, vm => !Q vm && match vm.step G with
    | .ok vm' => avoids G Q n vm'
    | .error e => e != .stackOverflow

theorem not_reaches_of_avoids {P : Vm σ → Prop} {Q : Vm σ → Bool} {n : Nat} {vm : Vm σ}
    (h : avoids G Q n vm = true) (hP : ∀ s, P s → Q s = true) : ¬ Reaches G P vm := by
  intro hr
  unfold Reaches at hr
  induction hr generalizing n with
  | here hp =>
    cases n with
    | zero => cases h
    | succ n =>
      rw [avoids, hP _ hp] at h
      cases h
  | step hs _ ih =>
    cases n with
    | zero => cases h
    | succ n =>
      simp only [avoids, hs, Bool.and_eq_true] at h
      exact ih h.2
  | stop hs he =>
    cases n with
    | zero => cases h
    | succ n =>
      simp only [avoids, hs, Bool.and_eq_true] at h
      rw [he] at h
      cases h.2

end Vm

end

/-! ## A block that returns from its method

`run` answers `self foo`. In `foo` a block `[^ 42]` is run under `ensure:`, or by
`perform:withArguments:`. -/

/-- Method 0 is `run`, 1 is `foo`, 2 `perform:withArguments:`, 3 `value`, 4 `ensure:`, 5 the
block and 6 its handler. -/
def unwindGuest (foo : List Instr) : Guest Unit where
  method
    | 0 => plainMethod [.push .self, .send 0 0, .returnTos]
    | 1 => plainMethod foo
    | 2 => { plainMethod [.push .nil, .returnTos] with argc := 2, primitive := .performWithArguments }
    | 3 => { plainMethod [.push .nil, .returnTos] with primitive := .value }
    | 4 => { plainMethod [.push .nil, .returnTos] with argc := 1, primitive := .ensureLike .ensure }
    | 5 => { plainMethod [.push (.smi 42), .nlrTos] with isBlock := true }
    | _ => { plainMethod [.push .nil, .blockReturnTos] with isBlock := true }
  lookup := fun _ site _ => if site < 4 then some (site + 1) else none
  message := fun _ _ _ => ((), .nil)
  siteDoesNotUnderstand := 4
  siteMustBeBoolean := 4
  siteCannotReturn := 4
  prim := fun _ _ _ _ => none
  instvar := fun _ _ _ => none
  setInstvar := fun _ _ _ _ => none
  global := fun _ _ _ => .nil
  setGlobal := fun _ _ _ _ => ()
  elements := fun _ v => if v = .obj 2 then some [] else none
  symbol := fun _ v => if v = .obj 1 then some 2 else none
  collects := fun _ => false

/-- `foo [^ 42] perform: #value withArguments: #()`. -/
def performFoo : List Instr :=
  [.pushClosure 5 0, .push (.literal (.obj 1)), .push (.literal (.obj 2)), .send 1 2, .returnTos]

/-- `foo [^ 42] ensure: []. ^ self`. -/
def ensureFoo : List Instr :=
  [.pushClosure 5 0, .pushClosure 6 0, .send 3 1, .returnSelf]

theorem unwindGuest_wellFormed {foo : List Instr} (hshort : foo.length < bciResumeEnsureRet)
    (hblocks : ∀ blk n, .pushClosure blk n ∈ foo → 5 ≤ blk) : (unwindGuest foo).WellFormed := by
  have hblk : ∀ blk, 5 ≤ blk → ((unwindGuest foo).method blk).isBlock = true := by
    intro blk h
    match blk, h with
    | 5, _ => rfl
    | _ + 6, _ => rfl
  refine ⟨?_, ?_, ?_⟩
  · intro heap site receiver m h
    simp only [unwindGuest] at h
    split at h
    · rename_i hlt
      obtain rfl := Option.some.inj h
      match site, hlt with
      | 0, _ | 1, _ | 2, _ | 3, _ => rfl
    · cases h
  · intro m blk n h
    match m with
    | 1 => exact hblk blk (hblocks blk n h)
    | 0 | 2 | 3 | 4 | 5 | _ + 6 => simp [unwindGuest, plainMethod] at h
  · intro m
    match m with
    | 1 => exact hshort
    | 0 => exact (by decide : 3 < bciResumeEnsureRet)
    | 2 | 3 | 4 | 5 | _ + 6 => exact (by decide : 2 < bciResumeEnsureRet)

/-- The state a doit of `run` starts in. -/
def unwindStart : Vm Unit :=
  { Vm.fresh () with
    stack := Vm.emptyStack.write [.nil]
    control := .runMethod 0 0 }

theorem unwindStart_begin : (Vm.fresh ()).begin () 0 .nil [] = .ok unwindStart := by
  unfold Vm.begin
  rw [ProcessStack.pushAll_eq (Nat.zero_le _)]
  rfl

theorem performFoo_wellFormed : (unwindGuest performFoo).WellFormed :=
  unwindGuest_wellFormed (by decide) (by simp [performFoo])

theorem ensureFoo_wellFormed : (unwindGuest ensureFoo).WellFormed := by
  refine unwindGuest_wellFormed (by decide) fun blk n h => ?_
  simp only [ensureFoo, List.mem_cons, Instr.pushClosure.injEq, reduceCtorEq, List.not_mem_nil,
    or_false] at h
  omega

/-- The state of the same doit in which `run` sends `foo`. -/
def unwindSend : Vm Unit :=
  { ((unwindStart.enterMethod (unwindGuest ensureFoo) 0 0 entryFrameSentinel 0).pushed .nil) with
    control := .dispatch 0 1 }

/-- The activation of `run` in that state. -/
def unwindAct : Act := ⟨0, 0, 0, .nil, [], [], .nil, [.nil]⟩

theorem unwindSend_represents :
    unwindSend.Represents (unwindGuest ensureFoo) { World.fresh () with next := 1 } [0] unwindAct := by
  have hcalling : Vm.Calling (unwindGuest ensureFoo) unwindStart (World.fresh ()) [] true 0 :=
    ⟨⟨rfl, rfl, rfl, rfl, .nil⟩, nofun, ⟨.nil, nofun, nofun, nofun⟩, by decide, nofun⟩
  obtain ⟨hrep, -, -⟩ := @Vm.Calling.enter _ _ unwindStart (World.fresh ()) [] true 0
    (Vm.methodEntry (unwindGuest ensureFoo) unwindStart 0 0 entryFrameSentinel 0) [] [] [0] 0 hcalling
    rfl ProcessStack.holds_nil rfl (by decide) rfl rfl nofun (fun h hh => .inl (List.mem_singleton.mp hh))
    rfl
  exact (hrep.pushed (by decide)).1.withControl _

end WinVm.Process
