import WinVm.Process.Calls

/-!
# Bytecodes follow the semantics

What is proved of each function of the semantics, with the rest of the run as a continuation:
from a state that stands for where the function starts, the interpreter gets to `P` if it
does so from every state that stands for where the function ends. `Sound` bundles the six
statements up to a fuel, and this module follows the bytecodes.

Results:

* `evalFrom_ok`, `evalBranch_ok`: a bytecode of the active frame does what the semantics
  says, and the run goes on with the rest of the activation.
-/

namespace WinVm.Process

open Lib

section
variable {σ : Type} {G : Guest σ}

namespace Vm

variable {P : Vm σ → Prop} {vm vm' : Vm σ} {W W' : World σ} {live : List Nat} {act act' : Act}
  {base m mid bci n : Nat} {r r' : Result σ} {v : Oop}

/-! ## What is proved of each function -/

/-- However the active frame of `m` ends, with the outcome `o` and the world `W`, the run gets
to `P`. -/
def Exiting (G : Guest σ) (P : Vm σ → Prop) (vm : Vm σ) (live : List Nat) (m : Nat) (W : World σ)
    (o : Outcome) : Prop :=
  ∀ vm₁, Same (vm.receiverBase G m) vm vm₁ → vm₁.Shows G W → vm.floor G m ≤ vm₁.stack.sp →
    vm₁.stack.sp ≤ stackCapacity → Exits G P vm₁ live o

/-- A call, from a frame or as the entry of a run. -/
def call (G : Guest σ) (vm : Vm σ) (entry : Bool) (mid argc : Nat) : Except Fault (Vm σ) :=
  if entry then vm.runMethod G mid argc else vm.activateMethod G mid argc

/-- The receiver and the arguments of a call lie on top of the stack. -/
structure Pushed (vm : Vm σ) (base : Nat) (receiver : Oop) (args : List Oop) : Prop where
  sp : vm.stack.sp = base + 1 + args.length
  receiver : vm.stack.slots base = receiver
  args : vm.stack.Holds (base + 1) args

def EvalOk (G : Guest σ) (n : Nat) : Prop :=
  ∀ {P : Vm σ → Prop} {vm : Vm σ} {W : World σ} {live : List Nat} {act : Act} {bci : Nat}
    {r : Result σ}, vm.Represents G W live act → vm.control = .dispatch act.method bci →
    evalFrom G n W live act bci = some r → r.clean = true →
    Exiting G P vm live act.method r.world r.outcome → Reaches G P vm

def BranchOk (G : Guest σ) (n : Nat) : Prop :=
  ∀ {P : Vm σ → Prop} {vm : Vm σ} {W : World σ} {live : List Nat} {act : Act} {bci target : Nat}
    {sense : Bool} {r : Result σ}, vm.Represents G W live act → bci < bciResumeEnsureRet →
    evalBranch G n W live act bci sense target = some r → r.clean = true →
    Exiting G P vm live act.method r.world r.outcome →
    After G P (vm.branch G act.method bci sense target)

def InvokeOk (G : Guest σ) (n : Nat) : Prop :=
  ∀ {P : Vm σ → Prop} {vm : Vm σ} {W : World σ} {live : List Nat} {entry : Bool} {base mid : Nat}
    {receiver : Oop} {args : List Oop} {r : Result σ}, Calling G vm W live entry base →
    vm.Pushed base receiver args → (entry = false → vm.regs.bci < bciResumeEnsureRet) →
    (G.method mid).argc = args.length → (G.method mid).isBlock = false →
    invoke G n W live mid receiver args = some r → r.clean = true →
    Ends G P vm live entry base r.world r.outcome → After G P (vm.call G entry mid args.length)

def BodyOk (G : Guest σ) (n : Nat) : Prop :=
  ∀ {P : Vm σ → Prop} {vm : Vm σ} {W : World σ} {live : List Nat} {entry : Bool}
    {base mid savedBci : Nat} {regs : Regs} {receiver : Oop} {args : List Oop} {r : Result σ},
    Calling G vm W live entry base → vm.Pushed base receiver args →
    (entry = false → savedBci = vm.regs.bci) → (G.method mid).argc = args.length →
    (G.method mid).isBlock = false →
    vm.stack.sp + 7 + (G.method mid).ntemps ≤ stackCapacity →
    evalBody G n W live mid receiver args = some r → r.clean = true →
    Ends G P vm live entry base r.world r.outcome →
    let act := vm.enterMethod G mid args.length (vm.linkOf entry) savedBci
    Reaches G P { act with regs := regs, control := .dispatch mid 0 }

/-- A closure word at the receiver slot of a call, ready to be activated. -/
structure Ready (G : Guest σ) (vm : Vm σ) (entry : Bool) (base c : Nat) (cl : Closure) (b : Block)
    (args : List Oop) : Prop where
  pushed : vm.Pushed base (.closure c) args
  closure : vm.closures[c]? = some cl
  block : ShowsBlock G vm.ledger vm.nextFrameSerial cl b
  argc : (G.method b.method).argc = args.length
  link : asI64 vm.stack.fp = vm.linkOf entry

def BlockOk (G : Guest σ) (n : Nat) : Prop :=
  ∀ {P : Vm σ → Prop} {vm : Vm σ} {W : World σ} {live : List Nat} {entry : Bool} {base c : Nat}
    {cl : Closure} {b : Block} {args : List Oop} {r : Result σ}, Calling G vm W live entry base →
    Ready G vm entry base c cl b args →
    vm.stack.sp + 7 + (G.method b.method).ntemps ≤ stackCapacity →
    evalBlock G n W live b args = some r → r.clean = true →
    Ends G P vm live entry base r.world r.outcome → Reaches G P (vm.enterBlock G cl)

def ProtectedOk (G : Guest σ) (n : Nat) : Prop :=
  ∀ {P : Vm σ → Prop} {vm : Vm σ} {W : World σ} {live : List Nat} {entry : Bool} {base c ch : Nat}
    {cl clh : Closure} {p h : Block} {kind : MarkerKind} {r : Result σ},
    Calling G vm W live entry base → Ready G vm entry base c cl p [] →
    vm.stack.sp + 7 + (G.method p.method).ntemps ≤ stackCapacity → vm.closures[ch]? = some clh → ShowsBlock G vm.ledger vm.nextFrameSerial clh h →
    (G.method h.method).argc = 0 → evalProtected G n W live kind p h = some r → r.clean = true →
    Ends G P vm live entry base r.world r.outcome →
    Yields Overflow (fun st => Reaches G P ((vm.enterBlock G cl).withStack st))
      ((vm.enterBlock G cl).stack.setMarker (vm.enterBlock G cl).stack.fp (.closure ch) kind)

/-- The interpreter follows the semantics up to the fuel `n`. -/
structure Sound (G : Guest σ) (n : Nat) : Prop where
  eval : EvalOk G n
  branch : BranchOk G n
  invoke : InvokeOk G n
  body : BodyOk G n
  block : BlockOk G n
  protected_ : ProtectedOk G n

theorem sound_zero : Sound G 0 := by
  refine ⟨?_, ?_, ?_, ?_, ?_, ?_⟩
  · intro P vm W live act bci r _ _ h
    rw [evalFrom] at h
    cases h
  · intro P vm W live act bci target sense r _ _ h
    rw [evalBranch] at h
    cases h
  · intro P vm W live entry base mid receiver args r _ _ _ _ _ h
    rw [Process.invoke] at h
    cases h
  · intro P vm W live entry base mid savedBci regs receiver args r _ _ _ _ _ _ h
    rw [evalBody] at h
    cases h
  · intro P vm W live entry base c cl b args r _ _ _ h
    rw [evalBlock] at h
    cases h
  · intro P vm W live entry base c ch cl clh p h kind r _ _ _ _ _ _ h
    rw [evalProtected] at h
    cases h

/-! ## Inside a frame -/

theorem Exiting.of_same {o : Outcome} (h : Exiting G P vm live m W o)
    (hs : Same (vm.receiverBase G m) vm vm') : Exiting G P vm' live m W o := by
  have hbase : vm'.receiverBase G m = vm.receiverBase G m := by
    rw [receiverBase, receiverBase, hs.fp]
  have hfloor : vm'.floor G m = vm.floor G m := by
    rw [floor, floor, hs.fp]
  intro vm₁ hs₁ hshows hle hcap
  rw [hbase] at hs₁
  rw [hfloor] at hle
  exact h vm₁ (hs.trans hs₁) hshows hle hcap

/-- The frame goes on at another bytecode. -/
theorem EvalOk.next (ih : EvalOk G n) (hrep : vm'.Represents G W live act')
    (hs : Same (vm.receiverBase G m) vm vm') (hm : act'.method = m)
    (he : evalFrom G n W live act' bci = some r) (hclean : r.clean = true)
    (hexit : Exiting G P vm live m r.world r.outcome) :
    Reaches G P (vm'.withControl (.dispatch m bci)) := by
  subst hm
  have hs' : Same (vm.receiverBase G act'.method) vm (vm'.withControl (.dispatch act'.method bci)) :=
    hs.trans (.of_slots ⟨rfl, List.prefix_refl _, List.prefix_refl _, Nat.le_refl _⟩ rfl rfl
      fun _ _ => rfl)
  exact ih (hrep.withControl _) rfl he hclean (hexit.of_same hs')

theorem step_dispatch {i : Instr} (hc : vm.control = .dispatch m bci)
    (hi : (G.method m).bytecode[bci]? = some i) : vm.step G = vm.execute G m bci i := by
  simp only [step, hc, hi]

/-- The active frame makes a call. -/
theorem Represents.calling (h : vm.Represents G W live act) (hbase : vm.floor G act.method ≤ base)
    (hbci : vm.regs.bci < bciResumeCannotReturn) : Calling G vm W live false base := by
  obtain ⟨rest, hledger, hground⟩ := h.ledger
  have hlt := h.receiverBase_lt
  refine ⟨h.shows, h.live, ?_, h.cap, fun _ => ⟨_, _, _, hledger, h.method, hbase, hbci⟩⟩
  unfold floor at hbase
  rw [hledger]
  refine Grounded.cons (a := ⟨vm.stack.fp, act.id⟩) hground ?_ h.fresh ?_ h.serial
  · omega
  · show vm.stack.fp + 7 ≤ base
    omega

/-- The receiver and the arguments a frame has pushed. -/
theorem Represents.pushed_args {args rest : List Oop} {receiver : Oop}
    (h : vm.Represents G W live act) (hops : act.operands = args.reverse ++ receiver :: rest) :
    vm.Pushed (vm.floor G act.method + rest.length) receiver args := by
  have hsp := h.sp
  have hwords := h.operands
  rw [hops, List.reverse_append, List.reverse_reverse, List.reverse_cons,
    ProcessStack.holds_append, ProcessStack.holds_append, ProcessStack.holds_singleton,
    List.length_append, List.length_reverse, List.length_singleton] at hwords
  refine ⟨?_, hwords.1.2, ?_⟩
  · rw [hsp, hops]
    simp only [List.length_append, List.length_reverse, List.length_cons]
    omega
  · rw [Nat.add_assoc]
    exact hwords.2

/-- A call has returned to the frame that made it. -/
theorem Represents.returned {args rest : List Oop} {receiver : Oop}
    (h : vm.Represents G W live act) (hops : act.operands = args.reverse ++ receiver :: rest)
    (hret : Returned G vm false (vm.floor G act.method + rest.length) v W' vm') :
    vm'.Represents G W' live { act with operands := v :: rest } ∧
      Same (vm.receiverBase G act.method) vm vm' := by
  obtain ⟨hfp, hsp, hv, -⟩ := hret.delivered
  have hlt := h.receiverBase_lt
  have hbelow := h.below
  have hargc := h.argc
  have hntemps := h.ntemps
  have hfloor : vm.floor G act.method = vm.stack.fp + 7 + (G.method act.method).ntemps := rfl
  have hpushed := (h.pushed_args hops).sp
  have hcap := h.cap
  have hs : Same (vm.receiverBase G act.method) vm vm' := hret.same (by omega) (by omega)
  refine ⟨h.keep hs.toFramed hret.shows rfl rfl rfl ?_ ?_ ?_ ?_ ?_, hs⟩
  · exact h.args.congr fun i (hi : i < act.args.length) => hret.below _ (by omega)
  · exact h.temps.congr fun i (hi : i < act.temps.length) => hret.below _ (by omega)
  · have hwords := h.operands
    rw [hops, List.reverse_append, List.reverse_cons, ProcessStack.holds_append,
      ProcessStack.holds_append] at hwords
    rw [List.reverse_cons, ProcessStack.holds_append, ProcessStack.holds_singleton,
      List.length_reverse]
    refine ⟨hwords.1.1.congr fun i hi => hret.below _ ?_, hv⟩
    rw [List.length_reverse] at hi
    omega
  · rw [hsp, List.length_cons]
    omega
  · omega

/-- What the active frame does once a call it made has ended: it goes on at `bci` with the
value over the operands `rest`, or it is left by the non-local return. -/
def Goes (G : Guest σ) (P : Vm σ → Prop) (vm : Vm σ) (live : List Nat) (act : Act) (rest : List Oop)
    (bci : Nat) (W : World σ) : Outcome → Prop
  | .ret v => ∀ vm', Same (vm.receiverBase G act.method) vm vm' →
    vm'.Represents G W live { act with operands := v :: rest } →
    vm'.control = .dispatch act.method bci → Reaches G P vm'
  | .nlr h v => Exiting G P vm live act.method W (.nlr h v)

theorem Goes.of_same {rest : List Oop} {o : Outcome} (h : Goes G P vm live act rest bci W o)
    (hs : Same (vm.receiverBase G act.method) vm vm') : Goes G P vm' live act rest bci W o := by
  have hbase : vm'.receiverBase G act.method = vm.receiverBase G act.method := by
    rw [receiverBase, receiverBase, hs.fp]
  cases o with
  | ret v =>
    intro vm₁ hs₁ hrep hcontrol
    rw [hbase] at hs₁
    exact h vm₁ (hs.trans hs₁) hrep hcontrol
  | nlr home v => exact Exiting.of_same h hs

/-- The rest of the activation, after a call. -/
theorem Goes.of_andThen (ih : Sound G n) {rest : List Oop}
    (hthen : (r'.andThen fun W v =>
      evalFrom G n W live { act with operands := v :: rest } bci) = some r)
    (hclean : r.clean = true) (hexit : Exiting G P vm live act.method r.world r.outcome) :
    r'.clean = true ∧ Goes G P vm live act rest bci r'.world r'.outcome := by
  unfold Result.andThen at hthen
  split at hthen
  · rename_i w hw
    obtain ⟨r'', he, rfl⟩ := Option.map_eq_some_iff.mp hthen
    simp only [Bool.and_eq_true] at hclean
    rw [hw]
    refine ⟨hclean.1, fun vm' hs hrep hcontrol => ?_⟩
    exact ih.eval hrep hcontrol he hclean.2 (hexit.of_same hs)
  · rename_i h w hw
    obtain rfl := Option.some.inj hthen
    rw [hw] at hexit ⊢
    exact ⟨hclean, hexit⟩

/-- A call from the active frame, and what the frame does with its outcome. -/
theorem call_next (ih : Sound G n) {args rest : List Oop} {receiver : Oop}
    (hrep : vm.Represents G W live act) (hops : act.operands = args.reverse ++ receiver :: rest)
    (hbci : vm.regs.bci < bciResumeEnsureRet) (hargc : (G.method mid).argc = args.length)
    (hmeth : (G.method mid).isBlock = false)
    (hinv : Process.invoke G n W live mid receiver args = some r) (hclean : r.clean = true)
    (hgoes : Goes G P vm live act rest vm.regs.bci r.world r.outcome) :
    After G P (vm.activateMethod G mid args.length) := by
  have hpushed := hrep.pushed_args hops
  have hfloor : vm.floor G act.method = vm.stack.fp + 7 + (G.method act.method).ntemps := rfl
  have hlt := hrep.receiverBase_lt
  have hcalling : Calling G vm W live false (vm.floor G act.method + rest.length) :=
    hrep.calling (Nat.le_add_right _ _) (Nat.lt_trans hbci (by decide))
  refine ih.invoke hcalling hpushed (fun _ => hbci) hargc hmeth hinv hclean ?_
  cases hout : r.outcome with
  | ret v =>
    rw [hout] at hgoes
    intro vm' hret
    obtain ⟨hrep', hs⟩ := hrep.returned hops hret
    have hcontrol := hret.delivered.2.2.2 _ hrep.method
    unfold resumeControl at hcontrol
    rw [if_neg (Nat.ne_of_lt hbci), if_neg (Nat.ne_of_lt (Nat.lt_trans hbci (by decide)))] at hcontrol
    exact hgoes vm' hs hrep' hcontrol
  | nlr h v =>
    rw [hout] at hgoes
    refine ⟨rfl, fun hlive vm' ref hpassed hn => ?_⟩
    have hs : Same (vm.receiverBase G act.method) vm vm' := hpassed.same (by omega) (by omega)
    have habove := hpassed.above
    exact hgoes vm' hs hpassed.shows (by omega) hpassed.cap hlive ref hn

/-! ## Bytecodes -/

/-- The operands of a send. -/
theorem operands_of_splitSend {argc : Nat} {args rest : List Oop} {receiver : Oop}
    (h : act.splitSend argc = some (args, receiver, rest)) :
    act.operands = args.reverse ++ receiver :: rest ∧ args.length = argc := by
  unfold Act.splitSend at h
  split at h
  · cases h
  · rename_i r tl hdrop
    obtain ⟨rfl, rfl, rfl⟩ := by simpa using h
    have hlen : argc < act.operands.length := by
      by_contra hge
      rw [List.drop_eq_nil_of_le (Nat.not_lt.mp hge)] at hdrop
      cases hdrop
    refine ⟨?_, ?_⟩
    · rw [List.reverse_reverse, ← hdrop, List.take_append_drop]
    · rw [List.length_reverse, List.length_take_of_le (Nat.le_of_lt hlen)]

theorem Represents.withRegs (h : vm.Represents G W live act) (regs : Regs) :
    Represents G { vm with regs := regs } W live act ∧
      ∀ base, Same base vm { vm with regs := regs } := by
  have hgrows : Grows vm { vm with regs := regs } :=
    ⟨rfl, List.prefix_refl _, List.prefix_refl _, Nat.le_refl _⟩
  exact ⟨h.congr rfl rfl hgrows (h.shows.congr rfl rfl rfl rfl rfl fun _ ha => ha),
    fun _ => .of_slots hgrows rfl rfl fun _ _ => rfl⟩

/-- The heap alone changes. -/
theorem Represents.withHeap (h : vm.Represents G W live act) (heap : σ) :
    Represents G { vm with heap := heap } { W with heap := heap } live act ∧
      Same (vm.receiverBase G act.method) vm { vm with heap := heap } := by
  have hgrows : Grows vm { vm with heap := heap } :=
    ⟨rfl, List.prefix_refl _, List.prefix_refl _, Nat.le_refl _⟩
  exact ⟨h.congr rfl rfl hgrows ⟨h.shows.contexts, rfl, h.shows.next, h.shows.handlerRuns,
    h.shows.blocks⟩, .of_slots hgrows rfl rfl fun _ _ => rfl⟩

/-- `send_generic` from the active frame: the resolved method is called, or the message is
reified and `#doesNotUnderstand:` is. -/
theorem sendGeneric_next (hG : G.WellFormed) (ih : Sound G n) {site argc : Nat} {args rest args' : List Oop}
    {receiver : Oop} {heap : σ} (hrep : vm.Represents G W live act)
    (hsplit : act.splitSend argc = some (args, receiver, rest))
    (hres : resolve G W.heap site receiver args = some (heap, mid, args'))
    (hbci : vm.regs.bci < bciResumeEnsureRet)
    (hinv : Process.invoke G n { W with heap } live mid receiver args' = some r)
    (hclean : r.clean = true) (hgoes : Goes G P vm live act rest vm.regs.bci r.world r.outcome) :
    After G P (vm.sendGeneric G site argc) := by
  obtain ⟨hops, rfl⟩ := operands_of_splitSend hsplit
  have hpushed := hrep.pushed_args hops
  have hsp := hpushed.sp
  have hbase : vm.stack.sp - args.length - 1 = vm.floor G act.method + rest.length := by omega
  have hneeds : vm.needs G (args.length + 1) = .ok () := by
    apply hrep.needs
    rw [hops]
    simp only [List.length_append, List.length_reverse, List.length_cons]
    omega
  have hheap := hrep.shows.heap
  unfold sendGeneric
  rw [hneeds, ok_bind]
  simp only [hbase, hpushed.receiver, hheap, hpushed.args.words]
  unfold resolve at hres
  cases hm : G.lookup W.heap site receiver with
  | some m =>
    simp only [hm] at hres ⊢
    split at hres
    · rename_i hargc
      obtain ⟨rfl, rfl, rfl⟩ := by simpa using hres
      simp only [hargc, ↓reduceIte]
      exact call_next ih hrep hops hbci hargc (hG.lookup _ _ _ _ hm) hinv hclean hgoes
    · cases hres
  | none =>
    simp only [hm] at hres ⊢
    cases hmsg : G.message W.heap site args with
    | mk heap' msg =>
      simp only [hmsg] at hres ⊢
      split at hres
      · rename_i m hm
        split at hres
        · rename_i hargc
          obtain ⟨rfl, rfl, rfl⟩ := by simpa using hres
          -- the arguments give way to the message
          have hlen : args.length ≤ act.operands.length := by
            rw [hops, List.length_append, List.length_reverse]
            omega
          obtain ⟨hdrop, hs₁⟩ := hrep.dropped hlen
          have hrest : act.operands.drop args.length = receiver :: rest := by
            rw [hops, List.drop_left' (List.length_reverse ..)]
          rw [hrest] at hdrop
          obtain ⟨hheap', hs₂⟩ := hdrop.withHeap heap'
          have hidx : vm.stack.sp - args.length = vm.floor G act.method + rest.length + 1 := by omega
          rw [hidx] at hheap' hs₁ hs₂
          refine Yields.bind (Q := fun vm' => Represents G vm' { W with heap := heap' } live
              { act with operands := msg :: receiver :: rest } ∧
              Same (vm.receiverBase G act.method) vm vm' ∧ vm'.regs = vm.regs) ?_ ?_
          · refine push_yields fun hroom => ?_
            obtain ⟨hpush, hs₃⟩ := hheap'.pushed (v := msg) hroom
            exact ⟨hpush, (hs₁.trans hs₂).trans hs₃, rfl⟩
          · rintro vm' ⟨hrep', hs', hregs⟩
            rw [← hregs] at hbci hgoes
            simp only [hrep'.shows.heap, hm, hargc, ↓reduceIte]
            exact @call_next _ _ _ _ _ _ _ _ _ _ ih [msg] _ _ hrep' rfl hbci hargc
              (hG.lookup _ _ _ _ hm) hinv hclean (hgoes.of_same hs')
        · cases hres
      · cases hres

/-- The end of an activation: the state before its last bytecode, less the operand it takes. -/
theorem Exiting.exits {o : Outcome} (h : Exiting G P vm live m W o)
    (hrep : vm'.Represents G W live act') (hm : act'.method = m)
    (hs : Same (vm.receiverBase G m) vm vm') : Exits G P vm' live o := by
  subst hm
  have hsp := hrep.sp
  have hfloor : vm'.floor G act'.method = vm.floor G act'.method := by
    rw [floor, floor, hs.fp]
  exact h vm' hs hrep.shows (by omega) hrep.cap

theorem closureOf_closure {vm : Vm σ} {c : Nat} {cl : Closure} (at_ : vm.closures[c]? = some cl) :
    vm.closureOf (.closure c) = .ok cl := by
  simp only [closureOf, at_]

theorem evalFrom_ok (hG : G.WellFormed) (ih : Sound G n) : EvalOk G (n + 1) := by
  intro P vm W live act bci r hrep hc he hclean hexit
  rw [evalFrom] at he
  cases hi : (G.method act.method).bytecode[bci]? with
  | none =>
    rw [hi] at he
    cases he
  | some i =>
  obtain ⟨hlt, hget⟩ := List.getElem?_eq_some_iff.mp hi
  have hshort : bci + 1 < bciResumeEnsureRet := Nat.lt_of_le_of_lt hlt (hG.short act.method)
  rw [hi] at he
  refine reaches_of_step ?_
  rw [step_dispatch hc hi]
  cases i with
  | push s =>
    simp only at he
    split at he
    · rename_i v hv
      simp only [execute, hrep.load hv, ok_bind]
      refine Yields.bind (hrep.push v) ?_
      rintro vm' ⟨hrep', hs⟩
      exact EvalOk.next ih.eval hrep' hs rfl he hclean hexit
    · cases he
  | storeTemp t =>
    simp only at he
    split at he
    · rename_i v rest hops
      split at he
      · rename_i act' W' hstore
        have hone : 1 ≤ act.operands.length := by
          rw [hops, List.length_cons]
          omega
        obtain ⟨vm', hst, hrep', hs, hm⟩ := hrep.store hstore
        simp only [execute, hrep.needs hone, ok_bind, hrep.top hops, hst]
        exact EvalOk.next ih.eval hrep' hs hm he hclean hexit
      · cases he
    · cases he
  | storePop d =>
    simp only at he
    split at he
    · rename_i v rest hops
      split at he
      · rename_i act' W' hstore
        obtain ⟨hpop, hrep₁, hs₁⟩ := hrep.pop hops
        obtain ⟨vm', hst, hrep', hs, hm⟩ := hrep₁.store hstore
        simp only [execute, hpop, ok_bind]
        rw [hst, ok_bind]
        exact EvalOk.next ih.eval hrep' (hs₁.trans hs) hm he hclean hexit
      · cases he
    · cases he
  | pop =>
    simp only at he
    split at he
    · rename_i v rest hops
      obtain ⟨hpop, hrep', hs⟩ := hrep.pop hops
      simp only [execute, hpop, ok_bind]
      exact EvalOk.next ih.eval hrep' hs rfl he hclean hexit
    · cases he
  | dup =>
    simp only at he
    split at he
    · rename_i v rest hops
      have hone : 1 ≤ act.operands.length := by
        rw [hops, List.length_cons]
        omega
      simp only [execute, hrep.needs hone, ok_bind, hrep.top hops]
      refine Yields.bind (hrep.push v) ?_
      rintro vm' ⟨hrep', hs⟩
      rw [hops] at hrep'
      exact EvalOk.next ih.eval hrep' hs rfl he hclean hexit
    · cases he
  | jump target => exact EvalOk.next ih.eval hrep (Same.refl _ _) rfl he hclean hexit
  | brTrue target =>
    exact ih.branch hrep (Nat.lt_trans (Nat.lt_succ_self _) hshort) he hclean hexit
  | brFalse target =>
    exact ih.branch hrep (Nat.lt_trans (Nat.lt_succ_self _) hshort) he hclean hexit
  | send site argc =>
    simp only at he
    split at he
    · cases he
    · rename_i args receiver rest hsplit
      split at he
      · cases he
      · rename_i heap m args' hres
        obtain ⟨r', hinv, hthen⟩ := Option.bind_eq_some_iff.mp he
        obtain ⟨hrep', hs⟩ := hrep.withRegs ⟨some act.method, bci + 1⟩
        obtain ⟨hclean', hgoes⟩ := Goes.of_andThen ih hthen hclean hexit
        exact sendGeneric_next hG ih hrep' hsplit hres hshort hinv hclean' (hgoes.of_same (hs _))
  | pushClosure blk c =>
    simp only at he
    split at he
    · rename_i hle
      have hblk := hG.blocks act.method blk c (by rw [← hget]; exact List.getElem_mem hlt)
      refine Yields.bind (hrep.makeClosure hblk hle) ?_
      rintro vm' ⟨hrep', hs⟩
      exact EvalOk.next ih.eval hrep' hs rfl he hclean hexit
    · cases he
  | returnTos =>
    simp only at he
    split at he
    · rename_i v rest hops
      obtain rfl := Option.some.inj he
      obtain ⟨hpop, hrep', hs⟩ := hrep.pop hops
      simp only [execute, hpop, ok_bind]
      exact hexit.exits hrep' rfl hs
    · cases he
  | blockReturnTos =>
    simp only at he
    split at he
    · rename_i v rest hops
      obtain rfl := Option.some.inj he
      obtain ⟨hpop, hrep', hs⟩ := hrep.pop hops
      simp only [execute, hpop, ok_bind]
      exact hexit.exits hrep' rfl hs
    · cases he
  | returnSelf =>
    obtain rfl := Option.some.inj he
    simp only [execute, hrep.receiver]
    exact hexit.exits hrep rfl (Same.refl _ _)
  | nlrTos =>
    simp only at he
    split at he
    · rename_i v rest hops
      split at he
      · rename_i hlive
        obtain rfl := Option.some.inj he
        obtain ⟨hpop, hrep₁, hs₁⟩ := hrep.pop hops
        obtain ⟨hrep', hs₂⟩ := hrep₁.withRegs ⟨some act.method, bci⟩
        obtain ⟨c, cl, hslot, hcl, hnames⟩ : ∃ c cl,
            vm.stack.slots (vm.receiverBase G act.method) = .closure c ∧
              vm.closures[c]? = some cl ∧
              Names vm.ledger vm.nextFrameSerial (unpackHomeRef cl.home) act.home := by
          have hhome := hrep.home
          rwa [if_pos hlive.1] at hhome
        have hexits := hexit.exits hrep' rfl (hs₁.trans (hs₂ _))
        simp only [execute, hpop, ok_bind, hrep'.receiverSlot]
        refine Yields.bind (Q := fun x => x = cl) ?_ ?_
        · show Yields Overflow _ (Vm.closureOf _ (vm.stack.slots (vm.receiverBase G act.method)))
          have got : Vm.closureOf ({ vm.withSp (vm.stack.sp - 1) with
              regs := ⟨some act.method, bci⟩ }) (.closure c) = .ok cl := closureOf_closure hcl
          rw [hslot, got]
          exact rfl
        · rintro x rfl
          exact (hexits hlive.2 _ hnames).after _
      · cases he
    · cases he

theorem evalBranch_ok (hG : G.WellFormed) (ih : Sound G n) : BranchOk G (n + 1) := by
  intro P vm W live act bci target sense r hrep hbci he hclean hexit
  rw [evalBranch] at he
  split at he
  · cases he
  · rename_i b rest hops
    obtain ⟨hpop, hrep', hs⟩ := hrep.pop hops
    simp only [branch, hpop, ok_bind]
    exact EvalOk.next ih.eval hrep' hs rfl he hclean hexit
  · rename_i t rest hno hops
    obtain ⟨hpop, hrep₁, hs₁⟩ := hrep.pop hops
    split at he
    · cases he
    · rename_i m hm
      split at he
      · rename_i hargc
        obtain ⟨r', hinv, hthen⟩ := Option.bind_eq_some_iff.mp he
        obtain ⟨hclean', hgoes⟩ := Goes.of_andThen ih hthen hclean hexit
        simp only [branch, hpop, ok_bind]
        cases t with
        | bool b => exact (hno b rfl).elim
        | _ =>
          refine Yields.bind (hrep₁.push _) ?_
          rintro vm' ⟨hrep₂, hs₂⟩
          obtain ⟨hrep₃, hs₃⟩ := hrep₂.withRegs ⟨some act.method, bci⟩
          simp only [show G.lookup vm'.heap G.siteMustBeBoolean _ = some m from
            hrep₂.shows.heap ▸ hm, hargc, ↓reduceIte]
          exact @call_next _ _ _ _ _ _ _ _ _ _ ih [] _ _ hrep₃ rfl hbci hargc (hG.lookup _ _ _ _ hm)
            hinv hclean' (hgoes.of_same ((hs₁.trans hs₂).trans (hs₃ _)))
      · cases he

end Vm

end

end WinVm.Process
