import WinVm.Codecache.Dispatch

/-!
# What an operation changes

Every operation but an install and a collection leaves the classes, the holders and the
selectors of the methods as they are. In the counters it may set the compile-disabled bit,
which clears the rest of the word, and in the code table it may retire nmethods and add some.
Both come from compiles alone: `Op.asks` says which compiles an operation can ask for, and
`exec_effect` that nothing else happens.
-/

namespace WinVm.Codecache

open WinVm.Interpreter CodeTable

/-! ## Origins and requests -/

/-- Where an nmethod comes from: what does not change while it is in the table. -/
structure Origin where
  method : Addr
  keyKlass : Addr
  keySelector : Addr
  blockMethod : Option Addr
  inlined : List Addr
  inlineDeps : List (Addr × Addr)

def Nmethod.origin (nm : Nmethod) : Origin :=
  ⟨nm.method, nm.keyKlass, nm.keySelector, nm.blockMethod, nm.inlined, nm.inlineDeps⟩

/-- A call of `compile_method_full`, with its answer. -/
structure Request where
  klass : Addr
  method : Addr
  isBlock : Bool
  result : CompileResult

def Request.origin (q : Request) (selector : Addr) (b : Body) : Origin :=
  ⟨q.method, q.klass, selector, if q.isBlock then some q.method else none, b.inlined, b.inlineDeps⟩

/-- The bits of the counters that decide about compiling and halting. -/
def SameFlags (c c' : Counters) : Prop :=
  c'.compileDisabled = c.compileDisabled ∧ c'.hasBp = c.hasBp

/-- The words of a method that no dispatch writes. -/
def methodKind (m : Method) : Word × Bool := (m.holder, m.isBlock)

/-- The words of the world that only installs and collections write. -/
structure SameWorld (j j' : Jit) : Prop where
  selector : j'.selector = j.selector
  klasses : j'.vm.klasses = j.vm.klasses
  depth : j'.vm.depth = j.vm.depth
  kind : ∀ a, (j'.vm.methods a).map methodKind = (j.vm.methods a).map methodKind

theorem SameWorld.refl (j : Jit) : SameWorld j j := ⟨rfl, rfl, rfl, fun _ => rfl⟩

theorem SameWorld.trans {j j' j'' : Jit} (h : SameWorld j j') (h' : SameWorld j' j'') :
    SameWorld j j'' :=
  ⟨h'.selector.trans h.selector, h'.klasses.trans h.klasses, h'.depth.trans h.depth,
    fun a => (h'.kind a).trans (h.kind a)⟩

theorem SameWorld.method {j j' : Jit} (h : SameWorld j j') {a : Addr} {meth : Method}
    (hmeth : j.vm.methods a = some meth) :
    ∃ meth', j'.vm.methods a = some meth' ∧ methodKind meth' = methodKind meth := by
  have hkind := h.kind a
  rw [hmeth, Option.map_some, Option.map_eq_some_iff] at hkind
  exact hkind

/-! ## Holders -/

/-- `m` is a method, no block, the class that holds it is on the superclass chain of the pair's
class, and its selector is the pair's. -/
def Inherits (j : Jit) (d : Addr × Addr) (m : Addr) : Prop :=
  ∃ meth h, j.vm.methods m = some meth ∧ meth.holder = .ref h ∧ meth.isBlock = false ∧
    pairAffected j.vm h (j.selector m) d = true

/-- A dictionary holds methods of its class under their selectors, and no blocks. -/
def HeldByClass (j : Jit) : Prop :=
  ∀ k klass s m, j.vm.klasses k = some klass → klass.methods s = some m →
    ∃ meth, j.vm.methods m = some meth ∧ meth.holder = .ref k ∧ meth.isBlock = false ∧
      j.selector m = s

theorem Vm.walk_holder {klasses : Addr → Option Klass} {fuel : Nat} {k s m : Addr}
    (h : Vm.walk klasses fuel k s = some m) :
    ∃ holder klass, klasses holder = some klass ∧ klass.methods s = some m ∧
      superchainContains klasses fuel k holder = true := by
  induction fuel generalizing k with
  | zero => cases h
  | succ fuel ih =>
    unfold Vm.walk at h
    cases hk : klasses k with
    | none =>
      rw [hk] at h
      cases h
    | some klass =>
      simp only [hk] at h
      cases hm : klass.methods s with
      | some m' =>
        simp only [hm] at h
        cases h
        exact ⟨k, klass, hk, hm, by rw [superchainContains, if_pos rfl]⟩
      | none =>
        simp only [hm] at h
        cases hsuper : klass.superclass with
        | ref sc =>
          simp only [hsuper] at h
          obtain ⟨holder, klass', hk', hm', hchain⟩ := ih h
          refine ⟨holder, klass', hk', hm', ?_⟩
          rw [superchainContains]
          split
          · rfl
          · simpa only [hk, hsuper] using hchain
        | nil =>
          simp only [hsuper] at h
          cases h
        | smi v =>
          simp only [hsuper] at h
          cases h

/-- What lookup finds is held on the chain it walked. -/
theorem HeldByClass.of_lookup {j : Jit} (hi : HeldByClass j) {k s m : Addr}
    (h : j.vm.lookupUncached k s = some m) : Inherits j (k, s) m := by
  obtain ⟨holder, klass, hk, hm, hchain⟩ := Vm.walk_holder h
  obtain ⟨meth, hmeth, hholder, hblock, hsel⟩ := hi holder klass s m hk hm
  refine ⟨meth, holder, hmeth, hholder, hblock, ?_⟩
  rw [pairAffected, hsel, hchain]
  simp

/-- Both are about words that only installs and collections write. -/
theorem SameWorld.inherits {j j' : Jit} (h : SameWorld j j') {d : Addr × Addr} {m : Addr}
    (hm : Inherits j d m) : Inherits j' d m := by
  obtain ⟨meth, holder, hmeth, hholder, hblock, hpair⟩ := hm
  obtain ⟨meth', hmeth', hkind⟩ := h.method hmeth
  refine ⟨meth', holder, hmeth', (congrArg Prod.fst hkind).trans hholder,
    (congrArg Prod.snd hkind).trans hblock, ?_⟩
  unfold pairAffected at hpair ⊢
  rw [h.klasses, h.depth, h.selector]
  exact hpair

theorem SameWorld.installed {j j' : Jit} (h : SameWorld j j') (hi : HeldByClass j) :
    HeldByClass j' := by
  intro k klass s m hk hm
  rw [h.klasses] at hk
  obtain ⟨meth, hmeth, hholder, hblock, hsel⟩ := hi k klass s m hk hm
  obtain ⟨meth', hmeth', hkind⟩ := h.method hmeth
  exact ⟨meth', hmeth', (congrArg Prod.fst hkind).trans hholder,
    (congrArg Prod.snd hkind).trans hblock, by rw [h.selector, hsel]⟩

/-! ## Effects -/

/-- What an operation with the compiles `asks` does to the counters and the code table. -/
structure Effect (asks : Request → Prop) (j j' : Jit) : Prop where
  world : SameWorld j j'
  coherent : Coherent j'.ct
  cache : CacheOk j'.vm
  flags : ∀ a, SameFlags (j.counters a) (j'.counters a) ∨
    ∃ q, asks q ∧ q.method = a ∧ q.result = .noPermanent
  alive : ∀ i nm', j'.ct.get i = some nm' → nm'.state = .alive →
    (∃ nm, j.ct.get i = some nm ∧ nm.state = .alive ∧ nm.origin = nm'.origin) ∨
      ∃ q b, asks q ∧ q.result = .compiled b ∧ nm'.origin = q.origin (j.selector q.method) b

namespace Effect

variable {asks asks' : Request → Prop} {j j' j'' : Jit}

/-- An operation that leaves the table and the flags alone. -/
theorem of_same (hworld : SameWorld j j') (hc : Coherent j.ct) (hcache : CacheOk j'.vm)
    (hct : j'.ct = j.ct) (hflags : ∀ a, SameFlags (j.counters a) (j'.counters a)) :
    Effect asks j j' where
  world := hworld
  coherent := hct ▸ hc
  cache := hcache
  flags := fun a => .inl (hflags a)
  alive := fun i nm' hget halive => .inl ⟨nm', hct ▸ hget, halive, rfl⟩

theorem refl (hc : Coherent j.ct) (hcache : CacheOk j.vm) : Effect asks j j :=
  of_same (SameWorld.refl j) hc hcache rfl fun _ => ⟨rfl, rfl⟩

theorem trans (h : Effect asks j j') (h' : Effect asks j' j'') : Effect asks j j'' where
  world := h.world.trans h'.world
  coherent := h'.coherent
  cache := h'.cache
  flags := fun a => by
    rcases h'.flags a with hsame' | hq
    · exact (h.flags a).imp_left fun hsame =>
        ⟨hsame'.1.trans hsame.1, hsame'.2.trans hsame.2⟩
    · exact .inr hq
  alive := fun i nm'' hget halive => by
    rcases h'.alive i nm'' hget halive with ⟨nm', hget', halive', horigin'⟩ | ⟨q, b, hq, hr, ho⟩
    · rcases h.alive i nm' hget' halive' with ⟨nm, hget, halive, horigin⟩ | ⟨q, b, hq, hr, ho⟩
      · exact .inl ⟨nm, hget, halive, horigin.trans horigin'⟩
      · exact .inr ⟨q, b, hq, hr, horigin'.symm.trans ho⟩
    · rw [h.world.selector] at ho
      exact .inr ⟨q, b, hq, hr, ho⟩

theorem mono (h : Effect asks j j') (himp : ∀ q, asks q → asks' q) : Effect asks' j j' where
  world := h.world
  coherent := h.coherent
  cache := h.cache
  flags := fun a => (h.flags a).imp_right fun ⟨q, hq, hrest⟩ => ⟨q, himp q hq, hrest⟩
  alive := fun i nm' hget halive => (h.alive i nm' hget halive).imp_right
    fun ⟨q, b, hq, hrest⟩ => ⟨q, b, himp q hq, hrest⟩

end Effect

/-! ## The compiles an operation asks for -/

/-- The compile of `reuse_or_compile`: a fresh one, or the replacement of a half-warm
nmethod. -/
def Jit.reuseRequest (j : Jit) (k m : Addr) (heal fresh : CompileResult) (q : Request) : Prop :=
  match j.alive (j.ct.lookup k (j.selector m)) with
  | none => q = ⟨k, m, false, fresh⟩
  | some (_, nm) => nm.isHalfWarmOsr = true ∧ q = ⟨k, m, false, heal⟩

theorem reuseRequest_root {j : Jit} {k m : Addr} {heal fresh : CompileResult} {q : Request}
    (h : j.reuseRequest k m heal fresh q) : q.klass = k ∧ q.method = m ∧ q.isBlock = false := by
  unfold Jit.reuseRequest at h
  split at h
  · rw [h]
    exact ⟨rfl, rfl, rfl⟩
  · rw [h.2]
    exact ⟨rfl, rfl, rfl⟩

/-- The compiles an operation asks for, if it gets that far. -/
def Op.asks (j : Jit) : Op → Request → Prop
  | .activate k m _ heal fresh, q => j.compileGate m = true ∧ j.reuseRequest k m heal fresh q
  | .osrRequest k m targetBci r, q =>
    j.threshold.isSome = true ∧ j.compileEnabled = true ∧
      j.vm.lookupUncached k (j.selector m) = some m ∧
      j.alive (j.ct.lookupOsr k (j.selector m) targetBci) = none ∧ q = ⟨k, m, false, r⟩
  | .interpretCall k m heal fresh, q =>
    (j.counters m).compileDisabled = false ∧ j.vm.lookupUncached k (j.selector m) = some m ∧
      j.reuseRequest k m heal fresh q
  | .uncommonTrap id _ _ r, q => ∃ nm, j.ct.get id = some nm ∧ nm.state = .alive ∧
      match nm.blockMethod with
      | some blk => q = ⟨nm.keyKlass, blk, true, r⟩
      | none => ∃ m, j.vm.lookupUncached nm.keyKlass nm.keySelector = some m ∧
          q = ⟨nm.keyKlass, m, false, r⟩
  | _, _ => False

section Steps

variable {j j' : Jit} {k m id : Nat}

theorem setCounters_effect {asks : Request → Prop} (hc : Coherent j.ct) (hcache : CacheOk j.vm)
    {c : Counters} (hc' : SameFlags (j.counters m) c) : Effect asks j (j.setCounters m c) := by
  refine .of_same ⟨rfl, rfl, rfl, fun _ => rfl⟩ hc hcache rfl fun a => ?_
  simp only [Jit.setCounters, Function.update_apply]
  split
  · next ha => exact ha ▸ hc'
  · exact ⟨rfl, rfl⟩

theorem lookup_effect {asks : Request → Prop} (hc : Coherent j.ct) (hcache : CacheOk j.vm)
    (k s : Addr) :
    ∃ j', j.lookup k s = (j.vm.lookupUncached k s, j') ∧ Effect asks j j' ∧ j'.ct = j.ct ∧
      j'.counters = j.counters := by
  obtain ⟨c, heq, hcache'⟩ := lookup_eq hcache k s
  refine ⟨{ j with vm := { j.vm with lookupCache := c } }, ?_, ?_, rfl, rfl⟩
  · unfold Jit.lookup
    rw [heq]
  · exact .of_same ⟨rfl, rfl, rfl, fun _ => rfl⟩ hc hcache' rfl fun _ => ⟨rfl, rfl⟩

theorem saturateInvocation_effect {asks : Request → Prop} (hc : Coherent j.ct)
    (hcache : CacheOk j.vm) (m : Addr) : Effect asks j (j.saturateInvocation m) := by
  unfold Jit.saturateInvocation
  split
  · exact .refl hc hcache
  · exact setCounters_effect hc hcache ⟨rfl, rfl⟩

/-- One compile. -/
theorem compileMethodFull_effect (hc : Coherent j.ct) (hcache : CacheOk j.vm) (k m : Addr)
    (isBlock : Bool) (version : Nat) (osrBci : Option Nat) {r : CompileResult} (hr : r.Fresh j.ct)
    (hb : osrBci ≠ none → isBlock = false) :
    Effect (· = ⟨k, m, isBlock, r⟩) j (j.compileMethodFull k m isBlock version osrBci r).1 := by
  cases r with
  | noPermanent =>
    refine ⟨⟨rfl, rfl, rfl, fun _ => rfl⟩, hc, hcache, fun a => ?_,
      fun i nm' hget halive => .inl ⟨nm', hget, halive, rfl⟩⟩
    by_cases ha : a = m
    · exact .inr ⟨_, rfl, ha.symm, rfl⟩
    · refine .inl ?_
      simp only [Jit.compileMethodFull, Jit.setCompileDisabled, Jit.setCounters,
        Function.update_of_ne ha]
      exact ⟨rfl, rfl⟩
  | notNow => exact .refl hc hcache
  | exhausted => exact .of_same ⟨rfl, rfl, rfl, fun _ => rfl⟩ hc hcache rfl fun _ => ⟨rfl, rfl⟩
  | compiled b =>
    have hspec := @publish_spec _ hc (j.newNmethod k m isBlock version osrBci b) rfl
      (fun hn => by
        change (if isBlock then some m else none) = none
        rw [hb hn]
        rfl) hr.1 hr.2
    obtain ⟨-, hc', hget'⟩ := hspec
    have hpublish : Effect (· = ⟨k, m, isBlock, .compiled b⟩) j
        { j with ct := (Jit.publish j.ct (j.newNmethod k m isBlock version osrBci b)).1 } := by
      refine ⟨⟨rfl, rfl, rfl, fun _ => rfl⟩, hc', hcache, fun _ => .inl ⟨rfl, rfl⟩,
        fun i nm' hget halive => ?_⟩
      change (Jit.publish j.ct _).1.get i = some nm' at hget
      rw [hget'] at hget
      split at hget
      · cases hget
        exact .inr ⟨_, b, rfl, rfl, rfl⟩
      · exact .inl ⟨nm', hget, halive, rfl⟩
    exact hpublish.trans (saturateInvocation_effect hpublish.coherent hpublish.cache m)

/-- A table with fewer Alive nmethods. -/
theorem effect_of_fewer {asks : Request → Prop} {ct : CodeTable} (hc : Coherent ct)
    (hcache : CacheOk j.vm)
    (hfewer : ∀ i nm', ct.get i = some nm' → nm'.state = .alive →
      ∃ nm, j.ct.get i = some nm ∧ nm.state = .alive ∧ nm.origin = nm'.origin) :
    Effect asks j { j with ct } :=
  ⟨⟨rfl, rfl, rfl, fun _ => rfl⟩, hc, hcache, fun _ => .inl ⟨rfl, rfl⟩,
    fun i nm' hget halive => .inl (hfewer i nm' hget halive)⟩

theorem retire_effect {asks : Request → Prop} (hc : Coherent j.ct) (hcache : CacheOk j.vm)
    {st : NmState} (hst : st ≠ .alive) {ct : CodeTable} (he : j.ct.retire id st = some ct) :
    Effect asks j { j with ct } := by
  obtain ⟨nm, -, hg, -⟩ := retire_spec he
  refine effect_of_fewer (hc.retire he) hcache fun i nm' hget halive => ?_
  rw [hg] at hget
  split at hget
  · cases hget
    exact absurd halive hst
  · exact ⟨nm', hget, halive, rfl⟩

theorem makeNotEntrantLazy_effect {asks : Request → Prop} (hc : Coherent j.ct)
    (hcache : CacheOk j.vm) (he : j.makeNotEntrantLazy id = some j') : Effect asks j j' := by
  unfold Jit.makeNotEntrantLazy at he
  obtain ⟨ct, hct, rfl⟩ := Option.map_eq_some_iff.mp he
  exact retire_effect hc hcache NmState.noConfusion hct

/-- Capping the version changes no origin. -/
theorem replaceNmethod_effect {asks : Request → Prop} (hc : Coherent j.ct) (hcache : CacheOk j.vm)
    {compiled : Option Nat} (he : Jit.replaceNmethod id (j, compiled) = some j') :
    Effect asks j j' := by
  cases compiled with
  | some newId => exact makeNotEntrantLazy_effect hc hcache he
  | none =>
    unfold Jit.replaceNmethod at he
    obtain ⟨nm, hget, rfl⟩ := Option.map_eq_some_iff.mp he
    have hg : ∀ i, CodeTable.get { j.ct with
        slots := j.ct.slots.set id (some { nm with version := maxVersions }) } i =
        if i = id then some { nm with version := maxVersions } else j.ct.get i :=
      get_set j.ct.slots (lt_of_get hget) rfl
    have hfrom : ∀ i nm', CodeTable.get { j.ct with
        slots := j.ct.slots.set id (some { nm with version := maxVersions }) } i = some nm' →
        ∃ nm₀, j.ct.get i = some nm₀ ∧ SameIndex nm₀ nm' ∧ nm₀.origin = nm'.origin := by
      intro i nm' hget'
      rw [hg] at hget'
      split at hget'
      next hi =>
        cases hget'
        exact ⟨nm, hi ▸ hget, ⟨rfl, rfl, rfl, rfl, rfl, rfl⟩, rfl⟩
      next => exact ⟨nm', hget', ⟨rfl, rfl, rfl, rfl, rfl, rfl⟩, rfl⟩
    have hto : ∀ i nm₀, j.ct.get i = some nm₀ → ∃ nm', CodeTable.get { j.ct with
        slots := j.ct.slots.set id (some { nm with version := maxVersions }) } i = some nm' ∧
        SameIndex nm₀ nm' := by
      intro i nm₀ hget₀
      rw [hg]
      split
      next hi =>
        rw [hi, hget] at hget₀
        cases hget₀
        exact ⟨_, rfl, rfl, rfl, rfl, rfl, rfl, rfl⟩
      next => exact ⟨nm₀, hget₀, rfl, rfl, rfl, rfl, rfl, rfl⟩
    refine effect_of_fewer (hc.congr rfl rfl rfl rfl hto fun i nm' hget' => ?_) hcache
      fun i nm' hget' halive => ?_
    · obtain ⟨nm₀, hget₀, hsame, -⟩ := hfrom i nm' hget'
      exact ⟨nm₀, hget₀, hsame⟩
    · obtain ⟨nm₀, hget₀, ⟨-, hst, -⟩, horigin⟩ := hfrom i nm' hget'
      exact ⟨nm₀, hget₀, hst.symm.trans halive, horigin⟩

/-- Reusing, healing or compiling. -/
theorem reuseOrCompile_effect (hc : Coherent j.ct) (hcache : CacheOk j.vm)
    {heal fresh : CompileResult} (hheal : heal.Fresh j.ct) (hfresh : fresh.Fresh j.ct)
    {entered : Option Nat} (he : j.reuseOrCompile k m heal fresh = some (j', entered)) :
    Effect (j.reuseRequest k m heal fresh) j j' := by
  have hrequest : ∀ q, j.reuseRequest k m heal fresh q ↔
      match j.alive (j.ct.lookup k (j.selector m)) with
      | none => q = ⟨k, m, false, fresh⟩
      | some (_, nm) => nm.isHalfWarmOsr = true ∧ q = ⟨k, m, false, heal⟩ := fun _ => Iff.rfl
  unfold Jit.reuseOrCompile at he
  cases halive : j.alive (j.ct.lookup k (j.selector m)) with
  | none =>
    simp only [halive] at he hrequest
    have heffect := compileMethodFull_effect hc hcache k m false 0 none hfresh fun _ => rfl
    have hj' : (j.compileMethodFull k m false 0 none fresh).1 = j' :=
      congrArg Prod.fst (Option.some.inj he)
    rw [← hj']
    exact heffect.mono fun q hq => (hrequest q).mpr hq
  | some p =>
    obtain ⟨id, nm⟩ := p
    simp only [halive] at he hrequest
    by_cases hwarm : nm.isHalfWarmOsr = true
    · rw [if_pos hwarm] at he
      have hcompile := compileMethodFull_effect hc hcache k m false (nm.version + 1) none hheal
        fun _ => rfl
      have heffect : Effect (j.reuseRequest k m heal fresh) j
          (j.compileMethodFull k m false (nm.version + 1) none heal).1 :=
        hcompile.mono fun q hq => (hrequest q).mpr ⟨hwarm, hq⟩
      simp only [Jit.compileMethodVersioned] at he
      cases hcomp : j.compileMethodFull k m false (nm.version + 1) none heal with
      | mk j₁ newId =>
        rw [hcomp] at he heffect
        cases newId with
        | none =>
          cases he
          exact heffect
        | some newId =>
          obtain ⟨j₂, hlazy, heq⟩ := Option.map_eq_some_iff.mp he
          cases heq
          exact heffect.trans (makeNotEntrantLazy_effect heffect.coherent heffect.cache hlazy)
    · rw [if_neg hwarm] at he
      cases he
      exact .refl hc hcache

/-- Seeding writes an inline cache. -/
theorem seedSite_effect {asks : Request → Prop} (hc : Coherent j.ct) (hcache : CacheOk j.vm)
    (icSite : Option (Addr × Nat)) (k id : Nat) : Effect asks j (j.seedSite icSite k id) := by
  unfold Jit.seedSite
  split
  · exact .refl hc hcache
  · next caller icIdx =>
    split
    · exact .refl hc hcache
    · split
      · refine .of_same ⟨rfl, rfl, rfl, fun a => ?_⟩ hc hcache rfl fun _ => ⟨rfl, rfl⟩
        simp only [Vm.setSite, Function.update_apply]
        split
        · next ha =>
          subst ha
          rw [Option.map_map]
          rfl
        · rfl
      · exact .refl hc hcache

theorem activateMethod_effect (hc : Coherent j.ct) (hcache : CacheOk j.vm)
    {icSite : Option (Addr × Nat)} {heal fresh : CompileResult} (hheal : heal.Fresh j.ct)
    (hfresh : fresh.Fresh j.ct) {entered : Option Nat}
    (he : j.activateMethod k m icSite heal fresh = some (j', entered)) :
    Effect ((Op.activate k m icSite heal fresh).asks j) j j' := by
  unfold Jit.activateMethod at he
  have hbump : Effect ((Op.activate k m icSite heal fresh).asks j) j (j.bumpInvocation m).2 :=
    setCounters_effect hc hcache ⟨rfl, rfl⟩
  by_cases hgate : j.compileGate m = true
  · simp only [hgate, if_true] at he
    obtain ⟨⟨j₁, compiled⟩, hr, heq⟩ := Option.map_eq_some_iff.mp he
    have hcompile : Effect ((Op.activate k m icSite heal fresh).asks j) (j.bumpInvocation m).2 j₁ :=
      (reuseOrCompile_effect hbump.coherent hbump.cache hheal hfresh hr).mono
        fun q hq => ⟨hgate, hq⟩
    cases compiled with
    | none =>
      cases heq
      exact hbump.trans hcompile
    | some id =>
      cases heq
      exact (hbump.trans hcompile).trans
        (seedSite_effect hcompile.coherent hcompile.cache icSite k id)
  · simp only [hgate] at he
    cases he
    exact hbump

theorem rtOsrRequest_effect (hc : Coherent j.ct) (hcache : CacheOk j.vm) {targetBci : Nat}
    {r : CompileResult} (hr : r.Fresh j.ct) :
    Effect ((Op.osrRequest k m targetBci r).asks j) j (j.rtOsrRequest k m targetBci r).1 := by
  unfold Jit.rtOsrRequest
  set j₀ := j.setCounters m { j.counters m with loopCount := 0 } with hj₀
  have hreset : Effect ((Op.osrRequest k m targetBci r).asks j) j j₀ :=
    setCounters_effect hc hcache ⟨rfl, rfl⟩
  simp only
  by_cases hoff : (j₀.threshold.isNone || !j₀.compileEnabled) = true
  · rw [if_pos hoff]
    exact hreset
  · rw [if_neg hoff]
    obtain ⟨j₁, hlookup, heffect, hct, -⟩ := @lookup_effect j₀
      ((Op.osrRequest k m targetBci r).asks j) hc hcache k (j₀.selector m)
    rw [hlookup]
    simp only
    by_cases hfound : j₀.vm.lookupUncached k (j₀.selector m) = some m
    · rw [if_neg (not_not.mpr hfound)]
      have hsel : j₁.selector m = j.selector m := congrFun heffect.world.selector m
      cases halive : j₁.alive (j₁.ct.lookupOsr k (j₁.selector m) targetBci) with
      | some p =>
        simp only
        split
        · exact hreset.trans heffect
        · exact hreset.trans heffect
      | none =>
        have hnone : j.alive (j.ct.lookupOsr k (j.selector m) targetBci) = none := by
          have hget : ∀ o, j₁.alive o = j₀.alive o := fun o => by
            unfold Jit.alive
            rw [hct]
          rw [hsel, hget, hct] at halive
          exact halive
        have hon : j.threshold.isSome = true ∧ j.compileEnabled = true := by
          have hthreshold : j₀.threshold = j.threshold := rfl
          have henabled : j₀.compileEnabled = j.compileEnabled := rfl
          rw [hthreshold, henabled, Bool.or_eq_true, not_or, Bool.not_eq_true',
            Bool.not_eq_true, Bool.not_eq_false] at hoff
          exact ⟨Option.isNone_eq_false_iff.mp hoff.1, hoff.2⟩
        refine (hreset.trans heffect).trans ?_
        exact (compileMethodFull_effect heffect.coherent heffect.cache k m false _ (some targetBci)
          (hct ▸ hr) fun _ => rfl).mono fun q hq => ⟨hon.1, hon.2, hfound, hnone, hq⟩
    · rw [if_pos hfound]
      exact hreset.trans heffect

/-- Which compile is asked for depends on the table and on words no lookup writes. -/
theorem reuseRequest_congr {j₁ : Jit} (hct : j₁.ct = j.ct) (hworld : SameWorld j j₁) (k m : Addr)
    (heal fresh : CompileResult) :
    j₁.reuseRequest k m heal fresh = j.reuseRequest k m heal fresh := by
  have halive : ∀ o, j₁.alive o = j.alive o := fun o => by
    unfold Jit.alive
    rw [hct]
  funext q
  unfold Jit.reuseRequest
  rw [halive, hct, hworld.selector]

theorem interpretCallHatch_effect (hc : Coherent j.ct) (hcache : CacheOk j.vm)
    {heal fresh : CompileResult} (hheal : heal.Fresh j.ct) (hfresh : fresh.Fresh j.ct)
    {entered : Option Nat} (he : j.interpretCallHatch k m heal fresh = some (j', entered)) :
    Effect ((Op.interpretCall k m heal fresh).asks j) j j' := by
  unfold Jit.interpretCallHatch at he
  cases hthreshold : j.threshold with
  | none =>
    simp only [hthreshold] at he
    cases he
    exact .refl hc hcache
  | some n =>
    simp only [hthreshold] at he
    set j₀ := (j.bumpInvocation m).2 with hj₀
    have hbump : Effect ((Op.interpretCall k m heal fresh).asks j) j j₀ :=
      setCounters_effect hc hcache ⟨rfl, rfl⟩
    by_cases hdue : n ≤ (j.bumpInvocation m).1 ∧ (j₀.counters m).compileDisabled = false
    · rw [if_pos hdue] at he
      have hdisabled : (j.counters m).compileDisabled = false := by
        have hflag := hdue.2
        rw [hj₀] at hflag
        simpa [Jit.bumpInvocation, Jit.setCounters] using hflag
      obtain ⟨j₁, hlookup, heffect, hct, -⟩ := @lookup_effect j₀
        ((Op.interpretCall k m heal fresh).asks j) hbump.coherent hbump.cache k (j₀.selector m)
      rw [hlookup] at he
      simp only at he
      by_cases hfound : j₀.vm.lookupUncached k (j₀.selector m) = some m
      · rw [if_neg (not_not.mpr hfound)] at he
        have hsame : j₁.reuseRequest k m heal fresh = j.reuseRequest k m heal fresh :=
          (reuseRequest_congr hct heffect.world k m heal fresh).trans
            (reuseRequest_congr (show j₀.ct = j.ct from rfl) hbump.world k m heal fresh)
        refine (hbump.trans heffect).trans ((reuseOrCompile_effect heffect.coherent heffect.cache
          (hct ▸ hheal) (hct ▸ hfresh) he).mono fun q hq => ⟨hdisabled, hfound, ?_⟩)
        rw [← hsame]
        exact hq
      · rw [if_pos hfound] at he
        cases he
        exact hbump.trans heffect
    · rw [if_neg hdue, Option.some.injEq, Prod.mk.injEq] at he
      rw [← he.1]
      exact hbump

theorem noteUncommonTrap_effect (hc : Coherent j.ct) (hcache : CacheOk j.vm) {due changed : Bool}
    {r : CompileResult} (hr : r.Fresh j.ct) (he : j.noteUncommonTrap id due changed r = some j') :
    Effect ((Op.uncommonTrap id due changed r).asks j) j j' := by
  unfold Jit.noteUncommonTrap at he
  cases halive : (if j.compileEnabled then j.alive (some id) else none) with
  | none =>
    simp only [halive] at he
    cases he
    exact .refl hc hcache
  | some p =>
    obtain ⟨id', nm⟩ := p
    simp only [halive] at he
    have hnm : j.ct.get id = some nm ∧ nm.state = .alive := by
      by_cases hon : j.compileEnabled = true
      · rw [if_pos hon] at halive
        obtain ⟨hid, hget, hst⟩ := alive_eq_some halive
        cases hid
        exact ⟨hget, hst⟩
      · rw [if_neg hon] at halive
        cases halive
    by_cases hlate : (!due || decide (maxVersions ≤ nm.version)) = true
    · rw [if_pos hlate] at he
      cases he
      exact .refl hc hcache
    · rw [if_neg hlate] at he
      cases hblock : nm.blockMethod with
      | some blk =>
        simp only [hblock] at he
        cases changed with
        | false =>
          cases he
          exact .refl hc hcache
        | true =>
          simp only [if_true] at he
          have hcompile : Effect ((Op.uncommonTrap id due true r).asks j) j
              (j.compileMethodFull nm.keyKlass blk true (nm.version + 1) none r).1 :=
            (compileMethodFull_effect hc hcache nm.keyKlass blk true (nm.version + 1) none hr
              fun hn => absurd rfl hn).mono fun q hq => ⟨nm, hnm.1, hnm.2, by rw [hblock]; exact hq⟩
          exact hcompile.trans (replaceNmethod_effect hcompile.coherent hcompile.cache he)
      | none =>
        simp only [hblock] at he
        obtain ⟨j₁, hlookup, heffect, hct, -⟩ := @lookup_effect j
          ((Op.uncommonTrap id due changed r).asks j) hc hcache nm.keyKlass nm.keySelector
        rw [hlookup] at he
        cases hfound : j.vm.lookupUncached nm.keyKlass nm.keySelector with
        | none =>
          simp only [hfound] at he
          cases he
          exact heffect
        | some m =>
          simp only [hfound] at he
          cases changed with
          | false =>
            cases he
            exact heffect
          | true =>
            simp only [if_true] at he
            have hcompile : Effect ((Op.uncommonTrap id due true r).asks j) j₁
                (j₁.compileMethodFull nm.keyKlass m false (nm.version + 1) none r).1 :=
              (compileMethodFull_effect heffect.coherent heffect.cache nm.keyKlass m false
                (nm.version + 1) none (hct ▸ hr) fun _ => rfl).mono
                fun q hq => ⟨nm, hnm.1, hnm.2, by rw [hblock]; exact ⟨m, hfound, hq⟩⟩
            exact (heffect.trans hcompile).trans
              (replaceNmethod_effect hcompile.coherent hcompile.cache he)

theorem flush_effect {asks : Request → Prop} (hc : Coherent j.ct) (hcache : CacheOk j.vm)
    (he : j.flush id = some j') : Effect asks j j' := by
  unfold Jit.flush at he
  obtain ⟨⟨ct₂, nm⟩, hbind, rfl⟩ := Option.map_eq_some_iff.mp he
  obtain ⟨ct₁, hz, hr⟩ := Option.bind_eq_some_iff.mp hbind
  have hretire : Effect asks j { j with ct := ct₁ } :=
    retire_effect hc hcache NmState.noConfusion hz
  obtain ⟨nm₀, -, hg₁, -⟩ := retire_spec hz
  obtain ⟨hget, hg₂, -⟩ := remove_spec hr
  have hzombie : nm.state ≠ .alive := by
    rw [hg₁, if_pos rfl] at hget
    cases hget
    exact NmState.noConfusion
  refine hretire.trans (effect_of_fewer (hretire.coherent.remove hr hzombie) hretire.cache
    fun i nm' hget' halive => ?_)
  rw [hg₂] at hget'
  split at hget'
  · cases hget'
  · exact ⟨nm', hget', halive, rfl⟩

/-- Every operation but an install and a collection. -/
theorem exec_effect (hc : Coherent j.ct) (hcache : CacheOk j.vm) {op : Op} (hfresh : op.Fresh j.ct)
    (hinstall : ∀ gc holder selector m, op ≠ .install gc holder selector m)
    (hcollect : ∀ ρ, op ≠ .collect ρ) (he : j.exec op = some j') : Effect (op.asks j) j j' := by
  cases op with
  | activate k m icSite heal fresh =>
    obtain ⟨⟨j₁, entered⟩, hact, rfl⟩ := Option.map_eq_some_iff.mp he
    exact activateMethod_effect hc hcache hfresh.1 hfresh.2 hact
  | osrRequest k m targetBci r =>
    cases he
    exact rtOsrRequest_effect hc hcache hfresh
  | interpretCall k m heal fresh =>
    obtain ⟨⟨j₁, entered⟩, hcall, rfl⟩ := Option.map_eq_some_iff.mp he
    exact interpretCallHatch_effect hc hcache hfresh.1 hfresh.2 hcall
  | uncommonTrap id due changed r => exact noteUncommonTrap_effect hc hcache hfresh he
  | lookup k s =>
    obtain ⟨j₁, hlookup, heffect, -, -⟩ := lookup_effect hc hcache k s
    have hj' : (j.lookup k s).2 = j' := Option.some.inj he
    rw [hlookup] at hj'
    rw [← hj']
    exact heffect
  | install gc holder selector m => exact absurd rfl (hinstall gc holder selector m)
  | collect ρ => exact absurd rfl (hcollect ρ)
  | flush id => exact flush_effect hc hcache he
  | setCompileEnabled on =>
    cases he
    exact .of_same ⟨rfl, rfl, rfl, fun _ => rfl⟩ hc hcache rfl fun _ => ⟨rfl, rfl⟩

/-! ## What is entered -/

/-- The nmethod of a slot is Alive. -/
def AliveAt (j : Jit) (id : Nat) : Prop := ∃ nm, j.ct.get id = some nm ∧ nm.state = .alive

theorem aliveAt_of_alive {o : Option Nat} {nm : Nmethod} (h : j.alive o = some (id, nm)) :
    AliveAt j id :=
  ⟨nm, (alive_eq_some h).2⟩

theorem compileMethodFull_aliveAt (hc : Coherent j.ct) {isBlock : Bool} {version : Nat}
    {osrBci : Option Nat} {r : CompileResult} (hr : r.Fresh j.ct)
    (hb : osrBci ≠ none → isBlock = false)
    (he : j.compileMethodFull k m isBlock version osrBci r = (j', some id)) :
    AliveAt j' id ∧ j.ct.get id = none := by
  cases r with
  | noPermanent => simp [Jit.compileMethodFull] at he
  | notNow => simp [Jit.compileMethodFull] at he
  | exhausted => simp [Jit.compileMethodFull] at he
  | compiled b =>
    simp only [Jit.compileMethodFull, Prod.mk.injEq, Option.some.injEq] at he
    obtain ⟨rfl, rfl⟩ := he
    obtain ⟨hid, -, hget⟩ := @publish_spec _ hc (j.newNmethod k m isBlock version osrBci b) rfl
      (fun hn => by
        change (if isBlock then some m else none) = none
        rw [hb hn]
        rfl) hr.1 hr.2
    obtain ⟨c, hc'⟩ := saturateInvocation_eq
      { j with ct := (Jit.publish j.ct (j.newNmethod k m isBlock version osrBci b)).1 } m
    rw [hc']
    exact ⟨⟨_, (hget _).trans (if_pos hid), rfl⟩, by rw [hid]; exact get_freeSlot⟩

theorem reuseOrCompile_aliveAt (hc : Coherent j.ct) {heal fresh : CompileResult}
    (hheal : heal.Fresh j.ct) (hfresh : fresh.Fresh j.ct)
    (he : j.reuseOrCompile k m heal fresh = some (j', some id)) : AliveAt j' id := by
  unfold Jit.reuseOrCompile at he
  cases halive : j.alive (j.ct.lookup k (j.selector m)) with
  | none =>
    simp only [halive, Option.some.injEq, Jit.compileMethod, Jit.compileMethodVersioned] at he
    exact (compileMethodFull_aliveAt hc hfresh (fun _ => rfl) he).1
  | some p =>
    obtain ⟨old, nm⟩ := p
    simp only [halive] at he
    by_cases hwarm : nm.isHalfWarmOsr = true
    · rw [if_pos hwarm] at he
      simp only [Jit.compileMethodVersioned] at he
      cases hcomp : j.compileMethodFull k m false (nm.version + 1) none heal with
      | mk j₁ newId =>
        rw [hcomp] at he
        cases newId with
        | none =>
          simp only [Option.some.injEq, Prod.mk.injEq] at he
          obtain ⟨rfl, rfl⟩ := he
          -- the old code stays
          have hct : j₁.ct = j.ct := by
            cases heal with
            | compiled b => simp [Jit.compileMethodFull] at hcomp
            | _ =>
              simp only [Jit.compileMethodFull, Prod.mk.injEq, and_true] at hcomp
              exact (congrArg Jit.ct hcomp).symm
          obtain ⟨nm', hget, hst⟩ := aliveAt_of_alive halive
          exact ⟨nm', by rw [hct]; exact hget, hst⟩
        | some newId =>
          obtain ⟨j₂, hlazy, heq⟩ := Option.map_eq_some_iff.mp he
          cases heq
          obtain ⟨⟨nm', hget, hst⟩, hfree⟩ := compileMethodFull_aliveAt hc hheal (fun _ => rfl) hcomp
          unfold Jit.makeNotEntrantLazy at hlazy
          obtain ⟨ct, hct, rfl⟩ := Option.map_eq_some_iff.mp hlazy
          obtain ⟨nm₀, -, hg, -⟩ := retire_spec hct
          have hne : id ≠ old := by
            rintro rfl
            obtain ⟨nm'', hget'', -⟩ := aliveAt_of_alive halive
            rw [hfree] at hget''
            cases hget''
          exact ⟨nm', (hg id).trans ((if_neg hne).trans hget), hst⟩
    · rw [if_neg hwarm] at he
      cases he
      exact aliveAt_of_alive halive

theorem activateMethod_aliveAt (hc : Coherent j.ct) {icSite : Option (Addr × Nat)}
    {heal fresh : CompileResult} (hheal : heal.Fresh j.ct) (hfresh : fresh.Fresh j.ct)
    (he : j.activateMethod k m icSite heal fresh = some (j', some id)) : AliveAt j' id := by
  unfold Jit.activateMethod at he
  by_cases hgate : j.compileGate m = true
  · simp only [hgate, if_true] at he
    obtain ⟨⟨j₁, compiled⟩, hr, heq⟩ := Option.map_eq_some_iff.mp he
    cases compiled with
    | none => cases heq
    | some id' =>
      cases heq
      have hct : (j₁.seedSite icSite k id).ct = j₁.ct := by
        unfold Jit.seedSite
        split
        · rfl
        · split
          · rfl
          · split <;> rfl
      obtain ⟨nm, hget, hst⟩ :=
        reuseOrCompile_aliveAt (j := (j.bumpInvocation m).2) hc hheal hfresh hr
      exact ⟨nm, by rw [hct]; exact hget, hst⟩
  · simp only [hgate, Bool.false_eq_true, if_false, Option.some.injEq, Prod.mk.injEq, reduceCtorEq,
      and_false] at he

theorem rtOsrRequest_aliveAt (hc : Coherent j.ct) (hcache : CacheOk j.vm) {targetBci : Nat}
    {r : CompileResult} (hr : r.Fresh j.ct) (he : j.rtOsrRequest k m targetBci r = (j', some id)) :
    AliveAt j' id := by
  unfold Jit.rtOsrRequest at he
  set j₀ := j.setCounters m { j.counters m with loopCount := 0 } with hj₀
  simp only at he
  by_cases hoff : (j₀.threshold.isNone || !j₀.compileEnabled) = true
  · rw [if_pos hoff, Prod.mk.injEq] at he
    cases he.2
  · rw [if_neg hoff] at he
    obtain ⟨j₁, hlookup, heffect, hct, -⟩ := @lookup_effect j₀ (fun _ => False) hc hcache k
      (j₀.selector m)
    rw [hlookup] at he
    simp only at he
    by_cases hfound : j₀.vm.lookupUncached k (j₀.selector m) = some m
    · rw [if_neg (not_not.mpr hfound)] at he
      cases halive : j₁.alive (j₁.ct.lookupOsr k (j₁.selector m) targetBci) with
      | some p =>
        obtain ⟨old, nm⟩ := p
        simp only [halive] at he
        split at he
        · cases he
        · cases he
          exact aliveAt_of_alive halive
      | none =>
        simp only [halive, Jit.compileMethodOsr] at he
        exact (compileMethodFull_aliveAt heffect.coherent (hct ▸ hr) (fun _ => rfl) he).1
    · rw [if_pos hfound, Prod.mk.injEq] at he
      cases he.2

end Steps

/-! ## Collections -/

section Collections

variable {ρ : Equiv.Perm Addr}

/-- `install_method`'s collection, if its allocation runs one; with `some ρ` it is
`Jit.collect`. -/
def Jit.collected (j : Jit) (gc : Option (Equiv.Perm Addr)) : Jit :=
  let ρ := gc.getD (Equiv.refl Addr)
  { j with
    vm := j.vm.collect ρ
    ct := j.ct.collected gc
    selector := fun a => ρ (j.selector (ρ.symm a))
    counters := fun a => j.counters (ρ.symm a) }

def Origin.move (ρ : Equiv.Perm Addr) (o : Origin) : Origin :=
  ⟨ρ o.method, ρ o.keyKlass, ρ o.keySelector, o.blockMethod.map ρ, o.inlined.map ρ,
    o.inlineDeps.map fun p => (ρ p.1, ρ p.2)⟩

theorem Origin.move_refl (o : Origin) : o.move (Equiv.refl Addr) = o := by
  cases o
  simp [Origin.move]

theorem superchainContains_collect (klasses : Addr → Option Klass) (ρ : Equiv.Perm Addr)
    (fuel : Nat) (k holder : Addr) :
    superchainContains (fun a => (klasses (ρ.symm a)).map (Klass.move ρ)) fuel (ρ k) (ρ holder) =
      superchainContains klasses fuel k holder := by
  induction fuel generalizing k with
  | zero => rfl
  | succ fuel ih =>
    simp only [superchainContains, EmbeddingLike.apply_eq_iff_eq, Equiv.symm_apply_apply]
    split
    · rfl
    · cases klasses k with
      | none => rfl
      | some klass =>
        simp only [Option.map_some, Klass.move]
        cases klass.superclass with
        | nil => rfl
        | smi v => rfl
        | ref s => exact ih s

theorem pairAffected_collect (vm : Vm) (ρ : Equiv.Perm Addr) (holder selector : Addr)
    (p : Addr × Addr) :
    pairAffected (vm.collect ρ) (ρ holder) (ρ selector) (ρ p.1, ρ p.2) =
      pairAffected vm holder selector p := by
  unfold pairAffected
  rw [show superchainContains (vm.collect ρ).klasses (vm.collect ρ).depth (ρ p.1) (ρ holder) =
    superchainContains vm.klasses vm.depth p.1 holder from superchainContains_collect ..]
  simp only [EmbeddingLike.apply_eq_iff_eq]

variable {j : Jit} {gc : Option (Equiv.Perm Addr)}

theorem methods_collected {m : Addr} {meth : Method} (h : j.vm.methods m = some meth) :
    (j.collected gc).vm.methods (gc.getD (Equiv.refl Addr) m)
      = some (meth.move (gc.getD (Equiv.refl Addr))) := by
  change (j.vm.methods ((gc.getD (Equiv.refl Addr)).symm _)).map _ = _
  rw [Equiv.symm_apply_apply, h]
  rfl

theorem Inherits.collected {p : Addr × Addr} {m : Addr} (h : Inherits j p m) :
    Inherits (j.collected gc)
      (gc.getD (Equiv.refl Addr) p.1, gc.getD (Equiv.refl Addr) p.2)
      (gc.getD (Equiv.refl Addr) m) := by
  obtain ⟨meth, holder, hmeth, hholder, hblock, hpair⟩ := h
  set ρ := gc.getD (Equiv.refl Addr) with hρ
  refine ⟨meth.move ρ, ρ holder, methods_collected hmeth, ?_, hblock, ?_⟩
  · simp only [Method.move, hholder, Word.move]
  · have hsel : (j.collected gc).selector (ρ m) = ρ (j.selector m) := by
      change ρ (j.selector (ρ.symm (ρ m))) = _
      rw [Equiv.symm_apply_apply]
    rw [hsel]
    exact (pairAffected_collect j.vm ρ holder (j.selector m) p).trans hpair

theorem HeldByClass.collected (h : HeldByClass j) (gc : Option (Equiv.Perm Addr)) :
    HeldByClass (j.collected gc) := by
  intro k klass' s m hk hm
  set ρ := gc.getD (Equiv.refl Addr) with hρ
  change (j.vm.klasses (ρ.symm k)).map (Klass.move ρ) = some klass' at hk
  obtain ⟨klass, hk₀, rfl⟩ := Option.map_eq_some_iff.mp hk
  change (klass.methods (ρ.symm s)).map ρ = some m at hm
  obtain ⟨m₀, hm₀, rfl⟩ := Option.map_eq_some_iff.mp hm
  obtain ⟨meth, hmeth, hholder, hblock, hsel⟩ := h (ρ.symm k) klass (ρ.symm s) m₀ hk₀ hm₀
  refine ⟨meth.move ρ, methods_collected hmeth, ?_, hblock, ?_⟩
  · simp only [Method.move, hholder, Word.move, Equiv.apply_symm_apply]
  · change ρ (j.selector (ρ.symm (ρ m₀))) = s
    rw [Equiv.symm_apply_apply, hsel, Equiv.apply_symm_apply]

theorem get_collected {i : Nat} {nm' : Nmethod} (h : (j.collected gc).ct.get i = some nm') :
    ∃ nm, j.ct.get i = some nm ∧ nm.state = nm'.state ∧
      nm'.origin = nm.origin.move (gc.getD (Equiv.refl Addr)) := by
  cases gc with
  | none => exact ⟨nm', h, rfl, (Origin.move_refl _).symm⟩
  | some ρ =>
    change (j.ct.relocate ρ).get i = some nm' at h
    rw [get_relocate] at h
    obtain ⟨nm, hget, rfl⟩ := Option.map_eq_some_iff.mp h
    exact ⟨nm, hget, rfl, rfl⟩

end Collections

end WinVm.Codecache
