import WinVm.Debugger.Breakpoints
import WinVm.Interpreter.IcInvariant

/-!
# A standing breakpoint

`Watched` is what holds along a run: every Alive nmethod was compiled, and every scope in it
inlined, under a recorded pair that depends on the method; and of every breakpoint that stands,
the method keeps both bits, the table keeps its row, and no Alive nmethod has the method as its
root or in an inlined scope. Setting a breakpoint establishes the last point by retiring all
dependents. Nothing that comes after may compile the method, inline it, or write its bits.

The threshold compiles ask the bit. The inliner, the OSR request and the recompilation after a
trap do not, and pinning a method writes the whole counters word (`inlined_breakpoint_missed`).

Result:

* `breakpoint_never_missed`: in runs whose acts all meet `Act.Spares`, the hook's test answers
  true at every standing breakpoint, and no nmethod that holds the method is Alive or entered.
-/

namespace WinVm.Debugger

open WinVm.Interpreter WinVm.Codecache WinVm.Compiler CodeTable

/-! ## Rows -/

section
variable {κ β : Type} [DecidableEq κ] {k k' : κ} {b : β} {rows : List (κ × β)}

theorem findRow_insertRow : findRow k (insertRow k b rows) = some b := by
  simp [findRow, insertRow]

theorem findRow_removeRow_ne (h : k ≠ k') : findRow k (removeRow k' rows) = findRow k rows := by
  unfold findRow removeRow
  congr 1
  rw [List.find?_filter]
  congr 1
  funext r
  by_cases hr : r.1 = k
  · simp [hr, h]
  · simp [hr]

theorem findRow_insertRow_ne (h : k ≠ k') :
    findRow k (insertRow k' b rows) = findRow k rows := by
  have hcons : findRow k (insertRow k' b rows) = findRow k (removeRow k' rows) := by
    simp [findRow, insertRow, removeRow, Ne.symm h]
  rw [hcons, findRow_removeRow_ne h]

theorem mem_of_findRow (h : findRow k rows = some b) : (k, b) ∈ rows := by
  unfold findRow at h
  obtain ⟨r, hr, rfl⟩ := Option.map_eq_some_iff.mp h
  have hk : r.1 = k := by simpa using List.find?_some hr
  rw [← hk]
  exact List.mem_of_find?_eq_some hr

end

/-! ## The invariant -/

/-- An nmethod, and each of its inlined scopes, depends on its method by a recorded pair. -/
def Founded (j : Jit) (o : Origin) : Prop :=
  (match o.blockMethod with
    | none => Inherits j (o.keyKlass, o.keySelector) o.method
    | some blk => o.method = blk ∧ ∃ meth, j.vm.methods blk = some meth ∧ meth.isBlock = true) ∧
  ∀ c ∈ o.inlined, ∃ p ∈ o.inlineDeps, Inherits j p c

/-- The method of `nm` is not `m`, nor is that of an inlined scope. -/
def FreeOf (m : Addr) (o : Origin) : Prop := o.method ≠ m ∧ m ∉ o.inlined

/-- No Alive nmethod holds `m`. -/
def Uncompiled (j : Jit) (m : Addr) : Prop :=
  ∀ i nm, j.ct.get i = some nm → nm.state = .alive → FreeOf m nm.origin

/-- A breakpoint that stands. -/
structure Guarded (d : Debugged) (m : Addr) (bci : Nat) : Prop where
  small : bci ≤ 65535
  active : d.active = true
  disabled : (d.jit.counters m).compileDisabled = true
  hasBp : (d.jit.counters m).hasBp = true
  row : ∃ b, findRow (d.key m bci) d.breakpoints = some b ∧
    d.symbol (d.jit.selector m) = b.selector
  method : ∃ meth h, d.jit.vm.methods m = some meth ∧ meth.holder = .ref h ∧ meth.isBlock = false
  uncompiled : Uncompiled d.jit m

structure Watched (d : Debugged) : Prop where
  coherent : Coherent d.jit.ct
  cache : CacheOk d.jit.vm
  installed : HeldByClass d.jit
  founded : ∀ i nm, d.jit.ct.get i = some nm → nm.state = .alive → Founded d.jit nm.origin
  guarded : ∀ m bci, (m, bci) ∈ d.standing → Guarded d m bci

/-- The hook halts at a standing breakpoint. -/
theorem Guarded.hitBp {d : Debugged} {m : Addr} {bci : Nat} (h : Guarded d m bci) :
    d.hitBp m bci = true := by
  obtain ⟨b, hrow, hsel⟩ := h.row
  have hhit : d.hit m bci = true := by
    unfold Debugged.hit
    rw [if_neg (Nat.not_lt.mpr h.small), hrow]
    exact decide_eq_true hsel
  rw [Debugged.hitBp, h.active, h.hasBp, hhit]
  rfl

/-! ## Acts in a run -/

def Debugged.Standing (d : Debugged) (m : Addr) : Prop := ∃ bci, (m, bci) ∈ d.standing

/-- What an act's compile comes to is what the translator splices and records. -/
def Act.Translates (d : Debugged) (act : Act) : Prop :=
  ∀ q b, d.asks act q → q.result = .compiled b →
    b.inlined = act.sites.filterMap (Site.spliced d.jit.vm d.shape d.smiKlass) ∧
    ∀ site ∈ act.sites, site.Observed d.jit ∧
      ((site.spliced d.jit.vm d.shape d.smiKlass).isSome = true →
        ∀ p ∈ site.recorded d.shape d.smiKlass, p ∈ b.inlineDeps)

/-- What the callers of an act promise: a send activates a method its receiver inherits, a method
is installed once, fresh from the compiler, and a breakpoint is set on a method found by name. -/
def Act.Promised (d : Debugged) : Act → Prop
  | .vm op _ => op.Fresh d.jit.ct ∧
    match op with
    | .activate k m _ _ _ => Inherits d.jit (k, d.jit.selector m) m
    | .install _ _ selector m => d.jit.selector m = selector ∧
        ∃ meth, d.jit.vm.methods m = some meth ∧ meth.holder = .nil ∧ meth.isBlock = false
    | _ => True
  | .activateBlock blk _ r _ => r.Fresh d.jit.ct ∧
      ∃ meth, d.jit.vm.methods blk = some meth ∧ meth.isBlock = true
  | .setBreakpoint m bci => bci ≤ 65535 ∧ ∃ k s, d.jit.vm.lookupUncached k s = some m
  | _ => True

/-- The condition: no compile of the act splices a method with a breakpoint; an OSR request and a
recompilation do not get to compile one; no method with a breakpoint is pinned, or unpinned by
the pin that disabled it; and no other method of the same identity hash has a breakpoint set or
cleared at the same bci. -/
def Act.Spares (d : Debugged) (act : Act) : Prop :=
  (∀ q b, d.asks act q → q.result = .compiled b → ∀ site ∈ act.sites, ∀ c,
    site.spliced d.jit.vm d.shape d.smiKlass = some c → ¬d.Standing c) ∧
  match act with
  | .vm (.osrRequest _ _ _ _) _ | .vm (.uncommonTrap _ _ _ _) _ =>
    ∀ q, d.asks act q → d.Standing q.method → q.result = .notNow ∨ q.result = .exhausted
  | .setBreakpoint m bci | .clearBreakpoint m bci =>
    ∀ m', (m', bci) ∈ d.standing → d.identityHash m' = d.identityHash m → m' = m
  | .pin m => ¬d.Standing m
  | .unpin m => findRow (d.identityHash m) d.pinned = some true → ¬d.Standing m
  | _ => True

/-- Runs from a VM without compiled code or breakpoints; `ok` restricts the acts. -/
inductive Runs (ok : Debugged → Act → Prop) : Debugged → Prop
  | start {d : Debugged} (hct : d.jit.ct = empty) (hcache : CacheOk d.jit.vm)
      (hinstalled : HeldByClass d.jit) (hnone : d.standing = []) : Runs ok d
  | step {d d' : Debugged} (act : Act) (h : Runs ok d) (hpromised : act.Promised d)
      (htranslates : act.Translates d) (hok : ok d act) (hexec : d.exec act = some d') : Runs ok d'

/-! ## Compiles -/

section
variable {d d' : Debugged} {j' : Jit} {m : Addr} {bci : Nat}

/-- What an act asks for is founded: its root was looked up, or promised, and its inlined scopes
are what the translator recorded. -/
theorem founded_of_translates (h : Watched d) {act : Act} (hpromised : act.Promised d)
    (htranslates : act.Translates d) {q : Request} {b : Body} (hq : d.asks act q)
    (hr : q.result = .compiled b) : Founded d.jit (q.origin (d.jit.selector q.method) b) := by
  obtain ⟨hinlined, hsites⟩ := htranslates q b hq hr
  constructor
  · cases act with
    | vm op sites =>
      cases op with
      | activate k m icSite heal fresh =>
        obtain ⟨-, hrequest⟩ := hq
        obtain ⟨rfl, rfl, hblock⟩ := reuseRequest_root hrequest
        simp only [Request.origin, hblock]
        exact hpromised.2
      | osrRequest k m targetBci r =>
        obtain ⟨-, -, hfound, -, rfl⟩ := hq
        exact h.installed.of_lookup hfound
      | interpretCall k m heal fresh =>
        obtain ⟨-, hfound, hrequest⟩ := hq
        obtain ⟨rfl, rfl, hblock⟩ := reuseRequest_root hrequest
        simp only [Request.origin, hblock]
        exact h.installed.of_lookup hfound
      | uncommonTrap id due changed r =>
        obtain ⟨nm, hget, halive, hrequest⟩ := hq
        cases hblock : nm.blockMethod with
        | none =>
          simp only [hblock] at hrequest
          obtain ⟨m, hfound, rfl⟩ := hrequest
          have hinherits := h.installed.of_lookup hfound
          obtain ⟨meth, holder, hmeth, hholder, hmblock, hpair⟩ := hinherits
          have hsel : d.jit.selector m = nm.keySelector := by
            unfold pairAffected at hpair
            rw [Bool.and_eq_true, decide_eq_true_eq] at hpair
            exact hpair.1.symm
          simp only [Request.origin, hsel]
          exact ⟨meth, holder, hmeth, hholder, hmblock, hsel ▸ hpair⟩
        | some blk =>
          simp only [hblock] at hrequest
          subst hrequest
          have hfounded := (h.founded id nm hget halive).1
          simp only [Nmethod.origin, hblock] at hfounded
          exact ⟨rfl, hfounded.2⟩
      | lookup k s => exact hq.elim
      | install gc holder selector m => exact hq.elim
      | collect ρ => exact hq.elim
      | flush id => exact hq.elim
      | setCompileEnabled on => exact hq.elim
    | activateBlock blk plain r sites =>
      obtain ⟨-, rfl⟩ := hq
      exact ⟨rfl, hpromised.2⟩
    | callCompiled id => exact hq.elim
    | setBreakpoint m bci => exact hq.elim
    | clearBreakpoint m bci => exact hq.elim
    | pin m => exact hq.elim
    | unpin m => exact hq.elim
  · intro c hc
    change c ∈ b.inlined at hc
    rw [hinlined, List.mem_filterMap] at hc
    obtain ⟨site, hmem, hspliced⟩ := hc
    obtain ⟨hobserved, hrecorded⟩ := hsites site hmem
    obtain ⟨p, hp, hinherits⟩ := Site.spliced_inherits h.installed hobserved hspliced
    exact ⟨p, hrecorded (by rw [hspliced]; rfl) p hp, hinherits⟩

/-- A compile whose root has a breakpoint is not asked for by a threshold, and where it is asked
for it does not get through. -/
theorem root_spared (h : Watched d) {act : Act} (hspares : act.Spares d) {q : Request}
    (hq : d.asks act q) (hstanding : d.Standing q.method) :
    q.result = .notNow ∨ q.result = .exhausted := by
  obtain ⟨bci, hbci⟩ := hstanding
  have hdisabled : (d.jit.counters q.method).compileDisabled = true :=
    (h.guarded q.method bci hbci).disabled
  cases act with
  | vm op sites =>
    cases op with
    | activate k m icSite heal fresh =>
      obtain ⟨hgate, hrequest⟩ := hq
      obtain ⟨-, rfl, -⟩ := reuseRequest_root hrequest
      unfold Jit.compileGate at hgate
      split at hgate
      · cases hgate
      · simp [hdisabled] at hgate
    | interpretCall k m heal fresh =>
      obtain ⟨henabled, -, hrequest⟩ := hq
      obtain ⟨-, rfl, -⟩ := reuseRequest_root hrequest
      rw [hdisabled] at henabled
      cases henabled
    | osrRequest k m targetBci r => exact hspares.2 q hq ⟨bci, hbci⟩
    | uncommonTrap id due changed r => exact hspares.2 q hq ⟨bci, hbci⟩
    | lookup k s => exact hq.elim
    | install gc holder selector m => exact hq.elim
    | collect ρ => exact hq.elim
    | flush id => exact hq.elim
    | setCompileEnabled on => exact hq.elim
  | activateBlock blk plain r sites =>
    obtain ⟨henabled, rfl⟩ := hq
    rw [hdisabled] at henabled
    cases henabled
  | callCompiled id => exact hq.elim
  | setBreakpoint m bci => exact hq.elim
  | clearBreakpoint m bci => exact hq.elim
  | pin m => exact hq.elim
  | unpin m => exact hq.elim

/-- What a compile installs holds no method with a breakpoint. -/
theorem freeOf_of_spares (h : Watched d) {act : Act} (htranslates : act.Translates d)
    (hspares : act.Spares d) {q : Request} {b : Body} (hq : d.asks act q)
    (hr : q.result = .compiled b) {selector : Addr} (hstanding : d.Standing m) :
    FreeOf m (q.origin selector b) := by
  constructor
  · rintro rfl
    rcases root_spared h hspares hq hstanding with hn | hn
    · rw [hn] at hr
      cases hr
    · rw [hn] at hr
      cases hr
  · intro hmem
    change m ∈ b.inlined at hmem
    rw [(htranslates q b hq hr).1, List.mem_filterMap] at hmem
    obtain ⟨site, hsite, hspliced⟩ := hmem
    exact hspares.1 q b hq hr site hsite m hspliced hstanding

theorem Founded.of_world {j : Jit} {o : Origin} (h : Founded j o) (hworld : SameWorld j j') :
    Founded j' o := by
  obtain ⟨hown, hinlined⟩ := h
  refine ⟨?_, fun c hc => ?_⟩
  · cases hblock : o.blockMethod with
    | none =>
      rw [hblock] at hown
      exact hworld.inherits hown
    | some blk =>
      rw [hblock] at hown
      obtain ⟨heq, meth, hmeth, hisBlock⟩ := hown
      obtain ⟨meth', hmeth', hkind⟩ := hworld.method hmeth
      exact ⟨heq, meth', hmeth', (congrArg Prod.snd hkind).trans hisBlock⟩
  · obtain ⟨p, hp, hinherits⟩ := hinlined c hc
    exact ⟨p, hp, hworld.inherits hinherits⟩

/-- An operation with founded, spared compiles. -/
theorem Watched.effect (h : Watched d) {asks : Request → Prop} (he : Effect asks d.jit j')
    (hfounded : ∀ q b, asks q → q.result = .compiled b →
      Founded d.jit (q.origin (d.jit.selector q.method) b))
    (hroot : ∀ q, asks q → d.Standing q.method → q.result ≠ .noPermanent)
    (hfree : ∀ q b, asks q → q.result = .compiled b → ∀ m, d.Standing m →
      FreeOf m (q.origin (d.jit.selector q.method) b)) : Watched { d with jit := j' } where
  coherent := he.coherent
  cache := he.cache
  installed := he.world.installed h.installed
  founded := fun i nm' hget halive => by
    rcases he.alive i nm' hget halive with ⟨nm, hget₀, halive₀, horigin⟩ | ⟨q, b, hq, hr, horigin⟩
    · exact (horigin ▸ h.founded i nm hget₀ halive₀).of_world he.world
    · exact (horigin ▸ hfounded q b hq hr).of_world he.world
  guarded := fun m bci hm => by
    have hg := h.guarded m bci hm
    have hflags : SameFlags (d.jit.counters m) (j'.counters m) := by
      rcases he.flags m with hsame | ⟨q, hq, rfl, hr⟩
      · exact hsame
      · exact absurd hr (hroot q hq ⟨bci, hm⟩)
    obtain ⟨meth, holder, hmeth, hholder, hblock⟩ := hg.method
    obtain ⟨meth', hmeth', hkind⟩ := he.world.method hmeth
    refine ⟨hg.small, hg.active, hflags.1.trans hg.disabled, hflags.2.trans hg.hasBp, ?_,
      ⟨meth', holder, hmeth', (congrArg Prod.fst hkind).trans hholder,
        (congrArg Prod.snd hkind).trans hblock⟩, fun i nm' hget halive => ?_⟩
    · obtain ⟨b, hrow, hsel⟩ := hg.row
      refine ⟨b, hrow, ?_⟩
      change d.symbol (j'.selector m) = b.selector
      rw [he.world.selector]
      exact hsel
    · rcases he.alive i nm' hget halive with ⟨nm, hget₀, halive₀, horigin⟩ | ⟨q, b, hq, hr, horigin⟩
      · exact horigin ▸ hg.uncompiled i nm hget₀ halive₀
      · exact horigin ▸ hfree q b hq hr m ⟨bci, hm⟩

/-! ## Collections and installs -/

theorem Founded.collected {j : Jit} {gc : Option (Equiv.Perm Addr)} {o : Origin}
    (h : Founded j o) : Founded (j.collected gc) (o.move (gc.getD (Equiv.refl Addr))) := by
  obtain ⟨hown, hinlined⟩ := h
  constructor
  · cases hblock : o.blockMethod with
    | none =>
      simp only [hblock] at hown
      simp only [Origin.move, hblock, Option.map_none]
      exact hown.collected
    | some blk =>
      simp only [hblock] at hown
      obtain ⟨rfl, meth, hmeth, hisBlock⟩ := hown
      simp only [Origin.move, hblock, Option.map_some, true_and]
      exact ⟨meth.move _, methods_collected hmeth, hisBlock⟩
  · intro c' hc'
    obtain ⟨c, hc, rfl⟩ := List.mem_map.mp hc'
    obtain ⟨p, hp, hinherits⟩ := hinlined c hc
    exact ⟨_, List.mem_map_of_mem hp, hinherits.collected⟩

theorem FreeOf.move {o : Origin} (h : FreeOf m o) (ρ : Equiv.Perm Addr) :
    FreeOf (ρ m) (o.move ρ) := by
  refine ⟨fun heq => h.1 (ρ.injective heq), fun hmem => ?_⟩
  obtain ⟨c, hc, heq⟩ := List.mem_map.mp hmem
  exact h.2 (ρ.injective heq ▸ hc)

/-- A collection moves the invariant. -/
theorem Watched.collected (h : Watched d) (gc : Option (Equiv.Perm Addr)) :
    Watched (d.move (gc.getD (Equiv.refl Addr)) (d.jit.collected gc)) where
  coherent := h.coherent.collected gc
  cache := CacheOk.flush rfl
  installed := h.installed.collected gc
  founded := fun i nm' hget halive => by
    obtain ⟨nm, hget₀, hstate, horigin⟩ := get_collected hget
    rw [horigin]
    exact (h.founded i nm hget₀ (hstate.trans halive)).collected
  guarded := fun m' bci hm' => by
    obtain ⟨⟨m, bci'⟩, hm, heq⟩ := List.mem_map.mp hm'
    obtain ⟨rfl, rfl⟩ := Prod.mk.inj heq
    have hg := h.guarded m bci' hm
    obtain ⟨meth, holder, hmeth, hholder, hblock⟩ := hg.method
    obtain ⟨b, hrow, hsel⟩ := hg.row
    set ρ := gc.getD (Equiv.refl Addr) with hρ
    have hcounters : (d.jit.collected gc).counters (ρ m) = d.jit.counters m := by
      change d.jit.counters (ρ.symm (ρ m)) = _
      rw [Equiv.symm_apply_apply]
    refine ⟨hg.small, hg.active, (congrArg _ hcounters).trans hg.disabled,
      (congrArg _ hcounters).trans hg.hasBp, ⟨b, ?_, ?_⟩,
      ⟨meth.move ρ, ρ holder, methods_collected hmeth, ?_, hblock⟩, fun i nm' hget halive => ?_⟩
    · have hkey : (d.move ρ (d.jit.collected gc)).key (ρ m) bci' = d.key m bci' := by
        simp only [Debugged.key, Debugged.move, Equiv.symm_apply_apply]
      rw [hkey]
      exact hrow
    · change d.symbol (ρ.symm (ρ (d.jit.selector (ρ.symm (ρ m))))) = b.selector
      rw [Equiv.symm_apply_apply, Equiv.symm_apply_apply]
      exact hsel
    · simp only [Method.move, hholder, Word.move]
    · obtain ⟨nm, hget₀, hstate, horigin⟩ := get_collected hget
      rw [horigin]
      exact (hg.uncompiled i nm hget₀ (hstate.trans halive)).move ρ

/-- The holders of the blocks a method creates are patched, no other word. -/
theorem patchBlockHolders_of_not_block (holder : Word) (depth : Nat)
    (methods : Addr → Option Method) (x : Addr) {a : Addr} {meth : Method}
    (hmeth : methods a = some meth) (hblock : meth.isBlock = false) :
    patchBlockHolders holder depth methods x a = some meth := by
  induction depth generalizing methods x with
  | zero => exact hmeth
  | succ depth ih =>
    simp only [patchBlockHolders]
    cases methods x with
    | none => exact hmeth
    | some mm =>
      refine List.foldlRecOn (motive := fun ms : Addr → Option Method => ms a = some meth) mm.literals _ hmeth
        fun ms hms w _ => ?_
      cases w with
      | nil => exact hms
      | smi v => exact hms
      | ref b =>
        cases hblk : ms b with
        | none =>
          simp only [hblk]
          exact hms
        | some blk =>
          simp only [hblk]
          split
          · next hisBlock =>
            -- the patched block is not the method at `a`
            have hne : a ≠ b := by
              rintro rfl
              rw [hms] at hblk
              cases hblk
              rw [hblock] at hisBlock
              cases hisBlock
            refine ih (setHolder ms b holder) b ?_
            simp only [setHolder, Function.update_of_ne hne]
            exact hms
          · exact hms

/-- `install_method` past its collection: the dictionary, the holders, the flush and the epoch. -/
def installedVm (vm : Interpreter.Vm) (k : Klass) (holder selector m : Addr) : Interpreter.Vm :=
  { vm with
    klasses := Function.update vm.klasses holder
      (some { k with methods := Function.update k.methods selector (some m) })
    methods := patchBlockHolders (.ref holder) vm.depth (setHolder vm.methods m (.ref holder)) m
    lookupCache := LookupCache.flush
    icEpoch := vm.icEpoch + 1 }

section
variable {j : Jit} {k : Klass} {holder selector : Addr} {meth₀ : Method}

/-- An installed method keeps its words. -/
theorem methods_installedVm (hm : j.vm.methods m = some meth₀) (hnil : meth₀.holder = .nil)
    {a : Addr} {meth : Method} {h : Addr} (hmeth : j.vm.methods a = some meth)
    (hholder : meth.holder = .ref h) (hblock : meth.isBlock = false) :
    (installedVm j.vm k holder selector m).methods a = some meth := by
  have hne : a ≠ m := by
    rintro rfl
    rw [hm] at hmeth
    cases hmeth
    rw [hnil] at hholder
    cases hholder
  refine patchBlockHolders_of_not_block _ _ _ _ ?_ hblock
  simp only [setHolder, Function.update_of_ne hne]
  exact hmeth

theorem installedAt_installedVm (hk : j.vm.klasses holder = some k) :
    InstalledAt j.vm.klasses (installedVm j.vm k holder selector m).klasses holder selector where
  other := fun _ hne => Function.update_of_ne hne _ _
  self := ⟨k, _, hk, Function.update_self .., rfl, fun _ hs => Function.update_of_ne hs _ _⟩

theorem inherits_installedVm (hm : j.vm.methods m = some meth₀) (hnil : meth₀.holder = .nil)
    (hk : j.vm.klasses holder = some k) {ct : CodeTable} {p : Addr × Addr} {a : Addr}
    (h : Inherits j p a) :
    Inherits { j with vm := installedVm j.vm k holder selector m, ct } p a := by
  obtain ⟨meth, h, hmeth, hholder, hblock, hpair⟩ := h
  refine ⟨meth, h, methods_installedVm hm hnil hmeth hholder hblock, hholder, hblock, ?_⟩
  unfold pairAffected at hpair ⊢
  rw [(installedAt_installedVm hk).superchainContains_eq]
  exact hpair

theorem installed_installedVm (hi : HeldByClass j) (hm : j.vm.methods m = some meth₀)
    (hnil : meth₀.holder = .nil) (hnot : meth₀.isBlock = false) (hsel : j.selector m = selector)
    (hk : j.vm.klasses holder = some k) {ct : CodeTable} :
    HeldByClass { j with vm := installedVm j.vm k holder selector m, ct } := by
  intro k' klass s x hklass hx
  -- a row that was there before
  have hold : ∀ klass₀, j.vm.klasses k' = some klass₀ → klass₀.methods s = some x →
      ∃ meth, (Debugger.installedVm j.vm k holder selector m).methods x = some meth ∧
        meth.holder = .ref k' ∧ meth.isBlock = false ∧ j.selector x = s := by
    intro klass₀ hklass₀ hx₀
    obtain ⟨meth, hmeth, hholder, hblock, hs⟩ := hi k' klass₀ s x hklass₀ hx₀
    exact ⟨meth, methods_installedVm hm hnil hmeth hholder hblock, hholder, hblock, hs⟩
  by_cases hk' : k' = holder
  · subst hk'
    change Function.update j.vm.klasses k' _ k' = some klass at hklass
    rw [Function.update_self, Option.some.injEq] at hklass
    subst hklass
    by_cases hs : s = selector
    · subst hs
      change Function.update k.methods s (some m) s = some x at hx
      rw [Function.update_self, Option.some.injEq] at hx
      subst hx
      refine ⟨{ meth₀ with holder := .ref k' }, ?_, rfl, hnot, hsel⟩
      refine patchBlockHolders_of_not_block _ _ _ _ ?_ hnot
      simp only [setHolder, Function.update_self, hm, Option.map_some]
    · change Function.update k.methods selector (some m) s = some x at hx
      rw [Function.update_of_ne hs] at hx
      exact hold k hk hx
  · change Function.update j.vm.klasses holder _ k' = some klass at hklass
    rw [Function.update_of_ne hk'] at hklass
    exact hold klass hklass hx

end

/-- An install after its collection. -/
theorem Watched.installedVm (h : Watched d) {k : Klass} {holder selector : Addr} {meth₀ : Method}
    (hm : d.jit.vm.methods m = some meth₀) (hnil : meth₀.holder = .nil)
    (hnot : meth₀.isBlock = false) (hsel : d.jit.selector m = selector)
    (hk : d.jit.vm.klasses holder = some k) {ct : CodeTable}
    (hct : invalidateDependents (installedVm d.jit.vm k holder selector m) d.jit.ct holder selector
      = some ct) :
    Watched { d with jit := { d.jit with vm := installedVm d.jit.vm k holder selector m, ct } } := by
  obtain ⟨hcoherent, hkeep⟩ := alive_of_invalidateDependents h.coherent hct
  -- what is Alive afterwards was Alive before
  have hkept : ∀ i nm', ct.get i = some nm' → nm'.state = .alive → d.jit.ct.get i = some nm' :=
    fun i nm' hget halive => (hkeep i nm' hget halive).1
  refine ⟨hcoherent, CacheOk.flush rfl, installed_installedVm h.installed hm hnil hnot hsel hk,
    fun i nm' hget halive => ?_, fun m' bci hm' => ?_⟩
  · obtain ⟨hown, hinlined⟩ := h.founded i nm' (hkept i nm' hget halive) halive
    refine ⟨?_, fun c hc => ?_⟩
    · cases hblock : nm'.origin.blockMethod with
      | none =>
        rw [hblock] at hown
        exact inherits_installedVm hm hnil hk hown
      | some blk =>
        rw [hblock] at hown
        obtain ⟨heq, meth, hmeth, hisBlock⟩ := hown
        have hsame := (holderOnly_patchBlockHolders (.ref holder) d.jit.vm.depth
          (setHolder d.jit.vm.methods m (.ref holder)) m blk).trans
            (holderOnly_setHolder d.jit.vm.methods m (.ref holder) blk)
        rw [hmeth, Option.map_some, Option.map_eq_some_iff] at hsame
        obtain ⟨meth', hmeth', hwords⟩ := hsame
        exact ⟨heq, meth', hmeth', (congrArg Prod.fst hwords).trans hisBlock⟩
    · obtain ⟨p, hp, hinherits⟩ := hinlined c hc
      exact ⟨p, hp, inherits_installedVm hm hnil hk hinherits⟩
  · have hg := h.guarded m' bci hm'
    obtain ⟨meth, holder', hmeth, hholder, hblock⟩ := hg.method
    exact ⟨hg.small, hg.active, hg.disabled, hg.hasBp, hg.row,
      ⟨meth, holder', methods_installedVm hm hnil hmeth hholder hblock, hholder, hblock⟩,
      fun i nm' hget halive => hg.uncompiled i nm' (hkept i nm' hget halive) halive⟩

theorem Watched.install (h : Watched d) {gc : Option (Equiv.Perm Addr)} {holder selector : Addr}
    {meth₀ : Method} (hm : d.jit.vm.methods m = some meth₀) (hnil : meth₀.holder = .nil)
    (hnot : meth₀.isBlock = false) (hsel : d.jit.selector m = selector)
    (he : d.jit.install gc holder selector m = some j') :
    Watched (d.move (gc.getD (Equiv.refl Addr)) j') := by
  unfold Jit.install at he
  obtain ⟨⟨vm', ct'⟩, hinst, rfl⟩ := Option.map_eq_some_iff.mp he
  unfold installMethod at hinst
  simp only [Option.bind_eq_bind, Option.bind_eq_some_iff, Option.some.injEq, Prod.mk.injEq] at hinst
  obtain ⟨vm₁, hvm, ct₁, hct, rfl, rfl⟩ := hinst
  set ρ := gc.getD (Equiv.refl Addr) with hρ
  have hmoved : (d.jit.collected gc).vm.methods (ρ m) = some (meth₀.move ρ) := methods_collected hm
  unfold Interpreter.Vm.installMethod at hvm
  simp only at hvm
  cases hk : (d.jit.vm.collect ρ).klasses (ρ holder) with
  | none =>
    rw [hk] at hvm
    cases hvm
  | some k =>
    rw [hk, show (d.jit.vm.collect ρ).methods (ρ m) = some (meth₀.move ρ) from hmoved] at hvm
    have hvm₁ : Debugger.installedVm (d.jit.vm.collect ρ) k (ρ holder) (ρ selector) (ρ m) = vm₁ :=
      Option.some.inj hvm
    subst hvm₁
    refine (h.collected gc).installedVm hmoved ?_ hnot ?_ hk hct
    · simp only [Method.move, hnil, Word.move]
    · change ρ (d.jit.selector (ρ.symm (ρ m))) = ρ selector
      rw [Equiv.symm_apply_apply, hsel]

/-! ## Commands -/

/-- A command leaves the world alone and retires nmethods at most. -/
theorem Watched.command (h : Watched d) (hvm : d'.jit.vm = d.jit.vm)
    (hsel : d'.jit.selector = d.jit.selector) (hc : Coherent d'.jit.ct)
    (halive : ∀ i nm, d'.jit.ct.get i = some nm → nm.state = .alive → d.jit.ct.get i = some nm)
    (hguarded : ∀ m bci, (m, bci) ∈ d'.standing → Guarded d' m bci) : Watched d' := by
  have hworld : SameWorld d.jit d'.jit := by
    refine ⟨hsel, ?_, ?_, fun a => ?_⟩ <;> rw [hvm]
  exact ⟨hc, hvm ▸ h.cache, hworld.installed h.installed,
    fun i nm hget hst => (h.founded i nm (halive i nm hget hst) hst).of_world hworld, hguarded⟩

/-- A breakpoint on a method whose bits, row and world the command leaves alone. -/
theorem Guarded.command (h : Guarded d m bci) (hvm : d'.jit.vm = d.jit.vm)
    (hsel : d'.jit.selector = d.jit.selector) (hsymbol : d'.symbol = d.symbol)
    (halive : ∀ i nm, d'.jit.ct.get i = some nm → nm.state = .alive → d.jit.ct.get i = some nm)
    (hactive : d'.active = true) (hdisabled : (d'.jit.counters m).compileDisabled = true)
    (hbp : (d'.jit.counters m).hasBp = true)
    (hrow : findRow (d'.key m bci) d'.breakpoints = findRow (d.key m bci) d.breakpoints) :
    Guarded d' m bci where
  small := h.small
  active := hactive
  disabled := hdisabled
  hasBp := hbp
  row := by
    obtain ⟨b, hfind, htext⟩ := h.row
    exact ⟨b, hrow.trans hfind, by rw [hsymbol, hsel, htext]⟩
  method := by
    rw [hvm]
    exact h.method
  uncompiled := fun i nm hget hst => h.uncompiled i nm (halive i nm hget hst) hst

/-- Retiring the dependents of `m` leaves no Alive nmethod that holds `m`. -/
theorem retireDependents_spec (hc : Coherent d.jit.ct) (he : d.retireDependents m = some d') :
    ∃ ct, d' = { d with jit := { d.jit with ct } } ∧ Coherent ct ∧
      (∀ i nm, ct.get i = some nm → nm.state = .alive → d.jit.ct.get i = some nm) ∧
      ∀ meth h, d.jit.vm.methods m = some meth → meth.holder = .ref h →
        ∀ i nm, ct.get i = some nm → nm.state = .alive →
          nmethodAffected d.jit.vm h (d.jit.selector m) nm = false := by
  unfold Debugged.retireDependents at he
  split at he
  · next h hholder =>
    obtain ⟨ct, hct, rfl⟩ := Option.map_eq_some_iff.mp he
    obtain ⟨hc', hkeep⟩ := alive_of_invalidateDependents hc hct
    refine ⟨ct, rfl, hc', fun i nm hget hst => (hkeep i nm hget hst).1,
      fun meth h' hmeth hh i nm hget hst => ?_⟩
    rw [hmeth, Option.map_some, hh, Option.some.injEq, Word.ref.injEq] at hholder
    exact hholder ▸ (hkeep i nm hget hst).2
  · next hnot =>
    cases he
    refine ⟨d.jit.ct, rfl, hc, fun i nm hget _ => hget, fun meth h hmeth hh => ?_⟩
    exact absurd (by rw [hmeth, Option.map_some, hh]) (hnot h)

/-- What is founded and not affected by `m` does not hold `m`. -/
theorem freeOf_of_unaffected {j : Jit} {nm : Nmethod} (hfounded : Founded j nm.origin)
    {meth : Method} {h : Addr} (hmeth : j.vm.methods m = some meth) (hholder : meth.holder = .ref h)
    (hblock : meth.isBlock = false) (hno : nmethodAffected j.vm h (j.selector m) nm = false) :
    FreeOf m nm.origin := by
  -- a recorded pair that depends on `m` is affected
  have haffected : ∀ p ∈ nm.deps, ¬Inherits j p m := by
    rintro p hp ⟨meth', h', hmeth', hholder', -, hpair⟩
    rw [hmeth] at hmeth'
    cases hmeth'
    rw [hholder] at hholder'
    cases hholder'
    rw [nmethodAffected_iff.mpr ⟨p, hp, hpair⟩] at hno
    cases hno
  obtain ⟨hown, hinlined⟩ := hfounded
  constructor
  · intro heq
    cases hb : nm.blockMethod with
    | none =>
      simp only [Nmethod.origin, hb] at hown heq
      exact haffected nm.key List.mem_cons_self (heq ▸ hown)
    | some blk =>
      simp only [Nmethod.origin, hb] at hown heq
      obtain ⟨rfl, meth', hmeth', hisBlock⟩ := hown
      rw [heq, hmeth] at hmeth'
      cases hmeth'
      rw [hblock] at hisBlock
      cases hisBlock
  · intro hmem
    obtain ⟨p, hp, hinherits⟩ := hinlined m hmem
    exact haffected p (List.mem_cons_of_mem _ hp) hinherits

theorem key_ne_of_spares {m' : Addr} {bci' : Nat}
    (hspares : ∀ m', (m', bci) ∈ d.standing → d.identityHash m' = d.identityHash m → m' = m)
    (hm' : (m', bci') ∈ d.standing) (hne : (m', bci') ≠ (m, bci)) :
    d.key m' bci' ≠ d.key m bci := by
  intro hkey
  obtain ⟨hhash, rfl⟩ := Prod.mk.inj hkey
  exact hne (by rw [hspares m' hm' hhash])

/-- What a breakpoint on an instruction boundary writes. -/
theorem setBreakpoint_spec (hc : Coherent d.jit.ct) (hboundary : d.boundary m bci = true)
    (he : d.setBreakpoint m bci = some d') :
    ∃ ct, d' = { d with
        jit := { d.jit with
          ct
          counters := Function.update d.jit.counters m ⟨0, 0, true, true⟩ }
        active := true
        breakpoints := insertRow (d.key m bci)
          ⟨d.symbol (d.jit.selector m), !(d.jit.counters m).compileDisabled⟩ d.breakpoints
        standing := (m, bci) :: d.standing } ∧ Coherent ct ∧
      (∀ i nm, ct.get i = some nm → nm.state = .alive → d.jit.ct.get i = some nm) ∧
      ∀ meth h, d.jit.vm.methods m = some meth → meth.holder = .ref h →
        ∀ i nm, ct.get i = some nm → nm.state = .alive →
          nmethodAffected d.jit.vm h (d.jit.selector m) nm = false := by
  unfold Debugged.setBreakpoint at he
  rw [if_pos hboundary] at he
  obtain ⟨d₂, hretire, rfl⟩ := Option.map_eq_some_iff.mp he
  obtain ⟨ct, rfl, hspec⟩ := retireDependents_spec (by exact hc) hretire
  refine ⟨ct, ?_, hspec⟩
  simp only [Debugged.setHasBp, Debugged.setFlags, Debugged.setCompileDisabled,
    Jit.setCompileDisabled, Jit.setCounters, Function.update_idem, Function.update_self]
  rfl

theorem Watched.setBreakpoint (h : Watched d) (hsmall : bci ≤ 65535) {k s : Addr}
    (hfound : d.jit.vm.lookupUncached k s = some m)
    (hspares : ∀ m', (m', bci) ∈ d.standing → d.identityHash m' = d.identityHash m → m' = m)
    (he : d.setBreakpoint m bci = some d') : Watched d' := by
  by_cases hboundary : d.boundary m bci = true
  · obtain ⟨ct, rfl, hc, halive, hunaffected⟩ := setBreakpoint_spec h.coherent hboundary he
    obtain ⟨meth, holder, hmeth, hholder, hblock, -⟩ := h.installed.of_lookup hfound
    refine h.command rfl rfl hc halive fun m' bci' hm' => ?_
    by_cases hsame : (m', bci') = (m, bci)
    · obtain ⟨rfl, rfl⟩ := Prod.mk.inj hsame
      refine ⟨hsmall, rfl, ?_, ?_, ⟨_, findRow_insertRow, rfl⟩,
        ⟨meth, holder, hmeth, hholder, hblock⟩, fun i nm hget hst => ?_⟩
      · simp only [Function.update_self]
      · simp only [Function.update_self]
      · exact freeOf_of_unaffected (h.founded i nm (halive i nm hget hst) hst) hmeth hholder hblock
          (hunaffected meth holder hmeth hholder i nm hget hst)
    · have hold : (m', bci') ∈ d.standing := (List.mem_cons.mp hm').resolve_left hsame
      have hg := h.guarded m' bci' hold
      have hkey := key_ne_of_spares hspares hold hsame
      by_cases hm : m' = m
      · subst hm
        exact hg.command rfl rfl rfl halive rfl (by simp only [Function.update_self])
          (by simp only [Function.update_self]) (findRow_insertRow_ne hkey)
      · exact hg.command rfl rfl rfl halive rfl
          (by simpa only [Function.update_of_ne hm] using hg.disabled)
          (by simpa only [Function.update_of_ne hm] using hg.hasBp) (findRow_insertRow_ne hkey)
  · unfold Debugged.setBreakpoint at he
    rw [if_neg hboundary] at he
    cases he
    exact h

/-- Flags written on a method without a standing breakpoint. -/
theorem Guarded.setCounters (h : Guarded d m bci) {a : Addr} (hne : m ≠ a) (c : Counters) :
    Guarded { d with jit := d.jit.setCounters a c } m bci := by
  have hcounters : (d.jit.setCounters a c).counters m = d.jit.counters m :=
    Function.update_of_ne hne _ _
  exact h.command rfl rfl rfl (fun i nm hget _ => hget) h.active
    ((congrArg Counters.compileDisabled hcounters).trans h.disabled)
    ((congrArg Counters.hasBp hcounters).trans h.hasBp) rfl

theorem Watched.setCounters (h : Watched d) {a : Addr} (hne : ¬d.Standing a) (c : Counters) :
    Watched { d with jit := d.jit.setCounters a c } :=
  h.command rfl rfl h.coherent (fun i nm hget _ => hget) fun m bci hm =>
    (h.guarded m bci hm).setCounters (show m ≠ a from fun heq => hne ⟨bci, by rwa [← heq]⟩) c

/-- Clearing one breakpoint keeps the others; the bits go with the last one of the method. -/
theorem Watched.clearBreakpoint (h : Watched d)
    (hspares : ∀ m', (m', bci) ∈ d.standing → d.identityHash m' = d.identityHash m → m' = m) :
    Watched (d.clearBreakpoint m bci) := by
  unfold Debugged.clearBreakpoint
  split
  · exact h
  · next b hb =>
    set d₁ : Debugged := { d with
      breakpoints := removeRow (d.key m bci) d.breakpoints
      standing := d.standing.filter fun p => decide (p ≠ (m, bci)) } with hd₁
    have hwatched : Watched d₁ := by
      refine h.command rfl rfl h.coherent (fun i nm hget _ => hget) fun m' bci' hm' => ?_
      obtain ⟨hold, hne⟩ := List.mem_filter.mp hm'
      have hg := h.guarded m' bci' hold
      have hkey : d.key m' bci' ≠ d.key m bci :=
        key_ne_of_spares hspares hold (of_decide_eq_true hne)
      exact hg.command rfl rfl rfl (fun i nm hget _ => hget) hg.active hg.disabled hg.hasBp
        (findRow_removeRow_ne hkey)
    -- a breakpoint left on the method has its row in the table
    have hlast : (d₁.breakpoints.any fun r => decide (r.1.1 = d₁.identityHash m)) = false →
        ¬d₁.Standing m := by
      rintro hnone ⟨bci', hm'⟩
      obtain ⟨b', hrow, -⟩ := (hwatched.guarded m bci' hm').row
      have hmem := mem_of_findRow hrow
      have hany : (d₁.breakpoints.any fun r => decide (r.1.1 = d₁.identityHash m)) = true :=
        List.any_eq_true.mpr ⟨_, hmem, decide_eq_true rfl⟩
      rw [hnone] at hany
      cases hany
    change Watched (if (d₁.breakpoints.any fun r => decide (r.1.1 = d₁.identityHash m)) = true
      then d₁ else if b.restoreCompile = true then (d₁.clearHasBp m).clearCompileDisabled m
      else d₁.clearHasBp m)
    cases hany : (d₁.breakpoints.any fun r => decide (r.1.1 = d₁.identityHash m)) with
    | true => exact hwatched
    | false =>
      have hcleared : Watched (d₁.clearHasBp m) := hwatched.setCounters (hlast hany) _
      cases hrestore : b.restoreCompile with
      | true => exact hcleared.setCounters (a := m) (hlast hany) _
      | false => exact hcleared

theorem Watched.pin (h : Watched d) (hspares : ¬d.Standing m) (he : d.pin m = some d') :
    Watched d' := by
  unfold Debugged.pin at he
  set d₁ : Debugged := { d with
    pinned := insertRow (d.identityHash m) (!(d.jit.counters m).compileDisabled) d.pinned } with hd₁
  have hrows : Watched d₁ := h.command rfl rfl h.coherent (fun i nm hget _ => hget)
    fun m' bci hm' => (h.guarded m' bci hm').command rfl rfl rfl (fun i nm hget _ => hget)
      (h.guarded m' bci hm').active (h.guarded m' bci hm').disabled (h.guarded m' bci hm').hasBp rfl
  have hdisabled : Watched (d₁.setCompileDisabled m) := hrows.setCounters hspares .disabled
  obtain ⟨ct, rfl, hc, halive, -⟩ := retireDependents_spec hdisabled.coherent he
  refine hdisabled.command rfl rfl hc halive fun m' bci hm' => ?_
  have hg := hdisabled.guarded m' bci hm'
  exact hg.command rfl rfl rfl halive hg.active hg.disabled hg.hasBp rfl

theorem Watched.unpin (h : Watched d)
    (hspares : findRow (d.identityHash m) d.pinned = some true → ¬d.Standing m) :
    Watched (d.unpin m) := by
  unfold Debugged.unpin
  cases hrow : findRow (d.identityHash m) d.pinned with
  | none => exact h
  | some restoreCompile =>
    have hrows : Watched { d with pinned := removeRow (d.identityHash m) d.pinned } :=
      h.command rfl rfl h.coherent (fun i nm hget _ => hget)
        fun m' bci hm' => (h.guarded m' bci hm').command rfl rfl rfl (fun i nm hget _ => hget)
          (h.guarded m' bci hm').active (h.guarded m' bci hm').disabled
          (h.guarded m' bci hm').hasBp rfl
    cases restoreCompile with
    | false => exact hrows
    | true => exact hrows.setCounters (a := m) (hspares hrow) _

/-! ## Steps -/

/-- Activating a block compiles it, or forbids it to be compiled. -/
theorem activateBlock_effect (hc : Coherent d.jit.ct) (hcache : CacheOk d.jit.vm) (blk : Addr)
    (plain : Bool) {r : CompileResult} (hr : r.Fresh d.jit.ct) (sites : List Site) :
    ∃ j', (d.activateBlock blk plain r).1 = { d with jit := j' } ∧
      Effect (fun q => d.asks (.activateBlock blk plain r sites) q ∨
        q = ⟨d.closureKlass, blk, true, .noPermanent⟩) d.jit j' := by
  set j₀ := (d.jit.bumpInvocation blk).2 with hj₀
  have hbump : Effect (fun q => d.asks (.activateBlock blk plain r sites) q ∨
      q = ⟨d.closureKlass, blk, true, .noPermanent⟩) d.jit j₀ :=
    setCounters_effect hc hcache ⟨rfl, rfl⟩
  unfold Debugged.activateBlock
  simp only [← hj₀]
  cases j₀.threshold with
  | none => exact ⟨j₀, rfl, hbump⟩
  | some n =>
    simp only
    cases Debugged.lookupBlock { d with jit := j₀ } blk with
    | some id => exact ⟨j₀, rfl, hbump⟩
    | none =>
      simp only
      by_cases hdue : n ≤ (d.jit.bumpInvocation blk).1 ∧
          (j₀.counters blk).compileDisabled = false ∧ j₀.compileEnabled = true
      · rw [if_pos hdue]
        have henabled : (d.jit.counters blk).compileDisabled = false := by
          have hflag := hdue.2.1
          rw [hj₀] at hflag
          simpa [Jit.bumpInvocation, Jit.setCounters] using hflag
        cases plain with
        | true =>
          simp only [if_true]
          exact ⟨_, rfl, hbump.trans ((compileMethodFull_effect hbump.coherent hbump.cache
            d.closureKlass blk true 0 none hr fun hn => absurd rfl hn).mono
              fun q hq => .inl ⟨henabled, hq⟩)⟩
        | false =>
          simp only [Bool.false_eq_true, if_false]
          exact ⟨_, rfl, hbump.trans ((compileMethodFull_effect hbump.coherent hbump.cache
            d.closureKlass blk true 0 none (r := .noPermanent) trivial
              fun hn => absurd rfl hn).mono fun q hq => .inr hq)⟩
      · rw [if_neg hdue]
        exact ⟨j₀, rfl, hbump⟩

theorem move_refl (d : Debugged) (jit : Jit) :
    d.move (Equiv.refl Addr) jit = { d with jit } := by
  simp [Debugged.move]

/-- An operation of the VM that neither installs nor collects. -/
theorem Watched.op (h : Watched d) {op : Op} {sites : List Site}
    (hpromised : (Act.vm op sites).Promised d) (htranslates : (Act.vm op sites).Translates d)
    (hspares : (Act.vm op sites).Spares d)
    (hinstall : ∀ gc holder selector m, op ≠ .install gc holder selector m)
    (hcollect : ∀ ρ, op ≠ .collect ρ) (he : d.jit.exec op = some j') :
    Watched { d with jit := j' } := by
  have heffect := exec_effect h.coherent h.cache hpromised.1 hinstall hcollect he
  refine h.effect heffect (fun q b hq hr => founded_of_translates h hpromised htranslates hq hr)
    (fun q hq hstanding hr => ?_)
    (fun q b hq hr m hstanding => freeOf_of_spares h htranslates hspares hq hr hstanding)
  have hasked : d.asks (.vm op sites) q := hq
  rcases root_spared h hspares hasked hstanding with hn | hn
  · rw [hn] at hr
    cases hr
  · rw [hn] at hr
    cases hr

theorem Watched.activateBlock (h : Watched d) {blk : Addr} {plain : Bool} {r : CompileResult}
    {sites : List Site} (hpromised : (Act.activateBlock blk plain r sites).Promised d)
    (htranslates : (Act.activateBlock blk plain r sites).Translates d)
    (hspares : (Act.activateBlock blk plain r sites).Spares d) :
    Watched (d.activateBlock blk plain r).1 := by
  obtain ⟨j', heq, heffect⟩ :=
    activateBlock_effect h.coherent h.cache blk plain hpromised.1 sites
  rw [heq]
  -- a block has no breakpoint
  have hnot : ¬d.Standing blk := by
    rintro ⟨bci, hm⟩
    obtain ⟨meth, holder, hmeth, -, hblock⟩ := (h.guarded blk bci hm).method
    obtain ⟨meth', hmeth', hisBlock⟩ := hpromised.2
    rw [hmeth] at hmeth'
    cases hmeth'
    rw [hblock] at hisBlock
    cases hisBlock
  refine h.effect heffect (fun q b hq hr => ?_) (fun q hq hstanding hr => ?_)
    (fun q b hq hr m hstanding => ?_)
  · rcases hq with hq | rfl
    · exact founded_of_translates h hpromised htranslates hq hr
    · cases hr
  · rcases hq with hq | rfl
    · obtain ⟨-, rfl⟩ := hq
      exact hnot hstanding
    · exact hnot hstanding
  · rcases hq with hq | rfl
    · exact freeOf_of_spares h htranslates hspares hq hr hstanding
    · cases hr

/-- The step lemma. -/
theorem Watched.exec (h : Watched d) {act : Act} (hpromised : act.Promised d)
    (htranslates : act.Translates d) (hspares : act.Spares d) (he : d.exec act = some d') :
    Watched d' := by
  cases act with
  | vm op sites =>
    obtain ⟨j', hexec, rfl⟩ := Option.map_eq_some_iff.mp he
    cases op with
    | install gc holder selector m =>
      obtain ⟨-, hsel, meth, hmeth, hnil, hblock⟩ := hpromised
      exact h.install hmeth hnil hblock hsel hexec
    | collect ρ =>
      cases hexec
      exact h.collected (some ρ)
    | _ =>
      rw [show moves _ = Equiv.refl Addr from rfl, move_refl]
      exact h.op hpromised htranslates hspares (fun _ _ _ _ => Op.noConfusion)
        (fun _ => Op.noConfusion) hexec
  | activateBlock blk plain r sites =>
    cases he
    exact h.activateBlock hpromised htranslates hspares
  | callCompiled id =>
    cases he
    exact h
  | setBreakpoint m bci =>
    obtain ⟨hsmall, k, s, hfound⟩ := hpromised
    exact h.setBreakpoint hsmall hfound hspares.2 he
  | clearBreakpoint m bci =>
    cases he
    exact h.clearBreakpoint hspares.2
  | pin m => exact h.pin hspares.2 he
  | unpin m =>
    cases he
    exact h.unpin hspares.2

/-- The run lemma. -/
theorem Runs.watched (h : Runs (fun d act => act.Spares d) d) : Watched d := by
  induction h with
  | start hct hcache hinstalled hnone =>
    refine ⟨by rw [hct]; exact coherent_empty, hcache, hinstalled, fun i nm hget => ?_,
      fun m bci hm => ?_⟩
    · rw [hct] at hget
      cases hget
    · rw [hnone] at hm
      cases hm
  | step act _ hpromised htranslates hok hexec ih => exact ih.exec hpromised htranslates hok hexec

/-- What an act enters is Alive when it is entered. -/
theorem enters_aliveAt (h : Watched d) {act : Act} (hpromised : act.Promised d) {id : Nat}
    (he : d.exec act = some d') (hid : d.enters act = some id) : AliveAt d'.jit id := by
  cases act with
  | vm op sites =>
    obtain ⟨j', hexec, rfl⟩ := Option.map_eq_some_iff.mp he
    cases op with
    | activate k m icSite heal fresh =>
      obtain ⟨⟨j₁, entered⟩, hact, heq⟩ := Option.bind_eq_some_iff.mp hid
      obtain ⟨⟨j₂, entered'⟩, hact', rfl⟩ := Option.map_eq_some_iff.mp hexec
      rw [hact] at hact'
      cases hact'
      cases heq
      exact activateMethod_aliveAt h.coherent hpromised.1.1 hpromised.1.2 hact
    | osrRequest k m targetBci r =>
      cases hexec
      exact rtOsrRequest_aliveAt h.coherent h.cache hpromised.1
        (Prod.ext rfl hid : d.jit.rtOsrRequest k m targetBci r = (_, some id))
    | _ => cases hid
  | activateBlock blk plain r sites =>
    cases he
    unfold Debugged.enters at hid
    unfold Debugged.activateBlock at hid ⊢
    set j₀ := (d.jit.bumpInvocation blk).2 with hj₀
    simp only [← hj₀] at hid ⊢
    cases hthreshold : j₀.threshold with
    | none =>
      simp only [hthreshold] at hid
      cases hid
    | some n =>
      simp only [hthreshold] at hid ⊢
      cases hlookup : Debugged.lookupBlock { d with jit := j₀ } blk with
      | some old =>
        simp only [hlookup] at hid ⊢
        cases hid
        obtain ⟨p, halive, rfl⟩ := Option.map_eq_some_iff.mp hlookup
        exact aliveAt_of_alive halive
      | none =>
        simp only [hlookup] at hid ⊢
        split at hid
        · split at hid
          · next hdue hplain =>
            rw [if_pos hdue, if_pos hplain]
            exact (compileMethodFull_aliveAt (j := j₀) h.coherent hpromised.1
              (fun hn => absurd rfl hn) (Prod.ext rfl hid)).1
          · cases hid
        · cases hid
  | callCompiled id' =>
    cases he
    obtain ⟨⟨old, nm⟩, halive, rfl⟩ := Option.map_eq_some_iff.mp hid
    exact aliveAt_of_alive halive
  | setBreakpoint m bci => cases hid
  | clearBreakpoint m bci => cases hid
  | pin m => cases hid
  | unpin m => cases hid

/-- In runs whose acts meet the condition, the hook halts at every standing breakpoint, no Alive
nmethod has the method as its root or in an inlined scope, and nothing that does is entered. -/
theorem breakpoint_never_missed (h : Runs (fun d act => act.Spares d) d)
    (hm : (m, bci) ∈ d.standing) :
    d.hitBp m bci = true ∧
      (∀ i nm, d.jit.ct.get i = some nm → nm.state = .alive →
        nm.method ≠ m ∧ m ∉ nm.inlined) ∧
      ∀ act d' id, act.Promised d → act.Translates d → act.Spares d → d.exec act = some d' →
        d.enters act = some id → ∃ nm, d'.jit.ct.get id = some nm ∧ nm.state = .alive ∧
          ∀ m' bci', (m', bci') ∈ d'.standing → nm.method ≠ m' ∧ m' ∉ nm.inlined := by
  have hwatched := h.watched
  refine ⟨(hwatched.guarded m bci hm).hitBp,
    fun i nm hget hst => (hwatched.guarded m bci hm).uncompiled i nm hget hst,
    fun act d' id hpromised htranslates hspares he hid => ?_⟩
  obtain ⟨nm, hget, hst⟩ := enters_aliveAt hwatched hpromised he hid
  have hwatched' := hwatched.exec hpromised htranslates hspares he
  exact ⟨nm, hget, hst, fun m' bci' hm' =>
    (hwatched'.guarded m' bci' hm').uncompiled id nm hget hst⟩

end

/-! ## A small accessor -/

/-- Class 1 with method 10 for selector 7, which sends selector 8, and method 20 for that. -/
def accessorVm : Interpreter.Vm :=
  { klasses := fun a =>
      if a = 1 then some ⟨.nil, fun s => if s = 7 then some 10 else if s = 8 then some 20 else none⟩
      else none
    methods := fun a => if a = 10 ∨ a = 20 then some ⟨.ref 1, false, [], []⟩ else none
    arrays := fun _ => none
    lookupCache := LookupCache.flush
    icEpoch := 0
    depth := 1 }

/-- Nothing is compiled, and the first call is over the threshold. -/
def accessorVmDebugged : Debugged :=
  { jit :=
      { vm := accessorVm, ct := empty, selector := fun a => if a = 10 then 7 else 8,
        counters := fun _ => ⟨0, 0, false, false⟩, threshold := some 1, compileEnabled := true }
    identityHash := id
    symbol := fun s => if s = 8 then "value" else "caller"
    boundary := fun _ bci => bci = 0
    shape := fun _ => ⟨0, 2, true, false, false⟩
    smiKlass := 90
    closureKlass := 91
    active := false
    breakpoints := []
    pinned := []
    standing := [] }

/-- A breakpoint on the first bytecode of method 20. -/
def accessorStopped : Debugged := (accessorVmDebugged.setBreakpoint 20 0).getD accessorVmDebugged

/-- Method 10 is called; its send has seen method 20. -/
def callCaller : Act :=
  .vm (.activate 1 10 none .notNow (.compiled ⟨⟨0, 16⟩, 0, [], [20], [(1, 8)], false, 0⟩))
    [.feedback 8 (.mono 1 20) 30 true]

def accessorInlined : Debugged := (accessorStopped.exec callCaller).getD accessorStopped

theorem runs_accessorStopped (ok : Debugged → Act → Prop)
    (hok : ok accessorVmDebugged (.setBreakpoint 20 0)) : Runs ok accessorStopped := by
  refine .step (.setBreakpoint 20 0) (.start rfl (CacheOk.flush rfl) ?_ rfl)
    ⟨by decide, 1, 8, rfl⟩ (fun q b hq _ => hq.elim) hok rfl
  intro k klass s m hk hm
  change (if k = 1 then _ else none) = some klass at hk
  split at hk
  · next hk1 =>
    subst hk1
    cases hk
    change (if s = 7 then some 10 else if s = 8 then some 20 else none) = some m at hm
    split at hm
    · next hs =>
      cases hm
      exact ⟨_, rfl, rfl, rfl, hs.symm⟩
    · split at hm
      · next hs =>
        cases hm
        exact ⟨_, rfl, rfl, rfl, hs.symm⟩
      · cases hm
  · cases hk

theorem breakpoint_never_missed_stopped : accessorStopped.hitBp 20 0 = true :=
  have hm : (20, 0) ∈ accessorStopped.standing := List.mem_cons_self
  (breakpoint_never_missed (runs_accessorStopped (fun d act => act.Spares d)
    ⟨fun q b hq _ => hq.elim, fun m' hm' _ => by cases hm'⟩) hm).1

theorem translates_callCaller : callCaller.Translates accessorStopped := by
  rintro q b ⟨-, hq⟩ hr
  have hnone : accessorStopped.jit.alive
      (accessorStopped.jit.ct.lookup 1 (accessorStopped.jit.selector 10)) = none := rfl
  unfold Jit.reuseRequest at hq
  rw [hnone] at hq
  subst hq
  cases hr
  refine ⟨rfl, fun site hsite => ?_⟩
  rw [List.mem_singleton.mp hsite]
  refine ⟨fun arm harm => ?_, fun _ p hp => hp⟩
  rw [List.mem_singleton.mp harm]
  exact ⟨_, 1, rfl, rfl, rfl, rfl⟩

/-- The caller is compiled while the breakpoint of method 20 stands, and inlines it; the next call
of the caller enters that code. -/
theorem inlined_breakpoint_missed :
    Runs (fun _ _ => True) accessorInlined ∧ (20, 0) ∈ accessorInlined.standing ∧
      (accessorInlined.jit.ct.get 0).map (fun nm => (nm.state, nm.inlined))
        = some (.alive, [20]) ∧
      accessorInlined.enters (.vm (.activate 1 10 none .notNow .notNow) []) = some 0 := by
  refine ⟨.step callCaller (runs_accessorStopped _ trivial) ⟨⟨trivial, by decide, ?_⟩, ?_⟩
    translates_callCaller trivial rfl, List.mem_cons_self, by decide, by decide⟩
  · intro i nm hget
    cases hget
  · exact ⟨_, 1, rfl, rfl, rfl, rfl⟩

end WinVm.Debugger
