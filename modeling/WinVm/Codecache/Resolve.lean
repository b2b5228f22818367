import WinVm.Codecache.Adapters
import WinVm.Codecache.Flush

/-!
# Linking compiled sends

`rt_resolve_send` in `codecache/stubs.rs`: every miss of a compiled call site ends here. The target
is looked up and the site moves up the lattice, from unresolved to a linked target, to a stub of
its own with up to four arms, to the shared trampoline of its selector. A stub that does not fit
into the code cache is done without: the site stays as it was and the send goes on.

A c2i adapter that does not fit is not done without: `AdapterTable::get_or_make` panics
(`full_cache_aborts_send`). So a resolution ends well exactly if there is room for the adapters it
needs (`AdapterRoom`, `resolve_send_coherent`).
-/

namespace WinVm.Codecache

open WinVm.Interpreter CodeTable

/-! ## The model -/

/-- The VM as compiled sends see it. `prim` is the primitive of a method, `mega` the trampoline of
a selector, `forceCold` says that the call auditor is armed. -/
structure Linker where
  vm : Vm
  code : Code
  adapters : AdapterTable
  mega : Addr → Option CodeHandle
  prim : Addr → Nat
  resolveAddr : Nat
  dnuAddr : Nat
  valueDispatchAddr : Nat → Nat
  forceCold : Bool

/-- What the code cache answers, `none` where it is full: adapters with the offset of their pool
word, and the stub. -/
structure Allocs where
  oldAdapter : Option (CodeHandle × Nat)
  newAdapter : Option (CodeHandle × Nat)
  stub : Option CodeHandle

def picMaxEntries : Nat := 4

def callInsnLen : Nat := 5

/-- The adapter of `m`, if the table has a current one. -/
def AdapterTable.cached (t : AdapterTable) (m : Addr) : Option CachedAdapter :=
  match t.find m with
  | some a => if t.code a.pool = m then some a else none
  | none => none

namespace Linker

def lookup (w : Linker) (k s : Addr) : Option Addr × Linker :=
  let (r, vm) := w.vm.lookup k s
  (r, { w with vm })

/-- `AdapterTable::get_or_make`, which panics if the code cache is full. -/
def adapterEntry (w : Linker) (m : Addr) (room : Option (CodeHandle × Nat)) : Option (Linker × Nat) :=
  match w.adapters.cached m with
  | some a => some (w, a.handle.base)
  | none =>
    match room with
    | none => none
    | some (h, literalOff) =>
      let (adapters, a) := w.adapters.make h literalOff m
      some ({ w with adapters }, a.handle.base)

def isValuePrim (w : Linker) (m : Addr) : Bool := decide (50 ≤ w.prim m ∧ w.prim m ≤ 53)

/-- The compiled code ordinary dispatch enters for a key. -/
def warmNmethod (w : Linker) (k sel : Addr) : Option Nmethod :=
  match (w.code.ct.lookup k sel).bind w.code.ct.get with
  | some nm => if nm.isHalfWarmOsr then none else some nm
  | none => none

def resolveTargetEntry (w : Linker) (k sel m : Addr) (useVerified : Bool)
    (room : Option (CodeHandle × Nat)) : Option (Linker × Nat) :=
  if w.isValuePrim m then some (w, w.valueDispatchAddr (w.prim m - 50))
  else
    match w.warmNmethod k sel with
    | some nm => some (w, nm.code.base + if useVerified then nm.verifiedEntryOff else nm.entryOff)
    | none => w.adapterEntry m room

/-- Code customized to its key class is not entered from a super site. -/
def selfDevirtAt (w : Linker) (k sel : Addr) : Bool :=
  ((w.code.ct.lookup k sel).bind w.code.ct.get).any (·.selfDevirt)

def resolveSuperTargetEntry (w : Linker) (superKlass sel m : Addr)
    (room : Option (CodeHandle × Nat)) : Option (Linker × Nat) :=
  if w.selfDevirtAt superKlass sel then w.adapterEntry m room
  else w.resolveTargetEntry superKlass sel m true room

/-- The site of a return address. -/
def findCallerSite (w : Linker) (retAddr : Nat) : Option (Nat × Nat) := do
  let caller ← w.code.ct.findByPc retAddr
  let nm ← w.code.ct.get caller
  let idx ← nm.icSites.findIdx? fun s => s.off == retAddr - callInsnLen - nm.code.base
  some (caller, idx)

/-- `PicTable::build`. -/
def buildPic (w : Linker) (pairs : List (Addr × Nat)) (room : Option CodeHandle) :
    Linker × Option CodeHandle :=
  match room with
  | none => (w, none)
  | some h =>
    let pics := Function.update w.code.pics h.base (some ⟨h, pairs⟩)
    ({ w with code := { w.code with pics } }, some h)

/-- `MegaTable::get_or_make`. -/
def megaStub (w : Linker) (sel : Addr) (room : Option CodeHandle) : Linker × Option CodeHandle :=
  match w.mega sel with
  | some h => (w, some h)
  | none =>
    match room with
    | none => (w, none)
    | some h => ({ w with mega := Function.update w.mega sel (some h) }, some h)

def freePic (w : Linker) (stub : CodeHandle) : Linker := { w with code := w.code.freePic stub }

/-- A replacement for a PIC, if it could be built: the old stub is freed after it. -/
def replacePic (stub : CodeHandle) (state : CodeHandle → IcState) :
    Linker × Option CodeHandle → Linker × Option (Nat × IcState)
  | (w, none) => (w, none)
  | (w, some h) => (w.freePic stub, some (h.base, state h))

/-- The first pair of the class gets the new target. -/
def rekey (k : Addr) (target : Nat) : List (Addr × Nat) → List (Addr × Nat)
  | [] => []
  | p :: pairs => if p.1 = k then (p.1, target) :: pairs else p :: rekey k target pairs

/-- The transition of an ordinary site: what is patched, if anything, and where this send goes. -/
def transition (w : Linker) (site : IcSite) (k m : Addr) (al : Allocs) :
    Option (Linker × Option (Nat × IcState) × Nat) :=
  match site.state with
  | .unresolved => do
    let (w, t) ← w.resolveTargetEntry k site.selector m false al.newAdapter
    some (w, some (t, .mono k t), t)
  | .mono oldK _ =>
    if oldK = k then do
      let (w, t) ← w.resolveTargetEntry k site.selector m false al.newAdapter
      some (w, some (t, .mono k t), t)
    else
      match w.lookup oldK site.selector with
      | (none, _) => none
      | (some oldM, w) => do
        let (w, oldT) ← w.resolveTargetEntry oldK site.selector oldM true al.oldAdapter
        let (w, newT) ← w.resolveTargetEntry k site.selector m true al.newAdapter
        let (w, stub) := w.buildPic [(oldK, oldT), (k, newT)] al.stub
        some (w, stub.map fun h => (h.base, .pic h), newT)
  | .pic stub => do
    let pairs ← w.code.pics.pairsOf stub
    let (w, newT) ← w.resolveTargetEntry k site.selector m true al.newAdapter
    let (w, patch) :=
      if pairs.any fun p => p.1 == k then
        replacePic stub .pic (w.buildPic (rekey k newT pairs) al.stub)
      else if pairs.length < picMaxEntries then
        replacePic stub .pic (w.buildPic (pairs ++ [(k, newT)]) al.stub)
      else replacePic stub .mega (w.megaStub site.selector al.stub)
    some (w, patch, newT)
  | .mega _ => none

/-- Patch the call and record the state. -/
def link (w : Linker) (nm : Nmethod) (caller idx off target : Nat) (state : IcState) :
    Option Linker :=
  let code := w.code.patchCallSite nm.code off target
  (code.ct.setSiteState caller idx state).map fun ct => { w with code := { code with ct } }

/-- `rt_resolve_send` for a receiver of class `k`: the address the send goes on to. -/
def rtResolveSend (w : Linker) (retAddr : Nat) (k : Addr) (al : Allocs) : Option (Linker × Nat) := do
  let (caller, idx) ← w.findCallerSite retAddr
  let nm ← w.code.ct.get caller
  let site ← nm.icSites[idx]?
  match site.superKlass with
  | some sk =>
    match w.lookup sk site.selector with
    | (none, w) => some (w, w.dnuAddr)
    | (some m, w) => do
      let (w, t) ← w.resolveSuperTargetEntry sk site.selector m al.newAdapter
      if w.forceCold then some (w, t)
      else do
        let w ← w.link nm caller idx site.off t (.mono sk t)
        some (w, t)
  | none =>
    match w.lookup k site.selector with
    | (none, w) => some (w, w.dnuAddr)
    | (some m, w) =>
      if w.forceCold then w.resolveTargetEntry k site.selector m false al.newAdapter
      else do
        let (w, patch, t) ← w.transition site k m al
        match patch with
        | some (target, state) => do
          let w ← w.link nm caller idx site.off target state
          some (w, t)
        | none => some (w, t)

/-! ## Targets -/

/-- `t` is an entry for the method `m` that lookup found for `k`: the dispatch stub of a value
primitive, the compiled code of the key, or the current adapter of `m`. -/
def Enters (w : Linker) (k sel m : Addr) (t : Nat) : Prop :=
  (w.isValuePrim m = true ∧ t = w.valueDispatchAddr (w.prim m - 50)) ∨
  (∃ nm, (w.code.ct.lookup k sel).bind w.code.ct.get = some nm ∧
    (t = nm.code.base + nm.entryOff ∨ t = nm.code.base + nm.verifiedEntryOff)) ∨
  ∃ a : CachedAdapter, w.adapters.cached m = some a ∧ a.handle.base = t

/-- No stub, no code and no cached adapter serves: an adapter has to be built. -/
def NeedsAdapter (w : Linker) (k sel m : Addr) : Prop :=
  w.isValuePrim m = false ∧ w.warmNmethod k sel = none ∧ w.adapters.cached m = none

def NeedsSuperAdapter (w : Linker) (k sel m : Addr) : Prop :=
  (w.selfDevirtAt k sel = true ∧ w.adapters.cached m = none) ∨
    (w.selfDevirtAt k sel = false ∧ w.NeedsAdapter k sel m)

end Linker

/-- The pool word of the range is no pool word of a cached adapter. -/
def AdapterTable.FreshPool (table : AdapterTable) (room : Option (CodeHandle × Nat)) : Prop :=
  ∀ h off, room = some (h, off) → ∀ e ∈ table.byMethod, e.2.pool ≠ h.base + off

/-- `table'` is `table`, or has one adapter more, for a method that had no current one. -/
def AdapterTable.Grown (table : AdapterTable) (m : Addr) (room : Option (CodeHandle × Nat))
    (table' : AdapterTable) : Prop :=
  table' = table ∨ ∃ h off, room = some (h, off) ∧ table.cached m = none ∧
    table' = (table.make h off m).1

namespace Linker

section Targets

variable {w w' : Linker} {k sel m : Addr} {t : Nat} {room : Option (CodeHandle × Nat)}

/-- What building an adapter leaves of the table. -/
theorem cached_make {table : AdapterTable} {h : CodeHandle} {off : Nat} {m' : Addr}
    (hfresh : ∀ e ∈ table.byMethod, e.2.pool ≠ h.base + off) :
    (table.make h off m).1.cached m' = if m' = m then some ⟨h, off⟩ else table.cached m' := by
  have hpool : (⟨h, off⟩ : CachedAdapter).pool = h.base + off := rfl
  split
  next hm =>
    subst hm
    unfold AdapterTable.cached AdapterTable.make AdapterTable.insert AdapterTable.find
    simp [Function.update_self]
  next hm =>
    have hfind : (table.make h off m).1.find m' = table.find m' := by
      unfold AdapterTable.make AdapterTable.insert AdapterTable.find
      rw [List.find?_cons_of_neg (by simpa using Ne.symm hm), List.find?_filter]
      congr 2
      funext e
      by_cases he : e.1 = m'
      · simp [he, hm]
      · simp [he]
    unfold AdapterTable.cached
    rw [hfind]
    cases hf : table.find m' with
    | none => rfl
    | some a =>
      have hne := hfresh _ (AdapterTable.find_eq_some hf)
      have hcode : (table.make h off m).1.code a.pool = table.code a.pool := by
        change Function.update table.code (h.base + off) m a.pool = _
        exact Function.update_of_ne hne _ _
      simp only [hcode]

/-- The adapter of `m` is there or can be built, and nothing else changes. -/
theorem adapterEntry_spec (w : Linker) (m : Addr) (room : Option (CodeHandle × Nat)) :
    (w.adapterEntry m room = none ↔ w.adapters.cached m = none ∧ room = none) ∧
    ∀ w' t, w.adapterEntry m room = some (w', t) →
      ∃ adapters, w' = { w with adapters } ∧ w.adapters.Grown m room adapters ∧
        ∃ a, adapters.cached m = some a ∧ a.handle.base = t := by
  unfold adapterEntry
  cases hc : w.adapters.cached m with
  | some a =>
    refine ⟨by simp, fun w' t he => ?_⟩
    cases he
    exact ⟨w.adapters, rfl, .inl rfl, a, hc, rfl⟩
  | none =>
    cases room with
    | none => exact ⟨by simp, fun w' t he => by cases he⟩
    | some r =>
      obtain ⟨h, off⟩ := r
      refine ⟨by simp, fun w' t he => ?_⟩
      cases he
      refine ⟨_, rfl, .inr ⟨h, off, rfl, hc, rfl⟩, ⟨h, off⟩, ?_, rfl⟩
      unfold AdapterTable.cached AdapterTable.insert AdapterTable.find
      simp [Function.update_self]

/-- One adapter more if one is needed, none otherwise. -/
def Built (w : Linker) (k sel m : Addr) (room : Option (CodeHandle × Nat))
    (adapters : AdapterTable) : Prop :=
  (w.NeedsAdapter k sel m ∧ ∃ h off, room = some (h, off) ∧ adapters = (w.adapters.make h off m).1) ∨
    (¬ w.NeedsAdapter k sel m ∧ adapters = w.adapters)

theorem Built.grown {adapters : AdapterTable} (h : w.Built k sel m room adapters) :
    w.adapters.Grown m room adapters := by
  rcases h with ⟨hn, hd, off, hroom, rfl⟩ | ⟨-, rfl⟩
  · exact .inr ⟨hd, off, hroom, hn.2.2, rfl⟩
  · exact .inl rfl

theorem resolveTargetEntry_spec (w : Linker) (k sel m : Addr) (useVerified : Bool)
    (room : Option (CodeHandle × Nat)) :
    (w.resolveTargetEntry k sel m useVerified room = none ↔ w.NeedsAdapter k sel m ∧ room = none) ∧
    ∀ w' t, w.resolveTargetEntry k sel m useVerified room = some (w', t) →
      ∃ adapters, w' = { w with adapters } ∧ w.Built k sel m room adapters ∧ w'.Enters k sel m t := by
  unfold resolveTargetEntry
  by_cases hv : w.isValuePrim m = true
  · rw [if_pos hv]
    have hn : ¬ w.NeedsAdapter k sel m := fun hn => by
      have := hn.1
      rw [hv] at this
      cases this
    refine ⟨by simp [hn], fun w' t he => ?_⟩
    cases he
    exact ⟨w.adapters, rfl, .inr ⟨hn, rfl⟩, .inl ⟨hv, rfl⟩⟩
  · rw [if_neg hv]
    have hv : w.isValuePrim m = false := Bool.not_eq_true _ ▸ hv
    cases hw : w.warmNmethod k sel with
    | some nm =>
      have hn : ¬ w.NeedsAdapter k sel m := fun hn => by
        have := hn.2.1
        rw [hw] at this
        cases this
      refine ⟨by simp [hn], fun w' t he => ?_⟩
      cases he
      refine ⟨w.adapters, rfl, .inr ⟨hn, rfl⟩, .inr (.inl ⟨nm, ?_, ?_⟩)⟩
      · unfold warmNmethod at hw
        split at hw
        · next nm' hnm =>
          split at hw
          · cases hw
          · cases hw
            exact hnm
        · cases hw
      · cases useVerified with
        | true => exact .inr rfl
        | false => exact .inl rfl
    | none =>
      have hneeds : w.NeedsAdapter k sel m ↔ w.adapters.cached m = none := by
        unfold NeedsAdapter
        simp [hv, hw]
      obtain ⟨hnone, hsome⟩ := adapterEntry_spec w m room
      refine ⟨by rw [hneeds]; exact hnone, fun w' t he => ?_⟩
      obtain ⟨adapters, rfl, hgrown, a, hcached, hbase⟩ := hsome w' t he
      refine ⟨adapters, rfl, ?_, .inr (.inr ⟨a, hcached, hbase⟩)⟩
      rcases hgrown with rfl | ⟨h, off, hroom, hc, rfl⟩
      · refine .inr ⟨fun hn => ?_, rfl⟩
        rw [hneeds.mp hn] at hcached
        cases hcached
      · exact .inl ⟨hneeds.mpr hc, h, off, hroom, rfl⟩

theorem resolveSuperTargetEntry_spec (w : Linker) (k sel m : Addr)
    (room : Option (CodeHandle × Nat)) :
    (w.resolveSuperTargetEntry k sel m room = none ↔ w.NeedsSuperAdapter k sel m ∧ room = none) ∧
    ∀ w' t, w.resolveSuperTargetEntry k sel m room = some (w', t) →
      ∃ adapters, w' = { w with adapters } ∧ w.adapters.Grown m room adapters ∧
        w'.Enters k sel m t := by
  unfold resolveSuperTargetEntry NeedsSuperAdapter
  by_cases hd : w.selfDevirtAt k sel = true
  · rw [if_pos hd]
    obtain ⟨hnone, hsome⟩ := adapterEntry_spec w m room
    refine ⟨by simp [hd, hnone], fun w' t he => ?_⟩
    obtain ⟨adapters, rfl, hgrown, a, hcached, hbase⟩ := hsome w' t he
    exact ⟨adapters, rfl, hgrown, .inr (.inr ⟨a, hcached, hbase⟩)⟩
  · rw [if_neg hd]
    obtain ⟨hnone, hsome⟩ := resolveTargetEntry_spec w k sel m true room
    refine ⟨by simp [hd, hnone], fun w' t he => ?_⟩
    obtain ⟨adapters, hw', hbuilt, henters⟩ := hsome w' t he
    exact ⟨adapters, hw', hbuilt.grown, henters⟩

/-- A target stays one while adapters for other methods are built. -/
theorem Enters.grown (h : w.Enters k sel m t) {m' : Addr} {adapters : AdapterTable}
    (hfresh : w.adapters.FreshPool room) (hg : w.adapters.Grown m' room adapters) :
    Enters { w with adapters } k sel m t := by
  rcases hg with rfl | ⟨hd, off, hroom, hnone, rfl⟩
  · exact h
  · rcases h with hv | hn | ⟨a, hcached, hbase⟩
    · exact .inl hv
    · exact .inr (.inl hn)
    · refine .inr (.inr ⟨a, ?_, hbase⟩)
      change ((w.adapters.make hd off m').1).cached m = some a
      rw [cached_make (hfresh hd off hroom), if_neg]
      · exact hcached
      · rintro rfl
        rw [hnone] at hcached
        cases hcached

/-- After the resolution of `m'`, an adapter for `m` is needed as before, unless it was just built. -/
theorem Built.needsAdapter_iff {m' k' : Addr} {adapters : AdapterTable}
    (h : w.Built k' sel m' room adapters) (hfresh : w.adapters.FreshPool room) :
    NeedsAdapter { w with adapters } k sel m ↔
      w.NeedsAdapter k sel m ∧ ¬ (m = m' ∧ w.NeedsAdapter k' sel m') := by
  rcases h with ⟨hn, hd, off, hroom, rfl⟩ | ⟨hn, rfl⟩
  · have hcached : (w.adapters.make hd off m').1.cached m =
        if m = m' then some ⟨hd, off⟩ else w.adapters.cached m := cached_make (hfresh hd off hroom)
    have hleft : NeedsAdapter { w with adapters := (w.adapters.make hd off m').1 } k sel m ↔
        w.isValuePrim m = false ∧ w.warmNmethod k sel = none ∧
          (w.adapters.make hd off m').1.cached m = none := Iff.rfl
    rw [hleft, hcached]
    by_cases hm : m = m'
    · simp [hm, hn]
    · rw [if_neg hm]
      simp [hm, NeedsAdapter]
  · simp [hn]

end Targets

end Linker

/-! ## The invariant -/

/-- What the patched call of a site goes to. -/
def callTarget (resolveAddr : Nat) : IcState → Nat
  | .unresolved => resolveAddr
  | .mono _ t => t
  | .pic stub => stub.base
  | .mega stub => stub.base

/-- In one of the states, lookup of `k` found the method that `t` enters. -/
def ResolvedIn (hist : List Linker) (k sel : Addr) (t : Nat) : Prop :=
  ∃ w ∈ hist, ∃ m, w.vm.lookupUncached k sel = some m ∧ w.Enters k sel m t

/-- The arms of a PIC: distinct classes, at most four, each resolved by lookup of its class. -/
structure ArmsOk (hist : List Linker) (sel : Addr) (pairs : List (Addr × Nat)) : Prop where
  distinct : (pairs.map Prod.fst).Nodup
  length : pairs.length ≤ picMaxEntries
  resolved : ∀ p ∈ pairs, ResolvedIn hist p.1 sel p.2

/-- A super site is only ever linked to its fixed class. -/
def SiteOk (hist : List Linker) (pics : PicTable) (site : IcSite) : Prop :=
  match site.state with
  | .unresolved => True
  | .mono k t => (∀ sk, site.superKlass = some sk → k = sk) ∧ ResolvedIn hist k site.selector t
  | .pic stub => site.superKlass = none ∧
      ∃ d, pics stub.base = some d ∧ d.handle = stub ∧ ArmsOk hist site.selector d.pairs
  | .mega _ => site.superKlass = none

/-- The sites of the code, against the states a run went through. -/
structure CodeInv (hist : List Linker) (resolveAddr : Nat) (c : Code) : Prop where
  coherent : Coherent c.ct
  sitesOk : SitesOk c
  offsets : ∀ i nm, c.ct.get i = some nm → (nm.icSites.map (·.off)).Nodup ∧
    ∀ site ∈ nm.icSites, site.off + callInsnLen < nm.code.len
  siteOk : ∀ i nm, c.ct.get i = some nm → ∀ site ∈ nm.icSites, SiteOk hist c.pics site
  linked : ∀ i nm, c.ct.get i = some nm → ∀ site ∈ nm.icSites,
    c.calls (nm.code.base + site.off) = callTarget resolveAddr site.state

/-- The lookup cache is true, and what resolved once still resolves. -/
structure VmInv (hist : List Linker) (vm : Vm) : Prop where
  cache : CacheOk vm
  resolves : ∀ w ∈ hist, ∀ k s, (w.vm.lookupUncached k s).isSome → (vm.lookupUncached k s).isSome

section Invariant

variable {hist hist' : List Linker} {resolveAddr : Nat} {c : Code}

theorem ResolvedIn.mono {k sel : Addr} {t : Nat} (h : ResolvedIn hist k sel t) (hsub : hist ⊆ hist') :
    ResolvedIn hist' k sel t := by
  obtain ⟨w, hw, rest⟩ := h
  exact ⟨w, hsub hw, rest⟩

theorem SiteOk.mono {pics : PicTable} {site : IcSite} (h : SiteOk hist pics site)
    (hsub : hist ⊆ hist') : SiteOk hist' pics site := by
  unfold SiteOk at h ⊢
  cases hst : site.state with
  | unresolved => trivial
  | mono k t =>
    simp only [hst] at h
    exact ⟨h.1, h.2.mono hsub⟩
  | pic stub =>
    simp only [hst] at h
    obtain ⟨hsup, d, hd, hh, harms⟩ := h
    exact ⟨hsup, d, hd, hh, harms.distinct, harms.length, fun p hp => (harms.resolved p hp).mono hsub⟩
  | mega stub =>
    simp only [hst] at h
    exact h

theorem CodeInv.mono (h : CodeInv hist resolveAddr c) (hsub : hist ⊆ hist') :
    CodeInv hist' resolveAddr c :=
  ⟨h.coherent, h.sitesOk, h.offsets, fun i nm hget site hsite => (h.siteOk i nm hget site hsite).mono hsub,
    h.linked⟩

/-- Different sites have different call instructions. -/
theorem CodeInv.addr_inj (h : CodeInv hist resolveAddr c) {i i' a b : Nat} {nm nm' : Nmethod}
    {site site' : IcSite} (hget : c.ct.get i = some nm) (hget' : c.ct.get i' = some nm')
    (ha : nm.icSites[a]? = some site) (hb : nm'.icSites[b]? = some site')
    (heq : nm.code.base + site.off = nm'.code.base + site'.off) : i = i' ∧ a = b := by
  have hlt := (h.offsets i nm hget).2 site (List.mem_of_getElem? ha)
  have hlt' := (h.offsets i' nm' hget').2 site' (List.mem_of_getElem? hb)
  have hi : i = i' := by
    by_contra hne
    rcases h.coherent.apart i i' nm nm' hget hget' hne with hle | hle
    · omega
    · omega
  subst hi
  rw [hget] at hget'
  cases hget'
  refine ⟨rfl, ?_⟩
  have hoff : site.off = site'.off := by omega
  have hla := (List.getElem?_eq_some_iff.mp ha).1
  have hnd := (h.offsets i nm hget).1
  refine (List.getElem?_inj (by rw [List.length_map]; exact hla) hnd).mp ?_
  rw [List.getElem?_map, List.getElem?_map, ha, hb, Option.map_some, Option.map_some, hoff]

/-- One site is linked anew and the PICs change, but not those of the other sites. -/
theorem CodeInv.relink (h : CodeInv hist resolveAddr c) {i j : Nat} {nm : Nmethod} {site : IcSite}
    (hget : c.ct.get i = some nm) (hsite : nm.icSites[j]? = some site) {pics : PicTable}
    {freed : List CodeHandle} {state : IcState} {ct' : CodeTable}
    (hct : c.ct.setSiteState i j state = some ct')
    (hpics : ∀ (i' : Nat) (nm' : Nmethod) (j' : Nat) (site' : IcSite) (stub : CodeHandle),
      c.ct.get i' = some nm' → nm'.icSites[j']? = some site' → site'.state = .pic stub →
      ¬ (i' = i ∧ j' = j) →
        pics stub.base = c.pics stub.base ∧ ∀ stub', state = .pic stub' → stub'.base ≠ stub.base)
    (hok : SiteOk hist pics { site with state }) :
    CodeInv hist resolveAddr
      { ct := ct', pics, freed,
        calls := Function.update c.calls (nm.code.base + site.off) (callTarget resolveAddr state) } := by
  obtain ⟨nm₀, site₀, hget₀, hsite₀, hg, -⟩ := setSiteState_spec hct
  rw [hget] at hget₀
  cases hget₀
  rw [hsite] at hsite₀
  cases hsite₀
  have hj := (List.getElem?_eq_some_iff.mp hsite).1
  -- a site of the new table is the relinked one, or was there
  have hold : ∀ (i' : Nat) (nm' : Nmethod) (j' : Nat) (site' : IcSite), ct'.get i' = some nm' →
      nm'.icSites[j']? = some site' →
      (i' = i ∧ j' = j ∧ site' = { site with state } ∧ nm'.code = nm.code) ∨
      (¬ (i' = i ∧ j' = j) ∧ ∃ nm₁, c.ct.get i' = some nm₁ ∧ nm₁.icSites[j']? = some site' ∧
        nm'.code = nm₁.code) := by
    intro i' nm' j' site' hget' hsite'
    rw [hg] at hget'
    split at hget'
    next hi =>
      cases hget'
      simp only [List.getElem?_set] at hsite'
      split at hsite'
      next hjj =>
        cases hsite'
        exact .inl ⟨hi, hjj.symm, rfl, rfl⟩
      next hjj =>
        exact .inr ⟨fun hc => hjj hc.2.symm, nm, by rw [hi]; exact hget, hsite', rfl⟩
    next hi => exact .inr ⟨fun hc => hi hc.1, nm', hget', hsite', rfl⟩
  have hpic : ∀ (i' : Nat) (nm' : Nmethod) (j' : Nat) (site' : IcSite) (stub : CodeHandle),
      ct'.get i' = some nm' → nm'.icSites[j']? = some site' → site'.state = .pic stub →
      ∃ d, pics stub.base = some d ∧ d.handle = stub := by
    intro i' nm' j' site' stub hget' hsite' hst
    rcases hold i' nm' j' site' hget' hsite' with ⟨-, -, rfl, -⟩ | ⟨hne, nm₁, hget₁, hsite₁, -⟩
    · unfold SiteOk at hok
      simp only at hst
      simp only [hst] at hok
      obtain ⟨-, d, hd, hh, -⟩ := hok
      exact ⟨d, hd, hh⟩
    · rw [(hpics i' nm₁ j' site' stub hget₁ hsite₁ hst hne).1]
      exact h.sitesOk.registered i' nm₁ hget₁ site' (List.mem_of_getElem? hsite₁) stub hst
  refine ⟨h.coherent.setSiteState hct, ⟨?_, ?_⟩, ?_, ?_, ?_⟩
  · intro i' nm' hget' site' hmem stub hst
    obtain ⟨j', hj'⟩ := List.mem_iff_getElem?.mp hmem
    exact hpic i' nm' j' site' stub hget' hj' hst
  · intro i₁ i₂ nm₁ nm₂ a b s₁ s₂ st₁ st₂ hg₁ hg₂ ha hb hst₁ hst₂ hbase
    rcases hold i₁ nm₁ a s₁ hg₁ ha with ⟨rfl, rfl, rfl, -⟩ | ⟨hne₁, n₁, hn₁, hs₁, -⟩
    · rcases hold i₂ nm₂ b s₂ hg₂ hb with ⟨rfl, rfl, -, -⟩ | ⟨hne₂, n₂, hn₂, hs₂, -⟩
      · exact ⟨rfl, rfl⟩
      · exact absurd hbase ((hpics i₂ n₂ b s₂ st₂ hn₂ hs₂ hst₂ hne₂).2 st₁ hst₁)
    · rcases hold i₂ nm₂ b s₂ hg₂ hb with ⟨rfl, rfl, rfl, -⟩ | ⟨hne₂, n₂, hn₂, hs₂, -⟩
      · exact absurd hbase.symm ((hpics i₁ n₁ a s₁ st₁ hn₁ hs₁ hst₁ hne₁).2 st₂ hst₂)
      · exact h.sitesOk.owned i₁ i₂ n₁ n₂ a b s₁ s₂ st₁ st₂ hn₁ hn₂ hs₁ hs₂ hst₁ hst₂ hbase
  · intro i' nm' hget'
    rw [hg] at hget'
    split at hget'
    · cases hget'
      obtain ⟨hnd, hlt⟩ := h.offsets i nm hget
      have hoffs : (nm.icSites.set j { site with state }).map (·.off) = nm.icSites.map (·.off) := by
        rw [List.map_set]
        apply List.ext_getElem? fun n => ?_
        rw [List.getElem?_set]
        split
        next hn =>
          subst hn
          rw [List.length_map, if_pos hj, List.getElem?_map, hsite]
          rfl
        next => rfl
      refine ⟨by rw [hoffs]; exact hnd, fun site' hmem => ?_⟩
      have : site'.off ∈ (nm.icSites.set j { site with state }).map (·.off) :=
        List.mem_map.mpr ⟨site', hmem, rfl⟩
      rw [hoffs] at this
      obtain ⟨site₁, hm₁, hoff⟩ := List.mem_map.mp this
      have := hlt site₁ hm₁
      rw [← hoff]
      exact this
    · exact h.offsets i' nm' hget'
  · intro i' nm' hget' site' hmem
    obtain ⟨j', hj'⟩ := List.mem_iff_getElem?.mp hmem
    rcases hold i' nm' j' site' hget' hj' with ⟨-, -, rfl, -⟩ | ⟨hne, nm₁, hget₁, hsite₁, -⟩
    · exact hok
    · have hs := h.siteOk i' nm₁ hget₁ site' (List.mem_of_getElem? hsite₁)
      unfold SiteOk at hs ⊢
      cases hst : site'.state with
      | unresolved => trivial
      | mono k t => simpa only [hst] using hs
      | mega stub => simpa only [hst] using hs
      | pic stub =>
        simp only [hst] at hs
        simp only [(hpics i' nm₁ j' site' stub hget₁ hsite₁ hst hne).1]
        exact hs
  · intro i' nm' hget' site' hmem
    obtain ⟨j', hj'⟩ := List.mem_iff_getElem?.mp hmem
    rcases hold i' nm' j' site' hget' hj' with ⟨-, -, rfl, hcode⟩ | ⟨hne, nm₁, hget₁, hsite₁, hcode⟩
    · rw [hcode]
      exact Function.update_self ..
    · rw [hcode]
      simp only
      rw [Function.update_of_ne]
      · exact h.linked i' nm₁ hget₁ site' (List.mem_of_getElem? hsite₁)
      · intro heq
        exact hne (h.addr_inj hget₁ hget hsite₁ hsite heq)

end Invariant

/-! ## One resolution -/

/-- The moves of the lattice. -/
inductive Move : IcState → IcState → Prop
  | stay (s : IcState) : Move s s
  | link (k : Addr) (t : Nat) : Move .unresolved (.mono k t)
  | relink (k : Addr) (t t' : Nat) : Move (.mono k t) (.mono k t')
  | promote (k : Addr) (t : Nat) (stub : CodeHandle) : Move (.mono k t) (.pic stub)
  | rebuild (stub stub' : CodeHandle) : Move (.pic stub) (.pic stub')
  | megamorphic (stub stub' : CodeHandle) : Move (.pic stub) (.mega stub')

namespace Linker

/-- What the allocator hands out is in use nowhere. -/
structure FreshAllocs (w : Linker) (al : Allocs) : Prop where
  oldAdapter : w.adapters.FreshPool al.oldAdapter
  newAdapter : w.adapters.FreshPool al.newAdapter
  apart : ∀ h off h' off', al.oldAdapter = some (h, off) → al.newAdapter = some (h', off') →
    h.base + off ≠ h'.base + off'
  stub : ∀ h, al.stub = some h → w.code.pics h.base = none

/-- The move of the site needs a stub of its own or a trampoline that is not there yet. -/
def NeedsStub (w : Linker) (site : IcSite) (k : Addr) : Prop :=
  site.superKlass = none ∧
    match site.state with
    | .unresolved => False
    | .mono oldK _ => oldK ≠ k
    | .pic stub => ∃ d, w.code.pics stub.base = some d ∧
        (k ∈ d.pairs.map Prod.fst ∨ d.pairs.length < picMaxEntries ∨ w.mega site.selector = none)
    | .mega _ => False

/-- There is room for the adapters of an ordinary site's resolution. -/
def TransitionRoom (w : Linker) (site : IcSite) (k m : Addr) (al : Allocs) : Prop :=
  match site.state with
  | .mono oldK _ =>
    if oldK = k then w.NeedsAdapter k site.selector m → al.newAdapter ≠ none
    else ∀ oldM, w.vm.lookupUncached oldK site.selector = some oldM →
      (w.NeedsAdapter oldK site.selector oldM → al.oldAdapter ≠ none) ∧
      (w.NeedsAdapter k site.selector m ∧ ¬ (m = oldM ∧ w.NeedsAdapter oldK site.selector oldM) →
        al.newAdapter ≠ none)
  | _ => w.NeedsAdapter k site.selector m → al.newAdapter ≠ none

/-- What a transition computes: the target, and what is to be patched. -/
structure Moved (hist : List Linker) (w : Linker) (i j : Nat) (site : IcSite) (k m : Addr)
    (al : Allocs) (w₁ : Linker) (patch : Option (Nat × IcState)) (t : Nat) : Prop where
  ct : w₁.code.ct = w.code.ct
  calls : w₁.code.calls = w.code.calls
  resolveAddr : w₁.resolveAddr = w.resolveAddr
  lookups : ∀ k s, w₁.vm.lookupUncached k s = w.vm.lookupUncached k s
  cache : CacheOk w₁.vm
  enters : w₁.Enters k site.selector m t
  declined : patch = none → w₁.code = w.code
  target : ∀ target s, patch = some (target, s) → target = callTarget w.resolveAddr s
  move : ∀ target s, patch = some (target, s) → Move site.state s
  exhausted : ∀ target s, patch = some (target, s) → al.stub = none → ¬ w.NeedsStub site k
  others : ∀ target s, patch = some (target, s) →
    ∀ (i' : Nat) (nm' : Nmethod) (j' : Nat) (site' : IcSite) (stub : CodeHandle),
      w.code.ct.get i' = some nm' → nm'.icSites[j']? = some site' → site'.state = .pic stub →
      ¬ (i' = i ∧ j' = j) →
        w₁.code.pics stub.base = w.code.pics stub.base ∧
          ∀ stub', s = .pic stub' → stub'.base ≠ stub.base
  siteOk : ∀ target s, patch = some (target, s) → ∀ hist', hist ⊆ hist' →
    (∀ k' t' m', w.vm.lookupUncached k' site.selector = some m' →
      w₁.Enters k' site.selector m' t' → ResolvedIn hist' k' site.selector t') →
    SiteOk hist' w₁.code.pics { site with state := s }

section Transition

variable {hist : List Linker} {w : Linker} {i j : Nat} {nm : Nmethod} {site : IcSite} {k m : Addr}
  {al : Allocs}

theorem lookup_spec {w : Linker} (hc : CacheOk w.vm) (k s : Addr) :
    ∃ c, w.lookup k s = (w.vm.lookupUncached k s, { w with vm := { w.vm with lookupCache := c } }) ∧
      CacheOk { w.vm with lookupCache := c } := by
  obtain ⟨c, heq, hc⟩ := lookup_eq hc k s
  refine ⟨c, ?_, hc⟩
  unfold Linker.lookup
  rw [heq]

/-- Linking a site to one target: the first send, or one of the linked class. -/
theorem moved_mono {adapters : AdapterTable} {t : Nat} (hcache : CacheOk w.vm)
    (hsup : site.superKlass = none) (hm : w.vm.lookupUncached k site.selector = some m)
    (hent : Enters { w with adapters } k site.selector m t) (hmove : Move site.state (.mono k t))
    (hstub : ¬ w.NeedsStub site k) :
    Moved hist w i j site k m al { w with adapters } (some (t, .mono k t)) t := by
  refine ⟨rfl, rfl, rfl, fun _ _ => rfl, hcache, hent, nofun, ?_, ?_, ?_, ?_, ?_⟩
  · intro target s hp
    cases hp
    rfl
  · intro target s hp
    cases hp
    exact hmove
  · intro target s hp _
    exact hstub
  · intro target s hp i' nm' j' site' stub _ _ _ _
    cases hp
    exact ⟨rfl, fun stub' hst => by cases hst⟩
  · intro target s hp hist' _ hres
    cases hp
    refine ⟨fun sk hsk => ?_, hres k t m hm hent⟩
    rw [hsup] at hsk
    cases hsk

theorem transition_unresolved (hcache : CacheOk w.vm) (hsup : site.superKlass = none)
    (hm : w.vm.lookupUncached k site.selector = some m)
    (hstate : site.state = .unresolved ∨ ∃ t₀, site.state = .mono k t₀) :
    (w.TransitionRoom site k m al ↔ ∃ w₁ patch t, w.transition site k m al = some (w₁, patch, t)) ∧
    ∀ w₁ patch t, w.transition site k m al = some (w₁, patch, t) →
      Moved hist w i j site k m al w₁ patch t := by
  obtain ⟨hnone, hsome⟩ := resolveTargetEntry_spec w k site.selector m false al.newAdapter
  have htr : w.transition site k m al =
      (w.resolveTargetEntry k site.selector m false al.newAdapter).bind fun (w, t) =>
        some (w, some (t, .mono k t), t) := by
    unfold transition
    rcases hstate with hst | ⟨t₀, hst⟩
    · simp only [hst]
      rfl
    · simp only [hst, if_true]
      rfl
  have hroom : w.TransitionRoom site k m al ↔
      (w.NeedsAdapter k site.selector m → al.newAdapter ≠ none) := by
    unfold TransitionRoom
    rcases hstate with hst | ⟨t₀, hst⟩
    · simp only [hst]
    · simp only [hst, if_true]
  rw [htr, hroom]
  cases hr : w.resolveTargetEntry k site.selector m false al.newAdapter with
  | none =>
    obtain ⟨hneeds, hfull⟩ := hnone.mp hr
    refine ⟨⟨fun h => absurd hfull (h hneeds), ?_⟩, ?_⟩
    · rintro ⟨w₁, patch, t, he⟩
      cases he
    · intro w₁ patch t he
      cases he
  | some r =>
    obtain ⟨w₁, t⟩ := r
    obtain ⟨adapters, rfl, hbuilt, hent⟩ := hsome w₁ t hr
    refine ⟨⟨fun _ => ⟨_, _, _, rfl⟩, fun _ hneeds hfull => ?_⟩, ?_⟩
    · rw [hnone.mpr ⟨hneeds, hfull⟩] at hr
      cases hr
    · intro w₁ patch t' he
      cases he
      refine moved_mono hcache hsup hm hent ?_ ?_
      · rcases hstate with hst | ⟨t₀, hst⟩
        · rw [hst]
          exact .link k t
        · rw [hst]
          exact .relink k t₀ t
      · rintro ⟨-, hneeds⟩
        rcases hstate with hst | ⟨t₀, hst⟩
        · simp only [hst] at hneeds
        · simp only [hst] at hneeds
          exact hneeds rfl

/-- Without room for the stub nothing is patched. -/
theorem moved_declined {vm : Vm} {adapters : AdapterTable} {t : Nat} (hcache : CacheOk vm)
    (hlookups : ∀ k s, vm.lookupUncached k s = w.vm.lookupUncached k s)
    (hent : Enters { w with vm, adapters } k site.selector m t) :
    Moved hist w i j site k m al { w with vm, adapters } none t :=
  ⟨rfl, rfl, rfl, hlookups, hcache, hent, fun _ => rfl, nofun, nofun, nofun, nofun, nofun⟩

/-- A fresh stub has an address that no other PIC has. -/
theorem base_ne_of_fresh (hs : SitesOk w.code) {h : CodeHandle} (hfresh : w.code.pics h.base = none)
    {i' j' : Nat} {nm' : Nmethod} {site' : IcSite} {stub : CodeHandle}
    (hget : w.code.ct.get i' = some nm') (hsite : nm'.icSites[j']? = some site')
    (hst : site'.state = .pic stub) : stub.base ≠ h.base := by
  intro heq
  obtain ⟨d, hd, -⟩ := hs.registered i' nm' hget site' (List.mem_of_getElem? hsite) stub hst
  rw [heq, hfresh] at hd
  cases hd

/-- A linked site gets a stub of its own. -/
theorem moved_promote {vm : Vm} {adapters : AdapterTable} {t t₀ : Nat} {oldK : Addr}
    {h : CodeHandle} {pairs : List (Addr × Nat)} (hs : SitesOk w.code) (hcache : CacheOk vm)
    (hlookups : ∀ k s, vm.lookupUncached k s = w.vm.lookupUncached k s)
    (hsup : site.superKlass = none) (hstate : site.state = .mono oldK t₀)
    (hent : Enters { w with vm, adapters } k site.selector m t)
    (hroom : al.stub = some h) (hfresh : w.code.pics h.base = none)
    (harms : ∀ hist', hist ⊆ hist' →
      (∀ k' t' m', w.vm.lookupUncached k' site.selector = some m' →
        Enters { w with vm, adapters } k' site.selector m' t' → ResolvedIn hist' k' site.selector t') →
      ArmsOk hist' site.selector pairs) :
    Moved hist w i j site k m al
      (Linker.buildPic { w with vm, adapters } pairs (some h)).1 (some (h.base, .pic h)) t := by
  refine ⟨rfl, rfl, rfl, hlookups, hcache, hent, nofun, ?_, ?_, ?_, ?_, ?_⟩
  · intro target s hp
    cases hp
    rfl
  · intro target s hp
    cases hp
    rw [hstate]
    exact .promote oldK t₀ h
  · intro target s hp hnone
    rw [hroom] at hnone
    cases hnone
  · intro target s hp i' nm' j' site' stub hget hsite hst _
    cases hp
    have hne := base_ne_of_fresh hs hfresh hget hsite hst
    refine ⟨Function.update_of_ne hne _ _, fun stub' hst' => ?_⟩
    cases hst'
    exact hne.symm
  · intro target s hp hist' hsub hres
    cases hp
    exact ⟨hsup, ⟨h, pairs⟩, Function.update_self .., rfl, harms hist' hsub hres⟩

/-- A PIC is replaced by a fresh one and freed. -/
theorem moved_rebuild {adapters : AdapterTable} {t : Nat} {old : CodeHandle} {h : CodeHandle}
    {pairs : List (Addr × Nat)} (hs : SitesOk w.code) (hcache : CacheOk w.vm)
    (hget : w.code.ct.get i = some nm) (hsite : nm.icSites[j]? = some site)
    (hsup : site.superKlass = none) (hstate : site.state = .pic old)
    (hent : Enters { w with adapters } k site.selector m t)
    (hroom : al.stub = some h) (hfresh : w.code.pics h.base = none)
    (harms : ∀ hist', hist ⊆ hist' →
      (∀ k' t' m', w.vm.lookupUncached k' site.selector = some m' →
        Enters { w with adapters } k' site.selector m' t' → ResolvedIn hist' k' site.selector t') →
      ArmsOk hist' site.selector pairs) :
    Moved hist w i j site k m al
      ((Linker.buildPic { w with adapters } pairs (some h)).1.freePic old)
      (some (h.base, .pic h)) t := by
  refine ⟨rfl, rfl, rfl, fun _ _ => rfl, hcache, hent, nofun, ?_, ?_, ?_, ?_, ?_⟩
  · intro target s hp
    cases hp
    rfl
  · intro target s hp
    cases hp
    rw [hstate]
    exact .rebuild old h
  · intro target s hp hnone
    rw [hroom] at hnone
    cases hnone
  · intro target s hp i' nm' j' site' stub hget' hsite' hst hne
    cases hp
    have hneh := base_ne_of_fresh hs hfresh hget' hsite' hst
    have hneo : stub.base ≠ old.base := fun heq =>
      hne (hs.owned i' i nm' nm j' j site' site stub old hget' hget hsite' hsite hst hstate heq)
    refine ⟨?_, fun stub' hst' => ?_⟩
    · change Function.update (Function.update w.code.pics h.base _) old.base none stub.base = _
      rw [Function.update_of_ne hneo, Function.update_of_ne hneh]
    · cases hst'
      exact hneh.symm
  · intro target s hp hist' hsub hres
    cases hp
    have hne : h.base ≠ old.base := (base_ne_of_fresh hs hfresh hget hsite hstate).symm
    refine ⟨hsup, ⟨h, pairs⟩, ?_, rfl, harms hist' hsub hres⟩
    change Function.update (Function.update w.code.pics h.base _) old.base none h.base = _
    rw [Function.update_of_ne hne, Function.update_self]

/-- A full PIC is freed for the trampoline of the selector. -/
theorem moved_mega {adapters : AdapterTable} {mega : Addr → Option CodeHandle} {t : Nat}
    {old h : CodeHandle} (hs : SitesOk w.code) (hcache : CacheOk w.vm)
    (hget : w.code.ct.get i = some nm) (hsite : nm.icSites[j]? = some site)
    (hsup : site.superKlass = none) (hstate : site.state = .pic old)
    (hent : Enters { w with adapters } k site.selector m t)
    (hroom : al.stub = none → ¬ w.NeedsStub site k) :
    Moved hist w i j site k m al (Linker.freePic { w with adapters, mega } old)
      (some (h.base, .mega h)) t := by
  refine ⟨rfl, rfl, rfl, fun _ _ => rfl, hcache, hent, nofun, ?_, ?_, ?_, ?_, ?_⟩
  · intro target s hp
    cases hp
    rfl
  · intro target s hp
    cases hp
    rw [hstate]
    exact .megamorphic old h
  · intro target s hp
    exact hroom
  · intro target s hp i' nm' j' site' stub hget' hsite' hst hne
    cases hp
    have hneo : stub.base ≠ old.base := fun heq =>
      hne (hs.owned i' i nm' nm j' j site' site stub old hget' hget hsite' hsite hst hstate heq)
    exact ⟨Function.update_of_ne hneo _ _, fun stub' hst' => by cases hst'⟩
  · intro target s hp hist' _ _
    cases hp
    exact hsup

theorem freshPool_grown {table table' : AdapterTable} {room room' : Option (CodeHandle × Nat)}
    {m : Addr} (hg : table.Grown m room table') (hfresh : table.FreshPool room')
    (hapart : ∀ h off h' off', room = some (h, off) → room' = some (h', off') →
      h.base + off ≠ h'.base + off') : table'.FreshPool room' := by
  rcases hg with rfl | ⟨h, off, hroom, -, rfl⟩
  · exact hfresh
  · intro h' off' hroom' e he
    rcases List.mem_cons.mp he with rfl | he
    · exact hapart h off h' off' hroom hroom'
    · exact hfresh h' off' hroom' e (List.mem_of_mem_filter he)

/-- A second class at a linked site. -/
theorem transition_promote (hs : SitesOk w.code) (hcache : CacheOk w.vm)
    (hfresh : w.FreshAllocs al) (hsup : site.superKlass = none)
    (hm : w.vm.lookupUncached k site.selector = some m) {oldK : Addr} {t₀ : Nat}
    (hstate : site.state = .mono oldK t₀) (hne : oldK ≠ k)
    (hold : (w.vm.lookupUncached oldK site.selector).isSome) :
    (w.TransitionRoom site k m al ↔ ∃ w₁ patch t, w.transition site k m al = some (w₁, patch, t)) ∧
    ∀ w₁ patch t, w.transition site k m al = some (w₁, patch, t) →
      Moved hist w i j site k m al w₁ patch t := by
  obtain ⟨oldM, hold⟩ := Option.isSome_iff_exists.mp hold
  obtain ⟨c, hlk, hc⟩ := lookup_spec hcache oldK site.selector
  rw [hold] at hlk
  have hroom : w.TransitionRoom site k m al ↔
      (w.NeedsAdapter oldK site.selector oldM → al.oldAdapter ≠ none) ∧
      (w.NeedsAdapter k site.selector m ∧ ¬ (m = oldM ∧ w.NeedsAdapter oldK site.selector oldM) →
        al.newAdapter ≠ none) := by
    unfold TransitionRoom
    simp only [hstate, if_neg hne, hold, Option.some.injEq, forall_eq']
  generalize hwc : ({ w with vm := { w.vm with lookupCache := c } } : Linker) = wc at hlk
  have htr : w.transition site k m al =
      (wc.resolveTargetEntry oldK site.selector oldM true al.oldAdapter).bind fun r₁ =>
        (r₁.1.resolveTargetEntry k site.selector m true al.newAdapter).bind fun r₂ =>
          some ((r₂.1.buildPic [(oldK, r₁.2), (k, r₂.2)] al.stub).1,
            (r₂.1.buildPic [(oldK, r₁.2), (k, r₂.2)] al.stub).2.map fun h => (h.base, .pic h), r₂.2) := by
    unfold transition
    simp only [hstate, if_neg hne, hlk]
    rfl
  have hneeds : ∀ k m, wc.NeedsAdapter k site.selector m ↔ w.NeedsAdapter k site.selector m := by
    intro k m
    rw [← hwc]
    rfl
  have hadapters : wc.adapters = w.adapters := by rw [← hwc]
  obtain ⟨hnone₁, hsome₁⟩ := resolveTargetEntry_spec wc oldK site.selector oldM true al.oldAdapter
  rw [htr, hroom]
  cases hr₁ : wc.resolveTargetEntry oldK site.selector oldM true al.oldAdapter with
  | none =>
    obtain ⟨hn, hfull⟩ := hnone₁.mp hr₁
    refine ⟨⟨fun h => absurd hfull (h.1 ((hneeds _ _).mp hn)), ?_⟩, ?_⟩
    · rintro ⟨w₁, patch, t, he⟩
      cases he
    · intro w₁ patch t he
      cases he
  | some r₁ =>
    obtain ⟨w₁, oldT⟩ := r₁
    obtain ⟨adapters₁, hw₁, hbuilt₁, hent₁⟩ := hsome₁ w₁ oldT hr₁
    have hfirst : w.NeedsAdapter oldK site.selector oldM → al.oldAdapter ≠ none := by
      intro hn hfull
      rw [hnone₁.mpr ⟨(hneeds _ _).mpr hn, hfull⟩] at hr₁
      cases hr₁
    have hsecond : w₁.NeedsAdapter k site.selector m ↔ w.NeedsAdapter k site.selector m ∧
        ¬ (m = oldM ∧ w.NeedsAdapter oldK site.selector oldM) := by
      rw [hw₁, hbuilt₁.needsAdapter_iff (hadapters ▸ hfresh.oldAdapter), hneeds, hneeds]
    obtain ⟨hnone₂, hsome₂⟩ := resolveTargetEntry_spec w₁ k site.selector m true al.newAdapter
    simp only [Option.bind_some]
    cases hr₂ : w₁.resolveTargetEntry k site.selector m true al.newAdapter with
    | none =>
      obtain ⟨hn, hfull⟩ := hnone₂.mp hr₂
      refine ⟨⟨fun h => absurd hfull (h.2 (hsecond.mp hn)), ?_⟩, ?_⟩
      · rintro ⟨w₂, patch, t, he⟩
        cases he
      · intro w₂ patch t he
        cases he
    | some r₂ =>
      obtain ⟨w₂, newT⟩ := r₂
      obtain ⟨adapters₂, hw₂, hbuilt₂, hent₂⟩ := hsome₂ w₂ newT hr₂
      refine ⟨⟨fun _ => ⟨_, _, _, rfl⟩, fun _ => ⟨hfirst, fun hn hfull => ?_⟩⟩, ?_⟩
      · rw [hnone₂.mpr ⟨hsecond.mpr hn, hfull⟩] at hr₂
        cases hr₂
      · -- the old arm's target survives the second adapter
        have hfresh₂ : w₁.adapters.FreshPool al.newAdapter := by
          rw [hw₁]
          exact freshPool_grown (hadapters ▸ hbuilt₁.grown) hfresh.newAdapter hfresh.apart
        have hold₂ : w₂.Enters oldK site.selector oldM oldT := by
          rw [hw₂]
          exact hent₁.grown hfresh₂ hbuilt₂.grown
        subst hw₂
        subst hw₁
        subst hwc
        intro w' patch t he
        cases hstub : al.stub with
        | none =>
          rw [hstub] at he
          cases he
          exact moved_declined hc (fun _ _ => rfl) hent₂
        | some h =>
          rw [hstub] at he
          cases he
          refine moved_promote hs hc (fun _ _ => rfl) hsup hstate hent₂ hstub (hfresh.stub h hstub) ?_
          intro hist' _ hres
          refine ⟨by simp [hne], show 2 ≤ 4 by decide, fun p hp => ?_⟩
          rcases List.mem_cons.mp hp with rfl | hp
          · exact hres oldK oldT oldM hold hold₂
          · rcases List.mem_singleton.mp hp with rfl
            exact hres k newT m hm hent₂

theorem rekey_spec (k : Addr) (t : Nat) (pairs : List (Addr × Nat)) :
    (rekey k t pairs).map Prod.fst = pairs.map Prod.fst ∧
      ∀ p ∈ rekey k t pairs, p ∈ pairs ∨ p = (k, t) := by
  induction pairs with
  | nil => exact ⟨rfl, fun p hp => by cases hp⟩
  | cons q pairs ih =>
    unfold rekey
    split
    next hq =>
      refine ⟨rfl, fun p hp => ?_⟩
      rcases List.mem_cons.mp hp with rfl | hp
      · exact .inr (by rw [hq])
      · exact .inl (List.mem_cons_of_mem _ hp)
    next =>
      refine ⟨by rw [List.map_cons, List.map_cons, ih.1], fun p hp => ?_⟩
      rcases List.mem_cons.mp hp with rfl | hp
      · exact .inl List.mem_cons_self
      · exact (ih.2 p hp).imp_left (List.mem_cons_of_mem _)

/-- Arms that were there, or the one of this send. -/
theorem ArmsOk.of_old {hist' : List Linker} {sel : Addr} {pairs pairs' : List (Addr × Nat)} {t : Nat}
    (harms : ArmsOk hist sel pairs) (hsub : hist ⊆ hist') (hres : ResolvedIn hist' k sel t)
    (hdistinct : (pairs'.map Prod.fst).Nodup) (hlen : pairs'.length ≤ picMaxEntries)
    (hmem : ∀ p ∈ pairs', p ∈ pairs ∨ p = (k, t)) : ArmsOk hist' sel pairs' := by
  refine ⟨hdistinct, hlen, fun p hp => ?_⟩
  rcases hmem p hp with hp | rfl
  · exact (harms.resolved p hp).mono hsub
  · exact hres

/-- A miss at a polymorphic site: a stale arm, one more arm, or too many. -/
theorem transition_pic (hs : SitesOk w.code) (hcache : CacheOk w.vm) (hfresh : w.FreshAllocs al)
    (hget : w.code.ct.get i = some nm) (hsite : nm.icSites[j]? = some site)
    (hsup : site.superKlass = none) (hm : w.vm.lookupUncached k site.selector = some m)
    {stub : CodeHandle} (hstate : site.state = .pic stub) {d : PicDesc}
    (hd : w.code.pics stub.base = some d) (harms : ArmsOk hist site.selector d.pairs) :
    (w.TransitionRoom site k m al ↔ ∃ w₁ patch t, w.transition site k m al = some (w₁, patch, t)) ∧
    ∀ w₁ patch t, w.transition site k m al = some (w₁, patch, t) →
      Moved hist w i j site k m al w₁ patch t := by
  have hpairs : w.code.pics.pairsOf stub = some d.pairs := by
    unfold PicTable.pairsOf
    rw [hd]
    rfl
  have hroom : w.TransitionRoom site k m al ↔
      (w.NeedsAdapter k site.selector m → al.newAdapter ≠ none) := by
    unfold TransitionRoom
    simp only [hstate]
  have htr : w.transition site k m al =
      (w.resolveTargetEntry k site.selector m true al.newAdapter).bind fun r =>
        let rp :=
          if d.pairs.any fun p => p.1 == k then
            replacePic stub .pic (r.1.buildPic (rekey k r.2 d.pairs) al.stub)
          else if d.pairs.length < picMaxEntries then
            replacePic stub .pic (r.1.buildPic (d.pairs ++ [(k, r.2)]) al.stub)
          else replacePic stub .mega (r.1.megaStub site.selector al.stub)
        some (rp.1, rp.2, r.2) := by
    unfold transition
    simp only [hstate, hpairs]
    rfl
  obtain ⟨hnone, hsome⟩ := resolveTargetEntry_spec w k site.selector m true al.newAdapter
  rw [htr, hroom]
  cases hr : w.resolveTargetEntry k site.selector m true al.newAdapter with
  | none =>
    obtain ⟨hneeds, hfull⟩ := hnone.mp hr
    refine ⟨⟨fun h => absurd hfull (h hneeds), ?_⟩, ?_⟩
    · rintro ⟨w₁, patch, t, he⟩
      cases he
    · intro w₁ patch t he
      cases he
  | some r =>
    obtain ⟨w₁, newT⟩ := r
    obtain ⟨adapters, rfl, hbuilt, hent⟩ := hsome w₁ newT hr
    refine ⟨⟨fun _ => ⟨_, _, _, rfl⟩, fun _ hneeds hfull => ?_⟩, ?_⟩
    · rw [hnone.mpr ⟨hneeds, hfull⟩] at hr
      cases hr
    · intro w' patch t he
      simp only [Option.bind_some, Option.some.injEq, Prod.mk.injEq] at he
      obtain ⟨rfl, rfl, rfl⟩ := he
      by_cases hany : d.pairs.any fun p => p.1 == k
      · -- the arm of `k` is stale
        rw [if_pos hany]
        cases hstub : al.stub with
        | none => exact moved_declined hcache (fun _ _ => rfl) hent
        | some h =>
          refine moved_rebuild hs hcache hget hsite hsup hstate hent hstub (hfresh.stub h hstub) ?_
          intro hist' hsub hres
          obtain ⟨hfst, hmem⟩ := rekey_spec k newT d.pairs
          refine ArmsOk.of_old harms hsub (hres k newT m hm hent) (by rw [hfst]; exact harms.distinct)
            ?_ hmem
          have hlen : (rekey k newT d.pairs).length = d.pairs.length := by
            have := congrArg List.length hfst
            rwa [List.length_map, List.length_map] at this
          rw [hlen]
          exact harms.length
      · rw [if_neg hany]
        have hnotin : k ∉ d.pairs.map Prod.fst := by
          intro hk
          obtain ⟨p, hp, hpk⟩ := List.mem_map.mp hk
          exact hany (List.any_eq_true.mpr ⟨p, hp, by rw [hpk]; exact beq_self_eq_true k⟩)
        by_cases hlt : d.pairs.length < picMaxEntries
        · -- one more arm
          rw [if_pos hlt]
          cases hstub : al.stub with
          | none => exact moved_declined hcache (fun _ _ => rfl) hent
          | some h =>
            refine moved_rebuild hs hcache hget hsite hsup hstate hent hstub (hfresh.stub h hstub) ?_
            intro hist' hsub hres
            refine ArmsOk.of_old harms hsub (hres k newT m hm hent) ?_ ?_ fun p hp => ?_
            · rw [List.map_append]
              exact List.nodup_append.mpr ⟨harms.distinct, List.nodup_singleton k, fun a ha b hb => by
                rcases List.mem_singleton.mp hb with rfl
                exact fun hab => hnotin (hab ▸ ha)⟩
            · rw [List.length_append]
              exact hlt
            · rcases List.mem_append.mp hp with hp | hp
              · exact .inl hp
              · exact .inr (List.mem_singleton.mp hp)
        · -- no room for a fifth
          rw [if_neg hlt]
          unfold megaStub
          simp only
          cases hmega : w.mega site.selector with
          | some h =>
            refine moved_mega hs hcache hget hsite hsup hstate hent fun _ => ?_
            rintro ⟨-, hneeds⟩
            simp only [hstate] at hneeds
            obtain ⟨d', hd', hneeds⟩ := hneeds
            rw [hd] at hd'
            cases hd'
            rcases hneeds with hk | hl | hno
            · exact hnotin hk
            · exact hlt hl
            · rw [hmega] at hno
              cases hno
          | none =>
            cases hstub : al.stub with
            | none => exact moved_declined hcache (fun _ _ => rfl) hent
            | some h =>
              exact moved_mega hs hcache hget hsite hsup hstate hent fun hno => by
                rw [hstub] at hno
                cases hno

theorem transition_spec (hv : VmInv hist w.vm) (hc : CodeInv hist w.resolveAddr w.code)
    (hfresh : w.FreshAllocs al) (hget : w.code.ct.get i = some nm)
    (hsite : nm.icSites[j]? = some site) (hsup : site.superKlass = none)
    (hm : w.vm.lookupUncached k site.selector = some m)
    (hmega : ∀ stub, site.state ≠ .mega stub) :
    (w.TransitionRoom site k m al ↔ ∃ w₁ patch t, w.transition site k m al = some (w₁, patch, t)) ∧
    ∀ w₁ patch t, w.transition site k m al = some (w₁, patch, t) →
      Moved hist w i j site k m al w₁ patch t := by
  have hok := hc.siteOk i nm hget site (List.mem_of_getElem? hsite)
  unfold SiteOk at hok
  cases hstate : site.state with
  | unresolved => exact transition_unresolved hv.cache hsup hm (.inl hstate)
  | mono oldK t₀ =>
    simp only [hstate] at hok
    obtain ⟨-, w₀, hw₀, m₀, hm₀, -⟩ := hok
    by_cases hne : oldK = k
    · subst hne
      exact transition_unresolved hv.cache hsup hm (.inr ⟨t₀, hstate⟩)
    · have hold := hv.resolves w₀ hw₀ oldK site.selector (by rw [hm₀]; rfl)
      exact transition_promote hc.sitesOk hv.cache hfresh hsup hm hstate hne hold
  | pic stub =>
    simp only [hstate] at hok
    obtain ⟨-, d, hd, -, harms⟩ := hok
    exact transition_pic hc.sitesOk hv.cache hfresh hget hsite hsup hm hstate hd harms
  | mega stub => exact absurd hstate (hmega stub)

/-- A return address leads back to its site. -/
theorem findCallerSite_eq (hc : CodeInv hist w.resolveAddr w.code)
    (hget : w.code.ct.get i = some nm) (hsite : nm.icSites[j]? = some site) :
    w.findCallerSite (nm.code.base + site.off + callInsnLen) = some (i, j) := by
  obtain ⟨hnd, hlt⟩ := hc.offsets i nm hget
  have hin := hlt site (List.mem_of_getElem? hsite)
  have hpc : w.code.ct.findByPc (nm.code.base + site.off + callInsnLen) = some i :=
    (hc.coherent.findByPc_iff _ _).mpr ⟨nm, hget, by
      constructor
      · omega
      · omega⟩
  have hoff : nm.code.base + site.off + callInsnLen - callInsnLen - nm.code.base = site.off := by omega
  obtain ⟨hj, hjs⟩ := List.getElem?_eq_some_iff.mp hsite
  have hidx : nm.icSites.findIdx? (fun s => s.off == site.off) = some j := by
    refine List.findIdx?_eq_some_iff_getElem.mpr ⟨hj, by rw [hjs]; exact beq_self_eq_true _, ?_⟩
    intro a ha heq
    have hal : a < nm.icSites.length := Nat.lt_trans ha hj
    have hsame : a = j := by
      refine (List.getElem?_inj (by rw [List.length_map]; exact hal) hnd).mp ?_
      rw [List.getElem?_map, List.getElem?_map, hsite, List.getElem?_eq_getElem hal]
      rw [Option.map_some, Option.map_some, beq_iff_eq.mp heq]
    exact absurd hsame (Nat.ne_of_lt ha)
  unfold findCallerSite
  simp only [hpc, hget, hoff, hidx, Option.bind_eq_bind, Option.bind_some]

/-- Sites are no part of what a target depends on. -/
theorem Enters.of_ct {w' : Linker} {t : Nat} {sel : Addr} (h : w.Enters k sel m t)
    (hprim : w'.prim = w.prim) (hvalue : w'.valueDispatchAddr = w.valueDispatchAddr)
    (hadapters : w'.adapters = w.adapters) (hkey : w'.code.ct.byKey = w.code.ct.byKey)
    (hget : ∀ i nm, w.code.ct.get i = some nm → ∃ nm', w'.code.ct.get i = some nm' ∧
      nm'.code = nm.code ∧ nm'.entryOff = nm.entryOff ∧
      nm'.verifiedEntryOff = nm.verifiedEntryOff) :
    w'.Enters k sel m t := by
  rcases h with ⟨hv, ht⟩ | ⟨nm, hnm, ht⟩ | ⟨a, ha, hbase⟩
  · refine .inl ⟨?_, by rw [hvalue, hprim]; exact ht⟩
    unfold isValuePrim at hv ⊢
    rw [hprim]
    exact hv
  · obtain ⟨id, hid, hgid⟩ := Option.bind_eq_some_iff.mp hnm
    obtain ⟨nm', hget', hcode, he, hve⟩ := hget id nm hgid
    refine .inr (.inl ⟨nm', Option.bind_eq_some_iff.mpr ⟨id, ?_, hget'⟩, by rw [hcode, he, hve]; exact ht⟩)
    unfold CodeTable.lookup at hid ⊢
    rw [hkey]
    exact hid
  · exact .inr (.inr ⟨a, by rw [hadapters]; exact ha, hbase⟩)

/-- What one resolution does. -/
structure Resolved (w : Linker) (i j : Nat) (site : IcSite) (k : Addr) (al : Allocs) (w' : Linker)
    (t : Nat) : Prop where
  move : ∃ nm' s, w'.code.ct.get i = some nm' ∧ nm'.icSites[j]? = some { site with state := s } ∧
    Move site.state s
  others : ∀ (i' : Nat) (nm₁ : Nmethod) (j' : Nat) (s₁ : IcSite), w.code.ct.get i' = some nm₁ →
    nm₁.icSites[j']? = some s₁ → ¬ (i' = i ∧ j' = j) →
    ∃ nm₁', w'.code.ct.get i' = some nm₁' ∧ nm₁'.icSites[j']? = some s₁
  dnu : w.vm.lookupUncached (site.superKlass.getD k) site.selector = none →
    t = w.dnuAddr ∧ w'.code = w.code
  enters : ∀ m, w.vm.lookupUncached (site.superKlass.getD k) site.selector = some m →
    w'.Enters (site.superKlass.getD k) site.selector m t
  exhausted : al.stub = none → w.NeedsStub site k → w'.code = w.code

/-- A resolution that leaves the code as it is. -/
theorem resolved_of_code_eq {w' : Linker} {t : Nat} (hget : w.code.ct.get i = some nm)
    (hsite : nm.icSites[j]? = some site) (hcode : w'.code = w.code)
    (hdnu : w.vm.lookupUncached (site.superKlass.getD k) site.selector = none → t = w.dnuAddr)
    (henters : ∀ m, w.vm.lookupUncached (site.superKlass.getD k) site.selector = some m →
      w'.Enters (site.superKlass.getD k) site.selector m t) :
    Resolved w i j site k al w' t := by
  refine ⟨⟨nm, site.state, by rw [hcode]; exact hget, hsite, .stay _⟩, ?_, fun h => ⟨hdnu h, hcode⟩,
    henters, fun _ _ => hcode⟩
  intro i' nm₁ j' s₁ hget' hsite' _
  exact ⟨nm₁, by rw [hcode]; exact hget', hsite'⟩

/-- Linking a site after its target was found. -/
theorem link_spec {w₁ : Linker} {t target : Nat} {s : IcState} (hc : CodeInv hist w.resolveAddr w.code)
    (hget : w.code.ct.get i = some nm) (hsite : nm.icSites[j]? = some site)
    (hct : w₁.code.ct = w.code.ct) (hcalls : w₁.code.calls = w.code.calls)
    (hra : w₁.resolveAddr = w.resolveAddr)
    (hlookups : ∀ k s, w₁.vm.lookupUncached k s = w.vm.lookupUncached k s)
    (hent : w₁.Enters k site.selector m t)
    (htarget : target = callTarget w.resolveAddr s)
    (hothers : ∀ (i' : Nat) (nm' : Nmethod) (j' : Nat) (site' : IcSite) (stub : CodeHandle),
      w.code.ct.get i' = some nm' → nm'.icSites[j']? = some site' → site'.state = .pic stub →
      ¬ (i' = i ∧ j' = j) →
        w₁.code.pics stub.base = w.code.pics stub.base ∧
          ∀ stub', s = .pic stub' → stub'.base ≠ stub.base)
    (hok : ∀ hist', hist ⊆ hist' →
      (∀ k' t' m', w.vm.lookupUncached k' site.selector = some m' →
        w₁.Enters k' site.selector m' t' → ResolvedIn hist' k' site.selector t') →
      SiteOk hist' w₁.code.pics { site with state := s }) :
    ∃ w', w₁.link nm i j site.off target s = some w' ∧ w'.resolveAddr = w.resolveAddr ∧
      w'.vm = w₁.vm ∧ CodeInv (w' :: hist) w'.resolveAddr w'.code ∧
      w'.Enters k site.selector m t ∧
      (∃ nm', w'.code.ct.get i = some nm' ∧ nm'.icSites[j]? = some { site with state := s }) ∧
      ∀ (i' : Nat) (nm₁ : Nmethod) (j' : Nat) (s₁ : IcSite), w.code.ct.get i' = some nm₁ →
        nm₁.icSites[j']? = some s₁ → ¬ (i' = i ∧ j' = j) →
        ∃ nm₁', w'.code.ct.get i' = some nm₁' ∧ nm₁'.icSites[j']? = some s₁ := by
  obtain ⟨hj, -⟩ := List.getElem?_eq_some_iff.mp hsite
  obtain ⟨ct', hset⟩ : ∃ ct', w.code.ct.setSiteState i j s = some ct' := by
    unfold setSiteState
    simp only [hget, hsite]
    exact ⟨_, rfl⟩
  obtain ⟨nm₀, site₀, hget₀, hsite₀, hg, hk, -⟩ := setSiteState_spec hset
  rw [hget] at hget₀
  cases hget₀
  rw [hsite] at hsite₀
  cases hsite₀
  let w' : Linker := { w₁ with code := { w₁.code.patchCallSite nm.code site.off target with ct := ct' } }
  have hlink : w₁.link nm i j site.off target s = some w' := by
    unfold link
    simp only [Code.patchCallSite, hct, hset, Option.map_some]
    rfl
  have hkeep : ∀ k' t' m', w₁.Enters k' site.selector m' t' → w'.Enters k' site.selector m' t' := by
    intro k' t' m' hent'
    refine hent'.of_ct rfl rfl rfl (by rw [hct]; exact hk) fun i' nm' hget' => ?_
    rw [hct] at hget'
    change ∃ nm'', ct'.get i' = some nm'' ∧ _
    rw [hg]
    split
    next hi =>
      rw [hi, hget] at hget'
      cases hget'
      exact ⟨_, rfl, rfl, rfl, rfl⟩
    next => exact ⟨nm', hget', rfl, rfl, rfl⟩
  refine ⟨w', hlink, hra, rfl, ?_, hkeep k t m hent, ?_, ?_⟩
  · have hsub : hist ⊆ w' :: hist := List.subset_cons_self w' hist
    have hcode : w'.code = ⟨ct', w₁.code.pics, Function.update w.code.calls
        (nm.code.base + site.off) (callTarget w.resolveAddr s), w₁.code.freed⟩ := by
      rw [← htarget, ← hcalls]
      rfl
    rw [hcode, show w'.resolveAddr = w.resolveAddr from hra]
    refine (hc.mono hsub).relink hget hsite hset hothers (hok _ hsub fun k' t' m' hm' hent' => ?_)
    exact ⟨w', List.mem_cons_self, m', (hlookups k' site.selector).trans hm', hkeep k' t' m' hent'⟩
  · refine ⟨_, (hg i).trans (if_pos rfl), ?_⟩
    simp [hj]
  · intro i' nm₁ j' s₁ hget' hsite' hne
    change ∃ nm₁', ct'.get i' = some nm₁' ∧ _
    rw [hg]
    split
    next hi =>
      rw [hi, hget] at hget'
      cases hget'
      refine ⟨_, rfl, ?_⟩
      have hjj : j ≠ j' := fun hjj => hne ⟨hi, hjj.symm⟩
      simpa [List.getElem?_set, hjj] using hsite'
    next => exact ⟨nm₁, hget', hsite'⟩

/-- There is room for every adapter the resolution needs. -/
def AdapterRoom (w : Linker) (site : IcSite) (k : Addr) (al : Allocs) : Prop :=
  match site.superKlass with
  | some sk => ∀ m, w.vm.lookupUncached sk site.selector = some m →
      w.NeedsSuperAdapter sk site.selector m → al.newAdapter ≠ none
  | none => ∀ m, w.vm.lookupUncached k site.selector = some m →
      if w.forceCold then w.NeedsAdapter k site.selector m → al.newAdapter ≠ none
      else w.TransitionRoom site k m al

/-- What a resolution that returns leaves behind. -/
structure ResolveSpec (hist : List Linker) (w : Linker) (i j : Nat) (site : IcSite) (k : Addr)
    (al : Allocs) (w' : Linker) (t : Nat) : Prop where
  resolved : Resolved w i j site k al w' t
  resolveAddr : w'.resolveAddr = w.resolveAddr
  cache : CacheOk w'.vm
  lookups : ∀ k s, w'.vm.lookupUncached k s = w.vm.lookupUncached k s
  code : CodeInv (w' :: hist) w'.resolveAddr w'.code

/-- A super site is linked to its fixed class and stays linked to it. -/
theorem rtResolveSend_super (hv : VmInv hist w.vm) (hc : CodeInv hist w.resolveAddr w.code)
    (hget : w.code.ct.get i = some nm) (hsite : nm.icSites[j]? = some site) {sk : Addr}
    (hsup : site.superKlass = some sk) :
    (w.AdapterRoom site k al ↔ ∃ w' t,
      w.rtResolveSend (nm.code.base + site.off + callInsnLen) k al = some (w', t)) ∧
    ∀ w' t, w.rtResolveSend (nm.code.base + site.off + callInsnLen) k al = some (w', t) →
      ResolveSpec hist w i j site k al w' t := by
  have hcls : site.superKlass.getD k = sk := by rw [hsup]; rfl
  have hroom : w.AdapterRoom site k al ↔ ∀ m, w.vm.lookupUncached sk site.selector = some m →
      w.NeedsSuperAdapter sk site.selector m → al.newAdapter ≠ none := by
    unfold AdapterRoom
    simp only [hsup]
  obtain ⟨c, hlk, hcache⟩ := lookup_spec hv.cache sk site.selector
  unfold rtResolveSend
  simp only [findCallerSite_eq hc hget hsite, hget, hsite, hsup, hlk, Option.bind_eq_bind,
    Option.bind_some]
  rw [hroom]
  cases hm : w.vm.lookupUncached sk site.selector with
  | none =>
    refine ⟨⟨fun _ => ⟨_, _, rfl⟩, fun _ m hm' => by cases hm'⟩, ?_⟩
    intro w' t he
    cases he
    refine ⟨resolved_of_code_eq hget hsite rfl (fun _ => rfl) fun m hm' => ?_, rfl, hcache,
      fun _ _ => rfl, hc.mono (List.subset_cons_self _ _)⟩
    rw [hcls, hm] at hm'
    cases hm'
  | some m =>
    generalize hwc : ({ w with vm := { w.vm with lookupCache := c } } : Linker) = wc
    have hneeds : wc.NeedsSuperAdapter sk site.selector m ↔ w.NeedsSuperAdapter sk site.selector m := by
      rw [← hwc]
      rfl
    obtain ⟨hnone, hsome⟩ := resolveSuperTargetEntry_spec wc sk site.selector m al.newAdapter
    simp only
    cases hr : wc.resolveSuperTargetEntry sk site.selector m al.newAdapter with
    | none =>
      obtain ⟨hn, hfull⟩ := hnone.mp hr
      refine ⟨⟨fun h => absurd hfull (h m rfl (hneeds.mp hn)), ?_⟩, ?_⟩
      · rintro ⟨w', t, he⟩
        cases he
      · intro w' t he
        cases he
    | some r =>
      obtain ⟨w₁, t⟩ := r
      obtain ⟨adapters, hw₁, -, hent⟩ := hsome w₁ t hr
      subst hwc
      have hfits : ∀ m', some m = some m' → w.NeedsSuperAdapter sk site.selector m' →
          al.newAdapter ≠ none := by
        rintro m' ⟨rfl⟩ hn hfull
        rw [hnone.mpr ⟨hneeds.mpr hn, hfull⟩] at hr
        cases hr
      have hent' : ∀ m', w.vm.lookupUncached (site.superKlass.getD k) site.selector = some m' →
          m' = m := by
        intro m' hm'
        rw [hcls, hm] at hm'
        exact (Option.some.inj hm').symm
      have hstub : ¬ w.NeedsStub site k := fun hn => by
        have := hn.1
        rw [hsup] at this
        cases this
      have hcode₁ : w₁.code = w.code := by rw [hw₁]
      have hra₁ : w₁.resolveAddr = w.resolveAddr := by rw [hw₁]
      have hvm₁ : w₁.vm = { w.vm with lookupCache := c } := by rw [hw₁]
      have hlookups : ∀ k s, w₁.vm.lookupUncached k s = w.vm.lookupUncached k s := by
        rw [hvm₁]
        exact fun _ _ => rfl
      simp only [Option.bind_some]
      by_cases hcold : w₁.forceCold = true
      · rw [if_pos hcold]
        refine ⟨⟨fun _ => ⟨_, _, rfl⟩, fun _ => hfits⟩, ?_⟩
        intro w' t' he
        cases he
        refine ⟨resolved_of_code_eq hget hsite hcode₁ (fun hn => ?_) fun m' hm' => ?_, hra₁,
          by rw [hvm₁]; exact hcache, hlookups, ?_⟩
        · rw [hcls, hm] at hn
          cases hn
        · rw [hent' m' hm', hcls]
          exact hent
        · rw [hra₁, hcode₁]
          exact hc.mono (List.subset_cons_self _ _)
      · rw [if_neg hcold]
        have hok := hc.siteOk i nm hget site (List.mem_of_getElem? hsite)
        have htarget : t = callTarget w.resolveAddr (.mono sk t) := rfl
        obtain ⟨w', hlink, hra, hvm, hcode, hentw, hsite', hothers⟩ := link_spec hc hget hsite
          (by rw [hcode₁]) (by rw [hcode₁]) hra₁ hlookups hent htarget
          (fun i' nm' j' site' stub _ _ _ _ => ⟨by rw [hcode₁], fun stub' hst => by cases hst⟩)
          (fun hist' _ hres => ⟨fun sk' hsk => by
            rw [hsup] at hsk
            exact Option.some.inj hsk, hres sk t m hm hent⟩)
        rw [hlink]
        refine ⟨⟨fun _ => ⟨_, _, rfl⟩, fun _ => hfits⟩, ?_⟩
        intro w'' t' he
        cases he
        refine ⟨⟨?_, hothers, fun hn => ?_, fun m' hm' => ?_, fun _ hn => absurd hn hstub⟩, hra, ?_, ?_,
          hcode⟩
        · obtain ⟨nm', hget', hs'⟩ := hsite'
          refine ⟨nm', .mono sk t, hget', hs', ?_⟩
          unfold SiteOk at hok
          cases hst : site.state with
          | unresolved => exact .link sk t
          | mono k₀ t₀ =>
            simp only [hst] at hok
            rw [hok.1 sk hsup]
            exact .relink sk t₀ t
          | pic stub =>
            simp only [hst, hsup] at hok
            cases hok.1
          | mega stub =>
            simp only [hst, hsup] at hok
            cases hok
        · rw [hcls, hm] at hn
          cases hn
        · rw [hent' m' hm', hcls]
          exact hentw
        · rw [hvm, hvm₁]
          exact hcache
        · rw [hvm]
          exact hlookups

/-- An ordinary site. -/
theorem rtResolveSend_ordinary (hv : VmInv hist w.vm) (hc : CodeInv hist w.resolveAddr w.code)
    (hfresh : w.FreshAllocs al) (hget : w.code.ct.get i = some nm)
    (hsite : nm.icSites[j]? = some site) (hsup : site.superKlass = none)
    (hmega : ∀ stub, site.state ≠ .mega stub) :
    (w.AdapterRoom site k al ↔ ∃ w' t,
      w.rtResolveSend (nm.code.base + site.off + callInsnLen) k al = some (w', t)) ∧
    ∀ w' t, w.rtResolveSend (nm.code.base + site.off + callInsnLen) k al = some (w', t) →
      ResolveSpec hist w i j site k al w' t := by
  have hcls : site.superKlass.getD k = k := by rw [hsup]; rfl
  have hroom : w.AdapterRoom site k al ↔ ∀ m, w.vm.lookupUncached k site.selector = some m →
      if w.forceCold then w.NeedsAdapter k site.selector m → al.newAdapter ≠ none
      else w.TransitionRoom site k m al := by
    unfold AdapterRoom
    simp only [hsup]
  obtain ⟨c, hlk, hcache⟩ := lookup_spec hv.cache k site.selector
  unfold rtResolveSend
  simp only [findCallerSite_eq hc hget hsite, hget, hsite, hsup, hlk, Option.bind_eq_bind,
    Option.bind_some]
  rw [hroom]
  cases hm : w.vm.lookupUncached k site.selector with
  | none =>
    refine ⟨⟨fun _ => ⟨_, _, rfl⟩, fun _ m hm' => by cases hm'⟩, ?_⟩
    intro w' t he
    cases he
    refine ⟨resolved_of_code_eq hget hsite rfl (fun _ => rfl) fun m hm' => ?_, rfl, hcache,
      fun _ _ => rfl, hc.mono (List.subset_cons_self _ _)⟩
    rw [hcls, hm] at hm'
    cases hm'
  | some m =>
    have hent' : ∀ m', w.vm.lookupUncached (site.superKlass.getD k) site.selector = some m' →
        m' = m := by
      intro m' hm'
      rw [hcls, hm] at hm'
      exact (Option.some.inj hm').symm
    have hdnu : w.vm.lookupUncached (site.superKlass.getD k) site.selector ≠ none := by
      rw [hcls, hm]
      exact Option.some_ne_none m
    simp only [Option.some.injEq, forall_eq']
    by_cases hcold : w.forceCold = true
    · -- the auditor: the target of an unresolved site, nothing is patched
      rw [if_pos hcold, if_pos hcold]
      obtain ⟨hnone, hsome⟩ := resolveTargetEntry_spec { w with vm := { w.vm with lookupCache := c } }
        k site.selector m false al.newAdapter
      refine ⟨?_, ?_⟩
      · constructor
        · intro hfits
          cases hr : Linker.resolveTargetEntry { w with vm := { w.vm with lookupCache := c } }
              k site.selector m false al.newAdapter with
          | none =>
            obtain ⟨hn, hfull⟩ := hnone.mp hr
            exact absurd hfull (hfits hn)
          | some r => exact ⟨r.1, r.2, rfl⟩
        · rintro ⟨w', t, hr⟩ hn hfull
          rw [hnone.mpr ⟨hn, hfull⟩] at hr
          cases hr
      · intro w' t hr
        obtain ⟨adapters, rfl, -, hent⟩ := hsome w' t hr
        refine ⟨resolved_of_code_eq hget hsite rfl (fun hn => absurd hn hdnu) fun m' hm' => ?_, rfl,
          hcache, fun _ _ => rfl, hc.mono (List.subset_cons_self _ _)⟩
        rw [hent' m' hm', hcls]
        exact hent
    · rw [if_neg hcold, if_neg hcold]
      have hv' : VmInv hist { w.vm with lookupCache := c } := ⟨hcache, hv.resolves⟩
      have hfresh' : Linker.FreshAllocs { w with vm := { w.vm with lookupCache := c } } al :=
        ⟨hfresh.oldAdapter, hfresh.newAdapter, hfresh.apart, hfresh.stub⟩
      obtain ⟨hiff, hmoved⟩ := transition_spec (w := { w with vm := { w.vm with lookupCache := c } })
        (k := k) (m := m) hv' hc hfresh' hget hsite hsup hm hmega
      have hroom' : w.TransitionRoom site k m al ↔ Linker.TransitionRoom
          { w with vm := { w.vm with lookupCache := c } } site k m al := Iff.rfl
      rw [hroom', hiff]
      cases htr : Linker.transition { w with vm := { w.vm with lookupCache := c } } site k m al with
      | none =>
        refine ⟨⟨?_, ?_⟩, ?_⟩
        · rintro ⟨w₁, patch, t, he⟩
          cases he
        · rintro ⟨w', t, he⟩
          cases he
        · intro w' t he
          cases he
      | some r =>
        obtain ⟨w₁, patch, t⟩ := r
        have hmv := hmoved w₁ patch t htr
        simp only [Option.bind_some]
        cases hpatch : patch with
        | none =>
          have hcode := hmv.declined hpatch
          refine ⟨⟨fun _ => ⟨_, _, rfl⟩, fun _ => ⟨_, _, _, rfl⟩⟩, ?_⟩
          intro w' t' he
          cases he
          refine ⟨resolved_of_code_eq hget hsite hcode (fun hn => absurd hn hdnu) fun m' hm' => ?_,
            hmv.resolveAddr, hmv.cache, hmv.lookups, ?_⟩
          · rw [hent' m' hm', hcls]
            exact hmv.enters
          · rw [hmv.resolveAddr, hcode]
            exact hc.mono (List.subset_cons_self _ _)
        | some p =>
          obtain ⟨target, s⟩ := p
          obtain ⟨w', hlink, hra, hvm, hcode, hentw, hsite', hothers⟩ := link_spec hc hget hsite
            hmv.ct hmv.calls hmv.resolveAddr hmv.lookups hmv.enters (hmv.target target s hpatch)
            (hmv.others target s hpatch) (hmv.siteOk target s hpatch)
          simp only [hlink, Option.bind_some]
          refine ⟨⟨fun _ => ⟨_, _, rfl⟩, fun _ => ⟨_, _, _, rfl⟩⟩, ?_⟩
          intro w'' t' he
          cases he
          obtain ⟨nm', hget', hs'⟩ := hsite'
          refine ⟨⟨⟨nm', s, hget', hs', hmv.move target s hpatch⟩, hothers, fun hn => absurd hn hdnu,
            fun m' hm' => ?_, fun hfull hn => absurd hn (hmv.exhausted target s hpatch hfull)⟩, hra, ?_, ?_,
            hcode⟩
          · rw [hent' m' hm', hcls]
            exact hentw
          · rw [hvm]
            exact hmv.cache
          · rw [hvm]
            exact hmv.lookups

theorem rtResolveSend_spec (hv : VmInv hist w.vm) (hc : CodeInv hist w.resolveAddr w.code)
    (hfresh : w.FreshAllocs al) (hget : w.code.ct.get i = some nm)
    (hsite : nm.icSites[j]? = some site) (hmega : ∀ stub, site.state ≠ .mega stub) :
    (w.AdapterRoom site k al ↔ ∃ w' t,
      w.rtResolveSend (nm.code.base + site.off + callInsnLen) k al = some (w', t)) ∧
    ∀ w' t, w.rtResolveSend (nm.code.base + site.off + callInsnLen) k al = some (w', t) →
      ResolveSpec hist w i j site k al w' t := by
  cases hsup : site.superKlass with
  | some sk => exact rtResolveSend_super hv hc hget hsite hsup
  | none => exact rtResolveSend_ordinary hv hc hfresh hget hsite hsup hmega

end Transition

/-! ## Runs -/

/-- Publishing an nmethod: every site's call is patched to where its state says. -/
def publish (w : Linker) (nm : Nmethod) : Linker :=
  { w with
    code := nm.icSites.foldl
      (fun c site => c.patchCallSite nm.code site.off (callTarget w.resolveAddr site.state))
      { w.code with ct := (w.code.ct.install nm).1 } }

/-- How the driver emits a site: unresolved, or a super site with its target looked up. -/
def Born (w : Linker) (site : IcSite) : Prop :=
  match site.superKlass with
  | none => site.state = .unresolved
  | some sk => ∃ m t, w.vm.lookupUncached sk site.selector = some m ∧
      w.Enters sk site.selector m t ∧ site.state = .mono sk t

inductive Step (w : Linker) : Linker → Prop
  | resolve {i j : Nat} {nm : Nmethod} {site : IcSite} {k : Addr} {al : Allocs} {w' : Linker} {t : Nat}
      (hget : w.code.ct.get i = some nm) (hsite : nm.icSites[j]? = some site)
      (hmega : ∀ stub, site.state ≠ .mega stub) (hfresh : w.FreshAllocs al)
      (he : w.rtResolveSend (nm.code.base + site.off + callInsnLen) k al = some (w', t)) : Step w w'
  | install {holder selector m : Addr} {vm' : Vm} {ct' : CodeTable}
      (he : installMethod w.vm w.code.ct none holder selector m = some (vm', ct')) :
      Step w { w with vm := vm', code := { w.code with ct := ct' } }
  | publish {nm : Nmethod} (halive : nm.state = .alive)
      (hapart : ∀ i nm', w.code.ct.get i = some nm' → nm.code.Apart nm'.code)
      (hoffs : (nm.icSites.map (·.off)).Nodup) (hlen : 0 < nm.code.len)
      (hin : ∀ site ∈ nm.icSites, site.off + callInsnLen < nm.code.len)
      (hborn : ∀ site ∈ nm.icSites, w.Born site) : Step w (w.publish nm)
  | makeAdapter {m : Addr} {room : Option (CodeHandle × Nat)} {w' : Linker} {t : Nat}
      (he : w.adapterEntry m room = some (w', t)) : Step w w'
  | retire {id : Nat} {ct' : CodeTable} (he : w.code.ct.setNotEntrant id = some ct') :
      Step w { w with code := { w.code with ct := ct' } }
  | lookup (k s : Addr) : Step w (w.lookup k s).2
  | audit (on : Bool) : Step w { w with forceCold := on }

/-- The states of a run, the last one first. -/
inductive Run : List Linker → Prop
  | start {w : Linker} (hct : w.code.ct = empty) (hcache : CacheOk w.vm) : Run [w]
  | step {w w' : Linker} {hist : List Linker} (h : Run (w :: hist)) (hs : Step w w') :
      Run (w' :: w :: hist)

section Runs

variable {w w' : Linker} {hist : List Linker}

/-- Retiring nmethods changes no site. -/
theorem codeInv_of_sites {resolveAddr : Nat} {c : Code} (h : CodeInv hist resolveAddr c)
    {ct' : CodeTable} (hc : Coherent ct')
    (hfrom : ∀ i nm', ct'.get i = some nm' → ∃ nm, c.ct.get i = some nm ∧
      nm'.icSites = nm.icSites ∧ nm'.code = nm.code) :
    CodeInv hist resolveAddr { c with ct := ct' } := by
  refine ⟨hc, ⟨?_, ?_⟩, ?_, ?_, ?_⟩
  · intro i nm' hget site hsite stub hst
    obtain ⟨nm, hget₀, hsites, -⟩ := hfrom i nm' hget
    exact h.sitesOk.registered i nm hget₀ site (hsites ▸ hsite) stub hst
  · intro i j nm₁ nm₂ a b s₁ s₂ st₁ st₂ hg₁ hg₂ ha hb
    obtain ⟨n₁, hn₁, hs₁, -⟩ := hfrom i nm₁ hg₁
    obtain ⟨n₂, hn₂, hs₂, -⟩ := hfrom j nm₂ hg₂
    rw [hs₁] at ha
    rw [hs₂] at hb
    exact h.sitesOk.owned i j n₁ n₂ a b s₁ s₂ st₁ st₂ hn₁ hn₂ ha hb
  · intro i nm' hget
    obtain ⟨nm, hget₀, hsites, hcode⟩ := hfrom i nm' hget
    rw [hsites, hcode]
    exact h.offsets i nm hget₀
  · intro i nm' hget site hsite
    obtain ⟨nm, hget₀, hsites, -⟩ := hfrom i nm' hget
    exact h.siteOk i nm hget₀ site (hsites ▸ hsite)
  · intro i nm' hget site hsite
    obtain ⟨nm, hget₀, hsites, hcode⟩ := hfrom i nm' hget
    rw [hcode]
    exact h.linked i nm hget₀ site (hsites ▸ hsite)

/-- Patching a list of sites of one nmethod. -/
theorem foldl_patchCallSite (resolveAddr : Nat) (h : CodeHandle) (sites : List IcSite) (c : Code)
    (hnd : (sites.map (·.off)).Nodup) :
    (sites.foldl (fun c s => c.patchCallSite h s.off (callTarget resolveAddr s.state)) c).ct = c.ct ∧
    (sites.foldl (fun c s => c.patchCallSite h s.off (callTarget resolveAddr s.state)) c).pics = c.pics ∧
    (∀ s ∈ sites, (sites.foldl (fun c s => c.patchCallSite h s.off (callTarget resolveAddr s.state))
      c).calls (h.base + s.off) = callTarget resolveAddr s.state) ∧
    ∀ x, (∀ s ∈ sites, h.base + s.off ≠ x) →
      (sites.foldl (fun c s => c.patchCallSite h s.off (callTarget resolveAddr s.state)) c).calls x =
        c.calls x := by
  induction sites generalizing c with
  | nil => exact ⟨rfl, rfl, nofun, fun _ _ => rfl⟩
  | cons s sites ih =>
    obtain ⟨hnot, hnd⟩ := List.nodup_cons.mp hnd
    obtain ⟨hct, hpics, hmem, hother⟩ := ih (c.patchCallSite h s.off (callTarget resolveAddr s.state)) hnd
    refine ⟨hct, hpics, fun s' hs' => ?_, fun x hx => ?_⟩
    · rcases List.mem_cons.mp hs' with rfl | hs'
      · rw [List.foldl_cons, hother]
        · exact Function.update_self ..
        · intro s₁ hs₁ heq
          exact hnot (List.mem_map.mpr ⟨s₁, hs₁, Nat.add_left_cancel heq⟩)
      · exact hmem s' hs'
    · rw [List.foldl_cons, hother x fun s₁ hs₁ => hx s₁ (List.mem_cons_of_mem _ hs₁)]
      exact Function.update_of_ne (Ne.symm (hx s List.mem_cons_self)) _ _

theorem codeInv_publish {resolveAddr : Nat} (h : CodeInv hist w.resolveAddr w.code) (hw : w ∈ hist)
    (hra : resolveAddr = w.resolveAddr) {nm : Nmethod} (halive : nm.state = .alive)
    (hapart : ∀ i nm', w.code.ct.get i = some nm' → nm.code.Apart nm'.code)
    (hoffs : (nm.icSites.map (·.off)).Nodup) (hlen : 0 < nm.code.len)
    (hin : ∀ site ∈ nm.icSites, site.off + callInsnLen < nm.code.len)
    (hborn : ∀ site ∈ nm.icSites, w.Born site) :
    CodeInv hist resolveAddr (w.publish nm).code := by
  subst hra
  obtain ⟨hct, hpics, hmem, hother⟩ := foldl_patchCallSite w.resolveAddr nm.code nm.icSites
    { w.code with ct := (w.code.ct.install nm).1 } hoffs
  change CodeInv hist w.resolveAddr (nm.icSites.foldl _ _)
  generalize nm.icSites.foldl (fun c site => c.patchCallSite nm.code site.off
    (callTarget w.resolveAddr site.state)) { w.code with ct := (w.code.ct.install nm).1 } = c
    at hct hpics hmem hother
  simp only at hct hpics hother
  -- an nmethod of the new table is the published one, or was there
  have hcases : ∀ i nm', c.ct.get i = some nm' →
      (i = w.code.ct.freeSlot ∧ nm'.icSites = nm.icSites ∧ nm'.code = nm.code) ∨
      w.code.ct.get i = some nm' := by
    intro i nm' hget
    rw [hct, get_install] at hget
    split at hget
    next hi =>
      cases hget
      exact .inl ⟨hi, rfl, rfl⟩
    next => exact .inr hget
  -- a born site has no PIC
  have hnopic : ∀ site ∈ nm.icSites, ∀ stub, site.state ≠ .pic stub := by
    intro site hsite stub hst
    have hb := hborn site hsite
    unfold Born at hb
    split at hb
    · rw [hb] at hst
      cases hst
    · obtain ⟨m, t, -, -, hb⟩ := hb
      rw [hb] at hst
      cases hst
  refine ⟨by rw [hct]; exact h.coherent.install halive hlen hapart, ⟨?_, ?_⟩, ?_, ?_, ?_⟩
  · intro i nm' hget site hsite stub hst
    rcases hcases i nm' hget with ⟨-, hs, -⟩ | hold
    · exact absurd hst (hnopic site (hs ▸ hsite) stub)
    · rw [hpics]
      exact h.sitesOk.registered i nm' hold site hsite stub hst
  · intro i j nm₁ nm₂ a b s₁ s₂ st₁ st₂ hg₁ hg₂ ha hb hst₁ hst₂
    rcases hcases i nm₁ hg₁ with ⟨-, hs, -⟩ | hold₁
    · exact absurd hst₁ (hnopic s₁ (hs ▸ List.mem_of_getElem? ha) st₁)
    · rcases hcases j nm₂ hg₂ with ⟨-, hs, -⟩ | hold₂
      · exact absurd hst₂ (hnopic s₂ (hs ▸ List.mem_of_getElem? hb) st₂)
      · exact h.sitesOk.owned i j nm₁ nm₂ a b s₁ s₂ st₁ st₂ hold₁ hold₂ ha hb hst₁ hst₂
  · intro i nm' hget
    rcases hcases i nm' hget with ⟨-, hs, hcode⟩ | hold
    · rw [hs, hcode]
      exact ⟨hoffs, hin⟩
    · exact h.offsets i nm' hold
  · intro i nm' hget site hsite
    rw [hpics]
    rcases hcases i nm' hget with ⟨-, hs, -⟩ | hold
    · have hb := hborn site (hs ▸ hsite)
      unfold Born at hb
      unfold SiteOk
      split at hb
      · rw [hb]
        trivial
      · next sk hsk =>
        obtain ⟨m, t, hm, hent, hb⟩ := hb
        rw [hb]
        refine ⟨fun sk' hsk' => ?_, w, hw, m, hm, hent⟩
        rw [hsk] at hsk'
        exact Option.some.inj hsk'
    · exact h.siteOk i nm' hold site hsite
  · intro i nm' hget site hsite
    rcases hcases i nm' hget with ⟨-, hs, hcode⟩ | hold
    · rw [hcode]
      exact hmem site (hs ▸ hsite)
    · rw [hother]
      · exact h.linked i nm' hold site hsite
      · intro s hsm heq
        have hl := hin s hsm
        have hl' := (h.offsets i nm' hold).2 site hsite
        rcases hapart i nm' hold with hle | hle
        · omega
        · omega

/-- A state whose lookups succeed where they did before. -/
theorem vmInv_cons (h : VmInv hist w.vm) (hcache : CacheOk w'.vm)
    (hmore : ∀ k s, (w.vm.lookupUncached k s).isSome → (w'.vm.lookupUncached k s).isSome) :
    VmInv (w' :: hist) w'.vm := by
  refine ⟨hcache, fun w₀ hw₀ k s hs => ?_⟩
  rcases List.mem_cons.mp hw₀ with rfl | hw₀
  · exact hs
  · exact hmore k s (h.resolves w₀ hw₀ k s hs)

/-- An install keeps every lookup that succeeded, perhaps with another result. -/
theorem installMethod_keeps {vm vm' : Vm} {holder selector m : Addr}
    (h : vm.installMethod (Equiv.refl Addr) holder selector m = some vm') :
    CacheOk vm' ∧ ∀ k s, (vm.lookupUncached k s).isSome → (vm'.lookupUncached k s).isSome := by
  unfold Vm.installMethod at h
  simp only at h
  split at h
  · next klass _ hk _ =>
    cases h
    refine ⟨CacheOk.flush rfl, fun k s hs => ?_⟩
    have hcol := lookupUncached_collect vm (Equiv.refl Addr) k s
    have hs' : ((vm.collect (Equiv.refl Addr)).lookupUncached k s).isSome := by
      rw [show (vm.collect (Equiv.refl Addr)).lookupUncached k s =
        (vm.lookupUncached k s).map (Equiv.refl Addr) from hcol, Option.isSome_map]
      exact hs
    exact (moreMethods_install selector m hk).walk_isSome hs'
  · cases h

/-- What one step keeps. -/
theorem Step.inv (hs : Step w w') (hw : w ∈ hist) (hv : VmInv hist w.vm)
    (hc : CodeInv hist w.resolveAddr w.code) :
    VmInv (w' :: hist) w'.vm ∧ CodeInv (w' :: hist) w'.resolveAddr w'.code := by
  have hsub : hist ⊆ w' :: hist := List.subset_cons_self w' hist
  cases hs with
  | resolve hget hsite hmega hfresh he =>
    have hspec := (rtResolveSend_spec hv hc hfresh hget hsite hmega).2 _ _ he
    refine ⟨vmInv_cons hv hspec.cache fun k s hs => ?_, hspec.code⟩
    rw [hspec.lookups]
    exact hs
  | @install holder selector m vm' ct' he =>
    unfold installMethod at he
    simp only [Option.bind_eq_bind, Option.bind_eq_some_iff, Option.some.injEq, Prod.mk.injEq] at he
    obtain ⟨vm₁, hvm, ct₁, hct, rfl, rfl⟩ := he
    obtain ⟨hcache, hkeeps⟩ := installMethod_keeps hvm
    refine ⟨vmInv_cons hv hcache hkeeps, ?_⟩
    obtain ⟨ct', hrun, hcoh, hnone, hspec⟩ := @invalidateDependents_spec vm₁ w.code.ct holder selector
      hc.coherent
    rw [show invalidateDependents vm₁ w.code.ct holder selector = some ct₁ from hct] at hrun
    cases hrun
    refine codeInv_of_sites (hc.mono hsub) hcoh fun i nm' hget => ?_
    cases hg : w.code.ct.get i with
    | none =>
      rw [hnone i hg] at hget
      cases hget
    | some nm =>
      obtain ⟨hyes, hno⟩ := hspec i nm hg
      by_cases haff : nm.state = .alive ∧ nmethodAffected vm₁ holder selector nm = true
      · rw [(hyes haff).1] at hget
        cases hget
        exact ⟨nm, rfl, rfl, rfl⟩
      · rw [(hno haff).1] at hget
        cases hget
        exact ⟨nm', rfl, rfl, rfl⟩
  | publish halive hapart hoffs hlen hin hborn =>
    exact ⟨vmInv_cons hv hv.cache fun _ _ hs => hs,
      codeInv_publish (hc.mono hsub) (hsub hw) rfl halive hapart hoffs hlen hin hborn⟩
  | @makeAdapter m room w' t he =>
    obtain ⟨adapters, rfl, -⟩ := (adapterEntry_spec w m room).2 w' t he
    exact ⟨vmInv_cons hv hv.cache fun _ _ hs => hs, hc.mono hsub⟩
  | @retire id ct' he =>
    refine ⟨vmInv_cons hv hv.cache fun _ _ hs => hs, ?_⟩
    obtain ⟨nm, hget₀, hg, -⟩ := retire_spec he
    refine codeInv_of_sites (hc.mono hsub) (hc.coherent.retire he) fun i nm' hget => ?_
    rw [hg] at hget
    split at hget
    next hi =>
      cases hget
      exact ⟨nm, hi ▸ hget₀, rfl, rfl⟩
    next => exact ⟨nm', hget, rfl, rfl⟩
  | lookup k s =>
    obtain ⟨c, heq, hcache⟩ := lookup_spec hv.cache k s
    rw [heq] at hsub ⊢
    exact ⟨vmInv_cons hv hcache fun _ _ hs => hs, hc.mono hsub⟩
  | audit on => exact ⟨vmInv_cons hv hv.cache fun _ _ hs => hs, hc.mono hsub⟩

theorem Run.inv (h : Run (w :: hist)) :
    VmInv (w :: hist) w.vm ∧ CodeInv (w :: hist) w.resolveAddr w.code := by
  generalize hl : w :: hist = l at h
  induction h generalizing w hist with
  | @start w₀ hct hcache =>
    cases hl
    have hnone : ∀ i nm, w₀.code.ct.get i = some nm → False := by
      intro i nm hget
      rw [hct] at hget
      cases hget
    refine ⟨⟨hcache, fun w₁ hw₁ k s hs => ?_⟩, ⟨by rw [hct]; exact coherent_empty, ⟨?_, ?_⟩, ?_, ?_, ?_⟩⟩
    · rw [← List.mem_singleton.mp hw₁]
      exact hs
    · exact fun i nm hget => (hnone i nm hget).elim
    · exact fun i j nm nm' a b s s' st st' hget => (hnone i nm hget).elim
    · exact fun i nm hget => (hnone i nm hget).elim
    · exact fun i nm hget => (hnone i nm hget).elim
    · exact fun i nm hget => (hnone i nm hget).elim
  | @step w₀ w₁ hist₀ _ hs ih =>
    cases hl
    obtain ⟨hv, hc⟩ := ih rfl
    exact hs.inv List.mem_cons_self hv hc

/-- In every state of a run each site agrees with its patched call, its arms have distinct classes,
are at most four and were resolved by lookup of their class; and a resolution moves its site up the
lattice, sends to the right target, and leaves everything as it was where a stub does not fit,
exactly if there is room for the adapters it needs. -/
theorem resolve_send_coherent (h : Run (w :: hist)) :
    (∀ i nm, w.code.ct.get i = some nm → ∀ site ∈ nm.icSites,
      SiteOk (w :: hist) w.code.pics site ∧
        w.code.calls (nm.code.base + site.off) = callTarget w.resolveAddr site.state) ∧
    ∀ (i : Nat) (nm : Nmethod) (j : Nat) (site : IcSite) (k : Addr) (al : Allocs),
      w.code.ct.get i = some nm → nm.icSites[j]? = some site →
      (∀ stub, site.state ≠ .mega stub) → w.FreshAllocs al →
      ((∃ w' t, w.rtResolveSend (nm.code.base + site.off + callInsnLen) k al = some (w', t) ∧
        Resolved w i j site k al w' t) ↔ w.AdapterRoom site k al) := by
  obtain ⟨hv, hc⟩ := h.inv
  refine ⟨fun i nm hget site hsite => ⟨hc.siteOk i nm hget site hsite, hc.linked i nm hget site hsite⟩,
    fun i nm j site k al hget hsite hmega hfresh => ?_⟩
  obtain ⟨hiff, hspec⟩ := rtResolveSend_spec (k := k) hv hc hfresh hget hsite hmega
  rw [hiff]
  constructor
  · rintro ⟨w', t, he, -⟩
    exact ⟨w', t, he⟩
  · rintro ⟨w', t, he⟩
    exact ⟨w', t, he, (hspec w' t he).resolved⟩

end Runs

end Linker

/-! ## A full code cache -/

/-- Classes 1 and 3 understand selector 7 by methods 10 and 30; nothing is compiled. -/
def twoMethods : Vm :=
  { klasses := fun a =>
      if a = 1 then some ⟨.nil, fun s => if s = 7 then some 10 else none⟩
      else if a = 3 then some ⟨.nil, fun s => if s = 7 then some 30 else none⟩
      else none
    methods := fun a =>
      if a = 10 then some ⟨.ref 1, false, [], []⟩
      else if a = 30 then some ⟨.ref 3, false, [], []⟩
      else none
    arrays := fun _ => none
    lookupCache := LookupCache.flush
    icEpoch := 0
    depth := 1 }

def emptyLinker : Linker :=
  { vm := twoMethods
    code := { ct := empty, pics := fun _ => none, calls := fun _ => 0, freed := [] }
    adapters := ⟨[], fun _ => 0⟩
    mega := fun _ => none
    prim := fun _ => 0
    resolveAddr := 900
    dnuAddr := 901
    valueDispatchAddr := fun n => 910 + n
    forceCold := false }

/-- A caller with one unresolved send of selector 7. -/
def coldCaller : Nmethod :=
  { sampleNmethod 2 0 0 with icSites := [⟨4, 7, 0, .unresolved, none⟩] }

def coldLinker : Linker := emptyLinker.publish coldCaller

theorem run_coldLinker : Linker.Run [coldLinker, emptyLinker] := by
  refine .step (.start rfl (CacheOk.flush rfl)) (.publish rfl ?_ (by decide) (by decide) (by decide) ?_)
  · intro i nm hget
    cases hget
  · intro site hsite
    rcases List.mem_singleton.mp hsite with rfl
    rfl

/-- The first send, with room for the adapter of method 10. -/
def warmAllocs : Allocs := ⟨none, some (⟨64, 16⟩, 8), none⟩

theorem freshAllocs_warmAllocs : coldLinker.FreshAllocs warmAllocs := by
  refine ⟨nofun, ?_, nofun, nofun⟩
  intro h off _ e he
  cases he

/-- The site is linked for class 1. -/
def warmLinker : Linker := ((coldLinker.rtResolveSend 9 1 warmAllocs).map Prod.fst).getD coldLinker

theorem run_warmLinker : Linker.Run [warmLinker, coldLinker, emptyLinker] :=
  .step run_coldLinker (.resolve (i := 0) (j := 0) (k := 1) (t := 64) rfl rfl nofun
    freshAllocs_warmAllocs rfl)

/-- A receiver of class 3 comes with the cache full. The send needs an adapter for method 30, and
the VM aborts before it gets to do without the PIC. -/
theorem full_cache_aborts_send :
    Linker.Run [warmLinker, coldLinker, emptyLinker] ∧
      (warmLinker.code.ct.get 0).map (·.icSites.map (·.state)) = some [.mono 1 64] ∧
      warmLinker.vm.lookupUncached 3 7 = some 30 ∧ warmLinker.FreshAllocs ⟨none, none, none⟩ ∧
      warmLinker.rtResolveSend 9 3 ⟨none, none, none⟩ = none :=
  ⟨run_warmLinker, rfl, by decide, ⟨nofun, nofun, nofun, nofun⟩, rfl⟩

/-- With room for it, the send is linked to the adapter. -/
theorem resolve_send_coldLinker :
    coldLinker.AdapterRoom ⟨4, 7, 0, .unresolved, none⟩ 1 warmAllocs ∧
      ∃ w' t, coldLinker.rtResolveSend 9 1 warmAllocs = some (w', t) ∧
        Linker.Resolved coldLinker 0 0 ⟨4, 7, 0, .unresolved, none⟩ 1 warmAllocs w' t := by
  have hroom : coldLinker.AdapterRoom ⟨4, 7, 0, .unresolved, none⟩ 1 warmAllocs :=
    fun m _ _ => Option.some_ne_none _
  exact ⟨hroom, ((Linker.resolve_send_coherent run_coldLinker).2 0 { coldCaller with id := 0 } 0
    ⟨4, 7, 0, .unresolved, none⟩ 1 warmAllocs rfl rfl nofun freshAllocs_warmAllocs).mpr hroom⟩

end WinVm.Codecache
