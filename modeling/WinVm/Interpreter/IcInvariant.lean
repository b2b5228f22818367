import Mathlib.Data.List.Nodup
import WinVm.Interpreter.Ic

/-!
# The inline-cache invariant

`Inv` says what the sites of a heap may hold: nothing, one class, two to four distinct
classes, or the megamorphic mark; a stamp is never ahead of the epoch, an arm under a
current stamp is what lookup finds, and a poly site's pairs array is its own.

Results:

* `Inv.collect`: a moving collection moves the invariant along;
* `Inv.installMethod`: an install makes every stamp stale;
* `Inv.update`: a change of one site's words and of its own array keeps the others.
-/

namespace WinVm.Interpreter

/-! ## What a site is looked up against -/

/-- The uncached lookup a send at a site stands for. -/
def lookupFor (vm : Vm) (caller selector : Addr) (isSuper : Bool) (k : Addr) : Option Addr :=
  if isSuper then
    match (vm.methods caller).map Method.holder with
    | some (.ref h) =>
      match vm.klasses h with
      | some holder =>
        match holder.superclass with
        | .ref s => vm.lookupUncached s selector
        | _ => none
      | none => none
    | _ => none
  else vm.lookupUncached k selector

/-- A super send runs in a method that was installed in some class. -/
def HolderOk (vm : Vm) (caller : Addr) (isSuper : Bool) : Prop :=
  isSuper = true → ∃ h klass, (vm.methods caller).map Method.holder = some (.ref h) ∧
    vm.klasses h = some klass

def Vm.withCache (vm : Vm) (c : LookupCache) : Vm := { vm with lookupCache := c }

theorem lookupUncached_none_of_klass {vm : Vm} {k sel : Addr} (h : vm.klasses k = none) :
    vm.lookupUncached k sel = none := by
  unfold Vm.lookupUncached
  cases vm.depth with
  | zero => rfl
  | succ n => simp only [Vm.walk, h]

/-- `resolve` is the uncached lookup and changes nothing but the cache. -/
theorem resolve_eq {vm : Vm} {caller : Addr} {isSuper : Bool} (selector k : Addr)
    (hc : CacheOk vm) (hh : HolderOk vm caller isSuper) :
    ∃ c, resolve vm caller selector isSuper k =
        some (lookupFor vm caller selector isSuper k, vm.withCache c) ∧ CacheOk (vm.withCache c) := by
  have hstay : CacheOk (vm.withCache vm.lookupCache) := hc
  cases isSuper with
  | false =>
    obtain ⟨c, hl, hok⟩ := lookup_eq hc k selector
    refine ⟨c, ?_, hok⟩
    simp only [resolve, lookupFor, Bool.false_eq_true, if_false, hl]
    rfl
  | true =>
    obtain ⟨h, klass, hholder, hklass⟩ := hh rfl
    simp only [resolve, lookupFor, if_true, hholder, hklass]
    cases klass.superclass with
    | nil => exact ⟨vm.lookupCache, rfl, hstay⟩
    | smi v => exact ⟨vm.lookupCache, rfl, hstay⟩
    | ref s =>
      cases hs : vm.klasses s with
      | none =>
        refine ⟨vm.lookupCache, ?_, hstay⟩
        simp only [hs, Option.isSome_none, Bool.false_eq_true, if_false,
          lookupUncached_none_of_klass hs]
        rfl
      | some sk =>
        obtain ⟨c, hl, hok⟩ := lookup_eq hc s selector
        refine ⟨c, ?_, hok⟩
        simp only [hs, Option.isSome_some, if_true, hl]
        rfl

/-- `vm'` looks up like `vm`: same classes, same holders. -/
structure SameDispatch (vm vm' : Vm) : Prop where
  klasses : vm'.klasses = vm.klasses
  depth : vm'.depth = vm.depth
  holder : ∀ a, (vm'.methods a).map Method.holder = (vm.methods a).map Method.holder

theorem SameDispatch.lookupFor {vm vm' : Vm} (h : SameDispatch vm vm')
    (caller selector : Addr) (isSuper : Bool) (k : Addr) :
    lookupFor vm' caller selector isSuper k = lookupFor vm caller selector isSuper k := by
  simp only [Interpreter.lookupFor, Vm.lookupUncached, h.klasses, h.depth, h.holder]

theorem SameDispatch.holderOk {vm vm' : Vm} (h : SameDispatch vm vm') {caller : Addr}
    {isSuper : Bool} (hh : HolderOk vm caller isSuper) : HolderOk vm' caller isSuper := by
  intro hs
  obtain ⟨a, klass, hholder, hklass⟩ := hh hs
  exact ⟨a, klass, by rw [h.holder, hholder], by rw [h.klasses, hklass]⟩

/-! ## Site updates -/

theorem site_setSite {vm : Vm} {caller : Addr} {icIdx : Nat} {s s' : SendSite}
    (h : vm.site caller icIdx = some s) : (vm.setSite caller icIdx s').site caller icIdx = some s' := by
  simp only [Vm.site, Option.bind_eq_some_iff] at h
  obtain ⟨m, hm, hi⟩ := h
  have hlt : icIdx < m.ics.length := (List.getElem?_eq_some_iff.mp hi).1
  simp [Vm.site, Vm.setSite, hm, hlt]

theorem site_setSite_ne {vm : Vm} {caller c : Addr} {icIdx i : Nat} {s' : SendSite}
    (h : (c, i) ≠ (caller, icIdx)) : (vm.setSite caller icIdx s').site c i = vm.site c i := by
  simp only [Vm.site, Vm.setSite]
  by_cases hc : c = caller
  · subst hc
    have hi : icIdx ≠ i := fun he => h (by rw [he])
    rw [Function.update_self]
    cases vm.methods c with
    | none => rfl
    | some m => simp [List.getElem?_set_ne hi]
  · rw [Function.update_of_ne hc]

theorem setSite_holder (vm : Vm) (caller : Addr) (icIdx : Nat) (s' : SendSite) (a : Addr) :
    ((vm.setSite caller icIdx s').methods a).map Method.holder =
      (vm.methods a).map Method.holder := by
  simp only [Vm.setSite]
  by_cases ha : a = caller
  · subst ha
    rw [Function.update_self]
    cases vm.methods a <;> rfl
  · rw [Function.update_of_ne ha]

/-! ## The invariant -/

/-- The pairs array holds exactly these arms, class and method, and `nil` keys behind. -/
structure Arms (vm : Vm) (pairs : List Word) (arms : List (Addr × Addr)) : Prop where
  length : pairs.length = icPolyArrayLen
  le : arms.length ≤ icPolyMaxPairs
  key : ∀ i arm, arms[i]? = some arm → pairAt pairs (2 * i) = .ref arm.1
  method : ∀ i arm, arms[i]? = some arm → pairAt pairs (2 * i + 1) = .ref arm.2
  rest : ∀ i, arms.length ≤ i → i < icPolyMaxPairs → pairAt pairs (2 * i) = .nil
  live : ∀ arm ∈ arms, (vm.klasses arm.1).isSome ∧ (vm.methods arm.2).isSome
  nodup : (arms.map Prod.fst).Nodup

/-- What the words of a send site may be. The arms of a normal site keep resolving; those
under a current stamp are what lookup finds. -/
inductive SiteOk (vm : Vm) (caller : Addr) (s : SendSite) : Prop
  | empty (hg : s.guard = .nil)
  | mono {k m : Addr} (hg : s.guard = .ref k) (ht : s.target = .ref m)
      (hk : (vm.klasses k).isSome) (hm : (vm.methods m).isSome) (hle : s.epoch ≤ vm.icEpoch)
      (hcur : s.epoch = vm.icEpoch → lookupFor vm caller s.sel s.isSuper k = some m)
      (hfound : s.isSuper = false → (lookupFor vm caller s.sel s.isSuper k).isSome)
  | poly {a : Addr} {pairs : List Word} {arms : List (Addr × Addr)}
      (hg : s.guard = .smi icGuardPoly) (ht : s.target = .ref a) (hp : vm.arrays a = some pairs)
      (ha : Arms vm pairs arms) (htwo : 2 ≤ arms.length) (hle : s.epoch ≤ vm.icEpoch)
      (hcur : s.epoch = vm.icEpoch →
        ∀ arm ∈ arms, lookupFor vm caller s.sel s.isSuper arm.1 = some arm.2)
      (hfound : s.isSuper = false →
        ∀ arm ∈ arms, (lookupFor vm caller s.sel s.isSuper arm.1).isSome)
  | mega (hg : s.guard = .smi icGuardMega)

/-- A poly site's pairs array is its own. -/
def Owned (vm : Vm) : Prop :=
  ∀ c i s c' i' s' a, vm.site c i = some s → vm.site c' i' = some s' →
    s.guard = .smi icGuardPoly → s'.guard = .smi icGuardPoly →
    s.target = .ref a → s'.target = .ref a → (c, i) = (c', i')

/-- Method dictionaries hold methods. -/
def DictsOk (vm : Vm) : Prop :=
  ∀ k klass sel m, vm.klasses k = some klass → klass.methods sel = some m → (vm.methods m).isSome

structure Inv (vm : Vm) : Prop where
  cache : CacheOk vm
  dicts : DictsOk vm
  sites : ∀ c i s, vm.site c i = some s → SiteOk vm c s
  owned : Owned vm
  epoch : vm.icEpoch < 2 ^ 24

/-! ## Collections move the invariant along -/

theorem pairAt_map (ρ : Equiv.Perm Addr) (pairs : List Word) (i : Nat) :
    pairAt (pairs.map (Word.move ρ)) i = (pairAt pairs i).move ρ := by
  simp only [pairAt, List.getD_eq_getElem?_getD, List.getElem?_map]
  cases pairs[i]? <;> rfl

theorem site_collect (vm : Vm) (ρ : Equiv.Perm Addr) (c : Addr) (i : Nat) :
    (vm.collect ρ).site (ρ c) i = (vm.site c i).map (SendSite.move ρ) := by
  simp only [Vm.site, Vm.collect, Equiv.symm_apply_apply]
  cases vm.methods c with
  | none => rfl
  | some m => simp [Method.move]

/-- Every site of a collected heap is a moved site. -/
theorem site_of_collect {vm : Vm} {ρ : Equiv.Perm Addr} {c : Addr} {i : Nat} {s : SendSite}
    (h : (vm.collect ρ).site c i = some s) :
    ∃ s0, vm.site (ρ.symm c) i = some s0 ∧ s = s0.move ρ := by
  rw [← ρ.apply_symm_apply c, site_collect, Option.map_eq_some_iff] at h
  obtain ⟨s0, hs0, rfl⟩ := h
  exact ⟨s0, hs0, rfl⟩

theorem klass_collect_isSome (vm : Vm) (ρ : Equiv.Perm Addr) (a : Addr) :
    ((vm.collect ρ).klasses (ρ a)).isSome = (vm.klasses a).isSome := by
  simp [Vm.collect]

theorem method_collect_isSome (vm : Vm) (ρ : Equiv.Perm Addr) (a : Addr) :
    ((vm.collect ρ).methods (ρ a)).isSome = (vm.methods a).isSome := by
  simp [Vm.collect]

theorem holder_collect (vm : Vm) (ρ : Equiv.Perm Addr) (a : Addr) :
    ((vm.collect ρ).methods (ρ a)).map Method.holder =
      ((vm.methods a).map Method.holder).map (Word.move ρ) := by
  simp only [Vm.collect, Equiv.symm_apply_apply]
  cases vm.methods a <;> rfl

theorem lookupFor_collect (vm : Vm) (ρ : Equiv.Perm Addr) (caller sel : Addr) (isSuper : Bool)
    (k : Addr) :
    lookupFor (vm.collect ρ) (ρ caller) (ρ sel) isSuper (ρ k) =
      (lookupFor vm caller sel isSuper k).map ρ := by
  cases isSuper with
  | false => exact lookupUncached_collect vm ρ k sel
  | true =>
    simp only [lookupFor, if_true, holder_collect]
    cases (vm.methods caller).map Method.holder with
    | none => rfl
    | some w =>
      cases w with
      | nil => rfl
      | smi v => rfl
      | ref h =>
        have hk : (vm.collect ρ).klasses (ρ h) = (vm.klasses h).map (Klass.move ρ) := by
          simp [Vm.collect]
        simp only [Option.map_some, Word.move, hk]
        cases vm.klasses h with
        | none => rfl
        | some klass =>
          simp only [Option.map_some, Klass.move]
          cases klass.superclass with
          | nil => rfl
          | smi v => rfl
          | ref s => exact lookupUncached_collect vm ρ s sel

theorem Arms.collect {vm : Vm} {pairs : List Word} {arms : List (Addr × Addr)}
    (h : Arms vm pairs arms) (ρ : Equiv.Perm Addr) :
    Arms (vm.collect ρ) (pairs.map (Word.move ρ)) (arms.map (Prod.map ρ ρ)) := by
  constructor
  · rw [List.length_map, h.length]
  · rw [List.length_map]
    exact h.le
  · intro i arm hi
    rw [List.getElem?_map, Option.map_eq_some_iff] at hi
    obtain ⟨arm0, hi0, rfl⟩ := hi
    rw [pairAt_map, h.key i arm0 hi0]
    rfl
  · intro i arm hi
    rw [List.getElem?_map, Option.map_eq_some_iff] at hi
    obtain ⟨arm0, hi0, rfl⟩ := hi
    rw [pairAt_map, h.method i arm0 hi0]
    rfl
  · intro i hle hlt
    rw [List.length_map] at hle
    rw [pairAt_map, h.rest i hle hlt]
    rfl
  · intro arm harm
    obtain ⟨arm0, harm0, rfl⟩ := List.mem_map.mp harm
    obtain ⟨hk, hm⟩ := h.live arm0 harm0
    exact ⟨by rwa [← klass_collect_isSome vm ρ] at hk, by rwa [← method_collect_isSome vm ρ] at hm⟩
  · have hmap : (arms.map (Prod.map ρ ρ)).map Prod.fst = (arms.map Prod.fst).map ρ := by
      simp [List.map_map, Function.comp_def]
    rw [hmap]
    exact h.nodup.map ρ.injective

theorem SiteOk.collect {vm : Vm} {c : Addr} {s : SendSite} (h : SiteOk vm c s)
    (ρ : Equiv.Perm Addr) : SiteOk (vm.collect ρ) (ρ c) (s.move ρ) := by
  cases h with
  | empty hg => exact .empty (by simp only [SendSite.move, hg]; rfl)
  | mega hg => exact .mega (by simp only [SendSite.move, hg]; rfl)
  | mono hg ht hk hm hle hcur hfound =>
    refine .mono (by simp only [SendSite.move, hg]; rfl) (by simp only [SendSite.move, ht]; rfl)
      (by rwa [klass_collect_isSome]) (by rwa [method_collect_isSome]) hle ?_ ?_
    · intro he
      show lookupFor _ _ (ρ s.sel) s.isSuper _ = _
      rw [lookupFor_collect, hcur he]
      rfl
    · intro hs
      show (lookupFor _ _ (ρ s.sel) s.isSuper _).isSome
      rw [lookupFor_collect, Option.isSome_map]
      exact hfound hs
  | @poly a pairs arms hg ht hp ha htwo hle hcur hfound =>
    have harr : (vm.collect ρ).arrays (ρ a) = some (pairs.map (Word.move ρ)) := by
      simp [Vm.collect, hp]
    refine .poly (by simp only [SendSite.move, hg]; rfl) (by simp only [SendSite.move, ht]; rfl)
      harr (ha.collect ρ) (by rwa [List.length_map]) hle ?_ ?_
    · intro he arm harm
      obtain ⟨arm0, harm0, rfl⟩ := List.mem_map.mp harm
      show lookupFor _ _ (ρ s.sel) s.isSuper (ρ arm0.1) = _
      rw [lookupFor_collect, hcur he arm0 harm0]
      rfl
    · intro hs arm harm
      obtain ⟨arm0, harm0, rfl⟩ := List.mem_map.mp harm
      show (lookupFor _ _ (ρ s.sel) s.isSuper (ρ arm0.1)).isSome
      rw [lookupFor_collect, Option.isSome_map]
      exact hfound hs arm0 harm0

theorem Word.move_smi {ρ : Equiv.Perm Addr} {w : Word} {v : Int} (h : w.move ρ = .smi v) :
    w = .smi v := by
  cases w with
  | smi v' => exact h
  | nil => cases h
  | ref a => cases h

theorem Word.move_ref {ρ : Equiv.Perm Addr} {w : Word} {a : Addr} (h : w.move ρ = .ref a) :
    w = .ref (ρ.symm a) := by
  cases w with
  | ref a' =>
    cases h
    rw [ρ.symm_apply_apply]
  | nil => cases h
  | smi v => cases h

theorem DictsOk.collect {vm : Vm} (h : DictsOk vm) (ρ : Equiv.Perm Addr) :
    DictsOk (vm.collect ρ) := by
  intro k klass sel m hk hm
  simp only [Vm.collect, Option.map_eq_some_iff] at hk
  obtain ⟨klass0, hk0, rfl⟩ := hk
  simp only [Klass.move, Option.map_eq_some_iff] at hm
  obtain ⟨m0, hm0, rfl⟩ := hm
  rw [method_collect_isSome]
  exact h _ klass0 _ m0 hk0 hm0

theorem Owned.collect {vm : Vm} (h : Owned vm) (ρ : Equiv.Perm Addr) : Owned (vm.collect ρ) := by
  intro c i s c' i' s' a hs hs' hg hg' ht ht'
  obtain ⟨s0, hs0, rfl⟩ := site_of_collect hs
  obtain ⟨s0', hs0', rfl⟩ := site_of_collect hs'
  have heq := h _ i s0 _ i' s0' (ρ.symm a) hs0 hs0' (Word.move_smi hg) (Word.move_smi hg')
    (Word.move_ref ht) (Word.move_ref ht')
  obtain ⟨hc, hi⟩ := Prod.mk.inj heq
  rw [ρ.symm.injective hc, hi]

theorem Inv.collect {vm : Vm} (h : Inv vm) (ρ : Equiv.Perm Addr) : Inv (vm.collect ρ) := by
  refine ⟨CacheOk.flush rfl, h.dicts.collect ρ, ?_, h.owned.collect ρ, h.epoch⟩
  intro c i s hs
  obtain ⟨s0, hs0, rfl⟩ := site_of_collect hs
  have := (h.sites _ i s0 hs0).collect ρ
  rwa [ρ.apply_symm_apply] at this

/-! ## An install makes every stamp stale -/

/-- The method table changed in nothing but holders. -/
def HolderOnly (methods methods' : Addr → Option Method) : Prop :=
  ∀ a, (methods' a).map (fun m => (m.isBlock, m.literals, m.ics)) =
    (methods a).map (fun m => (m.isBlock, m.literals, m.ics))

theorem HolderOnly.isSome {methods methods' : Addr → Option Method}
    (h : HolderOnly methods methods') (a : Addr) : (methods' a).isSome = (methods a).isSome := by
  have := congrArg Option.isSome (h a)
  simpa only [Option.isSome_map] using this

theorem holderOnly_setHolder (methods : Addr → Option Method) (m : Addr) (holder : Word) :
    HolderOnly methods (setHolder methods m holder) := by
  intro a
  simp only [setHolder]
  by_cases ha : a = m
  · subst ha
    rw [Function.update_self]
    cases methods a <;> rfl
  · rw [Function.update_of_ne ha]

theorem holderOnly_patchBlockHolders (holder : Word) (depth : Nat)
    (methods : Addr → Option Method) (m : Addr) :
    HolderOnly methods (patchBlockHolders holder depth methods m) := by
  induction depth generalizing methods m with
  | zero => exact fun a => rfl
  | succ depth ih =>
    simp only [patchBlockHolders]
    cases methods m with
    | none => exact fun a => rfl
    | some mm =>
      -- The fold over the literals: each literal either leaves the table alone or is a
      -- block, patched by the induction hypothesis.
      refine List.foldlRecOn mm.literals _ (fun a => rfl) fun ms h w _ => ?_
      split
      · split
        · split
          · intro a
            rw [ih _ _ a, holderOnly_setHolder ms _ holder a, h a]
          · exact h
        · exact h
      · exact h

theorem Arms.install {vm vm' : Vm} {pairs : List Word} {arms : List (Addr × Addr)}
    (h : Arms vm pairs arms) (hk : MoreMethods vm.klasses vm'.klasses)
    (hm : HolderOnly vm.methods vm'.methods) : Arms vm' pairs arms := by
  refine ⟨h.length, h.le, h.key, h.method, h.rest, ?_, h.nodup⟩
  intro arm harm
  obtain ⟨hk0, hm0⟩ := h.live arm harm
  obtain ⟨klass, hklass⟩ := Option.isSome_iff_exists.mp hk0
  obtain ⟨klass', hklass', -⟩ := hk arm.1 klass hklass
  exact ⟨by rw [hklass']; rfl, by rwa [hm.isSome]⟩

/-- After the epoch moved on, an old site is well-formed and stale. -/
theorem SiteOk.install {vm vm' : Vm} {c : Addr} {s : SendSite} (h : SiteOk vm c s)
    (hk : MoreMethods vm.klasses vm'.klasses) (hm : HolderOnly vm.methods vm'.methods)
    (harr : vm'.arrays = vm.arrays) (hdepth : vm'.depth = vm.depth)
    (hepoch : vm'.icEpoch = vm.icEpoch + 1) : SiteOk vm' c s := by
  have hkeep : ∀ k, s.isSuper = false → (lookupFor vm c s.sel s.isSuper k).isSome →
      (lookupFor vm' c s.sel s.isSuper k).isSome := by
    intro k hs hsome
    simp only [lookupFor, hs, Bool.false_eq_true, if_false, Vm.lookupUncached, hdepth] at hsome ⊢
    exact hk.walk_isSome hsome
  cases h with
  | empty hg => exact .empty hg
  | mega hg => exact .mega hg
  | @mono k m hg ht hk0 hm0 hle hcur hfound =>
    obtain ⟨klass, hklass⟩ := Option.isSome_iff_exists.mp hk0
    obtain ⟨klass', hklass', -⟩ := hk k klass hklass
    refine .mono hg ht (by rw [hklass']; rfl) (by rwa [hm.isSome]) (by omega) ?_ ?_
    · intro he
      omega
    · exact fun hs => hkeep k hs (hfound hs)
  | poly hg ht hp ha htwo hle hcur hfound =>
    refine .poly hg ht (by rw [harr, hp]) (ha.install hk hm) htwo (by omega) ?_ ?_
    · intro he
      omega
    · exact fun hs arm harm => hkeep arm.1 hs (hfound hs arm harm)

theorem HolderOnly.site {vm vm' : Vm} (h : HolderOnly vm.methods vm'.methods) (c : Addr)
    (i : Nat) : vm'.site c i = vm.site c i := by
  have hc := h c
  simp only [Vm.site]
  cases hm : vm.methods c with
  | none =>
    rw [hm] at hc
    cases hm' : vm'.methods c with
    | none => rfl
    | some m' => rw [hm'] at hc; cases hc
  | some m =>
    rw [hm] at hc
    cases hm' : vm'.methods c with
    | none => rw [hm'] at hc; cases hc
    | some m' =>
      rw [hm'] at hc
      simp only [Option.map_some, Option.some.injEq, Prod.mk.injEq] at hc
      simp only [Option.bind_some, hc.2.2]

theorem Inv.installMethod {vm vm' : Vm} (h : Inv vm) {ρ : Equiv.Perm Addr}
    {klass selector m : Addr} (hi : vm.installMethod ρ klass selector m = some vm')
    (hlt : vm.icEpoch + 1 < 2 ^ 24) : Inv vm' := by
  have hinv := h.collect ρ
  simp only [Vm.installMethod] at hi
  generalize hvm : vm.collect ρ = v at hi hinv
  have hev : v.icEpoch = vm.icEpoch := by rw [← hvm]; rfl
  split at hi
  · next k mm hk hmm =>
    cases hi
    have hmore := moreMethods_install (ρ selector) (ρ m) hk
    have hholder : HolderOnly v.methods (patchBlockHolders (.ref (ρ klass)) v.depth
        (setHolder v.methods (ρ m) (.ref (ρ klass))) (ρ m)) := by
      intro a
      rw [holderOnly_patchBlockHolders, holderOnly_setHolder]
    refine ⟨CacheOk.flush rfl, ?_, ?_, ?_, by simp only [hev]; exact hlt⟩
    · intro k' klass' sel m' hk' hm'
      simp only [Function.update_apply] at hk'
      rw [hholder.isSome]
      split at hk'
      · cases hk'
        simp only [Function.update_apply] at hm'
        split at hm'
        · cases hm'
          rw [hmm]
          rfl
        · exact hinv.dicts _ _ _ _ hk hm'
      · exact hinv.dicts _ _ _ _ hk' hm'
    · intro c i s hs
      rw [HolderOnly.site hholder] at hs
      exact (hinv.sites c i s hs).install hmore hholder rfl rfl rfl
    · intro c i s c' i' s' a hs hs'
      rw [HolderOnly.site hholder] at hs hs'
      exact hinv.owned c i s c' i' s' a hs hs'
  · cases hi

/-! ## One site changes, the others do not -/

theorem SameDispatch.isSome {vm vm' : Vm} (h : SameDispatch vm vm') (a : Addr) :
    (vm'.methods a).isSome = (vm.methods a).isSome := by
  have := congrArg Option.isSome (h.holder a)
  simpa only [Option.isSome_map] using this

theorem Arms.same {vm vm' : Vm} {pairs : List Word} {arms : List (Addr × Addr)}
    (h : Arms vm pairs arms) (hd : SameDispatch vm vm') : Arms vm' pairs arms := by
  refine ⟨h.length, h.le, h.key, h.method, h.rest, ?_, h.nodup⟩
  intro arm harm
  obtain ⟨hk, hm⟩ := h.live arm harm
  exact ⟨by rwa [hd.klasses], by rwa [hd.isSome]⟩

theorem SiteOk.same {vm vm' : Vm} {c : Addr} {s : SendSite} (h : SiteOk vm c s)
    (hd : SameDispatch vm vm') (he : vm'.icEpoch = vm.icEpoch)
    (harr : ∀ a, s.guard = .smi icGuardPoly → s.target = .ref a → vm'.arrays a = vm.arrays a) :
    SiteOk vm' c s := by
  cases h with
  | empty hg => exact .empty hg
  | mega hg => exact .mega hg
  | mono hg ht hk hm hle hcur hfound =>
    refine .mono hg ht (by rwa [hd.klasses]) (by rwa [hd.isSome]) (by rwa [he]) ?_ ?_
    · rw [he, hd.lookupFor]
      exact hcur
    · rw [hd.lookupFor]
      exact hfound
  | @poly a pairs arms hg ht hp ha htwo hle hcur hfound =>
    refine .poly hg ht (by rw [harr a hg ht, hp]) (ha.same hd) htwo (by rwa [he]) ?_ ?_
    · simp only [he, hd.lookupFor]
      exact hcur
    · simp only [hd.lookupFor]
      exact hfound

/-- A change of one site's words, of its own pairs array and of the cache. -/
structure SiteUpdate (vm vm' : Vm) (caller : Addr) (icIdx : Nat) (s' : SendSite) : Prop where
  dispatch : SameDispatch vm vm'
  epoch : vm'.icEpoch = vm.icEpoch
  cache : CacheOk vm'
  others : ∀ c i, (c, i) ≠ (caller, icIdx) → vm'.site c i = vm.site c i
  self : vm'.site caller icIdx = some s'
  arrays : ∀ c i t a, (c, i) ≠ (caller, icIdx) → vm.site c i = some t →
    t.guard = .smi icGuardPoly → t.target = .ref a →
    vm'.arrays a = vm.arrays a ∧ (s'.guard = .smi icGuardPoly → s'.target ≠ .ref a)

/-- A site that keeps its own pairs array, or takes a new one, leaves every array with one owner. -/
theorem Owned.update {vm vm' : Vm} {caller : Addr} {icIdx : Nat} {s' : SendSite} (h : Owned vm)
    (hu : SiteUpdate vm vm' caller icIdx s') : Owned vm' := by
  intro c i t c' i' t' a ht ht' hg hg' htgt htgt'
  by_cases hc : (c, i) = (caller, icIdx)
  · by_cases hc' : (c', i') = (caller, icIdx)
    · rw [hc, hc']
    · obtain ⟨rfl, rfl⟩ := Prod.mk.inj hc
      rw [hu.self] at ht
      cases ht
      rw [hu.others c' i' hc'] at ht'
      exact absurd htgt ((hu.arrays c' i' t' a hc' ht' hg' htgt').2 hg)
  · rw [hu.others c i hc] at ht
    by_cases hc' : (c', i') = (caller, icIdx)
    · obtain ⟨rfl, rfl⟩ := Prod.mk.inj hc'
      rw [hu.self] at ht'
      cases ht'
      exact absurd htgt' ((hu.arrays c i t a hc ht hg htgt).2 hg')
    · rw [hu.others c' i' hc'] at ht'
      exact h c i t c' i' t' a ht ht' hg hg' htgt htgt'

theorem Inv.update {vm vm' : Vm} {caller : Addr} {icIdx : Nat} {s' : SendSite} (h : Inv vm)
    (hu : SiteUpdate vm vm' caller icIdx s') (hok : SiteOk vm' caller s') : Inv vm' := by
  refine ⟨hu.cache, ?_, ?_, h.owned.update hu, by rw [hu.epoch]; exact h.epoch⟩
  · intro k klass sel m hk hm
    rw [hu.dispatch.klasses] at hk
    rw [hu.dispatch.isSome]
    exact h.dicts k klass sel m hk hm
  · intro c i t ht
    by_cases hc : (c, i) = (caller, icIdx)
    · obtain ⟨rfl, rfl⟩ := Prod.mk.inj hc
      rw [hu.self] at ht
      cases ht
      exact hok
    · rw [hu.others c i hc] at ht
      exact (h.sites c i t ht).same hu.dispatch hu.epoch
        (fun a hg htgt => (hu.arrays c i t a hc ht hg htgt).1)

theorem Vm.site_withCache (vm : Vm) (c : LookupCache) (m : Addr) (i : Nat) :
    (vm.withCache c).site m i = vm.site m i := rfl

theorem sameDispatch_withCache (vm : Vm) (c : LookupCache) : SameDispatch vm (vm.withCache c) :=
  ⟨rfl, rfl, fun _ => rfl⟩

/-- Only the cache changed. -/
theorem siteUpdate_withCache {vm : Vm} (h : Owned vm) {caller : Addr} {icIdx : Nat} {s : SendSite}
    (hs : vm.site caller icIdx = some s) {c : LookupCache} (hc : CacheOk (vm.withCache c)) :
    SiteUpdate vm (vm.withCache c) caller icIdx s :=
  { dispatch := sameDispatch_withCache vm c
    epoch := rfl
    cache := hc
    others := fun _ _ _ => rfl
    self := hs
    arrays := fun c' i t a hne ht hg htgt => by
      refine ⟨rfl, fun hg' htgt' => hne ?_⟩
      exact h c' i t caller icIdx s a ht hs hg hg' htgt htgt' }

/-- The site's words were written, with a target that is no pairs array, or keeps its own. -/
theorem siteUpdate_setSite {vm : Vm} (h : Owned vm) {caller : Addr} {icIdx : Nat} {s : SendSite}
    (hs : vm.site caller icIdx = some s) {c : LookupCache} (hc : CacheOk (vm.withCache c))
    (s' : SendSite)
    (hown : s'.guard = .smi icGuardPoly → s.guard = .smi icGuardPoly ∧ s'.target = s.target) :
    SiteUpdate vm ((vm.withCache c).setSite caller icIdx s') caller icIdx s' :=
  { dispatch := ⟨rfl, rfl, setSite_holder (vm.withCache c) caller icIdx s'⟩
    epoch := rfl
    cache := hc
    others := fun _ _ hne => site_setSite_ne hne
    self := site_setSite hs
    arrays := fun c' i t a hne ht hg htgt => by
      refine ⟨rfl, fun hg' htgt' => hne ?_⟩
      obtain ⟨hgs, hts⟩ := hown hg'
      exact h c' i t caller icIdx s a ht hs hg hgs htgt (hts ▸ htgt') }

/-- A poly site rewrote its own pairs array and, perhaps, its words. -/
theorem SiteUpdate.setArray {vm vm' : Vm} {caller : Addr} {icIdx : Nat} {s s' : SendSite}
    (h : Owned vm) (hu : SiteUpdate vm vm' caller icIdx s') (hs : vm.site caller icIdx = some s)
    {a : Addr} (hg : s.guard = .smi icGuardPoly) (ht : s.target = .ref a) (pairs : List Word) :
    SiteUpdate vm (vm'.setArray a pairs) caller icIdx s' :=
  { dispatch := ⟨hu.dispatch.klasses, hu.dispatch.depth, hu.dispatch.holder⟩
    epoch := hu.epoch
    cache := hu.cache
    others := hu.others
    self := hu.self
    arrays := fun c' i t b hne htt hgt htgt => by
      obtain ⟨harr, hne'⟩ := hu.arrays c' i t b hne htt hgt htgt
      refine ⟨?_, hne'⟩
      have hab : b ≠ a := by
        intro he
        subst he
        exact hne (h c' i t caller icIdx s b htt hs hgt hg htgt ht)
      simp only [Vm.setArray, Function.update_of_ne hab, harr] }

end WinVm.Interpreter
