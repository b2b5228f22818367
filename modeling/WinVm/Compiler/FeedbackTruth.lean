import WinVm.Compiler.Feedback

/-!
# When type feedback is true

A send writes into a site only what it has just looked up, next to arms the site had before; a
moving collection moves arms and dictionaries alike. So the believed arms stay what lookup finds
until an install changes a lookup under one of them. The stamps do not matter: a stale arm that
still is what lookup finds is as good as a fresh one, also when row 5 copies it.

Results:

* `Feed.sendGeneric`, `Feed.exec`: every operation but an install keeps the believed arms true;
* `Feed.install_iff`: an install does exactly if it shadows none of them;
* `feedback_is_true`: along runs;
* `feedback_is_stale`: a run with a shadowing install.
-/

namespace WinVm.Compiler

open WinVm.Interpreter WinVm.Codecache

/-! ## Changes that leave the arms alone -/

section Same

variable {vm vm' : Vm} {s : SendSite} {k m : Addr}

theorem isKlass_congr (h : ∀ a, (vm'.klasses a).isSome = (vm.klasses a).isSome) (w : Word) :
    vm'.isKlass w = vm.isKlass w := by
  cases w with
  | ref a => exact h a
  | nil => rfl
  | smi v => rfl

theorem klass_isSome_same (hd : SameDispatch vm vm') (a : Addr) :
    (vm'.klasses a).isSome = (vm.klasses a).isSome := by
  rw [hd.klasses]

theorem Compact.congr {pairs : List Word} (h : Compact vm pairs)
    (hk : ∀ a, (vm'.klasses a).isSome = (vm.klasses a).isSome) : Compact vm' pairs := by
  intro i j hij hj
  rw [isKlass_congr hk, isKlass_congr hk]
  exact h i j hij hj

theorem lookupUncached_congr (hd : SameDispatch vm vm') (k sel : Addr) :
    vm'.lookupUncached k sel = vm.lookupUncached k sel := by
  simp only [Vm.lookupUncached, hd.klasses, hd.depth]

/-- Arms are words, of classes and methods that exist. -/
theorem HoldsArm.congr (h : HoldsArm vm' s k m)
    (hk : ∀ a, (vm'.klasses a).isSome = (vm.klasses a).isSome)
    (hm : ∀ a, (vm'.methods a).isSome = (vm.methods a).isSome)
    (harr : ∀ a, s.guard = .smi icGuardPoly → s.target = .ref a → vm'.arrays a = vm.arrays a) :
    HoldsArm vm s k m := by
  refine ⟨by rw [← hk]; exact h.klass, by rw [← hm]; exact h.method, ?_⟩
  cases h.words with
  | mono hg ht => exact .mono hg ht
  | poly hg ht hp hi hkey hmethod =>
    rw [harr _ hg ht] at hp
    exact .poly hg ht hp hi hkey hmethod

theorem FeedSite.same (h : FeedSite vm s) (hd : SameDispatch vm vm')
    (harr : ∀ a, s.guard = .smi icGuardPoly → s.target = .ref a → vm'.arrays a = vm.arrays a) :
    FeedSite vm' s := by
  constructor
  · intro hg a ht
    obtain ⟨pairs, hp, hc⟩ := h.backed hg a ht
    exact ⟨pairs, by rw [harr a hg ht, hp], hc.congr (klass_isSome_same hd)⟩
  · intro hs k m ha
    rw [lookupUncached_congr hd]
    exact h.found hs k m (ha.congr (klass_isSome_same hd) hd.isSome harr)

/-- One site changes, the others do not. -/
theorem Feed.update {caller : Addr} {icIdx : Nat} {s' : SendSite} (h : Feed vm)
    (hu : SiteUpdate vm vm' caller icIdx s') (hok : FeedSite vm' s') : Feed vm' := by
  refine ⟨hu.cache, h.owned.update hu, fun c i t ht => ?_⟩
  by_cases hc : (c, i) = (caller, icIdx)
  · obtain ⟨rfl, rfl⟩ := Prod.mk.inj hc
    rw [hu.self] at ht
    cases ht
    exact hok
  · rw [hu.others c i hc] at ht
    exact (h.sites c i t ht).same hu.dispatch
      (fun a hg htgt => (hu.arrays c i t a hc ht hg htgt).1)

theorem Feed.withCache (h : Feed vm) {c : LookupCache} (hc : CacheOk (vm.withCache c)) :
    Feed (vm.withCache c) :=
  ⟨hc, h.owned, fun c' i t ht =>
    (h.sites c' i t ht).same (sameDispatch_withCache vm c) (fun _ _ _ => rfl)⟩

end Same

/-! ## Collections -/

section Collect

variable {vm : Vm} {s : SendSite} {k m : Addr} {ρ : Equiv.Perm Addr}

theorem isKlass_collect (w : Word) : (vm.collect ρ).isKlass (w.move ρ) = vm.isKlass w := by
  cases w with
  | ref a => exact klass_collect_isSome vm ρ a
  | nil => rfl
  | smi v => rfl

theorem Compact.collect {pairs : List Word} (h : Compact vm pairs) :
    Compact (vm.collect ρ) (pairs.map (Word.move ρ)) := by
  intro i j hij hj
  rw [pairAt_map, pairAt_map, isKlass_collect, isKlass_collect]
  exact h i j hij hj

theorem arrays_collect_eq_some {a : Addr} {pairs : List Word}
    (h : (vm.collect ρ).arrays a = some pairs) :
    ∃ pairs₀, vm.arrays (ρ.symm a) = some pairs₀ ∧ pairs = pairs₀.map (Word.move ρ) := by
  simp only [Vm.collect, Option.map_eq_some_iff] at h
  obtain ⟨pairs₀, hp, rfl⟩ := h
  exact ⟨pairs₀, hp, rfl⟩

/-- Arms move with the site. -/
theorem HoldsArm.collect (h : HoldsArm vm s k m) (ρ : Equiv.Perm Addr) :
    HoldsArm (vm.collect ρ) (s.move ρ) (ρ k) (ρ m) := by
  refine ⟨by rw [klass_collect_isSome]; exact h.klass, by rw [method_collect_isSome]; exact h.method, ?_⟩
  cases h.words with
  | mono hg ht => exact .mono (by simp only [SendSite.move, hg]; rfl) (by simp only [SendSite.move, ht]; rfl)
  | @poly a pairs i hg ht hp hi hkey hmethod =>
    have hp' : (vm.collect ρ).arrays (ρ a) = some (pairs.map (Word.move ρ)) := by
      simp only [Vm.collect, Equiv.symm_apply_apply, hp, Option.map_some]
    refine .poly (by simp only [SendSite.move, hg]; rfl) (by simp only [SendSite.move, ht]; rfl) hp'
      hi ?_ ?_
    · rw [pairAt_map, hkey]
      rfl
    · rw [pairAt_map, hmethod]
      rfl

theorem HoldsArm.of_collect (h : HoldsArm (vm.collect ρ) (s.move ρ) k m) :
    HoldsArm vm s (ρ.symm k) (ρ.symm m) := by
  refine ⟨?_, ?_, ?_⟩
  · rw [← klass_collect_isSome vm ρ, ρ.apply_symm_apply]
    exact h.klass
  · rw [← method_collect_isSome vm ρ, ρ.apply_symm_apply]
    exact h.method
  · cases h.words with
    | mono hg ht => exact .mono (Word.move_ref hg) (Word.move_ref ht)
    | poly hg ht hp hi hkey hmethod =>
      obtain ⟨pairs₀, hp₀, rfl⟩ := arrays_collect_eq_some hp
      rw [pairAt_map] at hkey hmethod
      exact .poly (Word.move_smi hg) (Word.move_ref ht) hp₀ hi (Word.move_ref hkey)
        (Word.move_ref hmethod)

theorem FeedSite.collect (h : FeedSite vm s) (ρ : Equiv.Perm Addr) :
    FeedSite (vm.collect ρ) (s.move ρ) := by
  constructor
  · intro hg a ht
    obtain ⟨pairs, hp, hc⟩ := h.backed (Word.move_smi hg) _ (Word.move_ref ht)
    exact ⟨_, by simp only [Vm.collect, hp, Option.map_some], hc.collect⟩
  · intro hs k m ha
    have hfound := h.found hs _ _ ha.of_collect
    have hmoved := lookupUncached_collect vm ρ (ρ.symm k) s.sel
    rw [ρ.apply_symm_apply, hfound, Option.map_some, ρ.apply_symm_apply] at hmoved
    exact hmoved

theorem Feed.collect (h : Feed vm) (ρ : Equiv.Perm Addr) : Feed (vm.collect ρ) := by
  refine ⟨CacheOk.flush rfl, h.owned.collect ρ, fun c i s hs => ?_⟩
  obtain ⟨s₀, hs₀, rfl⟩ := site_of_collect hs
  exact (h.sites _ i s₀ hs₀).collect ρ

theorem Feed.alloc (h : Feed vm) (al : Alloc) : Feed (al.collect vm) := by
  unfold Alloc.collect
  cases al.gc with
  | none => exact h
  | some ρ => exact h.collect ρ

end Collect

/-! ## The rows of the transition table -/

section Rows

variable {vm : Vm} {caller k : Addr} {icIdx : Nat} {s : SendSite}

/-- Whatever `resolve` does, it only touches the cache; at a normal site it is the lookup. -/
theorem resolve_some {sel : Addr} {isSuper : Bool} {r : Option Addr} {vm₁ : Vm} (hc : CacheOk vm)
    (h : resolve vm caller sel isSuper k = some (r, vm₁)) :
    ∃ c, vm₁ = vm.withCache c ∧ CacheOk (vm.withCache c) ∧
      (isSuper = false → r = vm.lookupUncached k sel) := by
  have hstay : CacheOk (vm.withCache vm.lookupCache) := hc
  unfold resolve at h
  split at h
  · next hs =>
    split at h
    · split at h
      · split at h
        · next sc _ =>
          split at h
          · obtain ⟨c, hl, hok⟩ := lookup_eq hc sc sel
            rw [hl] at h
            cases h
            exact ⟨c, rfl, hok, fun hn => by rw [hn] at hs; cases hs⟩
          · cases h
            exact ⟨vm.lookupCache, rfl, hstay, fun hn => by rw [hn] at hs; cases hs⟩
        · cases h
          exact ⟨vm.lookupCache, rfl, hstay, fun hn => by rw [hn] at hs; cases hs⟩
      · cases h
    · cases h
  · obtain ⟨c, hl, hok⟩ := lookup_eq hc k sel
    rw [hl] at h
    cases h
    exact ⟨c, rfl, hok, fun _ => rfl⟩

/-- A site without arms. -/
theorem FeedSite.of_no_arms (hg : s.guard = .nil ∨ s.guard = .smi icGuardMega) : FeedSite vm s := by
  constructor
  · intro hp
    rcases hg with hg | hg
    · rw [hg] at hp
      cases hp
    · rw [hg] at hp
      exact absurd (Word.smi.inj hp) (by decide)
  · intro _ k m ha
    cases ha.words with
    | mono hg' =>
      rcases hg with hg | hg
      · rw [hg] at hg'
        cases hg'
      · rw [hg] at hg'
        cases hg'
    | poly hg' =>
      rcases hg with hg | hg
      · rw [hg] at hg'
        cases hg'
      · rw [hg] at hg'
        exact absurd (Word.smi.inj hg') (by decide)

/-- A site that caches one class: its method is what lookup finds, or it is compiled code. -/
theorem FeedSite.of_mono (hg : s.guard = .ref k)
    (ht : s.isSuper = false → ∀ m, s.target = .ref m → vm.lookupUncached k s.sel = some m) :
    FeedSite vm s := by
  constructor
  · intro hp
    rw [hg] at hp
    cases hp
  · intro hs k' m ha
    cases ha.words with
    | mono hg' ht' =>
      rw [hg] at hg'
      cases hg'
      exact ht hs m ht'
    | poly hg' =>
      rw [hg] at hg'
      cases hg'

/-- A site with a pairs array whose arms are what lookup finds. -/
theorem FeedSite.of_poly {a : Addr} {pairs : List Word} (hg : s.guard = .smi icGuardPoly)
    (ht : s.target = .ref a) (hp : vm.arrays a = some pairs) (hc : Compact vm pairs)
    (hfound : s.isSuper = false → ∀ i k m, i < icPolyMaxPairs → (vm.klasses k).isSome →
      (vm.methods m).isSome → pairAt pairs (2 * i) = .ref k → pairAt pairs (2 * i + 1) = .ref m →
      vm.lookupUncached k s.sel = some m) : FeedSite vm s := by
  constructor
  · intro _ a' ht'
    rw [ht] at ht'
    cases ht'
    exact ⟨pairs, hp, hc⟩
  · intro hs k m ha
    cases ha.words with
    | mono hg' =>
      rw [hg] at hg'
      cases hg'
    | poly _ ht' hp' hi hkey hmethod =>
      rw [ht] at ht'
      cases ht'
      rw [hp] at hp'
      cases hp'
      exact hfound hs _ k m hi ha.klass ha.method hkey hmethod

/-- Rows 1, 2 and 4: the class and what was just found for it. -/
theorem Feed.setMono (h : Feed vm) (hs : vm.site caller icIdx = some s) {c : LookupCache}
    (hc : CacheOk (vm.withCache c)) {m : Addr} (e : Nat)
    (hm : s.isSuper = false → vm.lookupUncached k s.sel = some m) :
    Feed ((vm.withCache c).setSite caller icIdx (s.setMono k m e)) := by
  have hu := siteUpdate_setSite h.owned hs hc (s.setMono k m e) (fun hg => by cases hg)
  refine h.update hu (.of_mono (k := k) rfl fun hn m' ht => ?_)
  rw [lookupUncached_congr hu.dispatch]
  cases ht
  exact hm hn

theorem Feed.setEmpty (h : Feed vm) (hs : vm.site caller icIdx = some s) {c : LookupCache}
    (hc : CacheOk (vm.withCache c)) : Feed ((vm.withCache c).setSite caller icIdx s.setEmpty) :=
  h.update (siteUpdate_setSite h.owned hs hc s.setEmpty (fun hg => by cases hg))
    (.of_no_arms (Or.inl rfl))

variable {out : Outcome}

theorem Feed.transitionEmpty (h : Feed vm) (hs : vm.site caller icIdx = some s)
    (ho : transitionEmpty vm caller icIdx s k = some out) : Feed out.vm := by
  unfold Interpreter.transitionEmpty at ho
  rw [Option.bind_eq_bind, Option.bind_eq_some_iff] at ho
  obtain ⟨⟨r, vm₁⟩, hr, ho⟩ := ho
  obtain ⟨c, rfl, hc, hl⟩ := resolve_some h.cache hr
  cases r with
  | none =>
    cases ho
    exact h.withCache hc
  | some m =>
    cases ho
    exact h.setMono hs hc _ fun hn => (hl hn).symm

theorem Feed.transitionSelfHeal (h : Feed vm) (hs : vm.site caller icIdx = some s) {k0 : Addr}
    (ho : transitionSelfHeal vm caller icIdx s k0 = some out) : Feed out.vm := by
  unfold Interpreter.transitionSelfHeal at ho
  rw [Option.bind_eq_bind, Option.bind_eq_some_iff] at ho
  obtain ⟨⟨r, vm₁⟩, hr, ho⟩ := ho
  obtain ⟨c, rfl, hc, hl⟩ := resolve_some h.cache hr
  cases r with
  | none =>
    cases ho
    exact h.setEmpty hs hc
  | some m =>
    cases ho
    exact h.setMono hs hc _ fun hn => (hl hn).symm

/-- The arm row 5 copies is true: believed before, or just looked up. -/
theorem Feed.oldArm (h : Feed vm) (hs : vm.site caller icIdx = some s) {k0 m0 : Addr} {vm₁ : Vm}
    (hg : s.guard = .ref k0) (hk0 : (vm.klasses k0).isSome)
    (ho : oldArm vm caller s k0 = some (m0, vm₁)) :
    ∃ c, vm₁ = vm.withCache c ∧ CacheOk (vm.withCache c) ∧
      (s.isSuper = false → vm.lookupUncached k0 s.sel = some m0) := by
  unfold Interpreter.oldArm at ho
  split at ho
  · next m hm =>
    cases ho
    obtain ⟨ht, hmethod⟩ := asMethod_eq_some.mp hm
    exact ⟨vm.lookupCache, rfl, h.cache, fun hn =>
      (h.sites caller icIdx s hs).found hn k0 m0 ⟨hk0, hmethod, .mono hg ht⟩⟩
  · split at ho
    · next m vm₂ hr =>
      cases ho
      obtain ⟨c, rfl, hc, hl⟩ := resolve_some h.cache hr
      exact ⟨c, rfl, hc, fun hn => (hl hn).symm⟩
    · cases ho

/-- The two arms of a new pairs array. -/
theorem pairAt_twoPairs {k0 m0 k m : Addr} {i : Nat} (hi : i < icPolyMaxPairs) :
    (pairAt (twoPairs k0 m0 k m) (2 * i) = .ref k0 ∧ pairAt (twoPairs k0 m0 k m) (2 * i + 1) = .ref m0)
      ∨ (pairAt (twoPairs k0 m0 k m) (2 * i) = .ref k ∧
        pairAt (twoPairs k0 m0 k m) (2 * i + 1) = .ref m)
      ∨ pairAt (twoPairs k0 m0 k m) (2 * i) = .nil := by
  obtain rfl | rfl | rfl | rfl : i = 0 ∨ i = 1 ∨ i = 2 ∨ i = 3 := by
    simp only [icPolyMaxPairs] at hi
    omega
  · exact Or.inl ⟨rfl, rfl⟩
  · exact Or.inr (Or.inl ⟨rfl, rfl⟩)
  · exact Or.inr (Or.inr rfl)
  · exact Or.inr (Or.inr rfl)

theorem compact_twoPairs {k0 m0 k m : Addr} (hk0 : (vm.klasses k0).isSome) :
    Compact vm (twoPairs k0 m0 k m) := by
  intro i j hij hj hklass
  obtain rfl | rfl | rfl : j = 1 ∨ j = 2 ∨ j = 3 := by
    simp only [icPolyMaxPairs] at hj
    omega
  · obtain rfl : i = 0 := by omega
    exact hk0
  · cases hklass
  · cases hklass

/-- A poly site's array is not free. -/
theorem Feed.target_ne (h : Feed vm) {a : Addr} (hfresh : vm.arrays a = none) (c : Addr) (i : Nat)
    (t : SendSite) (htt : vm.site c i = some t) (hg : t.guard = .smi icGuardPoly) :
    t.target ≠ .ref a := by
  intro htgt
  obtain ⟨pairs, hp, -⟩ := (h.sites c i t htt).backed hg a htgt
  rw [hfresh] at hp
  cases hp

/-- Rows 5 and 6 behind the allocation. -/
theorem Feed.demoteMono (h : Feed vm) {m : Addr} {al : Alloc} (hfresh : vm.arrays al.addr = none)
    (hm : ∀ s, vm.site caller icIdx = some s → s.isSuper = false →
      vm.lookupUncached k s.sel = some m)
    (ho : demoteMono vm caller icIdx k m al = some out) : Feed out.vm := by
  unfold Interpreter.demoteMono at ho
  rw [Option.bind_eq_bind, Option.bind_eq_some_iff] at ho
  obtain ⟨s, hs, ho⟩ := ho
  split at ho
  · next k0 hg =>
    split at ho
    · next hk0 =>
      rw [Option.bind_eq_bind, Option.bind_eq_some_iff] at ho
      obtain ⟨⟨m0, vm₁⟩, hold, ho⟩ := ho
      obtain ⟨c, rfl, hc, hl0⟩ := h.oldArm hs hg hk0 hold
      cases ho
      have h₁ := h.withCache hc
      have hu := siteUpdate_newPairs (s.setPoly al.addr (vm.withCache c).icEpoch) h₁.cache hs
        (h₁.target_ne hfresh) rfl (twoPairs k0 m0 k m)
      refine h₁.update hu (.of_poly rfl rfl (Function.update_self ..) (compact_twoPairs hk0) ?_)
      intro hn i k' m' hi _ _ hkey hmethod
      refine (lookupUncached_congr hu.dispatch k' s.sel).trans ?_
      rcases pairAt_twoPairs hi with ⟨hk, hm'⟩ | ⟨hk, hm'⟩ | hk
      · rw [hk] at hkey
        rw [hm'] at hmethod
        cases hkey
        cases hmethod
        exact hl0 hn
      · rw [hk] at hkey
        rw [hm'] at hmethod
        cases hkey
        cases hmethod
        exact hm s hs hn
      · rw [hk] at hkey
        cases hkey
    · cases ho
  · cases ho

theorem Feed.transitionToPoly (h : Feed vm) (hs : vm.site caller icIdx = some s) {al : Alloc}
    (hal : al.Fresh vm) (ho : transitionToPoly vm caller icIdx s k al = some out) : Feed out.vm := by
  unfold Interpreter.transitionToPoly at ho
  rw [Option.bind_eq_bind, Option.bind_eq_some_iff] at ho
  obtain ⟨⟨r, vm₁⟩, hr, ho⟩ := ho
  obtain ⟨c, rfl, hc, hl⟩ := resolve_some h.cache hr
  cases r with
  | none =>
    cases ho
    exact h.withCache hc
  | some m =>
    obtain ⟨c', hcollect⟩ := al.collect_withCache vm c
    have hfeed : Feed (al.collect (vm.withCache c)) := (h.withCache hc).alloc al
    refine hfeed.demoteMono ?_ ?_ ho
    · rw [hcollect]
      exact hal.2.2
    · intro s' hs' hn
      rw [hcollect, Vm.site_withCache, al.site_collect, hs] at hs'
      cases hs'
      have hmoved := al.lookupFor_collect vm caller s.sel false k
      rw [hcollect]
      show (al.collect vm).lookupUncached (al.moved k) (al.moved s.sel) = some (al.moved m)
      rw [show (al.collect vm).lookupUncached (al.moved k) (al.moved s.sel) =
        (vm.lookupUncached k s.sel).map al.moved from hmoved, ← hl hn]
      rfl

/-! ### Poly sites -/

/-- The arity is the first unoccupied pair from `i` on, or the end. -/
theorem polyArityFrom_spec (vm : Vm) (pairs : List Word) (n i : Nat) :
    (∀ j, i ≤ j → j < polyArityFrom vm pairs n i → vm.isKlass (pairAt pairs (2 * j)) = true) ∧
      polyArityFrom vm pairs n i ≤ i + n ∧
      (polyArityFrom vm pairs n i < i + n →
        vm.isKlass (pairAt pairs (2 * polyArityFrom vm pairs n i)) = false) := by
  induction n generalizing i with
  | zero =>
    simp only [polyArityFrom]
    exact ⟨fun j hj hlt => absurd hlt (by omega), Nat.le_refl i, fun hlt => absurd hlt (by omega)⟩
  | succ n ih =>
    unfold polyArityFrom
    split
    · next hk =>
      obtain ⟨hall, hle, hfirst⟩ := ih (i + 1)
      refine ⟨fun j hj hlt => ?_, by omega, fun hlt => hfirst (by omega)⟩
      rcases Nat.eq_or_lt_of_le hj with rfl | hlt'
      · exact hk
      · exact hall j hlt' hlt
    · next hk =>
      refine ⟨fun j hj hlt => absurd hlt (by omega), by omega, fun _ => ?_⟩
      exact Bool.eq_false_iff.mpr hk

/-- Writing behind the pairs keeps them. -/
theorem pairAt_set_count {pairs : List Word} {i j : Nat} (w : Word) (hi : i < icPolyMaxPairs) :
    pairAt (pairs.set (2 * icPolyMaxPairs + j) w) (2 * i) = pairAt pairs (2 * i) ∧
      pairAt (pairs.set (2 * icPolyMaxPairs + j) w) (2 * i + 1) = pairAt pairs (2 * i + 1) :=
  ⟨pairAt_set_ne (by omega) w, pairAt_set_ne (by omega) w⟩

/-- A poly site whose array was rewritten with the same arms. -/
theorem FeedSite.same_pairs {a : Addr} {pairs pairs' : List Word} (h : FeedSite vm s)
    (hg : s.guard = .smi icGuardPoly) (ht : s.target = .ref a) (hp : vm.arrays a = some pairs)
    {vm' : Vm} (hd : SameDispatch vm vm') {s' : SendSite} (hg' : s'.guard = .smi icGuardPoly)
    (ht' : s'.target = .ref a) (hsel : s'.sel = s.sel) (hsuper : s'.isSuper = s.isSuper)
    (hp' : vm'.arrays a = some pairs')
    (hpairs : ∀ i < icPolyMaxPairs, pairAt pairs' (2 * i) = pairAt pairs (2 * i) ∧
      pairAt pairs' (2 * i + 1) = pairAt pairs (2 * i + 1)) : FeedSite vm' s' := by
  obtain ⟨pairs₀, hp₀, hc⟩ := h.backed hg a ht
  rw [hp] at hp₀
  cases hp₀
  refine .of_poly hg' ht' hp' ?_ ?_
  · intro i j hij hj
    rw [(hpairs j hj).1, (hpairs i (by omega)).1]
    exact hc.congr (klass_isSome_same hd) i j hij hj
  · intro hn i k m hi hk hm hkey hmethod
    rw [(hpairs i hi).1] at hkey
    rw [(hpairs i hi).2] at hmethod
    rw [lookupUncached_congr hd, hsel]
    exact h.found (by rw [← hsuper]; exact hn) k m
      ⟨by rw [← hd.klasses]; exact hk, by rw [← hd.isSome]; exact hm, .poly hg ht hp hi hkey hmethod⟩

/-- A write beyond the end of the array is lost. -/
theorem pairAt_set_eq (pairs : List Word) (i : Nat) (w : Word) :
    pairAt (pairs.set i w) i = w ∨ pairAt (pairs.set i w) i = .nil := by
  by_cases hi : i < pairs.length
  · exact Or.inl (pairAt_set_self hi w)
  · right
    simp only [pairAt, List.getD_eq_getElem?_getD]
    rw [List.getElem?_eq_none (by rw [List.length_set]; omega)]
    rfl

/-- The array row 9 writes: a new arm at pair `n`, with its first hit. -/
def appendPair (pairs : List Word) (n : Nat) (k m : Addr) : List Word :=
  ((pairs.set (2 * n) (.ref k)).set (2 * n + 1) (.ref m)).set (2 * icPolyMaxPairs + n) (.smi 1)

theorem pairAt_appendPair_ne {pairs : List Word} {n i : Nat} {k m : Addr} (hne : i ≠ n)
    (hi : i < icPolyMaxPairs) :
    pairAt (appendPair pairs n k m) (2 * i) = pairAt pairs (2 * i) ∧
      pairAt (appendPair pairs n k m) (2 * i + 1) = pairAt pairs (2 * i + 1) := by
  unfold appendPair
  rw [(pairAt_set_count _ hi).1, (pairAt_set_count _ hi).2]
  constructor
  · rw [pairAt_set_ne (by omega), pairAt_set_ne (by omega)]
  · rw [pairAt_set_ne (by omega), pairAt_set_ne (by omega)]

theorem pairAt_appendPair_self {pairs : List Word} {n : Nat} {k m k' m' : Addr}
    (hn : n < icPolyMaxPairs) (hkey : pairAt (appendPair pairs n k m) (2 * n) = .ref k')
    (hmethod : pairAt (appendPair pairs n k m) (2 * n + 1) = .ref m') : k' = k ∧ m' = m := by
  unfold appendPair at hkey hmethod
  rw [(pairAt_set_count _ hn).1, pairAt_set_ne (by omega)] at hkey
  rw [(pairAt_set_count _ hn).2] at hmethod
  constructor
  · rcases pairAt_set_eq pairs (2 * n) (.ref k) with h | h
    · rw [h] at hkey
      cases hkey
      rfl
    · rw [h] at hkey
      cases hkey
  · rcases pairAt_set_eq (pairs.set (2 * n) (.ref k)) (2 * n + 1) (.ref m) with h | h
    · rw [h] at hmethod
      cases hmethod
      rfl
    · rw [h] at hmethod
      cases hmethod

/-- Row 9: a new arm behind the others. -/
theorem FeedSite.append {a : Addr} {pairs : List Word} (h : FeedSite vm s)
    (hg : s.guard = .smi icGuardPoly) (ht : s.target = .ref a) (hp : vm.arrays a = some pairs)
    {m : Addr} (hm : s.isSuper = false → vm.lookupUncached k s.sel = some m)
    {vm' : Vm} (hd : SameDispatch vm vm') (e : Nat) (hlt : polyArity vm pairs < icPolyMaxPairs)
    (hp' : vm'.arrays a = some (appendPair pairs (polyArity vm pairs) k m)) :
    FeedSite vm' (s.setPoly a e) := by
  obtain ⟨pairs₀, hp₀, hc⟩ := h.backed hg a ht
  rw [hp] at hp₀
  cases hp₀
  obtain ⟨hall, -, hfirst⟩ := polyArityFrom_spec vm pairs icPolyMaxPairs 0
  have hempty : vm.isKlass (pairAt pairs (2 * polyArity vm pairs)) = false :=
    hfirst (by rw [Nat.zero_add]; exact hlt)
  refine .of_poly rfl rfl hp' ?_ ?_
  · intro i j hij hj hklass
    rw [isKlass_congr (klass_isSome_same hd)] at hklass ⊢
    by_cases hjn : j = polyArity vm pairs
    · rw [(pairAt_appendPair_ne (by omega) (by omega)).1]
      exact hall i (Nat.zero_le i) (by rw [hjn] at hij; exact hij)
    · rw [(pairAt_appendPair_ne hjn hj).1] at hklass
      -- an occupied pair behind the arity would make the arity occupied
      have hin : i ≠ polyArity vm pairs := by
        rintro rfl
        rw [hc _ j hij hj hklass] at hempty
        cases hempty
      rw [(pairAt_appendPair_ne hin (by omega)).1]
      exact hc i j hij hj hklass
  · intro hns i k' m' hi hk' hm' hkey hmethod
    refine (lookupUncached_congr hd k' s.sel).trans ?_
    by_cases hin : i = polyArity vm pairs
    · subst hin
      obtain ⟨rfl, rfl⟩ := pairAt_appendPair_self hi hkey hmethod
      exact hm hns
    · rw [(pairAt_appendPair_ne hin hi).1] at hkey
      rw [(pairAt_appendPair_ne hin hi).2] at hmethod
      exact h.found hns k' m'
        ⟨by rw [← hd.klasses]; exact hk', by rw [← hd.isSome]; exact hm', .poly hg ht hp hi hkey hmethod⟩

theorem pairAt_polyCountBump {pairs : List Word} (i : Nat) {j : Nat} (hj : j < icPolyMaxPairs) :
    pairAt (polyCountBump pairs i) (2 * j) = pairAt pairs (2 * j) ∧
      pairAt (polyCountBump pairs i) (2 * j + 1) = pairAt pairs (2 * j + 1) := by
  simp only [polyCountBump]
  split
  · exact pairAt_set_count _ hj
  · exact ⟨rfl, rfl⟩

theorem Feed.transitionProbe (h : Feed vm) (hs : vm.site caller icIdx = some s) {a : Addr}
    {pairs : List Word} (hg : s.guard = .smi icGuardPoly) (ht : s.target = .ref a)
    (hp : vm.arrays a = some pairs)
    (ho : transitionProbe vm caller icIdx s a pairs k = some out) : Feed out.vm := by
  have hsite := h.sites caller icIdx s hs
  have hsame := siteUpdate_withCache h.owned hs (c := vm.lookupCache) h.cache
  simp only [Interpreter.transitionProbe] at ho
  split at ho
  · next i hf =>
    cases ho
    have hu : SiteUpdate vm (vm.setArray a (polyCountBump pairs i)) caller icIdx s :=
      hsame.setArray h.owned hs hg ht (polyCountBump pairs i)
    refine h.update hu (hsite.same_pairs hg ht hp hu.dispatch hg ht rfl rfl
      (Function.update_self ..) fun j hj => pairAt_polyCountBump i hj)
  · rw [Option.bind_eq_bind, Option.bind_eq_some_iff] at ho
    obtain ⟨⟨r, vm₁⟩, hr, ho⟩ := ho
    obtain ⟨c, rfl, hc, hl⟩ := resolve_some h.cache hr
    cases r with
    | none =>
      cases ho
      exact h.withCache hc
    | some m =>
      simp only at ho
      split at ho
      · next hlt =>
        cases ho
        have hu := (siteUpdate_setSite h.owned hs hc (s.setPoly a vm.icEpoch)
          (fun _ => ⟨hg, ht.symm⟩)).setArray h.owned hs hg ht
          (appendPair pairs (polyArity vm pairs) k m)
        exact h.update hu (hsite.append hg ht hp (fun hn => (hl hn).symm) hu.dispatch _ hlt
          (Function.update_self ..))
      · cases ho
        exact h.update (siteUpdate_setSite h.owned hs hc s.setMega (fun hp => by
          exact absurd (Word.smi.inj hp) (by decide))) (.of_no_arms (Or.inr rfl))

/-- The arms row 8 keeps: classes of occupied pairs with what lookup finds for them now. -/
theorem reverifyArms_some {caller sel : Addr} {isSuper : Bool} {pairs : List Word} {n i : Nat}
    {vm₁ vm₂ : Vm} {kept : List KeptArm} {c : LookupCache} (hvm : vm₁ = vm.withCache c)
    (hc : CacheOk vm₁) (h : reverifyArms caller sel isSuper pairs n i vm₁ = some (kept, vm₂)) :
    (∃ c', vm₂ = vm.withCache c' ∧ CacheOk (vm.withCache c')) ∧
      ∀ arm ∈ kept, (∃ j, i ≤ j ∧ j < i + n ∧ pairAt pairs (2 * j) = .ref arm.1) ∧
        (isSuper = false → vm.lookupUncached arm.1 sel = some arm.2.1) := by
  induction n generalizing i vm₁ vm₂ kept c with
  | zero =>
    cases h
    exact ⟨⟨c, hvm, hvm ▸ hc⟩, fun arm harm => by cases harm⟩
  | succ n ih =>
    unfold reverifyArms at h
    split at h
    · next k hkey =>
      rw [Option.bind_eq_bind, Option.bind_eq_some_iff] at h
      obtain ⟨⟨r, vm₃⟩, hr, h⟩ := h
      simp only [Option.bind_eq_bind] at h
      rw [Option.bind_eq_some_iff] at h
      obtain ⟨⟨kept', vm₄⟩, hrest, h⟩ := h
      subst hvm
      obtain ⟨c', rfl, hc', hl⟩ := resolve_some hc hr
      obtain ⟨hcache, harms⟩ := @ih _ (vm.withCache c') _ _ c' rfl hc' hrest
      have hlater : ∀ arm ∈ kept', (∃ j, i ≤ j ∧ j < i + (n + 1) ∧ pairAt pairs (2 * j) = .ref arm.1) ∧
          (isSuper = false → vm.lookupUncached arm.1 sel = some arm.2.1) := by
        intro arm harm
        obtain ⟨⟨j, hij, hj, hkey'⟩, hfound⟩ := harms arm harm
        exact ⟨⟨j, by omega, by omega, hkey'⟩, hfound⟩
      cases r with
      | none =>
        cases h
        exact ⟨hcache, hlater⟩
      | some m =>
        cases h
        refine ⟨hcache, fun arm harm => ?_⟩
        rcases List.mem_cons.mp harm with rfl | harm
        · exact ⟨⟨i, Nat.le_refl i, by omega, hkey⟩, fun hn => (hl hn).symm⟩
        · exact hlater arm harm
    · cases h

/-- Row 8: the site with its arms looked up again. -/
theorem Feed.reverifyPoly (h : Feed vm) (hs : vm.site caller icIdx = some s) {a : Addr}
    {pairs : List Word} (hg : s.guard = .smi icGuardPoly) (ht : s.target = .ref a)
    {pairs' : List Word} {vm₁ : Vm}
    (ho : reverifyPoly vm caller s.sel s.isSuper a pairs = some (pairs', vm₁)) :
    Feed vm₁ ∧ vm₁.site caller icIdx = some s ∧ vm₁.arrays a = some pairs' ∧
      Feed (vm₁.setSite caller icIdx (s.setPoly a vm₁.icEpoch)) := by
  unfold Interpreter.reverifyPoly at ho
  rw [Option.bind_eq_bind, Option.bind_eq_some_iff] at ho
  obtain ⟨⟨kept, vm₂⟩, hkept, ho⟩ := ho
  obtain ⟨⟨c, rfl, hc⟩, harms⟩ := reverifyArms_some (c := vm.lookupCache) rfl h.cache hkept
  cases ho
  obtain ⟨hall, -, -⟩ := polyArityFrom_spec vm pairs icPolyMaxPairs 0
  have hcompact : Compact vm (rebuildPairs kept) := by
    intro i j hij hj hklass
    rw [(pairAt_rebuild kept hj).1, keptKey] at hklass
    rw [(pairAt_rebuild kept (by omega)).1, keptKey]
    split at hklass
    · next arm harm =>
      have hlt : i < kept.length := by
        have := (List.getElem?_eq_some_iff.mp harm).1
        omega
      rw [List.getElem?_eq_getElem hlt]
      obtain ⟨⟨l, hl, hln, hkey⟩, -⟩ := harms kept[i] (List.getElem_mem hlt)
      have := hall l hl (by simpa [polyArity] using hln)
      rw [hkey] at this
      exact this
    · cases hklass
  have hfound : s.isSuper = false → ∀ i k m, i < icPolyMaxPairs →
      pairAt (rebuildPairs kept) (2 * i) = .ref k → pairAt (rebuildPairs kept) (2 * i + 1) = .ref m →
        vm.lookupUncached k s.sel = some m := by
    intro hn i k m hi hkey hmethod
    rw [(pairAt_rebuild kept hi).1, keptKey] at hkey
    rw [(pairAt_rebuild kept hi).2, keptMethod] at hmethod
    cases harm : kept[i]? with
    | none =>
      rw [harm] at hkey
      cases hkey
    | some arm =>
      rw [harm] at hkey hmethod
      cases hkey
      cases hmethod
      exact (harms arm (List.mem_of_getElem? harm)).2 hn
  have hu₁ := (siteUpdate_withCache h.owned hs hc).setArray h.owned hs hg ht (rebuildPairs kept)
  have hfeed := h.update hu₁ (.of_poly hg ht (Function.update_self ..) hcompact
    (fun hn i k m hi _ _ => hfound hn i k m hi))
  refine ⟨hfeed, hu₁.self, Function.update_self .., ?_⟩
  have hu₂ := siteUpdate_setSite hfeed.owned hu₁.self (c := _) hfeed.cache
    (s.setPoly a vm.icEpoch) (fun _ => ⟨hg, ht.symm⟩)
  exact hfeed.update hu₂ (.of_poly rfl rfl (Function.update_self ..) hcompact
    (fun hn i k m hi _ _ => hfound hn i k m hi))

theorem Feed.transitionPoly (h : Feed vm) (hs : vm.site caller icIdx = some s) {a : Addr}
    {pairs : List Word} (hg : s.guard = .smi icGuardPoly) (ht : s.target = .ref a)
    (hp : vm.arrays a = some pairs)
    (ho : transitionPoly vm caller icIdx s a pairs k = some out) : Feed out.vm := by
  unfold Interpreter.transitionPoly at ho
  split at ho
  · rw [Option.bind_eq_bind, Option.bind_eq_some_iff] at ho
    obtain ⟨⟨pairs', vm₁⟩, hrev, ho⟩ := ho
    obtain ⟨h₁, hs₁, hp₁, h₂⟩ := h.reverifyPoly hs hg ht hrev
    simp only at ho
    split at ho
    · exact (h₁.setEmpty hs₁ (c := _) h₁.cache).transitionEmpty (site_setSite hs₁) ho
    · exact h₂.transitionProbe (site_setSite hs₁) rfl rfl hp₁ ho
  · exact h.transitionProbe hs hg ht hp ho

theorem Feed.icTransition (h : Feed vm) {al : Alloc} (hal : al.Fresh vm)
    (ho : icTransition vm caller icIdx k al = some out) : Feed out.vm := by
  unfold Interpreter.icTransition at ho
  rw [Option.bind_eq_bind, Option.bind_eq_some_iff] at ho
  obtain ⟨s, hs, ho⟩ := ho
  split at ho
  · exact h.transitionEmpty hs ho
  · split at ho
    · split at ho
      · exact h.transitionSelfHeal hs ho
      · exact h.transitionToPoly hs hal ho
    · cases ho
  · next v hg =>
    split at ho
    · next hv =>
      split at ho
      · next a ht =>
        rw [Option.bind_eq_bind, Option.bind_eq_some_iff] at ho
        obtain ⟨pairs, hp, ho⟩ := ho
        exact h.transitionPoly hs (by rw [hg, hv]) ht hp ho
      · cases ho
    · split at ho
      · rw [Option.bind_eq_bind, Option.bind_eq_some_iff] at ho
        obtain ⟨⟨r, vm₁⟩, hr, ho⟩ := ho
        obtain ⟨c, rfl, hc, -⟩ := resolve_some h.cache hr
        cases ho
        exact h.withCache hc
      · cases ho

end Rows

/-! ## Compiled code -/

section Compiled

variable {j j' : Jit} {k m id : Nat}

theorem compileMethodFull_vm (j : Jit) (k m : Addr) (isBlock : Bool) (version : Nat)
    (osrBci : Option Nat) (r : CompileResult) :
    (j.compileMethodFull k m isBlock version osrBci r).1.vm = j.vm := by
  cases r with
  | compiled b =>
    obtain ⟨inv, hinv⟩ := saturateInvocation_eq
      { j with ct := (Jit.publish j.ct (j.newNmethod k m isBlock version osrBci b)).1 } m
    simp only [Jit.compileMethodFull, hinv]
  | noPermanent => rfl
  | notNow => rfl
  | exhausted => rfl

theorem makeNotEntrantLazy_vm (h : j.makeNotEntrantLazy id = some j') : j'.vm = j.vm := by
  obtain ⟨ct, -, rfl⟩ := Option.map_eq_some_iff.mp h
  rfl

theorem reuseOrCompile_vm {heal fresh : CompileResult} {entered : Option Nat}
    (h : j.reuseOrCompile k m heal fresh = some (j', entered)) : j'.vm = j.vm := by
  unfold Jit.reuseOrCompile at h
  split at h
  · have hvm := compileMethodFull_vm j k m false 0 none fresh
    have h : j.compileMethodFull k m false 0 none fresh = (j', entered) := Option.some.inj h
    rwa [h] at hvm
  · next id nm _ =>
    split at h
    · have hvm := compileMethodFull_vm j k m false (nm.version + 1) none heal
      unfold Jit.compileMethodVersioned at h
      split at h
      · next j₁ newId hcomp =>
        obtain ⟨j₂, hlazy, heq⟩ := Option.map_eq_some_iff.mp h
        cases heq
        rw [hcomp] at hvm
        rw [makeNotEntrantLazy_vm hlazy, hvm]
      · next j₁ hcomp =>
        cases h
        rwa [hcomp] at hvm
    · cases h
      rfl

/-- Seeding leaves compiled code in the site, which is not believed. -/
theorem Feed.seedSite (h : Feed j.vm) (icSite : Option (Addr × Nat)) (k id : Nat) :
    Feed (j.seedSite icSite k id).vm := by
  unfold Jit.seedSite
  split
  · exact h
  · next caller icIdx =>
    split
    · exact h
    · next s hs =>
      split
      · have hu := siteUpdate_setSite h.owned hs (c := j.vm.lookupCache) h.cache
          ({ s with guard := .ref k, target := .smi id }.setMeta j.vm.icEpoch) (fun hg => by cases hg)
        exact h.update hu (.of_mono rfl fun _ m ht => by cases ht)
      · exact h

theorem Feed.activateMethod (h : Feed j.vm) {icSite : Option (Addr × Nat)}
    {heal fresh : CompileResult} {entered : Option Nat}
    (he : j.activateMethod k m icSite heal fresh = some (j', entered)) : Feed j'.vm := by
  unfold Jit.activateMethod at he
  simp only at he
  split at he
  · obtain ⟨⟨j₁, compiled⟩, hr, heq⟩ := Option.map_eq_some_iff.mp he
    have hvm : j₁.vm = (j.bumpInvocation m).2.vm := reuseOrCompile_vm hr
    have h₁ : Feed j₁.vm := by
      rw [hvm]
      exact h
    cases compiled with
    | none =>
      cases heq
      exact h₁
    | some id =>
      cases heq
      exact h₁.seedSite icSite k id
  · cases he
    exact h

theorem Feed.lookup (h : Feed j.vm) (k s : Addr) : Feed (j.lookup k s).2.vm := by
  obtain ⟨c, heq, hc⟩ := lookup_eq h.cache k s
  unfold Jit.lookup
  rw [heq]
  exact h.withCache hc

theorem Feed.rtOsrRequest (h : Feed j.vm) {bci : Nat} {r : CompileResult} :
    Feed (j.rtOsrRequest k m bci r).1.vm := by
  unfold Jit.rtOsrRequest
  replace h : Feed (j.setCounters m { j.counters m with loopCount := 0 }).vm := h
  generalize j.setCounters m { j.counters m with loopCount := 0 } = j at h
  have hl := h.lookup k (j.selector m)
  simp only
  split
  · exact h
  · generalize j.lookup k (j.selector m) = p at hl
    obtain ⟨found, j₁⟩ := p
    simp only
    split
    · exact hl
    · split
      · split
        · exact hl
        · exact hl
      · rw [Jit.compileMethodOsr, compileMethodFull_vm]
        exact hl

theorem Feed.interpretCallHatch (h : Feed j.vm) {heal fresh : CompileResult} {entered : Option Nat}
    (he : j.interpretCallHatch k m heal fresh = some (j', entered)) : Feed j'.vm := by
  unfold Jit.interpretCallHatch at he
  split at he
  · cases he
    exact h
  · have hb : Feed (j.bumpInvocation m).2.vm := h
    simp only at he
    split at he
    · have hl := hb.lookup k ((j.bumpInvocation m).2.selector m)
      generalize (j.bumpInvocation m).2.lookup k ((j.bumpInvocation m).2.selector m) = p at he hl
      obtain ⟨found, j₁⟩ := p
      simp only at he hl
      split at he
      · cases he
        exact hl
      · rw [reuseOrCompile_vm he]
        exact hl
    · cases he
      exact hb

theorem replaceNmethod_vm {p : Jit × Option Nat} (he : Jit.replaceNmethod id p = some j') :
    j'.vm = p.1.vm := by
  obtain ⟨j₁, compiled⟩ := p
  cases compiled with
  | some newId => exact makeNotEntrantLazy_vm he
  | none =>
    obtain ⟨nm, -, rfl⟩ := Option.map_eq_some_iff.mp he
    rfl

theorem Feed.noteUncommonTrap (h : Feed j.vm) {due changed : Bool} {r : CompileResult}
    (he : j.noteUncommonTrap id due changed r = some j') : Feed j'.vm := by
  unfold Jit.noteUncommonTrap at he
  split at he
  · cases he
    exact h
  · next id' nm _ =>
    split at he
    · cases he
      exact h
    · split at he
      · split at he
        · rw [replaceNmethod_vm he, compileMethodFull_vm]
          exact h
        · cases he
          exact h
      · have hl := h.lookup nm.keyKlass nm.keySelector
        split at he
        · next j₁ hlk =>
          cases he
          rw [hlk] at hl
          exact hl
        · next m j₁ hlk =>
          rw [hlk] at hl
          split at he
          · rw [replaceNmethod_vm he, Jit.compileMethodVersioned, compileMethodFull_vm]
            exact hl
          · cases he
            exact hl

theorem Feed.sendSlow (h : Feed j.vm) {caller : Addr} {icIdx : Nat} {al : Alloc}
    (hal : al.Fresh j.vm) {heal fresh : CompileResult}
    (he : j.sendSlow caller icIdx k al heal fresh = some j') : Feed j'.vm := by
  unfold Jit.sendSlow at he
  rw [Option.bind_eq_bind, Option.bind_eq_some_iff] at he
  obtain ⟨⟨j₁, out⟩, htrans, he⟩ := he
  obtain ⟨out', hout, heq⟩ := Option.map_eq_some_iff.mp htrans
  cases heq
  have h₁ : Feed out.vm := h.icTransition hal hout
  simp only at he
  split at he
  · obtain ⟨⟨j₂, entered⟩, hact, rfl⟩ := Option.map_eq_some_iff.mp he
    exact Feed.activateMethod (by exact h₁) hact
  · cases he
    exact h₁

theorem Feed.sendGeneric (h : Feed j.vm) {caller : Addr} {icIdx : Nat} {al : Alloc}
    (hal : al.Fresh j.vm) {heal fresh : CompileResult} {bailout : Bool}
    (he : j.sendGeneric caller icIdx k al heal fresh bailout = some j') : Feed j'.vm := by
  unfold Jit.sendGeneric at he
  rw [Option.bind_eq_bind, Option.bind_eq_some_iff] at he
  obtain ⟨s, hs, he⟩ := he
  split at he
  · split at he
    · split at he
      · split at he
        · have hl := h.lookup k s.sel
          generalize j.lookup k s.sel = p at he hl
          obtain ⟨found, j₁⟩ := p
          simp only [Option.bind_eq_bind] at he
          rw [Option.bind_eq_some_iff] at he
          obtain ⟨m, -, he⟩ := he
          obtain ⟨⟨j₂, entered⟩, hact, rfl⟩ := Option.map_eq_some_iff.mp he
          exact hl.activateMethod hact
        · cases he
          exact h
      · exact h.sendSlow hal he
    · rw [Option.bind_eq_bind, Option.bind_eq_some_iff] at he
      obtain ⟨m, -, he⟩ := he
      obtain ⟨⟨j₂, entered⟩, hact, rfl⟩ := Option.map_eq_some_iff.mp he
      exact h.activateMethod hact
  · exact h.sendSlow hal he

end Compiled

/-! ## Installs -/

/-- The walk from `k` gets to `holder`: it is on the chain, and no class in front of it defines
the selector. -/
def walkReaches (klasses : Addr → Option Klass) : Nat → Addr → Addr → Addr → Bool
  | 0, _, _, _ => false
  | fuel + 1, k, sel, holder =>
    if k = holder then true
    else
      match klasses k with
      | none => false
      | some klass =>
        match klass.methods sel with
        | some _ => false
        | none =>
          match klass.superclass with
          | .ref s => walkReaches klasses fuel s sel holder
          | _ => false

/-- Installing `m` shadows a believed arm: some normal site of the selector caches another method
for a class whose walk gets to `holder`. -/
def Shadows (vm : Vm) (holder sel m : Addr) : Prop :=
  ∃ c i s k m₀, vm.site c i = some s ∧ s.isSuper = false ∧ s.sel = sel ∧ HoldsArm vm s k m₀ ∧
    m₀ ≠ m ∧ walkReaches vm.klasses vm.depth k sel holder = true

section Install

variable {vm vm' : Vm} {ρ : Equiv.Perm Addr} {holder sel m : Addr}

/-- After an install the walk finds the new method wherever it gets to the holder. -/
theorem walk_install {klasses : Addr → Option Klass} {klass : Klass}
    (hk : klasses holder = some klass) (fuel : Nat) (k : Addr) :
    Vm.walk (Function.update klasses holder
        (some { klass with methods := Function.update klass.methods sel (some m) })) fuel k sel =
      if walkReaches klasses fuel k sel holder then some m else Vm.walk klasses fuel k sel := by
  induction fuel generalizing k with
  | zero => rfl
  | succ fuel ih =>
    unfold Vm.walk walkReaches
    by_cases hkh : k = holder
    · subst hkh
      simp only [Function.update_self, if_true]
    · simp only [Function.update_of_ne hkh, if_neg hkh]
      cases klasses k with
      | none => rfl
      | some kl =>
        cases hm : kl.methods sel with
        | some m' =>
          simp only [hm]
          rfl
        | none =>
          cases hsc : kl.superclass with
          | ref sc =>
            simp only [hm, hsc]
            exact ih sc
          | nil =>
            simp only [hm, hsc]
            rfl
          | smi v =>
            simp only [hm, hsc]
            rfl

theorem walkReaches_collect (klasses : Addr → Option Klass) (ρ : Equiv.Perm Addr) (fuel : Nat)
    (k sel holder : Addr) :
    walkReaches (fun a => (klasses (ρ.symm a)).map (Klass.move ρ)) fuel (ρ k) (ρ sel) (ρ holder) =
      walkReaches klasses fuel k sel holder := by
  induction fuel generalizing k with
  | zero => rfl
  | succ fuel ih =>
    simp only [walkReaches, EmbeddingLike.apply_eq_iff_eq, Equiv.symm_apply_apply]
    split
    · rfl
    · cases klasses k with
      | none => rfl
      | some klass =>
        simp only [Option.map_some, Klass.move, Equiv.symm_apply_apply]
        cases klass.methods sel with
        | some m' => rfl
        | none =>
          cases klass.superclass with
          | ref sc => exact ih sc
          | nil => rfl
          | smi v => rfl

/-- What an install does, seen from the sites: the words stay, and a lookup changes where the walk
gets to the holder. -/
structure Installed (vm vm' : Vm) (holder sel m : Addr) : Prop where
  klasses : ∀ a, (vm'.klasses a).isSome = (vm.klasses a).isSome
  methods : ∀ a, (vm'.methods a).isSome = (vm.methods a).isSome
  arrays : vm'.arrays = vm.arrays
  sites : ∀ c i, vm'.site c i = vm.site c i
  cache : vm'.lookupCache = LookupCache.flush
  found : ∀ k, vm'.lookupUncached k sel =
    if walkReaches vm.klasses vm.depth k sel holder then some m else vm.lookupUncached k sel
  other : ∀ k s, s ≠ sel → vm'.lookupUncached k s = vm.lookupUncached k s

theorem installed_of_installMethod (hi : vm.installMethod ρ holder sel m = some vm') :
    Installed (vm.collect ρ) vm' (ρ holder) (ρ sel) (ρ m) := by
  obtain ⟨hat, hdepth⟩ := installedAt_installMethod hi
  simp only [Vm.installMethod] at hi
  generalize vm.collect ρ = v at hi hat
  split at hi
  · next klass mm hk hmm =>
    cases hi
    have hholder : HolderOnly v.methods (patchBlockHolders (.ref (ρ holder)) v.depth
        (setHolder v.methods (ρ m) (.ref (ρ holder))) (ρ m)) := by
      intro a
      rw [holderOnly_patchBlockHolders, holderOnly_setHolder]
    refine ⟨?_, hholder.isSome, rfl, fun c i => HolderOnly.site hholder c i, rfl, ?_, ?_⟩
    · intro a
      by_cases ha : a = ρ holder
      · subst ha
        simp only [Function.update_self, hk, Option.isSome_some]
      · simp only [Function.update_of_ne ha]
    · exact fun k => walk_install hk v.depth k
    · exact fun k s hs => hat.walk_eq v.depth k s (Or.inl hs)
  · cases hi

/-- An install that shadows nothing keeps the believed arms true. -/
theorem Feed.installed (h : Feed vm) (hi : Installed vm vm' holder sel m)
    (hns : ¬ Shadows vm holder sel m) : Feed vm' := by
  refine ⟨CacheOk.flush hi.cache, ?_, fun c i s hs => ?_⟩
  · intro c i s c' i' s' a hs hs'
    rw [hi.sites] at hs hs'
    exact h.owned c i s c' i' s' a hs hs'
  rw [hi.sites] at hs
  have hsite := h.sites c i s hs
  constructor
  · intro hg a ht
    obtain ⟨pairs, hp, hc⟩ := hsite.backed hg a ht
    exact ⟨pairs, by rw [hi.arrays, hp], hc.congr hi.klasses⟩
  · intro hn k m₀ ha
    have ha₀ : HoldsArm vm s k m₀ := ha.congr hi.klasses hi.methods fun a _ _ => by rw [hi.arrays]
    have hfound := hsite.found hn k m₀ ha₀
    by_cases hsel : s.sel = sel
    · rw [hsel] at hfound ⊢
      rw [hi.found]
      split
      · next hr =>
        by_contra hne
        exact hns ⟨c, i, s, k, m₀, hs, hn, hsel, ha₀, fun he => hne (by rw [he]), hr⟩
      · exact hfound
    · rw [hi.other k _ hsel]
      exact hfound

/-- One that shadows an arm leaves a false answer. -/
theorem Feed.not_true_of_shadows (h : Feed vm) (hi : Installed vm vm' holder sel m)
    (hsh : Shadows vm holder sel m) (w : WellKnown) : ¬ FeedbackTrue vm' w := by
  obtain ⟨c, i, s, k, m₀, hs, hn, hsel, ha, hne, hr⟩ := hsh
  intro htrue
  have hs' : vm'.site c i = some s := by rw [hi.sites, hs]
  have hlookup : vm'.lookupUncached k s.sel = some m := by
    rw [hsel, hi.found, if_pos hr]
  have ha' : HoldsArm vm' s k m₀ := by
    refine ha.congr (fun a => (hi.klasses a).symm) (fun a => (hi.methods a).symm) fun a _ _ => ?_
    rw [hi.arrays]
  have hbacked : Backed vm' s := by
    intro hg a ht
    obtain ⟨pairs, hp, hc⟩ := (h.sites c i s hs).backed hg a ht
    exact ⟨pairs, by rw [hi.arrays, hp], hc.congr hi.klasses⟩
  rcases hbacked.arm_answered hs' ha' with hr' | ⟨cases, hr', x, hx, rfl, rfl⟩
  · have hfalse := htrue.mono c i s k m₀ hs' hn hr'
    rw [hlookup] at hfalse
    exact hne (Option.some.inj hfalse).symm
  · have hfalse := htrue.poly c i s cases hs' hn hr' x hx
    rw [hlookup] at hfalse
    exact hne (Option.some.inj hfalse).symm

theorem Shadows.collect (h : Shadows vm holder sel m) (ρ : Equiv.Perm Addr) :
    Shadows (vm.collect ρ) (ρ holder) (ρ sel) (ρ m) := by
  obtain ⟨c, i, s, k, m₀, hs, hn, hsel, ha, hne, hr⟩ := h
  refine ⟨ρ c, i, s.move ρ, ρ k, ρ m₀, by rw [site_collect, hs]; rfl, hn, ?_, ha.collect ρ, ?_, ?_⟩
  · rw [← hsel]
    rfl
  · exact fun he => hne (ρ.injective he)
  · exact (walkReaches_collect vm.klasses ρ vm.depth k sel holder).trans hr

theorem Shadows.of_collect (h : Shadows (vm.collect ρ) (ρ holder) (ρ sel) (ρ m)) :
    Shadows vm holder sel m := by
  obtain ⟨c, i, s, k, m₀, hs, hn, hsel, ha, hne, hr⟩ := h
  obtain ⟨s₀, hs₀, rfl⟩ := site_of_collect hs
  refine ⟨_, i, s₀, _, _, hs₀, hn, ρ.injective hsel, ha.of_collect, ?_, ?_⟩
  · exact fun he => hne (by rw [← he, ρ.apply_symm_apply])
  · have hmoved := walkReaches_collect vm.klasses ρ vm.depth (ρ.symm k) sel holder
    rw [ρ.apply_symm_apply] at hmoved
    exact hmoved.symm.trans hr

/-- An install keeps every answer true exactly if it shadows no believed arm. -/
theorem Feed.install_iff {j j' : Jit} (h : Feed j.vm) {gc : Option (Equiv.Perm Addr)}
    {holder sel m : Addr} (hi : j.install gc holder sel m = some j') (w : WellKnown) :
    (¬ Shadows j.vm holder sel m → Feed j'.vm) ∧
      (FeedbackTrue j'.vm w ↔ ¬ Shadows j.vm holder sel m) := by
  unfold Jit.install at hi
  obtain ⟨⟨vm', ct'⟩, hinst, rfl⟩ := Option.map_eq_some_iff.mp hi
  unfold Codecache.installMethod at hinst
  rw [Option.bind_eq_bind, Option.bind_eq_some_iff] at hinst
  obtain ⟨vm₁, hvm, hrest⟩ := hinst
  rw [Option.bind_eq_bind, Option.bind_eq_some_iff] at hrest
  obtain ⟨ct₁, -, heq⟩ := hrest
  cases heq
  have hspec := installed_of_installMethod hvm
  have hfeed := h.collect (gc.getD (Equiv.refl Addr))
  have hkeep : ¬ Shadows j.vm holder sel m → Feed vm' := fun hns =>
    hfeed.installed hspec fun hsh => hns hsh.of_collect
  refine ⟨hkeep, ⟨fun htrue hsh => ?_, fun hns => (hkeep hns).answers w⟩⟩
  exact hfeed.not_true_of_shadows hspec (hsh.collect _) w htrue

end Install

/-! ## Runs -/

/-- The operations of compiled code, with the interpreter's sends. -/
inductive FeedOp where
  | jit (op : Op)
  | send (caller : Addr) (icIdx : Nat) (k : Addr) (al : Alloc) (heal fresh : CompileResult)
      (bailout : Bool)

def FeedOp.exec (j : Jit) : FeedOp → Option Jit
  | .jit op => j.exec op
  | .send caller icIdx k al heal fresh bailout =>
    j.sendGeneric caller icIdx k al heal fresh bailout

/-- A send allocates at a free address. -/
def FeedOp.Fresh (j : Jit) : FeedOp → Prop
  | .jit _ => True
  | .send _ _ _ al _ _ _ => al.Fresh j.vm

/-- An install shadows no believed arm. -/
def FeedOp.Unshadowed (j : Jit) : FeedOp → Prop
  | .jit (.install _ holder sel m) => ¬ Shadows j.vm holder sel m
  | _ => True

/-- Runs from a VM whose sites are empty; `ok` restricts the operations. -/
inductive FeedReaches (ok : Jit → FeedOp → Prop) : Jit → Prop
  | start {j : Jit} (h : Start j.vm) : FeedReaches ok j
  | step {j j' : Jit} (op : FeedOp) (h : FeedReaches ok j) (hfresh : op.Fresh j) (hok : ok j op)
      (hexec : op.exec j = some j') : FeedReaches ok j'

theorem Feed.start {vm : Vm} (h : Start vm) : Feed vm := by
  refine ⟨CacheOk.flush h.cache, h.inv.owned, fun c i s hs => .of_no_arms (Or.inl (h.sites c i s hs))⟩

/-- Every operation keeps the believed arms true, an install if it shadows none. -/
theorem Feed.exec {j j' : Jit} (h : Feed j.vm) {op : FeedOp} (hfresh : op.Fresh j)
    (hok : op.Unshadowed j) (he : op.exec j = some j') : Feed j'.vm := by
  cases op with
  | send caller icIdx k al heal fresh bailout => exact h.sendGeneric hfresh he
  | jit op =>
    have he : j.exec op = some j' := he
    unfold Jit.exec at he
    cases op with
    | activate k m icSite heal fresh =>
      obtain ⟨⟨j₁, entered⟩, hact, rfl⟩ := Option.map_eq_some_iff.mp he
      exact h.activateMethod hact
    | osrRequest k m bci r =>
      cases he
      exact h.rtOsrRequest
    | interpretCall k m heal fresh =>
      obtain ⟨⟨j₁, entered⟩, hint, rfl⟩ := Option.map_eq_some_iff.mp he
      exact h.interpretCallHatch hint
    | uncommonTrap id due changed r => exact h.noteUncommonTrap he
    | lookup k s =>
      cases he
      exact h.lookup k s
    | install gc holder sel m => exact (h.install_iff he ⟨0, 0, fun _ => 0⟩).1 hok
    | collect ρ =>
      cases he
      exact h.collect ρ
    | flush id =>
      obtain ⟨⟨ct, nm⟩, -, rfl⟩ := Option.map_eq_some_iff.mp he
      exact h
    | setCompileEnabled on =>
      cases he
      exact h

theorem FeedReaches.feed {j : Jit} (h : FeedReaches FeedOp.Unshadowed j) : Feed j.vm := by
  induction h with
  | start h => exact .start h
  | step op _ hfresh hok hexec ih => exact ih.exec hfresh hok hexec

/-- In every run whose installs shadow no believed arm, whatever the reader and the fusing gates
answer at a normal site is what lookup finds at that moment; and the first install that shadows
one makes an answer false at once. -/
theorem feedback_is_true {j : Jit} (h : FeedReaches FeedOp.Unshadowed j) (w : WellKnown) :
    FeedbackTrue j.vm w ∧
      ∀ gc holder sel m j', j.install gc holder sel m = some j' →
        (FeedbackTrue j'.vm w ↔ ¬ Shadows j.vm holder sel m) :=
  ⟨h.feed.answers w, fun _ _ _ _ _ hi => (h.feed.install_iff hi w).2⟩

/-! ## Concrete runs -/

namespace Demo

/-- The classes and methods of the inline-cache runs, without compiled code. -/
def jit : Jit :=
  { vm := Interpreter.Demo.vm, ct := CodeTable.empty, selector := fun _ => 30,
    counters := fun _ => ⟨0, 0, false, false⟩, threshold := none,
    compileEnabled := true }

/-- Method 1 sends selector 30 to a receiver of class 10. -/
def sendOp : FeedOp := .send 1 0 10 Interpreter.Demo.al .notNow .notNow false

def sent : Jit := (sendOp.exec jit).getD jit

/-- Then class 10 gets another method for it. -/
def installOp : FeedOp := .jit (.install none 10 30 22)

def redefined : Jit := (installOp.exec sent).getD sent

/-- Small integers are of class 10. -/
def known : WellKnown := { smiKlass := 10, arrayKlass := 11, primitive := fun _ => 0 }

theorem reaches_sent (ok : Jit → FeedOp → Prop) (hok : ok jit sendOp) : FeedReaches ok sent :=
  .step sendOp (.start Interpreter.Demo.vm_start) ⟨rfl, rfl, rfl⟩ hok rfl

end Demo

/-- After the first send the site answers with the method that lookup finds. -/
theorem feedback_is_true_sent :
    FeedReaches FeedOp.Unshadowed Demo.sent ∧
      readSendSite Demo.sent.vm 1 0 = some (.mono 10 20) ∧ FeedbackTrue Demo.sent.vm Demo.known :=
  ⟨Demo.reaches_sent _ trivial, rfl, (feedback_is_true (Demo.reaches_sent _ trivial) Demo.known).1⟩

/-- A redefinition between the send and the reading: the site answers, and the small-integer gate
fuses, the replaced method. -/
theorem feedback_is_stale :
    FeedReaches (fun _ _ => True) Demo.redefined ∧
      readSendSite Demo.redefined.vm 1 0 = some (.mono 10 20) ∧
      (Demo.redefined.vm.site 1 0).bind (smiSpecialTarget Demo.redefined.vm Demo.known) = some 20 ∧
      Demo.redefined.vm.lookupUncached 10 30 = some 22 :=
  ⟨.step Demo.installOp (Demo.reaches_sent _ trivial) trivial trivial rfl, rfl, rfl, rfl⟩

end WinVm.Compiler
