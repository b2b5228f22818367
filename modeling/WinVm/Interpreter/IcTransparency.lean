import WinVm.Interpreter.IcInvariant

/-!
# Inline-cache transparency

The method a send activates is the one the uncached lookup finds at that moment. Each row
of the transition table restores the invariant, except rows 5/6 on a stale mono site: they
copy the old arm and stamp it current (`Launders`).

Results:

* `ic_transparent`: over every run in which no send launders a stale arm;
* `sends_not_transparent`: without that condition a send may activate a replaced method, and
  a send that ends in `doesNotUnderstand` may restamp a site.
-/

namespace WinVm.Interpreter

/-! ## What a send does -/

/-- What `doesNotUnderstand` may do to a site's words: nothing, or, under a stale stamp,
restamp a poly site, or empty a super site none of whose arms resolves any more. -/
def DnuWords (vm : Vm) (s s' : SendSite) : Prop :=
  s' = s ∨ (s.epoch ≠ vm.icEpoch ∧
    ((s.guard = .smi icGuardPoly ∧ s' = s.setMeta vm.icEpoch) ∨
      (s.isSuper = true ∧ s' = s.setEmpty)))

/-- The effect of a send of class `k` at a site with words `s`. -/
structure SendOk (vm : Vm) (caller : Addr) (icIdx : Nat) (s : SendSite) (k : Addr)
    (out : Outcome) : Prop where
  inv : Inv out.vm
  method : out.method = (lookupFor vm caller s.sel s.isSuper k).map out.moved
  epoch : out.vm.icEpoch = vm.icEpoch
  others : ∀ c i, (c, i) ≠ (caller, icIdx) →
    out.vm.site (out.moved c) i = (vm.site c i).map (SendSite.move out.moved)
  self : ∃ s', out.vm.site (out.moved caller) icIdx = some s' ∧
    (s.guard = .smi icGuardMega → s' = s.move out.moved) ∧
    (out.method = none → out.moved = Equiv.refl Addr ∧ DnuWords vm s s')

theorem Word.move_refl (w : Word) : w.move (Equiv.refl Addr) = w := by
  cases w <;> rfl

theorem SendSite.move_refl (s : SendSite) : s.move (Equiv.refl Addr) = s := by
  simp only [SendSite.move, Word.move_refl, Equiv.refl_apply]

theorem map_move_refl (o : Option SendSite) :
    o.map (SendSite.move (Equiv.refl Addr)) = o := by
  cases o with
  | none => rfl
  | some s => rw [Option.map_some, SendSite.move_refl]

/-- A send that moved nothing and updated its own site. -/
theorem SendOk.of_update {vm vm' : Vm} {caller : Addr} {icIdx : Nat} {s s' : SendSite} {k : Addr}
    {method : Option Addr} (h : Inv vm) (hu : SiteUpdate vm vm' caller icIdx s')
    (hok : SiteOk vm' caller s')
    (hmethod : method = lookupFor vm caller s.sel s.isSuper k)
    (hmega : s.guard = .smi icGuardMega → s' = s)
    (hdnu : method = none → DnuWords vm s s') :
    SendOk vm caller icIdx s k (.stay vm' method) := by
  refine ⟨h.update hu hok, ?_, hu.epoch, ?_, s', hu.self, ?_, fun hn => ⟨rfl, hdnu hn⟩⟩
  · rw [hmethod]
    simp [Outcome.stay]
  · intro c i hne
    show vm'.site c i = (vm.site c i).map (SendSite.move (Equiv.refl Addr))
    rw [map_move_refl, hu.others c i hne]
  · intro hg
    show s' = s.move (Equiv.refl Addr)
    rw [SendSite.move_refl, hmega hg]

theorem lookupUncached_isMethod {vm : Vm} (h : DictsOk vm) {k sel m : Addr}
    (hl : vm.lookupUncached k sel = some m) : (vm.methods m).isSome := by
  unfold Vm.lookupUncached at hl
  generalize vm.depth = fuel at hl
  induction fuel generalizing k with
  | zero => cases hl
  | succ fuel ih =>
    simp only [Vm.walk] at hl
    cases hk : vm.klasses k with
    | none => simp only [hk] at hl; cases hl
    | some klass =>
      simp only [hk] at hl
      cases hm : klass.methods sel with
      | some m' =>
        simp only [hm] at hl
        cases hl
        exact h k klass sel m hk hm
      | none =>
        simp only [hm] at hl
        cases hsc : klass.superclass with
        | ref sc =>
          simp only [hsc] at hl
          exact ih hl
        | nil => simp only [hsc] at hl; cases hl
        | smi v => simp only [hsc] at hl; cases hl

theorem lookupFor_isMethod {vm : Vm} (h : DictsOk vm) {caller sel k m : Addr} {isSuper : Bool}
    (hl : lookupFor vm caller sel isSuper k = some m) : (vm.methods m).isSome := by
  cases isSuper with
  | false => exact lookupUncached_isMethod h hl
  | true =>
    simp only [lookupFor, if_true] at hl
    split at hl
    · split at hl
      · split at hl
        · exact lookupUncached_isMethod h hl
        · cases hl
      · cases hl
    · cases hl

/-- The lookup of a super site does not depend on the receiver class. -/
theorem lookupFor_super (vm : Vm) (caller sel k k' : Addr) :
    lookupFor vm caller sel true k = lookupFor vm caller sel true k' := rfl

theorem SendSite.epoch_setMeta (s : SendSite) {e : Nat} (he : e < 2 ^ 24) :
    (s.setMeta e).epoch = e := by
  have hargc : s.argc < 2 ^ 8 := Nat.mod_lt _ (by decide)
  simp only [SendSite.epoch, SendSite.setMeta]
  omega

/-! ## The rows of the table -/

section Rows

variable {vm : Vm} {caller k : Addr} {icIdx : Nat} {s : SendSite}

/-- A site that caches what was just looked up. -/
theorem SiteOk.setMono {vm' : Vm} {m : Addr} (hd : SameDispatch vm vm') (he : vm'.icEpoch = vm.icEpoch)
    (hlt : vm.icEpoch < 2 ^ 24) (hdicts : DictsOk vm) (hk : (vm.klasses k).isSome)
    (hm : lookupFor vm caller s.sel s.isSuper k = some m) :
    SiteOk vm' caller (s.setMono k m vm'.icEpoch) := by
  have hlookup : lookupFor vm' caller s.sel s.isSuper k = some m := by rw [hd.lookupFor, hm]
  refine .mono rfl rfl (by rwa [hd.klasses]) ?_ ?_ (fun _ => hlookup) ?_
  · rw [hd.isSome]
    exact lookupFor_isMethod hdicts hm
  · exact Nat.le_of_eq (SendSite.epoch_setMeta _ (he ▸ hlt))
  · intro _
    show (lookupFor vm' caller s.sel s.isSuper k).isSome
    rw [hlookup]
    rfl

/-- A poly site all of whose arms are what lookup finds, whatever its stamp. -/
theorem SiteOk.current {vm' : Vm} {s' : SendSite} {a : Addr} {pairs : List Word}
    {arms : List (Addr × Addr)} (hd : SameDispatch vm vm') (hsel : s'.sel = s.sel)
    (hsuper : s'.isSuper = s.isSuper) (hg : s'.guard = .smi icGuardPoly) (ht : s'.target = .ref a)
    (hp : vm'.arrays a = some pairs) (ha : Arms vm pairs arms) (htwo : 2 ≤ arms.length)
    (hle : s'.epoch ≤ vm'.icEpoch)
    (hcur : ∀ arm ∈ arms, lookupFor vm caller s.sel s.isSuper arm.1 = some arm.2) :
    SiteOk vm' caller s' := by
  have hcur' : ∀ arm ∈ arms, lookupFor vm' caller s'.sel s'.isSuper arm.1 = some arm.2 := by
    intro arm harm
    rw [hd.lookupFor, hsel, hsuper]
    exact hcur arm harm
  exact .poly hg ht hp (ha.same hd) htwo hle (fun _ => hcur')
    (fun _ arm harm => Option.isSome_of_eq_some (hcur' arm harm))

theorem transitionEmpty_ok (h : Inv vm) (hs : vm.site caller icIdx = some s)
    (hg : s.guard = .nil) (hk : (vm.klasses k).isSome) (hh : HolderOk vm caller s.isSuper) :
    ∃ out, transitionEmpty vm caller icIdx s k = some out ∧ SendOk vm caller icIdx s k out := by
  obtain ⟨c, hr, hc⟩ := resolve_eq s.sel k h.cache hh
  have hmega : s.guard = .smi icGuardMega → False := by
    rw [hg]
    exact fun he => by cases he
  cases hl : lookupFor vm caller s.sel s.isSuper k with
  | none =>
    refine ⟨.stay (vm.withCache c) none, by simp [transitionEmpty, hr, hl], ?_⟩
    exact .of_update h (siteUpdate_withCache h.owned hs hc) (.empty hg) hl.symm
      (fun he => absurd he (fun e => hmega e)) (fun _ => Or.inl rfl)
  | some m =>
    have hu := siteUpdate_setSite h.owned hs hc (s.setMono k m vm.icEpoch) (by
      intro he
      cases he)
    refine ⟨.stay _ (some m), by simp only [transitionEmpty, hr, hl]; rfl, ?_⟩
    exact .of_update h hu (.setMono hu.dispatch rfl h.epoch h.dicts hk hl) hl.symm
      (fun he => absurd he (fun e => hmega e)) (fun he => by cases he)

theorem transitionSelfHeal_ok (h : Inv vm) (hs : vm.site caller icIdx = some s)
    (hg : s.guard = .ref k) (hk : (vm.klasses k).isSome) (hh : HolderOk vm caller s.isSuper)
    (hstale : s.epoch ≠ vm.icEpoch)
    (hfound : s.isSuper = false → (lookupFor vm caller s.sel s.isSuper k).isSome) :
    ∃ out, transitionSelfHeal vm caller icIdx s k = some out ∧
      SendOk vm caller icIdx s k out := by
  obtain ⟨c, hr, hc⟩ := resolve_eq s.sel k h.cache hh
  have hmega : s.guard ≠ .smi icGuardMega := by
    rw [hg]
    exact fun he => by cases he
  cases hl : lookupFor vm caller s.sel s.isSuper k with
  | none =>
    have hu := siteUpdate_setSite h.owned hs hc s.setEmpty (by
      intro he
      cases he)
    refine ⟨.stay _ none, by simp only [transitionSelfHeal, hr, hl]; rfl, ?_⟩
    refine .of_update h hu (.empty rfl) hl.symm (fun he => absurd he hmega) (fun _ => ?_)
    have hsuper : s.isSuper = true := by
      cases hsup : s.isSuper with
      | true => rfl
      | false =>
        have := hfound hsup
        rw [hl] at this
        cases this
    exact Or.inr ⟨hstale, Or.inr ⟨hsuper, rfl⟩⟩
  | some m =>
    have hu := siteUpdate_setSite h.owned hs hc (s.setMono k m vm.icEpoch) (by
      intro he
      cases he)
    refine ⟨.stay _ (some m), by simp only [transitionSelfHeal, hr, hl]; rfl, ?_⟩
    exact .of_update h hu (.setMono hu.dispatch rfl h.epoch h.dicts hk hl) hl.symm
      (fun he => absurd he hmega) (fun he => by cases he)

/-- The send finds a class other than the cached one, the stamp is stale, and the cached
method is no longer what lookup finds for the cached class. -/
def Launders (vm : Vm) (caller : Addr) (s : SendSite) (k : Addr) : Prop :=
  ∃ k0 m0, s.guard = .ref k0 ∧ s.target = .ref m0 ∧ k0 ≠ k ∧ s.epoch ≠ vm.icEpoch ∧
    (lookupFor vm caller s.sel s.isSuper k).isSome ∧
    lookupFor vm caller s.sel s.isSuper k0 ≠ some m0

theorem Alloc.moved_collect {al : Alloc} (h : Inv vm) : Inv (al.collect vm) := by
  unfold Alloc.collect
  cases al.gc with
  | none => exact h
  | some ρ => exact h.collect ρ

theorem Alloc.site_collect (al : Alloc) (vm : Vm) (c : Addr) (i : Nat) :
    (al.collect vm).site (al.moved c) i = (vm.site c i).map (SendSite.move al.moved) := by
  unfold Alloc.collect Alloc.moved
  cases al.gc with
  | none => exact (map_move_refl _).symm
  | some ρ => exact Interpreter.site_collect vm ρ c i

theorem Alloc.lookupFor_collect (al : Alloc) (vm : Vm) (caller sel : Addr) (isSuper : Bool)
    (k : Addr) :
    lookupFor (al.collect vm) (al.moved caller) (al.moved sel) isSuper (al.moved k) =
      (lookupFor vm caller sel isSuper k).map al.moved := by
  unfold Alloc.collect Alloc.moved
  cases al.gc with
  | none => simp
  | some ρ => exact Interpreter.lookupFor_collect vm ρ caller sel isSuper k

theorem Alloc.isSome_collect (al : Alloc) (vm : Vm) (a : Addr) :
    ((al.collect vm).klasses (al.moved a)).isSome = (vm.klasses a).isSome ∧
      ((al.collect vm).methods (al.moved a)).isSome = (vm.methods a).isSome := by
  unfold Alloc.collect Alloc.moved
  cases al.gc with
  | none => exact ⟨rfl, rfl⟩
  | some ρ => exact ⟨klass_collect_isSome vm ρ a, method_collect_isSome vm ρ a⟩

theorem Alloc.epoch_collect (al : Alloc) (vm : Vm) : (al.collect vm).icEpoch = vm.icEpoch := by
  unfold Alloc.collect
  cases al.gc <;> rfl

/-- A collection does not depend on the cache it flushes. -/
theorem Alloc.collect_withCache (al : Alloc) (vm : Vm) (c : LookupCache) :
    ∃ c', al.collect (vm.withCache c) = (al.collect vm).withCache c' := by
  unfold Alloc.collect
  cases al.gc with
  | none => exact ⟨c, rfl⟩
  | some ρ => exact ⟨LookupCache.flush, rfl⟩

/-- The pairs array of rows 5/6 holds two arms. -/
theorem arms_two {k0 m0 k m : Addr} (hk0 : (vm.klasses k0).isSome) (hm0 : (vm.methods m0).isSome)
    (hk : (vm.klasses k).isSome) (hm : (vm.methods m).isSome) (hne : k0 ≠ k) :
    Arms vm (twoPairs k0 m0 k m) [(k0, m0), (k, m)] := by
  constructor
  · rfl
  · exact Nat.le_of_ble_eq_true rfl
  · intro i arm hi
    rcases i with _ | _ | i
    · cases hi; rfl
    · cases hi; rfl
    · cases hi
  · intro i arm hi
    rcases i with _ | _ | i
    · cases hi; rfl
    · cases hi; rfl
    · cases hi
  · intro i hle hlt
    obtain rfl | rfl : i = 2 ∨ i = 3 := by
      simp only [List.length_cons, List.length_nil, icPolyMaxPairs] at hle hlt
      omega
    · rfl
    · rfl
  · intro arm harm
    simp only [List.mem_cons, List.not_mem_nil, or_false] at harm
    rcases harm with rfl | rfl
    · exact ⟨hk0, hm0⟩
    · exact ⟨hk, hm⟩
  · simp [hne]

/-- A site that turned poly over an array no poly site has. -/
theorem siteUpdate_newPairs (s' : SendSite) (hcache : CacheOk vm)
    (hs : vm.site caller icIdx = some s) {a : Addr}
    (hnew : ∀ c i t, vm.site c i = some t → t.guard = .smi icGuardPoly → t.target ≠ .ref a)
    (ht : s'.target = .ref a) (pairs : List Word) :
    SiteUpdate vm ((vm.setArray a pairs).setSite caller icIdx s') caller icIdx s' :=
  { dispatch := ⟨rfl, rfl, setSite_holder (vm.setArray a pairs) caller icIdx s'⟩
    epoch := rfl
    cache := hcache
    others := fun _ _ hne => site_setSite_ne hne
    self := site_setSite hs
    arrays := fun c i t b hne htt hg htgt => by
      have hab : b ≠ a := fun he => hnew c i t htt hg (by rw [htgt, he])
      refine ⟨?_, fun _ htgt' => ?_⟩
      · show Function.update vm.arrays a (some pairs) b = vm.arrays b
        rw [Function.update_of_ne hab]
      · rw [ht] at htgt'
        exact hab (Word.ref.inj htgt').symm }

/-- A poly site's array is not free. -/
theorem Inv.target_ne (h : Inv vm) {a : Addr} (hfresh : vm.arrays a = none) (c : Addr) (i : Nat)
    (t : SendSite) (htt : vm.site c i = some t) (hg : t.guard = .smi icGuardPoly) :
    t.target ≠ .ref a := by
  intro htgt
  cases h.sites c i t htt with
  | empty hg' => rw [hg'] at hg; cases hg
  | mega hg' => rw [hg'] at hg; cases hg
  | mono hg' => rw [hg'] at hg; cases hg
  | poly _ ht' hp =>
    rw [ht'] at htgt
    cases htgt
    rw [hfresh] at hp
    cases hp

/-- Row 5 in the moved heap: both arms are what lookup finds, so the fresh stamp is true. -/
theorem demoteMono_ok (h : Inv vm) (hs : vm.site caller icIdx = some s) {k0 m0 m : Addr}
    (hg : s.guard = .ref k0) (ht : s.target = .ref m0) (hk0 : (vm.klasses k0).isSome)
    (hm0 : (vm.methods m0).isSome) (hne : k0 ≠ k) (hk : (vm.klasses k).isSome)
    (hl : lookupFor vm caller s.sel s.isSuper k = some m)
    (hl0 : lookupFor vm caller s.sel s.isSuper k0 = some m0) {al : Alloc}
    (hfresh : vm.arrays al.addr = none) :
    ∃ vm' s', demoteMono vm caller icIdx k m al = some ⟨vm', al.moved, some m⟩ ∧ Inv vm' ∧
      SiteUpdate vm vm' caller icIdx s' := by
  have hold : oldArm vm caller s k0 = some (m0, vm) := by
    simp only [oldArm, ht, Vm.asMethod, hm0, if_true]
  have harms := arms_two hk0 hm0 hk (lookupFor_isMethod h.dicts hl) hne
  have hu := siteUpdate_newPairs (s.setPoly al.addr vm.icEpoch) h.cache hs (h.target_ne hfresh) rfl
    (twoPairs k0 m0 k m)
  have hfound : ∀ arm ∈ [(k0, m0), (k, m)],
      lookupFor vm caller s.sel s.isSuper arm.1 = some arm.2 := by
    intro arm harm
    simp only [List.mem_cons, List.not_mem_nil, or_false] at harm
    rcases harm with rfl | rfl
    · exact hl0
    · exact hl
  refine ⟨_, _, ?_, h.update hu ?_, hu⟩
  · simp only [demoteMono, hs, hg, hk0, hold, if_true, Option.bind_eq_bind, Option.bind_some,
      Option.pure_def]
    rfl
  · exact .current hu.dispatch rfl rfl rfl rfl (Function.update_self ..) harms (Nat.le_refl 2)
      (Nat.le_of_eq (SendSite.epoch_setMeta _ h.epoch)) hfound

theorem transitionToPoly_ok (h : Inv vm) (hs : vm.site caller icIdx = some s) {k0 m0 : Addr}
    (hg : s.guard = .ref k0) (ht : s.target = .ref m0) (hk0 : (vm.klasses k0).isSome)
    (hm0 : (vm.methods m0).isSome) (hne : k0 ≠ k) (hk : (vm.klasses k).isSome)
    (hh : HolderOk vm caller s.isSuper)
    (hcur : (lookupFor vm caller s.sel s.isSuper k).isSome →
      lookupFor vm caller s.sel s.isSuper k0 = some m0) {al : Alloc} (hal : al.Fresh vm) :
    ∃ out, transitionToPoly vm caller icIdx s k al = some out ∧ SendOk vm caller icIdx s k out := by
  obtain ⟨c, hr, hc⟩ := resolve_eq s.sel k h.cache hh
  have hmega : s.guard ≠ .smi icGuardMega := by
    rw [hg]
    exact fun he => by cases he
  have hupd := siteUpdate_withCache h.owned hs hc
  have hsok : SiteOk (vm.withCache c) caller s :=
    (h.sites caller icIdx s hs).same hupd.dispatch rfl (fun _ _ _ => rfl)
  cases hl : lookupFor vm caller s.sel s.isSuper k with
  | none =>
    refine ⟨.stay (vm.withCache c) none, by simp [transitionToPoly, hr, hl], ?_⟩
    exact .of_update h hupd hsok hl.symm (fun _ => rfl) (fun _ => Or.inl rfl)
  | some m =>
    have hl0 := hcur (by rw [hl]; rfl)
    have hinv : Inv (al.collect (vm.withCache c)) := Alloc.moved_collect (h.update hupd hsok)
    have hsites : ∀ d i, (al.collect (vm.withCache c)).site (al.moved d) i =
        (vm.site d i).map (SendSite.move al.moved) := al.site_collect (vm.withCache c)
    have hlk : ∀ a, lookupFor (al.collect (vm.withCache c)) (al.moved caller) (al.moved s.sel)
        s.isSuper (al.moved a) = (lookupFor vm caller s.sel s.isSuper a).map al.moved :=
      fun a => al.lookupFor_collect (vm.withCache c) caller s.sel s.isSuper a
    have hlive := al.isSome_collect (vm.withCache c)
    have hfresh : (al.collect (vm.withCache c)).arrays al.addr = none := by
      obtain ⟨c', hv⟩ := al.collect_withCache vm c
      rw [hv]
      exact hal.2.2
    have hsite : (al.collect (vm.withCache c)).site (al.moved caller) icIdx =
        some (s.move al.moved) := by
      rw [hsites, hs]
      rfl
    have hgm : (s.move al.moved).guard = .ref (al.moved k0) := by
      simp only [SendSite.move, hg, Word.move]
    have htm : (s.move al.moved).target = .ref (al.moved m0) := by
      simp only [SendSite.move, ht, Word.move]
    have hlm := hlk k
    have hlm0 := hlk k0
    rw [hl] at hlm
    rw [hl0] at hlm0
    obtain ⟨vm', s', hrun, hinv', hu⟩ := demoteMono_ok hinv hsite hgm htm
      (by rw [(hlive k0).1]; exact hk0) (by rw [(hlive m0).2]; exact hm0)
      (fun he => hne (al.moved.injective he)) (by rw [(hlive k).1]; exact hk) hlm hlm0 hfresh
    refine ⟨_, by simp only [transitionToPoly, hr, hl]; exact hrun, hinv', by rw [hl]; rfl,
      hu.epoch.trans (al.epoch_collect _), ?_, s', hu.self, fun he => absurd he hmega,
      fun he => by cases he⟩
    intro d i hd
    have hmoved : (al.moved d, i) ≠ (al.moved caller, icIdx) := by
      intro he
      obtain ⟨h1, h2⟩ := Prod.mk.inj he
      exact hd (by rw [al.moved.injective h1, h2])
    exact (hu.others _ i hmoved).trans (hsites d i)

/-! ### Poly sites -/

theorem polyArity_eq {pairs : List Word} {arms : List (Addr × Addr)} (h : Arms vm pairs arms) :
    polyArity vm pairs = arms.length := by
  suffices hfrom : ∀ n i, i + n = icPolyMaxPairs → i ≤ arms.length →
      polyArityFrom vm pairs n i = arms.length from hfrom _ 0 (Nat.zero_add _) (Nat.zero_le _)
  intro n
  induction n with
  | zero =>
    intro i hn hi
    have := h.le
    simp only [polyArityFrom]
    omega
  | succ n ih =>
    intro i hn hi
    rcases Nat.lt_or_eq_of_le hi with hlt | heq
    · have harm : arms[i]? = some arms[i] := List.getElem?_eq_getElem hlt
      have hklass : vm.isKlass (pairAt pairs (2 * i)) = true := by
        rw [h.key i _ harm]
        exact (h.live _ (List.getElem_mem hlt)).1
      simp only [polyArityFrom, hklass, if_true]
      exact ih (i + 1) (by omega) hlt
    · have hnil : vm.isKlass (pairAt pairs (2 * i)) = false := by
        rw [h.rest i (by omega) (by omega)]
        rfl
      rw [polyArityFrom, hnil, if_neg Bool.false_ne_true, heq]

/-- The arm found is the arm of that class; none is found when no arm has it. -/
theorem findArm_spec {pairs : List Word} {arms : List (Addr × Addr)} (h : Arms vm pairs arms) :
    ∀ n i, i + n = arms.length →
      (∀ j, findArm pairs k n i = some j → ∃ m, arms[j]? = some (k, m)) ∧
      (findArm pairs k n i = none → ∀ j m, i ≤ j → arms[j]? ≠ some (k, m)) := by
  intro n
  induction n with
  | zero =>
    intro i hi
    refine ⟨fun j hj => (by cases hj), fun _ j m hij hj => ?_⟩
    have := (List.getElem?_eq_some_iff.mp hj).1
    omega
  | succ n ih =>
    intro i hi
    have hlt : i < arms.length := by omega
    have harm : arms[i]? = some arms[i] := List.getElem?_eq_getElem hlt
    have hkey := h.key i _ harm
    obtain ⟨hfound, hnone⟩ := ih (i + 1) (by omega)
    by_cases he : arms[i].1 = k
    · refine ⟨fun j hj => ?_, fun hn => ?_⟩
      · simp only [findArm, hkey, he, if_true] at hj
        cases hj
        exact ⟨arms[i].2, by rw [harm, ← he]⟩
      · simp only [findArm, hkey, he, if_true] at hn
        cases hn
    · have hne : ¬ (Word.ref arms[i].1 = Word.ref k) := fun hw => he (Word.ref.inj hw)
      refine ⟨fun j hj => ?_, fun hn j m hij hj => ?_⟩
      · simp only [findArm, hkey, hne, if_false] at hj
        exact hfound j hj
      · simp only [findArm, hkey, hne, if_false] at hn
        rcases Nat.lt_or_eq_of_le hij with hlt' | heq
        · exact hnone hn j m hlt' hj
        · subst heq
          rw [harm] at hj
          exact he (by rw [Option.some.inj hj])

theorem pairAt_set_ne {pairs : List Word} {i j : Nat} (h : i ≠ j) (w : Word) :
    pairAt (pairs.set i w) j = pairAt pairs j := by
  simp only [pairAt, List.getD_eq_getElem?_getD, List.getElem?_set_ne h]

theorem pairAt_set_self {pairs : List Word} {i : Nat} (h : i < pairs.length) (w : Word) :
    pairAt (pairs.set i w) i = w := by
  simp [pairAt, List.getElem?_set_self h]

/-- Counts sit behind the arms. -/
theorem Arms.set_count {pairs : List Word} {arms : List (Addr × Addr)} (h : Arms vm pairs arms)
    (i : Nat) (w : Word) : Arms vm (pairs.set (2 * icPolyMaxPairs + i) w) arms := by
  have hle := h.le
  refine ⟨by rw [List.length_set, h.length], h.le, ?_, ?_, ?_, h.live, h.nodup⟩
  · intro j arm hj
    have := (List.getElem?_eq_some_iff.mp hj).1
    rw [pairAt_set_ne (by omega)]
    exact h.key j arm hj
  · intro j arm hj
    have := (List.getElem?_eq_some_iff.mp hj).1
    rw [pairAt_set_ne (by omega)]
    exact h.method j arm hj
  · intro j hj hlt
    rw [pairAt_set_ne (by omega)]
    exact h.rest j hj hlt

/-- Row 9: the pair written behind the last arm. -/
theorem Arms.append {pairs : List Word} {arms : List (Addr × Addr)} (h : Arms vm pairs arms)
    (hlt : arms.length < icPolyMaxPairs) {m : Addr} (hk : (vm.klasses k).isSome)
    (hm : (vm.methods m).isSome) (hnew : ∀ arm ∈ arms, arm.1 ≠ k) :
    Arms vm ((pairs.set (2 * arms.length) (.ref k)).set (2 * arms.length + 1) (.ref m))
      (arms ++ [(k, m)]) := by
  have hlen := h.length
  have hmax : 2 * icPolyMaxPairs < icPolyArrayLen := by decide
  constructor
  · rw [List.length_set, List.length_set, hlen]
  · rw [List.length_append]
    exact hlt
  · intro i arm hi
    rw [pairAt_set_ne (by omega)]
    rcases Nat.lt_trichotomy i arms.length with hil | hie | hig
    · rw [List.getElem?_append_left hil] at hi
      rw [pairAt_set_ne (by omega)]
      exact h.key i arm hi
    · subst hie
      rw [pairAt_set_self (by omega)]
      obtain rfl : (k, m) = arm := by simpa using hi
      rfl
    · rw [List.getElem?_eq_none (by simp; omega)] at hi
      cases hi
  · intro i arm hi
    rcases Nat.lt_trichotomy i arms.length with hil | hie | hig
    · rw [List.getElem?_append_left hil] at hi
      rw [pairAt_set_ne (by omega), pairAt_set_ne (by omega)]
      exact h.method i arm hi
    · subst hie
      rw [pairAt_set_self (by rw [List.length_set]; omega)]
      obtain rfl : (k, m) = arm := by simpa using hi
      rfl
    · rw [List.getElem?_eq_none (by simp; omega)] at hi
      cases hi
  · intro i hi hlt'
    simp only [List.length_append, List.length_singleton] at hi
    rw [pairAt_set_ne (by omega), pairAt_set_ne (by omega)]
    exact h.rest i (by omega) hlt'
  · intro arm harm
    rcases List.mem_append.mp harm with hold | hnew'
    · exact h.live arm hold
    · obtain rfl : arm = (k, m) := by simpa using hnew'
      exact ⟨hk, hm⟩
  · rw [List.map_append]
    refine List.Nodup.append h.nodup (List.nodup_singleton _) ?_
    intro a ha ha'
    obtain ⟨arm, harm, rfl⟩ := List.mem_map.mp ha
    exact hnew arm harm (by simpa using ha')

theorem Arms.polyCountBump {pairs : List Word} {arms : List (Addr × Addr)}
    (h : Arms vm pairs arms) (i : Nat) : Arms vm (polyCountBump pairs i) arms := by
  simp only [Interpreter.polyCountBump]
  split
  · exact h.set_count i _
  · exact h

/-- Rows 7, 9, 10, 11 on a poly site whose arms are what lookup finds. -/
theorem transitionProbe_ok (h : Inv vm) (hs : vm.site caller icIdx = some s) {a : Addr}
    {pairs : List Word} {arms : List (Addr × Addr)} (hg : s.guard = .smi icGuardPoly)
    (ht : s.target = .ref a) (ha : Arms vm pairs arms)
    (htwo : 2 ≤ arms.length) (hepoch : s.epoch = vm.icEpoch)
    (hcur : ∀ arm ∈ arms, lookupFor vm caller s.sel s.isSuper arm.1 = some arm.2)
    (hk : (vm.klasses k).isSome) (hh : HolderOk vm caller s.isSuper) :
    ∃ out, transitionProbe vm caller icIdx s a pairs k = some out ∧
      SendOk vm caller icIdx s k out := by
  have harity := polyArity_eq ha
  obtain ⟨hhit, hmiss⟩ := findArm_spec (k := k) ha arms.length 0 (Nat.zero_add _)
  have hmega : s.guard ≠ .smi icGuardMega := by
    rw [hg]
    exact fun he => absurd (Word.smi.inj he) (by decide)
  have hsame := siteUpdate_withCache h.owned hs (c := vm.lookupCache) h.cache
  cases hf : findArm pairs k arms.length 0 with
  | some i =>
    obtain ⟨m, harm⟩ := hhit i hf
    have hmem : (k, m) ∈ arms := List.mem_of_getElem? harm
    have hm := (ha.live _ hmem).2
    have hmethod : vm.asMethod (pairAt pairs (2 * i + 1)) = some m := by
      rw [ha.method i _ harm]
      simp only [Vm.asMethod, hm, if_true]
    have hu : SiteUpdate vm (vm.setArray a (polyCountBump pairs i)) caller icIdx s :=
      hsame.setArray h.owned hs hg ht (polyCountBump pairs i)
    refine ⟨.stay _ (some m), by simp only [transitionProbe, harity, hf, hmethod]; rfl, ?_⟩
    refine .of_update h hu ?_ (hcur _ hmem).symm (fun he => absurd he hmega) (fun he => by cases he)
    exact .current hu.dispatch rfl rfl hg ht (Function.update_self ..) (ha.polyCountBump i) htwo
      (Nat.le_of_eq hepoch) hcur
  | none =>
    have hnew : ∀ arm ∈ arms, arm.1 ≠ k := by
      intro arm harm he
      obtain ⟨j, hj⟩ := List.getElem?_of_mem harm
      exact hmiss hf j arm.2 (Nat.zero_le j) (by rw [hj, ← he])
    obtain ⟨c, hr, hc⟩ := resolve_eq s.sel k h.cache hh
    cases hl : lookupFor vm caller s.sel s.isSuper k with
    | none =>
      have hu := siteUpdate_withCache h.owned hs hc
      refine ⟨.stay (vm.withCache c) none, by simp [transitionProbe, harity, hf, hr, hl], ?_⟩
      exact .of_update h hu ((h.sites caller icIdx s hs).same hu.dispatch rfl (fun _ _ _ => rfl))
        hl.symm (fun he => absurd he hmega) (fun _ => Or.inl rfl)
    | some m =>
      have hm := lookupFor_isMethod h.dicts hl
      by_cases hlt : arms.length < icPolyMaxPairs
      · have hu := (siteUpdate_setSite h.owned hs hc (s.setPoly a vm.icEpoch)
          (fun _ => ⟨hg, ht.symm⟩)).setArray h.owned hs hg ht
          (((pairs.set (2 * arms.length) (.ref k)).set (2 * arms.length + 1) (.ref m)).set
            (2 * icPolyMaxPairs + arms.length) (.smi 1))
        refine ⟨.stay _ (some m), by
          simp only [transitionProbe, harity, hf, hr, hl, hlt, if_true]; rfl, ?_⟩
        refine .of_update h hu ?_ hl.symm (fun he => absurd he hmega) (fun he => by cases he)
        have harms := (ha.append hlt hk hm hnew).set_count arms.length (.smi 1)
        have hcur' : ∀ arm ∈ arms ++ [(k, m)],
            lookupFor vm caller s.sel s.isSuper arm.1 = some arm.2 := by
          intro arm harm
          rcases List.mem_append.mp harm with hold | hnew'
          · exact hcur arm hold
          · obtain rfl : arm = (k, m) := by simpa using hnew'
            exact hl
        exact .current hu.dispatch rfl rfl rfl rfl (Function.update_self ..) harms
          (by rw [List.length_append]; omega)
          (Nat.le_of_eq (SendSite.epoch_setMeta _ h.epoch)) hcur'
      · have hu := siteUpdate_setSite h.owned hs hc s.setMega (by
          intro he
          exact absurd (Word.smi.inj he) (by decide))
        refine ⟨.stay _ (some m), by
          simp only [transitionProbe, harity, hf, hr, hl, hlt, if_false]; rfl, ?_⟩
        exact .of_update h hu (.mega rfl) hl.symm (fun he => absurd he hmega)
          (fun he => by cases he)

/-- What the re-resolution of an arm keeps of it. -/
def reresolve (vm : Vm) (caller : Addr) (s : SendSite) (arm : Addr × Addr) :
    Option (Addr × Addr) :=
  (lookupFor vm caller s.sel s.isSuper arm.1).map fun m => (arm.1, m)

theorem lookupFor_withCache (vm : Vm) (c : LookupCache) (caller sel : Addr) (isSuper : Bool)
    (k : Addr) : lookupFor (vm.withCache c) caller sel isSuper k = lookupFor vm caller sel isSuper k :=
  rfl

/-- The loop of `reverify_poly`: the arms from `i` on, each re-resolved. The induction is on
the arms left; the cache is the only state that changes. -/
theorem reverifyArms_eq {pairs : List Word} {arms : List (Addr × Addr)} (ha : Arms vm pairs arms)
    (hh : HolderOk vm caller s.isSuper) :
    ∀ n i c, i + n = arms.length → CacheOk (vm.withCache c) →
      ∃ kept c', reverifyArms caller s.sel s.isSuper pairs n i (vm.withCache c) =
          some (kept, vm.withCache c') ∧ CacheOk (vm.withCache c') ∧
        kept.map (fun arm => (arm.1, arm.2.1)) =
          (arms.drop i).filterMap (reresolve vm caller s) := by
  intro n
  induction n with
  | zero =>
    intro i c hi hc
    refine ⟨[], c, rfl, hc, ?_⟩
    rw [List.drop_eq_nil_of_le (by omega)]
    rfl
  | succ n ih =>
    intro i c hi hc
    have hlt : i < arms.length := by omega
    have harm : arms[i]? = some arms[i] := List.getElem?_eq_getElem hlt
    obtain ⟨c1, hr, hc1⟩ := resolve_eq s.sel arms[i].1 hc
      ((sameDispatch_withCache vm c).holderOk hh)
    rw [lookupFor_withCache] at hr
    obtain ⟨kept, c2, hrest, hc2, hkept⟩ := ih (i + 1) c1 (by omega) hc1
    rw [List.drop_eq_getElem_cons hlt]
    have hr' : resolve (vm.withCache c) caller s.sel s.isSuper arms[i].1 = some
        (lookupFor vm caller s.sel s.isSuper arms[i].1, vm.withCache c1) := hr
    cases hl : lookupFor vm caller s.sel s.isSuper arms[i].1 with
    | none =>
      rw [hl] at hr'
      refine ⟨kept, c2, ?_, hc2, ?_⟩
      · simp only [reverifyArms, ha.key i _ harm, hr', hrest, Option.bind_eq_bind,
          Option.bind_some, Option.pure_def]
      · rw [List.filterMap_cons_none (by simp only [reresolve, hl, Option.map_none]), hkept]
    | some m =>
      rw [hl] at hr'
      refine ⟨(arms[i].1, m, polyCountAt pairs i) :: kept, c2, ?_, hc2, ?_⟩
      · simp only [reverifyArms, ha.key i _ harm, hr', hrest, Option.bind_eq_bind,
          Option.bind_some, Option.pure_def]
      · rw [List.filterMap_cons_some (by simp only [reresolve, hl, Option.map_some]; rfl),
          List.map_cons, hkept]

theorem pairAt_rebuild (kept : List KeptArm) {i : Nat} (hi : i < icPolyMaxPairs) :
    pairAt (rebuildPairs kept) (2 * i) = keptKey kept i ∧
      pairAt (rebuildPairs kept) (2 * i + 1) = keptMethod kept i := by
  obtain rfl | rfl | rfl | rfl : i = 0 ∨ i = 1 ∨ i = 2 ∨ i = 3 := by
    simp only [icPolyMaxPairs] at hi
    omega
  all_goals exact ⟨rfl, rfl⟩

/-- The rebuilt array holds the kept arms. -/
theorem arms_rebuild {kept : List KeptArm} (hle : kept.length ≤ icPolyMaxPairs)
    (hlive : ∀ arm ∈ kept, (vm.klasses arm.1).isSome ∧ (vm.methods arm.2.1).isSome)
    (hnodup : (kept.map fun arm => arm.1).Nodup) :
    Arms vm (rebuildPairs kept) (kept.map fun arm => (arm.1, arm.2.1)) := by
  constructor
  · rfl
  · rw [List.length_map]
    exact hle
  · intro i arm hi
    rw [List.getElem?_map, Option.map_eq_some_iff] at hi
    obtain ⟨arm0, hi0, rfl⟩ := hi
    have := (List.getElem?_eq_some_iff.mp hi0).1
    rw [(pairAt_rebuild kept (by omega)).1, keptKey, hi0]
  · intro i arm hi
    rw [List.getElem?_map, Option.map_eq_some_iff] at hi
    obtain ⟨arm0, hi0, rfl⟩ := hi
    have := (List.getElem?_eq_some_iff.mp hi0).1
    rw [(pairAt_rebuild kept (by omega)).2, keptMethod, hi0]
  · intro i hi hlt
    rw [List.length_map] at hi
    rw [(pairAt_rebuild kept hlt).1, keptKey, List.getElem?_eq_none hi]
  · intro arm harm
    obtain ⟨arm0, harm0, rfl⟩ := List.mem_map.mp harm
    exact hlive arm0 harm0
  · rw [List.map_map]
    exact hnodup

theorem reresolve_length_of_isSome {arms : List (Addr × Addr)}
    (h : ∀ arm ∈ arms, (lookupFor vm caller s.sel s.isSuper arm.1).isSome) :
    (arms.filterMap (reresolve vm caller s)).length = arms.length := by
  induction arms with
  | nil => rfl
  | cons arm arms ih =>
    obtain ⟨m, hm⟩ := Option.isSome_iff_exists.mp (h arm List.mem_cons_self)
    rw [List.filterMap_cons_some (by simp only [reresolve, hm, Option.map_some]; rfl),
      List.length_cons, ih (fun x hx => h x (List.mem_cons_of_mem _ hx)), List.length_cons]

/-- The kept classes are among the arms' classes, in order. -/
theorem reresolve_keys (arms : List (Addr × Addr)) :
    ((arms.filterMap (reresolve vm caller s)).map Prod.fst).Sublist (arms.map Prod.fst) := by
  induction arms with
  | nil => exact List.Sublist.slnil
  | cons arm arms ih =>
    cases hl : lookupFor vm caller s.sel s.isSuper arm.1 with
    | none =>
      rw [List.filterMap_cons_none (by simp only [reresolve, hl, Option.map_none])]
      exact ih.cons _
    | some m =>
      rw [List.filterMap_cons_some (by simp only [reresolve, hl, Option.map_some]; rfl)]
      exact ih.cons_cons _

theorem mem_reresolve {arms : List (Addr × Addr)} {arm : Addr × Addr}
    (h : arm ∈ arms.filterMap (reresolve vm caller s)) :
    (∃ m0, (arm.1, m0) ∈ arms) ∧ lookupFor vm caller s.sel s.isSuper arm.1 = some arm.2 := by
  obtain ⟨arm0, harm0, hr⟩ := List.mem_filterMap.mp h
  simp only [reresolve, Option.map_eq_some_iff] at hr
  obtain ⟨m, hm, rfl⟩ := hr
  exact ⟨⟨arm0.2, harm0⟩, hm⟩

/-- Re-resolution keeps every arm, or, on a super site, possibly none. -/
theorem reresolve_length {arms : List (Addr × Addr)} (hne : arms ≠ [])
    (hfound : s.isSuper = false →
      ∀ arm ∈ arms, (lookupFor vm caller s.sel s.isSuper arm.1).isSome) :
    (arms.filterMap (reresolve vm caller s)).length = arms.length ∨
      (s.isSuper = true ∧ arms.filterMap (reresolve vm caller s) = []) := by
  cases hs : s.isSuper with
  | false => exact Or.inl (reresolve_length_of_isSome (hfound hs))
  | true =>
    obtain ⟨arm0, rest, rfl⟩ := List.exists_cons_of_ne_nil hne
    cases hl : lookupFor vm caller s.sel true arm0.1 with
    | some m =>
      left
      apply reresolve_length_of_isSome
      intro arm _
      rw [hs, lookupFor_super vm caller s.sel arm.1 arm0.1, hl]
      rfl
    | none =>
      refine Or.inr ⟨rfl, List.filterMap_eq_nil_iff.mpr ?_⟩
      intro arm _
      simp only [reresolve, hs, lookupFor_super vm caller s.sel arm.1 arm0.1, hl, Option.map_none]

/-- Row 8: every arm re-resolved, the array rewritten in place. -/
theorem reverifyPoly_eq (h : Inv vm) {a : Addr} {pairs : List Word} {arms : List (Addr × Addr)}
    (ha : Arms vm pairs arms) (hh : HolderOk vm caller s.isSuper) :
    ∃ pairs' c, reverifyPoly vm caller s.sel s.isSuper a pairs =
        some (pairs', (vm.withCache c).setArray a pairs') ∧ CacheOk (vm.withCache c) ∧
      Arms vm pairs' (arms.filterMap (reresolve vm caller s)) := by
  obtain ⟨kept, c, hrun, hc, hkept⟩ :=
    reverifyArms_eq (s := s) ha hh arms.length 0 vm.lookupCache (Nat.zero_add _) h.cache
  rw [List.drop_zero] at hkept
  have hfst : (kept.map fun arm => arm.1) =
      (arms.filterMap (reresolve vm caller s)).map Prod.fst := by
    rw [← hkept, List.map_map]
    rfl
  refine ⟨rebuildPairs kept, c, ?_, hc, ?_⟩
  · have hrun' : reverifyArms caller s.sel s.isSuper pairs arms.length 0 vm =
        some (kept, vm.withCache c) := hrun
    simp only [reverifyPoly, polyArity_eq ha, hrun', Option.bind_eq_bind, Option.bind_some,
      Option.pure_def]
  · rw [← hkept]
    apply arms_rebuild
    · have hlen := congrArg List.length hkept
      rw [List.length_map] at hlen
      rw [hlen]
      exact Nat.le_trans (List.length_filterMap_le _ _) ha.le
    · intro arm harm
      have hmem : (arm.1, arm.2.1) ∈ arms.filterMap (reresolve vm caller s) := by
        rw [← hkept]
        exact List.mem_map_of_mem harm
      obtain ⟨⟨m0, hm0⟩, hl⟩ := mem_reresolve hmem
      exact ⟨(ha.live _ hm0).1, lookupFor_isMethod h.dicts hl⟩
    · rw [hfst]
      exact ha.nodup.sublist (reresolve_keys arms)

/-- A send seen from the state before row 8 wrote the site and its array. -/
theorem SendOk.before {vm1 : Vm} {s1 : SendSite} {out : Outcome}
    (hu : SiteUpdate vm vm1 caller icIdx s1) (hsel : s1.sel = s.sel)
    (hsuper : s1.isSuper = s.isSuper) (hok : SendOk vm1 caller icIdx s1 k out)
    (hpoly : s.guard = .smi icGuardPoly)
    (hdnu : ∀ s', DnuWords vm1 s1 s' → out.method = none → DnuWords vm s s') :
    SendOk vm caller icIdx s k out := by
  obtain ⟨s', hself, -, hnone⟩ := hok.self
  refine ⟨hok.inv, ?_, hok.epoch.trans hu.epoch, ?_, s', hself, ?_, ?_⟩
  · rw [hok.method, hu.dispatch.lookupFor, hsel, hsuper]
  · intro c i hne
    rw [hok.others c i hne, hu.others c i hne]
  · intro hg
    rw [hpoly] at hg
    exact absurd (Word.smi.inj hg) (by decide)
  · intro hn
    obtain ⟨hmoved, hwords⟩ := hnone hn
    exact ⟨hmoved, hdnu s' hwords hn⟩

theorem transitionPoly_ok (h : Inv vm) (hs : vm.site caller icIdx = some s) {a : Addr}
    {pairs : List Word} {arms : List (Addr × Addr)} (hg : s.guard = .smi icGuardPoly)
    (ht : s.target = .ref a) (ha : Arms vm pairs arms) (htwo : 2 ≤ arms.length)
    (hcur : s.epoch = vm.icEpoch →
      ∀ arm ∈ arms, lookupFor vm caller s.sel s.isSuper arm.1 = some arm.2)
    (hfound : s.isSuper = false →
      ∀ arm ∈ arms, (lookupFor vm caller s.sel s.isSuper arm.1).isSome)
    (hk : (vm.klasses k).isSome) (hh : HolderOk vm caller s.isSuper) :
    ∃ out, transitionPoly vm caller icIdx s a pairs k = some out ∧
      SendOk vm caller icIdx s k out := by
  by_cases hepoch : s.epoch = vm.icEpoch
  · simp only [transitionPoly, hepoch, ne_eq, not_true_eq_false, if_false]
    exact transitionProbe_ok h hs hg ht ha htwo hepoch (hcur hepoch) hk hh
  · obtain ⟨pairs', c, hrun, hc, ha'⟩ := reverifyPoly_eq (s := s) (a := a) h ha hh
    have hne : arms ≠ [] := by
      rintro rfl
      cases htwo
    have harr : ((vm.withCache c).setArray a pairs').klasses = vm.klasses := rfl
    have harity : polyArity ((vm.withCache c).setArray a pairs') pairs' =
        (arms.filterMap (reresolve vm caller s)).length :=
      polyArity_eq (ha'.same ⟨rfl, rfl, fun _ => rfl⟩)
    simp only [transitionPoly, hepoch, ne_eq, not_false_eq_true, if_true, hrun,
      Option.bind_eq_bind, Option.bind_some, harity]
    rcases reresolve_length hne hfound with hall | ⟨hsuper, hnone⟩
    · have hpos : ¬ (arms.filterMap (reresolve vm caller s)).length = 0 := by omega
      rw [if_neg hpos]
      have hu := (siteUpdate_setSite h.owned hs hc (s.setPoly a vm.icEpoch)
        (fun _ => ⟨hg, ht.symm⟩)).setArray h.owned hs hg ht pairs'
      have hcur' : ∀ arm ∈ arms.filterMap (reresolve vm caller s),
          lookupFor vm caller s.sel s.isSuper arm.1 = some arm.2 :=
        fun arm harm => (mem_reresolve harm).2
      have hinv := h.update hu (.current hu.dispatch rfl rfl rfl rfl (Function.update_self ..) ha'
        (by omega) (Nat.le_of_eq (SendSite.epoch_setMeta _ h.epoch)) hcur')
      obtain ⟨out, hout, hok⟩ := transitionProbe_ok (k := k) hinv hu.self rfl rfl
        (ha'.same hu.dispatch) (by omega) (SendSite.epoch_setMeta _ h.epoch)
        (fun arm harm => (hu.dispatch.lookupFor ..).trans (hcur' arm harm))
        (by rw [hu.dispatch.klasses]; exact hk) (hu.dispatch.holderOk hh)
      refine ⟨out, hout, hok.before hu rfl rfl hg ?_⟩
      intro s' hw _
      have hset : s.setPoly a vm.icEpoch = s.setMeta vm.icEpoch := by
        simp only [SendSite.setPoly, SendSite.setMeta, SendSite.argc, ← hg, ← ht]
      rcases hw with rfl | ⟨hstale, -⟩
      · exact Or.inr ⟨hepoch, Or.inl ⟨hg, hset⟩⟩
      · exact absurd (SendSite.epoch_setMeta _ h.epoch) hstale
    · rw [hnone, List.length_nil, if_pos rfl]
      have hu := (siteUpdate_setSite h.owned hs hc s.setEmpty (by
        intro he
        cases he)).setArray h.owned hs hg ht pairs'
      have hinv := h.update hu (.empty rfl)
      obtain ⟨out, hout, hok⟩ := transitionEmpty_ok (k := k) hinv hu.self rfl
        (by rw [hu.dispatch.klasses]; exact hk) (hu.dispatch.holderOk hh)
      refine ⟨out, hout, hok.before hu rfl rfl hg ?_⟩
      intro s' hw _
      rcases hw with rfl | ⟨-, ⟨hg', -⟩ | ⟨-, rfl⟩⟩
      · exact Or.inr ⟨hepoch, Or.inr ⟨hsuper, rfl⟩⟩
      · cases hg'
      · exact Or.inr ⟨hepoch, Or.inr ⟨hsuper, rfl⟩⟩

/-- Off the fast path a send is the transition table. -/
theorem sendGeneric_slow (hs : vm.site caller icIdx = some s)
    (hslow : ¬ (s.guard = .ref k ∧ s.epoch = vm.icEpoch)) (al : Alloc) :
    sendGeneric vm caller icIdx k al = icTransition vm caller icIdx k al := by
  simp only [sendGeneric, hs, Option.bind_eq_bind, Option.bind_some, if_neg hslow]

/-- Every row of the table, and the fast path. -/
theorem sendGeneric_ok (h : Inv vm) (hs : vm.site caller icIdx = some s)
    (hk : (vm.klasses k).isSome) (hh : HolderOk vm caller s.isSuper) {al : Alloc}
    (hal : al.Fresh vm) (hclean : ¬ Launders vm caller s k) :
    ∃ out, sendGeneric vm caller icIdx k al = some out ∧ SendOk vm caller icIdx s k out := by
  have hsame : SiteUpdate vm vm caller icIdx s := siteUpdate_withCache h.owned hs h.cache
  have hsok := h.sites caller icIdx s hs
  cases hsok with
  | empty hg =>
    have hfast : ¬ (s.guard = .ref k ∧ s.epoch = vm.icEpoch) := fun hf => by rw [hg] at hf; cases hf.1
    rw [sendGeneric_slow hs hfast]
    simp only [icTransition, hs, Option.bind_eq_bind, Option.bind_some, hg]
    exact transitionEmpty_ok h hs hg hk hh
  | mega hg =>
    have hfast : ¬ (s.guard = .ref k ∧ s.epoch = vm.icEpoch) := fun hf => by rw [hg] at hf; cases hf.1
    have hpoly : ¬ icGuardMega = icGuardPoly := by decide
    obtain ⟨c, hr, hc⟩ := resolve_eq s.sel k h.cache hh
    refine ⟨.stay (vm.withCache c) (lookupFor vm caller s.sel s.isSuper k), ?_, ?_⟩
    · rw [sendGeneric_slow hs hfast]
      simp only [icTransition, hs, Option.bind_eq_bind, Option.bind_some, hg, hpoly, if_false,
        if_true, hr]
      rfl
    · exact .of_update h (siteUpdate_withCache h.owned hs hc) (.mega hg) rfl (fun _ => rfl)
        (fun _ => Or.inl rfl)
  | @mono k0 m0 hg ht hk0 hm0 hle hcur hfound =>
    by_cases hsame_k : k0 = k
    · subst hsame_k
      by_cases hepoch : s.epoch = vm.icEpoch
      · have hmethod : vm.asMethod (.ref m0) = some m0 := by
          simp only [Vm.asMethod, hm0, if_true]
        refine ⟨.stay vm (some m0), ?_, ?_⟩
        · simp only [sendGeneric, hs, Option.bind_eq_bind, Option.bind_some, hg, hepoch, and_self,
            if_true, ht, hmethod]
          rfl
        · exact .of_update h hsame (.mono hg ht hk0 hm0 hle hcur hfound) (hcur hepoch).symm
            (fun _ => rfl) (fun he => by cases he)
      · have hfast : ¬ (s.guard = .ref k0 ∧ s.epoch = vm.icEpoch) := fun hf => hepoch hf.2
        rw [sendGeneric_slow hs hfast]
        simp only [icTransition, hs, Option.bind_eq_bind, Option.bind_some, hg, hk0, if_true]
        exact transitionSelfHeal_ok h hs hg hk0 hh hepoch hfound
    · have hfast : ¬ (s.guard = .ref k ∧ s.epoch = vm.icEpoch) := by
        rintro ⟨hf, -⟩
        rw [hg] at hf
        exact hsame_k (Word.ref.inj hf)
      rw [sendGeneric_slow hs hfast]
      simp only [icTransition, hs, Option.bind_eq_bind, Option.bind_some, hg, hk0, if_true, hsame_k,
        if_false]
      refine transitionToPoly_ok h hs hg ht hk0 hm0 hsame_k hk hh ?_ hal
      intro hl
      by_contra hstale
      by_cases hepoch : s.epoch = vm.icEpoch
      · exact hstale (hcur hepoch)
      · exact hclean ⟨k0, m0, hg, ht, hsame_k, hepoch, hl, hstale⟩
  | @poly a pairs arms hg ht hp ha htwo hle hcur hfound =>
    have hfast : ¬ (s.guard = .ref k ∧ s.epoch = vm.icEpoch) := fun hf => by rw [hg] at hf; cases hf.1
    rw [sendGeneric_slow hs hfast]
    simp only [icTransition, hs, Option.bind_eq_bind, Option.bind_some, hg, if_true, ht, hp]
    exact transitionPoly_ok h hs hg ht ha htwo hcur hfound hk hh

end Rows

/-! ## Runs -/

/-- A condition on the sends of a run: state, caller, site words and receiver class. -/
abbrev SendFilter := Vm → Addr → SendSite → Addr → Prop

/-- One event: a send of a class at a site of a method (a super send from an installed
method), an install, or a moving collection; and where it moved objects. -/
inductive Step (ok : SendFilter) (vm : Vm) : Equiv.Perm Addr → Vm → Prop
  | send {caller k : Addr} {icIdx : Nat} {s : SendSite} {al : Alloc} {out : Outcome}
      (hs : vm.site caller icIdx = some s) (hk : (vm.klasses k).isSome)
      (hh : HolderOk vm caller s.isSuper) (hal : al.Fresh vm) (hok : ok vm caller s k)
      (hsend : sendGeneric vm caller icIdx k al = some out) : Step ok vm out.moved out.vm
  | install {ρ : Equiv.Perm Addr} {klass selector m : Addr} {vm' : Vm}
      (hinstall : vm.installMethod ρ klass selector m = some vm')
      (hlt : vm.icEpoch + 1 < 2 ^ 24) : Step ok vm ρ vm'
  | collect (ρ : Equiv.Perm Addr) : Step ok vm ρ (vm.collect ρ)

/-- Any interleaving of events, with the composed movement of objects. -/
inductive Run (ok : SendFilter) (vm : Vm) : Equiv.Perm Addr → Vm → Prop
  | refl : Run ok vm (Equiv.refl Addr) vm
  | step {ρ σ : Equiv.Perm Addr} {vm1 vm2 : Vm} (hrun : Run ok vm ρ vm1)
      (hstep : Step ok vm1 σ vm2) : Run ok vm (ρ.trans σ) vm2

/-- The superclass chain from `k` ends within the walk's bound. -/
def chainEnds (klasses : Addr → Option Klass) : Nat → Addr → Bool
  | 0, _ => false
  | n + 1, k =>
    match klasses k with
    | none => false
    | some klass =>
      match klass.superclass with
      | .ref s => chainEnds klasses n s
      | _ => true

/-- A VM as it starts: every site empty, the cache flushed, epoch 0. -/
structure Start (vm : Vm) : Prop where
  epoch : vm.icEpoch = 0
  cache : vm.lookupCache = LookupCache.flush
  dicts : DictsOk vm
  sites : ∀ c i s, vm.site c i = some s → s.guard = .nil
  chains : ∀ k, (vm.klasses k).isSome → chainEnds vm.klasses vm.depth k = true

theorem Start.inv {vm : Vm} (h : Start vm) : Inv vm := by
  refine ⟨CacheOk.flush h.cache, h.dicts, fun c i s hs => .empty (h.sites c i s hs), ?_, ?_⟩
  · intro c i s c' i' s' a hs hs' hg
    rw [h.sites c i s hs] at hg
    cases hg
  · rw [h.epoch]
    decide

/-- No send restamps a cached method that lookup no longer finds. -/
def Clean : SendFilter := fun vm caller s k => ¬ Launders vm caller s k

theorem Step.inv {vm vm' : Vm} {σ : Equiv.Perm Addr} (h : Inv vm) (hstep : Step Clean vm σ vm') :
    Inv vm' := by
  cases hstep with
  | send hs hk hh hal hok hsend =>
    obtain ⟨out, hout, hsok⟩ := sendGeneric_ok h hs hk hh hal hok
    rw [hsend] at hout
    cases hout
    exact hsok.inv
  | install hinstall hlt => exact h.installMethod hinstall hlt
  | collect => exact h.collect σ

theorem Run.inv {vm vm' : Vm} {ρ : Equiv.Perm Addr} (h : Inv vm) (hrun : Run Clean vm ρ vm') :
    Inv vm' := by
  induction hrun with
  | refl => exact h
  | step _ hstep ih => exact hstep.inv ih

/-- The site was marked megamorphic. -/
def MegaAt (vm : Vm) (c : Addr) (i : Nat) : Prop :=
  ∃ s, vm.site c i = some s ∧ s.guard = .smi icGuardMega

theorem MegaAt.move {vm : Vm} {c : Addr} {i : Nat} (h : MegaAt vm c i) {vm' : Vm}
    {σ : Equiv.Perm Addr} (hsite : vm'.site (σ c) i = (vm.site c i).map (SendSite.move σ)) :
    MegaAt vm' (σ c) i := by
  obtain ⟨s, hs, hg⟩ := h
  refine ⟨s.move σ, by rw [hsite, hs]; rfl, ?_⟩
  simp only [SendSite.move, hg, Word.move]

theorem Step.mega {vm vm' : Vm} {σ : Equiv.Perm Addr} (h : Inv vm) (hstep : Step Clean vm σ vm')
    {c : Addr} {i : Nat} (hm : MegaAt vm c i) : MegaAt vm' (σ c) i := by
  cases hstep with
  | @send caller k icIdx s al out hs hk hh hal hok hsend =>
    obtain ⟨out', hout, hsok⟩ := sendGeneric_ok h hs hk hh hal hok
    rw [hsend] at hout
    cases hout
    by_cases hc : (c, i) = (caller, icIdx)
    · obtain ⟨rfl, rfl⟩ := Prod.mk.inj hc
      obtain ⟨s0, hs0, hg⟩ := hm
      rw [hs] at hs0
      cases hs0
      obtain ⟨s', hself, hmega, -⟩ := hsok.self
      refine ⟨s', hself, ?_⟩
      rw [hmega hg]
      simp only [SendSite.move, hg, Word.move]
    · exact hm.move (hsok.others c i hc)
  | @install ρ klass selector m vm' hinstall hlt =>
    simp only [Vm.installMethod] at hinstall
    split at hinstall
    · cases hinstall
      obtain ⟨s, hs, hg⟩ := hm.move (site_collect vm σ c i)
      refine ⟨s, ?_, hg⟩
      have hholder : HolderOnly (vm.collect σ).methods (patchBlockHolders (.ref (σ klass))
          (vm.collect σ).depth (setHolder (vm.collect σ).methods (σ m) (.ref (σ klass))) (σ m)) := by
        intro a
        rw [holderOnly_patchBlockHolders, holderOnly_setHolder]
      rw [HolderOnly.site hholder]
      exact hs
    · cases hinstall
  | collect => exact hm.move (site_collect vm σ c i)

theorem Run.mega {vm vm' : Vm} {ρ : Equiv.Perm Addr} (h : Inv vm) (hrun : Run Clean vm ρ vm')
    {c : Addr} {i : Nat} (hm : MegaAt vm c i) : MegaAt vm' (ρ c) i := by
  induction hrun with
  | refl => exact hm
  | step hrun hstep ih => exact hstep.mega (hrun.inv h) ih

/-- A site holds no class, one class, two to four distinct classes, or the mega mark. -/
def SiteShape (vm : Vm) (s : SendSite) : Prop :=
  s.guard = .nil ∨ (∃ k, s.guard = .ref k ∧ (vm.klasses k).isSome) ∨
  (∃ a pairs arms, s.guard = .smi icGuardPoly ∧ s.target = .ref a ∧ vm.arrays a = some pairs ∧
    Arms vm pairs arms ∧ 2 ≤ arms.length ∧ arms.length ≤ 4 ∧ (arms.map Prod.fst).Nodup) ∨
  s.guard = .smi icGuardMega

theorem SiteOk.shape {vm : Vm} {c : Addr} {s : SendSite} (h : SiteOk vm c s) : SiteShape vm s := by
  cases h with
  | empty hg => exact Or.inl hg
  | mono hg _ hk => exact Or.inr (Or.inl ⟨_, hg, hk⟩)
  | poly hg ht hp ha htwo =>
    exact Or.inr (Or.inr (Or.inl ⟨_, _, _, hg, ht, hp, ha, htwo, ha.le, ha.nodup⟩))
  | mega hg => exact Or.inr (Or.inr (Or.inr hg))

/-- In every run whose sends launder no stale arm: a send activates what the uncached lookup
finds (the object moved along with any collection inside the send), and is not understood
exactly when that lookup finds nothing; a send that is not understood leaves the site's words
as `DnuWords` says; sites keep their shape, and megamorphic sites stay so. -/
theorem ic_transparent {vm0 vm : Vm} {ρ : Equiv.Perm Addr} (h0 : Start vm0)
    (hrun : Run Clean vm0 ρ vm) :
    (∀ caller icIdx s k al, vm.site caller icIdx = some s → (vm.klasses k).isSome →
      HolderOk vm caller s.isSuper → al.Fresh vm → Clean vm caller s k →
      ∃ out, sendGeneric vm caller icIdx k al = some out ∧
        out.method = (lookupFor vm caller s.sel s.isSuper k).map out.moved ∧
        (out.method = none ↔ lookupFor vm caller s.sel s.isSuper k = none) ∧
        (out.method = none →
          ∃ s', out.vm.site caller icIdx = some s' ∧ DnuWords vm s s')) ∧
    (∀ c i s, vm.site c i = some s → SiteShape vm s) ∧
    (∀ vm' σ, Run Clean vm σ vm' → ∀ c i, MegaAt vm c i → MegaAt vm' (σ c) i) := by
  have hinv := hrun.inv h0.inv
  refine ⟨?_, fun c i s hs => (hinv.sites c i s hs).shape, fun vm' σ h c i hm => h.mega hinv hm⟩
  intro caller icIdx s k al hs hk hh hal hclean
  obtain ⟨out, hout, hok⟩ := sendGeneric_ok hinv hs hk hh hal hclean
  refine ⟨out, hout, hok.method, by rw [hok.method, Option.map_eq_none_iff], ?_⟩
  intro hn
  obtain ⟨s', hself, -, hdnu⟩ := hok.self
  obtain ⟨hmoved, hwords⟩ := hdnu hn
  rw [hmoved] at hself
  exact ⟨s', hself, hwords⟩

/-! ## Concrete runs -/

namespace Demo

/-- Classes 10, 11 and 12 under no superclass; 10 and 11 answer selector 30. -/
def klasses : Addr → Option Klass
  | 10 => some ⟨.nil, fun sel => if sel = 30 then some 20 else none⟩
  | 11 => some ⟨.nil, fun sel => if sel = 30 then some 21 else none⟩
  | 12 => some ⟨.nil, fun _ => none⟩
  | _ => none

def site : SendSite := { isSuper := false, sel := 30, info := 0, guard := .nil, target := .nil }

/-- Method 1 has one send site of selector 30; 20, 21 and 22 are the methods to find. -/
def methods : Addr → Option Method
  | 1 => some ⟨.nil, false, [], [site]⟩
  | 20 => some ⟨.nil, false, [], []⟩
  | 21 => some ⟨.nil, false, [], []⟩
  | 22 => some ⟨.nil, false, [], []⟩
  | _ => none

def vm : Vm :=
  { klasses, methods, arrays := fun _ => none, lookupCache := LookupCache.flush, icEpoch := 0,
    depth := 1 }

def al : Alloc := ⟨none, 40⟩

/-- The state after a send of class `k` at the site. -/
def send (vm : Vm) (k : Addr) : Vm := ((sendGeneric vm 1 0 k al).map Outcome.vm).getD vm

/-- The state after `selector 30` is redefined in class 10. -/
def redefine (vm : Vm) : Vm := (vm.installMethod (Equiv.refl Addr) 10 30 22).getD vm

theorem vm_start : Start vm := by
  refine ⟨rfl, rfl, ?_, ?_, ?_⟩
  · intro k klass sel m hk hm
    simp only [vm, klasses] at hk
    split at hk <;> cases hk
    · simp only at hm
      split at hm <;> cases hm
      rfl
    · simp only at hm
      split at hm <;> cases hm
      rfl
    · cases hm
  · intro c i s hs
    simp only [vm, Vm.site, methods] at hs
    split at hs
    · rcases i with _ | i
      · cases hs
        rfl
      · cases hs
    all_goals cases hs
  · intro k hk
    simp only [vm, klasses] at hk ⊢
    split at hk <;> first | rfl | cases hk

theorem al_fresh {v : Vm} (hk : v.klasses 40 = none) (hm : v.methods 40 = none)
    (ha : v.arrays 40 = none) : al.Fresh v := ⟨hk, hm, ha⟩

theorem step_send {ok : SendFilter} (v : Vm) (s : SendSite) (k : Addr)
    (hs : v.site 1 0 = some s) (hk : (v.klasses k).isSome) (hn : s.isSuper = false)
    (hal : al.Fresh v) (hok : ok v 1 s k)
    (hout : (sendGeneric v 1 0 k al).map Outcome.moved = some (Equiv.refl Addr)) :
    Step ok v (Equiv.refl Addr) (send v k) := by
  rw [Option.map_eq_some_iff] at hout
  obtain ⟨out, hout, hmoved⟩ := hout
  have hv : send v k = out.vm := by simp only [send, hout, Option.map_some, Option.getD_some]
  rw [hv, ← hmoved]
  exact .send hs hk (fun h => by rw [hn] at h; cases h) hal hok hout

theorem step_redefine {ok : SendFilter} (v : Vm)
    (hi : (v.installMethod (Equiv.refl Addr) 10 30 22).isSome) (hlt : v.icEpoch + 1 < 2 ^ 24) :
    Step ok v (Equiv.refl Addr) (redefine v) := by
  obtain ⟨v', hv'⟩ := Option.isSome_iff_exists.mp hi
  have hr : redefine v = v' := by simp only [redefine, hv', Option.getD_some]
  rw [hr]
  exact .install hv' hlt

/-- Classes 10 and 11 cached in a poly site, then a redefinition. -/
def stalePoly : Vm := redefine (send (send vm 10) 11)

/-- Class 10 cached, redefined, and then laundered by a send of class 11. -/
def laundered : Vm := send (redefine (send vm 10)) 11

end Demo

/-- A class cached, then a second one met: the send activates what lookup finds. -/
theorem ic_transparent_mono_then_poly :
    Start Demo.vm ∧ Run Clean Demo.vm (Equiv.refl Addr) (Demo.send Demo.vm 10) ∧
      ∃ out, sendGeneric (Demo.send Demo.vm 10) 1 0 11 Demo.al = some out ∧
        out.method = (some 21).map out.moved := by
  have hrun : Run Clean Demo.vm (Equiv.refl Addr) (Demo.send Demo.vm 10) := by
    refine .step .refl (Demo.step_send Demo.vm Demo.site 10 rfl rfl rfl
      (Demo.al_fresh rfl rfl rfl) ?_ rfl)
    rintro ⟨k0, m0, hg, -⟩
    cases hg
  refine ⟨Demo.vm_start, hrun, ?_⟩
  obtain ⟨out, hout, hmethod, -⟩ := (ic_transparent Demo.vm_start hrun).1 1 0 _ 11 Demo.al rfl rfl
    (fun h => by cases h) (Demo.al_fresh rfl rfl rfl) (by
      rintro ⟨k0, m0, -, -, -, hstale, -⟩
      exact hstale rfl)
  exact ⟨out, hout, hmethod⟩

/-- Not every interleaving is transparent. A send of a class without the method changes the
meta word of a stale poly site; and a stale mono arm, copied next to a new class and stamped
current, activates the replaced method 20 where lookup finds 22. -/
theorem sends_not_transparent :
    (Run (fun _ _ _ _ => True) Demo.vm (Equiv.refl Addr) Demo.stalePoly ∧
      ∃ out s s', sendGeneric Demo.stalePoly 1 0 12 Demo.al = some out ∧ out.method = none ∧
        Demo.stalePoly.site 1 0 = some s ∧ out.vm.site 1 0 = some s' ∧ s' ≠ s) ∧
    (Run (fun _ _ _ _ => True) Demo.vm (Equiv.refl Addr) Demo.laundered ∧
      ∃ out, sendGeneric Demo.laundered 1 0 10 Demo.al = some out ∧ out.method = some 20 ∧
        lookupFor Demo.laundered 1 30 false 10 = some 22) := by
  refine ⟨⟨?_, _, _, _, rfl, rfl, rfl, rfl, by decide⟩, ⟨?_, _, rfl, rfl, rfl⟩⟩
  · refine .step (.step (.step .refl (Demo.step_send Demo.vm _ 10 rfl rfl rfl
      (Demo.al_fresh rfl rfl rfl) trivial rfl)) (Demo.step_send (Demo.send Demo.vm 10) _ 11 rfl rfl
      rfl (Demo.al_fresh rfl rfl rfl) trivial rfl)) (Demo.step_redefine _ rfl (by decide))
  · refine .step (.step (.step .refl (Demo.step_send Demo.vm _ 10 rfl rfl rfl
      (Demo.al_fresh rfl rfl rfl) trivial rfl)) (Demo.step_redefine _ rfl (by decide)))
      (Demo.step_send (Demo.redefine (Demo.send Demo.vm 10)) _ 11 rfl rfl rfl
      (Demo.al_fresh rfl rfl rfl) trivial rfl)

end WinVm.Interpreter
