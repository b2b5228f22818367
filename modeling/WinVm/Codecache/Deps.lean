import WinVm.Codecache.Coherence

/-!
# Dependency invalidation

`runtime/deps.rs`, with the tail of `install_method`: an installed method retires every Alive
nmethod that assumed a lookup the install may change.

The scan does not repeat the lookups. A dependency `(k, s)` counts as affected if `s` is
installed anywhere on the superclass chain of `k`, also above a definition that hides it. So
the retired nmethods include all whose lookups change (`affected_of_lookup_ne`), and an
override in between makes one more (`hidden_install_invalidates`).
-/

namespace WinVm.Codecache

open WinVm.Interpreter

/-! ## The scan -/

/-- Whether `holder` is on the superclass chain of `k`, at most `fuel` classes long. -/
def superchainContains (klasses : Addr → Option Klass) : Nat → Addr → Addr → Bool
  | 0, _, _ => false
  | fuel + 1, k, holder =>
    if k = holder then true
    else
      match klasses k with
      | none => false
      | some klass =>
        match klass.superclass with
        | .ref s => superchainContains klasses fuel s holder
        | _ => false

/-- Installing `selector` in `holder` may change what `lookup` finds for the pair. -/
def pairAffected (vm : Vm) (holder selector : Addr) (d : Addr × Addr) : Bool :=
  decide (d.2 = selector) && superchainContains vm.klasses vm.depth d.1 holder

/-- The own key, or any inlined dependency. -/
def nmethodAffected (vm : Vm) (holder selector : Addr) (nm : Nmethod) : Bool :=
  pairAffected vm holder selector nm.key || nm.inlineDeps.any (pairAffected vm holder selector)

def affectedByInstall (vm : Vm) (ct : CodeTable) (holder selector : Addr) : List Nat :=
  (ct.iterAlive.filter (nmethodAffected vm holder selector)).map (·.id)

/-- `make_not_entrant`, as far as the table goes; the entry patch, the redirected returns and
the armed poll are machine state. -/
def makeNotEntrant (ct : CodeTable) (id : Nat) : Option CodeTable := ct.setNotEntrant id

def invalidateDependents (vm : Vm) (ct : CodeTable) (holder selector : Addr) : Option CodeTable :=
  (affectedByInstall vm ct holder selector).foldlM makeNotEntrant ct

/-- A collection, if there is one, and what it does to the code table. -/
def CodeTable.collected (ct : CodeTable) : Option (Equiv.Perm Addr) → CodeTable
  | some ρ => ct.relocate ρ
  | none => ct

/-- `install_method` with the code table: growing the dictionary may collect, and the scan
runs last. -/
def installMethod (vm : Vm) (ct : CodeTable) (gc : Option (Equiv.Perm Addr))
    (holder selector m : Addr) : Option (Vm × CodeTable) := do
  let ρ := gc.getD (Equiv.refl Addr)
  let vm' ← vm.installMethod ρ holder selector m
  let ct' ← invalidateDependents vm' (ct.collected gc) (ρ holder) (ρ selector)
  some (vm', ct')

/-! ## Installing changes nothing off the chain -/

/-- `klasses'` is `klasses` but for what the dictionary of `holder` has for `sel`. -/
structure InstalledAt (klasses klasses' : Addr → Option Klass) (holder sel : Addr) : Prop where
  other : ∀ k, k ≠ holder → klasses' k = klasses k
  self : ∃ klass klass', klasses holder = some klass ∧ klasses' holder = some klass' ∧
    klass'.superclass = klass.superclass ∧ ∀ s, s ≠ sel → klass'.methods s = klass.methods s

section Walk

variable {klasses klasses' : Addr → Option Klass} {holder sel : Addr}

/-- Superclass fields decide the chain, and an install does not write them. -/
theorem InstalledAt.superchainContains_eq (hi : InstalledAt klasses klasses' holder sel)
    (fuel : Nat) (k h : Addr) :
    superchainContains klasses' fuel k h = superchainContains klasses fuel k h := by
  induction fuel generalizing k with
  | zero => rfl
  | succ fuel ih =>
    unfold superchainContains
    split
    · rfl
    · by_cases hkh : k = holder
      · subst hkh
        obtain ⟨klass, klass', hk, hk', hsup, -⟩ := hi.self
        simp only [hk, hk', hsup]
        cases klass.superclass with
        | ref s => exact ih s
        | nil => rfl
        | smi v => rfl
      · rw [hi.other k hkh]
        cases klasses k with
        | none => rfl
        | some kl =>
          cases hs : kl.superclass with
          | ref s =>
            simp only [hs]
            exact ih s
          | nil => simp only [hs]
          | smi v => simp only [hs]

/-- A lookup of another selector, or one that does not pass the holder, finds what it found. -/
theorem InstalledAt.walk_eq (hi : InstalledAt klasses klasses' holder sel) (fuel : Nat)
    (k s : Addr) (h : s ≠ sel ∨ superchainContains klasses fuel k holder = false) :
    Vm.walk klasses' fuel k s = Vm.walk klasses fuel k s := by
  induction fuel generalizing k with
  | zero => rfl
  | succ fuel ih =>
    unfold Vm.walk
    by_cases hkh : k = holder
    · subst hkh
      -- the chain starts at the holder, so the selectors differ
      have hs : s ≠ sel := by
        rcases h with h | h
        · exact h
        · unfold superchainContains at h
          rw [if_pos rfl] at h
          cases h
      obtain ⟨klass, klass', hk, hk', hsup, hmeth⟩ := hi.self
      simp only [hk, hk', hsup, hmeth s hs]
      cases klass.methods s with
      | some m' => rfl
      | none =>
        cases klass.superclass with
        | ref sc => exact ih sc (Or.inl hs)
        | nil => rfl
        | smi v => rfl
    · rw [hi.other k hkh]
      cases hkl : klasses k with
      | none => rfl
      | some kl =>
        cases hm : kl.methods s with
        | some m' => simp only [hm]
        | none =>
          cases hsc : kl.superclass with
          | ref sc =>
            simp only [hm, hsc]
            refine ih sc (h.imp_right fun hc => ?_)
            unfold superchainContains at hc
            rw [if_neg hkh, hkl] at hc
            simpa only [hsc] using hc
          | nil => simp only [hm, hsc]
          | smi v => simp only [hm, hsc]

end Walk

/-- What `Vm.installMethod` does to the classes. -/
theorem installedAt_installMethod {vm vm' : Vm} {ρ : Equiv.Perm Addr} {holder selector m : Addr}
    (h : vm.installMethod ρ holder selector m = some vm') :
    InstalledAt (vm.collect ρ).klasses vm'.klasses (ρ holder) (ρ selector) ∧
      vm'.depth = vm.depth := by
  unfold Vm.installMethod at h
  simp only at h
  split at h
  · rename_i k _ hk _
    cases h
    refine ⟨⟨?_, k, _, hk, Function.update_self .., rfl, ?_⟩, rfl⟩
    · intro k' hk'
      exact Function.update_of_ne hk' _ _
    · intro s hs
      exact Function.update_of_ne hs _ _
  · cases h

/-- A lookup that an install changes is of the installed selector, from below the holder. -/
theorem pairAffected_of_lookup_ne {vm vm' : Vm} {ρ : Equiv.Perm Addr} {holder selector m : Addr}
    (h : vm.installMethod ρ holder selector m = some vm') {d : Addr × Addr}
    (hne : vm'.lookupUncached d.1 d.2 ≠ (vm.collect ρ).lookupUncached d.1 d.2) :
    pairAffected vm' (ρ holder) (ρ selector) d = true := by
  obtain ⟨hi, hdepth⟩ := installedAt_installMethod h
  by_contra hn
  refine hne ?_
  unfold Vm.lookupUncached
  rw [hdepth]
  refine hi.walk_eq vm.depth d.1 d.2 ?_
  by_cases hs : d.2 = ρ selector
  · right
    cases hc : superchainContains (vm.collect ρ).klasses vm.depth d.1 (ρ holder) with
    | false => rfl
    | true =>
      refine absurd ?_ hn
      unfold pairAffected
      rw [hdepth, hi.superchainContains_eq, hc, hs]
      simp
  · exact Or.inl hs

/-- The assumptions of an nmethod: its own key and its inlined dependencies. -/
def Nmethod.deps (nm : Nmethod) : List (Addr × Addr) := nm.key :: nm.inlineDeps

theorem nmethodAffected_iff {vm : Vm} {holder selector : Addr} {nm : Nmethod} :
    nmethodAffected vm holder selector nm = true ↔
      ∃ d ∈ nm.deps, pairAffected vm holder selector d = true := by
  unfold nmethodAffected Nmethod.deps
  simp only [Bool.or_eq_true, List.any_eq_true, List.mem_cons, exists_eq_or_imp]

/-! ## Retiring a list of nmethods -/

namespace CodeTable

variable {ct ct' : CodeTable}

theorem mem_iterAlive (h : Coherent ct) {nm : Nmethod} :
    nm ∈ ct.iterAlive ↔ ct.get nm.id = some nm ∧ nm.state = .alive := by
  unfold iterAlive
  rw [List.mem_filter, List.mem_filterMap, decide_eq_true_eq]
  constructor
  · rintro ⟨⟨o, ho, rfl⟩, hs⟩
    obtain ⟨i, hi, hget⟩ := List.getElem_of_mem ho
    have hget : ct.get i = some nm := get_eq_some.mpr (by rw [List.getElem?_eq_getElem hi, hget])
    rw [h.id_eq i nm hget]
    exact ⟨hget, hs⟩
  · rintro ⟨hget, hs⟩
    exact ⟨⟨some nm, List.mem_of_getElem? (get_eq_some.mp hget), rfl⟩, hs⟩

/-- Nmethods of different slots have different ids. -/
theorem nodup_slot_ids (h : Coherent ct) : ((ct.slots.filterMap id).map (·.id)).Nodup := by
  have hall : ∀ (slots : List (Option Nmethod)) (n : Nat),
      (∀ i nm, slots[i]? = some (some nm) → nm.id = n + i) →
      ((slots.filterMap id).map (·.id)).Pairwise (· < ·) ∧
        ∀ nm ∈ slots.filterMap id, n ≤ nm.id := by
    intro slots
    induction slots with
    | nil => exact fun n _ => ⟨List.Pairwise.nil, fun nm hm => by cases hm⟩
    | cons o slots ih =>
      intro n hid
      obtain ⟨ihp, ihle⟩ := ih (n + 1) fun i nm hget => by
        have := hid (i + 1) nm hget
        omega
      cases o with
      | none => exact ⟨ihp, fun nm hm => Nat.le_of_succ_le (ihle nm hm)⟩
      | some nm =>
        have h0 : nm.id = n := hid 0 nm rfl
        refine ⟨List.pairwise_cons.mpr ⟨?_, ihp⟩, ?_⟩
        · intro i hi
          obtain ⟨nm', hm, rfl⟩ := List.mem_map.mp hi
          have := ihle nm' hm
          change nm.id < nm'.id
          omega
        · intro nm' hm
          rcases List.mem_cons.mp hm with rfl | hm
          · exact Nat.le_of_eq h0.symm
          · exact Nat.le_of_succ_le (ihle nm' hm)
  have hp := (hall ct.slots 0 fun i nm hget => by
    rw [Nat.zero_add]
    exact h.id_eq i nm (get_eq_some.mpr hget)).1
  exact hp.imp Nat.ne_of_lt

theorem nodup_iterAlive_ids (h : Coherent ct) (p : Nmethod → Bool) :
    ((ct.iterAlive.filter p).map (·.id)).Nodup :=
  (nodup_slot_ids h).sublist ((List.filter_sublist.trans List.filter_sublist).map _)

/-- Retiring a list of nmethods retires exactly these and keeps every other name. -/
theorem foldlM_makeNotEntrant (h : Coherent ct) {ids : List Nat} (hnodup : ids.Nodup)
    (hin : ∀ i ∈ ids, ∃ nm, ct.get i = some nm) :
    ∃ ct', ids.foldlM makeNotEntrant ct = some ct' ∧ Coherent ct' ∧
      (∀ i ∈ ids, ∀ nm, ct.get i = some nm →
        ct'.get i = some { nm with state := .notEntrant } ∧ ∀ key, ct'.byKey key ≠ some i) ∧
      ∀ i, i ∉ ids → ct'.get i = ct.get i ∧
        ∀ key, ct'.byKey key = some i ↔ ct.byKey key = some i := by
  induction ids generalizing ct with
  | nil => exact ⟨ct, rfl, h, fun i hi => absurd hi (by simp), fun i _ => ⟨rfl, fun _ => Iff.rfl⟩⟩
  | cons id ids ih =>
    obtain ⟨hid, hnodup⟩ := List.nodup_cons.mp hnodup
    obtain ⟨nm₀, hget₀⟩ := hin id List.mem_cons_self
    obtain ⟨ct₁, hct₁⟩ : ∃ ct₁, ct.retire id .notEntrant = some ct₁ := by
      unfold retire
      rw [hget₀]
      exact ⟨_, rfl⟩
    obtain ⟨nm, hget, hg, -, -, -, -⟩ := retire_spec hct₁
    have hne := (h.retire_ne hct₁).1
    have hkeep := retire_keepsSuccessors hct₁
    have hin₁ : ∀ i ∈ ids, ∃ nm, ct₁.get i = some nm := by
      intro i hi
      have hii : i ≠ id := fun hc => hid (hc ▸ hi)
      obtain ⟨nm', hget'⟩ := hin i (List.mem_cons_of_mem _ hi)
      exact ⟨nm', by rw [hg, if_neg hii]; exact hget'⟩
    obtain ⟨ct', hrun, hcoh, hyes, hno⟩ := ih (h.retire hct₁) hnodup hin₁
    refine ⟨ct', ?_, hcoh, ?_, ?_⟩
    · rw [List.foldlM_cons]
      exact (congrArg (· >>= fun t => ids.foldlM makeNotEntrant t) hct₁).trans hrun
    · intro i hi nm' hget'
      rcases List.mem_cons.mp hi with rfl | hi
      · rw [hget] at hget'
        cases hget'
        obtain ⟨hsame, hkeys⟩ := hno i hid
        refine ⟨by rw [hsame, hg, if_pos rfl], fun key hc => hne key ((hkeys key).mp hc)⟩
      · have hii : i ≠ id := fun hc => hid (hc ▸ hi)
        exact hyes i hi nm' (by rw [hg, if_neg hii]; exact hget')
    · intro i hi
      rw [List.mem_cons, not_or] at hi
      obtain ⟨hsame, hkeys⟩ := hno i hi.2
      refine ⟨by rw [hsame, hg, if_neg hi.1], fun key => ?_⟩
      exact (hkeys key).trans ((hkeep i hi.1).1 key)

theorem Coherent.collected (h : Coherent ct) (gc : Option (Equiv.Perm Addr)) :
    Coherent (ct.collected gc) := by
  cases gc with
  | none => exact h
  | some ρ => exact h.relocate

end CodeTable

open CodeTable

theorem mem_affectedByInstall {vm : Vm} {ct : CodeTable} {holder selector : Addr} (hc : Coherent ct)
    {i : Nat} {nm : Nmethod} (hget : ct.get i = some nm) :
    i ∈ affectedByInstall vm ct holder selector ↔
      nm.state = .alive ∧ nmethodAffected vm holder selector nm = true := by
  unfold affectedByInstall
  rw [List.mem_map]
  constructor
  · rintro ⟨nm', hm, rfl⟩
    obtain ⟨hm, haff⟩ := List.mem_filter.mp hm
    obtain ⟨hget', hs⟩ := (mem_iterAlive hc).mp hm
    rw [hget] at hget'
    cases hget'
    exact ⟨hs, haff⟩
  · rintro ⟨hs, haff⟩
    have hid := hc.id_eq i nm hget
    exact ⟨nm, List.mem_filter.mpr ⟨(mem_iterAlive hc).mpr ⟨hid ▸ hget, hs⟩, haff⟩, hid⟩

/-- The scan always succeeds; it retires the affected nmethods and keeps the others. -/
theorem invalidateDependents_spec {vm : Vm} {ct : CodeTable} {holder selector : Addr}
    (hc : Coherent ct) :
    ∃ ct', invalidateDependents vm ct holder selector = some ct' ∧ Coherent ct' ∧
      (∀ i, ct.get i = none → ct'.get i = none) ∧ ∀ i nm, ct.get i = some nm →
        (nm.state = .alive ∧ nmethodAffected vm holder selector nm = true →
          ct'.get i = some { nm with state := .notEntrant } ∧ ∀ key, ct'.byKey key ≠ some i) ∧
        (¬ (nm.state = .alive ∧ nmethodAffected vm holder selector nm = true) →
          ct'.get i = some nm ∧ ∀ key, ct'.byKey key = some i ↔ ct.byKey key = some i) := by
  have hin : ∀ i ∈ affectedByInstall vm ct holder selector, ∃ nm, ct.get i = some nm := by
    intro i hi
    obtain ⟨nm, hm, rfl⟩ := List.mem_map.mp hi
    exact ⟨nm, ((mem_iterAlive hc).mp (List.mem_filter.mp hm).1).1⟩
  obtain ⟨ct', hrun, hcoh, hyes, hno⟩ := foldlM_makeNotEntrant hc
    (nodup_iterAlive_ids hc (nmethodAffected vm holder selector)) hin
  refine ⟨ct', hrun, hcoh, fun i hnone => ?_, fun i nm hget => ⟨fun haff => ?_, fun hn => ?_⟩⟩
  · have hi : i ∉ affectedByInstall vm ct holder selector := by
      intro hi
      obtain ⟨nm, hget⟩ := hin i hi
      rw [hnone] at hget
      cases hget
    exact (hno i hi).1.trans hnone
  · exact hyes i ((mem_affectedByInstall hc hget).mpr haff) nm hget
  · obtain ⟨hsame, hkeys⟩ := hno i fun hi => hn ((mem_affectedByInstall hc hget).mp hi)
    exact ⟨hsame.trans hget, hkeys⟩

/-- What is Alive after the scan was Alive before it and is not affected. -/
theorem alive_of_invalidateDependents {vm : Vm} {ct ct' : CodeTable} {holder selector : Addr}
    (hc : Coherent ct) (h : invalidateDependents vm ct holder selector = some ct') :
    Coherent ct' ∧ ∀ i nm, ct'.get i = some nm → nm.state = .alive →
      ct.get i = some nm ∧ nmethodAffected vm holder selector nm = false := by
  obtain ⟨ct₁, hrun, hc', hnone, hspec⟩ := @invalidateDependents_spec vm ct holder selector hc
  rw [h] at hrun
  cases hrun
  refine ⟨hc', fun i nm' hget halive => ?_⟩
  cases hg : ct.get i with
  | none =>
    rw [hnone i hg] at hget
    cases hget
  | some nm =>
    obtain ⟨hyes, hno⟩ := hspec i nm hg
    by_cases haff : nm.state = .alive ∧ nmethodAffected vm holder selector nm = true
    · rw [(hyes haff).1] at hget
      cases hget
      cases halive
    · rw [(hno haff).1] at hget
      cases hget
      refine ⟨rfl, ?_⟩
      rw [← Bool.not_eq_true]
      exact fun ht => haff ⟨halive, ht⟩

/-- Installing a method retires the affected nmethods and no others: every Alive nmethod with
a dependency on the installed selector whose class has the holder on its superclass chain is
NotEntrant and out of the key map, every other nmethod keeps its state and its key entry, and
an nmethod one of whose lookups the install changes is always among the affected. -/
theorem install_retires_affected {vm vm' : Vm} {ct : CodeTable} {gc : Option (Equiv.Perm Addr)}
    {holder selector m : Addr} (hct : Coherent ct)
    (hvm : vm.installMethod (gc.getD (Equiv.refl Addr)) holder selector m = some vm') :
    ∃ ct', installMethod vm ct gc holder selector m = some (vm', ct') ∧
      ∀ i nm, (ct.collected gc).get i = some nm →
        (nm.state = .alive → nmethodAffected vm' (gc.getD (Equiv.refl Addr) holder)
            (gc.getD (Equiv.refl Addr) selector) nm = true →
          ct'.get i = some { nm with state := .notEntrant } ∧
            ∀ k s, ct'.lookup k s ≠ some i) ∧
        (¬ (nm.state = .alive ∧ nmethodAffected vm' (gc.getD (Equiv.refl Addr) holder)
            (gc.getD (Equiv.refl Addr) selector) nm = true) →
          ct'.get i = some nm ∧
            ∀ k s, ct'.lookup k s = some i ↔ (ct.collected gc).lookup k s = some i) ∧
        ((∃ d ∈ nm.deps, vm'.lookupUncached d.1 d.2 ≠
            (vm.collect (gc.getD (Equiv.refl Addr))).lookupUncached d.1 d.2) →
          nmethodAffected vm' (gc.getD (Equiv.refl Addr) holder)
            (gc.getD (Equiv.refl Addr) selector) nm = true) := by
  set ρ := gc.getD (Equiv.refl Addr)
  obtain ⟨ct', hrun, -, -, hspec⟩ := @invalidateDependents_spec vm' _ (ρ holder) (ρ selector)
    (hct.collected gc)
  refine ⟨ct', ?_, ?_⟩
  · change (vm.installMethod ρ holder selector m >>= fun vm' =>
      invalidateDependents vm' (ct.collected gc) (ρ holder) (ρ selector) >>= fun ct' =>
        some (vm', ct')) = _
    rw [hvm]
    exact congrArg (· >>= fun t => some (vm', t)) hrun
  · intro i nm hget
    obtain ⟨hyes, hno⟩ := hspec i nm hget
    refine ⟨?_, ?_, ?_⟩
    · intro hs haff
      obtain ⟨h1, h2⟩ := hyes ⟨hs, haff⟩
      exact ⟨h1, fun k s => h2 (k, s)⟩
    · intro hn
      obtain ⟨h1, h2⟩ := hno hn
      exact ⟨h1, fun k s => h2 (k, s)⟩
    · rintro ⟨d, hd, hne⟩
      exact nmethodAffected_iff.mpr ⟨d, hd, pairAffected_of_lookup_ne hvm hne⟩

/-! ## An override in between -/

/-- Class 1 below class 2 below class 3; class 2 defines selector 7, class 3 does not. -/
def threeClasses : Vm :=
  { klasses := fun a =>
      if a = 1 then some ⟨.ref 2, fun _ => none⟩
      else if a = 2 then some ⟨.ref 3, fun s => if s = 7 then some 20 else none⟩
      else if a = 3 then some ⟨.nil, fun _ => none⟩
      else none
    methods := fun a => if a = 20 ∨ a = 30 then some ⟨.nil, false, [], []⟩ else none
    arrays := fun _ => none
    lookupCache := LookupCache.flush
    icEpoch := 0
    depth := 3 }

/-- The method of class 2, compiled for receivers of class 1. -/
def inheritedCode : CodeTable :=
  (empty.install { sampleNmethod 1 0 0 with method := 20, keySelector := 7 }).1

theorem reachable_inheritedCode : Reachable inheritedCode := by
  refine Relation.ReflTransGen.refl.tail (Step.install _ rfl (by decide) ?_)
  intro i nm hget
  cases hget

/-- Selector 7 is installed in class 3. The lookup from class 1 still ends at class 2, but the
code for class 1 is retired. -/
theorem hidden_install_invalidates :
    ∃ vm' ct', installMethod threeClasses inheritedCode none 3 7 30 = some (vm', ct') ∧
      threeClasses.lookupUncached 1 7 = some 20 ∧ vm'.lookupUncached 1 7 = some 20 ∧
      (inheritedCode.get 0).map (fun nm => (nm.state, nm.key, nm.inlineDeps)) =
        some (.alive, (1, 7), []) ∧
      (ct'.get 0).map (·.state) = some .notEntrant ∧
      inheritedCode.lookup 1 7 = some 0 ∧ ct'.lookup 1 7 = none :=
  ⟨_, _, rfl, by decide, by decide, by decide, by decide, by decide, by decide⟩

theorem install_retires_inheritedCode :
    Coherent inheritedCode ∧ ∃ vm', threeClasses.installMethod (Equiv.refl Addr) 2 7 30 = some vm' ∧
      ∃ ct', installMethod threeClasses inheritedCode none 2 7 30 = some (vm', ct') ∧
        vm'.lookupUncached 1 7 = some 30 ∧ (ct'.get 0).map (·.state) = some .notEntrant := by
  refine ⟨reachable_inheritedCode.coherent, _, rfl, ?_⟩
  obtain ⟨ct', hrun, hspec⟩ := @install_retires_affected threeClasses _ inheritedCode none 2 7 30
    reachable_inheritedCode.coherent rfl
  refine ⟨ct', hrun, by decide, ?_⟩
  rw [((hspec 0 _ rfl).1 rfl (by decide)).1]
  rfl

end WinVm.Codecache
