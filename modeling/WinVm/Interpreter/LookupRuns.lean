import WinVm.Interpreter.Lookup

/-!
# The lookup cache over a run

`lookup_uncached` walks the superclass chain in a loop without a bound, so its answer is a
relation here: on a chain that never ends there is none. `lookup` probes the cache first, and a
cache entry may have been written many events ago, by a lookup that started at another class of
the same hash.

Results: `lookup_transparent`, in every state reached `lookup` answers what the walk answers at
that moment, and only when it does; `lookup_after_install`, the method that an install makes a
class and its subclasses find.
-/

namespace WinVm.Interpreter

/-! ## The walk -/

/-- The loop of `lookup_uncached`, from a class on, ends with this answer. -/
inductive Walks (klasses : Addr → Option Klass) (selector : Addr) : Addr → Option Addr → Prop
  | found {k m : Addr} {klass : Klass} (hk : klasses k = some klass)
      (hm : klass.methods selector = some m) : Walks klasses selector k (some m)
  | root {k : Addr} {klass : Klass} (hk : klasses k = some klass)
      (hm : klass.methods selector = none) (hs : klass.superclass = .nil) :
      Walks klasses selector k none
  | up {k s : Addr} {klass : Klass} {r : Option Addr} (hk : klasses k = some klass)
      (hm : klass.methods selector = none) (hs : klass.superclass = .ref s)
      (hw : Walks klasses selector s r) : Walks klasses selector k r

namespace Walks

variable {klasses : Addr → Option Klass} {selector k : Addr} {r r' : Option Addr}

theorem unique (h : Walks klasses selector k r) (h' : Walks klasses selector k r') : r = r' := by
  induction h with
  | found hk hm =>
    cases h' with
    | found hk' hm' => rw [← hm, ← hm', Option.some.inj (hk.symm.trans hk')]
    | root hk' hm' _ | up hk' hm' _ _ =>
      rw [Option.some.inj (hk.symm.trans hk'), hm'] at hm
      cases hm
  | root hk hm hs =>
    cases h' with
    | root => rfl
    | found hk' hm' =>
      rw [Option.some.inj (hk.symm.trans hk'), hm'] at hm
      cases hm
    | up hk' _ hs' _ =>
      rw [Option.some.inj (hk.symm.trans hk'), hs'] at hs
      cases hs
  | up hk hm hs hw ih =>
    cases h' with
    | found hk' hm' =>
      rw [Option.some.inj (hk.symm.trans hk'), hm'] at hm
      cases hm
    | root hk' _ hs' =>
      rw [Option.some.inj (hk.symm.trans hk'), hs'] at hs
      cases hs
    | up hk' _ hs' hw' =>
      rw [Option.some.inj (hk.symm.trans hk'), hs'] at hs
      cases hs
      exact ih hw'

/-- A walk that ends does so within any bound that is large enough. -/
theorem walk_eq (h : Walks klasses selector k r) :
    ∃ n, ∀ fuel, n ≤ fuel → Vm.walk klasses fuel k selector = r := by
  induction h with
  | found hk hm =>
    refine ⟨1, fun fuel hle => ?_⟩
    obtain ⟨fuel, rfl⟩ := Nat.exists_eq_add_of_le' hle
    simp only [Vm.walk, hk, hm]
  | root hk hm hs =>
    refine ⟨1, fun fuel hle => ?_⟩
    obtain ⟨fuel, rfl⟩ := Nat.exists_eq_add_of_le' hle
    simp only [Vm.walk, hk, hm, hs]
  | up hk hm hs _ ih =>
    obtain ⟨n, ih⟩ := ih
    refine ⟨n + 1, fun fuel hle => ?_⟩
    obtain ⟨fuel, rfl⟩ : ∃ fuel', fuel = fuel' + 1 := ⟨fuel - 1, by omega⟩
    simp only [Vm.walk, hk, hm, hs]
    exact ih fuel (Nat.le_of_succ_le_succ hle)

end Walks

/-! ## Lookup -/

/-- `lookup` returns this answer, and leaves this state. -/
inductive Lookups (vm : Vm) (klass selector : Addr) : Option Addr → Vm → Prop
  | hit {m : Addr} {c : LookupCache} (hp : vm.lookupCache.probe klass selector = (some m, c)) :
      Lookups vm klass selector (some m) { vm with lookupCache := c }
  | found {m : Addr} {c : LookupCache} (hp : vm.lookupCache.probe klass selector = (none, c))
      (hw : Walks vm.klasses selector klass (some m)) :
      Lookups vm klass selector (some m) { vm with lookupCache := c.insert klass selector m }
  | absent {c : LookupCache} (hp : vm.lookupCache.probe klass selector = (none, c))
      (hw : Walks vm.klasses selector klass none) :
      Lookups vm klass selector none { vm with lookupCache := c }

/-- A lookup that returns is the bounded one, for any bound that is large enough. -/
theorem Lookups.lookup_eq {vm vm' : Vm} {klass selector : Addr} {r : Option Addr}
    (h : Lookups vm klass selector r vm') : ∃ n, ∀ depth, n ≤ depth →
      Vm.lookup { vm with depth } klass selector = (r, { vm' with depth }) := by
  cases h with
  | hit hp => exact ⟨0, fun depth _ => by simp only [Vm.lookup, hp]⟩
  | found hp hw | absent hp hw =>
    obtain ⟨n, hn⟩ := hw.walk_eq
    refine ⟨n, fun depth hle => ?_⟩
    simp only [Vm.lookup, hp, Vm.lookupUncached, hn depth hle]

/-! ## The walk after an install -/

/-- The chain from a class reaches `owner` before a method of this selector. -/
inductive Inherits (klasses : Addr → Option Klass) (selector owner : Addr) : Addr → Prop
  | self : Inherits klasses selector owner owner
  | up {k s : Addr} {klass : Klass} (hne : k ≠ owner) (hk : klasses k = some klass)
      (hm : klass.methods selector = none) (hs : klass.superclass = .ref s)
      (hi : Inherits klasses selector owner s) : Inherits klasses selector owner k

theorem installMethod_cache {vm vm' : Vm} {ρ : Equiv.Perm Addr} {klass selector m : Addr}
    (h : vm.installMethod ρ klass selector m = some vm') :
    vm'.lookupCache = LookupCache.flush := by
  unfold Vm.installMethod at h
  dsimp only at h
  split at h
  · cases h
    rfl
  · cases h

theorem installMethod_klasses {vm vm' : Vm} {ρ : Equiv.Perm Addr} {owner selector m : Addr}
    (h : vm.installMethod ρ owner selector m = some vm') : ∃ klass : Klass,
      vm'.klasses = Function.update (vm.collect ρ).klasses (ρ owner)
        (some { klass with methods := Function.update klass.methods (ρ selector) (some (ρ m)) }) := by
  unfold Vm.installMethod at h
  dsimp only at h
  split at h
  · cases h
    exact ⟨_, rfl⟩
  · cases h

theorem Inherits.walks_install {vm vm' : Vm} {ρ : Equiv.Perm Addr} {owner selector m k : Addr}
    (hi : Inherits vm.klasses selector owner k)
    (h : vm.installMethod ρ owner selector m = some vm') :
    Walks vm'.klasses (ρ selector) (ρ k) (some (ρ m)) := by
  obtain ⟨klass, hklasses⟩ := installMethod_klasses h
  rw [hklasses]
  induction hi with
  | self => exact .found (Function.update_self ..) (Function.update_self ..)
  | @up k s klass' hne hk hm hs _ ih =>
    have hmoved : (vm.collect ρ).klasses (ρ k) = some (klass'.move ρ) := by
      simp only [Vm.collect, Equiv.symm_apply_apply, hk, Option.map_some]
    refine .up ((Function.update_of_ne (fun heq => hne (ρ.injective heq)) ..).trans hmoved) ?_ ?_ ih
    · simp only [Klass.move, Equiv.symm_apply_apply, hm, Option.map_none]
    · simp only [Klass.move, hs, Word.move]

/-! ## Runs -/

/-- A VM with an empty cache, and any lookups, installs and collections. A collection may do
anything to the heap, but its epilogue flushes the cache. -/
inductive LookupRun : Vm → Prop
  | start {vm : Vm} : vm.lookupCache = LookupCache.flush → LookupRun vm
  | lookup {vm vm' : Vm} {klass selector : Addr} {r : Option Addr} : LookupRun vm →
      Lookups vm klass selector r vm' → LookupRun vm'
  | install {vm vm' : Vm} {ρ : Equiv.Perm Addr} {klass selector m : Addr} : LookupRun vm →
      vm.installMethod ρ klass selector m = some vm' → LookupRun vm'
  | collect {vm vm' : Vm} : LookupRun vm → vm'.lookupCache = LookupCache.flush → LookupRun vm'

/-- Every entry, primary or victim, is what the walk from its class finds now. -/
def CacheTrue (vm : Vm) : Prop :=
  ∀ i e, vm.lookupCache i = some e → Walks vm.klasses e.selector e.klass (some e.method)

namespace CacheTrue

variable {vm vm' : Vm} {klass selector : Addr} {r : Option Addr}

theorem flush (h : vm.lookupCache = LookupCache.flush) : CacheTrue vm := by
  intro i e he
  rw [h] at he
  cases he

theorem probe (h : CacheTrue vm) {c : LookupCache} {m : Option Addr}
    (hp : vm.lookupCache.probe klass selector = (m, c)) :
    CacheTrue { vm with lookupCache := c } ∧
      ∀ m', m = some m' → Walks vm.klasses selector klass (some m') := by
  obtain ⟨hhit, hkeep⟩ := vm.lookupCache.probe_spec klass selector
  rw [hp] at hhit hkeep
  refine ⟨fun i e he => ?_, fun m' hm => ?_⟩
  · obtain ⟨j, hj⟩ := hkeep i e he
    exact h j e hj
  · obtain ⟨i, hi⟩ := hhit m' hm
    exact h i _ hi

theorem insert (h : CacheTrue vm) {m : Addr} (hw : Walks vm.klasses selector klass (some m)) :
    CacheTrue { vm with lookupCache := vm.lookupCache.insert klass selector m } := by
  intro i e he
  rcases LookupCache.insert_spec he with rfl | ⟨j, hj⟩
  · exact hw
  · exact h j e hj

/-- What a lookup answers is what the walk finds, and the cache stays true. -/
theorem lookup (h : CacheTrue vm) (hl : Lookups vm klass selector r vm') :
    CacheTrue vm' ∧ Walks vm.klasses selector klass r := by
  cases hl with
  | hit hp =>
    obtain ⟨htrue, hhit⟩ := h.probe hp
    exact ⟨htrue, hhit _ rfl⟩
  | found hp hw => exact ⟨(h.probe hp).1.insert hw, hw⟩
  | absent hp hw => exact ⟨(h.probe hp).1, hw⟩

end CacheTrue

theorem LookupRun.cacheTrue {vm : Vm} (h : LookupRun vm) : CacheTrue vm := by
  induction h with
  | start hflush => exact .flush hflush
  | lookup _ hl ih => exact (ih.lookup hl).1
  | install _ hinstall _ => exact .flush (installMethod_cache hinstall)
  | collect _ hflush _ => exact .flush hflush

/-- A walk that ends lets the lookup end. -/
theorem Walks.lookups {vm : Vm} {klass selector : Addr} {r : Option Addr} (h : CacheTrue vm)
    (hw : Walks vm.klasses selector klass r) : ∃ vm', Lookups vm klass selector r vm' := by
  cases hp : vm.lookupCache.probe klass selector with
  | mk m c =>
    cases m with
    | some m =>
      rw [hw.unique ((h.probe hp).2 m rfl)]
      exact ⟨_, .hit hp⟩
    | none =>
      cases r with
      | some m => exact ⟨_, .found hp hw⟩
      | none => exact ⟨_, .absent hp hw⟩

theorem lookup_transparent {vm : Vm} (h : LookupRun vm) (klass selector : Addr) :
    (∀ r, (∃ vm', Lookups vm klass selector r vm') ↔ Walks vm.klasses selector klass r) ∧
    ∀ r vm', Lookups vm klass selector r vm' → ∃ c, vm' = { vm with lookupCache := c } := by
  refine ⟨fun r => ⟨?_, Walks.lookups h.cacheTrue⟩, fun r vm' hl => ?_⟩
  · rintro ⟨vm', hl⟩
    exact (h.cacheTrue.lookup hl).2
  · cases hl <;> exact ⟨_, rfl⟩

/-- A subclass that inherits a method caches it under its own address, and finds the new one after
an install in the superclass. -/
theorem lookup_transparent_redefined :
    let method : Method := ⟨.nil, false, [], []⟩
    let vm : Vm :=
      { klasses := fun a =>
          if a = 8 then some ⟨.ref 16, fun _ => none⟩
          else if a = 16 then some ⟨.nil, fun s => if s = 24 then some 32 else none⟩ else none
        methods := fun a => if a = 32 ∨ a = 40 then some method else none
        arrays := fun _ => none
        lookupCache := LookupCache.flush
        icEpoch := 0
        depth := 0 }
    let cached := { vm with lookupCache := vm.lookupCache.insert 8 24 32 }
    (∃ vm', Lookups cached 8 24 (some 32) vm') ∧
    ∃ redefined vm', cached.installMethod (Equiv.refl Addr) 16 24 40 = some redefined ∧
      Lookups redefined 8 24 (some 40) vm' := by
  intro method vm cached
  have hsub : vm.klasses 8 = some ⟨.ref 16, fun _ => none⟩ := rfl
  have hwalk : Walks vm.klasses 24 8 (some 32) := .up hsub rfl rfl (.found rfl rfl)
  have hstart : LookupRun vm := .start rfl
  have hrun : LookupRun cached := .lookup hstart (.found rfl hwalk)
  obtain ⟨redefined, hinstall⟩ := Option.isSome_iff_exists.mp
    (rfl : (cached.installMethod (Equiv.refl Addr) 16 24 40).isSome = true)
  have hinherits : Inherits cached.klasses 24 16 8 := .up (by decide) hsub rfl rfl .self
  obtain ⟨vm', hl⟩ := ((lookup_transparent (.install hrun hinstall) 8 24).1 (some 40)).mpr
    (hinherits.walks_install hinstall)
  exact ⟨((lookup_transparent hrun 8 24).1 (some 32)).mpr hwalk, redefined, vm', hinstall, hl⟩

/-- After an install, the class and every class that inherits from it find the new method. -/
theorem lookup_after_install {vm vm' : Vm} (hrun : LookupRun vm) {ρ : Equiv.Perm Addr}
    {owner selector m k : Addr} (h : vm.installMethod ρ owner selector m = some vm')
    (hi : Inherits vm.klasses selector owner k) :
    ∃ vm'', Lookups vm' (ρ k) (ρ selector) (some (ρ m)) vm'' :=
  (hi.walks_install h).lookups (hrun.install h).cacheTrue

theorem lookup_after_install_inherited :
    let vm : Vm :=
      { klasses := fun a => if a = 8 then some ⟨.ref 16, fun _ => none⟩
          else if a = 16 then some ⟨.nil, fun _ => none⟩ else none
        methods := fun a => if a = 40 then some ⟨.nil, false, [], []⟩ else none
        arrays := fun _ => none
        lookupCache := LookupCache.flush
        icEpoch := 0
        depth := 0 }
    ∃ vm' vm'', vm.installMethod (Equiv.refl Addr) 16 24 40 = some vm' ∧
      Lookups vm' 8 24 (some 40) vm'' := by
  intro vm
  have hsub : vm.klasses 8 = some ⟨.ref 16, fun _ => none⟩ := rfl
  obtain ⟨vm', h⟩ := Option.isSome_iff_exists.mp
    (rfl : (vm.installMethod (Equiv.refl Addr) 16 24 40).isSome = true)
  obtain ⟨vm'', hl⟩ := lookup_after_install (.start rfl) h (.up (by decide) hsub rfl rfl .self)
  exact ⟨vm', vm'', h, hl⟩

end WinVm.Interpreter
