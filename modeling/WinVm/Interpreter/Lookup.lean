import Mathlib.Logic.Equiv.Basic
import Mathlib.Logic.Function.Basic

/-!
# Method lookup

Classes, methods, the address-keyed `LookupCache` and the superclass-chain walk of
`runtime/lookup.rs`. Heap words hold addresses, and a moving collection is a
permutation of addresses applied to every object and every reference in it: the
references a collector updates are exactly those of the heap, while the lookup
cache keys raw addresses and is flushed. A method dictionary is the finite map it
implements.

Results:

* `lookup_eq`: on a cache that only holds true facts, `lookup` is the uncached walk;
* `lookupUncached_collect`: the walk commutes with a moving collection.
-/

namespace WinVm.Interpreter

abbrev Addr := Nat

/-- A tagged heap word, as far as dispatch reads it. -/
inductive Word where
  | nil
  | smi (v : Int)
  | ref (a : Addr)
deriving DecidableEq, Repr

/-- A class: its superclass field (`nil` at the root) and its method dictionary. -/
structure Klass where
  superclass : Word
  methods : Addr → Option Addr

/-- One send site of a method: whether its bytecode is a super send, and the four
words of its inline cache (selector, packed meta smi, guard, target). -/
structure SendSite where
  isSuper : Bool
  sel : Addr
  info : Nat
  guard : Word
  target : Word
deriving DecidableEq, Repr

/-- A compiled method or block, with its literals and its `ics` array. -/
structure Method where
  holder : Word
  isBlock : Bool
  literals : List Word
  ics : List SendSite

structure CacheEntry where
  klass : Addr
  selector : Addr
  method : Addr
deriving DecidableEq, Repr

/-- Two entries (primary, victim) an index; `none` is `CacheEntry::EMPTY`. -/
abbrev LookupCache := Nat → Option CacheEntry

/-- The part of the VM state dispatch depends on: the heap by kind of object, the lookup
cache and the epoch. `depth` bounds the length of superclass chains and the nesting of
block literals, both of which the source walks without a bound of its own. -/
structure Vm where
  klasses : Addr → Option Klass
  methods : Addr → Option Method
  arrays : Addr → Option (List Word)
  lookupCache : LookupCache
  icEpoch : Nat
  depth : Nat

/-! ## The lookup cache -/

namespace LookupCache

def size : Nat := 4096

def hash (klass selector : Addr) : Nat :=
  ((klass >>> 3) ^^^ (selector >>> 3)) % size

/-- Whether an entry answers for `(klass, selector)`. -/
def answer (e : Option CacheEntry) (klass selector : Addr) : Option Addr :=
  match e with
  | some e => if e.klass = klass ∧ e.selector = selector then some e.method else none
  | none => none

/-- Primary, then victim; a victim hit is swapped into the primary slot. -/
def probe (c : LookupCache) (klass selector : Addr) : Option Addr × LookupCache :=
  let h := hash klass selector
  match answer (c (2 * h)) klass selector with
  | some m => (some m, c)
  | none =>
    match answer (c (2 * h + 1)) klass selector with
    | some m => (some m, Function.update (Function.update c (2 * h) (c (2 * h + 1))) (2 * h + 1)
        (c (2 * h)))
    | none => (none, c)

/-- Demote the primary into the victim slot, write the new entry as primary. -/
def insert (c : LookupCache) (klass selector method : Addr) : LookupCache :=
  let h := hash klass selector
  Function.update (Function.update c (2 * h + 1) (c (2 * h))) (2 * h)
    (some ⟨klass, selector, method⟩)

def flush : LookupCache := fun _ => none

end LookupCache

/-! ## Lookup -/

namespace Vm

/-- The chain walk from `k`, at most `fuel` classes long. -/
def walk (klasses : Addr → Option Klass) : Nat → Addr → Addr → Option Addr
  | 0, _, _ => none
  | fuel + 1, k, sel =>
    match klasses k with
    | none => none
    | some klass =>
      match klass.methods sel with
      | some m => some m
      | none =>
        match klass.superclass with
        | .ref s => walk klasses fuel s sel
        | _ => none

/-- The raw dictionary-chain walk without the cache. -/
def lookupUncached (vm : Vm) (klass selector : Addr) : Option Addr :=
  walk vm.klasses vm.depth klass selector

/-- Cache probe, then the chain walk; a hit is cached under the receiver class, a miss
is not. -/
def lookup (vm : Vm) (klass selector : Addr) : Option Addr × Vm :=
  match vm.lookupCache.probe klass selector with
  | (some m, c) => (some m, { vm with lookupCache := c })
  | (none, c) =>
    match lookupUncached vm klass selector with
    | some m => (some m, { vm with lookupCache := c.insert klass selector m })
    | none => (none, { vm with lookupCache := c })

end Vm

/-! ## Moving collections -/

def Word.move (ρ : Equiv.Perm Addr) : Word → Word
  | nil => nil
  | smi v => smi v
  | ref a => ref (ρ a)

def Klass.move (ρ : Equiv.Perm Addr) (k : Klass) : Klass :=
  { superclass := k.superclass.move ρ, methods := fun s => (k.methods (ρ.symm s)).map ρ }

def SendSite.move (ρ : Equiv.Perm Addr) (s : SendSite) : SendSite :=
  { s with sel := ρ s.sel, guard := s.guard.move ρ, target := s.target.move ρ }

def Method.move (ρ : Equiv.Perm Addr) (m : Method) : Method :=
  { m with holder := m.holder.move ρ, literals := m.literals.map (Word.move ρ),
           ics := m.ics.map (SendSite.move ρ) }

/-- A collection that moves the object at `a` to `ρ a`, with `gc_epilogue`'s flush. -/
def Vm.collect (vm : Vm) (ρ : Equiv.Perm Addr) : Vm :=
  { vm with
    klasses := fun a => (vm.klasses (ρ.symm a)).map (Klass.move ρ)
    methods := fun a => (vm.methods (ρ.symm a)).map (Method.move ρ)
    arrays := fun a => (vm.arrays (ρ.symm a)).map (List.map (Word.move ρ))
    lookupCache := LookupCache.flush }

/-! ## Installing a method -/

/-- `m.set_holder(klass)`. -/
def setHolder (methods : Addr → Option Method) (m : Addr) (holder : Word) : Addr → Option Method :=
  Function.update methods m ((methods m).map fun mm => { mm with holder })

/-- Every block reachable through `m`'s literals gets the holder, blocks nest. -/
def patchBlockHolders (holder : Word) : Nat → (Addr → Option Method) → Addr → Addr → Option Method
  | 0, methods, _ => methods
  | depth + 1, methods, m =>
    match methods m with
    | none => methods
    | some mm => mm.literals.foldl (fun methods w =>
        match w with
        | .ref b =>
          match methods b with
          | some blk =>
            if blk.isBlock then patchBlockHolders holder depth (setHolder methods b holder) b
            else methods
          | none => methods
        | _ => methods) methods

/-- `install_method`: growing the dictionary may collect, after which the arguments are
re-read through their handles; then the dictionary entry, the holders, the flush and the
epoch bump. -/
def Vm.installMethod (vm : Vm) (ρ : Equiv.Perm Addr) (klass selector m : Addr) : Option Vm :=
  let vm := vm.collect ρ
  match vm.klasses (ρ klass), vm.methods (ρ m) with
  | some k, some _ =>
    let k := { k with methods := Function.update k.methods (ρ selector) (some (ρ m)) }
    some { vm with
      klasses := Function.update vm.klasses (ρ klass) (some k)
      methods := patchBlockHolders (.ref (ρ klass)) vm.depth
        (setHolder vm.methods (ρ m) (.ref (ρ klass))) (ρ m)
      lookupCache := LookupCache.flush
      icEpoch := vm.icEpoch + 1 }
  | _, _ => none

/-! ## The cache is transparent -/

/-- Every entry of the cache is what the uncached walk finds. -/
def CacheOk (vm : Vm) : Prop :=
  ∀ i e, vm.lookupCache i = some e → vm.lookupUncached e.klass e.selector = some e.method

theorem CacheOk.flush {vm : Vm} (h : vm.lookupCache = LookupCache.flush) : CacheOk vm := by
  intro i e he
  rw [h] at he
  cases he

theorem LookupCache.answer_eq_some {e : Option CacheEntry} {klass selector m : Addr}
    (h : answer e klass selector = some m) : e = some ⟨klass, selector, m⟩ := by
  cases e with
  | none => cases h
  | some e =>
    simp only [answer] at h
    split at h
    · next hk =>
      obtain ⟨rfl, rfl⟩ := hk
      cases h
      rfl
    · cases h

/-- A probe answers from one of the entries, and only reorders them. -/
theorem LookupCache.probe_spec (c : LookupCache) (klass selector : Addr) :
    (∀ m, (c.probe klass selector).1 = some m → ∃ i, c i = some ⟨klass, selector, m⟩) ∧
    ∀ i e, (c.probe klass selector).2 i = some e → ∃ j, c j = some e := by
  simp only [probe]
  cases hp : answer (c (2 * hash klass selector)) klass selector with
  | some m =>
    refine ⟨fun m' h => ?_, fun i e h => ⟨i, h⟩⟩
    cases h
    exact ⟨_, answer_eq_some hp⟩
  | none =>
    cases hv : answer (c (2 * hash klass selector + 1)) klass selector with
    | none => exact ⟨fun m' h => (by cases h), fun i e h => ⟨i, h⟩⟩
    | some m =>
      refine ⟨fun m' h => ?_, fun i e h => ?_⟩
      · cases h
        exact ⟨_, answer_eq_some hv⟩
      · simp only [Function.update_apply] at h
        split at h
        · exact ⟨_, h⟩
        · split at h
          · exact ⟨_, h⟩
          · exact ⟨_, h⟩

theorem LookupCache.insert_spec {c : LookupCache} {klass selector m i : Addr} {e : CacheEntry}
    (h : c.insert klass selector m i = some e) : e = ⟨klass, selector, m⟩ ∨ ∃ j, c j = some e := by
  simp only [insert, Function.update_apply] at h
  split at h
  · cases h
    exact Or.inl rfl
  · split at h
    · exact Or.inr ⟨_, h⟩
    · exact Or.inr ⟨_, h⟩

/-- On a true cache, `lookup` is the uncached walk, and leaves a true cache. -/
theorem lookup_eq {vm : Vm} (h : CacheOk vm) (klass selector : Addr) :
    ∃ c, vm.lookup klass selector = (vm.lookupUncached klass selector, { vm with lookupCache := c }) ∧
      CacheOk { vm with lookupCache := c } := by
  obtain ⟨hhit, hkeep⟩ := vm.lookupCache.probe_spec klass selector
  generalize hp : vm.lookupCache.probe klass selector = p at hhit hkeep
  obtain ⟨r, c⟩ := p
  have hc : CacheOk { vm with lookupCache := c } := by
    intro i e he
    obtain ⟨j, hj⟩ := hkeep i e he
    exact h j e hj
  cases r with
  | some m =>
    obtain ⟨i, hi⟩ := hhit m rfl
    refine ⟨c, ?_, hc⟩
    simp only [Vm.lookup, hp, h i _ hi]
  | none =>
    cases hw : vm.lookupUncached klass selector with
    | none => exact ⟨c, by simp only [Vm.lookup, hp, hw], hc⟩
    | some m =>
      refine ⟨c.insert klass selector m, by simp only [Vm.lookup, hp, hw], ?_⟩
      intro i e he
      rcases LookupCache.insert_spec he with rfl | ⟨j, hj⟩
      · exact hw
      · exact hc j e hj

/-! ## The walk under collections and installs -/

theorem walk_collect (klasses : Addr → Option Klass) (ρ : Equiv.Perm Addr) (fuel : Nat)
    (k sel : Addr) :
    Vm.walk (fun a => (klasses (ρ.symm a)).map (Klass.move ρ)) fuel (ρ k) (ρ sel) =
      (Vm.walk klasses fuel k sel).map ρ := by
  induction fuel generalizing k with
  | zero => rfl
  | succ fuel ih =>
    simp only [Vm.walk, Equiv.symm_apply_apply]
    cases klasses k with
    | none => rfl
    | some klass =>
      simp only [Option.map_some, Klass.move, Equiv.symm_apply_apply]
      cases klass.methods sel with
      | some m => rfl
      | none =>
        cases klass.superclass with
        | nil => rfl
        | smi v => rfl
        | ref s => exact ih s

theorem lookupUncached_collect (vm : Vm) (ρ : Equiv.Perm Addr) (k sel : Addr) :
    (vm.collect ρ).lookupUncached (ρ k) (ρ sel) = (vm.lookupUncached k sel).map ρ :=
  walk_collect vm.klasses ρ vm.depth k sel

/-- `klasses'` has the classes of `klasses`, with methods added. -/
def MoreMethods (klasses klasses' : Addr → Option Klass) : Prop :=
  ∀ k klass, klasses k = some klass → ∃ klass', klasses' k = some klass' ∧
    klass'.superclass = klass.superclass ∧
    ∀ sel, (klass.methods sel).isSome → (klass'.methods sel).isSome

/-- Adding methods makes no lookup fail that succeeded before. -/
theorem MoreMethods.walk_isSome {klasses klasses' : Addr → Option Klass}
    (hmore : MoreMethods klasses klasses') {fuel : Nat} {k sel : Addr}
    (h : (Vm.walk klasses fuel k sel).isSome) : (Vm.walk klasses' fuel k sel).isSome := by
  induction fuel generalizing k with
  | zero => exact h
  | succ fuel ih =>
    simp only [Vm.walk] at h ⊢
    cases hk : klasses k with
    | none =>
      rw [hk] at h
      cases h
    | some klass =>
      obtain ⟨klass', hk', hsuper, hmethods⟩ := hmore k klass hk
      simp only [hk] at h
      simp only [hk']
      cases hm' : klass'.methods sel with
      | some m => rfl
      | none =>
        have hm : klass.methods sel = none := by
          cases hm : klass.methods sel with
          | none => rfl
          | some m =>
            have := hmethods sel (by rw [hm]; rfl)
            rw [hm'] at this
            cases this
        simp only [hm] at h
        simp only [hsuper]
        cases hsc : klass.superclass with
        | ref s =>
          simp only [hsc] at h
          exact ih h
        | nil =>
          simp only [hsc] at h
          cases h
        | smi v =>
          simp only [hsc] at h
          cases h

theorem moreMethods_install {klasses : Addr → Option Klass} {K : Addr} {klass : Klass} (s m : Addr)
    (hK : klasses K = some klass) :
    MoreMethods klasses (Function.update klasses K
      (some { klass with methods := Function.update klass.methods s (some m) })) := by
  intro k kl hk
  by_cases he : k = K
  · subst he
    obtain rfl : klass = kl := by
      rw [hK] at hk
      exact Option.some.inj hk
    refine ⟨_, Function.update_self .., rfl, fun sel hsel => ?_⟩
    simp only [Function.update_apply]
    split
    · rfl
    · exact hsel
  · exact ⟨kl, by rw [Function.update_of_ne he, hk], rfl, fun _ h => h⟩

end WinVm.Interpreter
