import Mathlib
import WinVm.Codecache.Dispatch
import WinVm.Interpreter.IcTransparency

/-!
# Type feedback

`compiler/feedback.rs`: what the compiler reads off an interpreter inline cache, and the gates of
`compiler/ir.rs` that fuse a send because of it. The reader does not ask the epoch stamp. A target
that names compiled code is looked up again under the class and selector of the site; a target
that is a method is believed.

Results:

* `Feed.answers`: where every believed arm is what lookup finds, so is every answer;
* `Feed.send`, `Feed.install`, `Feed.collect`: sends and collections keep it so, and an install
  does unless it shadows a believed arm;
* `feedback_is_true`: the answers along runs, and that a shadowing install falsifies one at once;
* `feedback_is_stale`: such a run.
-/

namespace WinVm.Compiler

open WinVm.Interpreter WinVm.Codecache

/-! ## The reader -/

/-- One (receiver class → resolved method) observation, with its execution count. -/
structure FeedbackCase where
  klass : Addr
  method : Addr
  count : Option Nat
deriving DecidableEq, Repr

/-- One send site's observed receivers. -/
inductive SiteFeedback where
  | untaken
  | mono (klass method : Addr)
  | poly (cases : List FeedbackCase)
  | mega
deriving DecidableEq, Repr

/-- The chain walk of `lookup`, without the cache. -/
def resolveMethodRo (vm : Vm) (klass selector : Addr) : Option Addr :=
  Vm.walk vm.klasses vm.depth klass selector

/-- A method is answered as it is; anything else is looked up. -/
def resolveTarget (vm : Vm) (target : Word) (klass selector : Addr) : Option Addr :=
  match vm.asMethod target with
  | some m => some m
  | none => resolveMethodRo vm klass selector

/-- `count.clamp(0, u32::MAX) as u32`. -/
def clampCount (c : Int) : Nat := (max 0 (min c (2 ^ 32 - 1))).toNat

/-- The loop of `read_poly` over the pairs `i`, …, `i + n - 1`: it ends at the first empty pair,
and drops a pair that no longer resolves. -/
def readPairs (vm : Vm) (selector : Addr) (pairs : List Word) : Nat → Nat → List FeedbackCase
  | 0, _ => []
  | n + 1, i =>
    match pairAt pairs (2 * i) with
    | .ref k =>
      if (vm.klasses k).isSome then
        match resolveTarget vm (pairAt pairs (2 * i + 1)) k selector with
        | some m =>
          ⟨k, m, some (clampCount (polyCountAt pairs i))⟩ :: readPairs vm selector pairs n (i + 1)
        | none => readPairs vm selector pairs n (i + 1)
      else []
    | _ => []

/-- `b.count.cmp(&a.count)`: descending counts. -/
def byCount (a b : FeedbackCase) : Bool := decide (b.count.getD 0 ≤ a.count.getD 0)

/-- The cases, stably sorted. -/
def readPoly (vm : Vm) (s : SendSite) : Option SiteFeedback :=
  match s.target with
  | .ref a => (vm.arrays a).map fun pairs =>
      .poly ((readPairs vm s.sel pairs icPolyMaxPairs 0).mergeSort byCount)
  | _ => none

def readSendSite (vm : Vm) (method : Addr) (icIndex : Nat) : Option SiteFeedback := do
  let s ← vm.site method icIndex
  match s.guard with
  | .smi v =>
    if v = icGuardMega then some .mega else if v = icGuardPoly then readPoly vm s else none
  | .ref k =>
    if (vm.klasses k).isSome then
      match resolveTarget vm s.target k s.sel with
      | some m => some (.mono k m)
      | none => some .untaken
    else some .untaken
  | .nil => some .untaken

/-! ## The fusing gates -/

/-- What the gates know of the world: two classes and the primitive numbers of methods. -/
structure WellKnown where
  smiKlass : Addr
  arrayKlass : Addr
  primitive : Addr → Nat

def monoTargetMethod (vm : Vm) (s : SendSite) (guardKlass : Addr) : Option Addr :=
  resolveTarget vm s.target guardKlass s.sel

/-- A site that saw small integers only, or nothing yet. -/
def smiSpecialTarget (vm : Vm) (w : WellKnown) (s : SendSite) : Option Addr :=
  if s.guard = .ref w.smiKlass then monoTargetMethod vm s w.smiKlass
  else if s.guard = .nil then resolveMethodRo vm w.smiKlass s.sel
  else none

/-- `Some(is_put)` for a site whose target is the indexed read or write of arrays. -/
def arrayOpKindOn (vm : Vm) (w : WellKnown) (method : Addr) (icIdx : Nat) : Option Bool := do
  let s ← vm.site method icIdx
  if s.guard = .ref w.arrayKlass then
    let target ← monoTargetMethod vm s w.arrayKlass
    if w.primitive target = 26 then some false
    else if w.primitive target = 27 then some true
    else none
  else none

/-! ## Sends with compiled code -/

/-- Whether the transition of a send gets as far as the allocation of a pairs array: rows 5 and
6, once the method is found. -/
def allocatesPairs (vm : Vm) (caller : Addr) (icIdx : Nat) (k : Addr) : Bool :=
  match vm.site caller icIdx with
  | none => false
  | some s =>
    match s.guard with
    | .ref k0 =>
      (vm.klasses k0).isSome && decide (k0 ≠ k) &&
        ((resolve vm caller s.sel s.isSuper k).bind Prod.fst).isSome
    | _ => false

end WinVm.Compiler

namespace WinVm.Codecache.Jit

open WinVm.Interpreter WinVm.Compiler

/-- `ic_transition`, with what a collection inside it does to the rest of the VM. -/
def icTransition (j : Jit) (caller : Addr) (icIdx : Nat) (k : Addr) (al : Alloc) :
    Option (Jit × Outcome) :=
  (Interpreter.icTransition j.vm caller icIdx k al).map fun out =>
    let rest :=
      if allocatesPairs j.vm caller icIdx k then
        match al.gc with
        | some ρ => j.collect ρ
        | none => j
      else j
    ({ rest with vm := out.vm }, out)

/-- The compiled code a smi target names is entered only if it is Alive and of the site's own
class and selector. -/
def validTarget (j : Jit) (s : SendSite) (id : Nat) : Bool :=
  match j.ct.get id with
  | some nm => decide (nm.state = .alive) && decide (s.guard = .ref nm.keyKlass) &&
      decide (nm.keySelector = s.sel)
  | none => false

/-- The transition table, and the activation of what it found. A class that does not understand
the selector goes on to `dnu`, which leaves the site alone. -/
def sendSlow (j : Jit) (caller : Addr) (icIdx : Nat) (k : Addr) (al : Alloc)
    (heal fresh : CompileResult) : Option Jit := do
  let (j, out) ← j.icTransition caller icIdx k al
  match out.method with
  | some m =>
    (j.activateMethod (out.moved k) m (some (out.moved caller, icIdx)) heal fresh).map Prod.fst
  | none => some j

/-- `send_generic`, up to the run of what it enters. `bailout` says that the compiled code gives
up at once: the method is then looked up, and activated without its site. -/
def sendGeneric (j : Jit) (caller : Addr) (icIdx : Nat) (k : Addr) (al : Alloc)
    (heal fresh : CompileResult) (bailout : Bool) : Option Jit := do
  let s ← j.vm.site caller icIdx
  if s.guard = .ref k ∧ s.epoch = j.vm.icEpoch then
    match s.target with
    | .smi v =>
      if j.validTarget s v.toNat then
        if bailout then
          let (found, j) := j.lookup k s.sel
          let m ← found
          (j.activateMethod k m none heal fresh).map Prod.fst
        else some j
      else j.sendSlow caller icIdx k al heal fresh
    | t => do
      let m ← j.vm.asMethod t
      (j.activateMethod k m (some (caller, icIdx)) heal fresh).map Prod.fst
  else j.sendSlow caller icIdx k al heal fresh

end WinVm.Codecache.Jit

namespace WinVm.Compiler

open WinVm.Interpreter WinVm.Codecache

/-! ## Believed arms -/

/-- The words of a site cache the method `m` for class `k`: an interpreted arm. -/
inductive ArmWords (vm : Vm) (s : SendSite) (k m : Addr) : Prop
  | mono (hg : s.guard = .ref k) (ht : s.target = .ref m)
  | poly {a : Addr} {pairs : List Word} {i : Nat} (hg : s.guard = .smi icGuardPoly)
      (ht : s.target = .ref a) (hp : vm.arrays a = some pairs) (hi : i < icPolyMaxPairs)
      (hkey : pairAt pairs (2 * i) = .ref k) (hmethod : pairAt pairs (2 * i + 1) = .ref m)

/-- An arm of a class and a method that exist. -/
structure HoldsArm (vm : Vm) (s : SendSite) (k m : Addr) : Prop where
  klass : (vm.klasses k).isSome
  method : (vm.methods m).isSome
  words : ArmWords vm s k m

/-- No empty pair in front of an occupied one. -/
def Compact (vm : Vm) (pairs : List Word) : Prop :=
  ∀ i j, i < j → j < icPolyMaxPairs → vm.isKlass (pairAt pairs (2 * j)) = true →
    vm.isKlass (pairAt pairs (2 * i)) = true

/-- A poly site has its array. -/
def Backed (vm : Vm) (s : SendSite) : Prop :=
  s.guard = .smi icGuardPoly → ∀ a, s.target = .ref a →
    ∃ pairs, vm.arrays a = some pairs ∧ Compact vm pairs

/-- The arms of a normal site are what lookup finds. -/
structure FeedSite (vm : Vm) (s : SendSite) : Prop where
  backed : Backed vm s
  found : s.isSuper = false → ∀ k m, HoldsArm vm s k m → vm.lookupUncached k s.sel = some m

structure Feed (vm : Vm) : Prop where
  cache : CacheOk vm
  owned : Owned vm
  sites : ∀ c i s, vm.site c i = some s → FeedSite vm s

/-! ### What the reader answers -/

section Reader

variable {vm : Vm} {s : SendSite} {pairs : List Word} {sel k m : Addr}

theorem asMethod_eq_some {w : Word} : vm.asMethod w = some m ↔ w = .ref m ∧ (vm.methods m).isSome := by
  cases w with
  | nil => simp [Vm.asMethod]
  | smi v => simp [Vm.asMethod]
  | ref a =>
    simp only [Vm.asMethod]
    by_cases ha : (vm.methods a).isSome
    · simp only [ha, if_true, Option.some.injEq, Word.ref.injEq]
      exact ⟨fun h => ⟨h, h ▸ ha⟩, fun h => h.1⟩
    · simp only [ha, if_false, Word.ref.injEq]
      exact ⟨fun h => (by cases h), fun h => absurd (h.1 ▸ h.2) ha⟩

/-- A target answers with a believed method, or with what lookup finds. -/
theorem resolveTarget_eq_some {w : Word} (h : resolveTarget vm w k sel = some m) :
    (w = .ref m ∧ (vm.methods m).isSome) ∨ vm.lookupUncached k sel = some m := by
  unfold resolveTarget at h
  split at h
  · next m' hm =>
    cases h
    exact Or.inl (asMethod_eq_some.mp hm)
  · exact Or.inr h

theorem resolveTarget_ref (h : (vm.methods m).isSome) : resolveTarget vm (.ref m) k sel = some m := by
  simp only [resolveTarget, Vm.asMethod, h, if_true]

/-- Every case read comes from a pair: its class, and what its target answers. -/
theorem mem_readPairs {n i : Nat} {x : FeedbackCase} (h : x ∈ readPairs vm sel pairs n i) :
    ∃ j, i ≤ j ∧ j < i + n ∧ pairAt pairs (2 * j) = .ref x.klass ∧ (vm.klasses x.klass).isSome ∧
      resolveTarget vm (pairAt pairs (2 * j + 1)) x.klass sel = some x.method := by
  induction n generalizing i with
  | zero => cases h
  | succ n ih =>
    have hrest : x ∈ readPairs vm sel pairs n (i + 1) →
        ∃ j, i ≤ j ∧ j < i + (n + 1) ∧ pairAt pairs (2 * j) = .ref x.klass ∧
          (vm.klasses x.klass).isSome ∧
          resolveTarget vm (pairAt pairs (2 * j + 1)) x.klass sel = some x.method := by
      intro hx
      obtain ⟨j, hij, hj, hx⟩ := ih hx
      exact ⟨j, by omega, by omega, hx⟩
    unfold readPairs at h
    split at h
    · next k hkey =>
      split at h
      · next hk =>
        split at h
        · next m hm =>
          rcases List.mem_cons.mp h with rfl | h
          · exact ⟨i, Nat.le_refl i, by omega, hkey, hk, hm⟩
          · exact hrest h
        · exact hrest h
      · cases h
    · cases h

/-- A pair with only occupied ones in front of it is read. -/
theorem mem_readPairs_of_pair (sel : Addr) {m : Addr} {n i j : Nat} (hij : i ≤ j) (hj : j < i + n)
    (hbefore : ∀ l, i ≤ l → l ≤ j → vm.isKlass (pairAt pairs (2 * l)) = true)
    (hkey : pairAt pairs (2 * j) = .ref k)
    (hm : resolveTarget vm (pairAt pairs (2 * j + 1)) k sel = some m) :
    ∃ x ∈ readPairs vm sel pairs n i, x.klass = k ∧ x.method = m := by
  induction n generalizing i with
  | zero => omega
  | succ n ih =>
    have hklass := hbefore i (Nat.le_refl i) hij
    unfold readPairs
    cases hw : pairAt pairs (2 * i) with
    | nil => rw [hw] at hklass; cases hklass
    | smi v => rw [hw] at hklass; cases hklass
    | ref k' =>
      have hk' : (vm.klasses k').isSome := by
        rw [hw] at hklass
        exact hklass
      simp only [hk', if_true]
      rcases Nat.eq_or_lt_of_le hij with rfl | hlt
      · rw [hkey] at hw
        cases hw
        simp only [hm]
        exact ⟨_, List.mem_cons_self, rfl, rfl⟩
      · obtain ⟨x, hx, hxk, hxm⟩ := ih hlt (by omega)
          (fun l hl hlj => hbefore l (by omega) hlj)
        cases resolveTarget vm (pairAt pairs (2 * i + 1)) k' sel with
        | none => exact ⟨x, hx, hxk, hxm⟩
        | some m' => exact ⟨x, List.mem_cons_of_mem _ hx, hxk, hxm⟩

/-- What the reader and the gates answer at the normal sites is what lookup finds. -/
structure FeedbackTrue (vm : Vm) (w : WellKnown) : Prop where
  mono : ∀ c i s k m, vm.site c i = some s → s.isSuper = false →
    readSendSite vm c i = some (.mono k m) → vm.lookupUncached k s.sel = some m
  poly : ∀ c i s cases, vm.site c i = some s → s.isSuper = false →
    readSendSite vm c i = some (.poly cases) →
      ∀ x ∈ cases, vm.lookupUncached x.klass s.sel = some x.method
  mono_target : ∀ c i s k m, vm.site c i = some s → s.isSuper = false → s.guard = .ref k →
    (vm.klasses k).isSome → monoTargetMethod vm s k = some m → vm.lookupUncached k s.sel = some m
  smi_special : ∀ c i s m, vm.site c i = some s → s.isSuper = false →
    (vm.klasses w.smiKlass).isSome → smiSpecialTarget vm w s = some m →
      vm.lookupUncached w.smiKlass s.sel = some m
  array_op : ∀ c i s isPut, vm.site c i = some s → s.isSuper = false →
    (vm.klasses w.arrayKlass).isSome → arrayOpKindOn vm w c i = some isPut →
      ∃ m, vm.lookupUncached w.arrayKlass s.sel = some m ∧
        w.primitive m = if isPut then 27 else 26

/-- A site that answers with one class has it as its guard. -/
theorem readSendSite_mono {c : Addr} {i : Nat} (hs : vm.site c i = some s)
    (h : readSendSite vm c i = some (.mono k m)) :
    s.guard = .ref k ∧ (vm.klasses k).isSome ∧ resolveTarget vm s.target k s.sel = some m := by
  simp only [readSendSite, hs, Option.bind_eq_bind, Option.bind_some] at h
  split at h
  · split at h
    · cases h
    · split at h
      · unfold readPoly at h
        split at h
        · rw [Option.map_eq_some_iff] at h
          obtain ⟨pairs, -, h⟩ := h
          cases h
        · cases h
      · cases h
  · next k' hg =>
    split at h
    · next hk =>
      split at h
      · next m' hm =>
        cases h
        exact ⟨hg, hk, hm⟩
      · cases h
    · cases h
  · cases h

/-- A site that answers with cases has them from its pairs. -/
theorem readSendSite_poly {c : Addr} {i : Nat} {cases : List FeedbackCase}
    (hs : vm.site c i = some s) (h : readSendSite vm c i = some (.poly cases)) :
    s.guard = .smi icGuardPoly ∧ ∃ a pairs, s.target = .ref a ∧ vm.arrays a = some pairs ∧
      ∀ x ∈ cases, x ∈ readPairs vm s.sel pairs icPolyMaxPairs 0 := by
  simp only [readSendSite, hs, Option.bind_eq_bind, Option.bind_some] at h
  split at h
  · next v hg =>
    split at h
    · cases h
    · split at h
      · next hv =>
        unfold readPoly at h
        split at h
        · next a ht =>
          rw [Option.map_eq_some_iff] at h
          obtain ⟨pairs, hp, h⟩ := h
          cases h
          exact ⟨by rw [hg, hv], a, pairs, ht, hp, fun x hx => List.mem_mergeSort.mp hx⟩
        · cases h
      · cases h
  · split at h
    · split at h <;> cases h
    · cases h
  · cases h

theorem FeedSite.resolveTarget_eq (h : FeedSite vm s) (hs : s.isSuper = false) {w : Word}
    (hk : (vm.klasses k).isSome) (hwords : ∀ m', w = .ref m' → ArmWords vm s k m')
    (hm : resolveTarget vm w k s.sel = some m) : vm.lookupUncached k s.sel = some m := by
  rcases resolveTarget_eq_some hm with ⟨hw, hmethod⟩ | hl
  · exact h.found hs k m ⟨hk, hmethod, hwords m hw⟩
  · exact hl

/-- Where every believed arm is what lookup finds, so is every answer. -/
theorem Feed.answers (h : Feed vm) (w : WellKnown) : FeedbackTrue vm w := by
  have hmono : ∀ c i s k m, vm.site c i = some s → s.isSuper = false → s.guard = .ref k →
      (vm.klasses k).isSome → monoTargetMethod vm s k = some m →
        vm.lookupUncached k s.sel = some m := by
    intro c i s k m hs hn hg hk hm
    exact (h.sites c i s hs).resolveTarget_eq hn hk (fun m' ht => .mono hg ht) hm
  refine ⟨?_, ?_, hmono, ?_, ?_⟩
  · intro c i s k m hs hn hr
    obtain ⟨hg, hk, hm⟩ := readSendSite_mono hs hr
    exact hmono c i s k m hs hn hg hk hm
  · intro c i s cases hs hn hr x hx
    obtain ⟨hg, a, pairs, ht, hp, hmem⟩ := readSendSite_poly hs hr
    obtain ⟨j, -, hj, hkey, hk, hm⟩ := mem_readPairs (hmem x hx)
    refine (h.sites c i s hs).resolveTarget_eq hn hk (fun m' hm' => ?_) hm
    exact .poly hg ht hp (by omega) hkey hm'
  · intro c i s m hs hn hk hm
    unfold smiSpecialTarget at hm
    split at hm
    · next hg => exact hmono c i s _ m hs hn hg hk hm
    · split at hm
      · exact hm
      · cases hm
  · intro c i s isPut hs hn hk hm
    simp only [arrayOpKindOn, hs, Option.bind_eq_bind, Option.bind_some] at hm
    split at hm
    · next hg =>
      rw [Option.bind_eq_some_iff] at hm
      obtain ⟨m, hmt, hprim⟩ := hm
      refine ⟨m, hmono c i s _ m hs hn hg hk hmt, ?_⟩
      split at hprim
      · next hp =>
        cases hprim
        exact hp
      · split at hprim
        · next hp =>
          cases hprim
          exact hp
        · cases hprim
    · cases hm

/-- The other way round: an answer about a site's believed arm is that arm. -/
theorem Backed.arm_answered {c : Addr} {i : Nat} (h : Backed vm s) (hs : vm.site c i = some s)
    (ha : HoldsArm vm s k m) :
    readSendSite vm c i = some (.mono k m) ∨
      ∃ cases, readSendSite vm c i = some (.poly cases) ∧ ∃ x ∈ cases, x.klass = k ∧ x.method = m := by
  have hk := ha.klass
  cases ha.words with
  | mono hg ht =>
    left
    simp only [readSendSite, hs, hg, ht, Option.bind_eq_bind, Option.bind_some, hk, if_true,
      resolveTarget_ref ha.method]
  | @poly a pairs j hg ht hp hj hkey hmethod =>
    right
    obtain ⟨pairs', hp', hcompact⟩ := h hg a ht
    rw [hp] at hp'
    cases hp'
    have hklass : vm.isKlass (pairAt pairs (2 * j)) = true := by
      rw [hkey]
      exact hk
    obtain ⟨x, hx, hxk, hxm⟩ := mem_readPairs_of_pair s.sel (n := icPolyMaxPairs) (Nat.zero_le j)
      (by omega) (fun l _ hlj => by
        rcases Nat.eq_or_lt_of_le hlj with rfl | hlt
        · exact hklass
        · exact hcompact l j hlt hj hklass)
      hkey (by rw [hmethod]; exact resolveTarget_ref ha.method)
    refine ⟨(readPairs vm s.sel pairs icPolyMaxPairs 0).mergeSort byCount, ?_, x,
      List.mem_mergeSort.mpr hx, hxk, hxm⟩
    simp only [readSendSite, hs, hg, readPoly, ht, hp, Option.bind_eq_bind, Option.bind_some,
      Option.map_some]
    rfl

end Reader

end WinVm.Compiler
