import Mathlib.Data.List.Perm.Basic
import Mathlib.Data.List.Sort
import WinVm.Compiler.Intervals

/-!
# The linear scan

`allocate` and `assign_residents` hand out registers and slots so that no two intervals that
overlap share one. The scan keeps `Scan.Sound`: the registers of the active intervals and the
free ones make up the pool, and an interval that gave its register back ended before every
interval still to come.

Results:

* `allocate_sound`: the allocator returns, every interval has a place, those that cross a
  safepoint have a slot, and intervals that share a register do not meet;
* `assignResidents_spec`: intervals that share a resident register at most touch, and no
  resident register is an assigned one.
-/

namespace WinVm.Compiler

/-! ## The scan -/

namespace Scan

/-- The register an interval holds. -/
def regOf (assigned : Nat → Option Assignment) (j : Nat) : Option Nat :=
  match assigned j with
  | some (.reg r) => some r
  | _ => none

/-- The registers the active intervals of a class hold. -/
def held (st : Scan) (c : Bool) : List Nat := (st.active c).filterMap (regOf st.assigned)

variable {assigned : Nat → Option Assignment}

theorem regOf_eq_some {j r : Nat} : regOf assigned j = some r ↔ assigned j = some (.reg r) := by
  unfold regOf
  split
  · rename_i r' h
    simp [h]
  · rename_i h
    constructor
    · intro hn
      cases hn
    · intro hr
      exact absurd hr (h r)

theorem regOf_update_ne {i j : Nat} {a : Option Assignment} (h : j ≠ i) :
    regOf (Function.update assigned i a) j = regOf assigned j := by
  unfold regOf
  rw [Function.update_of_ne h]

theorem filterMap_regOf_update {i : Nat} {a : Option Assignment} {l : List Nat} (h : i ∉ l) :
    l.filterMap (regOf (Function.update assigned i a)) = l.filterMap (regOf assigned) := by
  refine List.filterMap_congr fun j hj => regOf_update_ne ?_
  rintro rfl
  exact h hj

theorem foldl_release (st : Scan) (l free : List Nat) :
    l.foldl st.release free = (l.filterMap (regOf st.assigned)).reverse ++ free := by
  induction l generalizing free with
  | nil => rfl
  | cons j l ih =>
    rw [List.foldl_cons, ih, List.filterMap_cons]
    unfold release regOf
    cases st.assigned j with
    | none => rfl
    | some a =>
      cases a with
      | reg r => simp
      | spill slot => rfl

variable (ivs : Nat → LiveInterval) (rf : RegFile)

/-- What holds between two intervals of the scan: `rest` is still to come, and the registers
of `hand` are neither held nor free. -/
structure Sound (hand : Bool → List Nat) (rest : List Nat) (st : Scan) : Prop where
  pool : ∀ c, (hand c ++ (st.held c ++ st.free c)).Perm (rf.pool c)
  nodup : ∀ c, (st.active c).Nodup
  active : ∀ c, ∀ j ∈ st.active c, (ivs j).isFp = c ∧ ∃ r, st.assigned j = some (.reg r)
  pending : ∀ i ∈ rest, st.assigned i = none
  retired : ∀ j r, st.assigned j = some (.reg r) →
    j ∈ st.active (ivs j).isFp ∨ ∀ i ∈ rest, (ivs j).stop < (ivs i).start
  inPool : ∀ j r, st.assigned j = some (.reg r) → r ∈ rf.pool (ivs j).isFp
  calm : ∀ j r, st.assigned j = some (.reg r) → (ivs j).crossesSafepoint = false
  apart : ∀ i j r, i ≠ j → (ivs i).isFp = (ivs j).isFp → st.assigned i = some (.reg r) →
    st.assigned j = some (.reg r) →
      (ivs i).stop < (ivs j).start ∨ (ivs j).stop < (ivs i).start

/-- The slots handed out so far, in the order of their owners. -/
structure Slots (n : Nat) (owners : List Nat) (st : Scan) : Prop where
  kinds : st.slotIsOop = owners.map fun i => (ivs i).isOop
  nodup : owners.Nodup
  lt : ∀ i ∈ owners, i < n
  owned : ∀ i ∈ owners, ∃ s, st.assigned i = some (.spill s)
  spilled : ∀ i s, st.assigned i = some (.spill s) → ∃ k, owners[k]? = some i ∧ s = k % 65536

/-- No class has a register in hand. -/
def noHand : Bool → List Nat := fun _ => []

/-- Register `r` of class `c` is in hand. -/
def inHand (c : Bool) (r : Nat) : Bool → List Nat := Function.update noHand c [r]

variable {ivs rf}
variable {hand : Bool → List Nat} {rest : List Nat} {st : Scan}

theorem pool_nodup (rf : RegFile) (c : Bool) : (rf.pool c).Nodup := by
  cases c with
  | false => exact rf.allocatable_nodup
  | true => exact rf.fpAllocatable_nodup

theorem pool_ne_nil (rf : RegFile) (c : Bool) : rf.pool c ≠ [] := by
  cases c with
  | false => exact rf.allocatable_ne
  | true => exact rf.fpAllocatable_ne

theorem Sound.not_mem_active {i : Nat} (h : Sound ivs rf hand rest st)
    (hi : st.assigned i = none) (c : Bool) : i ∉ st.active c := by
  intro hmem
  obtain ⟨r, hr⟩ := (h.active c i hmem).2
  rw [hi] at hr
  cases hr

theorem mem_held {c : Bool} {j r : Nat} (hj : j ∈ st.active c)
    (hr : st.assigned j = some (.reg r)) : r ∈ st.held c :=
  List.mem_filterMap.mpr ⟨j, hj, regOf_eq_some.mpr hr⟩

/-- Intervals that ended free their registers. -/
theorem Sound.expire {i : Nat} (h : Sound ivs rf noHand (i :: rest) st)
    (hsorted : ∀ k ∈ rest, (ivs i).start ≤ (ivs k).start) (c : Bool) :
    Sound ivs rf noHand (i :: rest) (st.expire ivs c (ivs i).start) := by
  have hstart : ∀ k ∈ i :: rest, (ivs i).start ≤ (ivs k).start := by
    intro k hk
    rcases List.mem_cons.mp hk with rfl | hk
    · exact Nat.le_refl _
    · exact hsorted k hk
  refine { h with pool := ?_, nodup := ?_, active := ?_, retired := ?_ }
  · intro d
    refine List.Perm.trans ?_ (h.pool d)
    rcases eq_or_ne d c with rfl | hne
    · simp only [noHand, List.nil_append, held, Scan.expire, Function.update_self, foldl_release]
      have hsplit := List.filter_append_perm (fun j => decide ((ivs j).stop < (ivs i).start))
        (st.active d)
      have hregs := hsplit.filterMap (regOf st.assigned)
      rw [List.filterMap_append] at hregs
      refine List.Perm.trans ?_ (hregs.append_right (st.free d))
      rw [← List.append_assoc]
      refine List.Perm.append_right (st.free d) (List.perm_append_comm.trans ?_)
      exact (List.reverse_perm _).append_right _
    · simp [held, Scan.expire, Function.update_of_ne hne]
  · intro d
    rcases eq_or_ne d c with rfl | hne
    · simp only [Scan.expire, Function.update_self]
      exact (h.nodup d).filter _
    · simp only [Scan.expire, Function.update_of_ne hne]
      exact h.nodup d
  · intro d j hj
    rcases eq_or_ne d c with rfl | hne
    · simp only [Scan.expire, Function.update_self] at hj
      exact h.active d j (List.mem_filter.mp hj).1
    · simp only [Scan.expire, Function.update_of_ne hne] at hj
      exact h.active d j hj
  · intro j r hr
    rcases h.retired j r hr with hact | hret
    · rcases Nat.lt_or_ge (ivs j).stop (ivs i).start with hlt | hge
      · exact Or.inr fun k hk => Nat.lt_of_lt_of_le hlt (hstart k hk)
      · left
        rcases eq_or_ne (ivs j).isFp c with heq | hne
        · simp only [Scan.expire, heq, Function.update_self]
          refine List.mem_filter.mpr ⟨heq ▸ hact, ?_⟩
          simpa using hge
        · simp only [Scan.expire, Function.update_of_ne hne]
          exact hact
    · exact Or.inr hret

/-- Taking a free register. -/
theorem Sound.take {c : Bool} {r : Nat} {free : List Nat}
    (h : Sound ivs rf noHand rest st) (hfree : st.free c = r :: free) :
    Sound ivs rf (inHand c r) rest { st with free := Function.update st.free c free } := by
  refine { h with pool := fun d => ?_ }
  refine List.Perm.trans ?_ (h.pool d)
  rcases eq_or_ne d c with rfl | hne
  · simp only [inHand, noHand, held, Function.update_self, hfree, List.nil_append,
      List.singleton_append]
    exact List.perm_middle.symm
  · simp [inHand, noHand, held, Function.update_of_ne hne]

theorem Slots.spill {n i : Nat} {owners : List Nat} (h : Slots ivs n owners st) (hi : i < n)
    (hns : ∀ s, st.assigned i ≠ some (.spill s)) :
    Slots ivs n (owners ++ [i]) (st.spill ivs i) := by
  have hnot : i ∉ owners := by
    intro hmem
    obtain ⟨s, hs⟩ := h.owned i hmem
    exact hns s hs
  constructor
  · simp [Scan.spill, h.kinds]
  · exact List.nodup_append.mpr ⟨h.nodup, List.nodup_singleton i, by
      rintro a ha b hb rfl
      exact hnot (List.mem_singleton.mp hb ▸ ha)⟩
  · intro k hk
    rcases List.mem_append.mp hk with hk | hk
    · exact h.lt k hk
    · rw [List.mem_singleton.mp hk]
      exact hi
  · intro k hk
    rcases eq_or_ne k i with rfl | hne
    · exact ⟨_, by simp [Scan.spill]; rfl⟩
    · have hk' : k ∈ owners := (List.mem_append.mp hk).resolve_right (by simpa using hne)
      simpa [Scan.spill, Function.update_of_ne hne] using h.owned k hk'
  · intro k s hs
    rcases eq_or_ne k i with rfl | hne
    · simp only [Scan.spill, Function.update_self, Option.some_inj, Assignment.spill.injEq,
        h.kinds, List.length_map] at hs
      exact ⟨owners.length, by simp, hs.symm⟩
    · simp only [Scan.spill, Function.update_of_ne hne] at hs
      obtain ⟨idx, hidx, rfl⟩ := h.spilled k s hs
      refine ⟨idx, ?_, rfl⟩
      rw [List.getElem?_append_left (List.getElem?_eq_some_iff.mp hidx).1]
      exact hidx

/-- Anything but a slot may be assigned to an interval that has none. -/
theorem Slots.assignReg {n i r : Nat} {owners : List Nat} {st' : Scan}
    (h : Slots ivs n owners st) (hslots : st'.slotIsOop = st.slotIsOop)
    (hassigned : st'.assigned = Function.update st.assigned i (some (.reg r)))
    (hns : ∀ s, st.assigned i ≠ some (.spill s)) : Slots ivs n owners st' := by
  have hother : ∀ k s, st'.assigned k = some (.spill s) ↔ st.assigned k = some (.spill s) := by
    intro k s
    rw [hassigned]
    rcases eq_or_ne k i with rfl | hne
    · simp [hns]
    · rw [Function.update_of_ne hne]
  refine ⟨hslots.trans h.kinds, h.nodup, h.lt, ?_, ?_⟩
  · intro k hk
    obtain ⟨s, hs⟩ := h.owned k hk
    exact ⟨s, (hother k s).mpr hs⟩
  · intro k s hs
    exact h.spilled k s ((hother k s).mp hs)

theorem spill_assigned_of_ne {i j : Nat} (hne : j ≠ i) :
    (st.spill ivs i).assigned j = st.assigned j := by
  simp [Scan.spill, Function.update_of_ne hne]

theorem reg_of_spill {i j r : Nat} (h : (st.spill ivs i).assigned j = some (.reg r)) :
    j ≠ i ∧ st.assigned j = some (.reg r) := by
  rcases eq_or_ne j i with rfl | hne
  · simp [Scan.spill] at h
  · rw [spill_assigned_of_ne hne] at h
    exact ⟨hne, h⟩

/-- Spilling an interval that holds no register. -/
theorem Sound.spill {i : Nat} (h : Sound ivs rf hand (i :: rest) st) (hi : i ∉ rest) :
    Sound ivs rf hand rest (st.spill ivs i) := by
  have hnone := h.pending i List.mem_cons_self
  refine ⟨fun c => ?_, h.nodup, ?_, ?_, ?_, ?_, ?_, ?_⟩
  · refine List.Perm.trans ?_ (h.pool c)
    simp only [held, Scan.spill]
    rw [filterMap_regOf_update (h.not_mem_active hnone c)]
  · intro c j hj
    have hne : j ≠ i := by
      rintro rfl
      exact h.not_mem_active hnone c hj
    rw [spill_assigned_of_ne hne]
    exact h.active c j hj
  · intro k hk
    have hne : k ≠ i := by
      rintro rfl
      exact hi hk
    rw [spill_assigned_of_ne hne]
    exact h.pending k (List.mem_cons_of_mem _ hk)
  · intro j r hr
    obtain ⟨-, hr⟩ := reg_of_spill hr
    refine (h.retired j r hr).imp id fun hret k hk => hret k (List.mem_cons_of_mem _ hk)
  · intro j r hr
    exact h.inPool j r (reg_of_spill hr).2
  · intro j r hr
    exact h.calm j r (reg_of_spill hr).2
  · intro j k r hne hc hj hk
    exact h.apart j k r hne hc (reg_of_spill hj).2 (reg_of_spill hk).2

/-- Spilling an active interval puts its register in hand. -/
theorem Sound.evict {c : Bool} {j r : Nat} (h : Sound ivs rf noHand rest st)
    (hj : j ∈ st.active c) (hr : st.assigned j = some (.reg r)) :
    Sound ivs rf (inHand c r) rest
      { st.spill ivs j with active := Function.update st.active c ((st.active c).erase j) } := by
  have hcj : (ivs j).isFp = c := (h.active c j hj).1
  have hreg : ∀ k s, (st.spill ivs j).assigned k = some (.reg s) →
      k ≠ j ∧ st.assigned k = some (.reg s) := fun _ _ => reg_of_spill
  have hother : ∀ d, d ≠ c → j ∉ st.active d := by
    intro d hne hmem
    exact hne ((h.active d j hmem).1.symm.trans hcj)
  refine ⟨fun d => ?_, fun d => ?_, ?_, ?_, ?_, ?_, ?_, ?_⟩
  · refine List.Perm.trans ?_ (h.pool d)
    rcases eq_or_ne d c with rfl | hne
    · simp only [inHand, noHand, held, Scan.spill, Function.update_self, List.nil_append,
        List.singleton_append]
      rw [filterMap_regOf_update (fun hmem => ((h.nodup d).mem_erase_iff.mp hmem).1 rfl)]
      have hperm := (List.perm_cons_erase hj).filterMap (regOf st.assigned)
      rw [List.filterMap_cons_some (regOf_eq_some.mpr hr)] at hperm
      exact hperm.symm.append_right (st.free d)
    · simp only [inHand, noHand, held, Scan.spill, Function.update_of_ne hne]
      rw [filterMap_regOf_update (hother d hne)]
  · rcases eq_or_ne d c with rfl | hne
    · simp only [Function.update_self]
      exact (h.nodup d).erase j
    · simp only [Function.update_of_ne hne]
      exact h.nodup d
  · intro d k hk
    have hk' : k ≠ j ∧ k ∈ st.active d := by
      rcases eq_or_ne d c with rfl | hne
      · simp only [Function.update_self] at hk
        exact (h.nodup d).mem_erase_iff.mp hk
      · simp only [Function.update_of_ne hne] at hk
        exact ⟨fun heq => hother d hne (heq ▸ hk), hk⟩
    simp only [spill_assigned_of_ne hk'.1]
    exact h.active d k hk'.2
  · intro k hk
    have hne : k ≠ j := by
      rintro rfl
      rw [h.pending k hk] at hr
      cases hr
    simp only [spill_assigned_of_ne hne]
    exact h.pending k hk
  · intro k s hs
    obtain ⟨hne, hs⟩ := hreg k s hs
    refine (h.retired k s hs).imp (fun hact => ?_) id
    rcases eq_or_ne (ivs k).isFp c with heq | hnc
    · simp only [heq, Function.update_self]
      exact (h.nodup c).mem_erase_iff.mpr ⟨hne, heq ▸ hact⟩
    · simp only [Function.update_of_ne hnc]
      exact hact
  · intro k s hs
    exact h.inPool k s (hreg k s hs).2
  · intro k s hs
    exact h.calm k s (hreg k s hs).2
  · intro k l s hne hc hk hl
    exact h.apart k l s hne hc (hreg k s hk).2 (hreg l s hl).2

/-- Giving the register in hand to the interval at hand. -/
theorem Sound.assign {i r : Nat} (h : Sound ivs rf (inHand (ivs i).isFp r) (i :: rest) st)
    (hi : i ∉ rest) (hcalm : (ivs i).crossesSafepoint = false) :
    Sound ivs rf noHand rest (st.assign ivs i r) := by
  have hnone := h.pending i List.mem_cons_self
  have hpool := h.pool (ivs i).isFp
  simp only [inHand, Function.update_self, List.singleton_append] at hpool
  have hnotheld : r ∉ st.held (ivs i).isFp := by
    intro hmem
    have hnodup := hpool.nodup_iff.mpr (pool_nodup rf _)
    exact (List.nodup_cons.mp hnodup).1 (List.mem_append_left _ hmem)
  -- whoever had the register before has ended
  have hpast : ∀ j, (ivs j).isFp = (ivs i).isFp → st.assigned j = some (.reg r) →
      (ivs j).stop < (ivs i).start := by
    intro j hc hj
    rcases h.retired j r hj with hact | hret
    · rw [hc] at hact
      exact absurd (mem_held hact hj) hnotheld
    · exact hret i List.mem_cons_self
  have hreg : ∀ j s, (st.assign ivs i r).assigned j = some (.reg s) →
      (j = i ∧ s = r) ∨ (j ≠ i ∧ st.assigned j = some (.reg s)) := by
    intro j s hs
    rcases eq_or_ne j i with rfl | hne
    · simp only [Scan.assign, Function.update_self, Option.some_inj, Assignment.reg.injEq] at hs
      exact Or.inl ⟨rfl, hs.symm⟩
    · refine Or.inr ⟨hne, ?_⟩
      simpa [Scan.assign, Function.update_of_ne hne] using hs
  have hkeep : ∀ j, j ≠ i → (st.assign ivs i r).assigned j = st.assigned j := by
    intro j hne
    simp [Scan.assign, Function.update_of_ne hne]
  have hactive : ∀ d j, j ∈ (st.assign ivs i r).active d ↔
      j ∈ st.active d ∨ (j = i ∧ d = (ivs i).isFp) := by
    intro d j
    rcases eq_or_ne d (ivs i).isFp with rfl | hne
    · simp [Scan.assign]
    · simp [Scan.assign, hne]
  refine ⟨fun d => ?_, fun d => ?_, ?_, ?_, ?_, ?_, ?_, ?_⟩
  · refine List.Perm.trans ?_ (h.pool d)
    rcases eq_or_ne d (ivs i).isFp with rfl | hne
    · simp only [inHand, noHand, held, Scan.assign, Function.update_self, List.nil_append,
        List.filterMap_append]
      rw [filterMap_regOf_update (h.not_mem_active hnone _)]
      have hself : [i].filterMap (regOf (Function.update st.assigned i (some (.reg r)))) = [r] := by
        simp [regOf]
      rw [hself]
      exact (List.perm_append_comm).append_right _ |>.trans (by rw [List.append_assoc])
    · simp only [inHand, noHand, held, Scan.assign, Function.update_of_ne hne]
      rw [filterMap_regOf_update (h.not_mem_active hnone _)]
  · rcases eq_or_ne d (ivs i).isFp with rfl | hne
    · simp only [Scan.assign, Function.update_self]
      refine List.nodup_append.mpr ⟨h.nodup _, List.nodup_singleton i, ?_⟩
      rintro a ha b hb rfl
      exact h.not_mem_active hnone _ (List.mem_singleton.mp hb ▸ ha)
    · simp only [Scan.assign, Function.update_of_ne hne]
      exact h.nodup d
  · intro d j hj
    rcases (hactive d j).mp hj with hold | ⟨rfl, rfl⟩
    · have hne : j ≠ i := by
        rintro rfl
        exact h.not_mem_active hnone d hold
      rw [hkeep j hne]
      exact h.active d j hold
    · exact ⟨rfl, r, by simp [Scan.assign]⟩
  · intro k hk
    have hne : k ≠ i := by
      rintro rfl
      exact hi hk
    rw [hkeep k hne]
    exact h.pending k (List.mem_cons_of_mem _ hk)
  · intro j s hs
    rcases hreg j s hs with ⟨rfl, -⟩ | ⟨-, hs⟩
    · exact Or.inl ((hactive _ _).mpr (Or.inr ⟨rfl, rfl⟩))
    · refine (h.retired j s hs).imp (fun hact => (hactive _ _).mpr (Or.inl hact)) ?_
      exact fun hret k hk => hret k (List.mem_cons_of_mem _ hk)
  · intro j s hs
    rcases hreg j s hs with ⟨rfl, rfl⟩ | ⟨-, hs⟩
    · exact hpool.subset List.mem_cons_self
    · exact h.inPool j s hs
  · intro j s hs
    rcases hreg j s hs with ⟨rfl, -⟩ | ⟨-, hs⟩
    · exact hcalm
    · exact h.calm j s hs
  · intro j k s hne hc hj hk
    rcases hreg j s hj with ⟨rfl, rfl⟩ | ⟨-, hj'⟩
    · rcases hreg k s hk with ⟨rfl, -⟩ | ⟨-, hk'⟩
      · exact absurd rfl hne
      · exact Or.inr (hpast k hc.symm hk')
    · rcases hreg k s hk with ⟨rfl, rfl⟩ | ⟨-, hk'⟩
      · exact Or.inl (hpast j hc hj')
      · exact h.apart j k s hne hc hj' hk'

variable (ivs) in
theorem furthest_spec {l : List Nat} (h : l ≠ []) : ∃ j ∈ l, furthest ivs l = some j := by
  induction l with
  | nil => exact absurd rfl h
  | cons j js ih =>
    unfold furthest
    cases hjs : furthest ivs js with
    | none => exact ⟨j, List.mem_cons_self, rfl⟩
    | some k =>
      have hk : k ∈ js := by
        obtain ⟨k', hk', heq⟩ := ih (by rintro rfl; cases hjs)
        rw [hjs] at heq
        cases heq
        exact hk'
      simp only
      split
      · exact ⟨j, List.mem_cons_self, rfl⟩
      · exact ⟨k, List.mem_cons_of_mem _ hk, rfl⟩

/-- One interval of the scan gets its place, and nobody loses one. -/
theorem step_spec {i n : Nat} {owners : List Nat} (h : Sound ivs rf noHand (i :: rest) st)
    (hslots : Slots ivs n owners st) (hn : ∀ j, st.assigned j ≠ none → j < n) (hin : i < n)
    (hsorted : ∀ k ∈ rest, (ivs i).start ≤ (ivs k).start) (hi : i ∉ rest)
    (hcalm : (ivs i).crossesSafepoint = false) :
    ∃ st' owners', st.step ivs i = some st' ∧ Sound ivs rf noHand rest st' ∧
      Slots ivs n owners' st' ∧ (∀ j, st'.assigned j ≠ none ↔ st.assigned j ≠ none ∨ j = i) := by
  have hnone := h.pending i List.mem_cons_self
  have hns : ∀ s, st.assigned i ≠ some (.spill s) := by
    intro s hs
    rw [hnone] at hs
    cases hs
  have hexp := h.expire hsorted (ivs i).isFp
  unfold step
  simp only
  cases hfree : (st.expire ivs (ivs i).isFp (ivs i).start).free (ivs i).isFp with
  | cons r free =>
    refine ⟨_, owners, rfl, (hexp.take hfree).assign hi hcalm, ?_, ?_⟩
    · exact hslots.assignReg rfl rfl hns
    · intro j
      rcases eq_or_ne j i with rfl | hne
      · simp [Scan.assign]
      · simp [Scan.assign, Scan.expire, hne]
  | nil =>
    -- the pool is not empty, so somebody holds its registers
    have hact : (st.expire ivs (ivs i).isFp (ivs i).start).active (ivs i).isFp ≠ [] := by
      intro hnil
      have hpool := hexp.pool (ivs i).isFp
      simp only [noHand, held, hnil, hfree, List.filterMap_nil, List.append_nil] at hpool
      exact pool_ne_nil rf _ hpool.nil_eq.symm
    obtain ⟨j, hj, hfar⟩ := furthest_spec ivs hact
    obtain ⟨hcj, r, hr⟩ := hexp.active _ j hj
    simp only [hfar]
    split
    · rw [hr]
      simp only
      have hjn : j < n := hn j (by
        intro hj'
        rw [show (st.expire ivs (ivs i).isFp (ivs i).start).assigned j = st.assigned j from rfl,
          hj'] at hr
        cases hr)
      have hslots' : Slots ivs n owners (st.expire ivs (ivs i).isFp (ivs i).start) :=
        { hslots with }
      have hspill := hslots'.spill hjn (by
        intro s hs
        rw [hr] at hs
        cases hs)
      refine ⟨_, owners ++ [j], rfl, (hexp.evict hj hr).assign hi hcalm,
        hspill.assignReg rfl rfl ?_, ?_⟩
      · intro s hs
        rcases eq_or_ne i j with rfl | hne
        · exact hexp.not_mem_active hnone _ hj
        · rw [spill_assigned_of_ne hne] at hs
          exact hns s hs
      · intro k
        rcases eq_or_ne k i with rfl | hne
        · simp [Scan.assign]
        · rcases eq_or_ne k j with rfl | hnej
          · refine iff_of_true (by simp [Scan.assign, Scan.spill, hne]) (Or.inl ?_)
            intro hk
            rw [show (st.expire ivs (ivs i).isFp (ivs i).start).assigned k = st.assigned k from
              rfl, hk] at hr
            cases hr
          · simp [Scan.assign, Scan.spill, Scan.expire, hne, hnej]
    · have hslots' : Slots ivs n owners (st.expire ivs (ivs i).isFp (ivs i).start) :=
        { hslots with }
      refine ⟨_, owners ++ [i], rfl, hexp.spill hi, hslots'.spill hin hns, ?_⟩
      intro k
      rcases eq_or_ne k i with rfl | hne
      · simp [Scan.spill]
      · simp [Scan.spill, Scan.expire, hne]

/-- The whole scan. -/
theorem run_spec {n : Nat} (order : List Nat) {owners : List Nat}
    (h : Sound ivs rf noHand order st) (hslots : Slots ivs n owners st)
    (hn : ∀ j, st.assigned j ≠ none → j < n) (hin : ∀ i ∈ order, i < n) (hnodup : order.Nodup)
    (hsorted : order.Pairwise fun i j => (ivs i).start ≤ (ivs j).start)
    (hcalm : ∀ i ∈ order, (ivs i).crossesSafepoint = false) :
    ∃ st' owners', order.foldlM (Scan.step ivs) st = some st' ∧ Sound ivs rf noHand [] st' ∧
      Slots ivs n owners' st' ∧ (∀ j, st'.assigned j ≠ none ↔ st.assigned j ≠ none ∨ j ∈ order) := by
  induction order generalizing st owners with
  | nil => exact ⟨st, owners, rfl, h, hslots, by simp⟩
  | cons i order ih =>
    obtain ⟨hle, hsorted⟩ := List.pairwise_cons.mp hsorted
    obtain ⟨hni, hnodup⟩ := List.nodup_cons.mp hnodup
    have hi : i < n := hin i List.mem_cons_self
    obtain ⟨st1, owners1, hstep, h1, hslots1, hdom1⟩ :=
      step_spec h hslots hn hi hle hni (hcalm i List.mem_cons_self)
    obtain ⟨st2, owners2, hrun, h2, hslots2, hdom2⟩ := ih h1 hslots1
      (by
        intro j hj
        rcases (hdom1 j).mp hj with hj | rfl
        · exact hn j hj
        · exact hi)
      (fun k hk => hin k (List.mem_cons_of_mem _ hk)) hnodup hsorted
      (fun k hk => hcalm k (List.mem_cons_of_mem _ hk))
    refine ⟨st2, owners2, ?_, h2, hslots2, ?_⟩
    · rw [List.foldlM_cons, hstep]
      exact hrun
    · intro j
      rw [hdom2, hdom1, List.mem_cons, or_assoc]

theorem spillCrossing_spec {n : Nat} (l : List Nat) {owners : List Nat}
    (hslots : Slots ivs n owners st) (hlt : ∀ i ∈ l, i < n) (hnodup : l.Nodup)
    (hnone : ∀ i ∈ l, st.assigned i = none) :
    ∃ st' owners', l.foldl (spillCrossing ivs) st = st' ∧ Slots ivs n owners' st' ∧
      st'.active = st.active ∧ st'.free = st.free ∧
      (∀ i r, st'.assigned i = some (.reg r) → st.assigned i = some (.reg r)) ∧
      (∀ i, st'.assigned i ≠ none ↔
        st.assigned i ≠ none ∨ (i ∈ l ∧ (ivs i).crossesSafepoint = true)) := by
  induction l generalizing st owners with
  | nil => exact ⟨st, owners, rfl, hslots, rfl, rfl, fun _ _ h => h, by simp⟩
  | cons i l ih =>
    obtain ⟨hni, hnodup⟩ := List.nodup_cons.mp hnodup
    have hi := hnone i List.mem_cons_self
    rw [List.foldl_cons]
    cases hc : (ivs i).crossesSafepoint with
    | false =>
      have hskip : spillCrossing ivs st i = st := by simp [spillCrossing, hc]
      rw [hskip]
      obtain ⟨st', owners', heq, hs, hact, hfree, hreg, hdom⟩ := ih hslots
        (fun k hk => hlt k (List.mem_cons_of_mem _ hk)) hnodup
        (fun k hk => hnone k (List.mem_cons_of_mem _ hk))
      refine ⟨st', owners', heq, hs, hact, hfree, hreg, fun k => ?_⟩
      rw [hdom]
      refine or_congr Iff.rfl ⟨fun h => ⟨List.mem_cons_of_mem _ h.1, h.2⟩, ?_⟩
      rintro ⟨hk, hck⟩
      rcases List.mem_cons.mp hk with rfl | hk
      · rw [hc] at hck
        cases hck
      · exact ⟨hk, hck⟩
    | true =>
      have hspill : spillCrossing ivs st i = st.spill ivs i := by simp [spillCrossing, hc]
      rw [hspill]
      have hns : ∀ s, st.assigned i ≠ some (.spill s) := by
        intro s hs
        rw [hi] at hs
        cases hs
      have hother : ∀ k ∈ l, k ≠ i := by
        rintro k hk rfl
        exact hni hk
      obtain ⟨st', owners', heq, hs, hact, hfree, hreg, hdom⟩ :=
        ih (hslots.spill (hlt i List.mem_cons_self) hns)
        (fun k hk => hlt k (List.mem_cons_of_mem _ hk)) hnodup
        (fun k hk => by
          rw [spill_assigned_of_ne (hother k hk)]
          exact hnone k (List.mem_cons_of_mem _ hk))
      refine ⟨st', owners', heq, hs, hact, hfree,
        fun k r hr => (reg_of_spill (hreg k r hr)).2, fun k => ?_⟩
      rw [hdom]
      rcases eq_or_ne k i with rfl | hne
      · simp [Scan.spill, hc]
      · rw [spill_assigned_of_ne hne]
        simp [hne]

end Scan

/-! ## The allocator -/

/-- Interval number `i`. -/
def nth (intervals : List LiveInterval) (i : Nat) : LiveInterval := intervals.getD i default

/-- The intervals with the places they are assigned. -/
def place (intervals : List LiveInterval) (assigned : Nat → Option Assignment) :
    List LiveInterval :=
  intervals.zipIdx.map fun x => { x.1 with assignment := assigned x.2 }

theorem getElem?_place (intervals : List LiveInterval) (assigned : Nat → Option Assignment)
    (i : Nat) : (place intervals assigned)[i]? =
      intervals[i]?.map fun iv : LiveInterval => { iv with assignment := assigned i } := by
  unfold place
  rw [List.getElem?_map, List.getElem?_zipIdx, Option.map_map, Nat.zero_add]
  rfl

/-- What the allocator promises about the places it assigns and the kinds of the slots. -/
structure Placed (rf : RegFile) (intervals : List LiveInterval)
    (assigned : Nat → Option Assignment) (slotIsOop : List Bool) : Prop where
  all : ∀ i, assigned i ≠ none ↔ i < intervals.length
  crossing : ∀ i < intervals.length, (nth intervals i).crossesSafepoint = true →
    ∃ s, assigned i = some (.spill s)
  inPool : ∀ i r, assigned i = some (.reg r) → r ∈ rf.pool (nth intervals i).isFp
  apart : ∀ i j r, i ≠ j → (nth intervals i).isFp = (nth intervals j).isFp →
    assigned i = some (.reg r) → assigned j = some (.reg r) →
      (nth intervals i).stop < (nth intervals j).start ∨
        (nth intervals j).stop < (nth intervals i).start
  slots : intervals.length ≤ 65536 → ∀ i j s, assigned i = some (.spill s) →
    assigned j = some (.spill s) → i = j
  kinds : intervals.length ≤ 65536 → ∀ i s, assigned i = some (.spill s) →
    slotIsOop[s]? = some (nth intervals i).isOop

theorem Scan.Slots.injective {ivs : Nat → LiveInterval} {n : Nat} {owners : List Nat} {st : Scan}
    (h : Scan.Slots ivs n owners st) (hn : n ≤ 65536) {i j s : Nat}
    (hi : st.assigned i = some (.spill s)) (hj : st.assigned j = some (.spill s)) : i = j := by
  obtain ⟨a, ha, hsa⟩ := h.spilled i s hi
  obtain ⟨b, hb, hsb⟩ := h.spilled j s hj
  have hlen : owners.length ≤ n := by
    have hsub : owners ⊆ List.range n := fun k hk => List.mem_range.mpr (h.lt k hk)
    simpa using (h.nodup.subperm hsub).length_le
  have hal := (List.getElem?_eq_some_iff.mp ha).1
  have hbl := (List.getElem?_eq_some_iff.mp hb).1
  have hab : a = b := by omega
  rw [hab, hb] at ha
  exact (Option.some_inj.mp ha).symm

theorem Scan.Slots.kind {ivs : Nat → LiveInterval} {n : Nat} {owners : List Nat} {st : Scan}
    (h : Scan.Slots ivs n owners st) (hn : n ≤ 65536) {i s : Nat}
    (hi : st.assigned i = some (.spill s)) : st.slotIsOop[s]? = some (ivs i).isOop := by
  obtain ⟨a, ha, hsa⟩ := h.spilled i s hi
  have hlen : owners.length ≤ n := by
    have hsub : owners ⊆ List.range n := fun k hk => List.mem_range.mpr (h.lt k hk)
    simpa using (h.nodup.subperm hsub).length_le
  have hal := (List.getElem?_eq_some_iff.mp ha).1
  have has : s = a := by omega
  rw [h.kinds, List.getElem?_map, has, ha, Option.map_some]

theorem nth_unassigned {intervals : List LiveInterval}
    (hun : ∀ iv ∈ intervals, iv.assignment = none) (i : Nat) :
    (nth intervals i).assignment = none := by
  unfold nth
  rw [List.getD_eq_getElem?_getD]
  cases hi : intervals[i]? with
  | none => rfl
  | some iv => exact hun iv (List.mem_of_getElem? hi)

/-- The order of the scan. -/
def scanOrder (intervals : List LiveInterval) (assigned : Nat → Option Assignment) : List Nat :=
  ((List.range intervals.length).filter fun i => (assigned i).isNone).insertionSort
    fun i j => (nth intervals i).start ≤ (nth intervals j).start

section ScanOrder

variable {intervals : List LiveInterval} {assigned : Nat → Option Assignment}

theorem mem_scanOrder {i : Nat} :
    i ∈ scanOrder intervals assigned ↔ i < intervals.length ∧ assigned i = none := by
  simp [scanOrder]

theorem scanOrder_nodup : (scanOrder intervals assigned).Nodup :=
  (List.perm_insertionSort _ _).nodup_iff.mpr (List.nodup_range.filter _)

theorem scanOrder_sorted : (scanOrder intervals assigned).Pairwise
    fun i j => (nth intervals i).start ≤ (nth intervals j).start := by
  have htotal : Std.Total fun i j => (nth intervals i).start ≤ (nth intervals j).start :=
    ⟨fun _ _ => Nat.le_total _ _⟩
  have htrans : IsTrans Nat fun i j => (nth intervals i).start ≤ (nth intervals j).start :=
    ⟨fun _ _ _ => Nat.le_trans⟩
  exact List.pairwise_insertionSort _ _

end ScanOrder

/-- Before the scan every interval that crosses a safepoint has a slot, and only those. -/
theorem initial_spec (rf : RegFile) {intervals : List LiveInterval}
    (hun : ∀ iv ∈ intervals, iv.assignment = none) :
    ∃ st owners, (List.range intervals.length).foldl (Scan.spillCrossing (nth intervals))
        ⟨fun i => (nth intervals i).assignment, [], fun _ => [], rf.pool⟩ = st ∧
      Scan.Slots (nth intervals) intervals.length owners st ∧
      Scan.Sound (nth intervals) rf Scan.noHand (scanOrder intervals st.assigned) st ∧
      ∀ i, st.assigned i ≠ none ↔
        i < intervals.length ∧ (nth intervals i).crossesSafepoint = true := by
  have hnone := nth_unassigned hun
  have hempty : Scan.Slots (nth intervals) intervals.length []
      ⟨fun i => (nth intervals i).assignment, [], fun _ => [], rf.pool⟩ := by
    refine ⟨rfl, List.nodup_nil, by simp, by simp, ?_⟩
    intro i s hs
    cases (hnone i).symm.trans hs
  obtain ⟨st, owners, hst, hslots, hact, hfree, hreg, hdom⟩ :=
    Scan.spillCrossing_spec (List.range intervals.length) hempty
      (fun i hi => List.mem_range.mp hi) List.nodup_range (fun i _ => hnone i)
  have hnoreg : ∀ i r, st.assigned i ≠ some (.reg r) := by
    intro i r hr
    cases (hnone i).symm.trans (hreg i r hr)
  refine ⟨st, owners, hst, hslots, ⟨fun c => ?_, fun c => ?_, ?_, ?_, ?_, ?_, ?_, ?_⟩, ?_⟩
  · simp [Scan.noHand, Scan.held, hact, hfree]
  · simp [hact]
  · intro c j hj
    simp [hact] at hj
  · intro i hi
    exact (mem_scanOrder.mp hi).2
  · intro j r hr
    exact absurd hr (hnoreg j r)
  · intro j r hr
    exact absurd hr (hnoreg j r)
  · intro j r hr
    exact absurd hr (hnoreg j r)
  · intro i j r _ _ hr
    exact absurd hr (hnoreg i r)
  · intro i
    rw [hdom]
    simp [hnone]

theorem allocate_eq (rf : RegFile) (intervals : List LiveInterval) :
    allocate rf intervals =
      (let st0 := (List.range intervals.length).foldl (Scan.spillCrossing (nth intervals))
        ⟨fun i => (nth intervals i).assignment, [], fun _ => [], rf.pool⟩
      match (scanOrder intervals st0.assigned).foldlM (Scan.step (nth intervals)) st0 with
      | none => none
      | some st =>
        let result := place intervals st.assigned
        if result.all fun iv => !(iv.crossesSafepoint &&
            (match iv.assignment with | some (.reg _) => true | _ => false)) then
          some (result, st.slotIsOop)
        else none) := rfl

/-- The allocator returns, and its places are sound. -/
theorem allocate_spec (rf : RegFile) {intervals : List LiveInterval}
    (hun : ∀ iv ∈ intervals, iv.assignment = none) :
    ∃ assigned slots, allocate rf intervals = some (place intervals assigned, slots) ∧
      Placed rf intervals assigned slots := by
  obtain ⟨st0, owners0, hst0, hslots0, hsound0, hdom⟩ := initial_spec rf hun
  have hcalm : ∀ i ∈ scanOrder intervals st0.assigned,
      (nth intervals i).crossesSafepoint = false := by
    intro i hi
    obtain ⟨hlt, hnone⟩ := mem_scanOrder.mp hi
    rw [Bool.eq_false_iff]
    intro hc
    exact (hdom i).mpr ⟨hlt, hc⟩ hnone
  obtain ⟨st, owners, hrun, hsound, hslots, hall⟩ := Scan.run_spec _ hsound0 hslots0
    (fun j hj => ((hdom j).mp hj).1) (fun i hi => (mem_scanOrder.mp hi).1) scanOrder_nodup
    scanOrder_sorted hcalm
  have hcover : ∀ i, st.assigned i ≠ none ↔ i < intervals.length := by
    intro i
    rw [hall, mem_scanOrder]
    constructor
    · rintro (h | h)
      · exact ((hdom i).mp h).1
      · exact h.1
    · intro h
      by_cases hs : st0.assigned i = none
      · exact Or.inr ⟨h, hs⟩
      · exact Or.inl hs
  have hcross : ∀ i < intervals.length, (nth intervals i).crossesSafepoint = true →
      ∃ s, st.assigned i = some (.spill s) := by
    intro i hi hc
    have hne := (hcover i).mpr hi
    cases ha : st.assigned i with
    | none => exact absurd ha hne
    | some a =>
      cases a with
      | spill s => exact ⟨s, rfl⟩
      | reg r =>
        rw [hsound.calm i r ha] at hc
        cases hc
  refine ⟨st.assigned, st.slotIsOop, ?_, hcover, hcross, hsound.inPool, hsound.apart,
    fun hlen i j s hi hj => hslots.injective hlen hi hj, fun hlen i s hi => hslots.kind hlen hi⟩
  rw [allocate_eq, hst0]
  simp only [hrun]
  rw [if_pos]
  -- `verify_spill_all` never fires
  refine List.all_eq_true.mpr ?_
  intro iv hiv
  obtain ⟨⟨iv0, i⟩, hmem0, rfl⟩ := List.mem_map.mp hiv
  have hget : intervals[i]? = some iv0 := List.mem_zipIdx_iff_getElem?.mp hmem0
  have hi : i < intervals.length := (List.getElem?_eq_some_iff.mp hget).1
  have hiv0 : nth intervals i = iv0 := by
    simp [nth, hget]
  cases hc : iv0.crossesSafepoint with
  | false => rfl
  | true =>
    obtain ⟨s, hs⟩ := hcross i hi (by rw [hiv0]; exact hc)
    simp [hs]

theorem nth_of_getElem? {intervals : List LiveInterval} {i : Nat} {iv : LiveInterval}
    (h : intervals[i]? = some iv) : nth intervals i = iv := by
  simp [nth, h]

/-- Over intervals without a place, fewer than slots can be numbered, the allocator assigns each
one; intervals of a class that meet do not share a register, registers come from the pool of
their class, every spilled interval has a slot of its own and of its kind, and the intervals that
cross a safepoint are spilled. -/
theorem allocate_sound (rf : RegFile) {intervals : List LiveInterval}
    (hlen : intervals.length < 65536) (hun : ∀ iv ∈ intervals, iv.assignment = none) :
    ∃ result slotIsOop, allocate rf intervals = some (result, slotIsOop) ∧
      (∀ i : Nat, ∀ iv, intervals[i]? = some iv →
        ∃ a, result[i]? = some { iv with assignment := some a }) ∧
      (∀ i j : Nat, ∀ iv iv', i ≠ j → result[i]? = some iv → result[j]? = some iv' →
        iv.isFp = iv'.isFp → iv.start ≤ iv'.stop → iv'.start ≤ iv.stop →
        ∀ r, iv.assignment = some (.reg r) → iv'.assignment ≠ some (.reg r)) ∧
      (∀ i : Nat, ∀ iv r, result[i]? = some iv → iv.assignment = some (.reg r) →
        r ∈ rf.pool iv.isFp) ∧
      (∀ i : Nat, ∀ iv s, result[i]? = some iv → iv.assignment = some (.spill s) →
        slotIsOop[s]? = some iv.isOop ∧ ∀ j : Nat, ∀ iv', result[j]? = some iv' →
          iv'.assignment = some (.spill s) → j = i) ∧
      (∀ i : Nat, ∀ iv, result[i]? = some iv → iv.crossesSafepoint = true →
        ∃ s, iv.assignment = some (.spill s)) := by
  obtain ⟨assigned, slots, halloc, hplaced⟩ := allocate_spec rf hun
  have hget : ∀ {i : Nat} {iv : LiveInterval}, (place intervals assigned)[i]? = some iv →
      ∃ iv0, intervals[i]? = some iv0 ∧ nth intervals i = iv0 ∧
        iv = { iv0 with assignment := assigned i } := by
    intro i iv hi
    rw [getElem?_place] at hi
    obtain ⟨iv0, h0, rfl⟩ := Option.map_eq_some_iff.mp hi
    exact ⟨iv0, h0, nth_of_getElem? h0, rfl⟩
  refine ⟨_, slots, halloc, ?_, ?_, ?_, ?_, ?_⟩
  · intro i iv hi
    have hlt := (List.getElem?_eq_some_iff.mp hi).1
    obtain ⟨a, ha⟩ := Option.ne_none_iff_exists'.mp ((hplaced.all i).mpr hlt)
    exact ⟨a, by rw [getElem?_place, hi, Option.map_some, ha]⟩
  · intro i j iv iv' hij hi hj hfp h1 h2 r hr hr'
    obtain ⟨a, -, rfl, rfl⟩ := hget hi
    obtain ⟨b, -, rfl, rfl⟩ := hget hj
    have := hplaced.apart i j r hij hfp hr hr'
    dsimp only at h1 h2
    omega
  · intro i iv r hi hr
    obtain ⟨a, -, rfl, rfl⟩ := hget hi
    exact hplaced.inPool i r hr
  · intro i iv s hi hs
    obtain ⟨a, -, rfl, rfl⟩ := hget hi
    refine ⟨hplaced.kinds hlen.le i s hs, fun j iv' hj hs' => ?_⟩
    obtain ⟨b, -, rfl, rfl⟩ := hget hj
    exact hplaced.slots hlen.le j i s hs' hs
  · intro i iv hi hc
    obtain ⟨a, h0, rfl, rfl⟩ := hget hi
    exact hplaced.crossing i (List.getElem?_eq_some_iff.mp h0).1 hc

/-- One value more than there are registers, of which the first lives across everything. -/
def pressed : List LiveInterval :=
  (List.range 8).map fun v => ⟨v, 0, if v = 0 then 999 else 10, false, false, false, false, none, none⟩

theorem allocate_sound_pressed : ∃ result slotIsOop,
    allocate .x64 pressed = some (result, slotIsOop) ∧
      ∀ i : Nat, ∀ iv s, result[i]? = some iv → iv.assignment = some (.spill s) →
        slotIsOop[s]? = some iv.isOop := by
  have hlen : pressed.length < 65536 := by decide
  obtain ⟨result, slots, halloc, -, -, -, hslots, -⟩ := allocate_sound .x64 hlen (by decide)
  exact ⟨result, slots, halloc, fun i iv s hi hs => (hslots i iv s hi hs).1⟩

/-! ## Residents -/

namespace Residency

/-- What holds between two placements: residents of one register were placed next to each
other, and the register remembers them. -/
structure Sound (rf : RegFile) (intervals : List LiveInterval) (st : Residency) : Prop where
  taken : ∀ i r, st.resident i = some r →
    ∃ ri, (residentPool rf intervals (nth intervals i).isFp)[ri]? = some r ∧
      ((nth intervals i).start, (nth intervals i).stop) ∈ st.taken (nth intervals i).isFp ri
  apart : ∀ i j r, i ≠ j → (nth intervals i).isFp = (nth intervals j).isFp →
    st.resident i = some r → st.resident j = some r →
      (nth intervals i).stop ≤ (nth intervals j).start ∨
        (nth intervals j).stop ≤ (nth intervals i).start

theorem residentPool_nodup (rf : RegFile) (intervals : List LiveInterval) (c : Bool) :
    (residentPool rf intervals c).Nodup := by
  cases c with
  | true => exact rf.fpResidents_nodup
  | false =>
    exact (List.filter_sublist.append_left rf.residents).nodup rf.residents_nodup

theorem Sound.step {rf : RegFile} {intervals : List LiveInterval} {st : Residency}
    (h : Sound rf intervals st) (i : Nat) : Sound rf intervals (step rf intervals st i) := by
  unfold Residency.step
  simp only
  rw [show intervals.getD i default = nth intervals i from rfl]
  cases hp : place (residentPool rf intervals (nth intervals i).isFp)
      (st.taken (nth intervals i).isFp) (nth intervals i).start (nth intervals i).stop with
  | none => exact h
  | some x =>
    obtain ⟨r, ri⟩ := x
    unfold place at hp
    have hget : (residentPool rf intervals (nth intervals i).isFp)[ri]? = some r :=
      List.mem_zipIdx_iff_getElem?.mp (List.mem_of_find?_eq_some hp)
    have hfree := List.find?_some hp
    simp only [List.all_eq_true, Bool.or_eq_true, decide_eq_true_eq] at hfree
    -- the register's other residents are all on record
    have hnext : ∀ j, (nth intervals j).isFp = (nth intervals i).isFp → st.resident j = some r →
        (nth intervals i).stop ≤ (nth intervals j).start ∨
          (nth intervals j).stop ≤ (nth intervals i).start := by
      intro j hc hj
      obtain ⟨rj, hgetj, hin⟩ := h.taken j r hj
      rw [hc] at hgetj hin
      have hrj : rj = ri := by
        obtain ⟨h1, h2⟩ := List.getElem?_eq_some_iff.mp hgetj
        obtain ⟨h3, h4⟩ := List.getElem?_eq_some_iff.mp hget
        exact (residentPool_nodup rf intervals _).getElem_inj_iff.mp (h2.trans h4.symm)
      exact hfree _ (hrj ▸ hin)
    constructor
    · intro j s hs
      rcases eq_or_ne j i with rfl | hne
      · simp only [Function.update_self, Option.some_inj] at hs
        exact ⟨ri, hs ▸ hget, by simp⟩
      · simp only [Function.update_of_ne hne] at hs
        obtain ⟨rj, hgetj, hin⟩ := h.taken j s hs
        refine ⟨rj, hgetj, ?_⟩
        rcases eq_or_ne (nth intervals j).isFp (nth intervals i).isFp with hc | hc
        · rw [hc] at hin ⊢
          simp only [Function.update_self]
          rcases eq_or_ne rj ri with rfl | hr
          · simp only [Function.update_self]
            exact List.mem_cons_of_mem _ hin
          · rw [Function.update_of_ne hr]
            exact hin
        · simp only [Function.update_of_ne hc]
          exact hin
    · intro j k s hne hc hj hk
      rcases eq_or_ne j i with rfl | hji
      · have hki : k ≠ j := Ne.symm hne
        simp only [Function.update_self, Option.some_inj] at hj
        simp only [Function.update_of_ne hki] at hk
        exact hnext k hc.symm (hj ▸ hk)
      · simp only [Function.update_of_ne hji] at hj
        rcases eq_or_ne k i with rfl | hki
        · simp only [Function.update_self, Option.some_inj] at hk
          exact (hnext j hc (hk ▸ hj)).symm
        · simp only [Function.update_of_ne hki] at hk
          exact h.apart j k s hne hc hj hk

theorem Sound.foldl {rf : RegFile} {intervals : List LiveInterval} (order : List Nat)
    {st : Residency} (h : Sound rf intervals st) :
    Sound rf intervals (order.foldl (Residency.step rf intervals) st) := by
  induction order generalizing st with
  | nil => exact h
  | cons i order ih => exact ih (h.step i)

end Residency

/-- Residents that share a register at most touch, and none is in an assigned register. -/
theorem assignResidents_spec (rf : RegFile) (m : IrMethod) (intervals : List LiveInterval) :
    ∃ resident : Nat → Option Nat, assignResidents rf m intervals =
        (intervals.zipIdx.map fun x => { x.1 with residentReg := resident x.2 }) ∧
      (∀ i j r, i ≠ j → (nth intervals i).isFp = (nth intervals j).isFp →
        resident i = some r → resident j = some r →
          (nth intervals i).stop ≤ (nth intervals j).start ∨
            (nth intervals j).stop ≤ (nth intervals i).start) ∧
      (∀ i r, resident i = some r → r ∈ residentPool rf intervals (nth intervals i).isFp) := by
  have hempty : Residency.Sound rf intervals ⟨fun _ => none, fun _ _ => []⟩ :=
    ⟨fun _ _ h => (nomatch h), fun _ _ _ _ _ h => (nomatch h)⟩
  refine ⟨_, rfl, (hempty.foldl _).apart, ?_⟩
  intro i r hr
  obtain ⟨ri, hget, -⟩ := (hempty.foldl _).taken i r hr
  exact List.mem_of_getElem? hget

/-- A resident register is no register that an interval of the class was assigned. -/
theorem not_mem_residentPool {rf : RegFile} {intervals : List LiveInterval} {iv : LiveInterval}
    {r : Nat} (hiv : iv ∈ intervals) (hr : iv.assignment = some (.reg r))
    (hpool : r ∈ rf.pool iv.isFp) : r ∉ residentPool rf intervals iv.isFp := by
  cases hc : iv.isFp with
  | true =>
    rw [hc] at hpool
    intro hmem
    exact rf.fpResidents_disjoint r hmem hpool
  | false =>
    rw [hc] at hpool
    intro hmem
    rcases List.mem_append.mp hmem with hmem | hmem
    · exact rf.residents_disjoint r hmem hpool
    · have hunused := (List.mem_filter.mp hmem).2
      have hused : (intervals.any fun iv => !iv.isFp && iv.assignment == some (.reg r)) = true :=
        List.any_eq_true.mpr ⟨iv, hiv, by simp [hc, hr]⟩
      rw [hused] at hunused
      cases hunused

/-! ## The whole pass -/

/-- What the final intervals of a method promise. -/
structure Allocated (m : IrMethod) (ivs : List LiveInterval) : Prop where
  each : ∀ iv ∈ ivs, m.Describes m.HeldAfter iv
  nodup : (ivs.map LiveInterval.vreg).Nodup
  all : ∀ v, m.Kept v → ∃ iv ∈ ivs, iv.vreg = v
  placed : ∀ iv ∈ ivs, iv.assignment ≠ none
  crossing : ∀ iv ∈ ivs, iv.crossesSafepoint = true → ∃ s, iv.assignment = some (.spill s)
  regs : ∀ iv ∈ ivs, ∀ iv' ∈ ivs, iv.vreg ≠ iv'.vreg → iv.isFp = iv'.isFp → ∀ r,
    iv.assignment = some (.reg r) → iv'.assignment = some (.reg r) →
      iv.stop < iv'.start ∨ iv'.stop < iv.start
  slots : m.vregs.length ≤ 65536 → ∀ iv ∈ ivs, ∀ iv' ∈ ivs, ∀ s,
    iv.assignment = some (.spill s) → iv'.assignment = some (.spill s) → iv.vreg = iv'.vreg
  residents : ∀ iv ∈ ivs, ∀ iv' ∈ ivs, iv.vreg ≠ iv'.vreg → iv.isFp = iv'.isFp → ∀ r,
    iv.residentReg = some r → iv'.residentReg = some r →
      iv.stop ≤ iv'.start ∨ iv'.stop ≤ iv.start
  exclusive : ∀ iv ∈ ivs, ∀ iv' ∈ ivs, iv.isFp = iv'.isFp → ∀ r, iv.residentReg = some r →
    iv'.assignment ≠ some (.reg r)

theorem length_computeIntervals_le (m : IrMethod) :
    m.computeIntervals.length ≤ m.vregs.length := by
  unfold IrMethod.computeIntervals
  exact (List.length_filterMap_le _ _).trans (by simp)

theorem length_pin (v : Option VReg) (intervals : List LiveInterval) :
    (pin v intervals).length = intervals.length := by
  cases v with
  | none => rfl
  | some cv => simp [pin]

theorem length_pinnedIntervals_le (m : IrMethod) : m.pinnedIntervals.length ≤ m.vregs.length := by
  unfold IrMethod.pinnedIntervals
  rw [length_pin, length_pin]
  exact length_computeIntervals_le m

/-- Register allocation returns. -/
theorem regalloc_spec (m : IrMethod) (rf : RegFile) :
    ∃ result, m.regalloc rf = some result ∧ Allocated m result.intervals ∧
      result.safepointPositions = m.safepointPositions ∧
      result.extraOopLive = m.extraOopLive ∧
      ∀ s, s ∈ result.deoptNilInitSlots ↔
        ∃ iv ∈ result.intervals, m.nilFilled iv = true ∧ iv.assignment = some (.spill s) := by
  have hpinned := m.pinned_spec
  obtain ⟨assigned, slots, halloc, hplaced⟩ := allocate_spec rf hpinned.unassigned
  obtain ⟨resident, hres, hapart, hpool⟩ := assignResidents_spec rf m
    (place m.pinnedIntervals assigned)
  -- both passes go over the list once and leave its order alone
  have hget : ∀ iv ∈ assignResidents rf m (place m.pinnedIntervals assigned),
      ∃ (i : Nat) (iv0 : LiveInterval), m.pinnedIntervals[i]? = some iv0 ∧
        iv = { iv0 with assignment := assigned i, residentReg := resident i } := by
    intro iv hiv
    rw [hres] at hiv
    obtain ⟨⟨iv1, i⟩, hmem, rfl⟩ := List.mem_map.mp hiv
    have h1 : (place m.pinnedIntervals assigned)[i]? = some iv1 :=
      List.mem_zipIdx_iff_getElem?.mp hmem
    rw [getElem?_place] at h1
    obtain ⟨iv0, h0, rfl⟩ := Option.map_eq_some_iff.mp h1
    exact ⟨i, iv0, h0, rfl⟩
  have hvregs : (assignResidents rf m (place m.pinnedIntervals assigned)).map LiveInterval.vreg =
      m.pinnedIntervals.map LiveInterval.vreg := by
    rw [hres]
    refine List.ext_getElem? fun i => ?_
    rw [List.getElem?_map, List.getElem?_map, List.getElem?_zipIdx, getElem?_place,
      List.getElem?_map]
    cases m.pinnedIntervals[i]? with
    | none => rfl
    | some iv => rfl
  have hne : ∀ {i j : Nat} {a b : LiveInterval}, m.pinnedIntervals[i]? = some a →
      m.pinnedIntervals[j]? = some b → a.vreg ≠ b.vreg → i ≠ j := by
    rintro i j a b ha hb hv rfl
    rw [ha] at hb
    cases hb
    exact hv rfl
  have hnth1 : ∀ {i : Nat} {a : LiveInterval}, m.pinnedIntervals[i]? = some a →
      nth (place m.pinnedIntervals assigned) i = { a with assignment := assigned i } := by
    intro i a ha
    refine nth_of_getElem? ?_
    rw [getElem?_place, ha]
    rfl
  unfold IrMethod.regalloc
  rw [halloc]
  refine ⟨_, rfl, ⟨?_, ?_, ?_, ?_, ?_, ?_, ?_, ?_, ?_⟩, rfl, rfl, ?_⟩
  · intro iv hiv
    obtain ⟨i, iv0, h0, rfl⟩ := hget iv hiv
    exact { hpinned.each iv0 (List.mem_of_getElem? h0) with }
  · simp only [hvregs]
    exact hpinned.nodup
  · intro v hv
    obtain ⟨iv, hiv, rfl⟩ := hpinned.all v hv
    have hmem : iv.vreg ∈ m.pinnedIntervals.map LiveInterval.vreg :=
      List.mem_map.mpr ⟨iv, hiv, rfl⟩
    rw [← hvregs] at hmem
    exact List.mem_map.mp hmem
  · intro iv hiv
    obtain ⟨i, iv0, h0, rfl⟩ := hget iv hiv
    exact (hplaced.all i).mpr (List.getElem?_eq_some_iff.mp h0).1
  · intro iv hiv hc
    obtain ⟨i, iv0, h0, rfl⟩ := hget iv hiv
    refine hplaced.crossing i (List.getElem?_eq_some_iff.mp h0).1 ?_
    rw [nth_of_getElem? h0]
    exact hc
  · intro iv hiv iv' hiv' hv hc r hr hr'
    obtain ⟨i, a, ha, rfl⟩ := hget iv hiv
    obtain ⟨j, b, hb, rfl⟩ := hget iv' hiv'
    have := hplaced.apart i j r (hne ha hb hv)
    rw [nth_of_getElem? ha, nth_of_getElem? hb] at this
    exact this hc hr hr'
  · intro hlen iv hiv iv' hiv' s hs hs'
    obtain ⟨i, a, ha, rfl⟩ := hget iv hiv
    obtain ⟨j, b, hb, rfl⟩ := hget iv' hiv'
    have hij := hplaced.slots ((length_pinnedIntervals_le m).trans hlen) i j s hs hs'
    rw [hij, hb] at ha
    cases ha
    rfl
  · intro iv hiv iv' hiv' hv hc r hr hr'
    obtain ⟨i, a, ha, rfl⟩ := hget iv hiv
    obtain ⟨j, b, hb, rfl⟩ := hget iv' hiv'
    have := hapart i j r (hne ha hb hv)
    rw [hnth1 ha, hnth1 hb] at this
    exact this hc hr hr'
  · intro iv hiv iv' hiv' hc r hr hr'
    obtain ⟨i, a, ha, rfl⟩ := hget iv hiv
    obtain ⟨j, b, hb, rfl⟩ := hget iv' hiv'
    have hin := hpool i r hr
    rw [hnth1 ha] at hin
    have hpb := hplaced.inPool j r hr'
    rw [nth_of_getElem? hb] at hpb
    have hmem : ({ b with assignment := assigned j } : LiveInterval) ∈
        place m.pinnedIntervals assigned := by
      refine List.mem_of_getElem? (i := j) ?_
      rw [getElem?_place, hb]
      rfl
    refine not_mem_residentPool hmem hr' hpb ?_
    rw [show ({ b with assignment := assigned j } : LiveInterval).isFp = a.isFp from hc.symm]
    exact hin
  · intro s
    simp only [List.mem_dedup, List.mem_insertionSort, List.mem_filterMap, List.mem_filter]
    constructor
    · rintro ⟨iv, ⟨hiv, hnil⟩, heq⟩
      refine ⟨iv, hiv, hnil, ?_⟩
      split at heq
      · rename_i slot ha
        cases heq
        exact ha
      · cases heq
    · rintro ⟨iv, hiv, hnil, ha⟩
      exact ⟨iv, ⟨hiv, hnil⟩, by rw [ha]⟩

end WinVm.Compiler
