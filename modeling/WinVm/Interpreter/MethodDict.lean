import WinVm.Lib.Probing
import Mathlib.Data.List.Dedup

/-!
# Method dictionaries

`MethodDictOop`: an open-addressed table of selectors and methods that lives in the heap, so a
collection moves everything in it, nil included. The static types `SymbolOop` and `MethodOop` stand
for checks that keys and values pass.

Result: `DictRun.refines`, over every run the dictionary is the map that binds each selector to the
method inserted for it last.
-/

namespace WinVm.Interpreter

open WinVm.Lib WinVm.Lib.Probing

/-- What a dictionary reads outside itself: where nil is, and the identity hash of a selector. -/
structure World where
  nil : Nat
  hash : Nat → Nat

/-- A collection: where each object goes, and the world afterwards. -/
structure Collection where
  move : Nat → Nat
  after : World

structure MethodDict where
  tally : Nat
  capacity : Nat
  slots : Nat → Nat × Nat

namespace MethodDict

def mask (d : MethodDict) : Nat := d.capacity - 1

def next (d : MethodDict) (i : Nat) : Nat := (i + 1) &&& d.mask

/-- One round of the loop of `probe_slot`: an empty slot, the selector, or on to the next slot. -/
def seek (d : MethodDict) (w : World) (selector i : Nat) : Option (Option Nat) :=
  if (d.slots i).1 = w.nil then some none
  else if (d.slots i).1 = selector then some (some i)
  else none

/-- `probe_slot`; `none` for a selector without an identity hash, which fails an assertion. -/
def probeSlot (d : MethodDict) (w : World) (selector : Nat) : Option (Option Nat) :=
  if d.capacity = 0 then some none
  else if w.hash selector = 0 then none
  else
    -- a lap without a result: the table is full and the selector absent
    some ((walk d.next (d.seek w selector) d.capacity (w.hash selector &&& d.mask)).getD none)

def probe (d : MethodDict) (w : World) (selector : Nat) : Option (Option Nat) := do
  let slot ← d.probeSlot w selector
  some (slot.map fun i => (d.slots i).2)

/-- `raw_insert_new`, which panics after more probes than slots. -/
def rawInsertNew (d : MethodDict) (w : World) (selector method : Nat) : Option MethodDict := do
  let i ← walk d.next (fun i => if (d.slots i).1 = w.nil then some i else none) (d.capacity + 1)
    (w.hash selector &&& d.mask)
  some { d with slots := Function.update d.slots i (selector, method) }

/-- `alloc_method_dict`: all slots nil. -/
def alloc (w : World) (capacity : Nat) : MethodDict := ⟨0, capacity, fun _ => (w.nil, w.nil)⟩

/-- The dictionary as a collection leaves it. -/
def relocate (d : MethodDict) (move : Nat → Nat) : MethodDict :=
  { d with slots := fun i => (move (d.slots i).1, move (d.slots i).2) }

/-- One slot of the rehash. -/
def rehashSlot (old : MethodDict) (w : World) (grown : MethodDict) (i : Nat) : Option MethodDict :=
  if (old.slots i).1 ≠ w.nil then grown.rawInsertNew w (old.slots i).1 (old.slots i).2
  else some grown

/-- The rehash of the old slots into a grown dictionary. -/
def rehash (old : MethodDict) (w : World) (grown : MethodDict) : Option MethodDict :=
  (List.range old.capacity).foldlM (old.rehashSlot w) grown

/-- `insert`, with the dictionary to use from now on, the world and what has moved. The growth
allocates: then `gc` is what it collects. -/
def insert (d : MethodDict) (w : World) (selector method : Nat) (gc : Collection) :
    Option (MethodDict × World × (Nat → Nat)) := do
  match ← d.probeSlot w selector with
  | some slot =>
    some ({ d with slots := Function.update d.slots slot ((d.slots slot).1, method) }, w, id)
  | none =>
    if d.capacity = 0 ∨ 3 * d.capacity < 4 * (d.tally + 1) then
      let grown := alloc gc.after (max (d.capacity * 2) 8)
      let grown ← (d.relocate gc.move).rehash gc.after grown
      let dict ← { grown with tally := d.tally }.rawInsertNew gc.after (gc.move selector)
        (gc.move method)
      some ({ dict with tally := dict.tally + 1 }, gc.after, gc.move)
    else
      let dict ← d.rawInsertNew w selector method
      some ({ dict with tally := dict.tally + 1 }, w, id)

end MethodDict

/-! ## Runs -/

section

variable {Obj : Type} (nil : Obj) (hashOf : Obj → Nat)

/-- Where the objects are: each has its own address, and its hash stays with it. -/
structure Placed (w : World) (place : Obj → Nat) : Prop where
  injective : Function.Injective place
  nil : w.nil = place nil
  hash : ∀ o, w.hash (place o) = hashOf o

/-- The runs of a dictionary: inserts, each with the collection its growth may cause, and
collections in between. The last argument holds what was inserted, the latest first. -/
inductive DictRun : MethodDict → World → (Obj → Nat) → List (Obj × Obj) → Prop
  | alloc {w : World} {place : Obj → Nat} (k : Nat) :
      Placed nil hashOf w place → DictRun (.alloc w (2 ^ k)) w place []
  | insert {d d' : MethodDict} {w w' : World} {place : Obj → Nat} {history : List (Obj × Obj)}
      {selector method : Obj} {gc : Collection} {move : Nat → Nat} :
      DictRun d w place history → selector ≠ nil → hashOf selector ≠ 0 →
      Placed nil hashOf gc.after (fun o => gc.move (place o)) →
      d.insert w (place selector) (place method) gc = some (d', w', move) →
      DictRun d' w' (fun o => move (place o)) ((selector, method) :: history)
  | collect {d : MethodDict} {w : World} {place : Obj → Nat} {history : List (Obj × Obj)}
      {gc : Collection} :
      DictRun d w place history → Placed nil hashOf gc.after (fun o => gc.move (place o)) →
      DictRun (d.relocate gc.move) gc.after (fun o => gc.move (place o)) history

end

/-! ## The table of a dictionary -/

/-- The selectors of a table. -/
def keys {Obj : Type} (t : Nat → Option (Obj × Obj)) : Nat → Option Obj := fun i => (t i).map Prod.fst

/-- The slots of a dictionary hold this table: the addresses of its objects, and nil elsewhere. -/
structure Represents {Obj : Type} (nil : Obj) (place : Obj → Nat) (d : MethodDict)
    (t : Nat → Option (Obj × Obj)) : Prop where
  free : ∀ i, i < d.capacity → t i = none → (d.slots i).1 = place nil
  taken : ∀ i, i < d.capacity → ∀ k v, t i = some (k, v) →
    d.slots i = (place k, place v) ∧ k ≠ nil

/-- A table with room whose entries can all be found. -/
structure WfDict {Obj : Type} (nil : Obj) (hashOf : Obj → Nat) (place : Obj → Nat) (d : MethodDict)
    (t : Nat → Option (Obj × Obj)) : Prop where
  power : ∃ k, d.capacity = 2 ^ k
  represents : Represents nil place d t
  chained : Chained d.capacity hashOf (keys t)
  room : occupied d.capacity (keys t) < d.capacity

section

variable {Obj : Type} {nil : Obj} {hashOf : Obj → Nat} {place : Obj → Nat} {d : MethodDict}
  {w : World} {t : Nat → Option (Obj × Obj)} {s m : Obj}

theorem keys_update (t : Nat → Option (Obj × Obj)) (i : Nat) (s m : Obj) :
    keys (Function.update t i (some (s, m))) = Function.update (keys t) i (some s) :=
  Function.comp_update (Option.map Prod.fst) t i (some (s, m))

theorem keys_eq_some {i : Nat} : keys t i = some s ↔ ∃ v, t i = some (s, v) := by
  unfold keys
  rw [Option.map_eq_some_iff]
  constructor
  · rintro ⟨⟨k, v⟩, hkv, rfl⟩
    exact ⟨v, hkv⟩
  · rintro ⟨v, hkv⟩
    exact ⟨(s, v), hkv, rfl⟩

theorem keys_eq_none {i : Nat} : keys t i = none ↔ t i = none := Option.map_eq_none_iff

/-- Masking is the remainder for a capacity that is a power of two. -/
theorem and_mask (hpow : ∃ k, d.capacity = 2 ^ k) (n : Nat) : n &&& d.mask = n % d.capacity := by
  obtain ⟨k, hk⟩ := hpow
  unfold MethodDict.mask
  rw [hk, Nat.and_two_pow_sub_one_eq_mod]

namespace Represents

variable (h : Represents nil place d t)
include h

theorem key_nil {w : World} (hw : w.nil = place nil) {i : Nat} (hi : i < d.capacity)
    (hnone : keys t i = none) : (d.slots i).1 = w.nil := by
  rw [hw]
  exact h.free i hi (keys_eq_none.mp hnone)

theorem key_eq {i : Nat} (hi : i < d.capacity) {k : Obj} (hk : keys t i = some k) :
    (d.slots i).1 = place k ∧ k ≠ nil := by
  obtain ⟨v, hv⟩ := keys_eq_some.mp hk
  obtain ⟨hslot, hne⟩ := h.taken i hi k v hv
  exact ⟨congrArg Prod.fst hslot, hne⟩

/-- Writing a pair of objects into a slot. -/
theorem update {d' : MethodDict} {i : Nat} (hs : s ≠ nil) (hcap : d'.capacity = d.capacity)
    (hslots : d'.slots = Function.update d.slots i (place s, place m)) :
    Represents nil place d' (Function.update t i (some (s, m))) := by
  constructor
  · intro j hj hnone
    rw [hcap] at hj
    have hne : j ≠ i := by
      rintro rfl
      rw [Function.update_self] at hnone
      cases hnone
    rw [Function.update_of_ne hne] at hnone
    rw [hslots, Function.update_of_ne hne]
    exact h.free j hj hnone
  · intro j hj k v hkv
    rw [hcap] at hj
    by_cases hne : j = i
    · rw [hne, Function.update_self] at hkv
      cases hkv
      rw [hslots, hne, Function.update_self]
      exact ⟨rfl, hs⟩
    · rw [Function.update_of_ne hne] at hkv
      rw [hslots, Function.update_of_ne hne]
      exact h.taken j hj k v hkv

/-- A collection moves the objects, not the table. -/
theorem relocate {move : Nat → Nat} :
    Represents nil (fun o => move (place o)) (d.relocate move) t := by
  constructor
  · intro i hi hnone
    exact congrArg move (h.free i hi hnone)
  · intro i hi k v hkv
    obtain ⟨hslot, hne⟩ := h.taken i hi k v hkv
    refine ⟨?_, hne⟩
    change (move (d.slots i).1, move (d.slots i).2) = _
    rw [hslot]

end Represents

/-! ## Probes -/

namespace WfDict

variable (h : WfDict nil hashOf place d t) (hw : Placed nil hashOf w place)
include h hw

/-- A slot with another key sends the probe on. -/
theorem seek_other {i : Nat} (hi : i < d.capacity) {k : Obj} (hk : keys t i = some k)
    (hne : k ≠ s) : d.seek w (place s) i = none := by
  obtain ⟨hkey, hnil⟩ := h.represents.key_eq hi hk
  unfold MethodDict.seek
  rw [hkey, if_neg, if_neg]
  · exact fun heq => hne (hw.injective heq)
  · rw [hw.nil]
    exact fun heq => hnil (hw.injective heq)

/-- What a probe comes to, from the walk it does. -/
theorem probeSlot_of_walk {r : Option Nat} (hpos : 0 < d.capacity) (hhash : hashOf s ≠ 0)
    (hwalk : walk d.next (d.seek w (place s)) d.capacity (hashOf s % d.capacity) = some r) :
    d.probeSlot w (place s) = some r := by
  unfold MethodDict.probeSlot
  rw [if_neg hpos.ne', hw.hash, if_neg hhash, and_mask h.power, hwalk]
  rfl

/-- A probe for a selector of the table ends at its slot. -/
theorem probeSlot_of_mem {i : Nat} (hi : i < d.capacity) (hk : keys t i = some s)
    (hhash : hashOf s ≠ 0) : d.probeSlot w (place s) = some (some i) := by
  obtain ⟨D, hD, hat, hpath⟩ := h.chained.path hi hk
  have hpos : 0 < d.capacity := Nat.zero_lt_of_lt hi
  refine h.probeSlot_of_walk hw hpos hhash
    (walk_eq (fun j => and_mask h.power _) ?_ (fun e he => ?_) hD)
  · obtain ⟨hkey, hne⟩ := h.represents.key_eq hi hk
    unfold MethodDict.seek
    rw [hat, hkey, if_neg, if_pos rfl]
    rw [hw.nil]
    exact fun heq => hne (hw.injective heq)
  · obtain ⟨k, hk', hne⟩ := hpath e he
    exact h.seek_other hw (slotAt_lt hpos) hk' hne

/-- A probe for any other selector ends at an empty slot. -/
theorem probeSlot_of_absent (habsent : ¬ Holds d.capacity (keys t) s) (hhash : hashOf s ≠ 0) :
    d.probeSlot w (place s) = some none := by
  obtain ⟨D, hD, hfree, hbefore⟩ := first_free h.room (hashOf s)
  have hpos : 0 < d.capacity := Nat.zero_lt_of_lt hD
  refine h.probeSlot_of_walk hw hpos hhash
    (walk_eq (fun j => and_mask h.power _) ?_ (fun e he => ?_) hD)
  · unfold MethodDict.seek
    rw [if_pos (h.represents.key_nil hw.nil (slotAt_lt hpos) hfree)]
  · obtain ⟨k, hk⟩ := Option.ne_none_iff_exists'.mp (hbefore e he)
    refine h.seek_other hw (slotAt_lt hpos) hk ?_
    rintro rfl
    exact habsent ⟨_, slotAt_lt hpos, hk⟩

/-! ## Inserts -/

/-- A selector that is not there takes the first empty slot. -/
theorem rawInsertNew (habsent : ¬ Holds d.capacity (keys t) s) (hs : s ≠ nil) :
    ∃ d' i, d.rawInsertNew w (place s) (place m) = some d' ∧ d'.tally = d.tally ∧
      d'.capacity = d.capacity ∧ i < d.capacity ∧ t i = none ∧
      Represents nil place d' (Function.update t i (some (s, m))) ∧
      Chained d.capacity hashOf (keys (Function.update t i (some (s, m)))) := by
  obtain ⟨D, hD, hfree, hbefore⟩ := first_free h.room (hashOf s)
  have hpos : 0 < d.capacity := Nat.zero_lt_of_lt hD
  have hwalk : walk d.next (fun i => if (d.slots i).1 = w.nil then some i else none)
      (d.capacity + 1) (hashOf s % d.capacity) = some (slotAt d.capacity (hashOf s) D) := by
    refine walk_eq (fun j => and_mask h.power _) ?_ (fun e he => ?_) (Nat.lt_succ_of_lt hD)
    · exact if_pos (h.represents.key_nil hw.nil (slotAt_lt hpos) hfree)
    · obtain ⟨k, hk⟩ := Option.ne_none_iff_exists'.mp (hbefore e he)
      obtain ⟨hkey, hnil⟩ := h.represents.key_eq (slotAt_lt hpos) hk
      refine if_neg ?_
      rw [hkey, hw.nil]
      exact fun heq => hnil (hw.injective heq)
  generalize hi : slotAt d.capacity (hashOf s) D = i at hwalk
  refine ⟨{ d with slots := Function.update d.slots i (place s, place m) }, i, ?_, rfl, rfl,
    hi ▸ slotAt_lt hpos, hi ▸ keys_eq_none.mp hfree, h.represents.update hs rfl rfl, ?_⟩
  · unfold MethodDict.rawInsertNew
    rw [hw.hash, and_mask h.power, hwalk]
    rfl
  · rw [keys_update, ← hi]
    exact h.chained.insert habsent hD hbefore

end WfDict

/-- The pairs of a table below a slot. -/
def Entry (n : Nat) (t : Nat → Option (Obj × Obj)) (k v : Obj) : Prop :=
  ∃ i, i < n ∧ t i = some (k, v)

/-- Writing a selector's only slot changes what is bound to it and nothing else. -/
theorem entry_update {n i : Nat} (hi : i < n) (hself : ∀ k v, t i = some (k, v) → k = s)
    (hother : ∀ j, j < n → j ≠ i → ∀ v, t j ≠ some (s, v)) (k v : Obj) :
    Entry n (Function.update t i (some (s, m))) k v ↔
      (k = s ∧ v = m) ∨ (k ≠ s ∧ Entry n t k v) := by
  constructor
  · rintro ⟨j, hj, hkv⟩
    by_cases hne : j = i
    · rw [hne, Function.update_self] at hkv
      cases hkv
      exact .inl ⟨rfl, rfl⟩
    · rw [Function.update_of_ne hne] at hkv
      refine .inr ⟨?_, j, hj, hkv⟩
      rintro rfl
      exact hother j hj hne v hkv
  · rintro (⟨rfl, rfl⟩ | ⟨hks, j, hj, hkv⟩)
    · exact ⟨i, hi, Function.update_self _ _ _⟩
    · refine ⟨j, hj, ?_⟩
      rwa [Function.update_of_ne]
      rintro rfl
      exact hks (hself k v hkv)

theorem entry_succ {n : Nat} {k v : Obj} : Entry (n + 1) t k v ↔ Entry n t k v ∨ t n = some (k, v) := by
  constructor
  · rintro ⟨i, hi, hkv⟩
    rcases Nat.lt_succ_iff_lt_or_eq.mp hi with hlt | rfl
    · exact .inl ⟨i, hlt, hkv⟩
    · exact .inr hkv
  · rintro (⟨i, hi, hkv⟩ | hkv)
    · exact ⟨i, Nat.lt_succ_of_lt hi, hkv⟩
    · exact ⟨n, Nat.lt_succ_self n, hkv⟩

theorem holds_iff_entry {n : Nat} : Holds n (keys t) s ↔ ∃ v, Entry n t s v := by
  constructor
  · rintro ⟨i, hi, hk⟩
    obtain ⟨v, hv⟩ := keys_eq_some.mp hk
    exact ⟨v, i, hi, hv⟩
  · rintro ⟨v, i, hi, hv⟩
    exact ⟨i, hi, keys_eq_some.mpr ⟨v, hv⟩⟩

/-- The empty table of a new dictionary. -/
theorem represents_alloc {w : World} (hw : w.nil = place nil) (n : Nat) :
    Represents nil place (.alloc w n) fun _ => none :=
  ⟨fun _ _ _ => hw, fun _ _ _ _ h => (nomatch h)⟩

/-- Rehashing the first slots of a dictionary into an empty one with more room. -/
theorem WfDict.rehash_prefix {old : MethodDict} (h : WfDict nil hashOf place old t)
    (hw : Placed nil hashOf w place) {cap : Nat} (hpow : ∃ k, cap = 2 ^ k)
    (hcap : old.capacity ≤ cap) (n : Nat) (hn : n ≤ old.capacity) :
    ∃ g tn, (List.range n).foldlM (old.rehashSlot w) (.alloc w cap) = some g ∧ g.capacity = cap ∧
      Represents nil place g tn ∧ Chained cap hashOf (keys tn) ∧
      occupied cap (keys tn) = occupied n (keys t) ∧ ∀ k v, Entry cap tn k v ↔ Entry n t k v := by
  induction n with
  | zero =>
    refine ⟨_, fun _ => none, rfl, rfl, represents_alloc hw.nil cap, chained_empty, ?_, fun k v => ?_⟩
    · exact occupied_empty
    · exact ⟨fun ⟨_, _, h⟩ => (nomatch h), fun ⟨_, h, _⟩ => absurd h (Nat.not_lt_zero _)⟩
  | succ n ih =>
    obtain ⟨g, tn, hfold, hgcap, hrep, hchained, hocc, hentry⟩ := ih (Nat.le_of_succ_le hn)
    have hroom : occupied n (keys t) < cap :=
      ((occupied_mono (Nat.le_of_succ_le hn)).trans_lt h.room).trans_le hcap
    have hstep : (List.range (n + 1)).foldlM (old.rehashSlot w) (.alloc w cap) =
        old.rehashSlot w g n := by
      rw [List.range_succ, List.foldlM_append, hfold]
      simp only [Option.bind_eq_bind, Option.bind_some, List.foldlM_cons, List.foldlM_nil, bind_pure]
    rw [occupied_succ, hstep]
    unfold MethodDict.rehashSlot
    cases htn : t n with
    | none =>
      have hkey := h.represents.key_nil hw.nil hn (keys_eq_none.mpr htn)
      refine ⟨g, tn, if_neg (not_not.mpr hkey), hgcap, hrep, hchained, ?_, fun k v => ?_⟩
      · rw [keys_eq_none.mpr htn]
        exact hocc
      · rw [entry_succ, htn, hentry]
        simp
    | some e =>
      obtain ⟨k0, v0⟩ := e
      obtain ⟨hslot, hnil⟩ := h.represents.taken n hn k0 v0 htn
      have hk0 : keys t n = some k0 := keys_eq_some.mpr ⟨v0, htn⟩
      have habsent : ¬ Holds cap (keys tn) k0 := by
        rw [holds_iff_entry]
        rintro ⟨v, hv⟩
        obtain ⟨j, hj, hjv⟩ := (hentry k0 v).mp hv
        have := h.chained.unique j (hj.trans hn) n hn k0 (keys_eq_some.mpr ⟨v, hjv⟩) hk0
        omega
      subst hgcap
      have hg : WfDict nil hashOf place g tn := ⟨hpow, hrep, hchained, by rwa [hocc]⟩
      obtain ⟨g', i, hcall, -, hcap', hi, hfree, hrep', hchained'⟩ :=
        hg.rawInsertNew (m := v0) hw habsent hnil
      refine ⟨g', _, ?_, hcap', hrep', hchained', ?_, fun k v => ?_⟩
      · rw [hslot, if_pos]
        · exact hcall
        · rw [hw.nil]
          exact fun heq => hnil (hw.injective heq)
      · rw [keys_update, occupied_update hi (keys_eq_none.mpr hfree), hocc, hk0]
        rfl
      · rw [entry_succ, htn, entry_update hi (by rw [hfree]; exact fun _ _ hn => (nomatch hn))
          fun j hj _ v hv => habsent ⟨j, hj, keys_eq_some.mpr ⟨v, hv⟩⟩, hentry]
        have hne : Entry n t k v → k ≠ k0 := by
          rintro hkv rfl
          exact habsent (holds_iff_entry.mpr ⟨v, (hentry k v).mpr hkv⟩)
        constructor
        · rintro (⟨rfl, rfl⟩ | ⟨-, hkv⟩)
          · exact .inr rfl
          · exact .inl hkv
        · rintro (hkv | heq)
          · exact .inr ⟨hne hkv, hkv⟩
          · cases heq
            exact .inl ⟨rfl, rfl⟩

theorem Represents.withTally (h : Represents nil place d t) (n : Nat) :
    Represents nil place { d with tally := n } t :=
  ⟨h.free, h.taken⟩

/-- The end of an insert that found the selector absent. -/
theorem WfDict.insertAbsent (h : WfDict nil hashOf place d t) (hw : Placed nil hashOf w place)
    (htally : d.tally = occupied d.capacity (keys t)) (habsent : ¬ Holds d.capacity (keys t) s)
    (hs : s ≠ nil) (hroom : d.tally + 1 < d.capacity) :
    ∃ d' t', d.rawInsertNew w (place s) (place m) = some d' ∧ d'.tally = d.tally ∧
      WfDict nil hashOf place { d' with tally := d'.tally + 1 } t' ∧
      d'.tally + 1 = occupied d'.capacity (keys t') ∧
      ∀ k v, Entry d'.capacity t' k v ↔ (k = s ∧ v = m) ∨ (k ≠ s ∧ Entry d.capacity t k v) := by
  obtain ⟨d', i, hcall, ht, hcap, hi, hfree, hrep, hchained⟩ := h.rawInsertNew (m := m) hw habsent hs
  have hocc : occupied d.capacity (keys (Function.update t i (some (s, m)))) =
      occupied d.capacity (keys t) + 1 := by
    rw [keys_update, occupied_update hi (keys_eq_none.mpr hfree)]
  refine ⟨d', Function.update t i (some (s, m)), hcall, ht, ⟨?_, hrep.withTally _, ?_, ?_⟩, ?_, ?_⟩
  · exact hcap ▸ h.power
  · exact hcap ▸ hchained
  · dsimp only
    rw [hcap, hocc]
    omega
  · rw [hcap, hocc, ht, htally]
  · rw [hcap]
    exact entry_update hi (by rw [hfree]; exact fun _ _ hn => (nomatch hn))
      fun j hj _ v hv => habsent ⟨j, hj, keys_eq_some.mpr ⟨v, hv⟩⟩

/-- The grown dictionary, before the new pair goes in. -/
theorem WfDict.grow (h : WfDict nil hashOf place d t) (hw : Placed nil hashOf w place) :
    ∃ g tn, d.rehash w (.alloc w (max (d.capacity * 2) 8)) = some g ∧
      WfDict nil hashOf place g tn ∧ g.capacity = max (d.capacity * 2) 8 ∧
      occupied g.capacity (keys tn) = occupied d.capacity (keys t) ∧
      ∀ k v, Entry g.capacity tn k v ↔ Entry d.capacity t k v := by
  have hpow : ∃ k, max (d.capacity * 2) 8 = 2 ^ k := by
    obtain ⟨k, hk⟩ := h.power
    rw [hk, ← Nat.pow_succ]
    rcases Nat.le_total (2 ^ (k + 1)) 8 with hle | hle
    · exact ⟨3, Nat.max_eq_right hle⟩
    · exact ⟨k + 1, Nat.max_eq_left hle⟩
  obtain ⟨g, tn, hfold, hcap, hrep, hchained, hocc, hentry⟩ :=
    h.rehash_prefix hw hpow (by omega) d.capacity (Nat.le_refl _)
  rw [← hcap] at hpow hchained hocc hentry
  refine ⟨g, tn, hfold, ⟨hpow, hrep, hchained, ?_⟩, hcap, hocc, hentry⟩
  have := h.room
  rw [hocc, hcap]
  omega

/-- What an insert does: it ends, and binds the selector to the method. -/
theorem WfDict.insert (h : WfDict nil hashOf place d t) (hw : Placed nil hashOf w place)
    (htally : d.tally = occupied d.capacity (keys t)) (hs : s ≠ nil) (hhash : hashOf s ≠ 0)
    {gc : Collection} (hgc : Placed nil hashOf gc.after fun o => gc.move (place o)) :
    ∃ d' w' move t', d.insert w (place s) (place m) gc = some (d', w', move) ∧
      Placed nil hashOf w' (fun o => move (place o)) ∧
      WfDict nil hashOf (fun o => move (place o)) d' t' ∧
      d'.tally = occupied d'.capacity (keys t') ∧
      (Holds d.capacity (keys t) s → d'.tally = d.tally) ∧
      (¬ Holds d.capacity (keys t) s → d'.tally = d.tally + 1) ∧
      ∀ k v, Entry d'.capacity t' k v ↔ (k = s ∧ v = m) ∨ (k ≠ s ∧ Entry d.capacity t k v) := by
  unfold MethodDict.insert
  by_cases hholds : Holds d.capacity (keys t) s
  · -- an overwrite in place
    obtain ⟨i, hi, hk⟩ := id hholds
    obtain ⟨v0, hv0⟩ := keys_eq_some.mp hk
    obtain ⟨hslot, -⟩ := h.represents.taken i hi s v0 hv0
    have hkeys : keys (Function.update t i (some (s, m))) = keys t := by
      rw [keys_update, ← hk, Function.update_eq_self]
    rw [h.probeSlot_of_mem hw hi hk hhash]
    refine ⟨_, w, id, Function.update t i (some (s, m)), rfl, hw,
      ⟨h.power, h.represents.update hs rfl ?_, ?_, ?_⟩, ?_, fun _ => rfl,
      fun hn => absurd hholds hn, ?_⟩
    · rw [hslot]
    · rw [hkeys]
      exact h.chained
    · rw [hkeys]
      exact h.room
    · rw [hkeys]
      exact htally
    · refine entry_update hi (fun k v hkv => ?_) fun j hj hne v hv => hne ?_
      · rw [hv0] at hkv
        cases hkv
        rfl
      · exact h.chained.unique j hj i hi s (keys_eq_some.mpr ⟨v, hv⟩) hk
  · rw [h.probeSlot_of_absent hw hholds hhash]
    simp only [Option.bind_eq_bind, Option.bind_some]
    by_cases hgrow : d.capacity = 0 ∨ 3 * d.capacity < 4 * (d.tally + 1)
    · rw [if_pos hgrow]
      have hmoved : WfDict nil hashOf (fun o => gc.move (place o)) (d.relocate gc.move) t :=
        ⟨h.power, h.represents.relocate, h.chained, h.room⟩
      obtain ⟨g, tn, hrehash, hg, hcap, hocc, hentry⟩ := hmoved.grow hgc
      change occupied g.capacity (keys tn) = occupied d.capacity (keys t) at hocc
      change ∀ k v, Entry g.capacity tn k v ↔ Entry d.capacity t k v at hentry
      change g.capacity = max (d.capacity * 2) 8 at hcap
      have habsent : ¬ Holds g.capacity (keys tn) s := by
        rw [holds_iff_entry] at hholds ⊢
        rintro ⟨v, hv⟩
        exact hholds ⟨v, (hentry s v).mp hv⟩
      have hg' : WfDict nil hashOf (fun o => gc.move (place o)) { g with tally := d.tally } tn :=
        ⟨hg.power, hg.represents.withTally _, hg.chained, hg.room⟩
      have hroom := h.room
      obtain ⟨d', t', hcall, hsame, hwf, ht, hentry'⟩ := hg'.insertAbsent (m := m) hgc
        (htally.trans hocc.symm) habsent hs (by dsimp only; omega)
      refine ⟨_, gc.after, gc.move, t', ?_, hgc, hwf, ht, fun hn => absurd hn hholds,
        fun _ => congrArg Nat.succ hsame, fun k v => ?_⟩
      · have hrehash' : (d.relocate gc.move).rehash gc.after
            (.alloc gc.after (max (d.capacity * 2) 8)) = some g := hrehash
        rw [hrehash', Option.bind_some, hcall, Option.bind_some]
      · rw [hentry', hentry]
    · rw [if_neg hgrow]
      obtain ⟨d', t', hcall, hsame, hwf, ht, hentry'⟩ := h.insertAbsent (m := m) hw htally hholds hs
        (by have := h.room; omega)
      refine ⟨_, w, id, t', ?_, hw, hwf, ht, fun hn => absurd hn hholds,
        fun _ => congrArg Nat.succ hsame, hentry'⟩
      rw [hcall]
      rfl

/-! ## Over a run -/

variable [DecidableEq Obj] {history : List (Obj × Obj)}

/-- What was inserted for a selector last. -/
def lastInsert : List (Obj × Obj) → Obj → Option Obj
  | [], _ => none
  | (k, v) :: rest, s => if s = k then some v else lastInsert rest s

theorem mem_iff_lastInsert : s ∈ history.map Prod.fst ↔ ∃ v, lastInsert history s = some v := by
  induction history with
  | nil => simp [lastInsert]
  | cons e history ih =>
    obtain ⟨k, v⟩ := e
    rw [List.map_cons, List.mem_cons, ih, lastInsert]
    by_cases hk : s = k
    · simp [hk]
    · simp [hk]

/-- The table of a dictionary holds what was inserted. -/
structure DictInv (nil : Obj) (hashOf : Obj → Nat) (d : MethodDict) (w : World) (place : Obj → Nat)
    (t : Nat → Option (Obj × Obj)) (history : List (Obj × Obj)) : Prop where
  placed : Placed nil hashOf w place
  wf : WfDict nil hashOf place d t
  count : d.tally = occupied d.capacity (keys t)
  tally : d.tally = (history.map Prod.fst).dedup.length
  entries : ∀ k v, Entry d.capacity t k v ↔ lastInsert history k = some v

theorem DictInv.holds_iff (h : DictInv nil hashOf d w place t history) :
    Holds d.capacity (keys t) s ↔ s ∈ history.map Prod.fst := by
  rw [holds_iff_entry, mem_iff_lastInsert]
  exact exists_congr (h.entries s)

theorem DictInv.alloc (hw : Placed nil hashOf w place) (k : Nat) :
    DictInv nil hashOf (.alloc w (2 ^ k)) w place (fun _ => none) [] := by
  have hocc : occupied (2 ^ k) (keys fun _ => (none : Option (Obj × Obj))) = 0 := occupied_empty
  refine ⟨hw, ⟨⟨k, rfl⟩, represents_alloc hw.nil _, chained_empty, ?_⟩, hocc.symm, rfl, fun _ _ => ?_⟩
  · exact hocc.trans_lt (Nat.two_pow_pos k)
  · exact ⟨fun ⟨_, _, h⟩ => (nomatch h), fun h => (nomatch h)⟩

theorem DictInv.insert (h : DictInv nil hashOf d w place t history) (hs : s ≠ nil)
    (hhash : hashOf s ≠ 0) {gc : Collection}
    (hgc : Placed nil hashOf gc.after fun o => gc.move (place o)) :
    ∃ d' w' move t', d.insert w (place s) (place m) gc = some (d', w', move) ∧
      DictInv nil hashOf d' w' (fun o => move (place o)) t' ((s, m) :: history) := by
  obtain ⟨d', w', move, t', hcall, hw', hwf, hocc, hold, hnew, hentry⟩ :=
    h.wf.insert (m := m) h.placed h.count hs hhash hgc
  refine ⟨d', w', move, t', hcall, hw', hwf, hocc, ?_, fun k v => ?_⟩
  · rw [List.map_cons]
    by_cases hmem : s ∈ history.map Prod.fst
    · rw [List.dedup_cons_of_mem hmem, ← h.tally]
      exact hold (h.holds_iff.mpr hmem)
    · rw [List.dedup_cons_of_notMem hmem, List.length_cons, ← h.tally]
      exact hnew fun hn => hmem (h.holds_iff.mp hn)
  · rw [hentry, h.entries, lastInsert]
    by_cases hk : k = s
    · simp [hk, eq_comm]
    · simp [hk]

theorem DictRun.inv (hrun : DictRun nil hashOf d w place history) :
    ∃ t, DictInv nil hashOf d w place t history := by
  induction hrun with
  | alloc k hw => exact ⟨_, .alloc hw k⟩
  | insert _ hs hhash hgc hcall ih =>
    obtain ⟨t, h⟩ := ih
    obtain ⟨d', w', move, t', hcall', h'⟩ := h.insert hs hhash hgc
    rw [hcall] at hcall'
    cases hcall'
    exact ⟨t', h'⟩
  | collect _ hgc ih =>
    obtain ⟨t, h⟩ := ih
    exact ⟨t, hgc, ⟨h.wf.power, h.wf.represents.relocate, h.wf.chained, h.wf.room⟩, h.count,
      h.tally, h.entries⟩

/-- Over every run a probe ends with the method of the selector's last insert, or with nothing; the
tally counts the selectors, the capacity is a power of two with an empty slot, and an insert ends. -/
theorem DictRun.refines (hrun : DictRun nil hashOf d w place history) :
    (∀ s, hashOf s ≠ 0 → d.probe w (place s) = some ((lastInsert history s).map place)) ∧
    d.tally = (history.map Prod.fst).dedup.length ∧
    (∃ k, d.capacity = 2 ^ k) ∧ (∃ i, i < d.capacity ∧ (d.slots i).1 = w.nil) ∧
    ∀ s m gc, s ≠ nil → hashOf s ≠ 0 → Placed nil hashOf gc.after (fun o => gc.move (place o)) →
      (d.insert w (place s) (place m) gc).isSome = true := by
  obtain ⟨t, h⟩ := hrun.inv
  refine ⟨fun s hhash => ?_, h.tally, h.wf.power, ?_, fun s m gc hs hhash hgc => ?_⟩
  · unfold MethodDict.probe
    by_cases hmem : Holds d.capacity (keys t) s
    · obtain ⟨i, hi, hk⟩ := hmem
      obtain ⟨v, hv⟩ := keys_eq_some.mp hk
      rw [h.wf.probeSlot_of_mem h.placed hi hk hhash, (h.entries s v).mp ⟨i, hi, hv⟩]
      have hslot := (h.wf.represents.taken i hi s v hv).1
      simp [hslot]
    · have hnone : lastInsert history s = none := by
        rw [Option.eq_none_iff_forall_ne_some]
        exact fun v hv => hmem (holds_iff_entry.mpr ⟨v, (h.entries s v).mpr hv⟩)
      rw [h.wf.probeSlot_of_absent h.placed hmem hhash, hnone]
      rfl
  · obtain ⟨i, hi, hfree⟩ := exists_free h.wf.room
    exact ⟨i, hi, h.wf.represents.key_nil h.placed.nil hi hfree⟩
  · obtain ⟨d', w', move, t', hcall, -⟩ := h.insert (m := m) hs hhash hgc
    rw [hcall]
    rfl

/-- Two selectors of one hash in a dictionary that grows, and a method defined anew. -/
theorem DictRun.refines_collision : ∃ d w place,
    DictRun 0 (fun _ => 5) d w place [(1, 103), (2, 102), (1, 101)] ∧
      d.probe w (place 1) = some (some (place 103)) ∧ d.probe w (place 2) = some (some (place 102)) ∧
      d.probe w (place 3) = some none ∧ d.tally = 2 := by
  have hplaced : ∀ {place : Nat → Nat}, Function.Injective place →
      Placed (0 : Nat) (fun _ => 5) ⟨place 0, fun _ => 5⟩ place :=
    fun hinj => ⟨hinj, rfl, fun _ => rfl⟩
  have hshift : ∀ {w : World} {place : Nat → Nat}, Placed (0 : Nat) (fun _ => 5) w place →
      Placed (0 : Nat) (fun _ => 5) ⟨place 0 + 1000, fun _ => 5⟩ (fun o => place o + 1000) :=
    fun hw => hplaced fun _ _ heq => hw.injective (Nat.add_right_cancel heq)
  have hgrows : ∀ {d w place history} (s m : Nat), s ≠ 0 →
      DictRun (0 : Nat) (fun _ => 5) d w place history →
      ∃ d' w' place', DictRun (0 : Nat) (fun _ => 5) d' w' place' ((s, m) :: history) := by
    intro d w place history s m hs hrun
    obtain ⟨t, h⟩ := hrun.inv
    have hgc := hshift h.placed
    obtain ⟨⟨d', w', move⟩, hcall⟩ := Option.isSome_iff_exists.mp
      (hrun.refines.2.2.2.2 s m ⟨fun x => x + 1000, ⟨place 0 + 1000, fun _ => 5⟩⟩ hs (by decide) hgc)
    exact ⟨d', w', _, hrun.insert hs (by decide) hgc hcall⟩
  have h0 : DictRun (0 : Nat) (fun _ => 5) _ _ _ [] :=
    .alloc 0 (hplaced (fun _ _ heq => heq : Function.Injective fun o : Nat => o))
  obtain ⟨_, _, _, h1⟩ := hgrows 1 101 (by decide) h0
  obtain ⟨_, _, _, h2⟩ := hgrows 2 102 (by decide) h1
  obtain ⟨d, w, place, h3⟩ := hgrows 1 103 (by decide) h2
  obtain ⟨hprobe, htally, -⟩ := h3.refines
  exact ⟨d, w, place, h3, hprobe 1 (by decide), hprobe 2 (by decide), hprobe 3 (by decide), htally⟩

end

end WinVm.Interpreter
