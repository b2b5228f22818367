import WinVm.Codecache.CodeTable
import Mathlib.Data.List.TakeWhile
import Mathlib.Logic.Relation

/-!
# Coherence of the code table

The indexes of the code table name what they should: over every sequence of installations,
retirements, removals and collections, a key map only names an Alive nmethod that carries the
key, an old version never takes its replacement with it when it is retired, and `findByPc`
answers exactly for the published ranges.

The maps themselves do not survive every collection. `rehash` enters the Alive nmethods in
slot order, so the one in the highest slot wins, while `install` makes the newest one win and
reuses low slots; and a version that was overshadowed by one that is retired by now comes back.
`relocate_faithful_iff` says when a collection keeps the maps: exactly if every key is already
owned by its highest slot (`HighestSlotOwns`).
-/

namespace WinVm.Codecache

open WinVm.Interpreter

namespace CodeTable

/-! ## Slots -/

section Slots

variable {ct ct' : CodeTable} {id i : Nat} {nm : Nmethod}

theorem get_eq_some : ct.get id = some nm ↔ ct.slots[id]? = some (some nm) := by
  unfold get
  rw [Option.join_eq_some_iff]

theorem freeSlot_le : ct.freeSlot ≤ ct.slots.length := List.findIdx_le_length

theorem get_freeSlot : ct.get ct.freeSlot = none := by
  unfold get
  rcases Nat.lt_or_eq_of_le ct.freeSlot_le with hlt | heq
  · have hnone : (ct.slots[ct.freeSlot]).isNone = true := List.findIdx_getElem
    rw [List.getElem?_eq_getElem hlt, Option.isNone_iff_eq_none.mp hnone]
    rfl
  · rw [List.getElem?_eq_none (by omega)]
    rfl

theorem getElem?_setSlot {slots : List (Option Nmethod)} {v : Option Nmethod}
    (h : i ≤ slots.length) (j : Nat) :
    (setSlot slots i v)[j]? = if j = i then some v else slots[j]? := by
  unfold setSlot
  split
  next hlt =>
    rw [List.getElem?_set]
    by_cases hj : i = j
    · rw [if_pos hj, if_pos hlt, if_pos hj.symm]
    · rw [if_neg hj, if_neg (Ne.symm hj)]
  next hge =>
    have hi : i = slots.length := by omega
    subst hi
    rw [List.getElem?_append]
    split
    next hj => rw [if_neg (by omega)]
    next hj =>
      by_cases heq : j = slots.length
      · rw [if_pos heq, heq, Nat.sub_self]
        rfl
      · rw [if_neg heq, List.getElem?_eq_none (by simp; omega), List.getElem?_eq_none (by omega)]

theorem get_install (i : Nat) :
    (ct.install nm).1.get i =
      if i = ct.freeSlot then some { nm with id := ct.freeSlot } else ct.get i := by
  have hslots : (ct.install nm).1.slots =
      setSlot ct.slots ct.freeSlot (some { nm with id := ct.freeSlot }) := by
    unfold install
    cases nm.blockMethod <;> rfl
  unfold get
  rw [hslots, getElem?_setSlot ct.freeSlot_le]
  split <;> rfl

theorem install_id : (ct.install nm).2 = ct.freeSlot := by
  unfold install
  cases nm.blockMethod <;> rfl

theorem get_set (slots : List (Option Nmethod)) {v : Option Nmethod} (h : id < slots.length)
    (hs : ct.slots = slots.set id v) (i : Nat) :
    ct.get i = if i = id then v else (slots[i]?).join := by
  unfold get
  rw [hs, List.getElem?_set]
  by_cases hi : id = i
  · rw [if_pos hi, if_pos h, if_pos hi.symm]
    cases v <;> rfl
  · rw [if_neg hi, if_neg (Ne.symm hi)]

theorem lt_of_get (h : ct.get id = some nm) : id < ct.slots.length :=
  (List.getElem?_eq_some_iff.mp (get_eq_some.mp h)).1

end Slots

/-! ## One spec lemma for each operation -/

section Specs

variable {ct ct' : CodeTable} {id : Nat} {nm : Nmethod}

theorem retire_spec {st : NmState} (h : ct.retire id st = some ct') :
    ∃ nm, ct.get id = some nm ∧
      (∀ i, ct'.get i = if i = id then some { nm with state := st } else ct.get i) ∧
      ct'.byKey = (ct.unhookAll nm id).byKey ∧ ct'.byBlock = (ct.unhookAll nm id).byBlock ∧
      ct'.osrTable = (ct.unhookAll nm id).osrTable ∧ ct'.byAddr = ct.byAddr := by
  unfold retire at h
  split at h
  · cases h
  · rename_i nm hget
    cases h
    exact ⟨nm, hget, get_set ct.slots (lt_of_get hget) rfl, rfl, rfl, rfl, rfl⟩

theorem remove_spec (h : ct.remove id = some (ct', nm)) :
    ct.get id = some nm ∧ (∀ i, ct'.get i = if i = id then none else ct.get i) ∧
      ct'.byKey = ct.byKey ∧ ct'.byBlock = ct.byBlock ∧ ct'.osrTable = ct.osrTable ∧
      ∃ pos, ct.byAddr.findIdx? (fun e => e.2 == id) = some pos ∧
        ct'.byAddr = ct.byAddr.eraseIdx pos := by
  unfold remove at h
  split at h
  · cases h
  · rename_i nm' hget
    split at h
    · cases h
    · rename_i pos hpos
      cases h
      exact ⟨hget, get_set ct.slots (lt_of_get hget) rfl, rfl, rfl, rfl, pos, hpos, rfl⟩

theorem unhook_eq_some {κ : Type} [DecidableEq κ] {m : κ → Option Nat} {k k' : κ} {i : Nat} :
    unhook m k id k' = some i ↔ m k' = some i ∧ ¬ (k' = k ∧ i = id) := by
  unfold unhook
  split
  next hk =>
    by_cases hkk : k' = k
    · subst hkk
      rw [Function.update_self, hk]
      constructor
      · intro h
        cases h
      · rintro ⟨h, hn⟩
        exact absurd ⟨rfl, (Option.some.inj h).symm⟩ hn
    · rw [Function.update_of_ne hkk]
      exact ⟨fun h => ⟨h, fun hc => hkk hc.1⟩, fun h => h.1⟩
  next hk =>
    constructor
    · intro h
      refine ⟨h, ?_⟩
      rintro ⟨rfl, rfl⟩
      exact hk h
    · exact fun h => h.1

theorem byKey_unhookAll {key : Addr × Addr} {i : Nat} :
    (ct.unhookAll nm id).byKey key = some i ↔
      ct.byKey key = some i ∧ ¬ (key = nm.key ∧ i = id) := unhook_eq_some

theorem byBlock_unhookAll {b : Addr} {i : Nat} :
    (ct.unhookAll nm id).byBlock b = some i ↔
      ct.byBlock b = some i ∧ ¬ (nm.blockMethod = some b ∧ i = id) := by
  unfold unhookAll
  cases hb : nm.blockMethod with
  | none => simp
  | some b' =>
    simp only [unhook_eq_some, Option.some.injEq]
    constructor
    · rintro ⟨h, hn⟩
      exact ⟨h, fun hc => hn ⟨hc.1.symm, hc.2⟩⟩
    · rintro ⟨h, hn⟩
      exact ⟨h, fun hc => hn ⟨hc.1.symm, hc.2⟩⟩

theorem osrTable_unhookAll {k s : Addr} {b i : Nat} :
    (ct.unhookAll nm id).osrTable (k, s, b) = some i ↔
      ct.osrTable (k, s, b) = some i ∧ ¬ (nm.key = (k, s) ∧ nm.osrBci = some b ∧ i = id) := by
  unfold unhookAll
  cases hb : nm.osrBci with
  | none => simp
  | some b' =>
    simp only [unhook_eq_some, Option.some.injEq, Nmethod.key, Prod.mk.injEq]
    constructor
    · rintro ⟨h, hn⟩
      exact ⟨h, fun ⟨⟨hk, hs⟩, hb', hi⟩ => hn ⟨⟨hk.symm, hs.symm, hb'.symm⟩, hi⟩⟩
    · rintro ⟨h, hn⟩
      exact ⟨h, fun ⟨⟨hk, hs, hb'⟩, hi⟩ => hn ⟨⟨hk.symm, hs.symm⟩, hb'.symm, hi⟩⟩

end Specs

/-! ## The address index -/

section ByAddr

variable {l : List (Nat × Nat)}

theorem insertIdx_partitionPoint (p : Nat × Nat → Bool) (x : Nat × Nat) :
    l.insertIdx (partitionPoint p l) x = l.takeWhile p ++ x :: l.dropWhile p := by
  unfold partitionPoint
  induction l with
  | nil => rfl
  | cons y l ih =>
    cases hp : p y with
    | true => simp [hp, ih]
    | false => simp [hp]

/-- In a sorted table everything behind the first entry that is not below `b` is not below
it either. -/
theorem not_lt_of_mem_dropWhile {b : Nat} (hs : l.Pairwise fun e e' => e.1 < e'.1)
    {e : Nat × Nat} (he : e ∈ l.dropWhile fun e => decide (e.1 < b)) : b ≤ e.1 := by
  induction l with
  | nil => cases he
  | cons y l ih =>
    rw [List.pairwise_cons] at hs
    by_cases hy : y.1 < b
    · rw [List.dropWhile_cons_of_pos (by simpa using hy)] at he
      exact ih hs.2 he
    · rw [List.dropWhile_cons_of_neg (by simpa using hy)] at he
      rcases List.mem_cons.mp he with rfl | he
      · omega
      · have := hs.1 e he
        omega

theorem sorted_insertIdx {x : Nat × Nat} (hs : l.Pairwise fun e e' => e.1 < e'.1)
    (hx : ∀ e ∈ l, e.1 ≠ x.1) :
    (l.insertIdx (partitionPoint (fun e => decide (e.1 < x.1)) l) x).Pairwise
      fun e e' => e.1 < e'.1 := by
  rw [insertIdx_partitionPoint, List.pairwise_append]
  refine ⟨hs.sublist (List.takeWhile_sublist _), ?_, ?_⟩
  · refine List.pairwise_cons.mpr ⟨?_, hs.sublist (List.dropWhile_sublist _)⟩
    intro e he
    have hle := not_lt_of_mem_dropWhile hs he
    have hne := hx e ((List.dropWhile_sublist _).subset he)
    omega
  · intro e he e' he'
    have hlt : e.1 < x.1 := by simpa using List.mem_takeWhile_imp he
    rcases List.mem_cons.mp he' with rfl | he'
    · exact hlt
    · have := not_lt_of_mem_dropWhile hs he'
      omega

theorem mem_insertIdx_partitionPoint {p : Nat × Nat → Bool} {x e : Nat × Nat} :
    e ∈ l.insertIdx (partitionPoint p l) x ↔ e = x ∨ e ∈ l := by
  rw [insertIdx_partitionPoint]
  conv_rhs => rw [← List.takeWhile_append_dropWhile (p := p) (l := l)]
  simp only [List.mem_append, List.mem_cons]
  exact or_left_comm

/-- Erasing the entry of `id` erases no other. -/
theorem mem_eraseIdx_of_id {id pos : Nat} (hs : l.Pairwise fun e e' => e.1 < e'.1)
    (huniq : ∀ b b', (b, id) ∈ l → (b', id) ∈ l → b = b')
    (hpos : l.findIdx? (fun e => e.2 == id) = some pos) {e : Nat × Nat} :
    e ∈ l.eraseIdx pos ↔ e ∈ l ∧ e.2 ≠ id := by
  obtain ⟨hlt, hid, -⟩ := List.findIdx?_eq_some_iff_getElem.mp hpos
  have hid : l[pos].2 = id := by simpa using hid
  rw [List.mem_eraseIdx_iff_getElem?]
  constructor
  · rintro ⟨i, hi, he⟩
    obtain ⟨hil, hie⟩ := List.getElem?_eq_some_iff.mp he
    refine ⟨hie ▸ List.getElem_mem hil, fun heid => ?_⟩
    have hb := huniq e.1 l[pos].1 (by rw [← heid, ← hie]; exact List.getElem_mem hil)
      (by rw [← hid]; exact List.getElem_mem hlt)
    rcases Nat.lt_or_gt_of_ne hi with h | h
    · have := List.pairwise_iff_getElem.mp hs i pos hil hlt h
      rw [hie] at this
      omega
    · have := List.pairwise_iff_getElem.mp hs pos i hlt hil h
      rw [hie] at this
      omega
  · rintro ⟨he, hne⟩
    obtain ⟨i, hil, hie⟩ := List.getElem_of_mem he
    refine ⟨i, ?_, by rw [List.getElem?_eq_getElem hil, hie]⟩
    rintro rfl
    exact hne (hie ▸ hid)

end ByAddr

/-! ## The invariant -/

/-- What every reachable table satisfies. -/
structure Coherent (ct : CodeTable) : Prop where
  id_eq : ∀ i nm, ct.get i = some nm → nm.id = i
  byKey : ∀ key i, ct.byKey key = some i →
    ∃ nm, ct.get i = some nm ∧ nm.state = .alive ∧ nm.blockMethod = none ∧ nm.key = key
  byBlock : ∀ b i, ct.byBlock b = some i →
    ∃ nm, ct.get i = some nm ∧ nm.state = .alive ∧ nm.blockMethod = some b
  osrTable : ∀ k s b i, ct.osrTable (k, s, b) = some i →
    ∃ nm, ct.get i = some nm ∧ nm.state = .alive ∧ nm.blockMethod = none ∧
      nm.key = (k, s) ∧ nm.osrBci = some b
  sorted : ct.byAddr.Pairwise fun e e' => e.1 < e'.1
  byAddr : ∀ b i, (b, i) ∈ ct.byAddr ↔ ∃ nm, ct.get i = some nm ∧ nm.code.base = b
  apart : ∀ i j nm nm', ct.get i = some nm → ct.get j = some nm' → i ≠ j →
    nm.code.Apart nm'.code
  len_pos : ∀ i nm, ct.get i = some nm → 0 < nm.code.len

/-- The two nmethods agree in all that the indexes depend on. -/
def SameIndex (nm nm' : Nmethod) : Prop :=
  nm'.id = nm.id ∧ nm'.state = nm.state ∧ nm'.key = nm.key ∧ nm'.code = nm.code ∧
    nm'.blockMethod = nm.blockMethod ∧ nm'.osrBci = nm.osrBci

/-- Coherence only looks at the indexes and what they depend on. -/
theorem Coherent.congr {ct ct' : CodeTable} (h : Coherent ct) (hk : ct'.byKey = ct.byKey)
    (hb : ct'.byBlock = ct.byBlock) (ho : ct'.osrTable = ct.osrTable) (ha : ct'.byAddr = ct.byAddr)
    (hto : ∀ i nm, ct.get i = some nm → ∃ nm', ct'.get i = some nm' ∧ SameIndex nm nm')
    (hfrom : ∀ i nm', ct'.get i = some nm' → ∃ nm, ct.get i = some nm ∧ SameIndex nm nm') :
    Coherent ct' := by
  refine ⟨?_, ?_, ?_, ?_, by rw [ha]; exact h.sorted, ?_, ?_, ?_⟩
  · intro i nm' h'
    obtain ⟨nm, hget, hid, -⟩ := hfrom i nm' h'
    rw [hid]
    exact h.id_eq i nm hget
  · intro key i hi
    rw [hk] at hi
    obtain ⟨nm, hget, halive, hblock, hkey⟩ := h.byKey key i hi
    obtain ⟨nm', hget', -, hst, hkey', -, hblock', -⟩ := hto i nm hget
    exact ⟨nm', hget', hst.trans halive, hblock'.trans hblock, hkey'.trans hkey⟩
  · intro b i hi
    rw [hb] at hi
    obtain ⟨nm, hget, halive, hblock⟩ := h.byBlock b i hi
    obtain ⟨nm', hget', -, hst, -, -, hblock', -⟩ := hto i nm hget
    exact ⟨nm', hget', hst.trans halive, hblock'.trans hblock⟩
  · intro k s b i hi
    rw [ho] at hi
    obtain ⟨nm, hget, halive, hblock, hkey, hbci⟩ := h.osrTable k s b i hi
    obtain ⟨nm', hget', -, hst, hkey', -, hblock', hbci'⟩ := hto i nm hget
    exact ⟨nm', hget', hst.trans halive, hblock'.trans hblock, hkey'.trans hkey, hbci'.trans hbci⟩
  · intro b i
    rw [ha, h.byAddr]
    constructor
    · rintro ⟨nm, hget, hbase⟩
      obtain ⟨nm', hget', -, -, -, hcode, -⟩ := hto i nm hget
      exact ⟨nm', hget', by rw [hcode]; exact hbase⟩
    · rintro ⟨nm', hget', hbase⟩
      obtain ⟨nm, hget, -, -, -, hcode, -⟩ := hfrom i nm' hget'
      exact ⟨nm, hget, by rw [← hcode]; exact hbase⟩
  · intro i j nm₁' nm₂' h₁ h₂ hij
    obtain ⟨nm₁, hget₁, -, -, -, hcode₁, -⟩ := hfrom i nm₁' h₁
    obtain ⟨nm₂, hget₂, -, -, -, hcode₂, -⟩ := hfrom j nm₂' h₂
    rw [hcode₁, hcode₂]
    exact h.apart i j nm₁ nm₂ hget₁ hget₂ hij
  · intro i nm' h'
    obtain ⟨nm, hget, -, -, -, hcode, -⟩ := hfrom i nm' h'
    rw [hcode]
    exact h.len_pos i nm hget

theorem coherent_empty : Coherent empty := by
  have hget : ∀ i, empty.get i = none := fun i => rfl
  refine ⟨?_, ?_, ?_, ?_, List.Pairwise.nil, ?_, ?_, ?_⟩
  · intro i nm h
    rw [hget] at h
    cases h
  · intro key i h
    cases h
  · intro b i h
    cases h
  · intro k s b i h
    cases h
  · intro b i
    constructor
    · intro h
      cases h
    · rintro ⟨nm, h, -⟩
      rw [hget] at h
      cases h
  · intro i j nm nm' h
    rw [hget] at h
    cases h
  · intro i nm h
    rw [hget] at h
    cases h

theorem Coherent.install {ct : CodeTable} (h : Coherent ct) {nm : Nmethod}
    (halive : nm.state = .alive) (hlen : 0 < nm.code.len)
    (hapart : ∀ i nm', ct.get i = some nm' → nm.code.Apart nm'.code) :
    Coherent (ct.install nm).1 := by
  have hfree := ct.get_freeSlot
  have hbase : ∀ e ∈ ct.byAddr, e.1 ≠ nm.code.base := by
    rintro ⟨b, i⟩ he rfl
    obtain ⟨nm', hget, hb⟩ := (h.byAddr _ _).mp he
    have hpos := h.len_pos i nm' hget
    rcases hapart i nm' hget with hle | hle
    · omega
    · omega
  have hkeep : ∀ i nm', ct.get i = some nm' → (ct.install nm).1.get i = some nm' := by
    intro i nm' hget
    rw [get_install, if_neg, hget]
    rintro rfl
    rw [hfree] at hget
    cases hget
  have hnew : (ct.install nm).1.get ct.freeSlot = some { nm with id := ct.freeSlot } := by
    rw [get_install, if_pos rfl]
  have haddr : (ct.install nm).1.byAddr = ct.byAddr.insertIdx
      (partitionPoint (fun e => decide (e.1 < nm.code.base)) ct.byAddr)
      (nm.code.base, ct.freeSlot) := by
    unfold CodeTable.install
    cases nm.blockMethod <;> rfl
  have hosr : (ct.install nm).1.osrTable = ct.osrTable := by
    unfold CodeTable.install
    cases nm.blockMethod <;> rfl
  refine ⟨?_, ?_, ?_, ?_, ?_, ?_, ?_, ?_⟩
  · intro i nm' hget
    rw [get_install] at hget
    split at hget
    next hi =>
      cases hget
      exact hi.symm
    next => exact h.id_eq i nm' hget
  · intro key i hi
    cases hb : nm.blockMethod with
    | some b =>
      have hmap : (ct.install nm).1.byKey = ct.byKey := by
        unfold CodeTable.install
        rw [hb]
      rw [hmap] at hi
      obtain ⟨nm', hget, hrest⟩ := h.byKey key i hi
      exact ⟨nm', hkeep i nm' hget, hrest⟩
    | none =>
      have hmap : (ct.install nm).1.byKey = Function.update ct.byKey nm.key (some ct.freeSlot) := by
        unfold CodeTable.install
        rw [hb]
      rw [hmap] at hi
      by_cases hkey : key = nm.key
      · rw [hkey, Function.update_self] at hi
        cases hi
        exact ⟨_, hnew, halive, hb, hkey.symm⟩
      · rw [Function.update_of_ne hkey] at hi
        obtain ⟨nm', hget, hrest⟩ := h.byKey key i hi
        exact ⟨nm', hkeep i nm' hget, hrest⟩
  · intro b i hi
    cases hb : nm.blockMethod with
    | none =>
      have hmap : (ct.install nm).1.byBlock = ct.byBlock := by
        unfold CodeTable.install
        rw [hb]
      rw [hmap] at hi
      obtain ⟨nm', hget, hrest⟩ := h.byBlock b i hi
      exact ⟨nm', hkeep i nm' hget, hrest⟩
    | some b' =>
      have hmap : (ct.install nm).1.byBlock = Function.update ct.byBlock b' (some ct.freeSlot) := by
        unfold CodeTable.install
        rw [hb]
      rw [hmap] at hi
      by_cases hbb : b = b'
      · rw [hbb, Function.update_self] at hi
        cases hi
        exact ⟨_, hnew, halive, by rw [hbb]; exact hb⟩
      · rw [Function.update_of_ne hbb] at hi
        obtain ⟨nm', hget, hrest⟩ := h.byBlock b i hi
        exact ⟨nm', hkeep i nm' hget, hrest⟩
  · intro k s b i hi
    rw [hosr] at hi
    obtain ⟨nm', hget, hrest⟩ := h.osrTable k s b i hi
    exact ⟨nm', hkeep i nm' hget, hrest⟩
  · rw [haddr]
    exact sorted_insertIdx h.sorted hbase
  · intro b i
    rw [haddr, mem_insertIdx_partitionPoint, get_install, h.byAddr]
    constructor
    · rintro (heq | ⟨nm', hget, hb⟩)
      · cases heq
        rw [if_pos rfl]
        exact ⟨_, rfl, rfl⟩
      · refine ⟨nm', ?_, hb⟩
        rw [if_neg, hget]
        rintro rfl
        rw [hfree] at hget
        cases hget
    · rintro ⟨nm', hget, hb⟩
      split at hget
      next hi =>
        cases hget
        left
        rw [hi, ← hb]
      next => exact Or.inr ⟨nm', hget, hb⟩
  · intro i j nm₁ nm₂ h₁ h₂ hij
    rw [get_install] at h₁ h₂
    split at h₁
    next hi =>
      cases h₁
      rw [if_neg (fun hj => hij (hi.trans hj.symm))] at h₂
      exact hapart j nm₂ h₂
    next =>
      split at h₂
      next =>
        cases h₂
        exact (hapart i nm₁ h₁).symm
      next => exact h.apart i j nm₁ nm₂ h₁ h₂ hij
  · intro i nm' hget
    rw [get_install] at hget
    split at hget
    next =>
      cases hget
      exact hlen
    next => exact h.len_pos i nm' hget

/-- No map of a retired nmethod's table names it any more. -/
theorem Coherent.retire_ne {ct ct' : CodeTable} (h : Coherent ct) {id : Nat} {st : NmState}
    (hr : ct.retire id st = some ct') :
    (∀ key, ct'.byKey key ≠ some id) ∧ (∀ b, ct'.byBlock b ≠ some id) ∧
      ∀ key, ct'.osrTable key ≠ some id := by
  obtain ⟨nm, hget, -, hk, hb, ho, -⟩ := retire_spec hr
  refine ⟨?_, ?_, ?_⟩
  · intro key hkey
    rw [hk, byKey_unhookAll] at hkey
    obtain ⟨nm', hget', -, -, hnm⟩ := h.byKey key id hkey.1
    rw [hget] at hget'
    cases hget'
    exact hkey.2 ⟨hnm.symm, rfl⟩
  · intro b hbi
    rw [hb, byBlock_unhookAll] at hbi
    obtain ⟨nm', hget', -, hnm⟩ := h.byBlock b id hbi.1
    rw [hget] at hget'
    cases hget'
    exact hbi.2 ⟨hnm, rfl⟩
  · rintro ⟨k, s, b⟩ hos
    rw [ho, osrTable_unhookAll] at hos
    obtain ⟨nm', hget', -, -, hnm, hbci⟩ := h.osrTable k s b id hos.1
    rw [hget] at hget'
    cases hget'
    exact hos.2 ⟨hnm, hbci, rfl⟩

theorem Coherent.retire {ct ct' : CodeTable} (h : Coherent ct) {id : Nat} {st : NmState}
    (hr : ct.retire id st = some ct') : Coherent ct' := by
  obtain ⟨hnk, hnb, hno⟩ := h.retire_ne hr
  obtain ⟨nm, hget, hg, hk, hb, ho, ha⟩ := retire_spec hr
  have hkeep : ∀ i nm', i ≠ id → ct.get i = some nm' → ct'.get i = some nm' := by
    intro i nm' hi hget'
    rw [hg, if_neg hi]
    exact hget'
  -- an nmethod of the new table is one of the old table, but for its state
  have hback : ∀ i nm', ct'.get i = some nm' →
      ∃ nm₀, ct.get i = some nm₀ ∧ nm'.id = nm₀.id ∧ nm'.code = nm₀.code := by
    intro i nm' hget'
    rw [hg] at hget'
    split at hget'
    next hi =>
      cases hget'
      exact ⟨nm, hi ▸ hget, rfl, rfl⟩
    next => exact ⟨nm', hget', rfl, rfl⟩
  refine ⟨?_, ?_, ?_, ?_, by rw [ha]; exact h.sorted, ?_, ?_, ?_⟩
  · intro i nm' hget'
    obtain ⟨nm₀, h₀, hid, -⟩ := hback i nm' hget'
    rw [hid]
    exact h.id_eq i nm₀ h₀
  · intro key i hi
    have hne : i ≠ id := fun hc => hnk key (hc ▸ hi)
    rw [hk, byKey_unhookAll] at hi
    obtain ⟨nm', hget', hrest⟩ := h.byKey key i hi.1
    exact ⟨nm', hkeep i nm' hne hget', hrest⟩
  · intro b i hi
    have hne : i ≠ id := fun hc => hnb b (hc ▸ hi)
    rw [hb, byBlock_unhookAll] at hi
    obtain ⟨nm', hget', hrest⟩ := h.byBlock b i hi.1
    exact ⟨nm', hkeep i nm' hne hget', hrest⟩
  · intro k s b i hi
    have hne : i ≠ id := fun hc => hno (k, s, b) (hc ▸ hi)
    rw [ho, osrTable_unhookAll] at hi
    obtain ⟨nm', hget', hrest⟩ := h.osrTable k s b i hi.1
    exact ⟨nm', hkeep i nm' hne hget', hrest⟩
  · intro b i
    rw [ha, h.byAddr]
    constructor
    · rintro ⟨nm', hget', hbase⟩
      by_cases hi : i = id
      · rw [hi, hget] at hget'
        cases hget'
        exact ⟨{ nm with state := st }, by rw [hg, if_pos hi], hbase⟩
      · exact ⟨nm', hkeep i nm' hi hget', hbase⟩
    · rintro ⟨nm', hget', hbase⟩
      obtain ⟨nm₀, h₀, -, hcode⟩ := hback i nm' hget'
      exact ⟨nm₀, h₀, hcode ▸ hbase⟩
  · intro i j nm₁ nm₂ h₁ h₂ hij
    obtain ⟨nm₁', h₁', -, hc₁⟩ := hback i nm₁ h₁
    obtain ⟨nm₂', h₂', -, hc₂⟩ := hback j nm₂ h₂
    rw [hc₁, hc₂]
    exact h.apart i j nm₁' nm₂' h₁' h₂' hij
  · intro i nm' hget'
    obtain ⟨nm₀, h₀, -, hcode⟩ := hback i nm' hget'
    rw [hcode]
    exact h.len_pos i nm₀ h₀

/-- A removal only follows a retirement, so nothing names the slot that is freed. -/
theorem Coherent.remove {ct ct' : CodeTable} (h : Coherent ct) {id : Nat} {nm : Nmethod}
    (hr : ct.remove id = some (ct', nm)) (hz : nm.state ≠ .alive) : Coherent ct' := by
  obtain ⟨hget, hg, hk, hb, ho, pos, hpos, ha⟩ := remove_spec hr
  have hne : ∀ i nm', ct.get i = some nm' → nm'.state = .alive → ct'.get i = some nm' := by
    intro i nm' hget' halive
    rw [hg, if_neg, hget']
    rintro rfl
    rw [hget] at hget'
    cases hget'
    exact hz halive
  have hback : ∀ i nm', ct'.get i = some nm' → i ≠ id ∧ ct.get i = some nm' := by
    intro i nm' hget'
    rw [hg] at hget'
    split at hget'
    next => cases hget'
    next hi => exact ⟨hi, hget'⟩
  have huniq : ∀ b b', (b, id) ∈ ct.byAddr → (b', id) ∈ ct.byAddr → b = b' := by
    intro b b' hb hb'
    obtain ⟨nm₁, h₁, e₁⟩ := (h.byAddr b id).mp hb
    obtain ⟨nm₂, h₂, e₂⟩ := (h.byAddr b' id).mp hb'
    rw [h₁] at h₂
    cases h₂
    exact e₁.symm.trans e₂
  refine ⟨?_, ?_, ?_, ?_, ?_, ?_, ?_, ?_⟩
  · intro i nm' hget'
    exact h.id_eq i nm' (hback i nm' hget').2
  · intro key i hi
    rw [hk] at hi
    obtain ⟨nm', hget', halive, hrest⟩ := h.byKey key i hi
    exact ⟨nm', hne i nm' hget' halive, halive, hrest⟩
  · intro b i hi
    rw [hb] at hi
    obtain ⟨nm', hget', halive, hrest⟩ := h.byBlock b i hi
    exact ⟨nm', hne i nm' hget' halive, halive, hrest⟩
  · intro k s b i hi
    rw [ho] at hi
    obtain ⟨nm', hget', halive, hrest⟩ := h.osrTable k s b i hi
    exact ⟨nm', hne i nm' hget' halive, halive, hrest⟩
  · rw [ha]
    exact h.sorted.sublist (List.eraseIdx_sublist _ _)
  · intro b i
    rw [ha, mem_eraseIdx_of_id h.sorted huniq hpos, h.byAddr]
    constructor
    · rintro ⟨⟨nm', hget', hbase⟩, hi⟩
      exact ⟨nm', by rw [hg, if_neg hi]; exact hget', hbase⟩
    · rintro ⟨nm', hget', hbase⟩
      obtain ⟨hi, hget'⟩ := hback i nm' hget'
      exact ⟨⟨nm', hget', hbase⟩, hi⟩
  · intro i j nm₁ nm₂ h₁ h₂ hij
    exact h.apart i j nm₁ nm₂ (hback i nm₁ h₁).2 (hback j nm₂ h₂).2 hij
  · intro i nm' hget'
    exact h.len_pos i nm' (hback i nm' hget').2

theorem Coherent.installOsr {ct : CodeTable} (h : Coherent ct) {id bci : Nat} {nm : Nmethod}
    (hget : ct.get id = some nm) (halive : nm.state = .alive) (hb : nm.blockMethod = none)
    (hbci : nm.osrBci = some bci) :
    Coherent (ct.installOsr nm.keyKlass nm.keySelector bci id) := by
  refine ⟨h.id_eq, h.byKey, h.byBlock, ?_, h.sorted, h.byAddr, h.apart, h.len_pos⟩
  intro k s b i hi
  change Function.update ct.osrTable (nm.keyKlass, nm.keySelector, bci) (some id) (k, s, b) =
    some i at hi
  by_cases hkey : (k, s, b) = (nm.keyKlass, nm.keySelector, bci)
  · rw [hkey, Function.update_self] at hi
    cases hi
    cases hkey
    exact ⟨nm, hget, halive, hb, rfl, hbci⟩
  · rw [Function.update_of_ne hkey] at hi
    exact h.osrTable k s b i hi

/-! ## Rebuilding the maps -/

/-- `nm` is entered under the method key. -/
def carriesKey (key : Addr × Addr) (nm : Nmethod) : Bool :=
  decide (nm.state = .alive ∧ nm.blockMethod = none ∧ nm.key = key)

def carriesBlock (b : Addr) (nm : Nmethod) : Bool :=
  decide (nm.state = .alive ∧ nm.blockMethod = some b)

def carriesOsr (okey : Addr × Addr × Nat) (nm : Nmethod) : Bool :=
  decide (nm.state = .alive ∧ nm.blockMethod = none ∧
    (nm.keyKlass, nm.keySelector, nm.osrBci) = (okey.1, okey.2.1, some okey.2.2))

/-- The nmethod in the highest slot among those that `p` holds of. -/
def highest (ct : CodeTable) (p : Nmethod → Bool) : Option Nat :=
  ((ct.slots.filterMap id).filter p).getLast?.map (·.id)

/-- Every key belongs to the Alive nmethod of the highest slot that carries it. -/
structure HighestSlotOwns (ct : CodeTable) : Prop where
  byKey : ∀ key, ct.byKey key = ct.highest (carriesKey key)
  byBlock : ∀ b, ct.byBlock b = ct.highest (carriesBlock b)
  osrTable : ∀ okey, ct.osrTable okey = ct.highest (carriesOsr okey)

/-- A view of the table that one `rehashOne` overwrites exactly if `p` holds ends up with the
last such nmethod. -/
theorem foldl_rehashOne (g : CodeTable → Option Nat) (p : Nmethod → Bool)
    (hg : ∀ t nm, g (rehashOne t nm) = if p nm then some nm.id else g t)
    (l : List Nmethod) (t : CodeTable) :
    g (l.foldl rehashOne t) = ((l.filter p).getLast?.map (·.id)).or (g t) := by
  induction l generalizing t with
  | nil => rfl
  | cons nm l ih =>
    rw [List.foldl_cons, ih, hg]
    cases hp : p nm with
    | true =>
      rw [List.filter_cons_of_pos (by simp [hp]), List.getLast?_cons, if_pos rfl]
      cases (l.filter p).getLast? with
      | none => rfl
      | some nm' => rfl
    | false => rw [List.filter_cons_of_neg (by simp [hp]), if_neg (by simp)]

theorem rehashOne_byKey (key : Addr × Addr) (t : CodeTable) (nm : Nmethod) :
    (rehashOne t nm).byKey key = if carriesKey key nm then some nm.id else t.byKey key := by
  unfold rehashOne carriesKey
  by_cases hs : nm.state = .alive
  · rw [if_neg (by simp [hs])]
    cases hb : nm.blockMethod with
    | some b => simp
    | none =>
      refine Eq.trans (b := Function.update t.byKey nm.key (some nm.id) key) ?_ ?_
      · cases nm.osrBci <;> rfl
      by_cases hk : nm.key = key
      · simp [hs, hk]
      · rw [Function.update_of_ne (Ne.symm hk), if_neg (by simp [hk])]
  · rw [if_pos hs, if_neg (by simp [hs])]

theorem rehashOne_byBlock (b : Addr) (t : CodeTable) (nm : Nmethod) :
    (rehashOne t nm).byBlock b = if carriesBlock b nm then some nm.id else t.byBlock b := by
  unfold rehashOne carriesBlock
  by_cases hs : nm.state = .alive
  · rw [if_neg (by simp [hs])]
    cases hb : nm.blockMethod with
    | some b' =>
      by_cases hbb : b' = b
      · simp [hs, hbb]
      · simp only [Function.update_of_ne (Ne.symm hbb)]
        rw [if_neg (by simp [hbb])]
    | none =>
      rw [if_neg (by simp)]
      cases nm.osrBci <;> rfl
  · rw [if_pos hs, if_neg (by simp [hs])]

theorem rehashOne_osrTable (okey : Addr × Addr × Nat) (t : CodeTable) (nm : Nmethod) :
    (rehashOne t nm).osrTable okey = if carriesOsr okey nm then some nm.id else t.osrTable okey := by
  unfold rehashOne carriesOsr
  by_cases hs : nm.state = .alive
  · rw [if_neg (by simp [hs])]
    cases hb : nm.blockMethod with
    | some b => simp
    | none =>
      cases ho : nm.osrBci with
      | none => simp
      | some b =>
        obtain ⟨k, s, b'⟩ := okey
        by_cases hk : (k, s, b') = (nm.keyKlass, nm.keySelector, b)
        · cases hk
          simp [hs, installOsr]
        · have hne : ¬ (nm.keyKlass, nm.keySelector, some b) = (k, s, some b') := by
            intro hc
            cases hc
            exact hk rfl
          simp only [installOsr, Function.update_of_ne hk]
          rw [if_neg (by simp only [decide_eq_true_eq]; exact fun hc => hne hc.2.2)]
  · rw [if_pos hs, if_neg (by simp [hs])]

theorem rehash_maps (ct : CodeTable) :
    (∀ key, ct.rehash.byKey key = ct.highest (carriesKey key)) ∧
      (∀ b, ct.rehash.byBlock b = ct.highest (carriesBlock b)) ∧
      ∀ okey, ct.rehash.osrTable okey = ct.highest (carriesOsr okey) := by
  refine ⟨fun key => ?_, fun b => ?_, fun okey => ?_⟩
  · exact (foldl_rehashOne (·.byKey key) _ (rehashOne_byKey key) _ _).trans Option.or_none
  · exact (foldl_rehashOne (·.byBlock b) _ (rehashOne_byBlock b) _ _).trans Option.or_none
  · exact (foldl_rehashOne (·.osrTable okey) _ (rehashOne_osrTable okey) _ _).trans Option.or_none

theorem rehash_rest (ct : CodeTable) : ct.rehash.slots = ct.slots ∧ ct.rehash.byAddr = ct.byAddr := by
  unfold rehash
  have hone : ∀ t nm, (rehashOne t nm).slots = t.slots ∧ (rehashOne t nm).byAddr = t.byAddr := by
    intro t nm
    unfold rehashOne
    split
    · exact ⟨rfl, rfl⟩
    · cases nm.blockMethod with
      | some b => exact ⟨rfl, rfl⟩
      | none => cases nm.osrBci <;> exact ⟨rfl, rfl⟩
  have hall : ∀ (l : List Nmethod) t, (l.foldl rehashOne t).slots = t.slots ∧
      (l.foldl rehashOne t).byAddr = t.byAddr := by
    intro l
    induction l with
    | nil => exact fun t => ⟨rfl, rfl⟩
    | cons nm l ih =>
      intro t
      rw [List.foldl_cons, (ih _).1, (ih _).2]
      exact hone t nm
  exact hall _ _

/-! ## Relocation -/

section Relocate

variable {ct : CodeTable} {f : Addr → Addr}

theorem get_relocate (i : Nat) : (ct.relocate f).get i = (ct.get i).map (updateNmethod true f) := by
  unfold relocate get
  rw [(rehash_rest _).1]
  change (List.map (Option.map (updateNmethod true f)) ct.slots)[i]?.join = _
  rw [List.getElem?_map]
  cases ct.slots[i]? with
  | none => rfl
  | some v => cases v <;> rfl

/-- An nmethod carries the moved key after the move if it carried the key before. -/
theorem highest_updateKeys {p q : Nmethod → Bool}
    (h : ∀ nm, q (updateNmethod true f nm) = p nm) :
    (ct.updateKeys true f).highest q = ct.highest p := by
  unfold highest updateKeys
  have hmap : (List.map (Option.map (updateNmethod true f)) ct.slots).filterMap id =
      (ct.slots.filterMap id).map (updateNmethod true f) := by
    generalize ct.slots = slots
    induction slots with
    | nil => rfl
    | cons o slots ih =>
      cases o with
      | none => exact ih
      | some nm => exact congrArg (updateNmethod true f nm :: ·) ih
  rw [hmap, List.filter_map, List.getLast?_map, Option.map_map]
  have hcomp : q ∘ updateNmethod true f = p := funext h
  rw [hcomp]
  rfl

theorem carriesKey_updateNmethod (hf : Function.Injective f) (k s : Addr) (nm : Nmethod) :
    carriesKey (f k, f s) (updateNmethod true f nm) = carriesKey (k, s) nm := by
  unfold carriesKey updateNmethod Nmethod.key
  simp [hf.eq_iff]

theorem carriesBlock_updateNmethod (hf : Function.Injective f) (b : Addr) (nm : Nmethod) :
    carriesBlock (f b) (updateNmethod true f nm) = carriesBlock b nm := by
  unfold carriesBlock updateNmethod
  cases nm.blockMethod <;> simp [hf.eq_iff]

theorem carriesOsr_updateNmethod (hf : Function.Injective f) (k s : Addr) (b : Nat)
    (nm : Nmethod) :
    carriesOsr (f k, f s, b) (updateNmethod true f nm) = carriesOsr (k, s, b) nm := by
  unfold carriesOsr updateNmethod
  simp [hf.eq_iff]

theorem highest_eq_some {p : Nmethod → Bool} {i : Nat} (h : ct.highest p = some i)
    (hid : ∀ i nm, ct.get i = some nm → nm.id = i) :
    ∃ nm, ct.get i = some nm ∧ p nm = true := by
  unfold highest at h
  obtain ⟨nm, hlast, rfl⟩ := Option.map_eq_some_iff.mp h
  obtain ⟨hmem, hp⟩ := List.mem_filter.mp (List.mem_of_getLast? hlast)
  obtain ⟨o, ho, rfl⟩ := List.mem_filterMap.mp hmem
  obtain ⟨j, hj, hget⟩ := List.getElem_of_mem ho
  have hget : ct.get j = some nm := get_eq_some.mpr (by rw [List.getElem?_eq_getElem hj, hget])
  rw [hid j nm hget]
  exact ⟨nm, hget, hp⟩

/-- The maps after a collection are the maps before it, every oop replaced by its image. -/
structure Faithful (f : Addr → Addr) (ct ct' : CodeTable) : Prop where
  byKey : ∀ k s, ct'.byKey (f k, f s) = ct.byKey (k, s)
  byBlock : ∀ b, ct'.byBlock (f b) = ct.byBlock b
  osrTable : ∀ k s b, ct'.osrTable (f k, f s, b) = ct.osrTable (k, s, b)
  byKey_image : ∀ key i, ct'.byKey key = some i → ∃ k s, key = (f k, f s)
  byBlock_image : ∀ b i, ct'.byBlock b = some i → ∃ b', b = f b'
  osrTable_image : ∀ okey i, ct'.osrTable okey = some i → ∃ k s b, okey = (f k, f s, b)

/-- After the collection each key names the highest slot that carried it before. -/
theorem relocate_maps (hf : Function.Injective f) :
    (∀ k s, (ct.relocate f).byKey (f k, f s) = ct.highest (carriesKey (k, s))) ∧
      (∀ b, (ct.relocate f).byBlock (f b) = ct.highest (carriesBlock b)) ∧
      ∀ k s b, (ct.relocate f).osrTable (f k, f s, b) = ct.highest (carriesOsr (k, s, b)) := by
  obtain ⟨hk, hb, ho⟩ := rehash_maps (ct.updateKeys true f)
  refine ⟨fun k s => ?_, fun b => ?_, fun k s b => ?_⟩
  · exact (hk _).trans (highest_updateKeys (carriesKey_updateNmethod hf k s))
  · exact (hb _).trans (highest_updateKeys (carriesBlock_updateNmethod hf b))
  · exact (ho _).trans (highest_updateKeys (carriesOsr_updateNmethod hf k s b))

end Relocate

theorem Coherent.relocate {ct : CodeTable} {f : Addr → Addr} (h : Coherent ct) :
    Coherent (ct.relocate f) := by
  have hback : ∀ i nm', (ct.relocate f).get i = some nm' →
      ∃ nm, ct.get i = some nm ∧ nm' = updateNmethod true f nm := by
    intro i nm' hget
    rw [get_relocate] at hget
    obtain ⟨nm, hnm, rfl⟩ := Option.map_eq_some_iff.mp hget
    exact ⟨nm, hnm, rfl⟩
  have hid : ∀ i nm', (ct.relocate f).get i = some nm' → nm'.id = i := by
    intro i nm' hget
    obtain ⟨nm, hnm, rfl⟩ := hback i nm' hget
    exact h.id_eq i nm hnm
  have hslots : ∀ i, (ct.updateKeys true f).get i = (ct.relocate f).get i := by
    intro i
    unfold get CodeTable.relocate
    rw [(rehash_rest _).1]
  have hfrom : ∀ {p : Nmethod → Bool} {i}, (ct.updateKeys true f).highest p = some i →
      ∃ nm, (ct.relocate f).get i = some nm ∧ p nm = true := by
    intro p i hi
    obtain ⟨nm, hget, hp⟩ := highest_eq_some hi (fun i nm hget => hid i nm (hslots i ▸ hget))
    exact ⟨nm, hslots i ▸ hget, hp⟩
  obtain ⟨hk, hb, ho⟩ := rehash_maps (ct.updateKeys true f)
  refine ⟨hid, ?_, ?_, ?_, ?_, ?_, ?_, ?_⟩
  · intro key i hi
    obtain ⟨nm, hget, hp⟩ := hfrom ((hk key).symm.trans hi)
    exact ⟨nm, hget, by simpa [carriesKey] using hp⟩
  · intro b i hi
    obtain ⟨nm, hget, hp⟩ := hfrom ((hb b).symm.trans hi)
    exact ⟨nm, hget, by simpa [carriesBlock] using hp⟩
  · intro k s b i hi
    obtain ⟨nm, hget, hp⟩ := hfrom ((ho (k, s, b)).symm.trans hi)
    obtain ⟨h1, h2, h3, h4, h5⟩ : nm.state = .alive ∧ nm.blockMethod = none ∧
        nm.keyKlass = k ∧ nm.keySelector = s ∧ nm.osrBci = some b := by
      simpa [carriesOsr] using hp
    exact ⟨nm, hget, h1, h2, by rw [Nmethod.key, h3, h4], h5⟩
  · have haddr : (ct.relocate f).byAddr = ct.byAddr := (rehash_rest _).2
    rw [haddr]
    exact h.sorted
  · intro b i
    have haddr : (ct.relocate f).byAddr = ct.byAddr := (rehash_rest _).2
    rw [haddr, h.byAddr]
    constructor
    · rintro ⟨nm, hget, hbase⟩
      exact ⟨updateNmethod true f nm, by rw [get_relocate, hget]; rfl, hbase⟩
    · rintro ⟨nm', hget, hbase⟩
      obtain ⟨nm, hnm, rfl⟩ := hback i nm' hget
      exact ⟨nm, hnm, hbase⟩
  · intro i j nm₁ nm₂ h₁ h₂ hij
    obtain ⟨nm₁', h₁', rfl⟩ := hback i nm₁ h₁
    obtain ⟨nm₂', h₂', rfl⟩ := hback j nm₂ h₂
    exact h.apart i j nm₁' nm₂' h₁' h₂' hij
  · intro i nm' hget
    obtain ⟨nm, hnm, rfl⟩ := hback i nm' hget
    exact h.len_pos i nm hnm

/-- A collection keeps the maps exactly if the highest slot already owned every key. -/
theorem relocate_faithful_iff {ct : CodeTable} {f : Addr → Addr} (hf : Function.Injective f) :
    Faithful f ct (ct.relocate f) ↔ HighestSlotOwns ct := by
  obtain ⟨hk, hb, ho⟩ := @relocate_maps ct f hf
  constructor
  · intro h
    refine ⟨?_, ?_, ?_⟩
    · rintro ⟨k, s⟩
      exact (h.byKey k s).symm.trans (hk k s)
    · intro b
      exact (h.byBlock b).symm.trans (hb b)
    · rintro ⟨k, s, b⟩
      exact (h.osrTable k s b).symm.trans (ho k s b)
  · intro h
    obtain ⟨hk', hb', ho'⟩ := rehash_maps (ct.updateKeys true f)
    have hmem : ∀ {p : Nmethod → Bool} {i}, (ct.updateKeys true f).highest p = some i →
        ∃ nm, p (updateNmethod true f nm) = true := by
      intro p i hi
      unfold highest at hi
      obtain ⟨nm', hlast, -⟩ := Option.map_eq_some_iff.mp hi
      obtain ⟨hm, hp⟩ := List.mem_filter.mp (List.mem_of_getLast? hlast)
      obtain ⟨o, hmo, rfl⟩ := List.mem_filterMap.mp hm
      obtain ⟨o', -, hoo⟩ := List.mem_map.mp hmo
      cases o' with
      | none => cases hoo
      | some nm =>
        cases hoo
        exact ⟨nm, hp⟩
    refine ⟨fun k s => (hk k s).trans (h.byKey (k, s)).symm, fun b => (hb b).trans (h.byBlock b).symm,
      fun k s b => (ho k s b).trans (h.osrTable (k, s, b)).symm, ?_, ?_, ?_⟩
    · intro key i hi
      obtain ⟨nm, hp⟩ := hmem ((hk' key).symm.trans hi)
      obtain ⟨-, -, rfl⟩ : _ ∧ _ ∧ _ = key := of_decide_eq_true hp
      exact ⟨nm.keyKlass, nm.keySelector, rfl⟩
    · intro b i hi
      obtain ⟨nm, hp⟩ := hmem ((hb' b).symm.trans hi)
      obtain ⟨-, hbm⟩ : _ ∧ nm.blockMethod.map f = some b := of_decide_eq_true hp
      obtain ⟨b', -, rfl⟩ := Option.map_eq_some_iff.mp hbm
      exact ⟨b', rfl⟩
    · rintro ⟨k, s, b⟩ i hi
      obtain ⟨nm, hp⟩ := hmem ((ho' (k, s, b)).symm.trans hi)
      obtain ⟨-, -, hkey⟩ : _ ∧ _ ∧ (f nm.keyKlass, f nm.keySelector, nm.osrBci) = (k, s, some b) :=
        of_decide_eq_true hp
      simp only [Prod.mk.injEq] at hkey
      obtain ⟨rfl, rfl, -⟩ := hkey
      exact ⟨nm.keyKlass, nm.keySelector, b, rfl⟩

/-! ## Finding code by address -/

/-- `findByPc` answers exactly for the published ranges. -/
theorem Coherent.findByPc_iff {ct : CodeTable} (h : Coherent ct) (pc i : Nat) :
    ct.findByPc pc = some i ↔ ∃ nm, ct.get i = some nm ∧ nm.code.Contains pc := by
  have hsplit := List.takeWhile_append_dropWhile (p := fun e : Nat × Nat => decide (e.1 ≤ pc))
    (l := ct.byAddr)
  have hbelow : ∀ e ∈ ct.byAddr.takeWhile (fun e => decide (e.1 ≤ pc)), e.1 ≤ pc := by
    intro e he
    simpa using List.mem_takeWhile_imp he
  have habove : ∀ e ∈ ct.byAddr.dropWhile (fun e => decide (e.1 ≤ pc)), pc < e.1 := by
    intro e he
    have hp : (fun e : Nat × Nat => decide (e.1 ≤ pc)) = fun e => decide (e.1 < pc + 1) := by
      simp only [Nat.lt_succ_iff]
    rw [hp] at he
    exact not_lt_of_mem_dropWhile h.sorted he
  -- an nmethod whose code has the address is listed below it
  have hmem : ∀ nm, ct.get i = some nm → nm.code.Contains pc →
      (nm.code.base, i) ∈ ct.byAddr.takeWhile (fun e => decide (e.1 ≤ pc)) := by
    intro nm hget hpc
    have hin := (h.byAddr nm.code.base i).mpr ⟨nm, hget, rfl⟩
    rw [← hsplit] at hin
    rcases List.mem_append.mp hin with hin | hin
    · exact hin
    · exact absurd (habove _ hin) (Nat.not_lt.mpr hpc.1)
  unfold findByPc partitionPoint
  generalize ct.byAddr.takeWhile (fun e => decide (e.1 ≤ pc)) = T at *
  generalize ct.byAddr.dropWhile (fun e => decide (e.1 ≤ pc)) = U at *
  rcases List.eq_nil_or_concat T with rfl | ⟨T', ⟨base, j⟩, rfl⟩
  · constructor
    · intro hc
      cases hc
    · rintro ⟨nm, hget, hpc⟩
      cases hmem nm hget hpc
  · rw [List.concat_eq_append] at hsplit hbelow hmem ⊢
    have hlast : ct.byAddr[(T' ++ [(base, j)]).length - 1]? = some (base, j) := by
      rw [← hsplit, List.getElem?_append_left (by simp)]
      simp
    have hj : (base, j) ∈ ct.byAddr := List.mem_of_getElem? hlast
    obtain ⟨nm', hget', hbase⟩ := (h.byAddr base j).mp hj
    rw [if_neg (by simp), hlast]
    simp only [hget']
    constructor
    · intro hc
      split at hc
      next hpc =>
        cases hc
        exact ⟨nm', hget', hbase ▸ hpc.1, hbase ▸ hpc.2⟩
      next => cases hc
    · rintro ⟨nm, hget, hpc⟩
      -- the last entry below the address is the one of `i`, or the two would overlap
      have hij : i = j := by
        by_contra hne
        have hin := hmem nm hget hpc
        have hlt : nm.code.base < base := by
          rcases List.mem_append.mp hin with hin | hin
          · have hs := h.sorted
            rw [← hsplit] at hs
            exact (List.pairwise_append.mp (List.pairwise_append.mp hs).1).2.2 _ hin _
              List.mem_cons_self
          · cases List.mem_singleton.mp hin
            exact absurd rfl hne
        have hle := hbelow (base, j) (by simp)
        obtain ⟨hp1, hp2⟩ := hpc
        rcases h.apart i j nm nm' hget hget' hne with hap | hap
        · omega
        · omega
      subst hij
      rw [hget] at hget'
      cases hget'
      rw [if_pos ⟨hbase ▸ hpc.1, hbase ▸ hpc.2⟩]

/-! ## Runs -/

/-- One operation on the table, as the driver, the flusher and the collectors perform it: new
code is Alive and its range is free; an OSR entry is made for an Alive method nmethod with that
header; only a Zombie is removed; a collection moves oops injectively. -/
inductive Step : CodeTable → CodeTable → Prop
  | install {ct : CodeTable} (nm : Nmethod) (halive : nm.state = .alive) (hlen : 0 < nm.code.len)
      (hapart : ∀ i nm', ct.get i = some nm' → nm.code.Apart nm'.code) :
      Step ct (ct.install nm).1
  | installOsr {ct : CodeTable} {id bci : Nat} {nm : Nmethod} (hget : ct.get id = some nm)
      (halive : nm.state = .alive) (hb : nm.blockMethod = none) (hbci : nm.osrBci = some bci) :
      Step ct (ct.installOsr nm.keyKlass nm.keySelector bci id)
  | setNotEntrant {ct ct' : CodeTable} {id : Nat} (h : ct.setNotEntrant id = some ct') : Step ct ct'
  | markZombie {ct ct' : CodeTable} {id : Nat} (h : ct.markZombie id = some ct') : Step ct ct'
  | remove {ct ct' : CodeTable} {id : Nat} {nm : Nmethod} (h : ct.remove id = some (ct', nm))
      (hz : nm.state = .zombie) : Step ct ct'
  | relocate {ct : CodeTable} (f : Addr → Addr) (hf : Function.Injective f) :
      Step ct (ct.relocate f)

/-- The tables some sequence of operations leads to. -/
def Reachable (ct : CodeTable) : Prop := Relation.ReflTransGen Step empty ct

theorem Coherent.step {ct ct' : CodeTable} (h : Coherent ct) (hs : Step ct ct') : Coherent ct' := by
  cases hs with
  | install nm halive hlen hapart => exact h.install halive hlen hapart
  | installOsr hget halive hb hbci => exact h.installOsr hget halive hb hbci
  | setNotEntrant hr => exact h.retire hr
  | markZombie hr => exact h.retire hr
  | remove hr hz => exact h.remove hr (by rw [hz]; decide)
  | relocate f hf => exact h.relocate

theorem Reachable.coherent {ct : CodeTable} (h : Reachable ct) : Coherent ct := by
  induction h with
  | refl => exact coherent_empty
  | tail _ hs ih => exact ih.step hs

/-- `ct'` is `ct` with `id` retired, and every name the maps had for another nmethod is kept. -/
def KeepsSuccessors (ct : CodeTable) (id : Nat) (ct' : CodeTable) : Prop :=
  ∀ i, i ≠ id → (∀ key, ct'.byKey key = some i ↔ ct.byKey key = some i) ∧
    (∀ b, ct'.byBlock b = some i ↔ ct.byBlock b = some i) ∧
    ∀ okey, ct'.osrTable okey = some i ↔ ct.osrTable okey = some i

theorem retire_keepsSuccessors {ct ct' : CodeTable} {id : Nat} {st : NmState}
    (h : ct.retire id st = some ct') : KeepsSuccessors ct id ct' := by
  obtain ⟨nm, -, -, hk, hb, ho, -⟩ := retire_spec h
  intro i hi
  refine ⟨fun key => ?_, fun b => ?_, ?_⟩
  · rw [hk, byKey_unhookAll]
    exact ⟨fun hc => hc.1, fun hc => ⟨hc, fun hn => hi hn.2⟩⟩
  · rw [hb, byBlock_unhookAll]
    exact ⟨fun hc => hc.1, fun hc => ⟨hc, fun hn => hi hn.2⟩⟩
  · rintro ⟨k, s, b⟩
    rw [ho, osrTable_unhookAll]
    exact ⟨fun hc => hc.1, fun hc => ⟨hc, fun hn => hi hn.2.2⟩⟩

/-- Every reachable table is coherent: the maps name Alive nmethods that carry the key, a
retirement keeps every other name, `findByPc` answers for the published ranges, and a
collection keeps the maps exactly if the highest slot owns every key. -/
theorem code_table_coherent {ct : CodeTable} (h : Reachable ct) :
    (∀ key i, ct.byKey key = some i →
      ∃ nm, ct.get i = some nm ∧ nm.state = .alive ∧ nm.blockMethod = none ∧ nm.key = key) ∧
    (∀ b i, ct.byBlock b = some i →
      ∃ nm, ct.get i = some nm ∧ nm.state = .alive ∧ nm.blockMethod = some b) ∧
    (∀ k s b i, ct.osrTable (k, s, b) = some i →
      ∃ nm, ct.get i = some nm ∧ nm.state = .alive ∧ nm.key = (k, s) ∧ nm.osrBci = some b) ∧
    (∀ id ct', ct.setNotEntrant id = some ct' ∨ ct.markZombie id = some ct' →
      KeepsSuccessors ct id ct') ∧
    (∀ pc i, ct.findByPc pc = some i ↔ ∃ nm, ct.get i = some nm ∧ nm.code.Contains pc) ∧
    ∀ f, Function.Injective f → (Faithful f ct (ct.relocate f) ↔ HighestSlotOwns ct) := by
  have hc := h.coherent
  refine ⟨hc.byKey, hc.byBlock, ?_, ?_, hc.findByPc_iff, fun f hf => relocate_faithful_iff hf⟩
  · intro k s b i hi
    obtain ⟨nm, hget, halive, -, hkey, hbci⟩ := hc.osrTable k s b i hi
    exact ⟨nm, hget, halive, hkey, hbci⟩
  · rintro id ct' (hr | hr)
    · exact retire_keepsSuccessors hr
    · exact retire_keepsSuccessors hr

/-! ## A version in a reused slot -/

/-- Code of 16 bytes at `base`, for a method keyed `(k, k)`. -/
def sampleNmethod (k base version : Nat) : Nmethod :=
  { id := 0, method := 9, keyKlass := k, keySelector := k, code := ⟨base, 16⟩, entryOff := 0,
    verifiedEntryOff := 0, state := .alive, version, icSites := [], blockMethod := none,
    inlineDeps := [], selfDevirt := false, osrBci := none, osrColdSends := 0 }

/-- Two methods are compiled; the first is flushed; the second is compiled again. -/
def twoKeys : CodeTable := ((empty.install (sampleNmethod 1 0 0)).1.install (sampleNmethod 2 16 0)).1

def firstZombie : CodeTable := (twoKeys.markZombie 0).getD empty

def firstFlushed : CodeTable := ((firstZombie.remove 0).map Prod.fst).getD empty

def recompiled : CodeTable := (firstFlushed.install (sampleNmethod 2 32 1)).1

/-- The tables of the run have no more than two slots, so their nmethods can be listed. -/
theorem get_two {ct : CodeTable} {a b : Option Nmethod} (h : ct.slots = [a, b]) {i : Nat}
    {nm : Nmethod} (hget : ct.get i = some nm) : a = some nm ∨ b = some nm := by
  unfold get at hget
  rw [h] at hget
  match i with
  | 0 => exact Or.inl (by simpa using hget)
  | 1 => exact Or.inr (by simpa using hget)
  | i + 2 => simp at hget

theorem reachable_twoKeys : Reachable twoKeys := by
  refine ((Relation.ReflTransGen.refl).tail (Step.install (sampleNmethod 1 0 0) rfl (by decide)
    ?_)).tail (Step.install (sampleNmethod 2 16 0) rfl (by decide) ?_)
  · intro i nm hget
    cases hget
  · intro i nm hget
    rw [get_install] at hget
    split at hget
    · cases hget
      exact Or.inr (by decide)
    · cases hget

theorem code_table_coherent_twoKeys :
    Reachable twoKeys ∧ twoKeys.findByPc 20 = some 1 ∧
      ∃ nm, twoKeys.get 1 = some nm ∧ nm.code.Contains 20 :=
  have hpc : twoKeys.findByPc 20 = some 1 := by decide
  ⟨reachable_twoKeys, hpc,
    ((code_table_coherent reachable_twoKeys).2.2.2.2.1 20 1).mp hpc⟩

theorem reachable_recompiled : Reachable recompiled := by
  have hzombie : twoKeys.markZombie 0 = some firstZombie := rfl
  have hflushed : firstZombie.remove 0 =
      some (firstFlushed, { sampleNmethod 1 0 0 with id := 0, state := .zombie }) := rfl
  refine ((reachable_twoKeys.tail (.markZombie hzombie)).tail (.remove hflushed rfl)).tail
    (.install (sampleNmethod 2 32 1) rfl (by decide) ?_)
  intro i nm hget
  rcases get_two (a := none) rfl hget with h | h
  · cases h
  · cases h
    exact Or.inr (by decide)

/-- The new version is returned before a collection, the old one after it. -/
theorem collection_returns_old_version :
    Reachable recompiled ∧ Function.Injective (id : Addr → Addr) ∧
      recompiled.lookup 2 2 = some 0 ∧ (recompiled.get 0).map (·.version) = some 1 ∧
      (recompiled.relocate id).lookup 2 2 = some 1 ∧
      ((recompiled.relocate id).get 1).map (·.version) = some 0 ∧
      ¬ Faithful id recompiled (recompiled.relocate id) := by
  have hbefore : recompiled.lookup 2 2 = some 0 := by decide
  have hafter : (recompiled.relocate id).lookup 2 2 = some 1 := by decide
  refine ⟨reachable_recompiled, Function.injective_id, hbefore, by decide, hafter, by decide, ?_⟩
  intro h
  have := h.byKey 2 2
  unfold lookup at hbefore hafter
  simp only [id_eq, hbefore, hafter] at this
  cases this

end CodeTable

end WinVm.Codecache
