import Mathlib.Data.List.Sort
import WinVm.Lib.Table

/-!
# Numbered versions in a table

Each row is a version of an owner. A new version gets the number after the owner's greatest one,
and only the versions of a sliding window are kept.

Results: `Versions.latestOf_eq`, the latest version is the newest row; `Tracks.append_prune`, a
window over the whole history stays one.
-/

namespace WinVm.Lib

structure Version (α : Type*) where
  owner : Nat
  number : Nat
  content : α
deriving DecidableEq, Repr

abbrev Versions (α : Type*) := Table (Version α)

namespace Versions

variable {α : Type*}

/-! ## Reading and writing -/

section Operations

variable (t : Versions α) (owner : Nat)

/-- The versions of an owner, in the order of their keys. -/
def of : List (Nat × Version α) := t.rows.filter fun v => v.2.owner = owner

def maxNumber : Option Nat := ((t.of owner).map fun v => v.2.number).max?

/-- The versions with the greatest number of their owner. -/
def latest : List (Nat × Version α) := t.rows.filter fun v => t.maxNumber v.2.owner = some v.2.number

def latestOf : Option (Nat × Version α) := t.latest.find? fun v => v.2.owner = owner

/-- The second row in descending order of the numbers. -/
def previousOf : Option (Nat × Version α) :=
  ((t.of owner).insertionSort fun x y => y.2.number ≤ x.2.number)[1]?

def nextNumber : Nat := (t.maxNumber owner).getD 0 + 1

def append (content : α) : Versions α := t.insert ⟨owner, t.nextNumber owner, content⟩

/-- Whether a version is out of the window of the newest `limit` versions of its owner. -/
def expired (limit : Nat) (v : Nat × Version α) : Bool :=
  decide (v.2.owner = owner) && (t.maxNumber owner).any fun max => v.2.number + limit ≤ max

def prune (limit : Nat) : Versions α := t.deleteWhere (t.expired owner limit)

end Operations

/-! ## Rows in the order of their numbers -/

/-- Newer rows of an owner have greater numbers. -/
def Ordered (t : Versions α) : Prop :=
  t.rows.Pairwise fun x y => x.2.owner = y.2.owner → x.2.number < y.2.number

variable {t : Versions α} {owner other : Nat} {content : α}

theorem mem_of {v : Nat × Version α} : v ∈ t.of owner ↔ v ∈ t.rows ∧ v.2.owner = owner := by
  unfold of
  rw [List.mem_filter, decide_eq_true_eq]

theorem of_append : (t.append owner content).of owner =
    t.of owner ++ [(t.nextId, ⟨owner, t.nextNumber owner, content⟩)] := by
  unfold of append Table.insert
  rw [List.filter_append, List.filter_singleton]
  simp

theorem of_append_ne (h : other ≠ owner) : (t.append owner content).of other = t.of other := by
  unfold of append Table.insert
  rw [List.filter_append, List.filter_singleton]
  simp [h.symm]

theorem of_prune_ne (h : other ≠ owner) {limit : Nat} :
    (t.prune owner limit).of other = t.of other := by
  unfold of prune Table.deleteWhere
  rw [List.filter_filter]
  refine List.filter_congr fun v _ => ?_
  by_cases hv : v.2.owner = other
  · simp [expired, hv, h]
  · simp [hv]

theorem of_prune {limit : Nat} : (t.prune owner limit).of owner =
    (t.of owner).filter fun v => !t.expired owner limit v := by
  unfold of prune Table.deleteWhere
  rw [List.filter_filter, List.filter_filter]
  exact List.filter_congr fun v _ => Bool.and_comm _ _

/-- Ascending rows in descending order. -/
theorem insertionSort_eq_reverse {l : List (Nat × Version α)}
    (hl : l.Pairwise fun x y => x.2.number < y.2.number) :
    (l.insertionSort fun x y => y.2.number ≤ x.2.number) = l.reverse := by
  have horder : ∀ (a : Nat × Version α) (m : List (Nat × Version α)),
      (∀ b ∈ m, a.2.number < b.2.number) →
      m.orderedInsert (fun x y => y.2.number ≤ x.2.number) a = m ++ [a] := by
    intro a m
    induction m with
    | nil => exact fun _ => rfl
    | cons b m ih =>
      intro hm
      rw [List.orderedInsert, if_neg (Nat.not_le.mpr (hm b List.mem_cons_self)),
        ih fun c hc => hm c (List.mem_cons_of_mem _ hc), List.cons_append]
  induction l with
  | nil => rfl
  | cons a l ih =>
    obtain ⟨ha, hl⟩ := List.pairwise_cons.mp hl
    rw [List.insertionSort_cons, ih hl, List.reverse_cons]
    exact horder a _ fun b hb => ha b (List.mem_reverse.mp hb)

section Ordered

variable (h : Ordered t)
include h

theorem Ordered.pairwise (owner : Nat) :
    (t.of owner).Pairwise fun x y => x.2.number < y.2.number := by
  refine (List.Pairwise.filter _ h).imp_of_mem fun {x y} hx hy hlt => hlt ?_
  rw [(mem_of.mp hx).2, (mem_of.mp hy).2]

theorem maxNumber_eq (owner : Nat) :
    t.maxNumber owner = (t.of owner).getLast?.map fun v => v.2.number := by
  unfold maxNumber
  have hord := h.pairwise owner
  rcases List.eq_nil_or_concat' (t.of owner) with hnil | ⟨xs, last, heq⟩
  · rw [hnil]
    rfl
  · rw [heq] at hord ⊢
    rw [List.getLast?_concat, Option.map_some, List.max?_eq_some_iff]
    refine ⟨List.mem_map.mpr ⟨last, List.mem_concat_self, rfl⟩, fun n hn => ?_⟩
    obtain ⟨v, hv, rfl⟩ := List.mem_map.mp hn
    rcases List.mem_append.mp hv with hv | hv
    · exact Nat.le_of_lt ((List.pairwise_append.mp hord).2.2 v hv last List.mem_cons_self)
    · rw [List.mem_singleton.mp hv]

theorem mem_latest {v : Nat × Version α} :
    v ∈ t.latest ↔ (t.of v.2.owner).getLast? = some v := by
  unfold latest
  rw [List.mem_filter, decide_eq_true_eq, maxNumber_eq h]
  constructor
  · rintro ⟨hv, hmax⟩
    obtain ⟨last, hlast, hnum⟩ := Option.map_eq_some_iff.mp hmax
    have hmem := mem_of.mp (List.mem_of_getLast? hlast)
    rw [hlast]
    by_contra hne
    -- two rows of one owner with one number
    have hord := h.pairwise v.2.owner
    obtain ⟨xs, heq⟩ := List.getLast?_eq_some_iff.mp hlast
    have hin : v ∈ t.of v.2.owner := mem_of.mpr ⟨hv, rfl⟩
    rw [heq] at hin hord
    rcases List.mem_append.mp hin with hx | hx
    · exact absurd hnum (Nat.ne_of_gt
        ((List.pairwise_append.mp hord).2.2 v hx last List.mem_cons_self))
    · exact hne (congrArg some (List.mem_singleton.mp hx).symm)
  · intro hlast
    exact ⟨(mem_of.mp (List.mem_of_getLast? hlast)).1, by rw [hlast]; rfl⟩

theorem latestOf_eq (owner : Nat) : t.latestOf owner = (t.of owner).getLast? := by
  unfold latestOf
  cases hfind : t.latest.find? fun v => v.2.owner = owner with
  | some v =>
    have howner : v.2.owner = owner := by simpa using List.find?_some hfind
    exact howner ▸ ((mem_latest h).mp (List.mem_of_find?_eq_some hfind)).symm
  | none =>
    rw [List.find?_eq_none] at hfind
    cases hlast : (t.of owner).getLast? with
    | none => rfl
    | some v =>
      have howner := (mem_of.mp (List.mem_of_getLast? hlast)).2
      exact absurd (decide_eq_true howner)
        (hfind v ((mem_latest h).mpr (howner.symm ▸ hlast)))

theorem previousOf_eq (owner : Nat) : t.previousOf owner = (t.of owner).reverse[1]? := by
  unfold previousOf
  rw [insertionSort_eq_reverse (h.pairwise owner)]

theorem number_lt_nextNumber {v : Nat × Version α} (hv : v ∈ t.of owner) :
    v.2.number < t.nextNumber owner := by
  unfold nextNumber
  have hord := h.pairwise owner
  rw [maxNumber_eq h]
  obtain ⟨xs, last, heq⟩ := (List.eq_nil_or_concat' (t.of owner)).resolve_left (List.ne_nil_of_mem hv)
  rw [heq] at hv hord ⊢
  rw [List.getLast?_concat, Option.map_some, Option.getD_some, Nat.lt_succ_iff]
  rcases List.mem_append.mp hv with hv | hv
  · exact Nat.le_of_lt ((List.pairwise_append.mp hord).2.2 v hv last List.mem_cons_self)
  · rw [List.mem_singleton.mp hv]

theorem Ordered.append (owner : Nat) (content : α) : Ordered (t.append owner content) := by
  refine List.pairwise_append.mpr ⟨h, List.pairwise_singleton _ _, fun x hx y hy howner => ?_⟩
  rw [List.mem_singleton.mp hy] at howner ⊢
  exact number_lt_nextNumber h (mem_of.mpr ⟨hx, howner⟩)

theorem Ordered.prune (owner limit : Nat) : Ordered (t.prune owner limit) :=
  List.Pairwise.filter _ h

theorem maxNumber_append (owner : Nat) (content : α) :
    (t.append owner content).maxNumber owner = some (t.nextNumber owner) := by
  rw [maxNumber_eq (h.append owner content), of_append, List.getLast?_concat]
  rfl

theorem expired_append (owner limit : Nat) (content : α) (v : Nat × Version α) :
    (t.append owner content).expired owner limit v = true ↔
      v.2.owner = owner ∧ v.2.number + limit ≤ t.nextNumber owner := by
  unfold expired
  rw [maxNumber_append h, Option.any_some, Bool.and_eq_true, decide_eq_true_eq, decide_eq_true_eq]

/-- A new version is not out of its own window. -/
theorem expired_append_nextId {limit : Nat} (hpos : 0 < limit) (owner : Nat) (content : α) :
    (t.append owner content).expired owner limit
      (t.nextId, ⟨owner, t.nextNumber owner, content⟩) = false := by
  rw [← Bool.not_eq_true, expired_append h]
  rintro ⟨-, hle⟩
  dsimp only at hle
  omega

theorem getLast?_append_prune {limit : Nat} (hpos : 0 < limit) (owner : Nat) (content : α) :
    (((t.append owner content).prune owner limit).of owner).getLast? =
      some (t.nextId, ⟨owner, t.nextNumber owner, content⟩) := by
  rw [of_prune, of_append, List.filter_append, List.filter_singleton,
    expired_append_nextId h hpos, Bool.not_false, cond_true, List.getLast?_concat]

end Ordered

/-! ## The window over a history -/

/-- Everything an owner ever was, with the numbers from 1 on. -/
def numbered (history : List α) : List (Nat × α) := history.mapIdx fun i c => (i + 1, c)

/-- The last `limit` versions of a history. -/
def window (limit : Nat) (history : List α) : List (Nat × α) :=
  (numbered history).drop (history.length - limit)

/-- The owner's rows are the window over this history. -/
def Tracks (t : Versions α) (owner limit : Nat) (history : List α) : Prop :=
  (t.of owner).map (fun v => (v.2.number, v.2.content)) = window limit history

variable {limit : Nat} {history : List α}

@[simp] theorem length_numbered : (numbered history).length = history.length :=
  List.length_mapIdx

@[simp] theorem length_window : (window limit history).length = min history.length limit := by
  unfold window
  rw [List.length_drop, length_numbered]
  omega

@[simp] theorem map_snd_numbered (history : List α) : (numbered history).map Prod.snd = history := by
  refine List.ext_getElem (by simp) fun i h1 h2 => ?_
  rw [List.getElem_map]
  unfold numbered
  rw [List.getElem_mapIdx]

theorem numbered_concat (history : List α) (c : α) :
    numbered (history ++ [c]) = numbered history ++ [(history.length + 1, c)] :=
  List.mapIdx_concat

theorem number_le_of_mem_take {k : Nat} {x : Nat × α} (hx : x ∈ (numbered history).take k) :
    x.1 ≤ k := by
  obtain ⟨i, hi, rfl⟩ := List.mem_iff_getElem.mp hx
  rw [List.length_take] at hi
  rw [List.getElem_take]
  unfold numbered
  rw [List.getElem_mapIdx]
  omega

theorem lt_number_of_mem_drop {k : Nat} {x : Nat × α} (hx : x ∈ (numbered history).drop k) :
    k < x.1 := by
  obtain ⟨i, hi, rfl⟩ := List.mem_iff_getElem.mp hx
  rw [List.getElem_drop]
  unfold numbered
  rw [List.getElem_mapIdx]
  omega

theorem window_concat (hpos : 0 < limit) (history : List α) (c : α) :
    window limit (history ++ [c]) = (window limit history ++ [(history.length + 1, c)]).filter
      fun x => history.length + 1 < x.1 + limit := by
  have hle : history.length - limit ≤ (numbered history).length := by
    rw [length_numbered]
    omega
  unfold window
  rw [← List.drop_append_of_le_length hle, ← numbered_concat, List.length_append,
    List.length_singleton]
  generalize history ++ [c] = all
  generalize hk : history.length - limit = k
  generalize hj : history.length + 1 - limit = j
  -- the rows that go, and those that stay
  have hsplit : (numbered all).drop k = ((numbered all).take j).drop k ++ (numbered all).drop j := by
    have hjk : (numbered all).drop j = ((numbered all).drop k).drop (j - k) := by
      rw [List.drop_drop]
      congr 1
      omega
    rw [List.drop_take, hjk, List.take_append_drop]
  rw [hsplit, List.filter_append, List.filter_eq_nil_iff.mpr, List.nil_append,
    List.filter_eq_self.mpr]
  · intro x hx
    have h1 := lt_number_of_mem_drop hx
    rw [decide_eq_true_eq]
    omega
  · intro x hx
    have h1 := number_le_of_mem_take (List.mem_of_mem_drop hx)
    rw [List.drop_take] at hx
    have h2 := lt_number_of_mem_drop (List.mem_of_mem_take hx)
    rw [decide_eq_true_eq]
    omega

theorem getLast?_window (hpos : 0 < limit) :
    (window limit history).getLast? = history.getLast?.map fun c => (history.length, c) := by
  unfold window
  rcases List.eq_nil_or_concat' history with rfl | ⟨h, c, rfl⟩
  · rw [List.length_nil, Nat.zero_sub]
    rfl
  · have hle : (h ++ [c]).length - limit ≤ (numbered h).length := by
      rw [length_numbered, List.length_append, List.length_singleton]
      omega
    rw [numbered_concat, List.drop_append_of_le_length hle, List.getLast?_concat,
      List.getLast?_concat, List.length_append]
    rfl

namespace Tracks

variable (hord : Ordered t) (ht : Tracks t owner limit history)
include ht

theorem length_of : (t.of owner).length = min history.length limit := by
  have hlen := congrArg List.length ht
  rwa [List.length_map, length_window] at hlen

include hord

theorem maxNumber_eq (hpos : 0 < limit) :
    t.maxNumber owner = if history = [] then none else some history.length := by
  have hlast := congrArg List.getLast? ht
  rw [List.getLast?_map, getLast?_window hpos] at hlast
  rw [Versions.maxNumber_eq hord]
  split
  · next hnil =>
    rw [hnil] at hlast
    rw [Option.map_eq_none_iff.mp hlast]
    rfl
  · next hne =>
    rw [List.getLast?_eq_some_getLast hne] at hlast
    obtain ⟨v, hv, heq⟩ := Option.map_eq_some_iff.mp hlast
    rw [hv]
    exact congrArg some (congrArg Prod.fst heq)

theorem nextNumber_eq (hpos : 0 < limit) : t.nextNumber owner = history.length + 1 := by
  unfold nextNumber
  rw [maxNumber_eq hord ht hpos]
  split
  · next hnil =>
    rw [hnil]
    rfl
  · rfl

/-- The newest row is the end of the history. -/
theorem latestOf_eq (hpos : 0 < limit) :
    (t.latestOf owner).map (fun v => v.2.content) = history.getLast? := by
  have hlast := congrArg List.getLast? ht
  rw [List.getLast?_map, getLast?_window hpos] at hlast
  rw [Versions.latestOf_eq hord]
  have hcontent := congrArg (Option.map Prod.snd) hlast
  rw [Option.map_map, Option.map_map] at hcontent
  simpa [Function.comp_def] using hcontent

/-- The row before the newest is the last but one of the history, if the window holds two. -/
theorem previousOf_eq (hpos : 1 < limit) :
    (t.previousOf owner).map (fun v => v.2.content) = history.reverse[1]? := by
  rw [Versions.previousOf_eq hord, ← List.getElem?_map, List.map_reverse]
  have hcontents : (t.of owner).map (fun v => v.2.content) =
      history.drop (history.length - limit) := by
    have hsnd := congrArg (List.map Prod.snd) ht
    unfold window at hsnd
    rw [List.map_map, List.map_drop, map_snd_numbered] at hsnd
    exact hsnd
  rw [hcontents, List.reverse_drop, List.getElem?_take]
  split
  · rfl
  · exact (List.getElem?_eq_none (by rw [List.length_reverse]; omega)).symm

/-- One more version, and the window moves on. -/
theorem append_prune (hpos : 0 < limit) (c : α) :
    Tracks ((t.append owner c).prune owner limit) owner limit (history ++ [c]) := by
  have hexpired : ∀ v : Nat × Version α, v ∈ (t.append owner c).of owner →
      (!(t.append owner c).expired owner limit v) =
        decide (history.length + 1 < v.2.number + limit) := by
    intro v hv
    have howner := (mem_of.mp hv).2
    rw [Bool.eq_iff_iff, Bool.not_eq_true', ← Bool.not_eq_true, expired_append hord,
      nextNumber_eq hord ht hpos, decide_eq_true_eq]
    omega
  unfold Tracks
  have hmap : (t.append owner c).of owner = _ := of_append
  rw [of_prune, List.filter_congr hexpired, window_concat hpos, ← ht, hmap,
    nextNumber_eq hord ht hpos]
  have hconcat : (t.of owner).map (fun v => (v.2.number, v.2.content)) ++ [(history.length + 1, c)] =
      (t.of owner ++ [(t.nextId, (⟨owner, history.length + 1, c⟩ : Version α))]).map
        fun v => (v.2.number, v.2.content) := by
    rw [List.map_append, List.map_singleton]
  rw [hconcat, List.filter_map]
  rfl

end Tracks

end Versions

end WinVm.Lib
