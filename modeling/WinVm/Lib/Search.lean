import Mathlib

/-!
# Binary search over a sorted table

The branch-free binary search of a slice: the window `[base, base + size)` is
halved until one entry is left, which is then compared with the key. On a table
whose keys ascend strictly, a key that is present is found at its own index.
-/

namespace WinVm.Lib

variable {α κ : Type} [LinearOrder κ]

/-- The lower bound after one comparison: it moves up to `mid` unless the key there is
greater. -/
def nextBase (key : α → κ) (k : κ) (l : List α) (base mid : Nat) : Nat :=
  match l[mid]? with
  | some x => if k < key x then base else mid
  | none => base

/-- The window loop: halve `size` until one entry is left. -/
def searchBase (key : α → κ) (k : κ) (l : List α) (base size : Nat) : Nat :=
  if size ≤ 1 then base
  else searchBase key k l (nextBase key k l base (base + size / 2)) (size - size / 2)
termination_by size

/-- The index of the entry with key `k`, or `none`. -/
def binarySearchByKey (key : α → κ) (l : List α) (k : κ) : Option Nat :=
  if l.isEmpty then none
  else
    let base := searchBase key k l 0 l.length
    match l[base]? with
    | some x => if key x = k then some base else none
    | none => none

/-- The window always holds the index that is looked for. -/
theorem searchBase_eq {key : α → κ} {l : List α} {i : Nat} {x : α}
    (hs : (l.map key).Pairwise (· < ·)) (hx : l[i]? = some x) (base size : Nat)
    (hlo : base ≤ i) (hhi : i < base + size) (hlen : base + size ≤ l.length) :
    searchBase key (key x) l base size = i := by
  induction base, size using searchBase.induct key (key x) l with
  | case1 base size h =>
    rw [searchBase, if_pos h]
    omega
  | case2 base size h ih =>
    have hmid : base + size / 2 < l.length := by omega
    have hi : i < l.length := by omega
    have hxi : l[i] = x := by
      rw [List.getElem?_eq_getElem hi] at hx
      exact Option.some.inj hx
    have hord : ∀ a b, (ha : a < l.length) → (hb : b < l.length) → a < b → key l[a] < key l[b] := by
      intro a b ha hb hab
      have := List.pairwise_iff_getElem.mp hs a b (by simpa using ha) (by simpa using hb) hab
      simpa using this
    rw [searchBase, if_neg h]
    by_cases hcmp : key x < key l[base + size / 2]
    · have hb : nextBase key (key x) l base (base + size / 2) = base := by
        simp only [nextBase, List.getElem?_eq_getElem hmid, if_pos hcmp]
      have hlt : i < base + size / 2 := by
        by_contra hge
        rcases Nat.lt_or_eq_of_le (Nat.le_of_not_lt hge) with hlt | heq
        · have := hord _ i hmid hi hlt
          rw [hxi] at this
          exact absurd hcmp (not_lt_of_gt this)
        · simp only [heq, hxi, lt_irrefl] at hcmp
      rw [hb] at ih ⊢
      exact ih (by omega) (by omega) (by omega)
    · have hb : nextBase key (key x) l base (base + size / 2) = base + size / 2 := by
        simp only [nextBase, List.getElem?_eq_getElem hmid, if_neg hcmp]
      have hle : base + size / 2 ≤ i := by
        by_contra hlt
        have := hord i _ hi hmid (by omega)
        rw [hxi] at this
        exact hcmp this
      rw [hb] at ih ⊢
      exact ih (by omega) (by omega) (by omega)

/-- A present key is found at its own index. -/
theorem binarySearchByKey_eq {key : α → κ} {l : List α} {i : Nat} {x : α}
    (hs : (l.map key).Pairwise (· < ·)) (hx : l[i]? = some x) :
    binarySearchByKey key l (key x) = some i := by
  have hi : i < l.length := (List.getElem?_eq_some_iff.mp hx).1
  have hne : l.isEmpty = false := by
    cases l with
    | nil => simp at hi
    | cons y l => rfl
  have hbase := searchBase_eq hs hx 0 l.length (Nat.zero_le i) (by omega) (by omega)
  simp only [binarySearchByKey, hne, Bool.false_eq_true, if_false, hbase, hx, if_true]

end WinVm.Lib
