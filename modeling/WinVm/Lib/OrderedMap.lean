import Mathlib

/-!
# Ordered maps

A map kept as a list of entries in the order of their keys, with the operations an ordered map
of a standard library has. Each is described on a list cut in two at the key.
-/

namespace WinVm.Lib.OrderedMap

variable {κ ν : Type*} [LinearOrder κ]

def insert (k : κ) (v : ν) : List (κ × ν) → List (κ × ν)
  | [] => [(k, v)]
  | e :: rest =>
    if k < e.1 then (k, v) :: e :: rest
    else if k = e.1 then (k, v) :: rest
    else e :: insert k v rest

def remove (k : κ) (entries : List (κ × ν)) : List (κ × ν) :=
  entries.filter fun e => decide (e.1 ≠ k)

/-- The last entry below a key. -/
def lastBelow (k : κ) (entries : List (κ × ν)) : Option (κ × ν) :=
  (entries.filter fun e => decide (e.1 < k)).getLast?

/-- The first entry from a key on. -/
def firstFrom (k : κ) (entries : List (κ × ν)) : Option (κ × ν) :=
  entries.find? fun e => decide (k ≤ e.1)

variable {k : κ} {v : ν} {A B : List (κ × ν)}

theorem insert_append (hA : ∀ e ∈ A, e.1 < k) (hB : ∀ e ∈ B, k < e.1) :
    insert k v (A ++ B) = A ++ (k, v) :: B := by
  induction A with
  | nil =>
    cases B with
    | nil => rfl
    | cons e B => exact if_pos (hB e List.mem_cons_self)
  | cons e A ih =>
    have hlt := hA e List.mem_cons_self
    rw [List.cons_append, insert, if_neg hlt.asymm, if_neg hlt.ne',
      ih fun e' he' => hA e' (List.mem_cons_of_mem _ he')]
    rfl

theorem remove_append (hA : ∀ e ∈ A, e.1 < k) (hB : ∀ e ∈ B, k < e.1) :
    remove k (A ++ (k, v) :: B) = A ++ B := by
  unfold remove
  rw [List.filter_append, List.filter_cons_of_neg (by simp)]
  congr 1
  · exact List.filter_eq_self.mpr fun e he => decide_eq_true (hA e he).ne
  · exact List.filter_eq_self.mpr fun e he => decide_eq_true (hB e he).ne'

theorem lastBelow_append (hA : ∀ e ∈ A, e.1 < k) (hB : ∀ e ∈ B, k ≤ e.1) :
    lastBelow k (A ++ B) = A.getLast? := by
  unfold lastBelow
  rw [List.filter_append, List.filter_eq_self.mpr fun e he => decide_eq_true (hA e he),
    List.filter_eq_nil_iff.mpr fun e he => by simpa using hB e he, List.append_nil]

theorem firstFrom_append (hA : ∀ e ∈ A, e.1 < k) (hB : ∀ e ∈ B, k ≤ e.1) :
    firstFrom k (A ++ B) = B.head? := by
  unfold firstFrom
  have hnone : A.find? (fun e => decide (k ≤ e.1)) = none :=
    List.find?_eq_none.mpr fun e he => by simpa using hA e he
  rw [List.find?_append, hnone, Option.none_or]
  cases B with
  | nil => rfl
  | cons e B => exact List.find?_cons_of_pos (decide_eq_true (hB e List.mem_cons_self))

end WinVm.Lib.OrderedMap
