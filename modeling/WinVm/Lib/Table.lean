import Mathlib.Data.List.Basic
import Mathlib.Data.List.Pairwise
import Mathlib.Data.List.Nodup

/-!
# Tables with integer primary keys

A table keeps its rows in ascending order of their keys. A new row gets the key after the largest
one that is in use, so the key of a deleted row may be given out again if it was the largest.

Results: `Table.row_unique`, a key names one row; `Table.lt_nextId`, the next key is fresh.
-/

namespace WinVm.Lib

/-- Rows with their keys. -/
structure Table (ρ : Type*) where
  rows : List (Nat × ρ)
  ascending : rows.Pairwise fun x y => x.1 < y.1

namespace Table

variable {ρ : Type*} (t : Table ρ)

def empty : Table ρ := ⟨[], .nil⟩

/-- The key the next row gets. -/
def nextId : Nat := (t.rows.getLast?.map Prod.fst).getD 0 + 1

theorem lt_nextId {x : Nat × ρ} (h : x ∈ t.rows) : x.1 < t.nextId := by
  unfold nextId
  obtain ⟨xs, last, heq⟩ := (List.eq_nil_or_concat' t.rows).resolve_left (List.ne_nil_of_mem h)
  have hasc := t.ascending
  rw [heq, List.pairwise_append] at hasc
  rw [heq] at h ⊢
  rw [List.getLast?_concat, Option.map_some, Option.getD_some, Nat.lt_succ_iff]
  rcases List.mem_append.mp h with hx | hx
  · exact Nat.le_of_lt (hasc.2.2 x hx last List.mem_cons_self)
  · exact Nat.le_of_eq (congrArg Prod.fst (List.mem_singleton.mp hx))

/-- `INSERT` without a key; the row gets `nextId`. -/
def insert (row : ρ) : Table ρ where
  rows := t.rows ++ [(t.nextId, row)]
  ascending := by
    refine List.pairwise_append.mpr ⟨t.ascending, List.pairwise_singleton _ _, fun x hx y hy => ?_⟩
    rw [List.mem_singleton.mp hy]
    exact t.lt_nextId hx

/-- `DELETE ... WHERE`. -/
def deleteWhere (p : Nat × ρ → Bool) : Table ρ where
  rows := t.rows.filter fun x => !p x
  ascending := t.ascending.filter _

/-- `UPDATE ... WHERE`, for the row with one key. -/
def update (key : Nat) (f : ρ → ρ) : Table ρ where
  rows := t.rows.map fun x => if x.1 = key then (x.1, f x.2) else x
  ascending := by
    refine List.pairwise_map.mpr (t.ascending.imp fun {x y} h => ?_)
    have hkey : ∀ z : Nat × ρ, (if z.1 = key then (z.1, f z.2) else z).1 = z.1 := fun z => by
      split <;> rfl
    rwa [hkey, hkey]

theorem mem_insert {row : ρ} {x : Nat × ρ} :
    x ∈ (t.insert row).rows ↔ x ∈ t.rows ∨ x = (t.nextId, row) := by
  unfold insert
  rw [List.mem_append, List.mem_singleton]

theorem mem_deleteWhere {p : Nat × ρ → Bool} {x : Nat × ρ} :
    x ∈ (t.deleteWhere p).rows ↔ x ∈ t.rows ∧ p x = false := by
  unfold deleteWhere
  rw [List.mem_filter, Bool.not_eq_eq_eq_not, Bool.not_true]

variable {t}

theorem keys_nodup : (t.rows.map Prod.fst).Nodup :=
  List.pairwise_map.mpr (t.ascending.imp fun h => Nat.ne_of_lt h)

theorem row_unique {x y : Nat × ρ} (hx : x ∈ t.rows) (hy : y ∈ t.rows) (h : x.1 = y.1) : x = y :=
  List.inj_on_of_nodup_map t.keys_nodup hx hy h

theorem rows_nodup : t.rows.Nodup := List.Nodup.of_map _ t.keys_nodup

/-- The order of the rows is that of their keys. -/
theorem eq_of_perm {t' : Table ρ} (h : t.rows.Perm t'.rows) : t = t' := by
  have heq := h.eq_of_pairwise (fun x y _ hy hxy hyx => absurd hxy (Nat.lt_asymm hyx)) t.ascending
    t'.ascending
  obtain ⟨rows, _⟩ := t
  obtain ⟨rows', _⟩ := t'
  cases heq
  rfl

/-- The key of the newest row is not given out again as long as that row stays. -/
theorem nextId_deleteWhere_insert {row : ρ} {p : Nat × ρ → Bool} (h : p (t.nextId, row) = false) :
    ((t.insert row).deleteWhere p).nextId = t.nextId + 1 := by
  unfold nextId deleteWhere insert
  have hlast : ((t.rows ++ [(t.nextId, row)]).filter fun x => !p x) =
      (t.rows.filter fun x => !p x) ++ [(t.nextId, row)] := by
    rw [List.filter_append, List.filter_singleton, h]
    rfl
  dsimp only
  rw [hlast, List.getLast?_concat]
  rfl

end Table

/-- The rows of a join are distinct if each row determines what it was joined from. -/
theorem nodup_join {α β : Type*} {l : List α} {f : α → List β} (hl : l.Nodup)
    (hf : ∀ x ∈ l, (f x).Nodup) (hd : ∀ x ∈ l, ∀ y ∈ l, ∀ r, r ∈ f x → r ∈ f y → x = y) :
    (l.flatMap f).Nodup := by
  refine List.nodup_flatMap.mpr ⟨hf, List.Pairwise.imp_of_mem (fun {x y} hx hy hne => ?_) hl⟩
  exact fun r hr hr' => hne (hd x hx y hy r hr hr')

end WinVm.Lib
