import WinVm.Lib.Probing
import Mathlib.Algebra.Order.BigOperators.Group.List

/-!
# The symbol table

`Universe::intern` over an open-addressed set of symbol oops, hashed by content. Collections
rewrite the buckets in place; a bucket's position depends on the bytes of its symbol only.

Result: `SymbolRun.canonical`, over every run two calls return the same symbol exactly for equal
bytes.
-/

namespace WinVm.Memory

open WinVm.Lib WinVm.Lib.Probing

/-- FNV-1a over 64 bits. -/
def contentHash (bytes : List UInt8) : Nat :=
  bytes.foldl (fun h b => (h ^^^ b.toNat) * 0x100000001B3 % 2 ^ 64) 0xcbf29ce484222325

/-- The identity hash a symbol gets when it is made: 32 bits, never 0. -/
def identityHash (bytes : List UInt8) : Nat := contentHash bytes % 2 ^ 32 ||| 1

/-- What the table reads of a symbol in the heap. -/
structure Symbol where
  bytes : List UInt8
  hash : Nat
deriving DecidableEq, Repr

abbrev SymbolHeap := Nat → Symbol

structure SymbolTable where
  capacity : Nat
  buckets : Nat → Option Nat
  count : Nat

namespace SymbolTable

def withCapacity (capacity : Nat) : SymbolTable := ⟨capacity, fun _ => none, 0⟩

def mask (t : SymbolTable) : Nat := t.capacity - 1

def next (t : SymbolTable) (i : Nat) : Nat := (i + 1) &&& t.mask

/-- One round of `probe`: an empty bucket, the symbol, or on to the next bucket. -/
def seek (t : SymbolTable) (heap : SymbolHeap) (bytes : List UInt8) (i : Nat) :
    Option (Option Nat) :=
  match t.buckets i with
  | some existing => if (heap existing).bytes = bytes then some (some existing) else none
  | none => some none

/-- `probe`; `none` if a whole lap has no result, for then the loop never ends. -/
def probe (t : SymbolTable) (heap : SymbolHeap) (hash : Nat) (bytes : List UInt8) :
    Option (Option Nat) :=
  walk t.next (t.seek heap bytes) t.capacity (hash &&& t.mask)

/-- `insert`, with the same meaning of `none`. -/
def insert (t : SymbolTable) (hash symbol : Nat) : Option SymbolTable := do
  let i ← walk t.next (fun i => if t.buckets i = none then some i else none) t.capacity
    (hash &&& t.mask)
  some { t with buckets := Function.update t.buckets i (some symbol), count := t.count + 1 }

def rehashBucket (old : SymbolTable) (heap : SymbolHeap) (t : SymbolTable) (i : Nat) :
    Option SymbolTable :=
  match old.buckets i with
  | some symbol => t.insert (contentHash (heap symbol).bytes) symbol
  | none => some t

def rehash (old : SymbolTable) (heap : SymbolHeap) : Option SymbolTable :=
  (List.range old.capacity).foldlM (old.rehashBucket heap) (withCapacity (old.capacity * 2))

/-- `intern_core`; a new symbol is allocated at `fresh`. -/
def intern (t : SymbolTable) (heap : SymbolHeap) (bytes : List UInt8) (fresh : Nat) :
    Option (SymbolTable × SymbolHeap × Nat) := do
  let hash := contentHash bytes
  match ← t.probe heap hash bytes with
  | some found => some (t, heap, found)
  | none =>
    let heap := Function.update heap fresh ⟨bytes, identityHash bytes⟩
    let t ← t.insert hash fresh
    let t ← if t.capacity * 3 ≤ t.count * 4 then t.rehash heap else some t
    some (t, heap, fresh)

/-- A collection updates the buckets in place. -/
def relocate (t : SymbolTable) (move : Nat → Nat) : SymbolTable :=
  { t with buckets := fun i => (t.buckets i).map move }

def Interned (t : SymbolTable) (symbol : Nat) : Prop :=
  ∃ i, i < t.capacity ∧ t.buckets i = some symbol

end SymbolTable

/-- The runs of the table, with the calls so far and the symbols they returned, where the
collections have moved them to. -/
inductive SymbolRun : SymbolTable → SymbolHeap → List (List UInt8 × Nat) → Prop
  | init {heap : SymbolHeap} (k : Nat) : SymbolRun (.withCapacity (2 ^ k)) heap []
  | intern {t t' : SymbolTable} {heap heap' : SymbolHeap} {calls : List (List UInt8 × Nat)}
      {bytes : List UInt8} {fresh symbol : Nat} :
      SymbolRun t heap calls → ¬ t.Interned fresh →
      t.intern heap bytes fresh = some (t', heap', symbol) →
      SymbolRun t' heap' ((bytes, symbol) :: calls)
  | collect {t : SymbolTable} {heap heap' : SymbolHeap} {calls : List (List UInt8 × Nat)}
      {move : Nat → Nat} :
      SymbolRun t heap calls → (∀ a, t.Interned a → heap' (move a) = heap a) →
      SymbolRun (t.relocate move) heap' (calls.map fun call => (call.1, move call.2))

/-! ## The names in a table -/

/-- The bytes of the symbol in each bucket. -/
def SymbolTable.names (t : SymbolTable) (heap : SymbolHeap) : Nat → Option (List UInt8) :=
  fun i => (t.buckets i).map fun a => (heap a).bytes

/-- A table whose symbols can all be found, with room for the next one. -/
structure WfSymbols (t : SymbolTable) (heap : SymbolHeap) : Prop where
  power : ∃ k, t.capacity = 2 ^ k
  chained : Chained t.capacity contentHash (t.names heap)
  count : t.count = occupied t.capacity (t.names heap)
  load : t.count * 4 < t.capacity * 3
  hash : ∀ a, t.Interned a → (heap a).hash = identityHash (heap a).bytes

section

variable {t : SymbolTable} {heap : SymbolHeap} {bytes : List UInt8} {a b i : Nat}

theorem names_eq_none : t.names heap i = none ↔ t.buckets i = none := Option.map_eq_none_iff

theorem names_eq_some (h : t.buckets i = some a) : t.names heap i = some (heap a).bytes := by
  unfold SymbolTable.names
  rw [h, Option.map_some]

theorem holds_names : Holds t.capacity (t.names heap) bytes ↔
    ∃ a, t.Interned a ∧ (heap a).bytes = bytes := by
  constructor
  · rintro ⟨i, hi, hname⟩
    obtain ⟨a, ha, hbytes⟩ := Option.map_eq_some_iff.mp hname
    exact ⟨a, ⟨i, hi, ha⟩, hbytes⟩
  · rintro ⟨a, ⟨i, hi, ha⟩, rfl⟩
    exact ⟨i, hi, names_eq_some ha⟩

theorem and_symbolMask (hpow : ∃ k, t.capacity = 2 ^ k) (n : Nat) :
    n &&& t.mask = n % t.capacity := by
  obtain ⟨k, hk⟩ := hpow
  unfold SymbolTable.mask
  rw [hk, Nat.and_two_pow_sub_one_eq_mod]

/-- A bucket with other bytes sends the probe on. -/
theorem seek_other (hname : t.names heap i ≠ none) (hne : t.names heap i ≠ some bytes) :
    t.seek heap bytes i = none := by
  unfold SymbolTable.seek
  cases hb : t.buckets i with
  | none => exact absurd (names_eq_none.mpr hb) hname
  | some a =>
    rw [names_eq_some hb, ne_eq, Option.some.injEq] at hne
    exact if_neg hne

/-- An insert of absent bytes takes the first empty bucket. -/
theorem insert_symbol (hpow : ∃ k, t.capacity = 2 ^ k)
    (hroom : occupied t.capacity (t.names heap) < t.capacity) (hbytes : (heap a).bytes = bytes) :
    ∃ t' d, t.insert (contentHash bytes) a = some t' ∧ t'.capacity = t.capacity ∧
      t'.count = t.count + 1 ∧ d < t.capacity ∧
      t.names heap (slotAt t.capacity (contentHash bytes) d) = none ∧
      (∀ e, e < d → t.names heap (slotAt t.capacity (contentHash bytes) e) ≠ none) ∧
      t'.buckets = Function.update t.buckets (slotAt t.capacity (contentHash bytes) d) (some a) ∧
      t'.names heap =
        Function.update (t.names heap) (slotAt t.capacity (contentHash bytes) d) (some bytes) := by
  obtain ⟨d, hd, hfree, hbefore⟩ := first_free hroom (contentHash bytes)
  have hwalk : walk t.next (fun i => if t.buckets i = none then some i else none) t.capacity
      (contentHash bytes % t.capacity) = some (slotAt t.capacity (contentHash bytes) d) := by
    refine walk_eq (fun j => and_symbolMask hpow _) ?_ (fun e he => ?_) hd
    · exact if_pos (names_eq_none.mp hfree)
    · exact if_neg fun hnone => hbefore e he (names_eq_none.mpr hnone)
  generalize hi : slotAt t.capacity (contentHash bytes) d = i at hwalk hfree
  refine ⟨{ t with buckets := Function.update t.buckets i (some a), count := t.count + 1 }, d, ?_,
    rfl, rfl, hd, hi ▸ hfree, hbefore, by rw [hi], ?_⟩
  · unfold SymbolTable.insert
    rw [and_symbolMask hpow, hwalk]
    rfl
  · have hcomp := Function.comp_update (Option.map fun a => (heap a).bytes) t.buckets i (some a)
    rw [Option.map_some, hbytes] at hcomp
    rw [hi]
    exact hcomp

namespace WfSymbols

variable (h : WfSymbols t heap)
include h

theorem room : occupied t.capacity (t.names heap) < t.capacity := by
  have h1 := h.load
  rw [h.count] at h1
  omega

/-- Symbols of the same bytes are the same. -/
theorem eq_of_bytes (ha : t.Interned a) (hb : t.Interned b)
    (heq : (heap a).bytes = (heap b).bytes) : a = b := by
  obtain ⟨i, hi, ha⟩ := ha
  obtain ⟨j, hj, hb⟩ := hb
  have hname : t.names heap j = some (heap a).bytes := (names_eq_some hb).trans (by rw [heq])
  have hij := h.chained.unique i hi j hj _ (names_eq_some ha) hname
  subst hij
  exact Option.some.inj (ha.symm.trans hb)

/-- A probe for interned bytes ends at their symbol. -/
theorem probe_of_interned (ha : t.Interned a) (hbytes : (heap a).bytes = bytes) :
    t.probe heap (contentHash bytes) bytes = some (some a) := by
  obtain ⟨i, hi, hbucket⟩ := ha
  have hname : t.names heap i = some bytes := (names_eq_some hbucket).trans (by rw [hbytes])
  obtain ⟨d, hd, hat, hpath⟩ := h.chained.path hi hname
  unfold SymbolTable.probe
  rw [and_symbolMask h.power]
  refine walk_eq (fun j => and_symbolMask h.power _) ?_ (fun e he => ?_) hd
  · unfold SymbolTable.seek
    rw [hat, hbucket]
    exact if_pos hbytes
  · obtain ⟨k, hk, hne⟩ := hpath e he
    refine seek_other (by rw [hk]; exact Option.some_ne_none _) ?_
    rw [hk, ne_eq, Option.some.injEq]
    exact hne

/-- A probe for any other bytes ends at an empty bucket. -/
theorem probe_of_absent (habsent : ¬ Holds t.capacity (t.names heap) bytes) :
    t.probe heap (contentHash bytes) bytes = some none := by
  obtain ⟨d, hd, hfree, hbefore⟩ := first_free h.room (contentHash bytes)
  unfold SymbolTable.probe
  rw [and_symbolMask h.power]
  refine walk_eq (fun j => and_symbolMask h.power _) ?_ (fun e he => ?_) hd
  · unfold SymbolTable.seek
    rw [names_eq_none.mp hfree]
  · exact seek_other (hbefore e he)
      fun hname => habsent ⟨_, slotAt_lt (Nat.zero_lt_of_lt hd), hname⟩

end WfSymbols

/-! ## Growth -/

theorem interned_update {t' : SymbolTable} (hcap : t'.capacity = t.capacity) (hi : i < t.capacity)
    (hfree : t.buckets i = none) (hbuckets : t'.buckets = Function.update t.buckets i (some a)) :
    t'.Interned b ↔ b = a ∨ t.Interned b := by
  unfold SymbolTable.Interned
  rw [hcap, hbuckets]
  exact holds_update hi hfree

/-- Rehashing the first buckets of a table into one twice its size. -/
theorem rehash_prefix (hpow : ∃ k, t.capacity = 2 ^ k)
    (hchained : Chained t.capacity contentHash (t.names heap)) (n : Nat) (hn : n ≤ t.capacity) :
    ∃ tn, (List.range n).foldlM (t.rehashBucket heap) (.withCapacity (t.capacity * 2)) = some tn ∧
      tn.capacity = t.capacity * 2 ∧ tn.count = occupied n (t.names heap) ∧
      Rehashed tn.capacity contentHash (t.names heap) n (tn.names heap) ∧
      ∀ a, tn.Interned a ↔ Holds n t.buckets a := by
  have hpow2 : ∃ k, t.capacity * 2 = 2 ^ k := by
    obtain ⟨k, hk⟩ := hpow
    exact ⟨k + 1, by rw [hk, Nat.pow_succ]⟩
  induction n with
  | zero =>
    refine ⟨_, rfl, rfl, rfl, .empty, fun a => ?_⟩
    exact ⟨fun ⟨_, _, h⟩ => (nomatch h), fun ⟨_, h, _⟩ => absurd h (Nat.not_lt_zero _)⟩
  | succ n ih =>
    obtain ⟨tn, hfold, hcap, hcount, hre, hint⟩ := ih (Nat.le_of_succ_le hn)
    have hstep : (List.range (n + 1)).foldlM (t.rehashBucket heap)
        (.withCapacity (t.capacity * 2)) = t.rehashBucket heap tn n := by
      rw [List.range_succ, List.foldlM_append, hfold]
      simp only [Option.bind_eq_bind, Option.bind_some, List.foldlM_cons, List.foldlM_nil, bind_pure]
    rw [hstep]
    unfold SymbolTable.rehashBucket
    cases hb : t.buckets n with
    | none =>
      have hname : t.names heap n = none := names_eq_none.mpr hb
      refine ⟨tn, rfl, hcap, ?_, hre.skip hname, fun a => ?_⟩
      · rw [hcount, occupied_succ, hname]
        rfl
      · rw [hint, holds_succ, hb]
        simp
    | some a =>
      have hname : t.names heap n = some (heap a).bytes := names_eq_some hb
      have hroom : occupied tn.capacity (tn.names heap) < tn.capacity := by
        have := occupied_le n (t.names heap)
        rw [hre.count, hcap]
        omega
      obtain ⟨t', d, hcall, hcap', hcount', hd, hfree, hbefore, hbuckets, hnames⟩ :=
        insert_symbol (a := a) (hcap ▸ hpow2) hroom rfl
      refine ⟨t', hcall, hcap'.trans hcap, ?_, ?_, fun b => ?_⟩
      · rw [hcount', hcount, occupied_succ, hname]
        rfl
      · rw [hcap', hnames]
        exact hre.insert (hre.absent hchained hn hname) hname hd hfree hbefore
      · rw [interned_update hcap' (slotAt_lt (Nat.zero_lt_of_lt hd)) (names_eq_none.mp hfree)
          hbuckets, hint, holds_succ, hb, Option.some.injEq, or_comm, eq_comm]

theorem rehash_symbols (hpow : ∃ k, t.capacity = 2 ^ k)
    (hchained : Chained t.capacity contentHash (t.names heap))
    (hcount : t.count = occupied t.capacity (t.names heap))
    (hhash : ∀ a, t.Interned a → (heap a).hash = identityHash (heap a).bytes) :
    ∃ t', t.rehash heap = some t' ∧ WfSymbols t' heap ∧ ∀ a, t'.Interned a ↔ t.Interned a := by
  obtain ⟨t', hfold, hcap, hcount', hre, hint⟩ :=
    rehash_prefix hpow hchained t.capacity (Nat.le_refl _)
  refine ⟨t', hfold, ⟨?_, hre.chained, hcount'.trans hre.count.symm, ?_, fun a ha => ?_⟩, hint⟩
  · obtain ⟨k, hk⟩ := hpow
    exact ⟨k + 1, by rw [hcap, hk, Nat.pow_succ]⟩
  · have hle := occupied_le t.capacity (t.names heap)
    obtain ⟨k, hk⟩ := hpow
    have hpos := Nat.two_pow_pos k
    rw [hcount', hcap]
    omega
  · exact hhash a ((hint a).mp ha)

/-! ## Interning -/

/-- A table reads its own symbols only. -/
theorem WfSymbols.of_names {t' : SymbolTable} {heap' : SymbolHeap} (h : WfSymbols t heap)
    (hcap : t'.capacity = t.capacity) (hcount : t'.count = t.count)
    (hnames : ∀ i, i < t.capacity → t'.names heap' i = t.names heap i)
    (hhash : ∀ a, t'.Interned a → (heap' a).hash = identityHash (heap' a).bytes) :
    WfSymbols t' heap' := by
  refine ⟨hcap ▸ h.power, ?_, ?_, ?_, hhash⟩
  · rw [hcap]
    exact h.chained.congr hnames
  · rw [hcap, hcount, h.count]
    exact (occupied_congr hnames).symm
  · rw [hcap, hcount]
    exact h.load

theorem WfSymbols.of_heap {heap' : SymbolHeap} (h : WfSymbols t heap)
    (hheap : ∀ a, t.Interned a → heap' a = heap a) : WfSymbols t heap' := by
  refine h.of_names rfl rfl (fun i hi => ?_) fun a ha => ?_
  · cases hb : t.buckets i with
    | none => rw [names_eq_none.mpr hb, names_eq_none.mpr hb]
    | some a => rw [names_eq_some hb, names_eq_some hb, hheap a ⟨i, hi, hb⟩]
  · rw [hheap a ha]
    exact h.hash a ha

/-- What `intern` does: it ends with a symbol of these bytes, and every symbol so far stays. -/
theorem WfSymbols.intern {fresh : Nat} (h : WfSymbols t heap) (hfresh : ¬ t.Interned fresh)
    (bytes : List UInt8) :
    ∃ t' heap' symbol, t.intern heap bytes fresh = some (t', heap', symbol) ∧
      WfSymbols t' heap' ∧ t'.Interned symbol ∧ (heap' symbol).bytes = bytes ∧
      ∀ a, t.Interned a → t'.Interned a ∧ heap' a = heap a := by
  unfold SymbolTable.intern
  dsimp only
  by_cases hholds : Holds t.capacity (t.names heap) bytes
  · obtain ⟨a, ha, hbytes⟩ := holds_names.mp hholds
    rw [h.probe_of_interned ha hbytes]
    exact ⟨t, heap, a, rfl, h, ha, hbytes, fun b hb => ⟨hb, rfl⟩⟩
  · rw [h.probe_of_absent hholds]
    simp only [Option.bind_eq_bind, Option.bind_some]
    generalize hheap : Function.update heap fresh ⟨bytes, identityHash bytes⟩ = heap'
    have hsame : ∀ a, t.Interned a → heap' a = heap a := by
      intro a ha
      rw [← hheap]
      refine Function.update_of_ne ?_ _ _
      rintro rfl
      exact hfresh ha
    have hnew : heap' fresh = ⟨bytes, identityHash bytes⟩ := by
      rw [← hheap, Function.update_self]
    have h' := h.of_heap hsame
    have habsent : ¬ Holds t.capacity (t.names heap') bytes := by
      rw [holds_names] at hholds ⊢
      rintro ⟨a, ha, hbytes⟩
      exact hholds ⟨a, ha, by rw [← hsame a ha]; exact hbytes⟩
    obtain ⟨t1, d, hcall, hcap1, hcount1, hd, hfree, hbefore, hbuckets, hnames⟩ :=
      insert_symbol h'.power h'.room (congrArg Symbol.bytes hnew)
    have hslot : slotAt t.capacity (contentHash bytes) d < t.capacity :=
      slotAt_lt (Nat.zero_lt_of_lt hd)
    have hint : ∀ b, t1.Interned b ↔ b = fresh ∨ t.Interned b :=
      fun b => interned_update hcap1 hslot (names_eq_none.mp hfree) hbuckets
    have hpow1 : ∃ k, t1.capacity = 2 ^ k := hcap1 ▸ h.power
    have hchained1 : Chained t1.capacity contentHash (t1.names heap') := by
      rw [hcap1, hnames]
      exact h'.chained.insert habsent hd hbefore
    have hocc1 : t1.count = occupied t1.capacity (t1.names heap') := by
      rw [hcap1, hnames, occupied_update hslot hfree, hcount1, h'.count]
    have hhash1 : ∀ b, t1.Interned b → (heap' b).hash = identityHash (heap' b).bytes := by
      intro b hb
      rcases (hint b).mp hb with rfl | hb
      · rw [hnew]
      · exact h'.hash b hb
    rw [hcall, Option.bind_some]
    by_cases hload : t1.capacity * 3 ≤ t1.count * 4
    · obtain ⟨t2, hrehash, hwf, hint2⟩ := rehash_symbols hpow1 hchained1 hocc1 hhash1
      rw [if_pos hload, hrehash]
      refine ⟨t2, heap', fresh, rfl, hwf, ?_, by rw [hnew], fun a ha => ⟨?_, hsame a ha⟩⟩
      · exact (hint2 fresh).mpr ((hint fresh).mpr (.inl rfl))
      · exact (hint2 a).mpr ((hint a).mpr (.inr ha))
    · rw [if_neg hload]
      refine ⟨t1, heap', fresh, rfl, ⟨hpow1, hchained1, hocc1, by omega, hhash1⟩, ?_,
        by rw [hnew], fun a ha => ⟨?_, hsame a ha⟩⟩
      · exact (hint fresh).mpr (.inl rfl)
      · exact (hint a).mpr (.inr ha)

/-- What holds after every run. -/
structure SymbolInv (t : SymbolTable) (heap : SymbolHeap) (calls : List (List UInt8 × Nat)) :
    Prop where
  wf : WfSymbols t heap
  calls : ∀ call ∈ calls, t.Interned call.2 ∧ (heap call.2).bytes = call.1

theorem SymbolRun.inv {calls : List (List UInt8 × Nat)} (hrun : SymbolRun t heap calls) :
    SymbolInv t heap calls := by
  induction hrun with
  | init k =>
    have hocc : ∀ {heap : SymbolHeap}, occupied (2 ^ k)
        ((SymbolTable.withCapacity (2 ^ k)).names heap) = 0 := occupied_empty
    refine ⟨⟨⟨k, rfl⟩, chained_empty, hocc.symm, ?_, ?_⟩, fun _ h => (nomatch h)⟩
    · have := Nat.two_pow_pos k
      change 0 * 4 < 2 ^ k * 3
      omega
    · rintro a ⟨i, -, hi⟩
      cases hi
  | intern _ hfresh hcall ih =>
    obtain ⟨t', heap', symbol, hcall', hwf, hin, hbytes, hkeep⟩ := ih.wf.intern hfresh _
    rw [hcall] at hcall'
    cases hcall'
    refine ⟨hwf, fun call hmem => ?_⟩
    rcases List.mem_cons.mp hmem with rfl | hmem
    · exact ⟨hin, hbytes⟩
    · obtain ⟨hold, hb⟩ := ih.calls call hmem
      obtain ⟨hin', hsame⟩ := hkeep _ hold
      exact ⟨hin', by rw [hsame, hb]⟩
  | @collect t heap heap' calls move _ hheap ih =>
    have hint : ∀ {b}, (t.relocate move).Interned b → ∃ a, t.Interned a ∧ move a = b := by
      rintro b ⟨i, hi, hb⟩
      obtain ⟨a, ha, rfl⟩ := Option.map_eq_some_iff.mp hb
      exact ⟨a, ⟨i, hi, ha⟩, rfl⟩
    refine ⟨ih.wf.of_names rfl rfl (fun i hi => ?_) fun b hb => ?_, fun call hmem => ?_⟩
    · cases hb : t.buckets i with
      | none =>
        have hb' : (t.relocate move).buckets i = none := by
          change (t.buckets i).map move = none
          rw [hb, Option.map_none]
        rw [names_eq_none.mpr hb, names_eq_none.mpr hb']
      | some a =>
        have hb' : (t.relocate move).buckets i = some (move a) := by
          change (t.buckets i).map move = some (move a)
          rw [hb, Option.map_some]
        rw [names_eq_some hb, names_eq_some hb', hheap a ⟨i, hi, hb⟩]
    · obtain ⟨a, ha, rfl⟩ := hint hb
      rw [hheap a ha]
      exact ih.wf.hash a ha
    · obtain ⟨call, hmem', rfl⟩ := List.mem_map.mp hmem
      obtain ⟨⟨i, hi, hb⟩, hbytes⟩ := ih.calls call hmem'
      refine ⟨⟨i, hi, ?_⟩, ?_⟩
      · change (t.buckets i).map move = some (move call.2)
        rw [hb, Option.map_some]
      · dsimp only
        rw [hheap _ ⟨i, hi, hb⟩, hbytes]

theorem identityHash_ne_zero (bytes : List UInt8) : identityHash bytes ≠ 0 :=
  Nat.ne_of_gt (Nat.lt_of_lt_of_le Nat.one_pos Nat.right_le_or)

/-- Over every run two calls return the same symbol exactly if their bytes are equal; each symbol
has the bytes it was interned for and the identity hash they give it, which is not 0; and every
further call ends. -/
theorem SymbolRun.canonical {calls : List (List UInt8 × Nat)} (hrun : SymbolRun t heap calls) :
    (∀ call ∈ calls, ∀ call' ∈ calls, call.2 = call'.2 ↔ call.1 = call'.1) ∧
    (∀ call ∈ calls, (heap call.2).bytes = call.1 ∧ (heap call.2).hash = identityHash call.1 ∧
      (heap call.2).hash ≠ 0) ∧
    ∀ bytes fresh, ¬ t.Interned fresh → (t.intern heap bytes fresh).isSome = true := by
  have h := hrun.inv
  refine ⟨fun call hc call' hc' => ?_, fun call hc => ?_, fun bytes fresh hfresh => ?_⟩
  · obtain ⟨hin, hb⟩ := h.calls call hc
    obtain ⟨hin', hb'⟩ := h.calls call' hc'
    constructor
    · intro heq
      rw [← hb, ← hb', heq]
    · intro heq
      exact h.wf.eq_of_bytes hin hin' (by rw [hb, hb', heq])
  · obtain ⟨hin, hb⟩ := h.calls call hc
    have hhash := h.wf.hash _ hin
    rw [hb] at hhash
    exact ⟨hb, hhash, hhash ▸ identityHash_ne_zero _⟩
  · obtain ⟨t', heap', symbol, hcall, -⟩ := h.wf.intern hfresh bytes
    rw [hcall]
    rfl

theorem exists_fresh (t : SymbolTable) : ∃ fresh, ¬ t.Interned fresh := by
  refine ⟨((List.range t.capacity).map fun i => (t.buckets i).getD 0).sum + 1, ?_⟩
  rintro ⟨i, hi, hb⟩
  have hle := List.le_sum_of_mem (List.mem_map_of_mem (f := fun i => (t.buckets i).getD 0)
    (List.mem_range.mpr hi))
  rw [hb, Option.getD_some] at hle
  omega

/-- The same bytes before and after a collection that moved their symbol, and other bytes. -/
theorem SymbolRun.canonical_moved : ∃ t heap a b,
    SymbolRun t heap [([98], b), ([97], a), ([97], a)] ∧ a ≠ b ∧ (heap a).bytes = [97] := by
  have hintern : ∀ {t heap calls} (bytes : List UInt8), SymbolRun t heap calls →
      ∃ t' heap' symbol, SymbolRun t' heap' ((bytes, symbol) :: calls) := by
    intro t heap calls bytes hrun
    obtain ⟨fresh, hfresh⟩ := exists_fresh t
    obtain ⟨⟨t', heap', symbol⟩, hcall⟩ :=
      Option.isSome_iff_exists.mp (hrun.canonical.2.2 bytes fresh hfresh)
    exact ⟨t', heap', symbol, hrun.intern hfresh hcall⟩
  have h0 : SymbolRun _ (fun _ => ⟨[], 0⟩) [] := .init 0
  obtain ⟨t1, heap1, a, h1⟩ := hintern [97] h0
  have h2 : SymbolRun (t1.relocate fun x => x + 50) (fun x => heap1 (x - 50)) [([97], a + 50)] :=
    h1.collect fun x _ => congrArg heap1 (Nat.add_sub_cancel x 50)
  obtain ⟨t3, heap3, a', h3⟩ := hintern [97] h2
  obtain ⟨t4, heap4, b, h4⟩ := hintern [98] h3
  obtain ⟨hsame, hread, -⟩ := h4.canonical
  have ha : a' = a + 50 := (hsame ([97], a') (by simp) ([97], a + 50) (by simp)).mpr rfl
  subst ha
  refine ⟨t4, heap4, a + 50, b, h4, fun heq => ?_, (hread ([97], a + 50) (by simp)).1⟩
  have hbytes := (hsame ([97], a + 50) (by simp) ([98], b) (by simp)).mp heq
  cases hbytes

end

end WinVm.Memory
