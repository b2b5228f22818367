import Mathlib.Data.List.Basic
import Mathlib.Logic.Function.Basic
import Mathlib.Algebra.Order.Group.Nat
import Mathlib.Tactic.Common

/-!
# The handle arena

`HandleArena` keeps the oops Rust code holds across allocations. A handle is an index with the
generation its slot had when it was minted; whatever vacates a slot bumps the generation, and the
generations outlive the slots. Both numbers of a handle are 32 bits wide.

Result: `ArenaRun.accepts_iff`, the guard accepts exactly the handles whose slot was not vacated
since they were minted, and reads the value stored there last.
-/

namespace WinVm.Memory

/-- The width of an index and of a generation. -/
def handleSpan : Nat := 2 ^ 32

structure Handle where
  index : Nat
  generation : Nat
deriving DecidableEq, Repr

structure HandleArena where
  slots : List Nat
  gen : List Nat
deriving DecidableEq, Repr

namespace HandleArena

/-- `HandleScope::handle`: the next slot, under the generation it has or a new one. -/
def handle (a : HandleArena) (val : Nat) : HandleArena × Handle :=
  let index := a.slots.length
  match a.gen[index]? with
  | some g => (⟨a.slots ++ [val], a.gen⟩, ⟨index % handleSpan, g⟩)
  | none => (⟨a.slots ++ [val], a.gen ++ [0]⟩, ⟨index % handleSpan, 0⟩)

/-- The slots from `base` on are vacated: what a scope's drop and `reset_to` have in common. -/
def vacate (a : HandleArena) (base : Nat) : HandleArena :=
  { slots := a.slots.take base
    gen := a.gen.mapIdx fun i g =>
      if base ≤ i ∧ i < a.slots.length then (g + 1) % handleSpan else g }

/-- `HandleScope::drop`; a scope above the arena's end fails an assertion. -/
def drop (a : HandleArena) (savedLen : Nat) : Option HandleArena :=
  if savedLen ≤ a.slots.length then some (a.vacate savedLen) else none

def resetTo (a : HandleArena) (baseLen : Nat) : HandleArena :=
  if baseLen < a.slots.length then a.vacate baseLen else a

/-- The guard of `Handle::slot`. -/
def Accepts (a : HandleArena) (h : Handle) : Prop :=
  h.index < a.slots.length ∧ a.gen[h.index]? = some h.generation

instance (a : HandleArena) (h : Handle) : Decidable (a.Accepts h) := by
  unfold Accepts
  infer_instance

def slot (a : HandleArena) (h : Handle) : Option Nat :=
  if a.Accepts h then some h.index else none

def get (a : HandleArena) (h : Handle) : Option Nat := do a.slots[← a.slot h]?

def set (a : HandleArena) (h : Handle) (val : Nat) : Option HandleArena := do
  some { a with slots := a.slots.set (← a.slot h) val }

/-- A collection visits the live slots and writes each back. -/
def collect (a : HandleArena) (move : Nat → Nat → Nat) : HandleArena :=
  { a with slots := a.slots.mapIdx move }

end HandleArena

/-! ## Runs -/

/-- A handle with the slot it was minted in and how often that slot had been vacated by then. -/
structure Minted where
  handle : Handle
  slot : Nat
  epoch : Nat
deriving DecidableEq, Repr

/-- The arena with its open scopes, and what its history says about each slot: how often it was
vacated and the value stored in it last, where the collections have moved it to. -/
structure ArenaState where
  arena : HandleArena
  scopes : List Nat
  minted : List Minted
  vacates : Nat → Nat
  stored : Nat → Nat

namespace ArenaState

def init : ArenaState := ⟨⟨[], []⟩, [], [], fun _ => 0, fun _ => 0⟩

/-- The history after the slots from `base` on were vacated. -/
def vacated (s : ArenaState) (base : Nat) : Nat → Nat := fun i =>
  if base ≤ i ∧ i < s.arena.slots.length then s.vacates i + 1 else s.vacates i

end ArenaState

inductive ArenaStep : ArenaState → ArenaState → Prop
  | enter {s : ArenaState} :
      ArenaStep s { s with scopes := s.arena.slots.length :: s.scopes }
  | handle {s : ArenaState} (val : Nat) :
      ArenaStep s { s with
        arena := (s.arena.handle val).1
        minted := ⟨(s.arena.handle val).2, s.arena.slots.length,
          s.vacates s.arena.slots.length⟩ :: s.minted
        stored := Function.update s.stored s.arena.slots.length val }
  | set {s : ArenaState} {m : Minted} {val : Nat} {arena : HandleArena} :
      m ∈ s.minted → s.arena.set m.handle val = some arena →
      ArenaStep s { s with arena := arena, stored := Function.update s.stored m.slot val }
  | drop {s : ArenaState} {savedLen : Nat} {scopes : List Nat} {arena : HandleArena} :
      s.scopes = savedLen :: scopes → s.arena.drop savedLen = some arena →
      ArenaStep s { s with arena := arena, scopes := scopes, vacates := s.vacated savedLen }
  /-- The scopes an aborted doit had open are never dropped. -/
  | resetTo {s : ArenaState} (baseLen abandoned : Nat) :
      ArenaStep s { s with
        arena := s.arena.resetTo baseLen
        scopes := s.scopes.drop abandoned
        vacates := s.vacated baseLen }
  | collect {s : ArenaState} (move : Nat → Nat → Nat) :
      ArenaStep s { s with
        arena := s.arena.collect move
        stored := fun i => move i (s.stored i) }

inductive ArenaRun : ArenaState → Prop
  | init : ArenaRun .init
  | step {s s' : ArenaState} : ArenaRun s → ArenaStep s s' → ArenaRun s'

/-! ## The invariant -/

/-- The generations count the vacations modulo their width, and a slot that was not vacated since
a handle was minted in it is still there. -/
structure ArenaInv (s : ArenaState) : Prop where
  length_le : s.arena.slots.length ≤ s.arena.gen.length
  gen : ∀ i, i < s.arena.gen.length → s.arena.gen[i]? = some (s.vacates i % handleSpan)
  fresh : ∀ i, s.arena.gen.length ≤ i → s.vacates i = 0
  minted : ∀ m ∈ s.minted, m.handle = ⟨m.slot % handleSpan, m.epoch % handleSpan⟩ ∧
    m.slot < s.arena.gen.length ∧ m.epoch ≤ s.vacates m.slot ∧
    (m.epoch = s.vacates m.slot → m.slot < s.arena.slots.length)
  stored : s.arena.gen.length ≤ handleSpan →
    ∀ i, i < s.arena.slots.length → s.arena.slots[i]? = some (s.stored i)

theorem ArenaInv.init : ArenaInv .init where
  length_le := Nat.le_refl _
  gen := fun i hi => absurd hi (Nat.not_lt_zero i)
  fresh := fun _ _ => rfl
  minted := fun _ hm => absurd hm List.not_mem_nil
  stored := fun _ i hi => absurd hi (Nat.not_lt_zero i)

namespace ArenaInv

variable {s : ArenaState} (h : ArenaInv s)
include h

theorem handle (val : Nat) : ArenaInv { s with
    arena := (s.arena.handle val).1
    minted := ⟨(s.arena.handle val).2, s.arena.slots.length,
      s.vacates s.arena.slots.length⟩ :: s.minted
    stored := Function.update s.stored s.arena.slots.length val } := by
  have hlen := h.length_le
  have hstored : ∀ i, i < s.arena.slots.length + 1 →
      (i < s.arena.slots.length → s.arena.slots[i]? = some (s.stored i)) →
      (s.arena.slots ++ [val])[i]? =
        some (Function.update s.stored s.arena.slots.length val i) := by
    intro i hi hold
    rcases Nat.lt_succ_iff_lt_or_eq.mp hi with hlt | rfl
    · rw [List.getElem?_append_left hlt, hold hlt, Function.update_of_ne hlt.ne]
    · rw [List.getElem?_concat_length, Function.update_self]
  cases hgen : s.arena.gen[s.arena.slots.length]? with
  | some g =>
    -- the position was in use before: its generation stands
    have hlt := (List.getElem?_eq_some_iff.mp hgen).1
    have hcall : s.arena.handle val = (⟨s.arena.slots ++ [val], s.arena.gen⟩,
        ⟨s.arena.slots.length % handleSpan, g⟩) := by
      unfold HandleArena.handle
      dsimp only
      rw [hgen]
    rw [hcall]
    refine ⟨?_, h.gen, h.fresh, fun m hm => ?_, fun hsmall i hi => ?_⟩
    · rw [List.length_append]
      exact hlt
    · rcases List.mem_cons.mp hm with rfl | hm
      · rw [h.gen _ hlt] at hgen
        cases hgen
        refine ⟨rfl, hlt, Nat.le_refl _, fun _ => ?_⟩
        rw [List.length_append]
        exact Nat.lt_succ_self _
      · obtain ⟨h1, h2, h3, h4⟩ := h.minted m hm
        refine ⟨h1, h2, h3, fun he => ?_⟩
        rw [List.length_append]
        exact Nat.lt_succ_of_lt (h4 he)
    · rw [List.length_append] at hi
      exact hstored i hi fun hlt => h.stored hsmall i hlt
  | none =>
    -- a position never used before
    have heq : s.arena.gen.length = s.arena.slots.length :=
      Nat.le_antisymm (List.getElem?_eq_none_iff.mp hgen) hlen
    have hcall : s.arena.handle val = (⟨s.arena.slots ++ [val], s.arena.gen ++ [0]⟩,
        ⟨s.arena.slots.length % handleSpan, 0⟩) := by
      unfold HandleArena.handle
      dsimp only
      rw [hgen]
    rw [hcall]
    refine ⟨?_, fun i hi => ?_, fun i hi => ?_, fun m hm => ?_, fun hsmall i hi => ?_⟩
    · rw [List.length_append, List.length_append]
      exact Nat.succ_le_succ hlen
    · rw [List.length_append] at hi
      rcases Nat.lt_succ_iff_lt_or_eq.mp hi with hlt | rfl
      · rw [List.getElem?_append_left hlt]
        exact h.gen i hlt
      · rw [List.getElem?_concat_length, h.fresh _ (Nat.le_refl _)]
        rfl
    · rw [List.length_append] at hi
      exact h.fresh i (Nat.le_of_succ_le hi)
    · rcases List.mem_cons.mp hm with rfl | hm
      · have hzero := h.fresh _ heq.le
        dsimp only
        rw [hzero, List.length_append, List.length_append, heq]
        exact ⟨rfl, Nat.lt_succ_self _, Nat.le_refl _, fun _ => Nat.lt_succ_self _⟩
      · obtain ⟨h1, h2, h3, h4⟩ := h.minted m hm
        rw [List.length_append, List.length_append]
        exact ⟨h1, Nat.lt_succ_of_lt h2, h3, fun he => Nat.lt_succ_of_lt (h4 he)⟩
    · rw [List.length_append] at hi hsmall
      exact hstored i hi fun hlt => h.stored (Nat.le_of_succ_le hsmall) i hlt

/-- Vacating a stretch of slots counts once for each. -/
theorem vacate {base : Nat} (hbase : base ≤ s.arena.slots.length) (scopes : List Nat) :
    ArenaInv { s with
      arena := s.arena.vacate base
      scopes := scopes
      vacates := s.vacated base } := by
  have hlen := h.length_le
  have hslots : (s.arena.vacate base).slots.length = base := by
    unfold HandleArena.vacate
    rw [List.length_take, Nat.min_eq_left hbase]
  have hgens : (s.arena.vacate base).gen.length = s.arena.gen.length := by
    unfold HandleArena.vacate
    rw [List.length_mapIdx]
  refine ⟨?_, fun i hi => ?_, fun i hi => ?_, fun m hm => ?_, fun hsmall i hi => ?_⟩
  · rw [hslots, hgens]
    exact hbase.trans hlen
  · rw [hgens] at hi
    unfold HandleArena.vacate ArenaState.vacated
    dsimp only
    rw [List.getElem?_mapIdx, h.gen i hi, Option.map_some]
    split
    · rw [Nat.mod_add_mod]
    · rfl
  · rw [hgens] at hi
    unfold ArenaState.vacated
    dsimp only
    rw [if_neg (by omega), h.fresh i hi]
  · obtain ⟨h1, h2, h3, h4⟩ := h.minted m hm
    rw [hgens, hslots]
    unfold ArenaState.vacated
    dsimp only
    split
    · exact ⟨h1, h2, Nat.le_succ_of_le h3, fun he => by omega⟩
    · exact ⟨h1, h2, h3, fun he => by have := h4 he; omega⟩
  · rw [hgens] at hsmall
    rw [hslots] at hi
    unfold HandleArena.vacate
    dsimp only
    rw [List.getElem?_take_of_lt hi]
    exact h.stored hsmall i (hi.trans_le hbase)

theorem set {m : Minted} {val : Nat} {arena : HandleArena} (hm : m ∈ s.minted)
    (hset : s.arena.set m.handle val = some arena) : ArenaInv { s with
      arena := arena
      stored := Function.update s.stored m.slot val } := by
  obtain ⟨h1, h2, -, -⟩ := h.minted m hm
  unfold HandleArena.set HandleArena.slot at hset
  by_cases hacc : s.arena.Accepts m.handle
  · rw [if_pos hacc] at hset
    cases hset
    have hlen : (s.arena.slots.set m.handle.index val).length = s.arena.slots.length :=
      List.length_set
    refine ⟨?_, h.gen, h.fresh, fun m' hm' => ?_, fun hsmall i hi => ?_⟩
    · rw [hlen]
      exact h.length_le
    · rw [hlen]
      exact h.minted m' hm'
    · rw [hlen] at hi
      have hindex : m.handle.index = m.slot := by
        rw [h1]
        exact Nat.mod_eq_of_lt (h2.trans_le hsmall)
      have hin := hacc.1
      dsimp only
      rw [hindex] at hin ⊢
      by_cases heq : m.slot = i
      · subst heq
        rw [List.getElem?_set_self hin, Function.update_self]
      · rw [List.getElem?_set_ne heq, Function.update_of_ne (Ne.symm heq)]
        exact h.stored hsmall i hi
  · rw [if_neg hacc] at hset
    cases hset

theorem collect (move : Nat → Nat → Nat) : ArenaInv { s with
    arena := s.arena.collect move
    stored := fun i => move i (s.stored i) } := by
  have hlen : (s.arena.collect move).slots.length = s.arena.slots.length := by
    unfold HandleArena.collect
    rw [List.length_mapIdx]
  refine ⟨?_, h.gen, h.fresh, fun m hm => ?_, fun hsmall i hi => ?_⟩
  · rw [hlen]
    exact h.length_le
  · rw [hlen]
    exact h.minted m hm
  · rw [hlen] at hi
    unfold HandleArena.collect
    dsimp only
    rw [List.getElem?_mapIdx, h.stored hsmall i hi, Option.map_some]

theorem step {s' : ArenaState} (hstep : ArenaStep s s') : ArenaInv s' := by
  cases hstep with
  | enter => exact ⟨h.length_le, h.gen, h.fresh, h.minted, h.stored⟩
  | handle val => exact h.handle val
  | set hm hset => exact h.set hm hset
  | drop _ hdrop =>
    unfold HandleArena.drop at hdrop
    split at hdrop
    · cases hdrop
      exact h.vacate ‹_› _
    · cases hdrop
  | resetTo baseLen abandoned =>
    unfold HandleArena.resetTo
    split
    · exact h.vacate (Nat.le_of_lt ‹_›) _
    · have hsame : s.vacated baseLen = s.vacates := by
        funext i
        exact if_neg (by omega)
      rw [hsame]
      exact ⟨h.length_le, h.gen, h.fresh, h.minted, h.stored⟩
  | collect move => exact h.collect move

end ArenaInv

theorem ArenaRun.inv {s : ArenaState} (hrun : ArenaRun s) : ArenaInv s := by
  induction hrun with
  | init => exact .init
  | step _ hstep ih => exact ih.step hstep

/-- After every run in which no slot was vacated 2^32 times and the arena never held more than
2^32 handles, the guard accepts a handle exactly if its slot was not vacated since it was minted,
and `get` then reads the value stored in the slot last. -/
theorem ArenaRun.accepts_iff {s : ArenaState} {m : Minted} (hrun : ArenaRun s)
    (hvacates : ∀ i, s.vacates i < 2 ^ 32) (hsmall : s.arena.gen.length ≤ 2 ^ 32)
    (hm : m ∈ s.minted) :
    (s.arena.Accepts m.handle ↔ s.vacates m.slot = m.epoch) ∧
      (s.arena.Accepts m.handle → s.arena.get m.handle = some (s.stored m.slot)) := by
  have h := hrun.inv
  obtain ⟨hhandle, hslot, hle, hlive⟩ := h.minted m hm
  have hindex : m.handle.index = m.slot := by
    rw [hhandle]
    exact Nat.mod_eq_of_lt (hslot.trans_le hsmall)
  have hgeneration : m.handle.generation = m.epoch := by
    rw [hhandle]
    exact Nat.mod_eq_of_lt (hle.trans_lt (hvacates _))
  have hgen : s.arena.gen[m.slot]? = some (s.vacates m.slot) := by
    rw [h.gen _ hslot, handleSpan, Nat.mod_eq_of_lt (hvacates _)]
  have haccepts : s.arena.Accepts m.handle ↔
      m.slot < s.arena.slots.length ∧ s.vacates m.slot = m.epoch := by
    unfold HandleArena.Accepts
    rw [hindex, hgeneration, hgen, Option.some.injEq]
  refine ⟨haccepts.trans ⟨And.right, fun he => ⟨hlive he.symm, he⟩⟩, fun hacc => ?_⟩
  unfold HandleArena.get HandleArena.slot
  rw [if_pos hacc, hindex]
  exact h.stored hsmall _ (haccepts.mp hacc).1

/-- A handle whose slot another scope has taken over, and the handle of the new occupant. -/
theorem ArenaRun.accepts_iff_reused : ∃ s : ArenaState, ArenaRun s ∧
    (∃ m ∈ s.minted, ¬ s.arena.Accepts m.handle ∧ s.vacates m.slot ≠ m.epoch) ∧
    ∃ m ∈ s.minted, s.arena.Accepts m.handle ∧ s.arena.get m.handle = some 7 := by
  have h1 : ArenaRun _ := .step .init .enter
  have h2 : ArenaRun _ := h1.step (.handle 5)
  have h3 : ArenaRun _ := h2.step (.drop rfl rfl)
  have h4 : ArenaRun _ := h3.step (.handle 6)
  have h5 : ArenaRun _ := h4.step (.collect fun _ val => val + 1)
  have hvacates : ∀ i, (if 0 ≤ i ∧ i < 1 then 1 else 0) < 2 ^ 32 := by
    intro i
    split <;> decide
  have hold := h5.accepts_iff hvacates (by decide) (m := ⟨⟨0, 0⟩, 0, 0⟩) (by decide)
  have hnew := h5.accepts_iff hvacates (by decide) (m := ⟨⟨0, 1⟩, 0, 1⟩) (by decide)
  have hmoved : (0 : Nat) ≠ 1 := by decide
  refine ⟨_, h5, ⟨⟨⟨0, 0⟩, 0, 0⟩, by decide, fun hacc => ?_, by decide⟩,
    ⟨⟨0, 1⟩, 0, 1⟩, by decide, hnew.1.mpr rfl, hnew.2 (hnew.1.mpr rfl)⟩
  exact absurd (hold.1.mp hacc) (by decide)

/-! ## More handles than an index counts -/

/-- The handles minted into an empty arena, the latest first. -/
def mintedFirst : Nat → List Minted
  | 0 => []
  | n + 1 => ⟨⟨n % handleSpan, 0⟩, n, 0⟩ :: mintedFirst n

theorem handle_replicate (n : Nat) :
    HandleArena.handle ⟨List.replicate n 0, List.replicate n 0⟩ 0 =
      (⟨List.replicate (n + 1) 0, List.replicate (n + 1) 0⟩, ⟨n % handleSpan, 0⟩) := by
  unfold HandleArena.handle
  dsimp only
  rw [List.length_replicate, List.getElem?_eq_none (Nat.le_of_eq List.length_replicate),
    List.replicate_succ']

theorem arenaRun_replicate (n : Nat) : ArenaRun
    ⟨⟨List.replicate n 0, List.replicate n 0⟩, [], mintedFirst n, fun _ => 0, fun _ => 0⟩ := by
  induction n with
  | zero => exact .init
  | succ n ih =>
    have hstep := ih.step (.handle 0)
    simp only [handle_replicate, List.length_replicate, Function.update_eq_self] at hstep
    exact hstep

/-- A handle minted behind a multiple of 2^32 others names slot 0, which outlives it. -/
theorem arenaRun_stale {n : Nat} (hn : 0 < n) (hmod : n % handleSpan = 0) :
    ∃ s : ArenaState, ArenaRun s ∧ (∀ i, s.vacates i ≤ 1) ∧
      ∃ m ∈ s.minted, s.arena.Accepts m.handle ∧ s.vacates m.slot ≠ m.epoch := by
  have hopen := (arenaRun_replicate n).step .enter
  have hminted := hopen.step (.handle 0)
  simp only [handle_replicate, List.length_replicate, Function.update_eq_self] at hminted
  have hdropped := hminted.step (@ArenaStep.drop _ n _ _ rfl (if_pos (by simp)))
  refine ⟨_, hdropped, fun i => ?_, ⟨⟨n % handleSpan, 0⟩, n, 0⟩, List.mem_cons_self, ⟨?_, ?_⟩, ?_⟩
  · unfold ArenaState.vacated
    dsimp only
    split <;> decide
  · unfold HandleArena.vacate
    dsimp only
    rw [hmod, List.length_take, List.length_replicate]
    omega
  · unfold HandleArena.vacate
    dsimp only
    rw [hmod, List.getElem?_mapIdx, List.getElem?_replicate_of_lt (Nat.succ_pos n), Option.map_some,
      if_neg (by omega)]
  · unfold ArenaState.vacated
    dsimp only
    rw [if_pos (by simp)]
    decide

/-- With 2^32 handles in use the guard accepts a handle whose slot is gone. -/
theorem arenaRun_accepts_stale : ∃ s : ArenaState, ArenaRun s ∧ (∀ i, s.vacates i < 2 ^ 32) ∧
    ∃ m ∈ s.minted, s.arena.Accepts m.handle ∧ s.vacates m.slot ≠ m.epoch := by
  obtain ⟨s, hrun, hvacates, hstale⟩ :=
    arenaRun_stale (n := handleSpan) (by decide) (Nat.mod_self _)
  exact ⟨s, hrun, fun i => (hvacates i).trans_lt (by decide), hstale⟩

end WinVm.Memory
