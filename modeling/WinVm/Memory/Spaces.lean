import WinVm.Memory.Objects
import WinVm.Lib.Tiling

/-!
# Spaces, cards and the offset table

The address ranges of the heap (`spaces.rs`), the card table over old gen (`cards.rs`), the
object-start offset table (`offsets.rs`) and the part of the `Universe` the collectors work
on. Addresses and sizes are in words, so a card is 64 words long.

Results: `Universe.recordObject_covers`, an object placed at the top of old gen keeps the offset
table resolving every card to the object that covers its base.
-/

namespace WinVm.Memory

open WinVm.Lib

/-! ## The data -/

/-- `Eden` and `SurvivorSpace`: `[start, top)` is in use, `[top, limit)` is free. -/
structure Space where
  start : Nat
  top : Nat
  limit : Nat
deriving Repr

/-- `OldGen`: reserved up to `limit`, allocatable up to `committedEnd`. -/
structure OldGen where
  start : Nat
  limit : Nat
  committedEnd : Nat
  top : Nat
deriving Repr

inductive GcPhase where
  | mutator
  | scavengeCopy
  | scavengePromote
deriving DecidableEq, Repr

/-- `GcStallError`, without the counters of past collections. -/
structure GcStallError where
  requested : Nat
  phase : GcPhase
  edenUsed : Nat
  edenCapacity : Nat
  fromUsed : Nat
  toUsed : Nat
  survivorCapacity : Nat
  oldUsed : Nat
  oldCommitted : Nat
  oldReserved : Nat
deriving Repr

/-- A word `each_code_root` visits. `flushedWith` are the nmethods whose flush takes it away; it
is weak if it is the key klass of an alive nmethod. -/
structure CodeRoot where
  word : Nat
  flushedWith : List Nat
  weakKeyOf : Option Nat
deriving Repr

/-- `roots` are the words `for_each_root` visits and `codeRoots` those of `each_code_root`,
in their order. -/
structure Universe where
  mem : Mem
  eden : Space
  fromSpace : Space
  toSpace : Space
  old : OldGen
  /-- The card table: `true` for a dirty card. -/
  dirty : Nat → Bool
  offsets : Nat → Nat
  tenuringThreshold : Nat
  ageTable : Nat → Nat
  pendingStall : Option GcStallError
  promotionGuaranteeMet : Bool
  gcEnabled : Bool
  roots : List Nat
  codeRoots : List CodeRoot
  /-- The not-entrant nmethods that no live activation refers to. -/
  idleNmethods : List Nat

def Space.reset (s : Space) : Space := { s with top := s.start }

def Space.used (s : Space) : Nat := s.top - s.start

def OldGen.freeWords (o : OldGen) : Nat := o.committedEnd - o.top

def GcStallError.snapshot (u : Universe) (requested : Nat) (phase : GcPhase) : GcStallError where
  requested := requested
  phase := phase
  edenUsed := u.eden.top - u.eden.start
  edenCapacity := u.eden.limit - u.eden.start
  fromUsed := u.fromSpace.top - u.fromSpace.start
  toUsed := u.toSpace.top - u.toSpace.start
  survivorCapacity := u.fromSpace.limit - u.fromSpace.start
  oldUsed := u.old.top - u.old.start
  oldCommitted := u.old.committedEnd - u.old.start
  oldReserved := u.old.limit - u.old.start

def CodeRoot.setWord (r : CodeRoot) (w : Nat) : CodeRoot := { r with word := w }

/-- The code roots with these words in them. -/
def setCodeWords (rs : List CodeRoot) (ws : List Nat) : List CodeRoot :=
  List.zipWith CodeRoot.setWord rs ws

theorem setCodeWords_map (rs : List CodeRoot) (f : Nat → Nat) :
    setCodeWords rs ((rs.map CodeRoot.word).map f) = rs.map fun r => r.setWord (f r.word) := by
  unfold setCodeWords
  induction rs with
  | nil => rfl
  | cons r rs ih => simp only [List.map_cons, List.zipWith_cons_cons, ih]

theorem word_setCodeWords {rs : List CodeRoot} {ws : List Nat} (h : ws.length = rs.length) :
    (setCodeWords rs ws).map CodeRoot.word = ws := by
  unfold setCodeWords
  induction rs generalizing ws with
  | nil => rw [List.length_eq_zero_iff.mp h]; rfl
  | cons r rs ih =>
    cases ws with
    | nil => cases h
    | cons w ws =>
      rw [List.zipWith_cons_cons, List.map_cons, ih (Nat.succ.inj h)]
      rfl

namespace Universe

def codeWords (u : Universe) : List Nat := u.codeRoots.map CodeRoot.word

def write (u : Universe) (x w : Nat) : Universe := { u with mem := Function.update u.mem x w }

/-! ## Cards -/

def cardSize : Nat := 64

def cardIndex (u : Universe) (x : Nat) : Nat := (x - u.old.start) / cardSize

def cardBase (u : Universe) (i : Nat) : Nat := u.old.start + i * cardSize

def nCards (u : Universe) : Nat := max ((u.old.limit - u.old.start + 63) / cardSize) 1

def dirtyForSlot (u : Universe) (x : Nat) : Universe :=
  { u with dirty := Function.update u.dirty (u.cardIndex x) true }

def setClean (u : Universe) (i : Nat) : Universe :=
  { u with dirty := Function.update u.dirty i false }

def recordMultistores (u : Universe) (start stop : Nat) : Universe :=
  if stop ≤ start then u
  else { u with
    dirty := fun i => u.dirty i ||
      (decide (u.cardIndex start ≤ i) && decide (i ≤ u.cardIndex (stop - 1))) }

/-! ## The offset table -/

def maxDirect : Nat := 64

def maxChainSkip : Nat := 191

/-- `record_object`: the entries of the cards whose base the object covers. -/
def recordObject (u : Universe) (addr size : Nat) : Universe :=
  let c0 := u.cardIndex addr
  { u with
    offsets := fun i =>
      if i = c0 ∧ addr = u.cardBase c0 then 0
      else if c0 < i ∧ i ≤ u.cardIndex (addr + size - 1) then
        if u.cardBase i - addr ≤ maxDirect then u.cardBase i - addr
        else maxDirect + min (i - (c0 + 1)) maxChainSkip
      else u.offsets i }

/-- The chain of `resolve`, at most so many hops; `none` where it walks past card 0. -/
def resolveFrom (u : Universe) : Nat → Nat → Option Nat
  | 0, _ => none
  | hops + 1, i =>
    if u.offsets i ≤ maxDirect then some (u.cardBase i - u.offsets i)
    else if u.offsets i - maxDirect ≤ i then resolveFrom u hops (i - (u.offsets i - maxDirect))
    else none

/-- Every hop goes back, so there are no more of them than cards. -/
def resolve (u : Universe) (i : Nat) : Option Nat := u.resolveFrom (i + 1) i

/-- `OldGen::allocate`. -/
def allocateOld (u : Universe) (size : Nat) : Option (Universe × Nat) :=
  if u.old.top + size ≤ u.old.committedEnd then
    some ({ u with old := { u.old with top := u.old.top + size } }.recordObject u.old.top size,
      u.old.top)
  else none

end Universe

/-! ## Regions -/

inductive Region where
  | eden
  | fromSpace
  | toSpace
  | old
deriving DecidableEq, Repr

namespace Universe

def start (u : Universe) : Region → Nat
  | .eden => u.eden.start
  | .fromSpace => u.fromSpace.start
  | .toSpace => u.toSpace.start
  | .old => u.old.start

def top (u : Universe) : Region → Nat
  | .eden => u.eden.top
  | .fromSpace => u.fromSpace.top
  | .toSpace => u.toSpace.top
  | .old => u.old.top

/-- Where a region's allocatable words end. -/
def cap (u : Universe) : Region → Nat
  | .eden => u.eden.limit
  | .fromSpace => u.fromSpace.limit
  | .toSpace => u.toSpace.limit
  | .old => u.old.committedEnd

/-- The regions follow their bounds, do not overlap, and old gen lies above the others. -/
structure WfSpaces (u : Universe) : Prop where
  start_le : ∀ r, u.start r ≤ u.top r
  top_le : ∀ r, u.top r ≤ u.cap r
  apart : ∀ r s, r ≠ s → u.cap r ≤ u.start s ∨ u.cap s ≤ u.start r
  young : ∀ r, r ≠ .old → u.cap r ≤ u.old.start
  reserved : u.old.committedEnd ≤ u.old.limit

/-- Every card that starts in the used part of old gen resolves to the object over its base; the
objects are given by address and size. -/
def Covers (u : Universe) (blocks : List (Nat × Nat)) : Prop :=
  ∀ i, u.cardBase i < u.old.top → ∃ a n, (a, n) ∈ blocks ∧ u.resolve i = some a ∧
    a ≤ u.cardBase i ∧ u.cardBase i < a + n

/-- The same for objects whose size is a function of their address. -/
def Resolves (u : Universe) (size : Nat → Nat) (olds : List Nat) : Prop :=
  ∀ i, u.cardBase i < u.old.top → ∃ a ∈ olds, u.resolve i = some a ∧
    a ≤ u.cardBase i ∧ u.cardBase i < a + size a

/-! ## Frames -/

section Frames

variable (u : Universe) (x w a n i lo hi : Nat)

@[simp] theorem write_mem : (u.write x w).mem = Function.update u.mem x w := rfl

theorem recordMultistores_eq : ∃ dirty, u.recordMultistores lo hi = { u with dirty := dirty } ∧
    ∀ i, u.dirty i = true → dirty i = true := by
  unfold recordMultistores
  split
  · exact ⟨u.dirty, rfl, fun _ h => h⟩
  · refine ⟨_, rfl, fun i h => ?_⟩
    rw [h, Bool.true_or]

/-- Every word of the range is on a dirty card afterwards. -/
theorem recordMultistores_dirty (hx : lo ≤ x) (hx' : x < hi) :
    (u.recordMultistores lo hi).dirty (u.cardIndex x) = true := by
  unfold recordMultistores
  rw [if_neg (by omega)]
  have h1 : u.cardIndex lo ≤ u.cardIndex x := Nat.div_le_div_right (by omega)
  have h2 : u.cardIndex x ≤ u.cardIndex (hi - 1) := Nat.div_le_div_right (by omega)
  simp [h1, h2]

end Frames

/-! ## What the offset table resolves -/

variable {u u' : Universe}

/-- Resolving a card reads no entry above it. -/
theorem resolveFrom_congr (hstart : u'.old.start = u.old.start) (hops i : Nat)
    (h : ∀ j, j ≤ i → u'.offsets j = u.offsets j) :
    u'.resolveFrom hops i = u.resolveFrom hops i := by
  induction hops generalizing i with
  | zero => rfl
  | succ hops ih =>
    simp only [resolveFrom, h i (Nat.le_refl i), cardBase, hstart]
    split
    · rfl
    · split
      · exact ih _ fun j hj => h j (by omega)
      · rfl

theorem recordObject_offsets (u : Universe) (addr size i : Nat) :
    (u.recordObject addr size).offsets i =
      if i = u.cardIndex addr ∧ addr = u.cardBase (u.cardIndex addr) then 0
      else if u.cardIndex addr < i ∧ i ≤ u.cardIndex (addr + size - 1) then
        if u.cardBase i - addr ≤ maxDirect then u.cardBase i - addr
        else maxDirect + min (i - (u.cardIndex addr + 1)) maxChainSkip
      else u.offsets i :=
  rfl

theorem recordObject_offsets_lt {addr size i : Nat} (h : u.cardBase i < addr) :
    (u.recordObject addr size).offsets i = u.offsets i := by
  have hle : i ≤ u.cardIndex addr := by
    unfold cardIndex cardSize
    unfold cardBase cardSize at h
    omega
  rw [recordObject_offsets, if_neg, if_neg (by omega)]
  rintro ⟨rfl, heq⟩
  omega

/-- The cards an object covers resolve to it, whatever the entries were. -/
theorem recordObject_resolveFrom {addr size : Nat} (hstart : u.old.start ≤ addr)
    (hops i : Nat) (hops_ge : i - u.cardIndex addr ≤ hops) (hbase : addr ≤ u.cardBase i)
    (hin : u.cardBase i < addr + size) :
    (u.recordObject addr size).resolveFrom (hops + 1) i = some addr := by
  have hc0 : u.cardBase (u.cardIndex addr) ≤ addr := by
    unfold cardBase cardIndex cardSize
    omega
  have hcb : ∀ j, (u.recordObject addr size).cardBase j = u.cardBase j := fun _ => rfl
  induction hops generalizing i with
  | zero =>
    -- the card of the header itself, whose base is the header
    have hi : i = u.cardIndex addr := by
      unfold cardBase cardIndex cardSize at *
      omega
    subst hi
    have heq : addr = u.cardBase (u.cardIndex addr) := by omega
    simp only [resolveFrom, hcb]
    have h0 : (u.recordObject addr size).offsets (u.cardIndex addr) = 0 := by
      rw [recordObject_offsets, if_pos ⟨rfl, heq⟩]
    rw [h0, if_pos (Nat.zero_le _), Nat.sub_zero, ← heq]
  | succ hops ih =>
    rw [resolveFrom]
    by_cases hhead : i = u.cardIndex addr ∧ addr = u.cardBase (u.cardIndex addr)
    · have h0 : (u.recordObject addr size).offsets i = 0 := by
        rw [recordObject_offsets, if_pos hhead]
      rw [h0, if_pos (Nat.zero_le _), hcb, hhead.1, ← hhead.2, Nat.sub_zero]
    · have hlt : u.cardIndex addr < i := by
        rcases Nat.lt_or_ge (u.cardIndex addr) i with hlt | hge
        · exact hlt
        · refine absurd ⟨?_, ?_⟩ hhead
          · unfold cardBase cardIndex cardSize at *
            omega
          · unfold cardBase cardIndex cardSize at *
            omega
      have hlast : i ≤ u.cardIndex (addr + size - 1) := by
        unfold cardBase at hin
        unfold cardIndex cardSize at *
        omega
      have hentry : (u.recordObject addr size).offsets i =
          if u.cardBase i - addr ≤ maxDirect then u.cardBase i - addr
          else maxDirect + min (i - (u.cardIndex addr + 1)) maxChainSkip := by
        rw [recordObject_offsets, if_neg hhead, if_pos ⟨hlt, hlast⟩]
      by_cases hdirect : u.cardBase i - addr ≤ maxDirect
      · rw [hentry, if_pos hdirect, if_pos hdirect, hcb]
        congr 1
        omega
      · -- a hop back lands on a card the object covers as well
        have hskip : 1 ≤ i - (u.cardIndex addr + 1) := by
          unfold cardBase cardIndex cardSize maxDirect at *
          omega
        rw [hentry, if_neg hdirect, if_neg (by unfold maxChainSkip; omega),
          if_pos (by omega)]
        refine ih _ ?_ ?_ ?_
        · unfold maxChainSkip
          omega
        · unfold cardBase cardIndex cardSize maxDirect maxChainSkip at *
          omega
        · unfold cardBase cardSize at *
          omega

theorem allocateOld_eq_some {size : Nat} {addr : Nat} (h : u.allocateOld size = some (u', addr)) :
    addr = u.old.top ∧ u.old.top + size ≤ u.old.committedEnd ∧
      u' = { u with old := { u.old with top := u.old.top + size } }.recordObject u.old.top size := by
  unfold allocateOld at h
  split at h
  · cases h
    exact ⟨rfl, ‹_›, rfl⟩
  · cases h

theorem resolves_iff_covers {s : Nat → Nat} {olds : List Nat} :
    u.Resolves s olds ↔ u.Covers (olds.map fun a => (a, s a)) := by
  unfold Resolves Covers
  refine forall_congr' fun i => imp_congr_right fun _ => ⟨?_, ?_⟩
  · rintro ⟨a, ha, hres⟩
    exact ⟨a, s a, List.mem_map.mpr ⟨a, ha, rfl⟩, hres⟩
  · rintro ⟨a, n, hm, hres⟩
    obtain ⟨b, hb, heq⟩ := List.mem_map.mp hm
    cases heq
    exact ⟨_, hb, hres⟩

/-- The table still resolves every card once an object was placed at the top. -/
theorem recordObject_covers {blocks : List (Nat × Nat)} (h : u.Covers blocks)
    (hstart : u.old.start ≤ u.old.top) (n : Nat) :
    ({ u with old := { u.old with top := u.old.top + n } }.recordObject u.old.top n).Covers
      (blocks ++ [(u.old.top, n)]) := by
  generalize hv : ({ u with old := { u.old with top := u.old.top + n } } : Universe) = v
  have hvb : ∀ i, v.cardBase i = u.cardBase i := by
    intro i
    rw [← hv]
    rfl
  have hvs : v.old.start = u.old.start := by rw [← hv]
  have hvt : v.old.top = u.old.top + n := by rw [← hv]
  have hvo : v.offsets = u.offsets := by rw [← hv]
  have hrb : ∀ i, (v.recordObject u.old.top n).cardBase i = u.cardBase i := hvb
  intro i hi
  rw [hrb] at hi ⊢
  have hi' : u.cardBase i < u.old.top + n := by
    rw [← hvt]
    exact hi
  rcases Nat.lt_or_ge (u.cardBase i) u.old.top with hlt | hge
  · obtain ⟨a, k, ha, hres, h1, h2⟩ := h i hlt
    refine ⟨a, k, List.mem_append_left _ ha, ?_, h1, h2⟩
    rw [← hres]
    have hrs : (v.recordObject u.old.top n).old.start = u.old.start := hvs
    refine resolveFrom_congr hrs (i + 1) i fun j hj => ?_
    have hjb : v.cardBase j < u.old.top := by
      rw [hvb]
      unfold cardBase cardSize at *
      omega
    rw [recordObject_offsets_lt hjb, hvo]
  · refine ⟨u.old.top, n, by simp, ?_, hge, hi'⟩
    refine recordObject_resolveFrom (by rw [hvs]; exact hstart) i i (by omega) ?_ ?_
    · rw [hvb]
      exact hge
    · rw [hvb]
      exact hi'

theorem allocateOld_covers {blocks : List (Nat × Nat)} {n addr : Nat} (h : u.Covers blocks)
    (hstart : u.old.start ≤ u.old.top) (halloc : u.allocateOld n = some (u', addr)) :
    u'.Covers (blocks ++ [(addr, n)]) := by
  obtain ⟨rfl, -, rfl⟩ := allocateOld_eq_some halloc
  exact recordObject_covers h hstart n

theorem allocateOld_resolves {s : Nat → Nat} {olds : List Nat} {n addr : Nat}
    (h : u.Resolves s olds) (hstart : u.old.start ≤ u.old.top)
    (halloc : u.allocateOld n = some (u', addr)) (hn : s addr = n) :
    u'.Resolves s (olds ++ [addr]) := by
  rw [resolves_iff_covers, List.map_append, List.map_singleton, hn]
  exact allocateOld_covers (resolves_iff_covers.mp h) hstart halloc

/-! ## States with the same bounds -/

theorem WfSpaces.not_fresh {u : Universe} (h : u.WfSpaces) {r d : Region} {y n : Nat}
    (h1 : u.start r ≤ y) (h2 : y < u.top r) (h3 : u.top d + n ≤ u.cap d) :
    ¬ (u.top d ≤ y ∧ y < u.top d + n) := by
  rintro ⟨h4, h5⟩
  by_cases hrd : r = d
  · subst hrd
    omega
  · have := h.apart r d hrd
    have := h.top_le r
    have := h.start_le d
    omega

/-- Bumping the tops within their regions keeps the spaces in order. -/
theorem WfSpaces.of_tops {u u' : Universe} (h : u.WfSpaces)
    (hstart : ∀ r, u'.start r = u.start r) (hcap : ∀ r, u'.cap r = u.cap r)
    (htop : ∀ r, u.top r ≤ u'.top r ∧ u'.top r ≤ u'.cap r)
    (hlimit : u'.old.limit = u.old.limit) : u'.WfSpaces := by
  have hos : u'.old.start = u.old.start := hstart .old
  have hoc : u'.old.committedEnd = u.old.committedEnd := hcap .old
  refine ⟨fun r => ?_, fun r => (htop r).2, fun r s hrs => ?_, fun r hr => ?_, ?_⟩
  · rw [hstart]
    exact (h.start_le r).trans (htop r).1
  · rw [hstart, hstart, hcap, hcap]
    exact h.apart r s hrs
  · rw [hcap, hos]
    exact h.young r hr
  · rw [hoc, hlimit]
    exact h.reserved

theorem WfSpaces.of_eq {u u' : Universe} (h : u.WfSpaces) (heden : u'.eden = u.eden)
    (hfrom : u'.fromSpace = u.fromSpace) (hto : u'.toSpace = u.toSpace) (hold : u'.old = u.old) :
    u'.WfSpaces := by
  have hcap : ∀ r, u'.cap r = u.cap r := by
    intro r
    cases r <;> simp only [cap, heden, hfrom, hto, hold]
  have htop : ∀ r, u'.top r = u.top r := by
    intro r
    cases r <;> simp only [top, heden, hfrom, hto, hold]
  refine h.of_tops ?_ hcap (fun r => ?_) (by rw [hold])
  · intro r
    cases r <;> simp only [start, heden, hfrom, hto, hold]
  · rw [htop, hcap]
    exact ⟨Nat.le_refl _, h.top_le r⟩

theorem Resolves.congr {u : Universe} {size size' : Nat → Nat} {olds : List Nat}
    (h : u.Resolves size olds) (heq : ∀ a ∈ olds, size' a = size a) : u.Resolves size' olds := by
  intro i hi
  obtain ⟨a, ha, h1, h2, h3⟩ := h i hi
  exact ⟨a, ha, h1, h2, (heq a ha).symm ▸ h3⟩

/-- Resolving looks at old gen's bounds and the entries only. -/
theorem Covers.of_offsets {u u' : Universe} {blocks : List (Nat × Nat)} (h : u.Covers blocks)
    (hstart : u'.old.start = u.old.start) (htop : u'.old.top = u.old.top)
    (hoff : u'.offsets = u.offsets) : u'.Covers blocks := by
  intro i hi
  have hbase : u'.cardBase i = u.cardBase i := by
    unfold cardBase
    rw [hstart]
  rw [hbase, htop] at hi
  obtain ⟨a, n, hm, hres, hin⟩ := h i hi
  rw [hbase]
  refine ⟨a, n, hm, ?_, hin⟩
  rw [← hres]
  exact resolveFrom_congr hstart (i + 1) i fun j _ => by rw [hoff]

theorem Resolves.of_offsets {u u' : Universe} {size : Nat → Nat} {olds : List Nat}
    (h : u.Resolves size olds) (hstart : u'.old.start = u.old.start)
    (htop : u'.old.top = u.old.top) (hoff : u'.offsets = u.offsets) : u'.Resolves size olds :=
  resolves_iff_covers.mpr ((resolves_iff_covers.mp h).of_offsets hstart htop hoff)

end Universe

end WinVm.Memory
