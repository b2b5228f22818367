import WinVm.Codecache.CodeTable
import WinVm.Lib.Segments

/-!
# The code cache's allocator

`CodeCache::alloc` and `free`: first fit over an address-ordered free list, a bump pointer behind
it, and holes that merge with their neighbours when a block comes back. Addresses are offsets from
the start of the region, which is page-aligned. Requests are lengths of byte slices, so rounding
one up never overflows.

Result: `CodeRun.layout`, after every run of allocations and frees the live blocks and the holes
tile the region up to `top`.
-/

namespace WinVm.Codecache

open WinVm.Lib

/-! ## The allocator -/

def CodeHandle.extent (h : CodeHandle) : Nat × Nat := (h.base, h.len)

structure CodeCache where
  cap : Nat
  /-- The bump pointer for never-yet-used space. -/
  top : Nat
  /-- The holes, by offset. -/
  free : List (Nat × Nat)
deriving DecidableEq, Repr

def roundUp16 (n : Nat) : Nat := (n + 15) / 16 * 16

/-- What becomes of a block on its way to the free list. -/
structure Freed where
  start : Nat
  len : Nat
  holes : List (Nat × Nat)
deriving DecidableEq, Repr

/-- The hole that ends where the block starts joins it. -/
def Freed.mergePrev (f : Freed) : Freed :=
  match OrderedMap.lastBelow f.start f.holes with
  | some (off, len) =>
    if off + len = f.start then ⟨off, f.len + len, OrderedMap.remove off f.holes⟩ else f
  | none => f

/-- The hole that starts where the block ends joins it. -/
def Freed.mergeNext (f : Freed) : Freed :=
  match OrderedMap.firstFrom (f.start + f.len) f.holes with
  | some (off, len) =>
    if off = f.start + f.len then ⟨f.start, f.len + len, OrderedMap.remove off f.holes⟩ else f
  | none => f

theorem Freed.mergePrev_of_eq {f : Freed} {off len : Nat}
    (hlast : OrderedMap.lastBelow f.start f.holes = some (off, len)) (h : off + len = f.start) :
    f.mergePrev = ⟨off, f.len + len, OrderedMap.remove off f.holes⟩ := by
  unfold Freed.mergePrev
  rw [hlast]
  exact if_pos h

theorem Freed.mergePrev_of_ne {f : Freed}
    (h : ∀ e ∈ OrderedMap.lastBelow f.start f.holes, e.1 + e.2 ≠ f.start) : f.mergePrev = f := by
  unfold Freed.mergePrev
  cases hlast : OrderedMap.lastBelow f.start f.holes with
  | none => rfl
  | some e => exact if_neg (h e hlast)

theorem Freed.mergeNext_of_eq {f : Freed} {len : Nat}
    (hfirst : OrderedMap.firstFrom (f.start + f.len) f.holes = some (f.start + f.len, len)) :
    f.mergeNext = ⟨f.start, f.len + len, OrderedMap.remove (f.start + f.len) f.holes⟩ := by
  unfold Freed.mergeNext
  rw [hfirst]
  exact if_pos rfl

theorem Freed.mergeNext_of_ne {f : Freed}
    (h : ∀ e ∈ OrderedMap.firstFrom (f.start + f.len) f.holes, e.1 ≠ f.start + f.len) :
    f.mergeNext = f := by
  unfold Freed.mergeNext
  cases hfirst : OrderedMap.firstFrom (f.start + f.len) f.holes with
  | none => rfl
  | some e => exact if_neg (h e hfirst)

namespace CodeCache

def new (cap : Nat) : CodeCache := ⟨cap, 0, []⟩

def alloc (c : CodeCache) (len : Nat) : Option (CodeHandle × CodeCache) :=
  let len := roundUp16 len
  match c.free.find? fun e => decide (len ≤ e.2) with
  | some (off, holeLen) =>
    let holes := OrderedMap.remove off c.free
    let remainder := holeLen - len
    if 32 ≤ remainder then
      some (⟨off, len⟩, { c with free := OrderedMap.insert (off + len) remainder holes })
    else
      -- a remainder this small is absorbed into the grant
      some (⟨off, holeLen⟩, { c with free := holes })
  | none =>
    if c.cap < c.top + len then none
    else some (⟨c.top, len⟩, { c with top := c.top + len })

/-- `free`: a block that ends at `top` after merging lowers it, any other becomes a hole. -/
def release (c : CodeCache) (h : CodeHandle) : CodeCache :=
  let f := (Freed.mk h.base h.len c.free).mergePrev.mergeNext
  if f.start + f.len = c.top then { c with top := f.start, free := f.holes }
  else { c with free := OrderedMap.insert f.start f.len f.holes }

end CodeCache

/-- The runs of the allocator, with the handles that are live after each. -/
inductive CodeRun (cap : Nat) : CodeCache → List CodeHandle → Prop
  | new : CodeRun cap (.new cap) []
  | alloc {c c' : CodeCache} {live : List CodeHandle} {len : Nat} {h : CodeHandle} :
      CodeRun cap c live → 0 < len → c.alloc len = some (h, c') → CodeRun cap c' (h :: live)
  | free {c : CodeCache} {live : List CodeHandle} {h : CodeHandle} :
      CodeRun cap c live → h ∈ live → CodeRun cap (c.release h) (live.erase h)

/-! ## The layout of the region -/

/-- The region cut into segments: the live blocks are those in use, the free list has the others. -/
structure Layout (c : CodeCache) (live : List CodeHandle) (segs : List Segment) : Prop where
  positive : Segment.Positive segs
  aligned : ∀ s ∈ segs, 16 ∣ s.len
  separated : Segment.Separated segs
  top : c.top = Segment.total segs
  top_le : c.top ≤ c.cap
  free : c.free = Segment.placed false 0 segs
  live : (live.map CodeHandle.extent).Perm (Segment.placed true 0 segs)

section

variable {c c' : CodeCache} {live : List CodeHandle} {segs pre post : List Segment}
  {h : CodeHandle} {len n : Nat}

open Segment

theorem roundUp16_dvd (n : Nat) : 16 ∣ roundUp16 n := Nat.dvd_mul_left _ _

theorem roundUp16_pos (h : 0 < n) : 0 < roundUp16 n := by
  unfold roundUp16
  omega

theorem new_layout (cap : Nat) : Layout (.new cap) [] [] where
  positive := by simp [Positive]
  aligned := by simp
  separated := separated_nil
  top := rfl
  top_le := Nat.zero_le _
  free := rfl
  live := .nil

/-- The keys of the free list on either side of a segment. -/
theorem keys_before (h : Positive pre) : ∀ e ∈ placed false 0 pre, e.1 < total pre := by
  intro e he
  have := h.placed_lt he
  omega

theorem keys_after {p q : Nat} (hpq : q < p) : ∀ e ∈ placed false p post, q < e.1 := by
  intro e he
  have := (placed_bounds he).1
  omega

/-- A grant from a hole. -/
theorem alloc_hole {off holeLen : Nat} (hl : Layout c live segs)
    (hfind : c.free.find? (fun e => decide (roundUp16 len ≤ e.2)) = some (off, holeLen)) :
    ∃ pre post, segs = pre ++ ⟨holeLen, false⟩ :: post ∧ off = total pre ∧
      roundUp16 len ≤ holeLen ∧
      c.free = placed false 0 pre ++ (off, holeLen) :: placed false (off + holeLen) post ∧
      OrderedMap.remove off c.free = placed false 0 pre ++ placed false (off + holeLen) post := by
  have hmem := List.mem_of_find?_eq_some hfind
  have hfits : roundUp16 len ≤ holeLen := by simpa using List.find?_some hfind
  rw [hl.free] at hmem
  obtain ⟨pre, post, hsegs, hoff⟩ := mem_placed.mp hmem
  rw [Nat.zero_add] at hoff
  have hpos := hl.positive
  rw [hsegs] at hpos
  have hhole : 0 < holeLen := hpos ⟨holeLen, false⟩ (by simp)
  have hfree : c.free =
      placed false 0 pre ++ (off, holeLen) :: placed false (off + holeLen) post := by
    rw [hl.free, hsegs, placed_append, placed_cons_self, Nat.zero_add, hoff]
  refine ⟨pre, post, hsegs, hoff, hfits, hfree, ?_⟩
  rw [hfree]
  refine OrderedMap.remove_append ?_ (keys_after (by omega))
  rw [hoff]
  exact keys_before fun s hs => hpos s (List.mem_append_left _ hs)

theorem alloc_layout (hl : Layout c live segs) (hlen : 0 < len)
    (halloc : c.alloc len = some (h, c')) : ∃ segs', Layout c' (h :: live) segs' := by
  have hn := roundUp16_pos hlen
  have hdvd := roundUp16_dvd len
  unfold CodeCache.alloc at halloc
  dsimp only at halloc
  cases hfind : c.free.find? fun e => decide (roundUp16 len ≤ e.2) with
  | some hole =>
    obtain ⟨off, holeLen⟩ := hole
    obtain ⟨pre, post, rfl, rfl, hfits, hfree, hremoved⟩ := alloc_hole hl hfind
    rw [hfind] at halloc
    dsimp only at halloc
    rw [hremoved] at halloc
    obtain ⟨hpos, haligned, hsep, htop, hcap, -, hlive⟩ := hl
    obtain ⟨hpre, hpost, -⟩ := separated_append.mp hsep
    obtain ⟨hpost, hnext⟩ := separated_cons_hole.mp hpost
    simp only [Positive, List.forall_mem_append, List.forall_mem_cons] at hpos haligned
    rw [total_append, total_cons] at htop
    rw [placed_append, placed_cons_of_ne (by simp), Nat.zero_add] at hlive
    by_cases hrem : 32 ≤ holeLen - roundUp16 len
    · -- the hole is cut: the grant first, the remainder behind it
      rw [if_pos hrem] at halloc
      obtain ⟨rfl, rfl⟩ := Prod.mk.injEq .. ▸ Option.some.inj halloc
      have hend : total pre + roundUp16 len + (holeLen - roundUp16 len) = total pre + holeLen := by
        omega
      have hinsert := OrderedMap.insert_append (k := total pre + roundUp16 len)
        (v := holeLen - roundUp16 len) (A := placed false 0 pre)
        (B := placed false (total pre + holeLen) post)
        (fun e he => (keys_before hpos.1 e he).trans_le (Nat.le_add_right _ _))
        (keys_after (by omega))
      refine ⟨pre ++ ⟨roundUp16 len, true⟩ :: ⟨holeLen - roundUp16 len, false⟩ :: post,
        ?_, ?_, ?_, ?_, hcap, ?_, ?_⟩
      · simp only [Positive, List.forall_mem_append, List.forall_mem_cons]
        exact ⟨hpos.1, hn, by omega, hpos.2.2⟩
      · simp only [List.forall_mem_append, List.forall_mem_cons]
        exact ⟨haligned.1, hdvd, Nat.dvd_sub haligned.2.1 hdvd, haligned.2.2⟩
      · exact separated_middle.mpr ⟨hpre, separated_cons_hole.mpr ⟨hpost, hnext⟩⟩
      · rw [total_append, total_cons, total_cons]
        dsimp only at htop ⊢
        omega
      · rw [placed_append, placed_cons_of_ne (by simp), placed_cons_self, Nat.zero_add]
        dsimp only
        rw [hend]
        exact hinsert
      · rw [placed_append, placed_cons_self, placed_cons_of_ne (by simp), Nat.zero_add]
        dsimp only
        rw [hend, List.map_cons]
        exact (hlive.cons _).trans List.perm_middle.symm
    · -- the whole hole is granted
      rw [if_neg hrem] at halloc
      obtain ⟨rfl, rfl⟩ := Prod.mk.injEq .. ▸ Option.some.inj halloc
      refine ⟨pre ++ ⟨holeLen, true⟩ :: post, ?_, ?_, ?_, ?_, hcap, ?_, ?_⟩
      · simp only [Positive, List.forall_mem_append, List.forall_mem_cons]
        exact hpos
      · simp only [List.forall_mem_append, List.forall_mem_cons]
        exact haligned
      · exact separated_middle.mpr ⟨hpre, hpost⟩
      · rw [total_append, total_cons]
        exact htop
      · rw [placed_append, placed_cons_of_ne (by simp), Nat.zero_add]
      · rw [placed_append, placed_cons_self, Nat.zero_add, List.map_cons]
        exact (hlive.cons _).trans List.perm_middle.symm
  | none =>
    rw [hfind] at halloc
    dsimp only at halloc
    obtain ⟨hpos, haligned, hsep, htop, hcap, hfree, hlive⟩ := hl
    split at halloc
    · cases halloc
    · rename_i hfits
      obtain ⟨rfl, rfl⟩ := Prod.mk.injEq .. ▸ Option.some.inj halloc
      refine ⟨segs ++ [⟨roundUp16 len, true⟩], ?_, ?_, ?_, ?_,
        Nat.le_of_not_lt hfits, ?_, ?_⟩
      · simp only [Positive, List.forall_mem_append, List.forall_mem_singleton]
        exact ⟨hpos, hn⟩
      · simp only [List.forall_mem_append, List.forall_mem_singleton]
        exact ⟨haligned, hdvd⟩
      · exact separated_middle.mpr ⟨(List.isChain_append.mp hsep).1, separated_nil⟩
      · rw [total_append, total_cons, total_nil, ← htop]
        rfl
      · rw [placed_append, placed_cons_of_ne (by simp), placed, List.append_nil]
        exact hfree
      · rw [placed_append, placed_cons_self, placed, Nat.zero_add, ← htop, List.map_cons]
        exact (hlive.cons _).trans (List.perm_append_singleton _ _).symm

/-! ## Frees -/

/-- A block on its way to the free list, between the segments before and behind it. -/
structure Freed.Between (f : Freed) (pre post : List Segment) : Prop where
  start : f.start = total pre
  holes : f.holes = placed false 0 pre ++ placed false (f.start + f.len) post

namespace Freed.Between

variable {f : Freed} (hf : f.Between pre post) (hlen : 0 < f.len)
include hf hlen

/-- Merging with what lies before takes the hole off the segments, if there is one. -/
theorem mergePrev (hpos : Positive pre) (hsep : pre.IsChain fun s t => s.used = true ∨ t.used = true) :
    ∃ pre', f.mergePrev.Between pre' post ∧ (∀ s ∈ pre'.getLast?, s.used = true) ∧
      f.mergePrev.start + f.mergePrev.len = f.start + f.len ∧
      (pre = pre' ∨ ∃ n, pre = pre' ++ [⟨n, false⟩]) := by
  have hlast : OrderedMap.lastBelow f.start f.holes = (placed false 0 pre).getLast? := by
    rw [hf.holes, hf.start]
    exact OrderedMap.lastBelow_append (keys_before hpos)
      fun e he => (keys_after (by omega : total pre < total pre + f.len) e he).le
  rcases hpos.last_hole (p := 0) with ⟨pre', n, rfl, hhole⟩ | ⟨hused, hnone⟩
  · have hstart : f.start = total pre' + n := by
      rw [hf.start, total_append, total_cons, total_nil]
      rfl
    simp only [Positive, List.forall_mem_append, List.forall_mem_singleton] at hpos
    have hremoved : OrderedMap.remove (total pre') f.holes =
        placed false 0 pre' ++ placed false (f.start + f.len) post := by
      rw [hf.holes, placed_append, placed_cons_self, placed, Nat.zero_add, List.append_assoc]
      exact OrderedMap.remove_append (keys_before hpos.1) (keys_after (by omega))
    have hend : total pre' + (f.len + n) = f.start + f.len := by omega
    rw [hhole, Nat.zero_add] at hlast
    rw [Freed.mergePrev_of_eq hlast hstart.symm, hremoved]
    refine ⟨pre', ⟨rfl, ?_⟩, ?_, hend, .inr ⟨n, rfl⟩⟩
    · dsimp only
      rw [hend]
    · intro s hs
      have := (List.isChain_append.mp hsep).2.2 s hs ⟨n, false⟩ rfl
      simpa using this
  · rw [Nat.zero_add, ← hf.start] at hnone
    rw [Freed.mergePrev_of_ne (by rwa [hlast])]
    exact ⟨pre, hf, hused, rfl, .inl rfl⟩

/-- Merging with what lies behind takes the hole off the segments, if there is one. -/
theorem mergeNext (hpre : Positive pre) (hpos : Positive post) (hsep : Separated post) :
    ∃ post', f.mergeNext.Between pre post' ∧ (∀ s ∈ post'.head?, s.used = true) ∧
      ((f.mergeNext.len = f.len ∧ post = post') ∨
        ∃ n, f.mergeNext.len = f.len + n ∧ post = ⟨n, false⟩ :: post') := by
  have hfirst : OrderedMap.firstFrom (f.start + f.len) f.holes =
      (placed false (f.start + f.len) post).head? := by
    rw [hf.holes]
    refine OrderedMap.firstFrom_append (fun e he => ?_) fun e he => ?_
    · have := keys_before hpre e he
      rw [hf.start]
      omega
    · exact (placed_bounds he).1
  rcases hpos.first_hole (p := f.start + f.len) with ⟨n, post', rfl, hhole⟩ | ⟨hused, hnone⟩
  · simp only [Positive, List.forall_mem_cons] at hpos
    obtain ⟨hn, hpos⟩ := hpos
    have hremoved : OrderedMap.remove (f.start + f.len) f.holes =
        placed false 0 pre ++ placed false (f.start + f.len + n) post' := by
      rw [hf.holes, placed_cons_self]
      refine OrderedMap.remove_append (fun e he => ?_) (keys_after (by omega))
      have := keys_before hpre e he
      rw [hf.start]
      omega
    rw [hhole] at hfirst
    rw [Freed.mergeNext_of_eq hfirst, hremoved]
    refine ⟨post', ⟨hf.start, ?_⟩, fun s hs => ?_, .inr ⟨n, rfl, rfl⟩⟩
    · dsimp only
      rw [Nat.add_assoc]
    · cases post' with
      | nil => cases hs
      | cons t post => exact (separated_cons_hole.mp hsep).2 s hs
  · rw [Freed.mergeNext_of_ne (by rwa [hfirst])]
    exact ⟨post, hf, hused, .inl ⟨rfl, rfl⟩⟩

end Freed.Between

theorem extent_injective : Function.Injective CodeHandle.extent := by
  rintro ⟨a, n⟩ ⟨b, m⟩ heq
  cases heq
  rfl

theorem release_layout (hl : Layout c live segs) (hmem : h ∈ live) :
    ∃ segs', Layout (c.release h) (live.erase h) segs' := by
  obtain ⟨hpos, haligned, hsep, htop, hcap, hfree, hlive⟩ := hl
  have hplaced : (h.base, h.len) ∈ placed true 0 segs :=
    hlive.subset (List.mem_map_of_mem hmem)
  obtain ⟨pre, post, rfl, hbase⟩ := mem_placed.mp hplaced
  rw [Nat.zero_add] at hbase
  simp only [Positive, List.forall_mem_append, List.forall_mem_cons] at hpos haligned
  obtain ⟨hpospre, hlen, hpospost⟩ := hpos
  obtain ⟨hpre, hpost⟩ := separated_middle.mp hsep
  rw [total_append, total_cons] at htop
  rw [placed_append, placed_cons_of_ne (by simp), Nat.zero_add] at hfree
  rw [placed_append, placed_cons_self, Nat.zero_add, ← hbase] at hlive
  dsimp only at hfree
  rw [← hbase] at hfree
  have hlive' : ((live.erase h).map CodeHandle.extent).Perm
      (placed true 0 pre ++ placed true (h.base + h.len) post) := by
    rw [List.map_erase extent_injective]
    have := (hlive.trans List.perm_middle).erase h.extent
    rwa [show h.extent = (h.base, h.len) from rfl, List.erase_cons_head] at this
  have hf : (Freed.mk h.base h.len c.free).Between pre post := ⟨hbase, hfree⟩
  unfold CodeCache.release
  dsimp only
  obtain ⟨pre', hf1, hused1, hend1, hcut1⟩ := hf.mergePrev hlen hpospre hpre
  have hpre' : total pre' ≤ total pre ∧ Positive pre' ∧ (∀ s ∈ pre', 16 ∣ s.len) ∧
      pre'.IsChain (fun s t => s.used = true ∨ t.used = true) ∧
      placed true 0 pre' = placed true 0 pre := by
    rcases hcut1 with rfl | ⟨n, rfl⟩
    · exact ⟨Nat.le_refl _, hpospre, haligned.1, hpre, rfl⟩
    · simp only [List.forall_mem_append] at hpospre haligned
      refine ⟨?_, hpospre.1, haligned.1.1, (List.isChain_append.mp hpre).1, ?_⟩
      · rw [total_append]
        exact Nat.le_add_right _ _
      · rw [placed_append, placed_cons_of_ne (by simp), placed, List.append_nil]
  obtain ⟨hle, hpos', haligned', hchain, hlivepre⟩ := hpre'
  generalize Freed.mergePrev ⟨h.base, h.len, c.free⟩ = f at hf1 hend1 ⊢
  dsimp only at hend1
  have hstart1 := hf1.start
  have hlen1 : 0 < f.len := by omega
  have hdvd1 : 16 ∣ f.len := by
    have h1 := dvd_total haligned'
    have h2 := dvd_total haligned.1
    have h3 := haligned.2.1
    omega
  obtain ⟨post', hf2, hused2, hcut2⟩ := hf1.mergeNext hlen1 hpos' hpospost hpost
  have hpost' : f.mergeNext.start + f.mergeNext.len + total post' = c.top ∧ Positive post' ∧
      (∀ s ∈ post', 16 ∣ s.len) ∧ Separated post' ∧ 16 ∣ f.mergeNext.len ∧ 0 < f.mergeNext.len ∧
      placed true (f.mergeNext.start + f.mergeNext.len) post' =
        placed true (h.base + h.len) post := by
    have hstart2 := hf2.start
    rcases hcut2 with ⟨heq, rfl⟩ | ⟨n, heq, rfl⟩
    · have hend : f.mergeNext.start + f.mergeNext.len = h.base + h.len := by omega
      rw [hend, heq]
      dsimp only at htop
      exact ⟨by omega, hpospost, haligned.2.2, hpost, hdvd1, hlen1, rfl⟩
    · have hend : f.mergeNext.start + f.mergeNext.len = h.base + h.len + n := by omega
      simp only [List.forall_mem_cons] at hpospost haligned
      rw [hend, heq, placed_cons_of_ne (by simp)]
      rw [total_cons] at htop
      dsimp only at htop
      exact ⟨by omega, hpospost.2, haligned.2.2.2, (separated_cons_hole.mp hpost).1,
        Nat.dvd_add hdvd1 haligned.2.2.1, by omega, rfl⟩
  obtain ⟨hend2, hpospost', halignedpost', hsep', hdvd2, hlen2, hlivepost⟩ := hpost'
  generalize f.mergeNext = g at hf2 hend2 hdvd2 hlen2 hlivepost ⊢
  have hstart2 := hf2.start
  have hperm : ((live.erase h).map CodeHandle.extent).Perm
      (placed true 0 pre' ++ placed true (g.start + g.len) post') := by
    rwa [hlivepre, hlivepost]
  by_cases hat : g.start + g.len = c.top
  · -- nothing is left behind the block
    rw [if_pos hat]
    have hnil : post' = [] := by
      cases post' with
      | nil => rfl
      | cons t post' =>
        have := hpospost' t List.mem_cons_self
        rw [total_cons] at hend2
        omega
    subst hnil
    rw [placed, List.append_nil] at hperm
    refine ⟨pre', hpos', haligned', separated_of_last hchain hused1, hstart2, ?_, ?_, hperm⟩
    · dsimp only
      omega
    · rw [hf2.holes, placed, List.append_nil]
  · rw [if_neg hat]
    have hinsert := OrderedMap.insert_append (k := g.start) (v := g.len)
      (A := placed false 0 pre') (B := placed false (g.start + g.len) post')
      (by rw [hstart2]; exact keys_before hpos') (keys_after (by omega))
    refine ⟨pre' ++ ⟨g.len, false⟩ :: post', ?_, ?_, ?_, ?_, hcap, ?_, ?_⟩
    · simp only [Positive, List.forall_mem_append, List.forall_mem_cons]
      exact ⟨hpos', hlen2, hpospost'⟩
    · simp only [List.forall_mem_append, List.forall_mem_cons]
      exact ⟨haligned', hdvd2, halignedpost'⟩
    · refine separated_append.mpr ⟨hchain, separated_cons_hole.mpr ⟨hsep', ?_⟩,
        fun s hs _ _ => .inl (hused1 s hs)⟩
      cases post' with
      | nil => exact absurd hend2 hat
      | cons t post' => exact hused2
    · rw [total_append, total_cons]
      dsimp only
      omega
    · rw [placed_append, placed_cons_self, Nat.zero_add, ← hstart2, ← hinsert, ← hf2.holes]
    · rw [placed_append, placed_cons_of_ne (by simp), Nat.zero_add, ← hstart2]
      exact hperm

theorem alloc_cap (halloc : c.alloc len = some (h, c')) : c'.cap = c.cap := by
  unfold CodeCache.alloc at halloc
  dsimp only at halloc
  cases hfind : c.free.find? fun e => decide (roundUp16 len ≤ e.2) with
  | some hole =>
    rw [hfind] at halloc
    dsimp only at halloc
    split at halloc <;> cases halloc <;> rfl
  | none =>
    rw [hfind] at halloc
    dsimp only at halloc
    split at halloc
    · cases halloc
    · cases halloc
      rfl

theorem release_cap (c : CodeCache) (h : CodeHandle) : (c.release h).cap = c.cap := by
  unfold CodeCache.release
  dsimp only
  split <;> rfl

theorem CodeRun.exists_layout {cap : Nat} (hrun : CodeRun cap c live) :
    c.cap = cap ∧ ∃ segs, Layout c live segs := by
  induction hrun with
  | new => exact ⟨rfl, [], new_layout cap⟩
  | alloc _ hlen halloc ih =>
    obtain ⟨hcap, segs, hl⟩ := ih
    exact ⟨(alloc_cap halloc).trans hcap, alloc_layout hl hlen halloc⟩
  | free _ hmem ih =>
    obtain ⟨hcap, segs, hl⟩ := ih
    exact ⟨(release_cap _ _).trans hcap, release_layout hl hmem⟩

/-- Only where nothing has room is a request refused. -/
theorem alloc_eq_none : c.alloc len = none ↔
    (∀ e ∈ c.free, e.2 < roundUp16 len) ∧ c.cap < c.top + roundUp16 len := by
  have hnone : (∀ e ∈ c.free, e.2 < roundUp16 len) ↔
      c.free.find? (fun e => decide (roundUp16 len ≤ e.2)) = none := by
    rw [List.find?_eq_none]
    simp
  rw [hnone]
  unfold CodeCache.alloc
  dsimp only
  cases hfind : c.free.find? fun e => decide (roundUp16 len ≤ e.2) with
  | some hole =>
    dsimp only
    split <;> simp
  | none =>
    dsimp only
    split <;> simp_all

/-- The blocks of a layout that are in use, one by one. -/
theorem Layout.block (hl : Layout c live segs) (hmem : h ∈ live) :
    ∃ pre post, segs = pre ++ ⟨h.len, true⟩ :: post ∧ h.base = total pre := by
  have hplaced : (h.base, h.len) ∈ placed true 0 segs :=
    hl.live.subset (List.mem_map_of_mem hmem)
  obtain ⟨pre, post, hsegs, hbase⟩ := mem_placed.mp hplaced
  exact ⟨pre, post, hsegs, by rw [hbase, Nat.zero_add]⟩

/-- After every run the blocks are aligned and apart, they and the holes tile the region up to
`top`, no two holes touch and none ends at `top`; a request is refused exactly if neither a hole
nor the tail has room for it. -/
theorem CodeRun.layout {cap : Nat} (hrun : CodeRun cap c live) :
    (∀ h ∈ live, 16 ∣ h.base ∧ 16 ∣ h.len) ∧
    live.Pairwise CodeHandle.Apart ∧
    (∃ blocks, blocks.Perm (live.map CodeHandle.extent ++ c.free) ∧ Tiled 0 c.top blocks) ∧
    c.top ≤ cap ∧
    (∀ e ∈ c.free, e.1 + e.2 ≠ c.top ∧ ∀ e' ∈ c.free, e.1 + e.2 ≠ e'.1) ∧
    ∀ len, 0 < len → (c.alloc len = none ↔
      (∀ e ∈ c.free, e.2 < roundUp16 len) ∧ cap < c.top + roundUp16 len) := by
  obtain ⟨hcap, segs, hl⟩ := hrun.exists_layout
  refine ⟨fun h hh => ?_, ?_, ⟨places 0 segs, ?_, ?_⟩, hcap ▸ hl.top_le, ?_, fun len _ => ?_⟩
  · obtain ⟨pre, post, rfl, hbase⟩ := hl.block hh
    refine ⟨?_, hl.aligned ⟨h.len, true⟩ (by simp)⟩
    rw [hbase]
    exact dvd_total fun s hs => hl.aligned s (List.mem_append_left _ hs)
  · have hblocks : (live.map CodeHandle.extent).Pairwise fun e e' =>
        e.1 + e.2 ≤ e'.1 ∨ e'.1 + e'.2 ≤ e.1 :=
      (hl.live.pairwise_iff fun h => h.symm).mpr (placed_pairwise.imp .inl)
    exact (List.pairwise_map.mp hblocks).imp id
  · rw [hl.free]
    exact places_perm.trans (hl.live.symm.append_right _)
  · have htiled := hl.positive.tiled (p := 0)
    rwa [Nat.zero_add, ← hl.top] at htiled
  · rintro ⟨a, n⟩ he
    rw [hl.free] at he
    have hhole := hl.separated.hole hl.positive he
    rw [Nat.zero_add, ← hl.top, ← hl.free] at hhole
    exact hhole
  · rw [alloc_eq_none, hcap]

/-- Two blocks, of which the first comes back: its hole is granted again as a whole. -/
theorem CodeRun.layout_reused : ∃ c live, CodeRun 4096 c live ∧ live.length = 2 ∧
    c.top ≤ 4096 ∧ ∀ len, 0 < len → (c.alloc len = none ↔
      (∀ e ∈ c.free, e.2 < roundUp16 len) ∧ 4096 < c.top + roundUp16 len) := by
  have h1 : CodeRun 4096 _ _ := .alloc .new (by decide : 0 < 60) rfl
  have h2 : CodeRun 4096 _ _ := .alloc h1 (by decide : 0 < 100) rfl
  have h3 : CodeRun 4096 _ _ := .free h2 (h := ⟨0, 64⟩) (by decide)
  have h4 : CodeRun 4096 _ _ := .alloc h3 (by decide : 0 < 40) rfl
  obtain ⟨-, -, -, htop, -, hroom⟩ := h4.layout
  exact ⟨_, _, h4, rfl, htop, hroom⟩

end

end WinVm.Codecache
