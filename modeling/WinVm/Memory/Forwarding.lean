import WinVm.Lib.Packing
import WinVm.Memory.Marking

/-!
# Forwarding and rewriting

Phases B and C of the full collection: each space is walked and the header of every marked
object becomes the oop of its place; then the slots of the marked objects are rewritten to the
places of their targets, while all objects are still where they were.

Results: `Forwards.forwardingCompute`, the plan of a space packs its marked objects;
`Forwards.rewriteAll`, every slot of a marked object names the place of its target.
-/

namespace WinVm.Memory

open WinVm.Lib

variable {u : Universe} {objs : Objects} {marked : List Nat} {mem : Mem} {side : SideMarks}

/-! ## Places -/

/-- The marked objects of a region. -/
def live (objs : Objects) (marked : List Nat) (r : Region) : List Nat :=
  (objs r).filter (· ∈ marked)

/-- The object at `a` is to be moved to `d`. -/
def Lands (u : Universe) (objs : Objects) (marked : List Nat) (a d : Nat) : Prop :=
  ∃ r, (a, d) ∈ packed (sizeAt u.mem) (u.start r) (live objs marked r)

def entryOf (size : Nat → Nat) (e : Nat × Nat) : CompactEntry := ⟨e.1, e.2, size e.1⟩

theorem mem_live {a : Nat} {r : Region} : a ∈ live objs marked r ↔ a ∈ objs r ∧ a ∈ marked := by
  unfold live
  rw [List.mem_filter, decide_eq_true_iff]

namespace WfHeap

variable (h : WfHeap u objs)
include h

theorem ascending_live (r : Region) :
    Ascending (sizeAt u.mem) (u.start r) (live objs marked r) :=
  (h.tiles r).ascending List.filter_sublist

theorem live_sum_le (r : Region) :
    u.start r + ((live objs marked r).map (sizeAt u.mem)).sum ≤ u.top r :=
  (h.tiles r).packed_sum_le List.filter_sublist

/-- A place lies in the region of its object. -/
theorem packed_in {r : Region} {a d : Nat}
    (hm : (a, d) ∈ packed (sizeAt u.mem) (u.start r) (live objs marked r)) :
    u.start r ≤ d ∧ d + sizeAt u.mem a ≤ u.top r ∧ d ≤ a := by
  have hb := packed_bounds hm
  have hle := @live_sum_le _ _ marked h r
  exact ⟨hb.1, hb.2.trans hle, (h.ascending_live r).packed_le hm⟩

theorem lands_of_marked {a : Nat} (ha : IsObject objs a) (hm : a ∈ marked) :
    ∃ d, Lands u objs marked a d := by
  obtain ⟨r, hr⟩ := ha
  obtain ⟨d, hd⟩ : ∃ d, (a, d) ∈ packed (sizeAt u.mem) (u.start r) (live objs marked r) :=
    exists_packed (mem_live.mpr ⟨hr, hm⟩)
  exact ⟨d, r, hd⟩

theorem lands_marked {a d : Nat} (hl : Lands u objs marked a d) : IsObject objs a ∧ a ∈ marked := by
  obtain ⟨r, hr⟩ := hl
  obtain ⟨h1, h2⟩ := mem_live.mp (mem_of_packed hr)
  exact ⟨⟨r, h1⟩, h2⟩

theorem lands_unique {a d d' : Nat} (hd : Lands u objs marked a d) (hd' : Lands u objs marked a d') :
    d = d' := by
  obtain ⟨r, hr⟩ := hd
  obtain ⟨s, hs⟩ := hd'
  have heq := h.region_unique (mem_live.mp (mem_of_packed hr)).1 (mem_live.mp (mem_of_packed hs)).1
  subst heq
  exact packed_unique ((h.tiles r).nodup.filter _) hr hs

/-- Two places do not overlap. -/
theorem lands_apart {a a' d d' : Nat} (hd : Lands u objs marked a d)
    (hd' : Lands u objs marked a' d') (hne : a ≠ a') :
    d + sizeAt u.mem a ≤ d' ∨ d' + sizeAt u.mem a' ≤ d := by
  obtain ⟨r, hr⟩ := hd
  obtain ⟨s, hs⟩ := hd'
  by_cases hrs : r = s
  · subst hrs
    exact packed_apart hr hs hne
  · have h1 := h.packed_in hr
    have h2 := h.packed_in hs
    have := h.top_apart r s hrs
    omega

end WfHeap

/-! ## Phase B -/

theorem SameBodies.update_header (h0 : WfHeap u objs) (h : SameBodies objs u.mem mem) {a v : Nat}
    (ha : IsObject objs a) : SameBodies objs u.mem (Function.update mem a v) := by
  intro b hb off h1 h2
  rw [Function.update_of_ne (h0.header_ne hb ha h1 h2)]
  exact h b hb off h1 h2

/-- What the walk over the objects `rest` does, with its places from `pointer` on. -/
structure ForwardedTo (u : Universe) (objs : Objects) (marked : List Nat) (pointer : Nat)
    (rest : List Nat) (mem : Mem) (side : SideMarks) (out : Forwarded) : Prop where
  plan : out.plan = (packed (sizeAt u.mem) pointer (rest.filter (· ∈ marked))).map
    (entryOf (sizeAt u.mem))
  newTop : out.newTop = pointer + ((rest.filter (· ∈ marked)).map (sizeAt u.mem)).sum
  bodies : SameBodies objs u.mem out.mem
  header : ∀ a d, (a, d) ∈ packed (sizeAt u.mem) pointer (rest.filter (· ∈ marked)) →
    out.mem a = oopAt d
  frame : ∀ x, ¬ (x ∈ rest ∧ x ∈ marked) → out.mem x = mem x
  parked : ∀ a d, (a, d) ∈ packed (sizeAt u.mem) pointer (rest.filter (· ∈ marked)) →
    out.side d = if Mark.HasState (mem a) then some (Mark.withGcMark (mem a) 0) else side d
  parkedFrame : ∀ y, y < pointer ∨ out.newTop ≤ y → out.side y = side y

/-- `forwarding_compute` over a stretch of objects whose headers are as phase A left them. -/
theorem forwardFrom_spec (h0 : WfHeap u objs) {top fuel addr : Nat} (pointer : Nat)
    {rest : List Nat} (side : SideMarks)
    (hsmall : ∀ a ∈ rest, a ∈ marked → sizeAt u.mem a ≤ maxEntryWords)
    (hbodies : SameBodies objs u.mem mem)
    (htiles : Tiles (sizeAt u.mem) addr top rest) (hobj : ∀ a ∈ rest, IsObject objs a)
    (hhead : ∀ a ∈ rest, mem a = markedMem u.mem marked a) (hfuel : top - addr < fuel) :
    ∃ out, forwardFrom top fuel addr pointer mem side = some out ∧
      ForwardedTo u objs marked pointer rest mem side out := by
  induction fuel generalizing addr pointer rest mem side with
  | zero => omega
  | succ fuel ih =>
    unfold forwardFrom
    cases htiles with
    | nil =>
      rw [if_neg (Nat.lt_irrefl _)]
      exact ⟨_, rfl, rfl, rfl, hbodies, fun a d hm => absurd hm List.not_mem_nil, fun _ _ => rfl,
        fun a d hm => absurd hm List.not_mem_nil, fun _ _ => rfl⟩
    | @cons _ _ rest hpos htiles =>
      have hle := htiles.le
      have ha := hobj addr List.mem_cons_self
      have hobj' : ∀ a ∈ rest, IsObject objs a := fun a hm => hobj a (List.mem_cons_of_mem _ hm)
      have hsmall' : ∀ a ∈ rest, a ∈ marked → sizeAt u.mem a ≤ maxEntryWords :=
        fun a hm => hsmall a (List.mem_cons_of_mem _ hm)
      have hgt : ∀ a ∈ rest, addr < a := fun a hm => by
        have := (htiles.bounds hm).1
        omega
      rw [if_pos (by omega), hbodies.instanceSizeWords h0.object ha]
      simp only [Option.bind_eq_bind, Option.bind_some]
      have hgc : Mark.gcMark (mem addr) = if addr ∈ marked then 1 else 0 := by
        rw [hhead addr List.mem_cons_self]
        exact h0.gcMark_marked ha
      by_cases hm : addr ∈ marked
      · rw [if_pos hm] at hgc
        have hns := hsmall addr List.mem_cons_self hm
        rw [if_pos hgc, if_neg (by omega)]
        obtain ⟨out, hcall, hout⟩ := ih (pointer + sizeAt u.mem addr)
          (if Mark.HasState (mem addr)
            then Function.update side pointer (some (Mark.withGcMark (mem addr) 0)) else side)
          hsmall' (hbodies.update_header h0 ha) htiles hobj'
          (fun a hma => by
            rw [Function.update_of_ne (hgt a hma).ne']
            exact hhead a (List.mem_cons_of_mem _ hma)) (by omega)
        rw [hcall]
        refine ⟨_, rfl, ?_⟩
        have hfilter : (addr :: rest).filter (· ∈ marked) = addr :: rest.filter (· ∈ marked) :=
          List.filter_cons_of_pos (decide_eq_true hm)
        refine ⟨?_, ?_, hout.bodies, ?_, ?_, ?_, ?_⟩
        · rw [hfilter, packed, List.map_cons]
          exact congrArg (_ :: ·) hout.plan
        · rw [hfilter, List.map_cons, List.sum_cons]
          have := hout.newTop
          change out.newTop = _
          omega
        · intro a d had
          rw [hfilter] at had
          rcases List.mem_cons.mp had with heq | had
          · cases heq
            change out.mem addr = _
            rw [hout.frame addr (fun hx => (hgt addr hx.1).ne rfl), Function.update_self]
          · exact hout.header a d had
        · intro x hx
          have hne : x ≠ addr := by
            rintro rfl
            exact hx ⟨List.mem_cons_self, hm⟩
          change out.mem x = mem x
          rw [hout.frame x (fun hin => hx ⟨List.mem_cons_of_mem _ hin.1, hin.2⟩),
            Function.update_of_ne hne]
        · intro a d had
          rw [hfilter] at had
          change out.side d = _
          rcases List.mem_cons.mp had with heq | had
          · cases heq
            rw [hout.parkedFrame _ (Or.inl (by omega))]
            split
            · exact Function.update_self ..
            · rfl
          · have hda := (packed_bounds had).1
            have hne : a ≠ addr := by
              rintro rfl
              exact (hgt a (List.mem_filter.mp (mem_of_packed had)).1).ne rfl
            rw [hout.parked a d had, Function.update_of_ne hne]
            have hside : (if Mark.HasState (mem addr) then
                Function.update side pointer (some (Mark.withGcMark (mem addr) 0)) else side) d =
                side d := by
              split
              · exact Function.update_of_ne (by omega) _ _
              · rfl
            rw [hside]
        · intro y hy
          change out.side y = _
          change y < pointer ∨ out.newTop ≤ y at hy
          have htop := hout.newTop
          rw [hout.parkedFrame y (by omega)]
          split
          · exact Function.update_of_ne (by omega) _ _
          · rfl
      · rw [if_neg hm] at hgc
        rw [if_neg (by omega)]
        obtain ⟨out, hcall, hout⟩ := ih pointer side hsmall' hbodies htiles hobj'
          (fun a hma => hhead a (List.mem_cons_of_mem _ hma)) (by omega)
        have hfilter : (addr :: rest).filter (· ∈ marked) = rest.filter (· ∈ marked) :=
          List.filter_cons_of_neg (by simpa using hm)
        refine ⟨out, hcall, ?_, ?_, hout.bodies, ?_, ?_, ?_, hout.parkedFrame⟩
        · rw [hfilter]
          exact hout.plan
        · rw [hfilter]
          exact hout.newTop
        · rw [hfilter]
          exact hout.header
        · intro x hx
          exact hout.frame x fun hin => hx ⟨List.mem_cons_of_mem _ hin.1, hin.2⟩
        · rw [hfilter]
          exact hout.parked

/-- An object too large for an entry stops the walk. -/
theorem forwardFrom_eq_none (h0 : WfHeap u objs) {top addr : Nat} (fuel pointer : Nat)
    (side : SideMarks) {rest : List Nat} (hbodies : SameBodies objs u.mem mem) (htiles : Tiles (sizeAt u.mem) addr top rest)
    (hobj : ∀ a ∈ rest, IsObject objs a) (hhead : ∀ a ∈ rest, mem a = markedMem u.mem marked a)
    (hlarge : ∃ a ∈ rest, a ∈ marked ∧ maxEntryWords < sizeAt u.mem a) :
    forwardFrom top fuel addr pointer mem side = none := by
  induction fuel generalizing addr pointer rest mem side with
  | zero => rfl
  | succ fuel ih =>
    unfold forwardFrom
    cases htiles with
    | nil =>
      obtain ⟨a, ha, -⟩ := hlarge
      cases ha
    | @cons _ _ rest hpos htiles =>
      have hle := htiles.le
      have ha := hobj addr List.mem_cons_self
      have hobj' : ∀ a ∈ rest, IsObject objs a := fun a hm => hobj a (List.mem_cons_of_mem _ hm)
      have hgt : ∀ a ∈ rest, addr < a := fun a hm => by
        have := (htiles.bounds hm).1
        omega
      rw [if_pos (by omega), hbodies.instanceSizeWords h0.object ha]
      simp only [Option.bind_eq_bind, Option.bind_some]
      have hgc : Mark.gcMark (mem addr) = if addr ∈ marked then 1 else 0 := by
        rw [hhead addr List.mem_cons_self]
        exact h0.gcMark_marked ha
      obtain ⟨a, hm, hma, hsize⟩ := hlarge
      by_cases hmark : addr ∈ marked
      · rw [if_pos hmark] at hgc
        rw [if_pos hgc]
        by_cases hbig : maxEntryWords < sizeAt u.mem addr
        · rw [if_pos hbig]
        · rw [if_neg hbig]
          have hrest : a ∈ rest := (List.mem_cons.mp hm).resolve_left fun heq => hbig (heq ▸ hsize)
          rw [ih _ _ (hbodies.update_header h0 ha) htiles hobj'
            (fun b hb => by
              rw [Function.update_of_ne (hgt b hb).ne']
              exact hhead b (List.mem_cons_of_mem _ hb)) ⟨a, hrest, hma, hsize⟩]
          rfl
      · rw [if_neg hmark] at hgc
        rw [if_neg (by omega)]
        have hrest : a ∈ rest := (List.mem_cons.mp hm).resolve_left fun heq => hmark (heq ▸ hma)
        exact ih _ _ hbodies htiles hobj' (fun b hb => hhead b (List.mem_cons_of_mem _ hb))
          ⟨a, hrest, hma, hsize⟩

/-- The state between phases B and C: every marked object's header names its place. -/
structure Forwards (u : Universe) (objs : Objects) (marked : List Nat) (mem : Mem)
    (side : SideMarks) : Prop where
  bodies : SameBodies objs u.mem mem
  header : ∀ a d, Lands u objs marked a d → mem a = oopAt d
  parked : ∀ a d, Lands u objs marked a d → side d =
    if Mark.HasState (markedMem u.mem marked a)
    then some (Mark.withGcMark (markedMem u.mem marked a) 0) else none

/-- The plan of a region. -/
def planOf (u : Universe) (objs : Objects) (marked : List Nat) (r : Region) : CompactPlan :=
  (packed (sizeAt u.mem) (u.start r) (live objs marked r)).map (entryOf (sizeAt u.mem))

def newTopOf (u : Universe) (objs : Objects) (marked : List Nat) (r : Region) : Nat :=
  u.start r + ((live objs marked r).map (sizeAt u.mem)).sum

/-- The walk over one region. -/
theorem forwardingCompute_spec (h0 : WfHeap u objs) (r : Region) (side : SideMarks)
    (hsmall : ∀ a ∈ objs r, a ∈ marked → sizeAt u.mem a ≤ maxEntryWords) (hbodies : SameBodies objs u.mem mem)
    (hhead : ∀ a ∈ objs r, mem a = markedMem u.mem marked a) :
    ∃ out, forwardingCompute (u.start r) (u.top r) mem side = some out ∧
      ForwardedTo u objs marked (u.start r) (objs r) mem side out :=
  forwardFrom_spec h0 (u.start r) side hsmall hbodies (h0.tiles r) (fun a ha => ⟨r, ha⟩) hhead
    (Nat.lt_succ_self _)

theorem forwardingCompute_small (h0 : WfHeap u objs) (r : Region) {out : Forwarded}
    (hbodies : SameBodies objs u.mem mem)
    (hhead : ∀ a ∈ objs r, mem a = markedMem u.mem marked a)
    (hcall : forwardingCompute (u.start r) (u.top r) mem side = some out) :
    ∀ a ∈ objs r, a ∈ marked → sizeAt u.mem a ≤ maxEntryWords := by
  intro a ha hm
  by_contra hsize
  have hnone := forwardFrom_eq_none h0 (u.top r - u.start r + 1) (u.start r) side hbodies (h0.tiles r) (fun a ha => ⟨r, ha⟩) hhead
    ⟨a, ha, hm, Nat.lt_of_not_le hsize⟩
  unfold forwardingCompute at hcall
  rw [hnone] at hcall
  cases hcall

/-- If the walks over the three spaces end, every marked object fits its entry. -/
theorem forwards_small (h0 : WfHeap u objs) (hsub : ∀ a ∈ marked, IsObject objs a)
    (hmem : mem = markedMem u.mem marked) {eden survivors olds : Forwarded}
    (h1 : forwardingCompute u.eden.start u.eden.top mem (fun _ => none) = some eden)
    (h2 : forwardingCompute u.fromSpace.start u.fromSpace.top eden.mem eden.side = some survivors)
    (h3 : forwardingCompute u.old.start u.old.top survivors.mem survivors.side = some olds) :
    ∀ a ∈ marked, sizeAt u.mem a ≤ maxEntryWords := by
  have hother : ∀ {r s : Region} {a : Nat}, r ≠ s → a ∈ objs r → ¬ (a ∈ objs s ∧ a ∈ marked) :=
    fun hrs hr hs => hrs (h0.region_unique hr hs.1)
  have hbodies : SameBodies objs u.mem mem := hmem ▸ h0.sameBodies_marked hsub
  have hhead1 : ∀ a ∈ objs .eden, mem a = markedMem u.mem marked a := fun a _ => congrFun hmem a
  have hs1 := forwardingCompute_small h0 .eden hbodies hhead1 h1
  obtain ⟨out1, hcall1, hb1⟩ := forwardingCompute_spec h0 .eden (fun _ => none) hs1 hbodies hhead1
  obtain rfl : out1 = eden := Option.some.inj (hcall1.symm.trans h1)
  have hhead2 : ∀ a ∈ objs .fromSpace, out1.mem a = markedMem u.mem marked a := fun a ha =>
    (hb1.frame a (hother (by decide) ha)).trans (congrFun hmem a)
  have hs2 := forwardingCompute_small h0 .fromSpace hb1.bodies hhead2 h2
  obtain ⟨out2, hcall2, hb2⟩ := forwardingCompute_spec h0 .fromSpace out1.side hs2 hb1.bodies hhead2
  obtain rfl : out2 = survivors := Option.some.inj (hcall2.symm.trans h2)
  have hhead3 : ∀ a ∈ objs .old, out2.mem a = markedMem u.mem marked a := fun a ha =>
    (hb2.frame a (hother (by decide) ha)).trans
      ((hb1.frame a (hother (by decide) ha)).trans (congrFun hmem a))
  have hs3 := forwardingCompute_small h0 .old hb2.bodies hhead3 h3
  intro a hm
  obtain ⟨r, ha⟩ := hsub a hm
  cases r with
  | eden => exact hs1 a ha hm
  | fromSpace => exact hs2 a ha hm
  | toSpace =>
    rw [h0.toEmpty] at ha
    cases ha
  | old => exact hs3 a ha hm

/-- Phase B as a whole. -/
theorem forwards (h0 : WfHeap u objs) (hsub : ∀ a ∈ marked, IsObject objs a)
    (hsmall : ∀ a ∈ marked, sizeAt u.mem a ≤ maxEntryWords)
    (hmem : mem = markedMem u.mem marked) :
    ∃ eden survivors olds,
      forwardingCompute u.eden.start u.eden.top mem (fun _ => none) = some eden ∧
      forwardingCompute u.fromSpace.start u.fromSpace.top eden.mem eden.side = some survivors ∧
      forwardingCompute u.old.start u.old.top survivors.mem survivors.side = some olds ∧
      eden.plan = planOf u objs marked .eden ∧ eden.newTop = newTopOf u objs marked .eden ∧
      survivors.plan = planOf u objs marked .fromSpace ∧
      survivors.newTop = newTopOf u objs marked .fromSpace ∧
      olds.plan = planOf u objs marked .old ∧ olds.newTop = newTopOf u objs marked .old ∧
      Forwards u objs marked olds.mem olds.side := by
  have hother : ∀ {r s : Region} {a : Nat}, r ≠ s → a ∈ objs r → ¬ (a ∈ objs s ∧ a ∈ marked) :=
    fun hrs hr hs => hrs (h0.region_unique hr hs.1)
  have hnot : ∀ {r s : Region} {a d : Nat} (out : Forwarded), r ≠ s →
      out.newTop = newTopOf u objs marked s →
      (a, d) ∈ packed (sizeAt u.mem) (u.start r) (live objs marked r) →
      d < u.start s ∨ out.newTop ≤ d := by
    intro r s a d out hrs htop hd
    have hin := h0.packed_in hd
    have hpos := (h0.object a ⟨r, (mem_live.mp (mem_of_packed hd)).1⟩).two_le_sizeAt
    have hle := @WfHeap.live_sum_le _ _ marked h0 s
    have := h0.top_apart r s hrs
    unfold newTopOf at htop
    omega
  obtain ⟨eden, h1, hb1⟩ := forwardingCompute_spec h0 .eden (fun _ => none) (fun a _ => hsmall a)
    (hmem ▸ h0.sameBodies_marked hsub) (fun a _ => congrFun hmem a)
  obtain ⟨survivors, h2, hb2⟩ := forwardingCompute_spec h0 .fromSpace eden.side (fun a _ => hsmall a)
    hb1.bodies fun a ha => (hb1.frame a (hother (by decide) ha)).trans (congrFun hmem a)
  obtain ⟨olds, h3, hb3⟩ := forwardingCompute_spec h0 .old survivors.side (fun a _ => hsmall a)
    hb2.bodies fun a ha => (hb2.frame a (hother (by decide) ha)).trans
      ((hb1.frame a (hother (by decide) ha)).trans (congrFun hmem a))
  refine ⟨eden, survivors, olds, h1, h2, h3, hb1.plan, hb1.newTop, hb2.plan, hb2.newTop, hb3.plan,
    hb3.newTop, hb3.bodies, ?_, ?_⟩
  · rintro a d ⟨r, hr⟩
    have ha := (mem_live.mp (mem_of_packed hr)).1
    cases r with
    | eden =>
      rw [hb3.frame a (hother (by decide) ha), hb2.frame a (hother (by decide) ha)]
      exact hb1.header a d hr
    | fromSpace =>
      rw [hb3.frame a (hother (by decide) ha)]
      exact hb2.header a d hr
    | toSpace =>
      rw [h0.toEmpty] at ha
      cases ha
    | old => exact hb3.header a d hr
  · rintro a d ⟨r, hr⟩
    have ha := (mem_live.mp (mem_of_packed hr)).1
    cases r with
    | eden =>
      rw [hb3.parkedFrame d (hnot olds (by decide) hb3.newTop hr),
        hb2.parkedFrame d (hnot survivors (by decide) hb2.newTop hr), hb1.parked a d hr, hmem]
    | fromSpace =>
      rw [hb3.parkedFrame d (hnot olds (by decide) hb3.newTop hr), hb2.parked a d hr,
        hb1.frame a (hother (by decide) ha),
        hb1.parkedFrame d (hnot eden (by decide) hb1.newTop hr), hmem]
    | toSpace =>
      rw [h0.toEmpty] at ha
      cases ha
    | old =>
      rw [hb3.parked a d hr, hb2.frame a (hother (by decide) ha),
        hb1.frame a (hother (by decide) ha),
        hb2.parkedFrame d (hnot survivors (by decide) hb2.newTop hr),
        hb1.parkedFrame d (hnot eden (by decide) hb1.newTop hr), hmem]

/-! ## Phase C -/

/-- Some marked objects have been rewritten, everything else is as phase B left it. -/
structure Rewritten (u : Universe) (objs : Objects) (marked : List Nat) (memB : Mem)
    (done : List Nat) (mem : Mem) : Prop where
  header : ∀ a, IsObject objs a → mem a = memB a
  slots : ∀ a ∈ done, ∀ off ∈ slotsAt u.mem a,
    WordSim (Lands u objs marked) (u.mem (a + off)) (mem (a + off))
  raw : ∀ a, IsObject objs a → ∀ off, 1 ≤ off → off < sizeAt u.mem a →
    a ∉ done ∨ off ∉ slotsAt u.mem a → mem (a + off) = u.mem (a + off)

theorem Forwards.rewritten {memB : Mem} (h : Forwards u objs marked memB side) :
    Rewritten u objs marked memB [] memB :=
  ⟨fun _ _ => rfl, fun _ hm => absurd hm List.not_mem_nil, fun a ha off h1 h2 _ => h.bodies a ha off h1 h2⟩

/-- The visitor of phase C. -/
def chaseVisit (mem : Mem) (w : Nat) : Option (Mem × Nat) := some (mem, forwardChase mem w)

namespace Rewritten

variable {memB : Mem} {done : List Nat}
variable (h0 : WfHeap u objs) (hB : Forwards u objs marked memB side)
variable (hclosed : ∀ a ∈ marked, ∀ off ∈ slotsAt u.mem a, ∀ t, u.mem (a + off) = oopAt t →
  t ∈ marked)

include h0 hB in
/-- Chasing reads headers only, and those of marked objects name their places. -/
theorem forwardChase (hhead : ∀ a, IsObject objs a → mem a = memB a) {w : Nat}
    (hw : WfWord (IsObject objs) w) (hm : ∀ t, w = oopAt t → t ∈ marked) :
    WordSim (Lands u objs marked) w (forwardChase mem w) := by
  unfold Memory.forwardChase
  rcases hw with hs | ⟨t, rfl, ht⟩
  · have hn := not_isMem_of_isSmi hs
    rw [if_neg fun h => hn h.1]
    exact .same hn
  · obtain ⟨d, hd⟩ := h0.lands_of_marked ht (hm t rfl)
    rw [memAddr_oopAt, hhead t ht, hB.header t d hd, if_pos ⟨isMem_oopAt t, isMem_oopAt d⟩]
    exact .oop hd

include h0 in
/-- A word that holds a smi still holds it. -/
theorem smi (h : Rewritten u objs marked memB done mem) {a off : Nat} (ha : IsObject objs a)
    (h1 : 1 ≤ off) (h2 : off < sizeAt u.mem a) (hs : IsSmi (u.mem (a + off))) :
    mem (a + off) = u.mem (a + off) := by
  by_cases hd : a ∈ done
  · by_cases hoff : off ∈ slotsAt u.mem a
    · exact (h.slots a hd off hoff).eq_of_not_isMem (not_isMem_of_isSmi hs)
    · exact h.raw a ha off h1 h2 (Or.inr hoff)
  · exact h.raw a ha off h1 h2 (Or.inl hd)

include h0 in
/-- The shape of an object that is still to be rewritten, read off its klass in place. -/
theorem shape (h : Rewritten u objs marked memB done mem) {a : Nat} (ha : IsObject objs a)
    {f : Format} (hf : formatAt u.mem (klassAt u.mem a) = some f) :
    nonIndexableSize mem (klassAt u.mem a) = some (nisAt u.mem (klassAt u.mem a)) ∧
      formatAt mem (klassAt u.mem a) = some f := by
  have hobj := h0.object a ha
  have hsize := klass_size_ge hobj.klass
  unfold klassSizeWords at hsize
  constructor
  · rw [← hobj.klass.nonIndexableSize]
    unfold nonIndexableSize
    rw [h.smi h0 hobj.klassObj (by omega) (by omega) hobj.klass.nisSmi]
  · rw [← hf]
    unfold formatAt
    rw [h.smi h0 hobj.klassObj (by omega) (by omega) (isSmi_of_formatAt hf)]

include h0 hB hclosed in
/-- Slots of an object are chased one by one. -/
theorem visitSlots {a : Nat} (ha : IsObject objs a) (hm : a ∈ marked) (offs : List Nat)
    (hhead : ∀ b, IsObject objs b → mem b = memB b)
    (hsub : ∀ off ∈ offs, off ∈ slotsAt u.mem a) (hnodup : offs.Nodup)
    (hfresh : ∀ off ∈ offs, mem (a + off) = u.mem (a + off)) :
    ∃ mem', Memory.visitSlots id Function.update chaseVisit mem (offs.map (a + ·)) = some mem' ∧
      (∀ off ∈ offs, WordSim (Lands u objs marked) (u.mem (a + off)) (mem' (a + off))) ∧
      ∀ x, (∀ off ∈ offs, x ≠ a + off) → mem' x = mem x := by
  induction offs generalizing mem with
  | nil => exact ⟨mem, rfl, fun _ ho => absurd ho List.not_mem_nil, fun _ _ => rfl⟩
  | cons off offs ih =>
    obtain ⟨hoff, hnodup⟩ := List.nodup_cons.mp hnodup
    have hobj := h0.object a ha
    obtain ⟨h1, h2⟩ := hobj.slot_bounds (hsub off List.mem_cons_self)
    have hne : ∀ o ∈ offs, a + o ≠ a + off := by
      intro o ho heq
      exact hoff (Nat.add_left_cancel heq ▸ ho)
    have hhead' : ∀ b, IsObject objs b →
        Function.update mem (a + off) (Memory.forwardChase mem (mem (a + off))) b = memB b := by
      intro b hb
      rw [Function.update_of_ne (h0.header_ne ha hb h1 h2).symm]
      exact hhead b hb
    obtain ⟨mem', hcall, hslots, hframe⟩ := ih hhead'
      (fun o ho => hsub o (List.mem_cons_of_mem _ ho)) hnodup
      (fun o ho => by
        rw [Function.update_of_ne (hne o ho)]
        exact hfresh o (List.mem_cons_of_mem _ ho))
    refine ⟨mem', ?_, ?_, ?_⟩
    · rw [List.map_cons, visitSlots_cons]
      exact hcall
    · intro o ho
      rcases List.mem_cons.mp ho with rfl | ho
      · rw [hframe _ fun o' ho' => (hne o' ho').symm, Function.update_self,
          hfresh o List.mem_cons_self]
        exact forwardChase h0 hB hhead (hobj.slots o (hsub o List.mem_cons_self))
          (hclosed a hm o (hsub o List.mem_cons_self))
      · exact hslots o ho
    · intro x hx
      rw [hframe x fun o ho => hx o (List.mem_cons_of_mem _ ho),
        Function.update_of_ne (hx off List.mem_cons_self)]

include h0 hB hclosed in
/-- One more object is rewritten. -/
theorem rewriteEntry (h : Rewritten u objs marked memB done mem)
    (hdone : ∀ a ∈ done, IsObject objs a) {a d n : Nat} (ha : IsObject objs a) (hm : a ∈ marked) (hd : a ∉ done) :
    ∃ mem', rewriteEntry mem ⟨a, d, n⟩ = some mem' ∧
      Rewritten u objs marked memB (a :: done) mem' := by
  have hobj := h0.object a ha
  have hfresh : ∀ off, 1 ≤ off → off < sizeAt u.mem a → mem (a + off) = u.mem (a + off) :=
    fun off h1 h2 => h.raw a ha off h1 h2 (Or.inl hd)
  obtain ⟨f, hf⟩ := hobj.klass.format
  have hslots : slotsAt u.mem a = 1 :: (f.namedOffsets (nisAt u.mem (klassAt u.mem a)) ++
      f.tailOffsets (nisAt u.mem (klassAt u.mem a)) (lenAt u.mem a)) := by
    unfold slotsAt
    rw [hf]
  have hnodup := hobj.slotsAt_nodup
  rw [hslots] at hnodup
  obtain ⟨hone, hnodup⟩ := List.nodup_cons.mp hnodup
  obtain ⟨hn1, hn2, hdisj⟩ := List.nodup_append.mp hnodup
  have hsub1 : ∀ off ∈ f.namedOffsets (nisAt u.mem (klassAt u.mem a)), off ∈ slotsAt u.mem a :=
    fun off ho => hslots ▸ List.mem_cons_of_mem _ (List.mem_append_left _ ho)
  have hsub2 : ∀ off ∈ f.tailOffsets (nisAt u.mem (klassAt u.mem a)) (lenAt u.mem a),
      off ∈ slotsAt u.mem a :=
    fun off ho => hslots ▸ List.mem_cons_of_mem _ (List.mem_append_right _ ho)
  have hbound : ∀ off ∈ slotsAt u.mem a, 1 ≤ off ∧ off < sizeAt u.mem a :=
    fun off ho => hobj.slot_bounds ho
  obtain ⟨mem1, hcall1, hs1, hf1⟩ := visitSlots h0 hB hclosed ha hm _ h.header hsub1 hn1
    fun off ho => hfresh off (hbound off (hsub1 off ho)).1 (hbound off (hsub1 off ho)).2
  have hhead1 : ∀ b, IsObject objs b → mem1 b = memB b := by
    intro b hb
    rw [hf1 b fun off ho =>
      (h0.header_ne ha hb (hbound off (hsub1 off ho)).1 (hbound off (hsub1 off ho)).2).symm]
    exact h.header b hb
  obtain ⟨mem2, hcall2, hs2, hf2⟩ := visitSlots h0 hB hclosed ha hm _ hhead1 hsub2 hn2
    fun off ho => by
      rw [hf1 _ fun o ho' heq => hdisj o ho' off ho (Nat.add_left_cancel heq).symm]
      exact hfresh off (hbound off (hsub2 off ho)).1 (hbound off (hsub2 off ho)).2
  have hk : mem (a + 1) = u.mem (a + 1) := hfresh 1 (Nat.le_refl 1) hobj.two_le_sizeAt
  have hhead2 : ∀ b, IsObject objs b → mem2 b = memB b := by
    intro b hb
    rw [hf2 b fun off ho =>
      (h0.header_ne ha hb (hbound off (hsub2 off ho)).1 (hbound off (hsub2 off ho)).2).symm]
    exact hhead1 b hb
  have hkeep : ∀ x, (∀ off ∈ slotsAt u.mem a, x ≠ a + off) → mem2 x = mem x := by
    intro x hx
    rw [hf2 x fun off ho => hx off (hsub2 off ho), hf1 x fun off ho => hx off (hsub1 off ho)]
  obtain ⟨hnis', hfmt'⟩ := h.shape h0 ha hf
  refine ⟨Function.update mem2 (a + 1) (Memory.forwardChase mem2 (mem (a + 1))), ?_, ?_, ?_, ?_⟩
  · have hword : mem (a + 1) = oopAt (klassAt u.mem a) := hk.trans hobj.klassWord
    have hlen : f.hasSizeSlot = true →
        rawSizeSlot (id mem1) a (nisAt u.mem (klassAt u.mem a)) = some (lenAt u.mem a) := by
      intro hs
      have hlt := hobj.nisAt_lt_sizeAt hf hs
      have hge := hobj.klass.nis_ge
      unfold rawSizeSlot
      change (if IsSmi (mem1 _) then some (smiValue (mem1 _)) else none) = _
      have hkept : mem1 (a + nisAt u.mem (klassAt u.mem a)) =
          u.mem (a + nisAt u.mem (klassAt u.mem a)) := by
        rw [hf1 _ fun o ho heq => by
          have := (Format.mem_namedOffsets ho).2
          omega]
        exact hfresh _ (by omega) hlt
      rw [hkept, if_pos (hobj.lenSmi f hf hs)]
      rfl
    unfold Memory.rewriteEntry
    change (forEachOopField id Function.update chaseVisit mem a (memAddr (mem (a + 1)))).bind _ = _
    rw [hword, memAddr_oopAt, forEachOopField_eq hnis' hfmt' hcall1 hlen, hcall2]
    rfl
  · intro b hb
    rw [Function.update_of_ne (h0.header_ne ha hb (Nat.le_refl 1) hobj.two_le_sizeAt).symm]
    exact hhead2 b hb
  · intro b hb off hoff
    rcases List.mem_cons.mp hb with rfl | hb
    · rw [hslots] at hoff
      rcases List.mem_cons.mp hoff with rfl | hoff
      · rw [Function.update_self, hk]
        exact forwardChase h0 hB hhead2 (hobj.slots 1 hobj.one_mem_slotsAt)
          (hclosed b hm 1 hobj.one_mem_slotsAt)
      · have hne : b + off ≠ b + 1 := fun heq => hone (Nat.add_left_cancel heq ▸ hoff)
        rw [Function.update_of_ne hne]
        rcases List.mem_append.mp hoff with hoff | hoff
        · rw [hf2 _ fun o ho heq => hdisj off hoff o ho (Nat.add_left_cancel heq)]
          exact hs1 off hoff
        · exact hs2 off hoff
    · -- an object that was rewritten before is not touched
      have hne : a ≠ b := fun heq => hd (heq ▸ hb)
      obtain ⟨hb1, hb2⟩ := (h0.object b (hdone b hb)).slot_bounds hoff
      rw [Function.update_of_ne (h0.words_ne (hdone b hb) ha hne.symm hb2 hobj.two_le_sizeAt),
        hkeep _ fun o ho => h0.words_ne (hdone b hb) ha hne.symm hb2 (hbound o ho).2]
      exact h.slots b hb off hoff
  · intro b hb off h1 h2 hor
    by_cases hba : b = a
    · subst hba
      have hoff : off ∉ slotsAt u.mem b := hor.resolve_left fun hn => hn List.mem_cons_self
      rw [Function.update_of_ne fun heq => hoff (by
          rw [Nat.add_left_cancel heq]
          exact hobj.one_mem_slotsAt),
        hkeep _ fun o ho heq => hoff (by
          rw [Nat.add_left_cancel heq]
          exact ho)]
      exact hfresh off h1 h2
    · rw [Function.update_of_ne (h0.words_ne hb ha hba h2 hobj.two_le_sizeAt),
        hkeep _ fun o ho => h0.words_ne hb ha hba h2 (hbound o ho).2]
      exact h.raw b hb off h1 h2 (hor.imp_left fun hn hm => hn (List.mem_cons_of_mem _ hm))

include h0 hB hclosed in
/-- All marked objects are rewritten, whatever the order of the entries. -/
theorem rewriteAll (h : Rewritten u objs marked memB done mem) (hdone : ∀ a ∈ done, IsObject objs a)
    {plan : CompactPlan} (hplan : ∀ e ∈ plan, IsObject objs e.old ∧ e.old ∈ marked ∧ e.old ∉ done)
    (hnodup : (plan.map CompactEntry.old).Nodup) :
    ∃ mem' done', plan.foldlM Memory.rewriteEntry mem = some mem' ∧
      Rewritten u objs marked memB done' mem' ∧
      ∀ a, a ∈ done' ↔ a ∈ done ∨ a ∈ plan.map CompactEntry.old := by
  induction plan generalizing mem done with
  | nil => exact ⟨mem, done, rfl, h, fun a => by simp⟩
  | cons e plan ih =>
    obtain ⟨he, hnodup⟩ := List.nodup_cons.mp hnodup
    obtain ⟨hobj, hm, hnd⟩ := hplan e List.mem_cons_self
    obtain ⟨mem1, hcall1, h1⟩ := h.rewriteEntry h0 hB hclosed hdone (d := e.new)
      (n := e.sizeWords) hobj hm hnd
    obtain ⟨mem2, done2, hcall2, h2, hiff⟩ := ih h1
      (fun a ha => (List.mem_cons.mp ha).elim (fun heq => heq ▸ hobj) (hdone a))
      (fun e' he' => ⟨(hplan e' (List.mem_cons_of_mem _ he')).1,
        (hplan e' (List.mem_cons_of_mem _ he')).2.1, fun hmem => by
          rcases List.mem_cons.mp hmem with heq | hmem
          · exact he (heq ▸ List.mem_map_of_mem he')
          · exact (hplan e' (List.mem_cons_of_mem _ he')).2.2 hmem⟩) hnodup
    refine ⟨mem2, done2, ?_, h2, fun a => ?_⟩
    · rw [List.foldlM_cons]
      change (Memory.rewriteEntry mem ⟨e.old, e.new, e.sizeWords⟩).bind _ = _
      rw [hcall1]
      exact hcall2
    · rw [hiff, List.mem_cons, List.map_cons, List.mem_cons]
      tauto

end Rewritten

end WinVm.Memory
