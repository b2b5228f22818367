import WinVm.Compiler.OopMaps

/-!
# Frame locations

`resolve_frame_loc` of `compiler/scopes.rs`: where a vreg lies in the frame when it is
suspended at a position, and the copy plan of an on-stack replacement that `compiler/driver.rs`
makes with it. The plan may lengthen intervals after register allocation, and what is emitted
for the frame afterwards (maps and scope descriptions) sees the longer ones.

`DeoptNotes` is the data of the intermediate form that only these two readers look at.

Results:

* `resolveFrameLoc_eq_frameSlot_iff`: the one way a vreg resolves to a slot;
* `osrPlan_spec`: a plan moves no interval to another place, only ends.
-/

namespace WinVm.Compiler

open WinVm.Compiler.Scopes

/-! ## Offsets -/

/-- The frame offset of a spill slot, `-8 * (slot as i32 + 1)`. -/
def slotOff (slot : Nat) : BitVec 32 := -8#32 * (BitVec.ofNat 32 slot + 1#32)

/-- `(-off / 8 - 1) as u16`. -/
def slotOfOff (off : BitVec 32) : Nat := ((-off).sdiv 8#32 - 1#32).toNat % 65536

theorem slotOff_injective {s t : Nat} (hs : s < 65536) (ht : t < 65536)
    (h : slotOff s = slotOff t) : s = t := by
  unfold slotOff at h
  rw [BitVec.neg_mul, BitVec.neg_mul, BitVec.neg_inj] at h
  have key := congrArg BitVec.toNat h
  simp only [BitVec.toNat_mul, BitVec.toNat_add, BitVec.toNat_ofNat] at key
  omega

/-- `resolve_frame_loc`: the first spilled interval of the vreg that starts at or before the
position and ends after it, or any spilled one when the pair is an exact fact. -/
def resolveFrameLoc (v : VReg) (pos : Nat) (extraOopLive : List (VReg × Nat)) :
    List LiveInterval → ValueLoc
  | [] => .nil
  | iv :: rest =>
    if iv.vreg = v ∧ ((iv.start ≤ pos ∧ pos < iv.stop) ∨ (v, pos) ∈ extraOopLive) then
      match iv.assignment with
      | some (.spill slot) =>
        if iv.isFp then .doubleSlot (slotOff slot) else .frameSlot (slotOff slot)
      | _ => resolveFrameLoc v pos extraOopLive rest
    else resolveFrameLoc v pos extraOopLive rest

section Resolve

variable {v : VReg} {p : Nat} {extra : List (VReg × Nat)}

theorem resolveFrameLoc_of_absent {ivs : List LiveInterval}
    (absent : v ∉ ivs.map LiveInterval.vreg) : resolveFrameLoc v p extra ivs = .nil := by
  induction ivs with
  | nil => rfl
  | cons iv rest ih =>
    rw [List.map_cons, List.mem_cons, not_or] at absent
    exact (if_neg fun h => absent.1 h.1.symm).trans (ih absent.2)

/-- A vreg with one interval resolves to a slot when that interval is spilled there, is not a
float's, and reaches past the position or has an exact fact at it. -/
theorem resolveFrameLoc_eq_frameSlot_iff {ivs : List LiveInterval}
    (nodup : (ivs.map LiveInterval.vreg).Nodup) {off : BitVec 32} :
    resolveFrameLoc v p extra ivs = .frameSlot off ↔
      ∃ iv ∈ ivs, iv.vreg = v ∧ iv.isFp = false ∧
        (∃ s, iv.assignment = some (.spill s) ∧ slotOff s = off) ∧
        ((iv.start ≤ p ∧ p < iv.stop) ∨ (v, p) ∈ extra) := by
  induction ivs with
  | nil =>
    show ValueLoc.nil = .frameSlot off ↔ _
    simp
  | cons iv rest ih =>
    obtain ⟨fresh, nodup⟩ := List.nodup_cons.mp nodup
    have ih := ih nodup
    -- past an interval of `v` there is no other one
    have none_left : iv.vreg = v → resolveFrameLoc v p extra rest = .nil := by
      rintro rfl
      exact resolveFrameLoc_of_absent fresh
    have elsewhere : iv.vreg = v → ∀ iv' ∈ rest, iv'.vreg ≠ v := by
      rintro rfl iv' hiv' heq
      exact fresh (List.mem_map.mpr ⟨iv', hiv', heq⟩)
    simp only [List.mem_cons, exists_eq_or_imp]
    show ite (iv.vreg = v ∧ ((iv.start ≤ p ∧ p < iv.stop) ∨ (v, p) ∈ extra)) _ _ = _ ↔ _
    split
    · rename_i hit
      have only : ¬ ∃ iv' ∈ rest, iv'.vreg = v ∧ iv'.isFp = false ∧
          (∃ s, iv'.assignment = some (.spill s) ∧ slotOff s = off) ∧
          ((iv'.start ≤ p ∧ p < iv'.stop) ∨ (v, p) ∈ extra) := by
        rintro ⟨iv', hiv', heq, -⟩
        exact elsewhere hit.1 iv' hiv' heq
      cases hplace : iv.assignment with
      | none =>
        rw [none_left hit.1]
        simp [only]
      | some a =>
        cases a with
        | reg r =>
          rw [none_left hit.1]
          simp [only]
        | spill slot =>
          simp only [only, or_false, Option.some_inj, Assignment.spill.injEq, exists_eq_left']
          cases iv.isFp with
          | true => simp
          | false => simp [hit.1, hit.2]
    · rename_i miss
      rw [ih]
      refine ⟨Or.inr, ?_⟩
      rintro (⟨heq, -, -, hlive⟩ | hrest)
      · exact absurd ⟨heq, hlive⟩ miss
      · exact hrest

end Resolve

/-! ## What liveness leaves out -/

/-- The rest of one inlined level: its method, whether it is a block, where its caller resumes,
and the slots that hold a closure which was never built. -/
structure LevelNote where
  methodPoolIx : BitVec 32
  isBlock : Bool
  senderBci : BitVec 16
  slotClosures : List (Nat × BitVec 32)
deriving DecidableEq, Repr

/-- The rest of a deoptimisation site; `level i` belongs to the `i`-th inlined level. -/
structure SiteNote where
  bci : Nat
  reexecute : Bool
  stackClosures : List (Nat × BitVec 32)
  level : Nat → LevelNote

/-- The rest of a method: its place in the pool when it has a site at all, the size of its
context, its sites by operation, and the operand stack each block is entered with. -/
structure DeoptNotes where
  methodPoolIx : Option (BitVec 32)
  nctx : Nat
  site : IrMethod.Point → SiteNote
  entryStack : BlockId → List VReg

/-! ## On-stack replacement -/

/-- What the driver plans for an on-stack replacement: the slots to fill from the transfer
buffer, the packed map, and the intervals as the plan leaves them. -/
structure OsrPlan where
  copies : List Nat
  slots : List OsrSlot
  intervals : List LiveInterval

namespace IrMethod

variable (m : IrMethod)

/-- What an interpreter frame hands over, and the vreg it goes to. -/
def osrSources (entryStack : List VReg) : List (OsrSource × VReg) :=
  (.receiver, 0) ::
    ((List.range (m.argc + m.ntemps)).map fun i => (.slot (BitVec.ofNat 16 i), 1 + i)) ++
    (entryStack.zipIdx.map fun x => (.stackSlot (BitVec.ofNat 16 x.2), x.1)) ++
    match m.methodCtxVreg with
    | none => []
    | some cv => [(.context, cv)]

end IrMethod

/-- The first spill slot among the intervals of a vreg. -/
def slotHome (v : VReg) (intervals : List LiveInterval) : Option Nat :=
  intervals.findSome? fun iv =>
    if iv.vreg = v then
      match iv.assignment with
      | some (.spill s) => some s
      | _ => none
    else none

/-- Past the end of every interval. -/
def widenEnd (intervals : List LiveInterval) : Nat :=
  (intervals.map LiveInterval.stop).foldl max 0 + 1

/-- Lengthen the first interval of a vreg. -/
def lengthenFirst (v : VReg) (stop : Nat) : List LiveInterval → List LiveInterval
  | [] => []
  | iv :: rest =>
    if iv.vreg = v then { iv with stop := max iv.stop stop, crossesSafepoint := true } :: rest
    else iv :: lengthenFirst v stop rest

/-- A source whose interval misses the header. Its value still goes to the vreg's slot, and the
interval is lengthened so that later maps name it; an operand-stack entry is left out, and a
context declines the plan. -/
def OsrPlan.addMissing (plan : OsrPlan) (v : VReg) : OsrSource → Option OsrPlan
  | .context => none
  | .stackSlot _ => some plan
  | src =>
    match slotHome v plan.intervals with
    | none => some plan
    | some s =>
      some { copies := plan.copies ++ [s]
             slots := plan.slots ++ [⟨src, slotOff s⟩]
             intervals := lengthenFirst v (widenEnd plan.intervals) plan.intervals }

/-- One source of the plan; a location that is no plain slot declines it. -/
def OsrPlan.add (headerPos : Nat) (extraOopLive : List (VReg × Nat)) (plan : OsrPlan)
    (x : OsrSource × VReg) : Option OsrPlan :=
  match resolveFrameLoc x.2 headerPos extraOopLive plan.intervals with
  | .frameSlot off =>
    some { plan with
      copies := plan.copies ++ [slotOfOff off]
      slots := plan.slots ++ [⟨x.1, off⟩] }
  | .nil => plan.addMissing x.2 x.1
  | _ => none

namespace IrMethod

variable (m : IrMethod)

/-- A phantom closure lies in the part of the operand stack that exists at the header. -/
def phantomBelow (notes : DeoptNotes) (depth : Nat) : Bool :=
  m.blocks.zipIdx.any fun block => block.1.deoptSites.any fun site =>
    (notes.site (block.2, site.1)).stackClosures.any fun c => c.1 < depth

/-- The copy plan for an entry at `header`. -/
def osrPlan (notes : DeoptNotes) (result : RegallocResult) (header : BlockId) : Option OsrPlan :=
  if header ∉ m.blockOrder ∨ m.phantomBelow notes (notes.entryStack header).length then none
  else (m.osrSources (notes.entryStack header)).foldlM
    (OsrPlan.add (m.blockStart header) result.extraOopLive) ⟨[], [], result.intervals⟩

/-- Register allocation as the rest of the driver sees it: for an on-stack replacement the plan
is made first, and may change the intervals. -/
def plannedRegalloc (rf : RegFile) (notes : DeoptNotes) (osr : Option BlockId) :
    Option RegallocResult := do
  let result ← m.regalloc rf
  match osr with
  | none => return result
  | some header =>
    let plan ← m.osrPlan notes result header
    return { result with intervals := plan.intervals }

end IrMethod

/-! ## The plan moves nothing -/

/-- Everything about an interval but its end. -/
def LiveInterval.place (iv : LiveInterval) : VReg × Nat × Bool × Bool × Option Assignment :=
  (iv.vreg, iv.start, iv.isOop, iv.isFp, iv.assignment)

theorem map_place_lengthenFirst (v : VReg) (stop : Nat) (ivs : List LiveInterval) :
    (lengthenFirst v stop ivs).map LiveInterval.place = ivs.map LiveInterval.place := by
  induction ivs with
  | nil => rfl
  | cons iv rest ih =>
    rw [lengthenFirst]
    split
    · rfl
    · rw [List.map_cons, List.map_cons, ih]

theorem OsrPlan.addMissing_place {plan plan' : OsrPlan} {v : VReg} {src : OsrSource}
    (added : plan.addMissing v src = some plan') :
    plan'.intervals.map LiveInterval.place = plan.intervals.map LiveInterval.place := by
  have moved : (∃ s, plan' = ⟨plan.copies ++ [s], plan.slots ++ [⟨src, slotOff s⟩],
      lengthenFirst v (widenEnd plan.intervals) plan.intervals⟩) ∨ plan' = plan := by
    cases src with
    | context => cases added
    | stackSlot j => exact Or.inr (Option.some_inj.mp added).symm
    | receiver | slot i =>
      unfold addMissing at added
      cases home : slotHome v plan.intervals with
      | none =>
        rw [home] at added
        exact Or.inr (Option.some_inj.mp added).symm
      | some s =>
        rw [home] at added
        exact Or.inl ⟨s, (Option.some_inj.mp added).symm⟩
  rcases moved with ⟨s, rfl⟩ | rfl
  · exact map_place_lengthenFirst _ _ _
  · rfl

theorem OsrPlan.add_place {headerPos : Nat} {extra : List (VReg × Nat)} {plan plan' : OsrPlan}
    {x : OsrSource × VReg} (added : plan.add headerPos extra x = some plan') :
    plan'.intervals.map LiveInterval.place = plan.intervals.map LiveInterval.place := by
  unfold OsrPlan.add at added
  cases hloc : resolveFrameLoc x.2 headerPos extra plan.intervals with
  | frameSlot off =>
    rw [hloc] at added
    rw [← Option.some_inj.mp added]
  | nil =>
    rw [hloc] at added
    exact addMissing_place added
  | constPool _ | constSmi _ | elidedClosure _ | doubleSlot _ =>
    rw [hloc] at added
    cases added

theorem OsrPlan.run_place {headerPos : Nat} {extra : List (VReg × Nat)}
    (sources : List (OsrSource × VReg)) {plan plan' : OsrPlan}
    (run : sources.foldlM (OsrPlan.add headerPos extra) plan = some plan') :
    plan'.intervals.map LiveInterval.place = plan.intervals.map LiveInterval.place := by
  induction sources generalizing plan with
  | nil =>
    cases run
    rfl
  | cons x rest ih =>
    rw [List.foldlM_cons] at run
    obtain ⟨next, added, run⟩ := Option.bind_eq_some_iff.mp run
    exact (ih run).trans (add_place added)

namespace IrMethod

variable {m : IrMethod} {rf : RegFile} {notes : DeoptNotes} {osr : Option BlockId}

theorem osrPlan_spec {result : RegallocResult} {header : BlockId} {plan : OsrPlan}
    (planned : m.osrPlan notes result header = some plan) :
    plan.intervals.map LiveInterval.place = result.intervals.map LiveInterval.place := by
  unfold osrPlan at planned
  split at planned
  · cases planned
  · exact OsrPlan.run_place _ planned

/-- The intervals after planning are those of the allocator, up to their ends. -/
theorem plannedRegalloc_spec {planned : RegallocResult}
    (h : m.plannedRegalloc rf notes osr = some planned) :
    ∃ result, m.regalloc rf = some result ∧ planned.extraOopLive = result.extraOopLive ∧
      planned.intervals.map LiveInterval.place = result.intervals.map LiveInterval.place := by
  unfold plannedRegalloc at h
  obtain ⟨result, alloc, h⟩ := Option.bind_eq_some_iff.mp h
  refine ⟨result, alloc, ?_⟩
  cases osr with
  | none =>
    cases h
    exact ⟨rfl, rfl⟩
  | some header =>
    obtain ⟨plan, hplan, h⟩ := Option.bind_eq_some_iff.mp h
    cases h
    exact ⟨rfl, osrPlan_spec hplan⟩

end IrMethod

/-! ## Slot numbers -/

/-- Slots are numbered in 16 bits. -/
def Scan.Numbered (st : Scan) : Prop := ∀ i s, st.assigned i = some (.spill s) → s < 65536

namespace Scan

variable {ivs : Nat → LiveInterval} {st st' : Scan}

theorem Numbered.spill (ivs : Nat → LiveInterval) (numbered : st.Numbered) (i : Nat) : (st.spill ivs i).Numbered := by
  intro j s hs
  rcases eq_or_ne j i with rfl | hne
  · simp only [Scan.spill, Function.update_self, Option.some_inj, Assignment.spill.injEq] at hs
    rw [← hs]
    exact Nat.mod_lt _ (by decide)
  · rw [spill_assigned_of_ne hne] at hs
    exact numbered j s hs

theorem Numbered.assign (ivs : Nat → LiveInterval) (numbered : st.Numbered) (i r : Nat) : (st.assign ivs i r).Numbered := by
  intro j s hs
  rcases eq_or_ne j i with rfl | hne
  · simp [Scan.assign] at hs
  · simp only [Scan.assign, Function.update_of_ne hne] at hs
    exact numbered j s hs

theorem Numbered.step (numbered : st.Numbered) {i : Nat} (step : st.step ivs i = some st') :
    st'.Numbered := by
  have expired : (st.expire ivs (ivs i).isFp (ivs i).start).Numbered := numbered
  unfold Scan.step at step
  simp only at step
  split at step
  · cases step
    exact Numbered.assign ivs expired i _
  · split at step
    · cases step
    · split at step
      · split at step
        · cases step
          exact Numbered.assign ivs (Numbered.spill ivs expired _) i _
        · cases step
      · cases step
        exact Numbered.spill ivs expired i

theorem Numbered.run (order : List Nat) (numbered : st.Numbered)
    (run : order.foldlM (Scan.step ivs) st = some st') : st'.Numbered := by
  induction order generalizing st with
  | nil =>
    cases run
    exact numbered
  | cons i order ih =>
    rw [List.foldlM_cons] at run
    obtain ⟨next, step, run⟩ := Option.bind_eq_some_iff.mp run
    exact ih (numbered.step step) run

theorem Numbered.spillCrossing (l : List Nat) (numbered : st.Numbered) :
    (l.foldl (Scan.spillCrossing ivs) st).Numbered := by
  induction l generalizing st with
  | nil => exact numbered
  | cons i l ih =>
    rw [List.foldl_cons]
    refine ih ?_
    unfold Scan.spillCrossing
    split
    · exact numbered.spill ivs i
    · exact numbered

end Scan

theorem allocate_numbered {rf : RegFile} {intervals result : List LiveInterval}
    {slotIsOop : List Bool} (unassigned : ∀ iv ∈ intervals, iv.assignment = none)
    (alloc : allocate rf intervals = some (result, slotIsOop)) :
    ∀ iv ∈ result, ∀ s, iv.assignment = some (.spill s) → s < 65536 := by
  have start : Scan.Numbered
      ⟨fun i => (nth intervals i).assignment, [], fun _ => [], rf.pool⟩ := by
    intro i s hs
    cases (nth_unassigned unassigned i).symm.trans hs
  rw [allocate_eq] at alloc
  simp only at alloc
  split at alloc
  · cases alloc
  · rename_i st run
    have numbered := Scan.Numbered.run _ (start.spillCrossing _) run
    split at alloc
    · cases alloc
      intro iv hiv s hs
      obtain ⟨x, -, rfl⟩ := List.mem_map.mp hiv
      exact numbered _ s hs
    · cases alloc

theorem IrMethod.regalloc_numbered {m : IrMethod} {rf : RegFile} {result : RegallocResult}
    (alloc : m.regalloc rf = some result) :
    ∀ iv ∈ result.intervals, ∀ s, iv.assignment = some (.spill s) → s < 65536 := by
  unfold IrMethod.regalloc at alloc
  split at alloc
  · cases alloc
  · rename_i allocated slotIsOop halloc
    cases alloc
    have numbered := allocate_numbered m.pinned_spec.unassigned halloc
    intro iv hiv s hs
    obtain ⟨x, hx, rfl⟩ := List.mem_map.mp hiv
    exact numbered x.1 (List.mem_of_getElem? (List.mem_zipIdx_iff_getElem?.mp hx)) s hs

end WinVm.Compiler
