import WinVm.Compiler.FrameLoc

/-!
# Deoptimisation metadata

`build_deopt_metadata` of `compiler/driver.rs`: for every site the frames to rebuild, from the
method itself down the chain of inlined levels, and where each of their values lies in the
suspended frame. The collector relocates what the map of the same position names, and nothing
else; a value deoptimisation reads elsewhere is stale after a collection.

Results:

* `buildDeoptMetadata_describes`: the slots a site's description names are those its vregs resolve
  to;
* `deopt_slots_mapped_iff`: the maps name all of these that hold an oop exactly when no vreg of
  a site opens there, that is has an interval that starts at the site's own position (and goes
  on), unless an exact fact or another vreg of the same slot covers it.

A method that builds its own context opens one: `materializing_unmapped`. The allocation
defines the context vreg, which is still resolved to its slot at the allocation itself.
-/

namespace WinVm.Compiler

open WinVm.Lib WinVm.Compiler.Scopes

/-- One return address of the emitted code, and the position of the operation it belongs to. -/
structure SafepointPc where
  pcOff : BitVec 32
  position : Nat
deriving DecidableEq, Repr

/-- Overwrite the entries that hold a phantom closure. -/
def overrideClosures : List (Nat × BitVec 32) → List ValueLoc → Option (List ValueLoc)
  | [], locs => some locs
  | (ix, poolIx) :: rest, locs =>
    if ix < locs.length then overrideClosures rest (locs.set ix (.elidedClosure poolIx)) else none

namespace IrMethod

variable (m : IrMethod) (notes : DeoptNotes)

/-! ## The walk -/

/-- The vreg of the root frame's receiver: the closure in a compiled block. -/
def rootReceiver : VReg := m.blockClosureVreg.getD 0

/-- The unified argument and temporary slots. -/
def rootSlots : List VReg := (List.range (m.argc + m.ntemps)).map (· + 1)

/-- Where the root frame's context is. A context that does not resolve is rebuilt from nils. -/
def rootCtx (loc : VReg → ValueLoc) : CtxLoc :=
  match m.methodCtxVreg with
  | some cv =>
    match loc cv with
    | .nil => .elided (List.replicate notes.nctx .nil)
    | live => .materialized live
  | none => if m.ctxVregs.isEmpty then .none else .elided (m.ctxVregs.map loc)

def rootScope (loc : VReg → ValueLoc) (methodPoolIx : BitVec 32) : ScopeDescData where
  methodPoolIx := methodPoolIx
  isBlock := m.blockClosureVreg.isSome
  sender := none
  receiver := loc m.rootReceiver
  slots := m.rootSlots.map loc
  ctx := m.rootCtx notes loc

/-- Begin the scope of one inlined level below the scope begun last. -/
def beginLevel (loc : VReg → ValueLoc) (note : SiteNote) (st : ScopeId × ScopeDescRecorder)
    (level : InlineLevel × Nat) : Option (ScopeId × ScopeDescRecorder) := do
  let slots ← overrideClosures (note.level level.2).slotClosures (level.1.slots.map loc)
  return st.2.beginScope
    { methodPoolIx := (note.level level.2).methodPoolIx
      isBlock := (note.level level.2).isBlock
      sender := some ⟨st.1, (note.level level.2).senderBci, level.1.callerPendingStack.map loc⟩
      receiver := loc level.1.receiver
      slots := slots
      ctx := .none }

/-- One site: the root scope, the inlined levels from the outermost in, the site itself. -/
def recordDeopt (loc : VReg → ValueLoc) (note : SiteNote) (raw : DeoptRaw) (pcOff : BitVec 32)
    (r : ScopeDescRecorder) : Option ScopeDescRecorder := do
  let methodPoolIx ← notes.methodPoolIx
  let begun ← raw.inline.zipIdx.reverse.foldlM (beginLevel loc note)
    (r.beginScope (m.rootScope notes loc methodPoolIx))
  let stack ← overrideClosures note.stackClosures (raw.stack.map loc)
  return begun.2.recordSite pcOff
    { scope := begun.1
      bci := BitVec.ofNat 16 note.bci
      kind := raw.kind
      reexecute := note.reexecute
      stack := stack }

/-- The location of a vreg for the site at a position. -/
def locAt (result : RegallocResult) (p : Nat) (v : VReg) : ValueLoc :=
  resolveFrameLoc v p result.extraOopLive result.intervals

/-- One operation of the walk; only the first site at an operation counts. -/
def describeOp (result : RegallocResult) (safepointPcs : List SafepointPc)
    (r : ScopeDescRecorder) (x : (Point × Ir) × Nat) : Option ScopeDescRecorder :=
  match (m.sitesAt x.1.1).head? with
  | none => some r
  | some raw => do
    let sp ← safepointPcs.reverse.find? fun sp => sp.position = x.2
    m.recordDeopt notes (locAt result x.2) (notes.site x.1.1) raw sp.pcOff r

/-- `build_deopt_metadata`; a panic is `none`. -/
def buildDeoptMetadata (result : RegallocResult) (safepointPcs : List SafepointPc) :
    Option (List Byte × List PcDesc) := do
  let r ← m.linear.zipIdx.foldlM (m.describeOp notes result safepointPcs) ScopeDescRecorder.new
  r.pack

/-! ## What a description reads -/

/-- The entries no phantom takes. -/
def untaken (closures : List (Nat × BitVec 32)) (vs : List VReg) : List VReg :=
  (vs.zipIdx.filter fun x => x.2 ∉ closures.map Prod.fst).map Prod.fst

def ctxReads : List VReg :=
  match m.methodCtxVreg with
  | some cv => [cv]
  | none => m.ctxVregs

def levelReads (note : SiteNote) (level : InlineLevel × Nat) : List VReg :=
  level.1.receiver :: (untaken (note.level level.2).slotClosures level.1.slots ++
    level.1.callerPendingStack)

/-- The vregs whose location the description of a site holds. -/
def siteReads (note : SiteNote) (raw : DeoptRaw) : List VReg :=
  (m.rootReceiver :: m.rootSlots ++ m.ctxReads) ++
    (raw.inline.zipIdx.flatMap (levelReads note) ++ untaken note.stackClosures raw.stack)

/-- The site described at `x` reads `v`. -/
def SiteReads (x : Point) (v : VReg) : Prop :=
  (∃ ir, m.op? x = some ir) ∧
    ∃ raw, (m.sitesAt x).head? = some raw ∧ v ∈ m.siteReads (notes.site x) raw

end IrMethod

namespace Scopes

def CtxLoc.locs : CtxLoc → List ValueLoc
  | none => []
  | materialized loc => [loc]
  | elided temps => temps

/-- Every location a scope record holds. -/
def ScopeDescData.locs (scope : ScopeDescData) : List ValueLoc :=
  scope.receiver :: scope.slots ++ scope.ctx.locs ++
    (scope.sender.map SenderLink.pendingStack).getD []

end Scopes

/-! ## Descriptions and reads agree -/

section Locs

variable {loc : VReg → ValueLoc} {off : BitVec 32}

/-- The list of locations names the slot `off` for one of the vregs, and no other slot. -/
def Names (loc : VReg → ValueLoc) (vs : List VReg) (locs : List ValueLoc) : Prop :=
  ∀ off, ValueLoc.frameSlot off ∈ locs ↔ ∃ v ∈ vs, loc v = .frameSlot off

theorem Names.map (loc : VReg → ValueLoc) (vs : List VReg) : Names loc vs (vs.map loc) :=
  fun _ => List.mem_map

theorem Names.append {vs ws : List VReg} {ls ks : List ValueLoc} (hv : Names loc vs ls)
    (hw : Names loc ws ks) : Names loc (vs ++ ws) (ls ++ ks) := by
  intro off
  rw [List.mem_append, hv, hw]
  simp only [List.mem_append, or_and_right, exists_or]

theorem Names.perm {vs ws : List VReg} {ls ks : List ValueLoc} (hv : Names loc vs ls)
    (vregs : ∀ v, v ∈ ws ↔ v ∈ vs) (locs : ∀ l, l ∈ ks ↔ l ∈ ls) : Names loc ws ks := by
  intro off
  rw [locs, hv]
  exact exists_congr fun v => and_congr (vregs v).symm Iff.rfl

theorem Names.none {ls : List ValueLoc} (h : ∀ off, ValueLoc.frameSlot off ∉ ls) :
    Names loc [] ls := by
  intro off
  simp [h off]

/-- After the overrides the remaining slots are those of the entries no phantom takes. -/
theorem frameSlot_mem_overrideClosures {closures : List (Nat × BitVec 32)}
    {locs locs' : List ValueLoc} (done : overrideClosures closures locs = some locs') :
    ValueLoc.frameSlot off ∈ locs' ↔
      ∃ i : Nat, i ∉ closures.map Prod.fst ∧ locs[i]? = some (.frameSlot off) := by
  induction closures generalizing locs with
  | nil =>
    cases done
    simp [List.mem_iff_getElem?]
  | cons c rest ih =>
    obtain ⟨ix, poolIx⟩ := c
    rw [overrideClosures] at done
    split at done
    · rw [ih done]
      refine exists_congr fun i => ?_
      rw [List.map_cons, List.mem_cons, not_or, List.getElem?_set]
      rcases eq_or_ne ix i with rfl | hne
      · -- the entry itself is gone
        simp_all
      · simp [hne, Ne.symm hne]
    · cases done

theorem Names.override {closures : List (Nat × BitVec 32)} {vs : List VReg}
    {locs : List ValueLoc} (done : overrideClosures closures (vs.map loc) = some locs) :
    Names loc (IrMethod.untaken closures vs) locs := by
  intro off
  rw [frameSlot_mem_overrideClosures done]
  unfold IrMethod.untaken
  constructor
  · rintro ⟨i, hi, hget⟩
    rw [List.getElem?_map] at hget
    obtain ⟨v, hv, hloc⟩ := Option.map_eq_some_iff.mp hget
    refine ⟨v, List.mem_map.mpr ⟨(v, i), List.mem_filter.mpr ⟨?_, by simpa using hi⟩, rfl⟩, hloc⟩
    exact List.mem_zipIdx_iff_getElem?.mpr hv
  · rintro ⟨v, hv, hloc⟩
    obtain ⟨⟨w, i⟩, hmem, rfl⟩ := List.mem_map.mp hv
    obtain ⟨hmem, hi⟩ := List.mem_filter.mp hmem
    refine ⟨i, by simpa using hi, ?_⟩
    rw [List.getElem?_map, List.mem_zipIdx_iff_getElem?.mp hmem, Option.map_some, hloc]

end Locs

namespace IrMethod

variable {m : IrMethod} {notes : DeoptNotes} {loc : VReg → ValueLoc}

theorem names_rootCtx : Names loc m.ctxReads (m.rootCtx notes loc).locs := by
  intro off
  unfold ctxReads rootCtx
  cases m.methodCtxVreg with
  | none =>
    cases hctx : m.ctxVregs with
    | nil => simp [CtxLoc.locs]
    | cons cv rest => exact Names.map loc (cv :: rest) off
  | some cv =>
    -- a context without a location is rebuilt from nils, which name no slot
    cases hloc : loc cv with
    | nil => simp [CtxLoc.locs, hloc, List.mem_replicate]
    | frameSlot _ | constPool _ | constSmi _ | elidedClosure _ | doubleSlot _ =>
      simp [CtxLoc.locs, hloc, eq_comm]

theorem names_rootScope {methodPoolIx : BitVec 32} :
    Names loc (m.rootReceiver :: m.rootSlots ++ m.ctxReads)
      (m.rootScope notes loc methodPoolIx).locs := by
  have root := (Names.map loc (m.rootReceiver :: m.rootSlots)).append
    (@names_rootCtx m notes loc)
  simpa [ScopeDescData.locs, rootScope] using root

theorem beginLevel_spec {note : SiteNote} {st st' : ScopeId × ScopeDescRecorder}
    {level : InlineLevel × Nat} (begun : beginLevel loc note st level = some st') :
    ∃ scope, st'.2 = { st.2 with scopes := st.2.scopes ++ [scope] } ∧
      Names loc (levelReads note level) scope.locs := by
  unfold beginLevel at begun
  obtain ⟨slots, override, begun⟩ := Option.bind_eq_some_iff.mp begun
  cases begun
  refine ⟨_, rfl, ?_⟩
  have whole := ((Names.map loc [level.1.receiver]).append (Names.override override)).append
    (Names.map loc level.1.callerPendingStack)
  simpa [ScopeDescData.locs, CtxLoc.locs, levelReads] using whole

theorem beginLevels_spec {note : SiteNote} (levels : List (InlineLevel × Nat))
    {st st' : ScopeId × ScopeDescRecorder}
    (begun : levels.foldlM (beginLevel loc note) st = some st') :
    ∃ scopes, st'.2 = { st.2 with scopes := st.2.scopes ++ scopes } ∧
      Names loc (levels.flatMap (levelReads note)) (scopes.flatMap ScopeDescData.locs) := by
  induction levels generalizing st with
  | nil =>
    cases begun
    exact ⟨[], by simp, Names.none (by simp)⟩
  | cons level rest ih =>
    rw [List.foldlM_cons] at begun
    obtain ⟨next, first, begun⟩ := Option.bind_eq_some_iff.mp begun
    obtain ⟨scope, hscope, names⟩ := beginLevel_spec first
    obtain ⟨scopes, hscopes, hrest⟩ := ih begun
    refine ⟨scope :: scopes, ?_, ?_⟩
    · rw [hscopes, hscope]
      simp
    · rw [List.flatMap_cons, List.flatMap_cons]
      exact names.append hrest

/-- Describing a site adds its scopes and one site record, and the frame slots these name are
the slots of the vregs the site reads. -/
theorem recordDeopt_spec {note : SiteNote} {raw : DeoptRaw} {pcOff : BitVec 32}
    {r r' : ScopeDescRecorder} (recorded : m.recordDeopt notes loc note raw pcOff r = some r') :
    ∃ scopes state, r'.scopes = r.scopes ++ scopes ∧ r'.sites = r.sites ++ [(pcOff, state)] ∧
      Names loc (m.siteReads note raw) (scopes.flatMap ScopeDescData.locs ++ state.stack) := by
  unfold recordDeopt at recorded
  obtain ⟨methodPoolIx, -, recorded⟩ := Option.bind_eq_some_iff.mp recorded
  obtain ⟨begun, levels, recorded⟩ := Option.bind_eq_some_iff.mp recorded
  obtain ⟨stack, override, recorded⟩ := Option.bind_eq_some_iff.mp recorded
  cases recorded
  obtain ⟨scopes, hscopes, names⟩ := beginLevels_spec _ levels
  refine ⟨m.rootScope notes loc methodPoolIx :: scopes,
    ⟨begun.1, BitVec.ofNat 16 note.bci, raw.kind, note.reexecute, stack⟩, ?_, ?_, ?_⟩
  · simp [ScopeDescRecorder.recordSite, hscopes, ScopeDescRecorder.beginScope]
  · simp [ScopeDescRecorder.recordSite, hscopes, ScopeDescRecorder.beginScope]
  · have whole := (@names_rootScope m notes loc methodPoolIx).append
      (names.append (Names.override override))
    refine whole.perm ?_ ?_
    · simp [siteReads]
    · simp

/-- The sites that are described among these operations, with their positions. -/
def describedIn (m : IrMethod) (ops : List ((Point × Ir) × Nat)) : List ((Point × Nat) × DeoptRaw) :=
  ops.filterMap fun x => (m.sitesAt x.1.1).head?.map (Prod.mk (x.1.1, x.2))

/-- The scopes and the record of a site name the slots that its vregs resolve to. -/
def NamesReads (m : IrMethod) (notes : DeoptNotes) (result : RegallocResult)
    (site : (Point × Nat) × DeoptRaw) (part : List ScopeDescData × (BitVec 32 × SafepointState)) : Prop :=
  Names (locAt result site.1.2) (m.siteReads (notes.site site.1.1) site.2)
    (part.1.flatMap ScopeDescData.locs ++ part.2.2.stack)

theorem describeOps_spec {result : RegallocResult} {pcs : List SafepointPc}
    (ops : List ((Point × Ir) × Nat)) {r r' : ScopeDescRecorder}
    (done : ops.foldlM (m.describeOp notes result pcs) r = some r') :
    ∃ parts, List.Forall₂ (m.NamesReads notes result) (m.describedIn ops) parts ∧
      r'.scopes = r.scopes ++ parts.flatMap Prod.fst ∧ r'.sites = r.sites ++ parts.map Prod.snd := by
  induction ops generalizing r with
  | nil =>
    cases done
    exact ⟨[], .nil, (List.append_nil _).symm, (List.append_nil _).symm⟩
  | cons op ops ih =>
    rw [List.foldlM_cons] at done
    obtain ⟨next, first, done⟩ := Option.bind_eq_some_iff.mp done
    obtain ⟨parts, described, scopes, sites⟩ := ih done
    unfold describeOp at first
    unfold describedIn
    cases site : (m.sitesAt op.1.1).head? with
    | none =>
      rw [site] at first
      cases first
      rw [List.filterMap_cons_none (by rw [site]; rfl)]
      exact ⟨parts, described, scopes, sites⟩
    | some raw =>
      rw [site] at first
      obtain ⟨sp, -, recorded⟩ := Option.bind_eq_some_iff.mp first
      obtain ⟨own, state, ownScopes, ownSites, names⟩ := recordDeopt_spec recorded
      rw [List.filterMap_cons_some (by rw [site]; rfl)]
      refine ⟨(own, sp.pcOff, state) :: parts, .cons names described, ?_, ?_⟩
      · rw [scopes, ownScopes, List.append_assoc, List.flatMap_cons]
      · rw [sites, ownSites, List.append_assoc]
        rfl

end IrMethod

/-! ## Locations and maps -/

namespace RegallocResult

variable (result : RegallocResult)

/-- The slot that `v` resolves to at `p`, if it does, is in the map for `p`. -/
def MapsSlot (v : VReg) (p : Nat) : Prop :=
  ∀ off, IrMethod.locAt result p v = .frameSlot off →
    ∃ s ∈ buildForPosition result.intervals p result.extraOopLive, slotOff s = off

/-- A spilled interval of `v` starts at `p` and goes on. -/
def OpensAt (v : VReg) (p : Nat) : Prop :=
  ∃ iv ∈ result.intervals, iv.vreg = v ∧ iv.isFp = false ∧
    (∃ s, iv.assignment = some (.spill s)) ∧ iv.start = p ∧ p < iv.stop

/-- Another vreg, which the map for `p` names, was given the slot of `v`. -/
def SharesSlot (v : VReg) (p : Nat) : Prop :=
  ∃ iv ∈ result.intervals, ∃ iv' ∈ result.intervals, ∃ s s', iv.vreg = v ∧ iv'.vreg ≠ v ∧
    iv.assignment = some (.spill s) ∧ iv'.assignment = some (.spill s') ∧ slotOff s' = slotOff s ∧
    iv'.isOop = true ∧ ((iv'.start < p ∧ p < iv'.stop) ∨ (iv'.vreg, p) ∈ result.extraOopLive)

variable {result}

/-- The two walks part at one place only, the first position of an interval. -/
theorem mapsSlot_iff (nodup : (result.intervals.map LiveInterval.vreg).Nodup) {v : VReg} {p : Nat}
    (oop : ∀ iv ∈ result.intervals, iv.vreg = v → iv.isOop = true) :
    result.MapsSlot v p ↔
      (result.OpensAt v p → (v, p) ∈ result.extraOopLive ∨ result.SharesSlot v p) := by
  have one : ∀ iv ∈ result.intervals, ∀ iv' ∈ result.intervals, iv.vreg = iv'.vreg → iv = iv' :=
    fun iv hiv iv' hiv' h => List.inj_on_of_nodup_map nodup hiv hiv' h
  constructor
  · rintro maps ⟨iv, hiv, rfl, hfp, ⟨s, hs⟩, hstart, hstop⟩
    obtain ⟨s', hs', hoff⟩ := maps (slotOff s) ((resolveFrameLoc_eq_frameSlot_iff nodup).mpr
      ⟨iv, hiv, rfl, hfp, ⟨s, hs, rfl⟩, Or.inl ⟨Nat.le_of_eq hstart, hstop⟩⟩)
    obtain ⟨iv', hiv', hoop, hspill, hlive⟩ := mem_buildForPosition.mp hs'
    rcases eq_or_ne iv'.vreg iv.vreg with heq | hne
    · -- its own mark: not from the inside of the interval, so a fact
      obtain rfl := one iv' hiv' iv hiv heq
      rcases hlive with ⟨hlt, -⟩ | hfact
      · exact absurd hstart (Nat.ne_of_lt hlt)
      · exact Or.inl hfact
    · exact Or.inr ⟨iv, hiv, iv', hiv', s, s', rfl, hne, hs, hspill, hoff, hoop, hlive⟩
  · intro cond off hloc
    obtain ⟨iv, hiv, rfl, hfp, ⟨s, hs, rfl⟩, hlive⟩ :=
      (resolveFrameLoc_eq_frameSlot_iff nodup).mp hloc
    have own : (iv.start < p ∧ p < iv.stop) ∨ (iv.vreg, p) ∈ result.extraOopLive →
        ∃ s' ∈ buildForPosition result.intervals p result.extraOopLive, slotOff s' = slotOff s :=
      fun h => ⟨s, mem_buildForPosition.mpr ⟨iv, hiv, oop iv hiv rfl, hs, h⟩, rfl⟩
    rcases hlive with ⟨hle, hstop⟩ | hfact
    · rcases Nat.lt_or_eq_of_le hle with hlt | heq
      · exact own (Or.inl ⟨hlt, hstop⟩)
      · rcases cond ⟨iv, hiv, rfl, hfp, ⟨s, hs⟩, heq, hstop⟩ with hfact | hshared
        · exact own (Or.inr hfact)
        · obtain ⟨iv₀, hiv₀, iv', hiv', s₀, s', heq₀, -, hs₀, hspill, hoff, hoop, hlive⟩ := hshared
          obtain rfl := one iv₀ hiv₀ iv hiv heq₀
          rw [hs] at hs₀
          cases hs₀
          exact ⟨s', mem_buildForPosition.mpr ⟨iv', hiv', hoop, hspill, hlive⟩, hoff⟩
    · exact own (Or.inr hfact)

end RegallocResult

namespace IrMethod

variable (m : IrMethod) (notes : DeoptNotes)

/-- Every slot a description names for an oop is in the map of the same position. -/
def SlotsMapped (result : RegallocResult) : Prop :=
  ∀ x v, m.SiteReads notes x v → m.IsOop v → result.MapsSlot v (m.pos x)

variable {m} {notes} {rf : RegFile} {osr : Option BlockId}

/-- What the plan leaves of the allocator's promises. -/
theorem plannedRegalloc_places {result : RegallocResult}
    (planned : m.plannedRegalloc rf notes osr = some result) :
    (result.intervals.map LiveInterval.vreg).Nodup ∧
      (∀ iv ∈ result.intervals, iv.isOop = true ↔ m.IsOop iv.vreg) ∧
      (m.vregs.length ≤ 65536 → ∀ iv ∈ result.intervals, ∀ iv' ∈ result.intervals, ∀ s s',
        iv.assignment = some (.spill s) → iv'.assignment = some (.spill s') →
          slotOff s = slotOff s' → iv.vreg = iv'.vreg) := by
  obtain ⟨alloc, halloc, -, places⟩ := plannedRegalloc_spec planned
  obtain ⟨alloc', halloc', sound, -, -, -⟩ := regalloc_spec m rf
  rw [halloc] at halloc'
  cases halloc'
  have numbered := regalloc_numbered halloc
  -- each planned interval stands for an allocated one
  have origin : ∀ iv ∈ result.intervals, ∃ iv₀ ∈ alloc.intervals, iv₀.place = iv.place := by
    intro iv hiv
    have hmem : iv.place ∈ alloc.intervals.map LiveInterval.place :=
      places ▸ List.mem_map_of_mem hiv
    exact List.mem_map.mp hmem
  have vregs : result.intervals.map LiveInterval.vreg = alloc.intervals.map LiveInterval.vreg := by
    have := congrArg (List.map Prod.fst) places
    rwa [List.map_map, List.map_map] at this
  refine ⟨vregs ▸ sound.nodup, ?_, ?_⟩
  · intro iv hiv
    obtain ⟨iv₀, hiv₀, hplace⟩ := origin iv hiv
    simp only [LiveInterval.place, Prod.mk.injEq] at hplace
    rw [← hplace.1, ← hplace.2.2.1]
    exact (sound.each iv₀ hiv₀).isOop_iff
  · intro few iv hiv iv' hiv' s s' hs hs' hoff
    obtain ⟨iv₀, hiv₀, hplace⟩ := origin iv hiv
    obtain ⟨iv₁, hiv₁, hplace'⟩ := origin iv' hiv'
    simp only [LiveInterval.place, Prod.mk.injEq] at hplace hplace'
    rw [← hplace.2.2.2.2] at hs
    rw [← hplace'.2.2.2.2] at hs'
    obtain rfl := slotOff_injective (numbered iv₀ hiv₀ s hs) (numbered iv₁ hiv₁ s' hs') hoff
    rw [← hplace.1, ← hplace'.1]
    exact sound.slots few iv₀ hiv₀ iv₁ hiv₁ s hs hs'

/-- What a trap, a poll or a site in an inlined body records has an exact fact there. -/
theorem fact_of_recordedAt {x : Point} {ir : Ir} {v : VReg} (hop : m.op? x = some ir)
    (hv : v ∈ m.recordedAt x) : (v, m.pos x) ∈ m.extraOopLive := by
  refine List.mem_append_left _ (List.mem_flatMap.mpr ⟨((x, ir), m.pos x), ?_, ?_⟩)
  · exact mem_linear_zipIdx.mpr ⟨hop, rfl⟩
  · exact List.mem_flatMap.mpr ⟨v, hv, List.mem_cons_self⟩

/-- A vreg opens where it is first mentioned, or where a loop that carries it begins. -/
theorem OpensAt.begins {result : RegallocResult} (planned : m.plannedRegalloc rf notes osr = some result)
    {v : VReg} {p : Nat} (opens : result.OpensAt v p) :
    ¬ m.BeginsBefore v p ∧ m.BeginsBefore v (p + 1) := by
  obtain ⟨alloc, halloc, -, places⟩ := plannedRegalloc_spec planned
  obtain ⟨alloc', halloc', sound, -, -, -⟩ := regalloc_spec m rf
  rw [halloc] at halloc'
  cases halloc'
  obtain ⟨iv, hiv, rfl, -, -, rfl, -⟩ := opens
  obtain ⟨iv₀, hiv₀, hplace⟩ := List.mem_map.mp
    (places ▸ List.mem_map_of_mem (f := LiveInterval.place) hiv)
  simp only [LiveInterval.place, Prod.mk.injEq] at hplace
  rw [← hplace.1, ← hplace.2.1]
  have start := (sound.each iv₀ hiv₀).start
  exact ⟨fun h => Nat.lt_irrefl _ ((start _).mpr h), (start _).mp (Nat.lt_succ_self _)⟩

/-- The oops deoptimisation reads are in the maps exactly when no vreg that a site reads opens
at that site, up to exact facts and, past 65536 vregs, slots that were given out twice. -/
theorem deopt_slots_mapped_iff {result : RegallocResult}
    (planned : m.plannedRegalloc rf notes osr = some result) :
    (m.SlotsMapped notes result ↔
      ∀ x v, m.SiteReads notes x v → m.IsOop v → result.OpensAt v (m.pos x) →
        (v, m.pos x) ∈ result.extraOopLive ∨ result.SharesSlot v (m.pos x)) ∧
    (m.vregs.length ≤ 65536 → ∀ v p, ¬ result.SharesSlot v p) := by
  obtain ⟨nodup, oops, slots⟩ := plannedRegalloc_places planned
  constructor
  · refine forall₄_congr fun x v _ hoop => ?_
    exact RegallocResult.mapsSlot_iff nodup fun iv hiv heq => (oops iv hiv).mpr (heq ▸ hoop)
  · rintro few v p ⟨iv, hiv, iv', hiv', s, s', rfl, hne, hs, hs', hoff, -⟩
    exact hne (slots few iv' hiv' iv hiv s' s hs' hs hoff)

/-- A polling loop that can be deoptimised at its poll. -/
def deoptLoop : IrMethod where
  isOsr := false
  blocks := [⟨[.param 0, .jump 1], []⟩,
    ⟨[.poll, .boolBr 0 1 2 3], [(0, ⟨.loopPoll, [0], []⟩)]⟩, ⟨[.ret 0], []⟩, ⟨[.bailout], []⟩]
  vregs := [⟨true, false⟩]
  argc := 0
  ntemps := 0
  blockClosureVreg := none
  ctxVregs := []
  methodCtxVreg := none
  entry_lt := by decide
  targets_lt := by decide
  terminated := fun block h => terminated_of_last (by revert block; decide)
  vregs_lt := by decide

/-- The rest of a method with a single site and no inlined level. -/
def plainNotes : DeoptNotes where
  methodPoolIx := some 0#32
  nctx := 1
  site _ := ⟨0, true, [], fun _ => ⟨0#32, false, 0#16, []⟩⟩
  entryStack _ := []

theorem deoptLoop_slots_mapped :
    ∃ result, deoptLoop.plannedRegalloc .x64 plainNotes (some 1) = some result ∧
      deoptLoop.SlotsMapped plainNotes result := by
  have planned : (deoptLoop.plannedRegalloc .x64 plainNotes (some 1)).isSome = true := by decide
  obtain ⟨result, planned⟩ := Option.isSome_iff_exists.mp planned
  refine ⟨result, planned, (deopt_slots_mapped_iff planned).1.mpr ?_⟩
  rintro ⟨b, i⟩ v ⟨⟨ir, hop⟩, raw, hsite, hv⟩ - -
  left
  -- the only site is the poll, and it reads the receiver
  have site : b = 1 ∧ i = 0 := by
    have hb := block_lt_of_op? hop
    have hmem := List.mem_of_mem_head? hsite
    revert hmem
    match b, hb with
    | 0, _ | 2, _ | 3, _ => simp [sitesAt, deoptLoop]
    | 1, _ =>
      intro hmem
      simp only [sitesAt, deoptLoop] at hmem
      rcases eq_or_ne i 0 with rfl | hne
      · exact ⟨rfl, rfl⟩
      · simp [Ne.symm hne] at hmem
  obtain ⟨rfl, rfl⟩ := site
  have hv0 : v = 0 := by
    obtain rfl : (⟨.loopPoll, [0], []⟩ : DeoptRaw) = raw := by
      simpa [sitesAt, deoptLoop] using hsite
    simpa [siteReads, rootReceiver, rootSlots, ctxReads, untaken, deoptLoop, plainNotes] using hv
  obtain ⟨alloc, halloc, hextra, -⟩ := plannedRegalloc_spec planned
  obtain ⟨alloc', halloc', -, -, hextra', -⟩ := regalloc_spec deoptLoop .x64
  rw [halloc] at halloc'
  cases halloc'
  rw [hextra, hextra', hv0]
  exact fact_of_recordedAt hop (by decide)

/-- What is packed holds, in the order of the code, one record for each site with the scopes begun for
it, and these name exactly the frame slots of what deoptimisation reads there. -/
theorem buildDeoptMetadata_describes {result : RegallocResult} {pcs : List SafepointPc}
    {packed : List Byte × List PcDesc} (built : m.buildDeoptMetadata notes result pcs = some packed) :
    ∃ r parts, ScopeDescRecorder.pack r = some packed ∧
      List.Forall₂ (m.NamesReads notes result) (m.describedIn m.linear.zipIdx) parts ∧
      r.scopes = parts.flatMap Prod.fst ∧ r.sites = parts.map Prod.snd := by
  obtain ⟨r, walked, packs⟩ := Option.bind_eq_some_iff.mp built
  obtain ⟨parts, described, scopes, sites⟩ := describeOps_spec _ walked
  exact ⟨r, parts, packs, described, scopes, sites⟩

theorem deoptLoop_describes : ∃ result packed r parts,
    deoptLoop.buildDeoptMetadata plainNotes result [⟨64#32, 2⟩] = some packed ∧
      ScopeDescRecorder.pack r = some packed ∧
      List.Forall₂ (deoptLoop.NamesReads plainNotes result) [(((1, 0), 2), ⟨.loopPoll, [0], []⟩)] parts ∧
      r.scopes = parts.flatMap Prod.fst ∧ r.sites = parts.map Prod.snd := by
  obtain ⟨packed, built⟩ := Option.isSome_iff_exists.mp (show ((deoptLoop.plannedRegalloc .x64 plainNotes
    (some 1)).bind fun result => deoptLoop.buildDeoptMetadata plainNotes result [⟨64#32, 2⟩]).isSome =
      true by decide)
  obtain ⟨result, -, built⟩ := Option.bind_eq_some_iff.mp built
  obtain ⟨r, parts, described⟩ := buildDeoptMetadata_describes built
  exact ⟨result, packed, r, parts, built, described⟩

/-- A method that builds its own context and hands it to a closure: the prologue as the
converter writes it, with the site of the allocation. -/
def materializing : IrMethod where
  isOsr := false
  blocks := [⟨[.param 0, .alloc 1, .constSmi 2, .storeField 1 2, .callRuntime (some 3) [0, 1],
    .ret 3], [(1, ⟨.alloc, [], []⟩)]⟩]
  vregs := [⟨true, false⟩, ⟨true, false⟩, ⟨false, false⟩, ⟨true, false⟩]
  argc := 0
  ntemps := 0
  blockClosureVreg := none
  ctxVregs := []
  methodCtxVreg := some 1
  entry_lt := by decide
  targets_lt := by decide
  terminated := fun block h => terminated_of_last (by revert block; decide)
  vregs_lt := by decide

/-- The description of the allocation names the slot of the context it is about to build, as a
context that exists; the map of the allocation leaves the slot out. -/
theorem materializing_unmapped :
    ∃ result, materializing.plannedRegalloc .x64 plainNotes none = some result ∧
      materializing.rootCtx plainNotes (locAt result (materializing.pos (0, 1))) =
        .materialized (.frameSlot (slotOff 1)) ∧
      ¬ materializing.SlotsMapped plainNotes result := by
  have planned : (materializing.plannedRegalloc .x64 plainNotes none).map
      (fun r => (resolveFrameLoc 1 1 r.extraOopLive r.intervals,
        buildForPosition r.intervals 1 r.extraOopLive)) =
      some (.frameSlot (slotOff 1), [0]) := by decide
  obtain ⟨result, planned, hwalks⟩ := Option.map_eq_some_iff.mp planned
  obtain ⟨hloc, hmap⟩ := Prod.mk.inj hwalks
  have hpos : materializing.pos (0, 1) = 1 := by decide
  refine ⟨result, planned, ?_, ?_⟩
  · have live : locAt result 1 1 = .frameSlot (slotOff 1) := hloc
    show (match locAt result (materializing.pos (0, 1)) 1 with
      | .nil => CtxLoc.elided (List.replicate plainNotes.nctx .nil)
      | live => .materialized live) = _
    rw [hpos, live]
  · intro mapped
    have reads : materializing.SiteReads plainNotes (0, 1) 1 :=
      ⟨⟨_, rfl⟩, ⟨.alloc, [], []⟩, rfl, by decide⟩
    obtain ⟨s, hs, hoff⟩ := mapped (0, 1) 1 reads ⟨_, rfl, rfl⟩ (slotOff 1) (hpos ▸ hloc)
    rw [hpos, hmap, List.mem_singleton] at hs
    rw [hs] at hoff
    revert hoff
    decide

end IrMethod

end WinVm.Compiler
