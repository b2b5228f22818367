import WinVm.Codecache.Sites
import WinVm.Codecache.Deps
import Mathlib.Data.List.Nodup

/-!
# Flushing code

`codecache/flush.rs`: an nmethod is flushed by unhooking it, resetting every call site that
reaches into its code, and giving its code back; the zombie sweep flushes every NotEntrant
nmethod that no frame refers to.

The reset only looks at Alive callers. A NotEntrant caller whose frames are still running keeps
its sites, so the flush is safe exactly if no such caller reaches into what is freed
(`flush_safe_iff`, `sweep_safe_iff`); `running_caller_keeps_freed_target` is one that does.
-/

namespace WinVm.Codecache

open WinVm.Interpreter CodeTable

/-! ## The model -/

/-- Whether a site's target, or an arm of its PIC, lies in the range. -/
def siteHits (pics : PicTable) (range : CodeHandle) : IcState → Option Bool
  | .mono _ target => some (decide (range.Contains target))
  | .pic stub => (pics.pairsOf stub).map fun pairs => pairs.any fun p => decide (range.Contains p.2)
  | _ => some false

structure PatchSite where
  callerId : Nat
  callerCode : CodeHandle
  siteOff : Nat
  siteIdx : Nat
  freePic : Option CodeHandle

/-- The PIC stub of a site. -/
def picOf : IcState → Option CodeHandle
  | .pic stub => some stub
  | _ => none

/-- The sites of a list of nmethods, with their indexes. -/
def allSites (nms : List Nmethod) : List (Nmethod × IcSite × Nat) :=
  nms.flatMap fun nm => nm.icSites.zipIdx.map fun e => (nm, e.1, e.2)

/-- The patch for a site that hits the range. -/
def patchOf (pics : PicTable) (range : CodeHandle) (e : Nmethod × IcSite × Nat) :
    Option (List PatchSite) :=
  (siteHits pics range e.2.1.state).map fun hit =>
    if hit then [⟨e.1.id, e.1.code, e.2.1.off, e.2.2, picOf e.2.1.state⟩] else []

/-- The whole list is collected before anything is patched. -/
def patchesOf (pics : PicTable) (range : CodeHandle) (nms : List Nmethod) :
    Option (List PatchSite) :=
  ((allSites nms).mapM (patchOf pics range)).map List.flatten

def applyPatch (resolveAddr : Nat) (c : Code) (p : PatchSite) : Option Code :=
  let c := match p.freePic with
    | some stub => c.freePic stub
    | none => c
  let c := c.patchCallSite p.callerCode p.siteOff resolveAddr
  (c.ct.setSiteState p.callerId p.siteIdx .unresolved).map fun ct => { c with ct }

def flushNmethod (resolveAddr : Nat) (c : Code) (id : Nat) : Option Code := do
  let nm ← c.ct.get id
  let ct ← c.ct.markZombie id
  let patches ← patchesOf c.pics nm.code ct.iterAlive
  let c ← patches.foldlM (applyPatch resolveAddr) { c with ct }
  let (ct, nm) ← c.ct.remove id
  some { c with ct, freed := nm.code :: c.freed }

/-- `frames` are the nmethods of the live compiled frames, `pending` those of the redirected
returns. The flag says whether the loop polls are disarmed. -/
def sweepNotEntrantZombies (resolveAddr : Nat) (c : Code) (frames pending : List Nat) :
    Option (Code × Bool) :=
  let candidates := c.ct.notEntrantIds
  if candidates.isEmpty then some (c, false)
  else do
    let dead := candidates.filter fun id => !(frames.contains id || pending.contains id)
    let c ← dead.foldlM (flushNmethod resolveAddr) c
    some (c, c.ct.notEntrantIds.isEmpty)

/-! ## What the sites satisfy -/

/-- The target of a site, or an arm of its PIC, lies in the range. -/
def Hits (pics : PicTable) (range : CodeHandle) (state : IcState) : Prop :=
  ∃ t ∈ siteTargets pics state, range.Contains t

instance (pics : PicTable) (range : CodeHandle) (state : IcState) :
    Decidable (Hits pics range state) :=
  inferInstanceAs (Decidable (∃ t ∈ siteTargets pics state, range.Contains t))

/-- A PIC belongs to one site and is registered as long as the site names it. -/
structure SitesOk (c : Code) : Prop where
  registered : ∀ i nm, c.ct.get i = some nm → ∀ site ∈ nm.icSites, ∀ stub,
    site.state = .pic stub → ∃ d, c.pics stub.base = some d ∧ d.handle = stub
  owned : ∀ (i j : Nat) (nm nm' : Nmethod) (a b : Nat) (site site' : IcSite)
    (stub stub' : CodeHandle), c.ct.get i = some nm → c.ct.get j = some nm' →
    nm.icSites[a]? = some site → nm'.icSites[b]? = some site' → site.state = .pic stub →
    site'.state = .pic stub' → stub.base = stub'.base → i = j ∧ a = b

/-- No linked target and no arm of an Alive nmethod lies in a PIC stub. -/
def AliveAvoidPics (c : Code) : Prop :=
  ∀ b d, c.pics b = some d → ∀ i nm, c.ct.get i = some nm → nm.state = .alive →
    ∀ site ∈ nm.icSites, ¬ Hits c.pics d.handle site.state

/-- The nmethod can still run: it is entered, or a frame of it is live. -/
def CanRun (frames : List Nat) (nm : Nmethod) : Prop :=
  nm.state = .alive ∨ (nm.state = .notEntrant ∧ nm.id ∈ frames)

/-- No nmethod that can still run reaches into a range that was given back, by a linked target,
by an arm of a PIC or through a PIC that is gone. -/
def Safe (c : Code) (frames : List Nat) : Prop :=
  ∀ i nm, c.ct.get i = some nm → CanRun frames nm → ∀ site ∈ nm.icSites,
    (∀ h ∈ c.freed, ¬ Hits c.pics h site.state) ∧
      ∀ stub, site.state = .pic stub → ∃ d, c.pics stub.base = some d ∧ d.handle = stub

theorem siteHits_eq {pics : PicTable} {range : CodeHandle} {state : IcState}
    (h : ∀ stub, state = .pic stub → ∃ d, pics stub.base = some d) :
    siteHits pics range state = some (decide (Hits pics range state)) := by
  cases state with
  | unresolved => simp [siteHits, Hits, siteTargets]
  | mono k t => simp [siteHits, Hits, siteTargets]
  | mega stub => simp [siteHits, Hits, siteTargets]
  | pic stub =>
    obtain ⟨d, hd⟩ := h stub rfl
    have hp : pics.pairsOf stub = some d.pairs := by
      unfold PicTable.pairsOf
      rw [hd]
      rfl
    simp only [siteHits, Hits, siteTargets, hp, Option.map_some, Option.getD_some, Option.some.injEq]
    rw [Bool.eq_iff_iff, List.any_eq_true, decide_eq_true_iff]
    constructor
    · rintro ⟨⟨k, t⟩, hmem, ht⟩
      exact ⟨t, List.mem_map.mpr ⟨(k, t), hmem, rfl⟩, of_decide_eq_true ht⟩
    · rintro ⟨t, hmem, ht⟩
      obtain ⟨p, hp, rfl⟩ := List.mem_map.mp hmem
      exact ⟨p, hp, decide_eq_true ht⟩

theorem mem_allSites {nms : List Nmethod} {e : Nmethod × IcSite × Nat} :
    e ∈ allSites nms ↔ e.1 ∈ nms ∧ e.1.icSites[e.2.2]? = some e.2.1 := by
  obtain ⟨nm, site, idx⟩ := e
  unfold allSites
  simp only [List.mem_flatMap, List.mem_map, Prod.mk.injEq]
  constructor
  · rintro ⟨nm', hnm, ⟨site', idx'⟩, hmem, rfl, rfl, rfl⟩
    exact ⟨hnm, List.mem_zipIdx_iff_getElem?.mp hmem⟩
  · rintro ⟨hnm, hsite⟩
    exact ⟨nm, hnm, (site, idx), List.mem_zipIdx_iff_getElem?.mpr hsite, rfl, rfl, rfl⟩

theorem mapM_eq_map {α β : Type} {f : α → Option β} {g : α → β} {l : List α}
    (h : ∀ x ∈ l, f x = some (g x)) : l.mapM f = some (l.map g) := by
  induction l with
  | nil => rfl
  | cons x l ih =>
    rw [List.mapM_cons, h x List.mem_cons_self, ih fun y hy => h y (List.mem_cons_of_mem _ hy)]
    rfl

/-- The patches are those of the sites that hit the range. -/
theorem patchesOf_eq {pics : PicTable} {range : CodeHandle} {nms : List Nmethod}
    (h : ∀ nm ∈ nms, ∀ site ∈ nm.icSites, ∀ stub, site.state = .pic stub →
      ∃ d, pics stub.base = some d) :
    patchesOf pics range nms = some (((allSites nms).filter fun e =>
      decide (Hits pics range e.2.1.state)).map fun e =>
        ⟨e.1.id, e.1.code, e.2.1.off, e.2.2, picOf e.2.1.state⟩) := by
  have hmap : (allSites nms).mapM (patchOf pics range) = some ((allSites nms).map fun e =>
      if Hits pics range e.2.1.state then
        [(⟨e.1.id, e.1.code, e.2.1.off, e.2.2, picOf e.2.1.state⟩ : PatchSite)] else []) := by
    refine mapM_eq_map fun e he => ?_
    obtain ⟨hnm, hsite⟩ := mem_allSites.mp he
    unfold patchOf
    rw [siteHits_eq (h e.1 hnm e.2.1 (List.mem_of_getElem? hsite))]
    simp
  unfold patchesOf
  rw [hmap, Option.map_some]
  congr 1
  induction allSites nms with
  | nil => rfl
  | cons e l ih =>
    rw [List.map_cons, List.flatten_cons, ih]
    by_cases hh : Hits pics range e.2.1.state
    · rw [if_pos hh, List.filter_cons_of_pos (by simpa using hh)]
      rfl
    · rw [if_neg hh, List.filter_cons_of_neg (by simpa using hh)]
      rfl

/-! ## Applying the patches -/

/-- The sites at the given indexes become unresolved. -/
def resetAt (q : Nat → Bool) (nm : Nmethod) : Nmethod :=
  { nm with icSites := nm.icSites.mapIdx fun j s => if q j then { s with state := .unresolved } else s }

theorem resetAt_false (nm : Nmethod) : resetAt (fun _ => false) nm = nm := by
  have h : nm.icSites.mapIdx (fun _ s => s) = nm.icSites := by
    apply List.ext_getElem? fun j => ?_
    rw [List.getElem?_mapIdx]
    cases nm.icSites[j]? <;> rfl
  unfold resetAt
  simp only [Bool.false_eq_true, if_false, h]

theorem resetAt_resetAt (p q : Nat → Bool) (nm : Nmethod) :
    resetAt q (resetAt p nm) = resetAt (fun j => p j || q j) nm := by
  unfold resetAt
  congr 1
  apply List.ext_getElem? fun j => ?_
  simp only [List.getElem?_mapIdx]
  cases nm.icSites[j]? with
  | none => rfl
  | some s =>
    simp only [Option.map_some, Bool.or_eq_true]
    by_cases hp : p j = true
    · simp [hp]
    · simp [hp]

variable (resolveAddr : Nat)

/-- One patch resets one site and gives back its PIC. -/
theorem applyPatch_spec {c : Code} {p : PatchSite} {nm : Nmethod}
    (hget : c.ct.get p.callerId = some nm) (hidx : p.siteIdx < nm.icSites.length) :
    ∃ c', applyPatch resolveAddr c p = some c' ∧
      (∀ i, c'.ct.get i =
        (c.ct.get i).map (resetAt fun j => p.callerId == i && p.siteIdx == j)) ∧
      (∀ b, c'.pics b = if p.freePic.any (·.base == b) then none else c.pics b) ∧
      (∀ h, h ∈ c'.freed ↔ h ∈ c.freed ∨ p.freePic = some h) ∧
      (Coherent c.ct → Coherent c'.ct) := by
  have hsite : nm.icSites[p.siteIdx]? = some nm.icSites[p.siteIdx] := List.getElem?_eq_getElem hidx
  obtain ⟨ct', hset⟩ : ∃ ct', c.ct.setSiteState p.callerId p.siteIdx .unresolved = some ct' := by
    unfold setSiteState
    simp only [hget, hsite]
    exact ⟨_, rfl⟩
  obtain ⟨nm', site, hget', hsite', hg, -⟩ := setSiteState_spec hset
  rw [hget] at hget'
  cases hget'
  rw [hsite] at hsite'
  cases hsite'
  have hgets : ∀ i, ct'.get i =
      (c.ct.get i).map (resetAt fun j => p.callerId == i && p.siteIdx == j) := by
    intro i
    rw [hg]
    split
    next hi =>
      rw [hi, hget, Option.map_some]
      congr 1
      unfold resetAt
      congr 1
      apply List.ext_getElem? fun j => ?_
      rw [List.getElem?_mapIdx, List.getElem?_set]
      by_cases hj : p.siteIdx = j
      · subst hj
        simp [hidx]
      · cases nm.icSites[j]? <;> simp [hj]
    next hi =>
      have hf : (fun j => p.callerId == i && p.siteIdx == j) = fun _ => false := by
        funext j
        simp [Ne.symm hi]
      rw [hf]
      cases c.ct.get i with
      | none => rfl
      | some nm' => rw [Option.map_some, resetAt_false]
  unfold applyPatch
  cases hf : p.freePic with
  | none =>
    simp only [Code.patchCallSite, hset, Option.map_some]
    exact ⟨_, rfl, hgets, fun b => by simp, fun h => by simp, fun hc => hc.setSiteState hset⟩
  | some stub =>
    simp only [Code.patchCallSite, Code.freePic, hset, Option.map_some]
    refine ⟨_, rfl, hgets, fun b => ?_, fun h => ?_, fun hc => hc.setSiteState hset⟩
    · by_cases hb : stub.base = b
      · simp [hb]
      · simp [hb, Function.update_of_ne (Ne.symm hb)]
    · simp only [List.mem_cons, Option.some.injEq]
      rw [or_comm, eq_comm]

/-- All patches: a site is reset if some patch names it. -/
theorem applyPatches_spec {ps : List PatchSite} {c : Code}
    (h : ∀ p ∈ ps, ∃ nm, c.ct.get p.callerId = some nm ∧ p.siteIdx < nm.icSites.length) :
    ∃ c', ps.foldlM (applyPatch resolveAddr) c = some c' ∧
      (∀ i, c'.ct.get i = (c.ct.get i).map
        (resetAt fun j => ps.any fun p => p.callerId == i && p.siteIdx == j)) ∧
      (∀ b, c'.pics b = if ps.any (fun p => p.freePic.any (·.base == b)) then none else c.pics b) ∧
      (∀ h, h ∈ c'.freed ↔ h ∈ c.freed ∨ ∃ p ∈ ps, p.freePic = some h) ∧
      (Coherent c.ct → Coherent c'.ct) := by
  induction ps generalizing c with
  | nil =>
    refine ⟨c, rfl, fun i => ?_, fun b => by simp, fun h => by simp, id⟩
    simp only [List.any_nil]
    cases c.ct.get i with
    | none => rfl
    | some nm => rw [Option.map_some, resetAt_false]
  | cons p ps ih =>
    obtain ⟨nm, hget, hidx⟩ := h p List.mem_cons_self
    obtain ⟨c₁, h₁, hg₁, hp₁, hf₁, hc₁⟩ := applyPatch_spec resolveAddr hget hidx
    have hrest : ∀ p' ∈ ps, ∃ nm, c₁.ct.get p'.callerId = some nm ∧
        p'.siteIdx < nm.icSites.length := by
      intro p' hp'
      obtain ⟨nm', hget', hidx'⟩ := h p' (List.mem_cons_of_mem _ hp')
      refine ⟨resetAt _ nm', by rw [hg₁, hget']; rfl, ?_⟩
      unfold resetAt
      rw [List.length_mapIdx]
      exact hidx'
    obtain ⟨c', h', hg', hp', hf', hc'⟩ := ih hrest
    refine ⟨c', by rw [List.foldlM_cons, h₁]; exact h', fun i => ?_, fun b => ?_, fun h => ?_,
      fun hc => hc' (hc₁ hc)⟩
    · rw [hg', hg₁, Option.map_map]
      congr 1
      funext nm'
      rw [Function.comp_apply, resetAt_resetAt]
      rfl
    · rw [hp', hp₁, List.any_cons]
      cases p.freePic.any (·.base == b) <;>
        cases ps.any (fun p => p.freePic.any (·.base == b)) <;> simp
    · rw [hf', hf₁, or_assoc]
      simp only [List.mem_cons, exists_eq_or_imp]

/-! ## What a flush does -/

/-- The site belongs to an Alive nmethod and reaches into the code of one of `ids`. -/
def Struck (c : Code) (ids : List Nat) (nm : Nmethod) (site : IcSite) : Prop :=
  nm.state = .alive ∧ ∃ id ∈ ids, ∃ dead, c.ct.get id = some dead ∧ Hits c.pics dead.code site.state

/-- The stub is the PIC of a struck site of an nmethod that stays. -/
def PicFreed (c : Code) (ids : List Nat) (stub : CodeHandle) : Prop :=
  ∃ i nm, i ∉ ids ∧ c.ct.get i = some nm ∧ ∃ site ∈ nm.icSites,
    Struck c ids nm site ∧ site.state = .pic stub

/-- No NotEntrant nmethod with a live frame reaches into what is given back with `ids`: their code
and the PICs of the struck sites. -/
def RunningRetiredAvoid (c : Code) (frames ids : List Nat) : Prop :=
  ∀ i nm, c.ct.get i = some nm → i ∉ ids → nm.state = .notEntrant → i ∈ frames →
    ∀ site ∈ nm.icSites,
      (∀ id ∈ ids, ∀ dead, c.ct.get id = some dead → ¬ Hits c.pics dead.code site.state) ∧
      ∀ stub, PicFreed c ids stub → ¬ Hits c.pics stub site.state

open Classical in
/-- The sites that `p` holds of become unresolved. -/
noncomputable def unlink (p : IcSite → Prop) (nm : Nmethod) : Nmethod :=
  { nm with icSites := nm.icSites.map fun s => if p s then { s with state := .unresolved } else s }

/-- `c'` is `c` with `ids` flushed. -/
structure Flushed (c : Code) (ids : List Nat) (c' : Code) : Prop where
  gone : ∀ i ∈ ids, c'.ct.get i = none
  kept : ∀ i, i ∉ ids →
    c'.ct.get i = (c.ct.get i).map fun nm => unlink (Struck c ids nm) nm
  picGone : ∀ stub, PicFreed c ids stub → c'.pics stub.base = none
  picKept : ∀ b, (∀ stub, PicFreed c ids stub → stub.base ≠ b) → c'.pics b = c.pics b
  freed : ∀ h, h ∈ c'.freed ↔ h ∈ c.freed ∨
    (∃ id ∈ ids, ∃ dead, c.ct.get id = some dead ∧ dead.code = h) ∨ PicFreed c ids h

/-- Removing an nmethod cannot fail: its address is indexed. -/
theorem CodeTable.Coherent.remove_total {ct : CodeTable} (h : Coherent ct) {id : Nat} {nm : Nmethod}
    (hget : ct.get id = some nm) : ∃ ct', ct.remove id = some (ct', nm) := by
  have hmem : (nm.code.base, id) ∈ ct.byAddr := (h.byAddr _ _).mpr ⟨nm, hget, rfl⟩
  unfold CodeTable.remove
  simp only [hget]
  cases hpos : ct.byAddr.findIdx? (fun e => e.2 == id) with
  | none =>
    have := List.findIdx?_eq_none_iff.mp hpos _ hmem
    simp at this
  | some pos => exact ⟨_, rfl⟩

theorem flush_spec {c : Code} {id : Nat} {nm : Nmethod} (hc : Coherent c.ct) (hs : SitesOk c)
    (hget : c.ct.get id = some nm) :
    ∃ c', flushNmethod resolveAddr c id = some c' ∧ Coherent c'.ct ∧ Flushed c [id] c' := by
  obtain ⟨ct₁, hz⟩ : ∃ ct₁, c.ct.markZombie id = some ct₁ := by
    unfold markZombie CodeTable.retire
    rw [hget]
    exact ⟨_, rfl⟩
  have hc₁ : Coherent ct₁ := hc.retire hz
  obtain ⟨nm', hget', hg₁, -⟩ := retire_spec hz
  rw [hget] at hget'
  cases hget'
  have hne : ∀ i, i ≠ id → ct₁.get i = c.ct.get i := fun i hi => by rw [hg₁, if_neg hi]
  -- the Alive nmethods left are those of `c` other than the flushed one
  have halive : ∀ nm', nm' ∈ ct₁.iterAlive ↔
      nm'.id ≠ id ∧ c.ct.get nm'.id = some nm' ∧ nm'.state = .alive := by
    intro nm'
    rw [mem_iterAlive hc₁]
    constructor
    · rintro ⟨hg, ha⟩
      have hi : nm'.id ≠ id := by
        intro hi
        rw [hi, hg₁, if_pos rfl] at hg
        cases hg
        cases ha
      exact ⟨hi, by rw [← hne _ hi]; exact hg, ha⟩
    · rintro ⟨hi, hg, ha⟩
      exact ⟨by rw [hne _ hi]; exact hg, ha⟩
  have hstruck : ∀ nm' site, Struck c [id] nm' site ↔
      nm'.state = .alive ∧ Hits c.pics nm.code site.state := by
    intro nm' site
    unfold Struck
    simp [hget]
  have hps := @patchesOf_eq c.pics nm.code ct₁.iterAlive
    fun nm' hm site hsite stub hst => by
      obtain ⟨-, hg, -⟩ := (halive nm').mp hm
      obtain ⟨d, hd, -⟩ := hs.registered nm'.id nm' hg site hsite stub hst
      exact ⟨d, hd⟩
  generalize hpe : (((allSites ct₁.iterAlive).filter fun e =>
      decide (Hits c.pics nm.code e.2.1.state)).map fun e =>
        (⟨e.1.id, e.1.code, e.2.1.off, e.2.2, picOf e.2.1.state⟩ : PatchSite)) = ps at hps
  -- what the patches are
  have hmem : ∀ p, p ∈ ps ↔ ∃ nm' site j, nm'.id ≠ id ∧ c.ct.get nm'.id = some nm' ∧
      nm'.icSites[j]? = some site ∧ Struck c [id] nm' site ∧
      (⟨nm'.id, nm'.code, site.off, j, picOf site.state⟩ : PatchSite) = p := by
    intro p
    rw [← hpe]
    simp only [List.mem_map, List.mem_filter, mem_allSites, halive, decide_eq_true_eq, hstruck]
    constructor
    · rintro ⟨⟨nm', site, j⟩, ⟨⟨⟨hi, hg, ha⟩, hj⟩, hh⟩, hp⟩
      exact ⟨nm', site, j, hi, hg, hj, ⟨ha, hh⟩, hp⟩
    · rintro ⟨nm', site, j, hi, hg, hj, ⟨ha, hh⟩, hp⟩
      exact ⟨(nm', site, j), ⟨⟨⟨hi, hg, ha⟩, hj⟩, hh⟩, hp⟩
  have hvalid : ∀ p ∈ ps, ∃ nm, ct₁.get p.callerId = some nm ∧ p.siteIdx < nm.icSites.length := by
    intro p hp
    obtain ⟨nm', site, j, hi, hg, hj, -, rfl⟩ := (hmem p).mp hp
    exact ⟨nm', by rw [hne _ hi]; exact hg, (List.getElem?_eq_some_iff.mp hj).1⟩
  obtain ⟨c₂, h₂, hg₂, hp₂, hf₂, hc₂⟩ :=
    applyPatches_spec resolveAddr (c := { c with ct := ct₁ }) hvalid
  have hget₂ : c₂.ct.get id = some (resetAt (fun j => ps.any fun p => p.callerId == id && p.siteIdx == j)
      { nm with state := .zombie }) := by
    rw [hg₂]
    simp only
    rw [hg₁, if_pos rfl]
    rfl
  obtain ⟨ct₃, h₃⟩ := (hc₂ hc₁).remove_total hget₂
  obtain ⟨-, hg₃, -⟩ := remove_spec h₃
  have hpic : ∀ stub, PicFreed c [id] stub ↔ ∃ p ∈ ps, p.freePic = some stub := by
    intro stub
    constructor
    · rintro ⟨i, nm', hi, hg, site, hsite, hst, hpc⟩
      obtain ⟨j, hj⟩ := List.mem_iff_getElem?.mp hsite
      have hid := hc.id_eq i nm' hg
      subst hid
      exact ⟨_, (hmem _).mpr ⟨nm', site, j, by simpa using hi, hg, hj, hst, rfl⟩, by
        simp only [hpc, picOf]⟩
    · rintro ⟨p, hp, hf⟩
      obtain ⟨nm', site, j, hi, hg, hj, hst, rfl⟩ := (hmem p).mp hp
      refine ⟨nm'.id, nm', by simpa using hi, hg, site, List.mem_of_getElem? hj, hst, ?_⟩
      cases hstate : site.state with
      | pic st =>
        simp only [hstate, picOf, Option.some.injEq] at hf
        rw [hf]
      | unresolved => simp [hstate, picOf] at hf
      | mono k t => simp [hstate, picOf] at hf
      | mega st => simp [hstate, picOf] at hf
  refine ⟨{ c₂ with ct := ct₃, freed := nm.code :: c₂.freed }, ?_, ?_, ?_, ?_, ?_, ?_, ?_⟩
  · unfold flushNmethod
    simp only [hget, hz, hps, h₂, h₃, Option.bind_eq_bind, Option.bind_some]
    rfl
  · exact (hc₂ hc₁).remove h₃ (by unfold resetAt; simp)
  · intro i hi
    rw [List.mem_singleton] at hi
    simp only
    rw [hg₃, if_pos hi]
  · intro i hi
    rw [List.mem_singleton] at hi
    simp only
    rw [hg₃, if_neg hi, hg₂]
    simp only
    rw [hne i hi]
    cases hgi : c.ct.get i with
    | none => rfl
    | some nm' =>
      have hid := hc.id_eq i nm' hgi
      subst hid
      rw [Option.map_some, Option.map_some]
      congr 1
      unfold resetAt unlink
      congr 1
      apply List.ext_getElem? fun j => ?_
      rw [List.getElem?_mapIdx, List.getElem?_map]
      cases hj : nm'.icSites[j]? with
      | none => rfl
      | some site =>
        rw [Option.map_some, Option.map_some]
        congr 1
        have hany : (ps.any fun p => p.callerId == nm'.id && p.siteIdx == j) = true ↔
            Struck c [id] nm' site := by
          rw [List.any_eq_true]
          constructor
          · rintro ⟨p, hp, hpe⟩
            obtain ⟨nm'', site', j', hi', hg', hj', hst, rfl⟩ := (hmem p).mp hp
            simp only [Bool.and_eq_true, beq_iff_eq] at hpe
            rw [hpe.1, hgi] at hg'
            cases hg'
            rw [hpe.2, hj] at hj'
            cases hj'
            exact hst
          · intro hst
            exact ⟨_, (hmem _).mpr ⟨nm', site, j, hi, hgi, hj, hst, rfl⟩, by simp⟩
        by_cases hst : Struck c [id] nm' site
        · rw [if_pos (hany.mpr hst), if_pos hst]
        · rw [if_neg (fun h => hst (hany.mp h)), if_neg hst]
  · intro stub hst
    obtain ⟨p, hp, hf⟩ := (hpic stub).mp hst
    simp only
    rw [hp₂, if_pos]
    exact List.any_eq_true.mpr ⟨p, hp, by simp [hf]⟩
  · intro b hb
    simp only
    rw [hp₂, if_neg]
    intro hany
    obtain ⟨p, hp, hf⟩ := List.any_eq_true.mp hany
    cases hst : p.freePic with
    | none => simp [hst] at hf
    | some stub =>
      exact hb stub ((hpic stub).mpr ⟨p, hp, hst⟩) (by simpa [hst] using hf)
  · intro h
    simp only [List.mem_cons]
    rw [hf₂, hpic]
    simp only [List.not_mem_nil, or_false, exists_eq_left, hget, Option.some.injEq, exists_eq_left']
    constructor
    · rintro (rfl | hold | hp)
      · exact .inr (.inl rfl)
      · exact .inl hold
      · exact .inr (.inr hp)
    · rintro (hold | rfl | hp)
      · exact .inr (.inl hold)
      · exact .inl rfl
      · exact .inr (.inr hp)

/-! ## Flushing several nmethods -/

section Several

variable {c c' : Code} {ids : List Nat}

theorem mem_unlink {p : IcSite → Prop} {nm : Nmethod} {site : IcSite}
    (h : site ∈ (unlink p nm).icSites) :
    (site ∈ nm.icSites ∧ ¬ p site) ∨ site.state = .unresolved := by
  unfold unlink at h
  obtain ⟨s, hs, rfl⟩ := List.mem_map.mp h
  by_cases hp : p s
  · rw [if_pos hp]
    exact .inr rfl
  · rw [if_neg hp]
    exact .inl ⟨hs, hp⟩

/-- An nmethod that stays comes from one that was there. -/
theorem Flushed.back (h : Flushed c ids c') {i : Nat} {nm' : Nmethod} (hget : c'.ct.get i = some nm') :
    i ∉ ids ∧ ∃ nm, c.ct.get i = some nm ∧ nm' = unlink (Struck c ids nm) nm := by
  have hi : i ∉ ids := by
    intro hi
    rw [h.gone i hi] at hget
    cases hget
  rw [h.kept i hi] at hget
  obtain ⟨nm, hnm, rfl⟩ := Option.map_eq_some_iff.mp hget
  exact ⟨hi, nm, hnm, rfl⟩

/-- A site that is not struck keeps its PIC, since a PIC belongs to one site. -/
theorem Flushed.pics_eq (h : Flushed c ids c') (hs : SitesOk c) {i : Nat} {nm : Nmethod}
    (hget : c.ct.get i = some nm) {site : IcSite} (hsite : site ∈ nm.icSites)
    (hns : ¬ Struck c ids nm site) {stub : CodeHandle} (hstub : site.state = .pic stub) :
    c'.pics stub.base = c.pics stub.base := by
  refine h.picKept _ fun stub' hst hbase => ?_
  obtain ⟨i', nm', -, hget', site', hsite', hst', hstub'⟩ := hst
  obtain ⟨a, ha⟩ := List.mem_iff_getElem?.mp hsite
  obtain ⟨b, hb⟩ := List.mem_iff_getElem?.mp hsite'
  obtain ⟨rfl, rfl⟩ := hs.owned i' i nm' nm b a site' site stub' stub hget' hget hb ha hstub' hstub hbase
  rw [hget] at hget'
  cases hget'
  rw [ha] at hb
  cases hb
  exact hns hst'

theorem Flushed.hits_iff (h : Flushed c ids c') (hs : SitesOk c) {i : Nat} {nm : Nmethod}
    (hget : c.ct.get i = some nm) {site : IcSite} (hsite : site ∈ nm.icSites)
    (hns : ¬ Struck c ids nm site) (range : CodeHandle) :
    Hits c'.pics range site.state ↔ Hits c.pics range site.state := by
  unfold Hits
  cases hst : site.state with
  | pic stub =>
    have hp : c'.pics.pairsOf stub = c.pics.pairsOf stub := by
      unfold PicTable.pairsOf
      rw [h.pics_eq hs hget hsite hns hst]
    simp only [siteTargets, hp]
  | unresolved => rfl
  | mono k t => rfl
  | mega stub => rfl

theorem Flushed.sitesOk (h : Flushed c ids c') (hs : SitesOk c) : SitesOk c' := by
  have hsite : ∀ (i : Nat) (nm' : Nmethod) (a : Nat) (site' : IcSite), c'.ct.get i = some nm' → nm'.icSites[a]? = some site' →
      site'.state = .unresolved ∨ ∃ nm, c.ct.get i = some nm ∧ nm.icSites[a]? = some site' ∧
        ¬ Struck c ids nm site' := by
    intro i nm' a site' hget ha
    obtain ⟨-, nm, hnm, rfl⟩ := h.back hget
    unfold unlink at ha
    simp only [List.getElem?_map, Option.map_eq_some_iff] at ha
    obtain ⟨s, hsa, rfl⟩ := ha
    by_cases hst : Struck c ids nm s
    · exact .inl (by rw [if_pos hst])
    · rw [if_neg hst]
      exact .inr ⟨nm, hnm, hsa, hst⟩
  refine ⟨?_, ?_⟩
  · intro i nm' hget site' hmem stub hst
    obtain ⟨a, ha⟩ := List.mem_iff_getElem?.mp hmem
    rcases hsite i nm' a site' hget ha with hun | ⟨nm, hnm, hsa, hns⟩
    · rw [hun] at hst
      cases hst
    · have hm := List.mem_of_getElem? hsa
      rw [h.pics_eq hs hnm hm hns hst]
      exact hs.registered i nm hnm site' hm stub hst
  · intro i j nm₁ nm₂ a b s₁ s₂ st₁ st₂ hg₁ hg₂ ha hb hst₁ hst₂ hbase
    rcases hsite i nm₁ a s₁ hg₁ ha with hun | ⟨n₁, hn₁, hsa, -⟩
    · rw [hun] at hst₁
      cases hst₁
    rcases hsite j nm₂ b s₂ hg₂ hb with hun | ⟨n₂, hn₂, hsb, -⟩
    · rw [hun] at hst₂
      cases hst₂
    exact hs.owned i j n₁ n₂ a b s₁ s₂ st₁ st₂ hn₁ hn₂ hsa hsb hst₁ hst₂ hbase

/-- Flushing one more nmethod; what was flushed before was not Alive, so its sites were not
looked at. -/
theorem Flushed.cons {c₁ c₂ : Code} {id : Nat} (hs : SitesOk c) (h : Flushed c ids c₁)
    (h' : Flushed c₁ [id] c₂) (hid : id ∉ ids)
    (hdead : ∀ i ∈ id :: ids, ∀ nm, c.ct.get i = some nm → nm.state ≠ .alive) :
    Flushed c (id :: ids) c₂ := by
  have hcode : ∀ dead, c.ct.get id = some dead →
      ∃ dead₁, c₁.ct.get id = some dead₁ ∧ dead₁.code = dead.code := fun dead hd =>
    ⟨unlink (Struck c ids dead) dead, by rw [h.kept id hid, hd]; rfl, rfl⟩
  have hcode' : ∀ dead₁, c₁.ct.get id = some dead₁ →
      ∃ dead, c.ct.get id = some dead ∧ dead₁.code = dead.code := by
    intro dead₁ hd
    obtain ⟨-, dead, hdead, rfl⟩ := h.back hd
    exact ⟨dead, hdead, rfl⟩
  have hsplit : ∀ nm site, Struck c (id :: ids) nm site ↔
      Struck c ids nm site ∨ (nm.state = .alive ∧ ∃ dead, c.ct.get id = some dead ∧
        Hits c.pics dead.code site.state) := by
    intro nm site
    unfold Struck
    simp only [List.mem_cons, exists_eq_or_imp]
    rw [and_or_left, or_comm]
  -- a site that the first flushes leave alone is struck by the last one as it would be in `c`
  have hlast : ∀ i nm site, c.ct.get i = some nm → site ∈ nm.icSites → ¬ Struck c ids nm site →
      (Struck c₁ [id] (unlink (Struck c ids nm) nm) site ↔ Struck c (id :: ids) nm site) := by
    intro i nm site hget hsite hns
    rw [hsplit, or_iff_right hns]
    unfold Struck
    simp only [List.mem_singleton, exists_eq_left]
    refine and_congr_right fun _ => ?_
    constructor
    · rintro ⟨dead₁, hd₁, hhit⟩
      obtain ⟨dead, hd, hcd⟩ := hcode' dead₁ hd₁
      rw [hcd, h.hits_iff hs hget hsite hns] at hhit
      exact ⟨dead, hd, hhit⟩
    · rintro ⟨dead, hd, hhit⟩
      obtain ⟨dead₁, hd₁, hcd⟩ := hcode dead hd
      rw [← hcd, ← h.hits_iff hs hget hsite hns] at hhit
      exact ⟨dead₁, hd₁, hhit⟩
  have hnot : ∀ {site : IcSite}, site.state = .unresolved → ∀ nm, ¬ Struck c₁ [id] nm site := by
    intro site hst nm ⟨_, _, _, dead, _, t, ht, _⟩
    rw [hst] at ht
    cases ht
  have hpic : ∀ stub, PicFreed c (id :: ids) stub ↔ PicFreed c ids stub ∨ PicFreed c₁ [id] stub := by
    intro stub
    constructor
    · rintro ⟨i, nm, hi, hget, site, hsite, hst, hstub⟩
      obtain ⟨hne, hni⟩ := not_or.mp (List.mem_cons.not.mp hi)
      by_cases hfirst : Struck c ids nm site
      · exact .inl ⟨i, nm, hni, hget, site, hsite, hfirst, hstub⟩
      · refine .inr ⟨i, unlink (Struck c ids nm) nm, by simpa using hne, by rw [h.kept i hni, hget]; rfl,
          site, ?_, (hlast i nm site hget hsite hfirst).mpr hst, hstub⟩
        exact List.mem_map.mpr ⟨site, hsite, if_neg hfirst⟩
    · rintro (⟨i, nm, hi, hget, site, hsite, hst, hstub⟩ | ⟨i, nm₁, hi, hget, site, hsite, hst, hstub⟩)
      · refine ⟨i, nm, ?_, hget, site, hsite, (hsplit nm site).mpr (.inl hst), hstub⟩
        intro hmem
        exact hdead i hmem nm hget hst.1
      · obtain ⟨hni, nm, hnm, rfl⟩ := h.back hget
        rcases mem_unlink hsite with ⟨hm, hns⟩ | hun
        · refine ⟨i, nm, ?_, hnm, site, hm, (hlast i nm site hnm hm hns).mp hst, hstub⟩
          exact List.mem_cons.not.mpr (not_or.mpr ⟨by simpa using hi, hni⟩)
        · rw [hun] at hstub
          cases hstub
  refine ⟨?_, ?_, ?_, ?_, ?_⟩
  · intro i hi
    rcases List.mem_cons.mp hi with rfl | hi
    · exact h'.gone i List.mem_cons_self
    · by_cases hne : i = id
      · exact absurd (hne ▸ hi) hid
      · rw [h'.kept i (by simpa using hne), h.gone i hi]
        rfl
  · intro i hi
    obtain ⟨hne, hni⟩ := not_or.mp (List.mem_cons.not.mp hi)
    rw [h'.kept i (by simpa using hne), h.kept i hni]
    cases hget : c.ct.get i with
    | none => rfl
    | some nm =>
      simp only [Option.map_some]
      congr 1
      conv_lhs => unfold unlink
      conv_rhs => unfold unlink
      congr 1
      simp only [List.map_map]
      refine List.map_congr_left fun site hsite => ?_
      rw [Function.comp_apply]
      by_cases hst : Struck c ids nm site
      · rw [if_pos hst, if_pos ((hsplit nm site).mpr (.inl hst))]
        exact if_neg (hnot rfl _)
      · rw [if_neg hst]
        by_cases hl : Struck c (id :: ids) nm site
        · rw [if_pos hl]
          exact if_pos ((hlast i nm site hget hsite hst).mpr hl)
        · rw [if_neg hl]
          exact if_neg fun h₁ => hl ((hlast i nm site hget hsite hst).mp h₁)
  · intro stub hst
    by_cases hb : ∃ stub', PicFreed c₁ [id] stub' ∧ stub'.base = stub.base
    · obtain ⟨stub', hst', hbase⟩ := hb
      rw [← hbase]
      exact h'.picGone stub' hst'
    · rw [h'.picKept _ fun stub' hst' hbase => hb ⟨stub', hst', hbase⟩]
      rcases (hpic stub).mp hst with hst | hst
      · exact h.picGone stub hst
      · exact absurd ⟨stub, hst, rfl⟩ hb
  · intro b hb
    rw [h'.picKept b fun stub hst => hb stub ((hpic stub).mpr (.inr hst)),
      h.picKept b fun stub hst => hb stub ((hpic stub).mpr (.inl hst))]
  · intro range
    rw [h'.freed, h.freed, hpic]
    simp only [List.mem_cons, exists_eq_or_imp, List.not_mem_nil, or_false, exists_eq_left]
    have hl : (∃ dead, c₁.ct.get id = some dead ∧ dead.code = range) ↔
        ∃ dead, c.ct.get id = some dead ∧ dead.code = range := by
      constructor
      · rintro ⟨dead₁, hd₁, rfl⟩
        obtain ⟨dead, hd, hcd⟩ := hcode' dead₁ hd₁
        exact ⟨dead, hd, hcd.symm⟩
      · rintro ⟨dead, hd, rfl⟩
        exact hcode dead hd
    rw [hl]
    simp only [or_assoc, or_comm, or_left_comm]

end Several

theorem Flushed.refl (c : Code) : Flushed c [] c := by
  have hns : ∀ nm site, ¬ Struck c [] nm site := by
    rintro nm site ⟨-, id, hid, -⟩
    cases hid
  have hpic : ∀ stub, ¬ PicFreed c [] stub := by
    rintro stub ⟨i, nm, -, -, site, -, hst, -⟩
    exact hns nm site hst
  refine ⟨fun i hi => absurd hi List.not_mem_nil, fun i _ => ?_, fun stub hst => absurd hst (hpic stub),
    fun _ _ => rfl, fun h => ?_⟩
  · cases c.ct.get i with
    | none => rfl
    | some nm =>
      rw [Option.map_some]
      congr 1
      unfold unlink
      simp only [hns, if_false, List.map_id']
  · simp [hpic]

/-- A run of flushes of nmethods that are not Alive. -/
theorem flushAll_spec {c : Code} (hs : SitesOk c) {l : List Nat} (hnodup : l.Nodup)
    (hdead : ∀ i ∈ l, ∃ nm, c.ct.get i = some nm ∧ nm.state ≠ .alive) :
    ∀ {done : List Nat} {c₁ : Code}, Flushed c done c₁ → Coherent c₁.ct → (∀ i ∈ done, i ∉ l) →
      (∀ i ∈ done, ∀ nm, c.ct.get i = some nm → nm.state ≠ .alive) →
      ∃ c' ids, l.foldlM (flushNmethod resolveAddr) c₁ = some c' ∧ Flushed c ids c' ∧
        ∀ i, i ∈ ids ↔ i ∈ done ∨ i ∈ l := by
  induction l with
  | nil =>
    intro done c₁ hf _ _ _
    exact ⟨c₁, done, rfl, hf, fun i => by simp⟩
  | cons id l ih =>
    intro done c₁ hf hc₁ hdisj hdone
    obtain ⟨nm, hget, hst⟩ := hdead id List.mem_cons_self
    obtain ⟨hidl, hnodup'⟩ := List.nodup_cons.mp hnodup
    have hidd : id ∉ done := fun h => hdisj id h List.mem_cons_self
    have hget₁ : c₁.ct.get id = some (unlink (Struck c done nm) nm) := by
      rw [hf.kept id hidd, hget]
      rfl
    obtain ⟨c₂, h₂, hc₂, hf₂⟩ := flush_spec resolveAddr hc₁ (hf.sitesOk hs) hget₁
    have hdone' : ∀ i ∈ id :: done, ∀ nm, c.ct.get i = some nm → nm.state ≠ .alive := by
      intro i hi nm' hg
      rcases List.mem_cons.mp hi with rfl | hi
      · rw [hget] at hg
        cases hg
        exact hst
      · exact hdone i hi nm' hg
    have hdisj' : ∀ i ∈ id :: done, i ∉ l := by
      intro i hi
      rcases List.mem_cons.mp hi with rfl | hi
      · exact hidl
      · exact fun h => hdisj i hi (List.mem_cons_of_mem _ h)
    obtain ⟨c', ids, h', hf', hids⟩ := ih hnodup' (fun i hi => hdead i (List.mem_cons_of_mem _ hi))
      (hf.cons hs hf₂ hidd hdone') hc₂ hdisj' hdone'
    refine ⟨c', ids, by rw [List.foldlM_cons, h₂]; exact h', hf', fun i => ?_⟩
    rw [hids]
    simp only [List.mem_cons, or_assoc, or_left_comm]

/-! ## Safety -/

/-- What was flushed cannot be reached, exactly if no running retired caller reaches it. -/
theorem Flushed.safe_iff {c c' : Code} {ids frames : List Nat} (h : Flushed c ids c')
    (hc : Coherent c.ct) (hs : SitesOk c) (ha : AliveAvoidPics c) (hfreed : c.freed = []) :
    Safe c' frames ↔ RunningRetiredAvoid c frames ids := by
  constructor
  · intro hsafe i nm hget hi hst hfr site hsite
    have hns : ¬ Struck c ids nm site := fun hstr => by
      have halive := hstr.1
      rw [hst] at halive
      cases halive
    have hget' : c'.ct.get i = some (unlink (Struck c ids nm) nm) := by
      rw [h.kept i hi, hget]
      rfl
    have hrun : CanRun frames (unlink (Struck c ids nm) nm) := .inr ⟨hst, by
      change nm.id ∈ frames
      rw [hc.id_eq i nm hget]
      exact hfr⟩
    have hmem : site ∈ (unlink (Struck c ids nm) nm).icSites :=
      List.mem_map.mpr ⟨site, hsite, if_neg hns⟩
    have havoid : ∀ range ∈ c'.freed, ¬ Hits c.pics range site.state := by
      intro range hrange hhit
      exact (hsafe i _ hget' hrun site hmem).1 range hrange ((h.hits_iff hs hget hsite hns _).mpr hhit)
    refine ⟨fun id hid dead hdead => ?_, fun stub hstub => ?_⟩
    · exact havoid dead.code ((h.freed _).mpr (.inr (.inl ⟨id, hid, dead, hdead, rfl⟩)))
    · exact havoid stub ((h.freed _).mpr (.inr (.inr hstub)))
  · intro havoid i nm' hget' hrun site hsite
    obtain ⟨hi, nm, hget, rfl⟩ := h.back hget'
    rcases mem_unlink hsite with ⟨hm, hns⟩ | hun
    · refine ⟨fun range hrange hhit => ?_, fun stub hstub => ?_⟩
      · rw [h.hits_iff hs hget hm hns] at hhit
        have hrange : (∃ id ∈ ids, ∃ dead, c.ct.get id = some dead ∧ dead.code = range) ∨
            PicFreed c ids range := by
          rcases (h.freed range).mp hrange with hold | hnew
          · rw [hfreed] at hold
            cases hold
          · exact hnew
        rcases hrun with halive | ⟨hst, hfr⟩
        · rcases hrange with ⟨id, hid, dead, hdead, rfl⟩ | hpic
          · exact hns ⟨halive, id, hid, dead, hdead, hhit⟩
          · obtain ⟨j, nm₂, -, hget₂, site₂, hm₂, -, hpic₂⟩ := hpic
            obtain ⟨d, hd, rfl⟩ := hs.registered j nm₂ hget₂ site₂ hm₂ range hpic₂
            exact ha _ d hd i nm hget halive site hm hhit
        · have hfr' : i ∈ frames := by
            rw [← hc.id_eq i nm hget]
            exact hfr
          obtain ⟨hcode, hpics⟩ := havoid i nm hget hi hst hfr' site hm
          rcases hrange with ⟨id, hid, dead, hdead, rfl⟩ | hpic
          · exact hcode id hid dead hdead hhit
          · exact hpics range hpic hhit
      · rw [h.pics_eq hs hget hm hns hstub]
        exact hs.registered i nm hget site hm stub hstub
    · refine ⟨fun range _ hhit => ?_, fun stub hstub => ?_⟩
      · obtain ⟨t, ht, -⟩ := hhit
        rw [hun] at ht
        cases ht
      · rw [hun] at hstub
        cases hstub

/-- The NotEntrant nmethods that no frame and no redirected return refers to. -/
def unreferenced (ct : CodeTable) (frames pending : List Nat) : List Nat :=
  ct.notEntrantIds.filter fun id => !(frames.contains id || pending.contains id)

theorem mem_notEntrantIds {ct : CodeTable} {id : Nat} (hid : ∀ i nm, ct.get i = some nm → nm.id = i) :
    id ∈ ct.notEntrantIds ↔ ∃ nm, ct.get id = some nm ∧ nm.state = .notEntrant := by
  unfold notEntrantIds
  simp only [List.mem_map, List.mem_filter, List.mem_filterMap, id_eq, exists_eq_right,
    decide_eq_true_eq]
  constructor
  · rintro ⟨nm, ⟨hmem, hst⟩, rfl⟩
    obtain ⟨i, hi⟩ := List.mem_iff_getElem?.mp hmem
    have hget := get_eq_some.mpr hi
    rw [hid i nm hget]
    exact ⟨nm, hget, hst⟩
  · rintro ⟨nm, hget, hst⟩
    exact ⟨nm, ⟨List.mem_of_getElem? (get_eq_some.mp hget), hst⟩, hid id nm hget⟩

theorem nodup_notEntrantIds {ct : CodeTable} (h : Coherent ct) : ct.notEntrantIds.Nodup :=
  (nodup_slot_ids h).sublist (List.filter_sublist.map _)

/-- The ranges a flush or a sweep gives back cannot be reached from what still runs, exactly if
no NotEntrant nmethod with a live frame reaches into them. -/
theorem flush_and_sweep_safe_iff {c : Code} (hc : Coherent c.ct) (hs : SitesOk c)
    (ha : AliveAvoidPics c) (resolveAddr : Nat) (frames pending : List Nat) :
    (∀ id nm, c.ct.get id = some nm →
      ∃ c', flushNmethod resolveAddr { c with freed := [] } id = some c' ∧
        (Safe c' frames ↔ RunningRetiredAvoid c frames [id])) ∧
    ∃ c' disarm, sweepNotEntrantZombies resolveAddr { c with freed := [] } frames pending =
        some (c', disarm) ∧
      (Safe c' frames ↔ RunningRetiredAvoid c frames (unreferenced c.ct frames pending)) := by
  have hs' : SitesOk { c with freed := [] } := ⟨hs.registered, hs.owned⟩
  refine ⟨fun id nm hget => ?_, ?_⟩
  · obtain ⟨c', h', -, hf⟩ := flush_spec resolveAddr (c := { c with freed := [] })
      hc hs' hget
    exact ⟨c', h', hf.safe_iff hc hs' ha rfl⟩
  · unfold sweepNotEntrantZombies
    simp only
    by_cases hempty : c.ct.notEntrantIds.isEmpty
    · rw [if_pos hempty]
      have hun : unreferenced c.ct frames pending = [] := by
        unfold unreferenced
        rw [List.isEmpty_iff.mp hempty]
        rfl
      refine ⟨_, _, rfl, ?_⟩
      rw [hun]
      exact (Flushed.refl _).safe_iff hc hs' ha rfl
    · rw [if_neg hempty]
      have hdead : ∀ i ∈ unreferenced c.ct frames pending,
          ∃ nm, c.ct.get i = some nm ∧ nm.state ≠ .alive := by
        intro i hi
        obtain ⟨nm, hget, hst⟩ := (mem_notEntrantIds hc.id_eq).mp (List.mem_filter.mp hi).1
        exact ⟨nm, hget, by rw [hst]; exact NmState.noConfusion⟩
      obtain ⟨c', ids, h', hf, hids⟩ := flushAll_spec resolveAddr
        (c := { c with freed := [] }) hs' ((nodup_notEntrantIds hc).filter _) hdead
        (Flushed.refl _) hc (fun i hi => absurd hi List.not_mem_nil)
        (fun i hi => absurd hi List.not_mem_nil)
      refine ⟨c', c'.ct.notEntrantIds.isEmpty, by
        rw [Option.bind_eq_bind, h', Option.bind_some], ?_⟩
      rw [hf.safe_iff hc hs' ha rfl]
      have hmem : ∀ i, i ∈ ids ↔ i ∈ unreferenced c.ct frames pending := 
          fun i => by simp [hids, unreferenced]
      unfold RunningRetiredAvoid PicFreed Struck
      simp only [hmem]

/-! ## A running caller of a swept callee -/

/-- The caller at slot 0 is linked to the callee at slot 1. -/
def linkedCaller : Nmethod :=
  { sampleNmethod 1 0 0 with icSites := [⟨4, 2, 0, .mono 2 16, none⟩] }

def linkedPair : CodeTable := ((empty.install linkedCaller).1.install (sampleNmethod 2 16 0)).1

/-- Both are retired, as their recompilations do. -/
def retiredPair : Code :=
  { ct := ((linkedPair.setNotEntrant 1).bind (·.setNotEntrant 0)).getD empty, pics := fun _ => none,
    calls := fun _ => 16, freed := [] }

theorem coherent_linkedPair : Coherent linkedPair := by
  have hfirst : Coherent (empty.install linkedCaller).1 :=
    coherent_empty.install rfl (by decide) fun i nm hget => by cases hget
  refine hfirst.install rfl (by decide) fun i nm hget => ?_
  rw [get_install] at hget
  split at hget
  · cases hget
    exact Or.inr (by decide)
  · cases hget

theorem coherent_retiredPair : Coherent retiredPair.ct := by
  have hcallee : linkedPair.retire 1 .notEntrant =
      some ((linkedPair.setNotEntrant 1).getD empty) := rfl
  have hcaller : ((linkedPair.setNotEntrant 1).getD empty).retire 0 .notEntrant =
      some retiredPair.ct := rfl
  exact (coherent_linkedPair.retire hcallee).retire hcaller

/-- A code table with two nmethods whose sites are all monomorphic. -/
theorem sitesOk_of_two {ct : CodeTable} {a b : Option Nmethod} (hslots : ct.slots = [a, b])
    (h : ∀ nm, a = some nm ∨ b = some nm → ∀ site ∈ nm.icSites, picOf site.state = none)
    (calls : Nat → Nat) (freed : List CodeHandle) :
    SitesOk { ct, pics := fun _ => none, calls, freed } := by
  have hno : ∀ i nm, ct.get i = some nm → ∀ site ∈ nm.icSites, ∀ stub, site.state ≠ .pic stub := by
    intro i nm hget site hsite stub hst
    have := h nm (get_two hslots hget) site hsite
    rw [hst] at this
    cases this
  refine ⟨?_, ?_⟩
  · intro i nm hget site hsite stub hst
    exact absurd hst (hno i nm hget site hsite stub)
  · intro i j nm nm' x y site site' stub stub' hget _ hx _ hst
    exact absurd hst (hno i nm hget site (List.mem_of_getElem? hx) stub)

theorem sitesOk_retiredPair : SitesOk retiredPair := by
  refine @sitesOk_of_two retiredPair.ct _ _ rfl ?_ _ _
  rintro nm (h | h)
  · cases h
    decide
  · cases h
    decide

/-- The pair with no stubs. -/
def linkedCode : Code := { ct := linkedPair, pics := fun _ => none, calls := fun _ => 16, freed := [] }

theorem sitesOk_linkedCode : SitesOk linkedCode := by
  refine @sitesOk_of_two linkedPair _ _ rfl ?_ _ _
  rintro nm (h | h)
  · cases h
    decide
  · cases h
    decide

/-- Flushing the callee of an Alive caller is safe. -/
theorem flush_and_sweep_safe_linkedPair :
    ∃ c', flushNmethod 900 linkedCode 1 = some c' ∧ Safe c' [0] := by
  obtain ⟨c', h', hiff⟩ := (flush_and_sweep_safe_iff (c := linkedCode) coherent_linkedPair
    sitesOk_linkedCode (fun b d hd => by cases hd) 900 [0] []).1 1 { sampleNmethod 2 16 0 with id := 1 } rfl
  refine ⟨c', h', hiff.mpr ?_⟩
  intro i nm hget _ hst
  rcases @get_two linkedPair _ _ rfl _ _ hget with h | h
  · cases h
    cases hst
  · cases h
    cases hst

/-- The sweep frees the callee while the caller's frame is live and its site still linked. -/
theorem running_caller_keeps_freed_target :
    Coherent retiredPair.ct ∧ SitesOk retiredPair ∧ AliveAvoidPics retiredPair ∧
      ∃ c' disarm, sweepNotEntrantZombies 900 retiredPair [0] [] = some (c', disarm) ∧
        c'.freed = [⟨16, 16⟩] ∧ ¬ Safe c' [0] := by
  refine ⟨coherent_retiredPair, sitesOk_retiredPair, ?_, _, _, rfl, rfl, fun hsafe => ?_⟩
  · intro b d hd
    cases hd
  have hcaller := hsafe 0 { linkedCaller with state := .notEntrant } rfl (.inr ⟨rfl, by decide⟩)
    ⟨4, 2, 0, .mono 2 16, none⟩ List.mem_cons_self
  exact hcaller.1 ⟨16, 16⟩ List.mem_cons_self (by decide)

end WinVm.Codecache
