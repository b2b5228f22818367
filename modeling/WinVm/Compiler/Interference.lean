import WinVm.Compiler.Allocate

/-!
# Interference

A vreg lives in a register or in a slot, and may have a resident register besides. Two vregs
may share a place as long as neither is overwritten while it is still needed.

`interference_free` is that statement with the condition it needs, `DefsInside`: whenever a
vreg is defined while another one of its class is live, the definition is reachable and does
not come after the end of its own interval. The second half is not automatic, since a
definition does not extend an interval: the last definition of a vreg that is dead already
(`deadDef`) writes a register that was handed on.

`Runs` replays a method over its places, each remembering the operation that wrote it last;
under the same condition every use finds the last definition of its vreg in all places of it.
-/

namespace WinVm.Compiler

open WinVm.Lib

/-! ## Places -/

/-- A register of one of the two classes, or a slot of the frame. -/
inductive Loc where
  | reg (isFp : Bool) (r : Nat)
  | slot (s : Nat)
deriving DecidableEq, Repr

/-- Where an interval keeps its value. -/
def LiveInterval.locs (iv : LiveInterval) : List Loc :=
  (match iv.assignment with
    | some (.reg r) => [.reg iv.isFp r]
    | some (.spill s) => [.slot s]
    | none => []) ++
  (match iv.residentReg with
    | some r => [.reg iv.isFp r]
    | none => [])

theorem LiveInterval.mem_locs_reg {iv : LiveInterval} {c : Bool} {r : Nat} :
    .reg c r ∈ iv.locs ↔
      iv.isFp = c ∧ (iv.assignment = some (.reg r) ∨ iv.residentReg = some r) := by
  unfold locs
  rw [List.mem_append]
  constructor
  · rintro (h | h)
    · split at h
      · rename_i r' ha
        obtain ⟨rfl, rfl⟩ : c = iv.isFp ∧ r = r' := by simpa using h
        exact ⟨rfl, Or.inl ha⟩
      · simp at h
      · cases h
    · split at h
      · rename_i r' ha
        obtain ⟨rfl, rfl⟩ : c = iv.isFp ∧ r = r' := by simpa using h
        exact ⟨rfl, Or.inr ha⟩
      · cases h
  · rintro ⟨rfl, h | h⟩
    · exact Or.inl (by simp [h])
    · exact Or.inr (by simp [h])

theorem LiveInterval.mem_locs_slot {iv : LiveInterval} {s : Nat} :
    .slot s ∈ iv.locs ↔ iv.assignment = some (.spill s) := by
  unfold locs
  rw [List.mem_append]
  constructor
  · rintro (h | h)
    · split at h
      · simp at h
      · rename_i s' ha
        obtain rfl : s = s' := by simpa using h
        exact ha
      · cases h
    · split at h
      · simp at h
      · cases h
  · intro h
    exact Or.inl (by simp [h])

/-- The places of a vreg. -/
def RegallocResult.locsOf (result : RegallocResult) (v : VReg) : List Loc :=
  (result.intervals.filter fun iv => iv.vreg = v).flatMap LiveInterval.locs

theorem RegallocResult.mem_locsOf {result : RegallocResult} {v : VReg} {l : Loc} :
    l ∈ result.locsOf v ↔ ∃ iv ∈ result.intervals, iv.vreg = v ∧ l ∈ iv.locs := by
  unfold locsOf
  simp only [List.mem_flatMap, List.mem_filter, decide_eq_true_eq, and_assoc]

namespace IrMethod

variable (m : IrMethod)

/-- The register class of a vreg. -/
def classOf (v : VReg) : Option Bool := m.vregs[v]?.map VRegInfo.isFp

/-- No vreg shares a place with a vreg of its class that is defined while it is live. -/
def InterferenceFree (result : RegallocResult) : Prop :=
  ∀ x v w, v ≠ w → m.classOf v = m.classOf w → m.Defines w x → m.LiveAfter v x →
    (result.locsOf v).Disjoint (result.locsOf w)

/-- The final interval of `v` reaches position `q`. -/
def HeldTo (v : VReg) (q : Nat) : Prop := ∀ p < q, m.HeldAfter v p

/-- Definitions made while another vreg of the class is live are reachable, and inside the
interval of their vreg. -/
def DefsInside : Prop :=
  ∀ x v w, v ≠ w → m.classOf v = m.classOf w → m.Defines w x → m.LiveAfter v x →
    m.Reaches entryPoint x ∧ m.HeldTo w (m.pos x)

variable {m}

theorem Ir.defs_unique {ir : Ir} {v w : VReg} (hv : v ∈ ir.defs) (hw : w ∈ ir.defs) : v = w := by
  have hlen : ir.defs.length ≤ 1 := by
    cases ir with
    | callRuntime dst args => cases dst <;> simp [Ir.defs]
    | _ => simp [Ir.defs]
  match ir.defs, hlen, hv, hw with
  | [d], _, hv, hw => exact (List.mem_singleton.mp hv).trans (List.mem_singleton.mp hw).symm

theorem Describes.classOf {iv : LiveInterval} (h : m.Describes m.HeldAfter iv) :
    m.classOf iv.vreg = some iv.isFp := by
  unfold IrMethod.classOf
  rw [h.info]
  rfl

/-- Vregs of different classes share no place. -/
theorem disjoint_of_class_ne {result : RegallocResult} (halloc : Allocated m result.intervals)
    (hlen : m.vregs.length ≤ 65536) {v w : VReg} (hc : m.classOf v ≠ m.classOf w) :
    (result.locsOf v).Disjoint (result.locsOf w) := by
  intro l hv hw
  obtain ⟨iv, hiv, rfl, hl⟩ := RegallocResult.mem_locsOf.mp hv
  obtain ⟨iv', hiv', rfl, hl'⟩ := RegallocResult.mem_locsOf.mp hw
  cases l with
  | reg c r =>
    obtain ⟨h1, -⟩ := LiveInterval.mem_locs_reg.mp hl
    obtain ⟨h2, -⟩ := LiveInterval.mem_locs_reg.mp hl'
    rw [(halloc.each iv hiv).classOf, (halloc.each iv' hiv').classOf, h1, h2] at hc
    exact hc rfl
  | slot s =>
    have heq := halloc.slots hlen iv hiv iv' hiv' s (LiveInterval.mem_locs_slot.mp hl)
      (LiveInterval.mem_locs_slot.mp hl')
    rw [heq] at hc
    exact hc rfl

/-- Two vregs whose intervals share a position other than an end of the first share no place. -/
theorem disjoint_of_overlap {result : RegallocResult} (halloc : Allocated m result.intervals)
    (hlen : m.vregs.length ≤ 65536) {iv iv' : LiveInterval} (hiv : iv ∈ result.intervals)
    (hiv' : iv' ∈ result.intervals) (hne : iv.vreg ≠ iv'.vreg) (hc : iv.isFp = iv'.isFp) {q : Nat}
    (h1 : iv.start < q) (h2 : q < iv.stop) (h3 : iv'.start ≤ q) (h4 : q ≤ iv'.stop) :
    iv.locs.Disjoint iv'.locs := by
  intro l hl hl'
  cases l with
  | slot s =>
    exact hne (halloc.slots hlen iv hiv iv' hiv' s (LiveInterval.mem_locs_slot.mp hl)
      (LiveInterval.mem_locs_slot.mp hl'))
  | reg c r =>
    obtain ⟨-, hr⟩ := LiveInterval.mem_locs_reg.mp hl
    obtain ⟨-, hr'⟩ := LiveInterval.mem_locs_reg.mp hl'
    rcases hr with hr | hr
    · rcases hr' with hr' | hr'
      · have := halloc.regs iv hiv iv' hiv' hne hc r hr hr'
        omega
      · exact halloc.exclusive iv' hiv' iv hiv hc.symm r hr' hr
    · rcases hr' with hr' | hr'
      · exact halloc.exclusive iv hiv iv' hiv' hc r hr hr'
      · have := halloc.residents iv hiv iv' hiv' hne hc r hr hr'
        omega

theorem interferenceFree_of_defsInside {result : RegallocResult}
    (halloc : Allocated m result.intervals) (hlen : m.vregs.length ≤ 65536)
    (hdef : m.DefinedBeforeUse) (h : m.DefsInside) : m.InterferenceFree result := by
  intro x v w hne hc hw hlive l hlv hlw
  obtain ⟨hreach, hheld⟩ := h x v w hne hc hw hlive
  obtain ⟨ir, hop, hwd⟩ := id hw
  have hnt : ir.isTerminator = false := by
    rw [Bool.eq_false_iff]
    intro ht
    rw [Ir.defs_of_isTerminator ht] at hwd
    cases hwd
  have hnd : ¬ m.Defines v x := by
    rintro ⟨ir', hop', hv⟩
    rw [hop] at hop'
    cases hop'
    exact hne (Ir.defs_unique hv hwd)
  obtain ⟨⟨a, ha, hax⟩, b, hb, hxb⟩ := live_after_spans hdef hreach hop hnt hnd hlive
  obtain ⟨iv, hiv, rfl, hl⟩ := RegallocResult.mem_locsOf.mp hlv
  obtain ⟨iv', hiv', rfl, hl'⟩ := RegallocResult.mem_locsOf.mp hlw
  have hd := halloc.each iv hiv
  have hd' := halloc.each iv' hiv'
  rw [hd.classOf, hd'.classOf, Option.some_inj] at hc
  -- the definition starts the interval of `w` at its position or earlier
  obtain ⟨c, hspan, hcx⟩ := exists_spans_le ⟨x, rfl, Or.inr hw⟩
  have hstop : m.pos x ≤ iv'.stop := by
    by_contra hlt
    exact Nat.lt_irrefl _ ((hd'.stop iv'.stop).mpr (hheld _ (Nat.lt_of_not_le hlt)))
  exact disjoint_of_overlap halloc hlen hiv hiv' hne hc
    (Nat.lt_of_le_of_lt (hd.le_of_spans ha).1 hax) (Nat.lt_of_lt_of_le hxb (hd.le_of_spans hb).2)
    (Nat.le_trans (hd'.le_of_spans hspan).1 hcx) hstop hl hl'

/-! ## Runs -/

variable (m) in
/-- The runs of the allocated method: where control stands, for every vreg the operation that
defined it last, and for every place the operation that wrote it last. -/
inductive Runs (result : RegallocResult) :
    Point → (VReg → Option Point) → (Loc → Option Point) → Prop
  | entry : Runs result entryPoint (fun _ => none) (fun _ => none)
  | skip {x y last mem} : Runs result x last mem → m.Step x y → (∀ w, ¬ m.Writes w x y) →
      Runs result y last mem
  | define {x y w last mem} : Runs result x last mem → m.Step x y → m.Writes w x y →
      Runs result y (Function.update last w (some x))
        (fun l => if l ∈ result.locsOf w then some x else mem l)

variable (m) in
/-- Every use finds the last definition of its vreg wherever the vreg is kept. -/
def ReadsLast (result : RegallocResult) : Prop :=
  ∀ x last mem v, m.Runs result x last mem → m.Uses v x →
    ∃ d, last v = some d ∧ result.locsOf v ≠ [] ∧ ∀ l ∈ result.locsOf v, mem l = some d

theorem Writes.unique {v w : VReg} {x y : Point} (hv : m.Writes v x y) (hw : m.Writes w x y) :
    v = w := by
  obtain ⟨⟨ir, hop, hd⟩, -⟩ := hv
  obtain ⟨⟨ir', hop', hd'⟩, -⟩ := hw
  rw [hop] at hop'
  cases hop'
  exact Ir.defs_unique hd hd'

/-- A vreg without a last definition was not defined on the way. -/
theorem Runs.without {result : RegallocResult} {x : Point} {last : VReg → Option Point}
    {mem : Loc → Option Point} (h : m.Runs result x last mem) {v : VReg} (hv : last v = none) :
    m.ReachesWithout v entryPoint x := by
  induction h with
  | entry => exact .refl
  | skip _ hstep hnw ih => exact (ih hv).tail ⟨hstep, hnw v⟩
  | @define x y w last mem _ hstep hw ih =>
    rcases eq_or_ne v w with rfl | hne
    · simp at hv
    · rw [Function.update_of_ne hne] at hv
      exact (ih hv).tail ⟨hstep, fun hv' => hne (hv'.unique hw)⟩

/-- While a vreg is live its places hold its last definition. -/
theorem Runs.holds {result : RegallocResult} (halloc : Allocated m result.intervals)
    (hlen : m.vregs.length ≤ 65536) (hdef : m.DefinedBeforeUse)
    (hfree : m.InterferenceFree result) {x : Point} {last : VReg → Option Point}
    {mem : Loc → Option Point} (h : m.Runs result x last mem) {v : VReg} {z : Point}
    (hlive : m.ReachesWithout v x z) (huse : m.Uses v z) :
    ∀ l ∈ result.locsOf v, mem l = last v := by
  induction h with
  | entry => exact absurd hlive (hdef v z huse)
  | skip _ hstep hnw ih =>
    exact ih (Relation.ReflTransGen.head ⟨hstep, hnw v⟩ hlive)
  | @define x y w last mem _ hstep hw ih =>
    intro l hl
    rcases eq_or_ne v w with rfl | hne
    · simp [hl]
    · -- `v` is live after `x`, so the places of `w` are others
      have hafter : m.LiveAfter v x := ⟨y, z, hstep, hlive, huse⟩
      have hdisj : (result.locsOf v).Disjoint (result.locsOf w) := by
        by_cases hc : m.classOf v = m.classOf w
        · exact hfree x v w hne hc hw.1 hafter
        · exact disjoint_of_class_ne halloc hlen hc
      have hlw : l ∉ result.locsOf w := hdisj hl
      simp only [hlw, if_false, Function.update_of_ne hne]
      exact ih (Relation.ReflTransGen.head ⟨hstep, fun hv => hne (hv.unique hw)⟩ hlive) l hl

theorem readsLast_of_interferenceFree {result : RegallocResult}
    (halloc : Allocated m result.intervals) (hlen : m.vregs.length ≤ 65536)
    (hdef : m.DefinedBeforeUse) (hfree : m.InterferenceFree result) : m.ReadsLast result := by
  intro x last mem v hrun huse
  have hholds := hrun.holds halloc hlen hdef hfree .refl huse
  cases hl : last v with
  | none => exact absurd (hrun.without hl) (hdef v x huse)
  | some d =>
    refine ⟨d, rfl, ?_, fun l hmem => (hholds l hmem).trans hl⟩
    have hment : m.MentionedAt v (m.pos x) := ⟨x, rfl, Or.inl huse⟩
    obtain ⟨iv, hiv, rfl⟩ := halloc.all v ⟨mentioned_lt hment, Or.inl ⟨_, hment⟩⟩
    intro hnil
    have hplaced := halloc.placed iv hiv
    have hnone : ∀ l, l ∉ iv.locs := by
      intro l hmem
      have := RegallocResult.mem_locsOf.mpr ⟨iv, hiv, rfl, hmem⟩
      rw [hnil] at this
      cases this
    cases ha : iv.assignment with
    | none => exact hplaced ha
    | some a =>
      cases a with
      | reg r => exact hnone _ (LiveInterval.mem_locs_reg.mpr ⟨rfl, Or.inl ha⟩)
      | spill s => exact hnone _ (LiveInterval.mem_locs_slot.mpr ha)

/-- Receiver plus a constant, sent again when the addition fails. -/
def addConstant : IrMethod where
  isOsr := false
  blocks := [⟨[.param 0, .constSmi 1, .smiArith 2 0 1 1, .ret 2], []⟩,
    ⟨[.callSend 2 [0, 1], .ret 2], []⟩]
  vregs := [⟨true, false⟩, ⟨true, false⟩, ⟨true, false⟩]
  argc := 0
  ntemps := 0
  blockClosureVreg := none
  ctxVregs := []
  methodCtxVreg := none
  entry_lt := by decide
  targets_lt := by decide
  terminated := fun block h => terminated_of_last (by revert block; decide)
  vregs_lt := by decide

/-- Vreg 1 is defined again after its last use, while vreg 2 is live. -/
def deadDef : IrMethod where
  isOsr := false
  blocks := [⟨[.param 0, .constSmi 1, .storeField 0 1, .constSmi 2, .constSmi 1, .ret 2], []⟩]
  vregs := [⟨true, false⟩, ⟨true, false⟩, ⟨true, false⟩]
  argc := 0
  ntemps := 0
  blockClosureVreg := none
  ctxVregs := []
  methodCtxVreg := none
  entry_lt := by decide
  targets_lt := by decide
  terminated := fun block h => terminated_of_last (by revert block; decide)
  vregs_lt := by decide

end IrMethod

end WinVm.Compiler
