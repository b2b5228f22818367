import WinVm.Compiler.Allocate

/-!
# Oop maps

What the stack maps of a method say at its safepoints. A map has to name every slot the
collector must follow, and no slot that may still hold garbage.

Results:

* `live_oop_is_mapped`: every oop that is live across a safepoint the entry reaches is in a
  slot, and the slot is in the map of that safepoint;
* `maps_initialised_iff`: the marked slots are written on every path to their safepoint
  exactly when `WrittenInside` holds: a vreg with one definition, that neither a
  deoptimisation names nor the entry writes at once, is defined on every path to the
  safepoints strictly inside its interval.

The second condition can fail: `siblingArms` is a method whose last use of a vreg is laid out
behind a safepoint on an arm that never defines it.
-/

namespace WinVm.Compiler

open WinVm.Lib

/-! ## Marks -/

/-- The vreg is in a slot that the map for `p` names. -/
def RegallocResult.Mapped (result : RegallocResult) (v : VReg) (p : Nat) : Prop :=
  ∃ iv ∈ result.intervals, ∃ s, iv.vreg = v ∧ iv.assignment = some (.spill s) ∧
    s ∈ buildForPosition result.intervals p result.extraOopLive

theorem mem_buildForPosition {intervals : List LiveInterval} {p s : Nat}
    {extra : List (VReg × Nat)} :
    s ∈ buildForPosition intervals p extra ↔
      ∃ iv ∈ intervals, iv.isOop = true ∧ iv.assignment = some (.spill s) ∧
        ((iv.start < p ∧ p < iv.stop) ∨ (iv.vreg, p) ∈ extra) := by
  unfold buildForPosition
  rw [List.mem_filterMap]
  refine exists_congr fun iv => and_congr Iff.rfl ?_
  cases hoop : iv.isOop with
  | false => simp
  | true =>
    cases ha : iv.assignment with
    | none => simp
    | some a =>
      cases a with
      | reg r => simp
      | spill slot =>
        simp only [if_true, Option.ite_none_right_eq_some, Option.some_inj, true_and,
          Assignment.spill.injEq]
        exact and_comm

namespace IrMethod

variable (m : IrMethod) (rf : RegFile)

/-- `v` is an oop. -/
def IsOop (v : VReg) : Prop := ∃ info, m.vregs[v]? = some info ∧ info.isOop = true

variable {m} {rf}

theorem Describes.isOop_iff {iv : LiveInterval} (h : m.Describes m.HeldAfter iv) :
    iv.isOop = true ↔ m.IsOop iv.vreg := by
  constructor
  · intro hoop
    exact ⟨_, h.info, hoop⟩
  · rintro ⟨info, hinfo, hoop⟩
    rw [h.info] at hinfo
    cases hinfo
    exact hoop

/-! ## Completeness -/

theorem not_isTerminator_of_liveAfter {x : Point} {ir : Ir} {v : VReg}
    (hop : m.op? x = some ir) (hsp : ir.isSafepoint = true) (hlive : m.LiveAfter v x) :
    ir.isTerminator = false := by
  obtain ⟨y, z, hstep, -, -⟩ := hlive
  cases hstep with
  | next h hnt _ =>
    rw [h] at hop
    cases hop
    exact hnt
  | branch h ht _ =>
    rw [h] at hop
    cases hop
    rw [Ir.targets_of_isSafepoint hsp] at ht
    cases ht

/-- Every oop that is live across a reachable safepoint is in a slot of its map. -/
theorem live_oop_is_mapped (m : IrMethod) (rf : RegFile) (hdef : m.DefinedBeforeUse)
    {x : Point} {ir : Ir} {v : VReg} (hreach : m.Reaches entryPoint x)
    (hop : m.op? x = some ir) (hsp : ir.isSafepoint = true) (hoop : m.IsOop v)
    (hnd : v ∉ ir.defs) (hlive : m.LiveAfter v x) :
    ∃ result, m.regalloc rf = some result ∧ result.Mapped v (m.pos x) := by
  have hnd' : ¬ m.Defines v x := by
    rintro ⟨ir', hop', hv⟩
    rw [hop] at hop'
    cases hop'
    exact hnd hv
  obtain ⟨⟨a, ha, hax⟩, b, hb, hxb⟩ := live_after_spans hdef hreach hop
    (not_isTerminator_of_liveAfter hop hsp hlive) hnd' hlive
  obtain ⟨result, hres, halloc, hsps, -, -⟩ := regalloc_spec m rf
  refine ⟨result, hres, ?_⟩
  -- a spanned vreg is mentioned, so it has an interval
  have hkept : m.Kept v := by
    obtain ⟨y, z, hstep, hrest, huse⟩ := hlive
    have hment : m.MentionedAt v (m.pos z) := ⟨z, rfl, Or.inl huse⟩
    exact ⟨mentioned_lt hment, Or.inl ⟨_, hment⟩⟩
  obtain ⟨iv, hiv, rfl⟩ := halloc.all v hkept
  have hd := halloc.each iv hiv
  have hstart : iv.start < m.pos x := Nat.lt_of_le_of_lt (hd.le_of_spans ha).1 hax
  have hstop : m.pos x < iv.stop := Nat.lt_of_lt_of_le hxb (hd.le_of_spans hb).2
  have hcross := hd.crosses _ (mem_safepointPositions hop hsp) (Nat.le_of_lt hstart) hstop
  obtain ⟨s, hs⟩ := halloc.crossing iv hiv hcross
  refine ⟨iv, hiv, s, rfl, hs, ?_⟩
  exact mem_buildForPosition.mpr ⟨iv, hiv, hd.isOop_iff.mpr hoop, hs, Or.inl ⟨hstart, hstop⟩⟩

/-- A receiver that is live around a polling loop. -/
def pollingLoop : IrMethod where
  isOsr := false
  blocks := [⟨[.param 0, .jump 1], []⟩, ⟨[.poll, .boolBr 0 1 2 3], []⟩, ⟨[.ret 0], []⟩,
    ⟨[.bailout], []⟩]
  vregs := [⟨true, false⟩]
  argc := 0
  ntemps := 0
  blockClosureVreg := none
  ctxVregs := []
  methodCtxVreg := none
  entry_lt := by decide
  targets_lt := by decide
  terminated := fun block h => terminated_of_last (by revert block; decide)
  vregs_lt := by decide

theorem pollingLoop_receiver_mapped :
    ∃ result, pollingLoop.regalloc .x64 = some result ∧
      result.Mapped 0 (pollingLoop.pos (1, 0)) := by
  have hstep : pollingLoop.Step (1, 0) (1, 1) := .next rfl rfl rfl
  have hreach : pollingLoop.Reaches entryPoint (1, 0) :=
    (Relation.ReflTransGen.single (.next rfl rfl rfl)).tail
      (.branch (i := 1) rfl List.mem_cons_self rfl)
  exact live_oop_is_mapped pollingLoop .x64
    (definedBeforeUse_of_certifies (fun b => if b = 0 then [] else [0]) (by decide))
    hreach rfl rfl ⟨_, rfl, rfl⟩ (by decide)
    ⟨(1, 1), (1, 1), hstep, .refl, ⟨_, rfl, List.mem_cons_self⟩⟩

/-- A send in a block that nothing branches to, with a value live across it. -/
def deadSend : IrMethod where
  isOsr := false
  blocks := [⟨[.param 0, .retSelf], []⟩, ⟨[.callSend 1 [], .ret 2], []⟩]
  vregs := [⟨true, false⟩, ⟨true, false⟩, ⟨true, false⟩]
  argc := 0
  ntemps := 0
  blockClosureVreg := none
  ctxVregs := []
  methodCtxVreg := none
  entry_lt := by decide
  targets_lt := by decide
  terminated := fun block h => terminated_of_last (by revert block; decide)
  vregs_lt := by decide

/-- Liveness in unreachable code is not covered: the value is in a register. -/
theorem deadSend_unmapped :
    deadSend.Reducible ∧ deadSend.DefinedBeforeUse ∧ deadSend.Safepoint (1, 0) ∧
      deadSend.IsOop 2 ∧ deadSend.LiveAfter 2 (1, 0) ∧ ¬ deadSend.Defines 2 (1, 0) ∧
      ∃ result, deadSend.regalloc .x64 = some result ∧
        ¬ result.Mapped 2 (deadSend.pos (1, 0)) := by
  have hplaces : ((deadSend.regalloc .x64).map fun r =>
      r.intervals.map fun iv => (iv.vreg, iv.assignment)) =
        some [(0, some (.reg 1)), (1, some (.reg 1)), (2, some (.reg 1))] := by decide
  obtain ⟨result, hres, hivs⟩ := Option.map_eq_some_iff.mp hplaces
  refine ⟨reducible_of_ranks id (by decide),
    definedBeforeUse_of_certifies (fun b => if b = 1 then [2] else []) (by decide),
    ⟨_, rfl, rfl⟩, ⟨_, rfl, rfl⟩,
    ⟨(1, 1), (1, 1), .next rfl rfl rfl, .refl, ⟨_, rfl, List.mem_cons_self⟩⟩, ?_,
    result, hres, ?_⟩
  · rintro ⟨ir, hop, hv⟩
    cases hop
    revert hv
    decide
  · rintro ⟨iv, hiv, s, hv, hs, -⟩
    have hmem := List.mem_map_of_mem (f := fun iv : LiveInterval => (iv.vreg, iv.assignment)) hiv
    rw [hivs, hv, hs] at hmem
    simp at hmem

/-! ## Initialisation -/

variable (m) in
/-- The step from `x` to `y` writes slot `s`, by a definition of a vreg that lives there. -/
def WritesSlot (result : RegallocResult) (s : Nat) (x y : Point) : Prop :=
  ∃ iv ∈ result.intervals, iv.assignment = some (.spill s) ∧ m.Writes iv.vreg x y

variable (m) in
/-- Some path from the entry reaches `x` with slot `s` neither written nor filled with nil by
the prologue. -/
def Unwritten (result : RegallocResult) (s : Nat) (x : Point) : Prop :=
  s ∉ result.deoptNilInitSlots ∧
    Relation.ReflTransGen (fun a b => m.Step a b ∧ ¬ m.WritesSlot result s a b) entryPoint x

variable (m) in
/-- No map marks a slot that some path to its safepoint leaves unwritten. -/
def MapsInitialised (result : RegallocResult) : Prop :=
  ∀ x, m.Safepoint x →
    ∀ s ∈ buildForPosition result.intervals (m.pos x) result.extraOopLive,
      ¬ m.Unwritten result s x

variable (m) in
/-- The prologue does not fill the slot of the oop `v`, nor does the entry block write it at
once: it has one definition at most, and no deoptimisation names it. -/
def LeftToItsDef (v : VReg) : Prop :=
  m.Kept v ∧ m.IsOop v ∧ ¬ m.Recorded v ∧ m.multiDef v = false ∧ v ∉ m.entryEarlyDefs

variable (m) in
/-- The vregs that are left to their definition are defined on every path to the safepoints
strictly inside their interval. -/
def WrittenInside : Prop :=
  ∀ v x, m.LeftToItsDef v → m.Safepoint x → m.BeginsBefore v (m.pos x) →
    m.HeldAfter v (m.pos x) → ¬ m.ReachesWithout v entryPoint x

theorem head_blockOrder : m.blockOrder.getD 0 0 = 0 := by
  obtain ⟨tree, rest, horder, htree, -, -⟩ := m.blockOrder_spec
  cases tree with
  | nil => cases htree.head
  | cons b tree =>
    have hb : b = 0 := by simpa using htree.head
    rw [horder, hb]
    rfl

theorem leading_falls_through {ir : Ir} (h : isLeading ir = true) :
    ir.targets = [] ∧ ir.isSafepoint = false := by
  cases ir <;> first | exact ⟨rfl, rfl⟩ | cases h

/-- What the leading run of the entry block defines is written before any safepoint. -/
theorem early_written {v : VReg} {x : Point} (hv : v ∈ m.entryEarlyDefs) (hsp : m.Safepoint x) :
    ¬ m.ReachesWithout v entryPoint x := by
  unfold entryEarlyDefs at hv
  split at hv
  · cases hv
  · rw [head_blockOrder] at hv
    obtain ⟨ir0, hmem, hdef⟩ := List.mem_flatMap.mp hv
    obtain ⟨d, hd⟩ := List.getElem?_of_mem hmem
    obtain ⟨rest, hcode⟩ : ∃ rest, (m.code 0).takeWhile isLeading ++ rest = m.code 0 :=
      List.takeWhile_prefix isLeading
    have hop : ∀ {i ir}, ((m.code 0).takeWhile isLeading)[i]? = some ir →
        m.op? (0, i) = some ir := by
      intro i ir h
      unfold op?
      rw [← hcode, List.getElem?_append_left (List.getElem?_eq_some_iff.mp h).1]
      exact h
    have hpre : ∀ i ≤ d, ∃ ir, m.op? (0, i) = some ir ∧ isLeading ir = true := by
      intro i hi
      have hi' : i < ((m.code 0).takeWhile isLeading).length :=
        Nat.lt_of_le_of_lt hi (List.getElem?_eq_some_iff.mp hd).1
      refine ⟨_, hop (List.getElem?_eq_getElem hi'), ?_⟩
      exact List.all_eq_true.mp List.all_takeWhile _ (List.getElem_mem hi')
    -- until `v` is written, control is still in the leading run
    have hrun : ∀ {y}, m.ReachesWithout v entryPoint y → ∃ i ≤ d, y = (0, i) := by
      intro y hy
      induction hy with
      | refl => exact ⟨0, Nat.zero_le _, rfl⟩
      | tail _ hstep ih =>
        obtain ⟨i, hi, rfl⟩ := ih
        obtain ⟨ir, hir, hlead⟩ := hpre i hi
        obtain ⟨hstep, hnw⟩ := hstep
        cases hstep with
        | next h hnt h' =>
          refine ⟨i + 1, ?_, rfl⟩
          rcases Nat.lt_or_ge i d with hlt | hge
          · exact hlt
          · obtain rfl : i = d := Nat.le_antisymm hi hge
            exact absurd ⟨⟨ir0, hop hd, hdef⟩, rfl⟩ hnw
        | branch h ht h' =>
          rw [hir] at h
          cases h
          rw [(leading_falls_through hlead).1] at ht
          cases ht
    intro hreach
    obtain ⟨i, hi, rfl⟩ := hrun hreach
    obtain ⟨ir, hir, hlead⟩ := hpre i hi
    obtain ⟨ir', hir', hsp'⟩ := hsp
    rw [hir] at hir'
    cases hir'
    rw [(leading_falls_through hlead).2] at hsp'
    cases hsp'

theorem nilFilled_iff {iv : LiveInterval} : m.nilFilled iv = true ↔
    (m.Recorded iv.vreg ∨ (iv.isOop = true ∧ m.multiDef iv.vreg = true ∧
      ∃ sp ∈ m.safepointPositions, iv.start < sp ∧ sp < iv.stop)) ∧
    iv.vreg ∉ m.entryEarlyDefs := by
  unfold nilFilled
  rw [Bool.and_eq_true, Bool.or_eq_true, List.contains_iff_mem, mem_extraOopLive_fst,
    Bool.and_eq_true, Bool.and_eq_true, List.any_eq_true, Bool.not_eq_true',
    ← Bool.not_eq_true, List.contains_iff_mem, and_assoc]
  simp only [Bool.and_eq_true, decide_eq_true_eq]

theorem ReachesWithout.of_slot {result : RegallocResult} {s : Nat} {iv : LiveInterval} {x : Point}
    (hiv : iv ∈ result.intervals) (hs : iv.assignment = some (.spill s))
    (h : Relation.ReflTransGen (fun a b => m.Step a b ∧ ¬ m.WritesSlot result s a b)
      entryPoint x) : m.ReachesWithout iv.vreg entryPoint x := by
  induction h with
  | refl => exact .refl
  | tail _ hstep ih =>
    exact ih.tail ⟨hstep.1, fun hw => hstep.2 ⟨iv, hiv, hs, hw⟩⟩

theorem mapsInitialised_of_writtenInside {result : RegallocResult}
    (halloc : Allocated m result.intervals) (hextra : result.extraOopLive = m.extraOopLive)
    (hnil : ∀ s, s ∈ result.deoptNilInitSlots ↔
      ∃ iv ∈ result.intervals, m.nilFilled iv = true ∧ iv.assignment = some (.spill s))
    (h : m.WrittenInside) : m.MapsInitialised result := by
  rintro x hsp s hs ⟨hnofill, hpath⟩
  obtain ⟨iv, hiv, hoop, hslot, hmark⟩ := mem_buildForPosition.mp hs
  have hreach := ReachesWithout.of_slot hiv hslot hpath
  have hd := halloc.each iv hiv
  have hearly : iv.vreg ∉ m.entryEarlyDefs := fun hv => early_written hv hsp hreach
  have hnotfilled : ¬ m.nilFilled iv = true := fun hf => hnofill ((hnil s).mpr ⟨iv, hiv, hf, hslot⟩)
  rw [nilFilled_iff] at hnotfilled
  have hrec : ¬ m.Recorded iv.vreg := fun hr => hnotfilled ⟨Or.inl hr, hearly⟩
  obtain ⟨ir, hop, hir⟩ := hsp
  rcases hmark with ⟨hlt, hgt⟩ | hfact
  · have hmulti : m.multiDef iv.vreg = false := by
      rw [Bool.eq_false_iff]
      intro hmd
      exact hnotfilled ⟨Or.inr ⟨hoop, hmd, _, mem_safepointPositions hop hir, hlt, hgt⟩, hearly⟩
    exact h iv.vreg x ⟨hd.kept, hd.isOop_iff.mp hoop, hrec, hmulti, hearly⟩ ⟨ir, hop, hir⟩
      ((hd.start _).mp hlt) ((hd.stop _).mp hgt) hreach
  · -- an exact fact is about a recorded vreg
    rw [hextra] at hfact
    exact hrec (mem_extraOopLive_fst.mp (List.mem_map.mpr ⟨_, hfact, rfl⟩))

theorem writtenInside_of_mapsInitialised {result : RegallocResult}
    (halloc : Allocated m result.intervals)
    (hnil : ∀ s, s ∈ result.deoptNilInitSlots ↔
      ∃ iv ∈ result.intervals, m.nilFilled iv = true ∧ iv.assignment = some (.spill s))
    (hlen : m.vregs.length ≤ 65536) (h : m.MapsInitialised result) : m.WrittenInside := by
  rintro v x ⟨hkept, hoop, hrec, hmulti, hearly⟩ hsp hbegins hheld hreach
  obtain ⟨iv, hiv, rfl⟩ := halloc.all v hkept
  have hd := halloc.each iv hiv
  have hstart := (hd.start _).mpr hbegins
  have hstop := (hd.stop _).mpr hheld
  obtain ⟨ir, hop, hir⟩ := hsp
  obtain ⟨s, hs⟩ := halloc.crossing iv hiv
    (hd.crosses _ (mem_safepointPositions hop hir) (Nat.le_of_lt hstart) hstop)
  -- nobody else lives in the slot
  have howner : ∀ iv' ∈ result.intervals, iv'.assignment = some (.spill s) →
      iv'.vreg = iv.vreg := fun iv' hiv' hs' => halloc.slots hlen iv' hiv' iv hiv s hs' hs
  refine h x ⟨ir, hop, hir⟩ s (mem_buildForPosition.mpr
    ⟨iv, hiv, hd.isOop_iff.mpr hoop, hs, Or.inl ⟨hstart, hstop⟩⟩) ⟨?_, ?_⟩
  · intro hfill
    obtain ⟨iv', hiv', hf, hs'⟩ := (hnil s).mp hfill
    obtain ⟨hwhy, -⟩ := nilFilled_iff.mp hf
    rw [howner iv' hiv' hs'] at hwhy
    rcases hwhy with hr | ⟨-, hmd, -⟩
    · exact hrec hr
    · rw [hmulti] at hmd
      cases hmd
  · refine Relation.ReflTransGen.mono ?_ _ _ hreach
    rintro a b ⟨hstep, hnw⟩
    refine ⟨hstep, ?_⟩
    rintro ⟨iv', hiv', hs', hw⟩
    rw [howner iv' hiv' hs'] at hw
    exact hnw hw

/-- The maps of a method mark written slots only, exactly when the vregs that the prologue
leaves to their definition are written inside their intervals. -/
theorem maps_initialised_iff (m : IrMethod) (rf : RegFile) :
    ∃ result, m.regalloc rf = some result ∧ (m.WrittenInside → m.MapsInitialised result) ∧
      (m.vregs.length ≤ 65536 → m.MapsInitialised result → m.WrittenInside) := by
  obtain ⟨result, hres, halloc, -, hextra, hnil⟩ := regalloc_spec m rf
  exact ⟨result, hres, mapsInitialised_of_writtenInside halloc hextra hnil,
    writtenInside_of_mapsInitialised halloc hnil⟩

theorem pollingLoop_maps_initialised :
    ∃ result, pollingLoop.regalloc .x64 = some result ∧ pollingLoop.MapsInitialised result := by
  obtain ⟨result, hres, h, -⟩ := maps_initialised_iff pollingLoop .x64
  refine ⟨result, hres, h ?_⟩
  rintro v x ⟨⟨hlt, -⟩, -, -, -, hearly⟩ _ _ _
  obtain rfl : v = 0 := Nat.lt_one_iff.mp hlt
  exact absurd (by decide) hearly

/-- A method whose vreg 1 is defined and used on one arm only. In reverse postorder the send
of block 4, which both arms reach, lies between the definition and the use. -/
def siblingArms : IrMethod where
  isOsr := false
  blocks := [⟨[.param 0, .boolBr 0 1 2 5], []⟩, ⟨[.constPool 1, .boolBr 0 3 4 5], []⟩,
    ⟨[.jump 4], []⟩, ⟨[.ret 1], []⟩, ⟨[.callRuntime none [], .retSelf], []⟩, ⟨[.bailout], []⟩]
  vregs := [⟨true, false⟩, ⟨true, false⟩]
  argc := 0
  ntemps := 0
  blockClosureVreg := none
  ctxVregs := []
  methodCtxVreg := none
  entry_lt := by decide
  targets_lt := by decide
  terminated := fun block h => terminated_of_last (by revert block; decide)
  vregs_lt := by decide

/-- The other arm reaches the send with the slot of vreg 1 marked and never written. -/
theorem siblingArms_marks_unwritten :
    siblingArms.Reducible ∧ siblingArms.DefinedBeforeUse ∧
      ∃ result, siblingArms.regalloc .x64 = some result ∧ ¬ siblingArms.MapsInitialised result := by
  refine ⟨reducible_of_ranks (fun b => [0, 1, 1, 2, 2, 3].getD b 0) (by decide),
    definedBeforeUse_of_certifies (fun b => [[], [0], [0], [0, 1], [0], [0]].getD b []) (by decide),
    ?_⟩
  obtain ⟨result, hres, halloc, -, -, hnil⟩ := regalloc_spec siblingArms .x64
  refine ⟨result, hres, fun hinit => ?_⟩
  have hrange : siblingArms.range 1 = some (3, 8) := by decide
  obtain ⟨hstart, hstop⟩ := range_spec hrange
  have hunrec : ¬ siblingArms.Recorded 1 := by
    rw [← mem_extraOopLive_fst]
    decide
  have hleft : siblingArms.LeftToItsDef 1 :=
    ⟨kept_iff.mpr ⟨by decide, _, hrange⟩, ⟨_, rfl, rfl⟩, hunrec, by decide, by decide⟩
  refine writtenInside_of_mapsInitialised halloc hnil (by decide) hinit 1 (4, 0) hleft
    ⟨_, rfl, rfl⟩ ((hstart _).mp (by decide)) (Or.inl (Or.inl ((hstop _).mp (by decide)))) ?_
  -- entry, the branch to block 2, its jump to block 4
  have hquiet : ∀ {b i : Nat} {ir : Ir}, siblingArms.op? (b, i) = some ir → 1 ∉ ir.defs →
      ∀ y, ¬ siblingArms.Writes 1 (b, i) y := by
    rintro b i ir hop hnd y ⟨⟨ir', hop', hd⟩, -⟩
    rw [hop] at hop'
    cases hop'
    exact hnd hd
  refine ((Relation.ReflTransGen.single (b := (0, 1)) ⟨.next rfl rfl rfl, ?_⟩).tail (c := (2, 0))
    ⟨.branch (b := 0) (i := 1) rfl (by decide) rfl, ?_⟩).tail
    ⟨.branch (b := 2) (i := 0) rfl (by decide) rfl, ?_⟩
  · exact hquiet rfl (by decide) _
  · exact hquiet rfl (by decide) _
  · exact hquiet rfl (by decide) _

end IrMethod

end WinVm.Compiler
