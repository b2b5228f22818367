import WinVm.Compiler.Linear

/-!
# Live intervals

What the intervals of `compute_intervals` mean for the program. `Spans m v q` says without an
algorithm which positions the interval of `v` covers: those from its first mention to its last
use, and every loop range that holds one of them while another lies outside of it.

Results:

* `spans_iff`: the widened range of `v` is the set `Spans m v`;
* `live_spans`, `live_after_spans`: in a method whose uses are all defined, the span of a vreg
  covers every reachable point it is live at, and strictly surrounds every reachable operation
  it is live across;
* `range_spec`, `pinned_spec`: where the final intervals begin and end.
-/

namespace WinVm.Compiler.IrMethod

open WinVm.Lib

/-! ## Mentions -/

section Mentions

variable {v : VReg}

theorem foldl_noteUse (q : Nat) (us : List VReg) (r : Ranges) :
    us.foldl (noteUse q) r v =
      if v ∈ us then some (match r v with | none => (q, q) | some (s, e) => (s, max e q))
      else r v := by
  induction us generalizing r with
  | nil => simp
  | cons u us ih =>
    rw [List.foldl_cons, ih]
    rcases eq_or_ne v u with rfl | hne
    · simp only [noteUse, Function.update_self, List.mem_cons, true_or, if_true]
      cases r v with
      | none => simp
      | some iv => simp
    · simp only [noteUse, Function.update_of_ne hne, List.mem_cons, hne, false_or]

theorem foldl_noteDef (q : Nat) (ds : List VReg) (r : Ranges) :
    ds.foldl (noteDef q) r v =
      if v ∈ ds then some (match r v with | none => (q, q) | some (s, e) => (min s q, e))
      else r v := by
  induction ds generalizing r with
  | nil => simp
  | cons u ds ih =>
    rw [List.foldl_cons, ih]
    rcases eq_or_ne v u with rfl | hne
    · simp only [noteDef, Function.update_self, List.mem_cons, true_or, if_true]
      cases r v with
      | none => simp
      | some iv => simp
    · simp only [noteDef, Function.update_of_ne hne, List.mem_cons, hne, false_or]

/-- What the range of `v` says about the operations seen so far. -/
def Tracks (v : VReg) (seen : List ((Point × Ir) × Nat)) : Option (Nat × Nat) → Prop
  | none => ∀ x ∈ seen, v ∉ x.1.2.uses ∧ v ∉ x.1.2.defs
  | some (s, e) =>
    s ≤ e ∧ (∃ x ∈ seen, x.2 = s ∧ (v ∈ x.1.2.uses ∨ v ∈ x.1.2.defs)) ∧
      (∀ x ∈ seen, v ∈ x.1.2.uses ∨ v ∈ x.1.2.defs → s ≤ x.2) ∧
      (∀ x ∈ seen, v ∈ x.1.2.uses → x.2 ≤ e) ∧
      (e = s ∨ ∃ x ∈ seen, x.2 = e ∧ v ∈ x.1.2.uses)

theorem Tracks.noteOp {seen : List ((Point × Ir) × Nat)} {r : Ranges}
    {x : (Point × Ir) × Nat} (h : Tracks v seen (r v)) (hle : ∀ y ∈ seen, y.2 ≤ x.2) :
    Tracks v (seen ++ [x]) (noteOp r x v) := by
  unfold IrMethod.noteOp
  rw [foldl_noteDef, foldl_noteUse]
  cases hr : r v with
  | none =>
    rw [hr] at h
    by_cases hu : v ∈ x.1.2.uses
    · -- first mentioned here, by a use
      have hfirst : Tracks v (seen ++ [x]) (some (x.2, x.2)) := by
        refine ⟨Nat.le_refl _, ⟨x, by simp, rfl, Or.inl hu⟩, ?_, ?_, Or.inl rfl⟩
        · intro y hy hm
          rcases List.mem_append.mp hy with hy | hy
          · exact absurd hm (not_or.mpr (h y hy))
          · rw [List.mem_singleton.mp hy]
        · intro y hy hm
          rcases List.mem_append.mp hy with hy | hy
          · exact absurd hm (h y hy).1
          · rw [List.mem_singleton.mp hy]
      by_cases hd : v ∈ x.1.2.defs
      · simpa [hu, hd] using hfirst
      · simpa [hu, hd] using hfirst
    · by_cases hd : v ∈ x.1.2.defs
      · simp only [hu, hd, if_true, if_false]
        refine ⟨Nat.le_refl _, ⟨x, by simp, rfl, Or.inr hd⟩, ?_, ?_, Or.inl rfl⟩
        · intro y hy hm
          rcases List.mem_append.mp hy with hy | hy
          · exact absurd hm (not_or.mpr (h y hy))
          · rw [List.mem_singleton.mp hy]
        · intro y hy hm
          rcases List.mem_append.mp hy with hy | hy
          · exact absurd hm (h y hy).1
          · rw [List.mem_singleton.mp hy]
      · simp only [hu, hd, if_false]
        intro y hy
        rcases List.mem_append.mp hy with hy | hy
        · exact h y hy
        · rw [List.mem_singleton.mp hy]
          exact ⟨hu, hd⟩
  | some iv =>
    obtain ⟨s, e⟩ := iv
    rw [hr] at h
    obtain ⟨hse, ⟨y0, hy0, hy0s, hy0m⟩, hfirst, hlast, hend⟩ := h
    have hsx : s ≤ x.2 := hy0s ▸ hle y0 hy0
    -- a definition does not move the start below what was seen
    have hmin : min s x.2 = s := Nat.min_eq_left hsx
    have hall : ∀ y ∈ seen ++ [x], v ∈ y.1.2.uses ∨ v ∈ y.1.2.defs → s ≤ y.2 := by
      intro y hy hm
      rcases List.mem_append.mp hy with hy | hy
      · exact hfirst y hy hm
      · rw [List.mem_singleton.mp hy]
        exact hsx
    have key : Tracks v (seen ++ [x]) (some (s, if v ∈ x.1.2.uses then max e x.2 else e)) := by
      refine ⟨?_, ⟨y0, List.mem_append_left _ hy0, hy0s, hy0m⟩, hall, ?_, ?_⟩
      · split
        · omega
        · exact hse
      · intro y hy hm
        rcases List.mem_append.mp hy with hy | hy
        · have := hlast y hy hm
          split
          · omega
          · exact this
        · rw [List.mem_singleton.mp hy] at hm ⊢
          rw [if_pos hm]
          exact Nat.le_max_right _ _
      · split
        · rename_i hu
          rcases Nat.le_total e x.2 with hex | hxe
          · exact Or.inr ⟨x, by simp, (Nat.max_eq_right hex).symm, hu⟩
          · rw [Nat.max_eq_left hxe]
            rcases hend with hend | ⟨y, hy, hye, hyu⟩
            · exact Or.inl hend
            · exact Or.inr ⟨y, List.mem_append_left _ hy, hye, hyu⟩
        · rcases hend with hend | ⟨y, hy, hye, hyu⟩
          · exact Or.inl hend
          · exact Or.inr ⟨y, List.mem_append_left _ hy, hye, hyu⟩
    by_cases hu : v ∈ x.1.2.uses
    · by_cases hd : v ∈ x.1.2.defs
      · simpa [hu, hd, hmin] using key
      · simpa [hu, hd] using key
    · by_cases hd : v ∈ x.1.2.defs
      · simpa [hu, hd, hmin] using key
      · simpa [hu, hd] using key

theorem tracks_foldl (l : List (Point × Ir)) (k : Nat) (seen : List ((Point × Ir) × Nat))
    (r : Ranges) (h : Tracks v seen (r v)) (hle : ∀ y ∈ seen, y.2 ≤ k) :
    Tracks v (seen ++ l.zipIdx k) ((l.zipIdx k).foldl noteOp r v) := by
  induction l generalizing k seen r with
  | nil => simpa using h
  | cons x l ih =>
    rw [List.zipIdx_cons, List.foldl_cons]
    have hstep := h.noteOp (x := (x, k)) hle
    have := ih (k + 1) (seen ++ [(x, k)]) (noteOp r (x, k)) hstep (by
      intro y hy
      rcases List.mem_append.mp hy with hy | hy
      · exact Nat.le_succ_of_le (hle y hy)
      · rw [List.mem_singleton.mp hy]
        exact Nat.le_succ k)
    simpa using this

theorem tracks_mentionRanges (m : IrMethod) (v : VReg) :
    Tracks v m.linear.zipIdx (m.mentionRanges v) := by
  have := tracks_foldl (v := v) m.linear 0 [] (fun _ => none) (by simp [Tracks]) (by simp)
  simpa [mentionRanges] using this

end Mentions

/-! ## Spans -/

variable (m : IrMethod)

def UsedAt (v : VReg) (q : Nat) : Prop := ∃ x, m.pos x = q ∧ m.Uses v x

def MentionedAt (v : VReg) (q : Nat) : Prop := ∃ x, m.pos x = q ∧ (m.Uses v x ∨ m.Defines v x)

/-- The positions from the first mention of `v` to its last use; a vreg that is never used
occupies the position of its first definition. -/
def Occupies (v : VReg) (q : Nat) : Prop :=
  ∃ a, m.MentionedAt v a ∧ a ≤ q ∧
    ((∃ b, m.UsedAt v b ∧ q ≤ b) ∨ (q = a ∧ ∀ a', m.MentionedAt v a' → a ≤ a'))

/-- The positions `v` is held over, loops included. -/
def Spans (v : VReg) : Nat → Prop := Covered m.loopRanges (m.Occupies v)

variable {m} {v : VReg}

theorem usedAt_iff {q : Nat} :
    m.UsedAt v q ↔ ∃ x ∈ m.linear.zipIdx, x.2 = q ∧ v ∈ x.1.2.uses := by
  constructor
  · rintro ⟨x, rfl, ir, hop, hu⟩
    exact ⟨((x, ir), m.pos x), mem_linear_zipIdx.mpr ⟨hop, rfl⟩, rfl, hu⟩
  · rintro ⟨⟨⟨x, ir⟩, q'⟩, hx, rfl, hu⟩
    obtain ⟨hop, hpos⟩ := mem_linear_zipIdx.mp hx
    exact ⟨x, hpos, ir, hop, hu⟩

theorem mentionedAt_iff {q : Nat} :
    m.MentionedAt v q ↔
      ∃ x ∈ m.linear.zipIdx, x.2 = q ∧ (v ∈ x.1.2.uses ∨ v ∈ x.1.2.defs) := by
  constructor
  · rintro ⟨x, rfl, ⟨ir, hop, hu⟩ | ⟨ir, hop, hd⟩⟩
    · exact ⟨((x, ir), m.pos x), mem_linear_zipIdx.mpr ⟨hop, rfl⟩, rfl, Or.inl hu⟩
    · exact ⟨((x, ir), m.pos x), mem_linear_zipIdx.mpr ⟨hop, rfl⟩, rfl, Or.inr hd⟩
  · rintro ⟨⟨⟨x, ir⟩, q'⟩, hx, rfl, hm⟩
    obtain ⟨hop, hpos⟩ := mem_linear_zipIdx.mp hx
    rcases hm with hu | hd
    · exact ⟨x, hpos, Or.inl ⟨ir, hop, hu⟩⟩
    · exact ⟨x, hpos, Or.inr ⟨ir, hop, hd⟩⟩

theorem not_mentionedAt_of_none (h : m.mentionRanges v = none) (q : Nat) :
    ¬ m.MentionedAt v q := by
  have htr := tracks_mentionRanges m v
  rw [h] at htr
  rw [mentionedAt_iff]
  rintro ⟨x, hx, -, hm⟩
  exact absurd hm (not_or.mpr (htr x hx))

/-- The range before widening is the set `Occupies`. -/
theorem occupies_iff {s e : Nat} (h : m.mentionRanges v = some (s, e)) :
    s ≤ e ∧ ∀ q, m.Occupies v q ↔ s ≤ q ∧ q ≤ e := by
  have htr := tracks_mentionRanges m v
  rw [h] at htr
  obtain ⟨hse, hstart, hfirst, hlast, hend⟩ := htr
  have hment : m.MentionedAt v s := mentionedAt_iff.mpr hstart
  have hmin : ∀ a, m.MentionedAt v a → s ≤ a := by
    intro a ha
    obtain ⟨x, hx, rfl, hm⟩ := mentionedAt_iff.mp ha
    exact hfirst x hx hm
  have hmax : ∀ b, m.UsedAt v b → b ≤ e := by
    intro b hb
    obtain ⟨x, hx, rfl, hu⟩ := usedAt_iff.mp hb
    exact hlast x hx hu
  refine ⟨hse, fun q => ⟨?_, ?_⟩⟩
  · rintro ⟨a, ha, haq, ⟨b, hb, hqb⟩ | ⟨rfl, hmin'⟩⟩
    · exact ⟨Nat.le_trans (hmin a ha) haq, Nat.le_trans hqb (hmax b hb)⟩
    · exact ⟨hmin q ha, Nat.le_trans (hmin' s hment) hse⟩
  · rintro ⟨hsq, hqe⟩
    refine ⟨s, hment, hsq, ?_⟩
    rcases hend with heq | hused
    · exact Or.inr ⟨by omega, hmin⟩
    · exact Or.inl ⟨e, usedAt_iff.mpr hused, hqe⟩

theorem spans_iff {iv : Nat × Nat} (h : m.mentionRanges v = some iv) (q : Nat) :
    m.Spans v q ↔ (widen m.loopRanges iv).1 ≤ q ∧ q ≤ (widen m.loopRanges iv).2 := by
  obtain ⟨hse, hocc⟩ := occupies_iff h
  exact mem_widen hse hocc q

theorem exists_range_of_mentioned {q : Nat} (h : m.MentionedAt v q) :
    ∃ iv, m.mentionRanges v = some iv := by
  cases hr : m.mentionRanges v with
  | none => exact absurd h (not_mentionedAt_of_none hr q)
  | some iv => exact ⟨iv, rfl⟩

/-- Every mention of `v` comes at or after some spanned position. -/
theorem exists_spans_le {q : Nat} (h : m.MentionedAt v q) : ∃ a, m.Spans v a ∧ a ≤ q := by
  obtain ⟨⟨s, e⟩, hr⟩ := exists_range_of_mentioned h
  obtain ⟨hse, hocc⟩ := occupies_iff hr
  refine ⟨s, .base ((hocc s).mpr ⟨Nat.le_refl _, hse⟩), ?_⟩
  have htr := tracks_mentionRanges m v
  rw [hr] at htr
  obtain ⟨x, hx, rfl, hm⟩ := mentionedAt_iff.mp h
  exact htr.2.2.1 x hx hm

theorem not_spans_of_none (hr : m.mentionRanges v = none) (q : Nat) : ¬ m.Spans v q := by
  intro hq
  induction hq with
  | base h =>
    obtain ⟨a, ha, -⟩ := h
    exact not_mentionedAt_of_none hr a ha
  | range _ _ _ _ _ _ ih _ => exact ih

/-- A span has no holes. -/
theorem spans_between {a b q : Nat} (ha : m.Spans v a) (hb : m.Spans v b) (haq : a ≤ q)
    (hqb : q ≤ b) : m.Spans v q := by
  cases hr : m.mentionRanges v with
  | none =>
    -- nothing is spanned by a vreg without mentions
    exact absurd ha (not_spans_of_none hr a)
  | some iv =>
    rw [spans_iff hr] at ha hb ⊢
    omega

/-! ## Liveness -/

/-- A definition of `v` at an earlier position starts its span before this one. -/
theorem exists_spans_lt {d : Point} {q : Nat} (hd : m.Defines v d) (hlt : m.pos d < q) :
    ∃ a, m.Spans v a ∧ a < q := by
  obtain ⟨a, ha, hle⟩ := exists_spans_le ⟨d, rfl, Or.inr hd⟩
  exact ⟨a, ha, Nat.lt_of_le_of_lt hle hlt⟩

/-- The span of `v` covers every reachable point at which `v` is live. -/
theorem live_spans {y z : Point} (hdef : m.DefinedBeforeUse) (hlive : m.ReachesWithout v y z)
    (huse : m.Uses v z) (hreach : m.Reaches entryPoint y) : m.Spans v (m.pos y) := by
  -- from the use backwards; every step is within the span, or jumps over a loop range
  -- that the span enters at its start
  induction hlive using Relation.ReflTransGen.head_induction_on with
  | refl =>
    obtain ⟨ir, hop, hu⟩ := huse
    obtain ⟨d, hd, hlt⟩ := exists_def_before hdef hreach hop .refl ⟨ir, hop, hu⟩
    exact .base ⟨m.pos d, ⟨d, rfl, Or.inr hd⟩, Nat.le_of_lt hlt,
      Or.inl ⟨m.pos z, ⟨z, rfl, ir, hop, hu⟩, Nat.le_refl _⟩⟩
  | @head y y' hstep hrest ih =>
    obtain ⟨ir, hop⟩ := hstep.1.op?_left
    obtain ⟨ir', hop'⟩ := hstep.1.op?_right
    have hreach' : m.Reaches entryPoint y' := hreach.tail hstep.1
    have hspan' := ih hreach'
    have hlive : m.ReachesWithout v y z := Relation.ReflTransGen.head hstep hrest
    obtain ⟨d, hd, hlt⟩ := exists_def_before hdef hreach hop hlive huse
    obtain ⟨a, ha, halt⟩ := exists_spans_lt hd hlt
    rcases step_pos hstep.1 with hfwd | ⟨hrange, hle1, hle2⟩
    · exact spans_between ha hspan' (Nat.le_of_lt halt) (Nat.le_of_lt hfwd)
    · obtain ⟨d', hd', hlt'⟩ := exists_def_before hdef hreach' hop' hrest huse
      obtain ⟨a', ha', halt'⟩ := exists_spans_lt hd' hlt'
      exact .range hrange hspan' ⟨Nat.le_refl _, Nat.le_trans hle1 hle2⟩ ha' (Or.inl halt')
        ⟨hle1, hle2⟩

/-- An operation that `v` is live across lies strictly inside the span of `v`. -/
theorem live_after_spans {x : Point} {ir : Ir} (hdef : m.DefinedBeforeUse)
    (hreach : m.Reaches entryPoint x) (hop : m.op? x = some ir) (hnt : ir.isTerminator = false)
    (hnd : ¬ m.Defines v x) (hlive : m.LiveAfter v x) :
    (∃ a, m.Spans v a ∧ a < m.pos x) ∧ ∃ b, m.Spans v b ∧ m.pos x < b := by
  obtain ⟨y, z, hstep, hrest, huse⟩ := hlive
  obtain ⟨ir', hop'⟩ := hstep.op?_right
  have hreach' : m.Reaches entryPoint y := hreach.tail hstep
  have hlive : m.ReachesWithout v x z := Relation.ReflTransGen.head ⟨hstep, fun h => hnd h.1⟩ hrest
  obtain ⟨d, hd, hlt⟩ := exists_def_before hdef hreach hop hlive huse
  refine ⟨exists_spans_lt hd hlt, ?_⟩
  have hspan' := live_spans hdef hrest huse hreach'
  rcases step_pos hstep with hfwd | ⟨hrange, hle1, hle2⟩
  · exact ⟨m.pos y, hspan', hfwd⟩
  · -- back over a loop range: its last position is past `x`, and spanned
    obtain ⟨d', hd', hlt'⟩ := exists_def_before hdef hreach' hop' hrest huse
    obtain ⟨a', ha', halt'⟩ := exists_spans_lt hd' hlt'
    have hend := lt_blockEnd hop hnt
    refine ⟨m.blockEnd x.1, .range hrange hspan' ⟨Nat.le_refl _, Nat.le_trans hle1 hle2⟩ ha'
      (Or.inl halt') ⟨Nat.le_trans hle1 hle2, Nat.le_refl _⟩, hend⟩

/-! ## Where intervals begin and end -/

variable (m)

/-- A deoptimisation site stands at the operation of position `q`. -/
def SiteAt (q : Nat) : Prop := ∃ x ir, m.op? x = some ir ∧ m.sitesAt x ≠ [] ∧ m.pos x = q

/-- `v` is among the values recorded for some deoptimisation. -/
def Recorded (v : VReg) : Prop := ∃ x ir, m.op? x = some ir ∧ v ∈ m.recordedAt x

/-- The interval of `v` begins before `p`; without any mention it begins at 0. -/
def BeginsBefore (v : VReg) (p : Nat) : Prop :=
  (∃ a, m.Spans v a ∧ a < p) ∨ ((∀ q, ¬ m.MentionedAt v q) ∧ 0 < p)

/-- The interval of `v` as `compute_intervals` leaves it ends after `p`: its span does, or `v`
is a promoted context temp and a deoptimisation site stands at `p` or later. -/
def EndsAfter (v : VReg) (p : Nat) : Prop :=
  (∃ b, m.Spans v b ∧ p < b) ∨ (v ∈ m.ctxVregs ∧ ∃ q, m.SiteAt q ∧ p ≤ q)

/-- `v` has an interval: it is mentioned, or a deoptimisation names it. -/
def Kept (v : VReg) : Prop :=
  v < m.vregs.length ∧ ((∃ q, m.MentionedAt v q) ∨ m.Recorded v ∨
    (v ∈ m.ctxVregs ∧ ∃ q, m.SiteAt q))

/-- The same once a vreg is pinned two positions past the last end. -/
def PinnedAfter (pinned : Option VReg) (endsAfter : VReg → Nat → Prop) (v : VReg) (p : Nat) :
    Prop :=
  endsAfter v p ∨ pinned = some v ∧ (p < 2 ∨ ∃ w, m.Kept w ∧ endsAfter w (p - 2))

/-- The final interval of `v` ends after `p`. -/
def HeldAfter : VReg → Nat → Prop :=
  m.PinnedAfter m.methodCtxVreg (m.PinnedAfter m.blockClosureVreg m.EndsAfter)

variable {m}

theorem foldl_widenCtx (facts : List Nat) (s e : Nat) :
    ∃ e', facts.foldl widenCtx (some (s, e)) = some (s, e') ∧
      ∀ p, p < e' ↔ p < e ∨ ∃ sp ∈ facts, p ≤ sp := by
  induction facts generalizing e with
  | nil => exact ⟨e, rfl, by simp⟩
  | cons sp facts ih =>
    obtain ⟨e', heq, hlt⟩ := ih (if e ≤ sp then sp + 1 else e)
    refine ⟨e', heq, ?_⟩
    intro p
    rw [hlt]
    have hmax : (p < if e ≤ sp then sp + 1 else e) ↔ p < e ∨ p ≤ sp := by
      split
      · omega
      · omega
    rw [hmax]
    simp only [List.mem_cons, exists_eq_or_imp, or_assoc]

/-- The context facts of `v` are the positions of the deoptimisation sites. -/
theorem mem_ctxFacts {p : Nat} : (v, p) ∈ m.ctxFacts ↔ v ∈ m.ctxVregs ∧ m.SiteAt p := by
  unfold ctxFacts
  constructor
  · intro h
    obtain ⟨⟨⟨x, ir⟩, q⟩, hx, hmem⟩ := List.mem_flatMap.mp h
    obtain ⟨hop, hpos⟩ := mem_linear_zipIdx.mp hx
    simp only at hmem
    split at hmem
    · cases hmem
    · rename_i hne
      obtain ⟨cv, hcv, heq⟩ := List.mem_map.mp hmem
      cases heq
      exact ⟨hcv, x, ir, hop, by simpa using hne, hpos⟩
  · rintro ⟨hv, x, ir, hop, hne, hpos⟩
    refine List.mem_flatMap.mpr ⟨((x, ir), p), mem_linear_zipIdx.mpr ⟨hop, hpos⟩, ?_⟩
    rw [if_neg (by simpa using hne)]
    exact List.mem_map.mpr ⟨v, hv, rfl⟩

theorem mem_ctxPositions {p : Nat} :
    p ∈ (m.ctxFacts.filterMap fun f => if f.1 = v then some f.2 else none) ↔
      v ∈ m.ctxVregs ∧ m.SiteAt p := by
  rw [← mem_ctxFacts]
  constructor
  · intro h
    obtain ⟨⟨u, q⟩, hmem, heq⟩ := List.mem_filterMap.mp h
    simp only at heq
    split at heq
    · rename_i hu
      cases heq
      exact hu ▸ hmem
    · cases heq
  · intro h
    exact List.mem_filterMap.mpr ⟨(v, p), h, by simp⟩

/-- The range of a vreg, by what comes before its start and before its end. -/
theorem range_spec {s e : Nat} (h : m.range v = some (s, e)) :
    (∀ p, s < p ↔ m.BeginsBefore v p) ∧ (∀ p, p < e ↔ m.EndsAfter v p) := by
  have hfacts : ∀ p, (∃ sp ∈ (m.ctxFacts.filterMap fun f => if f.1 = v then some f.2 else none),
      p ≤ sp) ↔ v ∈ m.ctxVregs ∧ ∃ q, m.SiteAt q ∧ p ≤ q := by
    intro p
    constructor
    · rintro ⟨sp, hsp, hle⟩
      obtain ⟨hv, hsite⟩ := mem_ctxPositions.mp hsp
      exact ⟨hv, sp, hsite, hle⟩
    · rintro ⟨hv, sp, hsite, hle⟩
      exact ⟨sp, mem_ctxPositions.mpr ⟨hv, hsite⟩, hle⟩
  unfold range at h
  simp only at h
  generalize (m.ctxFacts.filterMap fun f => if f.1 = v then some f.2 else none) = facts at h hfacts
  cases hr : m.mentionRanges v with
  | some iv =>
    obtain ⟨e', heq, hlt⟩ :=
      foldl_widenCtx facts (widen m.loopRanges iv).1 (widen m.loopRanges iv).2
    rw [hr, Option.map_some, heq] at h
    cases h
    have hspans := spans_iff hr
    have hle : (widen m.loopRanges iv).1 ≤ (widen m.loopRanges iv).2 := by
      have := widen_extends m.loopRanges iv
      have := (occupies_iff hr).1
      omega
    refine ⟨fun p => ⟨?_, ?_⟩, fun p => ?_⟩
    · intro hp
      exact Or.inl ⟨_, (hspans _).mpr ⟨Nat.le_refl _, hle⟩, hp⟩
    · rintro (⟨a, ha, hlt⟩ | ⟨hnone, -⟩)
      · exact Nat.lt_of_le_of_lt ((hspans a).mp ha).1 hlt
      · have htr := tracks_mentionRanges m v
        rw [hr] at htr
        exact absurd (mentionedAt_iff.mpr htr.2.1) (hnone _)
    · rw [hlt, hfacts]
      refine or_congr ⟨?_, ?_⟩ Iff.rfl
      · intro hp
        exact ⟨_, (hspans _).mpr ⟨hle, Nat.le_refl _⟩, hp⟩
      · rintro ⟨b, hb, hlt⟩
        exact Nat.lt_of_lt_of_le hlt ((hspans b).mp hb).2
  | none =>
    -- never mentioned: the interval begins at 0 and only context facts extend it
    have hbegins : ∀ p, 0 < p ↔ m.BeginsBefore v p := by
      intro p
      constructor
      · intro hp
        exact Or.inr ⟨not_mentionedAt_of_none hr, hp⟩
      · rintro (⟨a, ha, -⟩ | ⟨-, hp⟩)
        · exact absurd ha (not_spans_of_none hr a)
        · exact hp
    have hends : ∀ p, m.EndsAfter v p ↔ ∃ sp ∈ facts, p ≤ sp := by
      intro p
      rw [hfacts]
      constructor
      · rintro (⟨b, hb, -⟩ | hctx)
        · exact absurd hb (not_spans_of_none hr b)
        · exact hctx
      · exact Or.inr
    rw [hr, Option.map_none] at h
    cases facts with
    | nil =>
      simp only [List.foldl_nil] at h
      split at h
      · cases h
        exact ⟨hbegins, fun p => by rw [hends]; simp⟩
      · cases h
    | cons sp facts =>
      obtain ⟨e', heq, hlt⟩ := foldl_widenCtx facts 0 (sp + 1)
      rw [List.foldl_cons] at h
      simp only [widenCtx] at h
      rw [heq] at h
      cases h
      refine ⟨hbegins, fun p => ?_⟩
      rw [hlt, hends]
      simp only [List.mem_cons, exists_eq_or_imp]
      exact or_congr Nat.lt_succ_iff Iff.rfl

/-! ## The list of intervals -/

theorem mentioned_lt {q : Nat} (h : m.MentionedAt v q) : v < m.vregs.length := by
  have hlt : ∀ {x ir}, m.op? x = some ir → v ∈ ir.uses ++ ir.defs → v < m.vregs.length := by
    intro x ir hop hv
    obtain ⟨block, hblock, -, hcode⟩ := mem_blocks_of_code hop
    exact m.vregs_lt block hblock ir (List.mem_of_getElem? hcode) v hv
  obtain ⟨x, -, ⟨ir, hop, hu⟩ | ⟨ir, hop, hd⟩⟩ := h
  · exact hlt hop (List.mem_append_left _ hu)
  · exact hlt hop (List.mem_append_right _ hd)

/-- The loop-carried facts are about vregs that have a fact already. -/
theorem mem_extraOopLive_fst : v ∈ m.extraOopLive.map Prod.fst ↔ m.Recorded v := by
  have hrec : ∀ {p}, (v, p) ∈ m.recordedFacts → m.Recorded v := by
    intro p hmem
    obtain ⟨⟨⟨x, ir⟩, q⟩, hx, hmem⟩ := List.mem_flatMap.mp hmem
    obtain ⟨hop, -⟩ := mem_linear_zipIdx.mp hx
    obtain ⟨u, hu, hmem⟩ := List.mem_flatMap.mp hmem
    have huv : v = u := by
      rcases List.mem_cons.mp hmem with heq | hmem
      · exact congrArg Prod.fst heq
      · obtain ⟨sp, -, heq⟩ := List.mem_map.mp hmem
        exact (congrArg Prod.fst heq).symm
    exact ⟨x, ir, hop, huv ▸ hu⟩
  constructor
  · intro h
    obtain ⟨⟨u, p⟩, hmem, rfl⟩ := List.mem_map.mp h
    rcases List.mem_append.mp hmem with hmem | hmem
    · exact hrec hmem
    · obtain ⟨⟨u', p'⟩, hmem', hin⟩ := List.mem_flatMap.mp hmem
      -- whichever loop range adds the fact, it is a fact about the same vreg
      simp only at hin
      split at hin
      · cases hin
      · split at hin
        · cases hin
        · obtain ⟨⟨ls, le⟩, -, hin⟩ := List.mem_flatMap.mp hin
          simp only at hin
          split at hin
          · obtain ⟨sp, -, heq⟩ := List.mem_map.mp hin
            cases heq
            exact hrec hmem'
          · cases hin
  · rintro ⟨x, ir, hop, hv⟩
    refine List.mem_map.mpr ⟨(v, m.pos x), List.mem_append_left _ ?_, rfl⟩
    refine List.mem_flatMap.mpr ⟨((x, ir), m.pos x), mem_linear_zipIdx.mpr ⟨hop, rfl⟩, ?_⟩
    exact List.mem_flatMap.mpr ⟨v, hv, List.mem_cons_self⟩

theorem deoptReferenced_iff :
    m.deoptReferenced v = true ↔ m.Recorded v ∨ (v ∈ m.ctxVregs ∧ ∃ q, m.SiteAt q) := by
  unfold deoptReferenced
  rw [Bool.or_eq_true, List.contains_iff_mem, List.contains_iff_mem, mem_extraOopLive_fst]
  refine or_congr Iff.rfl ⟨?_, ?_⟩
  · intro h
    obtain ⟨⟨u, p⟩, hmem, rfl⟩ := List.mem_map.mp h
    obtain ⟨hv, hsite⟩ := mem_ctxFacts.mp hmem
    exact ⟨hv, p, hsite⟩
  · rintro ⟨hv, q, hsite⟩
    exact List.mem_map.mpr ⟨(v, q), mem_ctxFacts.mpr ⟨hv, hsite⟩, rfl⟩

theorem kept_iff : m.Kept v ↔ v < m.vregs.length ∧ ∃ r, m.range v = some r := by
  unfold Kept
  refine and_congr Iff.rfl ?_
  rw [← deoptReferenced_iff]
  have hctx : ∀ r, (∃ iv, r = some iv) →
      ∀ facts : List Nat, ∃ iv, facts.foldl widenCtx r = some iv := by
    rintro _ ⟨⟨s, e⟩, rfl⟩ facts
    obtain ⟨e', heq, -⟩ := foldl_widenCtx facts s e
    exact ⟨_, heq⟩
  unfold range
  simp only
  cases hr : m.mentionRanges v with
  | some iv =>
    obtain ⟨iv', heq⟩ := hctx (some (widen m.loopRanges iv)) ⟨_, rfl⟩
      (m.ctxFacts.filterMap fun f => if f.1 = v then some f.2 else none)
    rw [Option.map_some, heq]
    have htr := tracks_mentionRanges m v
    rw [hr] at htr
    exact iff_of_true (Or.inl ⟨_, mentionedAt_iff.mpr htr.2.1⟩) ⟨_, rfl⟩
  | none =>
    have hnone : ¬ ∃ q, m.MentionedAt v q := by
      rintro ⟨q, hq⟩
      exact not_mentionedAt_of_none hr q hq
    simp only [hnone, false_or, Option.map_none]
    split
    · rename_i r heq
      refine iff_of_true ?_ ⟨_, rfl⟩
      -- only a context fact gives a range to a vreg without mentions
      cases hfacts : (m.ctxFacts.filterMap fun f => if f.1 = v then some f.2 else none) with
      | nil =>
        rw [hfacts] at heq
        cases heq
      | cons sp facts =>
        have hsp := mem_ctxPositions.mp (hfacts ▸ List.mem_cons_self)
        exact deoptReferenced_iff.mpr (Or.inr ⟨hsp.1, sp, hsp.2⟩)
    · split
      · rename_i href
        exact iff_of_true href ⟨_, rfl⟩
      · rename_i href
        refine iff_of_false href ?_
        rintro ⟨r, hr⟩
        cases hr

variable (m) in
/-- What an interval says about its vreg, given which positions come before its end. -/
structure Describes (endsAfter : VReg → Nat → Prop) (iv : LiveInterval) : Prop where
  info : m.vregs[iv.vreg]? = some ⟨iv.isOop, iv.isFp⟩
  kept : m.Kept iv.vreg
  start : ∀ p, iv.start < p ↔ m.BeginsBefore iv.vreg p
  stop : ∀ p, p < iv.stop ↔ endsAfter iv.vreg p
  recorded : m.Recorded iv.vreg → iv.crossesSafepoint = true
  crosses : ∀ p ∈ m.safepointPositions, iv.start ≤ p → p < iv.stop → iv.crossesSafepoint = true

variable (m) in
/-- One interval for every vreg that is kept. -/
structure DescribesAll (endsAfter : VReg → Nat → Prop) (ivs : List LiveInterval) : Prop where
  each : ∀ iv ∈ ivs, m.Describes endsAfter iv
  nodup : (ivs.map LiveInterval.vreg).Nodup
  all : ∀ v, m.Kept v → ∃ iv ∈ ivs, iv.vreg = v
  unassigned : ∀ iv ∈ ivs, iv.assignment = none

variable (m) in
theorem computeIntervals_describesAll : m.DescribesAll m.EndsAfter m.computeIntervals := by
  constructor
  · intro iv h
    unfold computeIntervals at h
    obtain ⟨⟨info, v⟩, hmem, heq⟩ := List.mem_filterMap.mp h
    have hget : m.vregs[v]? = some info := List.mem_zipIdx_iff_getElem?.mp hmem
    obtain ⟨⟨s, e⟩, hrange, rfl⟩ := Option.map_eq_some_iff.mp heq
    obtain ⟨hstart, hstop⟩ := range_spec hrange
    refine ⟨hget, ?_, hstart, hstop, ?_, ?_⟩
    · exact kept_iff.mpr ⟨(List.getElem?_eq_some_iff.mp hget).1, _, hrange⟩
    · intro hrec
      exact Bool.or_eq_true_iff.mpr (Or.inl (deoptReferenced_iff.mpr (Or.inl hrec)))
    · intro p hp h1 h2
      refine Bool.or_eq_true_iff.mpr (Or.inr (List.any_eq_true.mpr ⟨p, hp, ?_⟩))
      simp only [Bool.and_eq_true, decide_eq_true_eq]
      exact ⟨h1, h2⟩
  · -- the vregs come in the order of their table
    have hsub : (m.computeIntervals.map LiveInterval.vreg).Sublist
        (m.vregs.zipIdx.map Prod.snd) := by
      unfold computeIntervals
      generalize m.vregs.zipIdx = table
      induction table with
      | nil => exact List.Sublist.slnil
      | cons x table ih =>
        rw [List.filterMap_cons]
        split
        · exact ih.cons x.2
        · rename_i b heq
          obtain ⟨r, -, rfl⟩ := Option.map_eq_some_iff.mp heq
          exact ih.cons_cons x.2
    refine hsub.nodup ?_
    rw [List.zipIdx_map_snd]
    exact List.nodup_range'
  · intro v h
    obtain ⟨hlt, r, hrange⟩ := kept_iff.mp h
    have hget : m.vregs[v]? = some m.vregs[v] := List.getElem?_eq_getElem hlt
    unfold computeIntervals
    refine ⟨_, List.mem_filterMap.mpr ⟨(m.vregs[v], v), List.mem_zipIdx_iff_getElem?.mpr hget,
      Option.map_eq_some_iff.mpr ⟨r, hrange, rfl⟩⟩, rfl⟩
  · intro iv h
    obtain ⟨x, -, heq⟩ := List.mem_filterMap.mp h
    obtain ⟨r, -, rfl⟩ := Option.map_eq_some_iff.mp heq
    rfl

theorem lt_foldl_max (l : List Nat) (a p : Nat) : p < l.foldl max a ↔ p < a ∨ ∃ b ∈ l, p < b := by
  induction l generalizing a with
  | nil => simp
  | cons b l ih =>
    rw [List.foldl_cons, ih, lt_max_iff]
    simp only [List.mem_cons, exists_eq_or_imp, or_assoc]

theorem DescribesAll.pin {endsAfter : VReg → Nat → Prop} {ivs : List LiveInterval}
    (h : m.DescribesAll endsAfter ivs) (pinned : Option VReg) :
    m.DescribesAll (m.PinnedAfter pinned endsAfter) (pin pinned ivs) := by
  cases pinned with
  | none =>
    refine ⟨fun iv hiv => ?_, h.nodup, h.all, h.unassigned⟩
    have hd := h.each iv hiv
    refine { hd with stop := fun p => ?_ }
    rw [hd.stop]
    constructor
    · exact Or.inl
    · rintro (hp | ⟨hne, -⟩)
      · exact hp
      · cases hne
  | some cv =>
    have hlast : ∀ p, p < (ivs.map LiveInterval.stop).foldl max 0 + 2 ↔
        p < 2 ∨ ∃ w, m.Kept w ∧ endsAfter w (p - 2) := by
      intro p
      have hsplit : p < (ivs.map LiveInterval.stop).foldl max 0 + 2 ↔
          p < 2 ∨ p - 2 < (ivs.map LiveInterval.stop).foldl max 0 := by omega
      rw [hsplit, lt_foldl_max]
      refine or_congr Iff.rfl ⟨?_, ?_⟩
      · rintro (hp | ⟨b, hb, hp⟩)
        · exact absurd hp (Nat.not_lt_zero _)
        · obtain ⟨iv, hiv, rfl⟩ := List.mem_map.mp hb
          have hd := h.each iv hiv
          exact ⟨iv.vreg, hd.kept, (hd.stop _).mp hp⟩
      · rintro ⟨w, hw, hends⟩
        obtain ⟨iv, hiv, rfl⟩ := h.all w hw
        exact Or.inr ⟨iv.stop, List.mem_map.mpr ⟨iv, hiv, rfl⟩, ((h.each iv hiv).stop _).mpr hends⟩
    have hvreg : ((WinVm.Compiler.pin (some cv) ivs).map LiveInterval.vreg) = ivs.map LiveInterval.vreg := by
      unfold WinVm.Compiler.pin
      rw [List.map_map]
      refine List.map_congr_left fun iv _ => ?_
      simp only [Function.comp]
      split
      · rfl
      · rfl
    refine ⟨?_, by rw [hvreg]; exact h.nodup, ?_, ?_⟩
    · intro iv hiv
      obtain ⟨iv0, hiv0, rfl⟩ := List.mem_map.mp hiv
      have hd := h.each iv0 hiv0
      split
      · rename_i hcv
        refine ⟨hd.info, hd.kept, hd.start, fun p => ?_, fun _ => rfl, fun _ _ _ _ => rfl⟩
        rw [hlast]
        constructor
        · intro hp
          exact Or.inr ⟨by rw [← hcv], hp⟩
        · rintro (hp | ⟨-, hp⟩)
          · -- its own old end is one of the ends the pin goes past
            refine (hlast p).mp ?_
            have hlt := (hd.stop p).mpr hp
            have := (lt_foldl_max (ivs.map LiveInterval.stop) 0 p).mpr
              (Or.inr ⟨iv0.stop, List.mem_map.mpr ⟨iv0, hiv0, rfl⟩, hlt⟩)
            omega
          · exact hp
      · rename_i hcv
        refine { hd with stop := fun p => ?_ }
        rw [hd.stop]
        constructor
        · exact Or.inl
        · rintro (hp | ⟨heq, -⟩)
          · exact hp
          · exact absurd (Option.some_inj.mp heq).symm hcv
    · intro v hv
      obtain ⟨iv, hiv, rfl⟩ := h.all v hv
      have hmem : iv.vreg ∈ (WinVm.Compiler.pin (some cv) ivs).map LiveInterval.vreg := by
        rw [hvreg]
        exact List.mem_map.mpr ⟨iv, hiv, rfl⟩
      exact List.mem_map.mp hmem
    · intro iv hiv
      obtain ⟨iv0, hiv0, rfl⟩ := List.mem_map.mp hiv
      split
      · exact h.unassigned iv0 hiv0
      · exact h.unassigned iv0 hiv0

variable (m) in
theorem pinned_spec : m.DescribesAll m.HeldAfter m.pinnedIntervals :=
  (m.computeIntervals_describesAll.pin m.blockClosureVreg).pin m.methodCtxVreg

/-- A spanned position lies in the final interval. -/
theorem Describes.le_of_spans {iv : LiveInterval} (h : m.Describes m.HeldAfter iv) {q : Nat}
    (hq : m.Spans iv.vreg q) : iv.start ≤ q ∧ q ≤ iv.stop := by
  constructor
  · exact Nat.lt_succ_iff.mp ((h.start (q + 1)).mpr (Or.inl ⟨q, hq, Nat.lt_succ_self q⟩))
  · by_contra hlt
    have hends : m.HeldAfter iv.vreg iv.stop :=
      Or.inl (Or.inl (Or.inl ⟨q, hq, Nat.lt_of_not_le hlt⟩))
    exact Nat.lt_irrefl _ ((h.stop iv.stop).mpr hends)

end WinVm.Compiler.IrMethod
