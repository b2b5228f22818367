import WinVm.ImageStore.WellFormed

/-!
# The version history of a method

What is stored of a method is a window over everything the method ever was. The window moves on
with every version, as long as the version that leaves it can be deleted: `method_sends` refers to
the versions, and where foreign keys are enforced, the oldest version stays when it has edges.

Results: `version_history`, the history in every state reached by edits after which the oldest
version can be deleted; `version_history_stuck`, the edit after which it cannot.
-/

namespace WinVm.ImageStore

open WinVm.Lib Versions

/-- What names a method. -/
structure Key where
  className : String
  side : Side
  selector : String
deriving DecidableEq, Repr

namespace Image

variable (img : Image) (k : Key)

def methodId : Option Nat := img.methodIdOf k.className k.side k.selector

/-- The versions of a method that are stored, with their numbers. -/
def storedVersions : List (Nat × MethodContent) :=
  match img.methodId k with
  | none => []
  | some methodId => (img.methodVersions.of methodId).map fun v => (v.2.number, v.2.content)

/-- The content of the latest version. -/
def content : Option MethodContent :=
  ((img.methodId k).bind img.methodVersions.latestOf).map fun v => v.2.content

/-- The window is full, and an enforced foreign key refers to the version that has to leave it. -/
def OldestReferenced (methodId : Nat) : Prop :=
  img.foreignKeys = true ∧ retentionLimit ≤ (img.methodVersions.of methodId).length ∧
    ∃ v, (img.methodVersions.of methodId).head? = some v ∧ ∃ ms ∈ img.methodSends, ms.1 = v.1

end Image

/-- Everything each method ever was. -/
abbrev Histories := Key → List MethodContent

/-- The method an edit is about. -/
def Edit.key : Edit → Option Key
  | addClass .. | removeClass .. | undoClass .. => none
  | addMethod c side sel .. | setMethodSource c side sel _ | createOrReopenMethod c side sel ..
  | removeMethod c side sel | undoMethod c side sel => some ⟨c, side, sel⟩

/-- The version an edit adds to a method's history. -/
def Edit.writes (img : Image) (past : Histories) : Edit → Option (Key × MethodContent)
  | addClass .. | removeClass .. | undoClass .. => none
  | addMethod c side sel cat src =>
    if (img.classIdOf c).isSome ∧ past ⟨c, side, sel⟩ = [] then
      some (⟨c, side, sel⟩, ⟨cat, src, false⟩)
    else none
  | setMethodSource c side sel src =>
    (past ⟨c, side, sel⟩).getLast?.map fun last => (⟨c, side, sel⟩, ⟨last.category, src, false⟩)
  | createOrReopenMethod c side sel cat src =>
    if (img.classIdOf c).isSome then some (⟨c, side, sel⟩, ⟨cat, src, false⟩) else none
  | removeMethod c side sel =>
    (past ⟨c, side, sel⟩).getLast?.bind fun last =>
      if last.deleted then none else some (⟨c, side, sel⟩, { last with deleted := true })
  | undoMethod c side sel =>
    (past ⟨c, side, sel⟩).reverse[1]?.map fun previous => (⟨c, side, sel⟩, previous)

def Histories.add (past : Histories) : Option (Key × MethodContent) → Histories
  | none => past
  | some (k, c) => Function.update past k (past k ++ [c])

/-- The version that an edit pushes out of the window can be deleted. -/
def Edit.Fits (img : Image) (past : Histories) (e : Edit) : Prop :=
  ∀ k c, e.writes img past = some (k, c) → ∀ m, img.methodId k = some m → ¬ img.OldestReferenced m

/-- A new image, and edits that fit. -/
inductive HistoryRun (sentSelectors : String → List String) : Image → Histories → Prop
  | new (foreignKeys : Bool) : HistoryRun sentSelectors (.new foreignKeys) fun _ => []
  | edit {img : Image} {past : Histories} (e : Edit) : HistoryRun sentSelectors img past →
      e.Fits img past →
      HistoryRun sentSelectors (e.after sentSelectors img) (past.add (e.writes img past))

/-- An edit, and what it adds to the histories. -/
def Edit.step (sentSelectors : String → List String) (s : Image × Histories) (e : Edit) :
    Image × Histories :=
  (e.after sentSelectors s.1, s.2.add (e.writes s.1 s.2))

/-! ## The window -/

/-- The stored versions are the windows over these histories. -/
structure Image.Remembers (img : Image) (past : Histories) : Prop where
  wf : img.Wf
  absent : ∀ k, img.methodId k = none → past k = []
  stored : ∀ k m, img.methodId k = some m → past k ≠ [] ∧
    img.methodVersions.Tracks m retentionLimit (past k)

namespace Image

variable {sentSelectors : String → List String} {img : Image} {past : Histories} {k : Key}

theorem Wf.methodId_eq_some (h : img.Wf) {m : Nat} : img.methodId k = some m ↔
    ∃ c ∈ img.classes.rows, c.2.name = k.className ∧
      (m, ⟨c.1, k.selector, k.side⟩) ∈ img.methods.rows :=
  h.methodIdOf_eq_some

theorem Wf.methodId_injective (h : img.Wf) {k' : Key} {m : Nat} (hk : img.methodId k = some m)
    (hk' : img.methodId k' = some m) : k = k' := by
  obtain ⟨c, hc, hname, hm⟩ := h.methodId_eq_some.mp hk
  obtain ⟨c', hc', hname', hm'⟩ := h.methodId_eq_some.mp hk'
  have hrow := congrArg Prod.snd (Table.row_unique hm hm' rfl)
  obtain ⟨className, side, selector⟩ := k
  obtain ⟨className', side', selector'⟩ := k'
  obtain ⟨hid, rfl, rfl⟩ : c.1 = c'.1 ∧ selector = selector' ∧ side = side' := by
    simpa using hrow
  obtain rfl := Table.row_unique hc hc' hid
  dsimp only at hname hname'
  rw [← hname, ← hname']

theorem methodId_congr {img' : Image} (hc : img'.classes = img.classes)
    (hm : img'.methods = img.methods) : img'.methodId k = img.methodId k := by
  unfold methodId methodIdOf classIdOf
  rw [hc, hm]

theorem Tracks.congr {t t' : Versions MethodContent} {m : Nat} {h : List MethodContent}
    (ht : t.Tracks m retentionLimit h) (heq : t'.of m = t.of m) : t'.Tracks m retentionLimit h := by
  unfold Versions.Tracks
  rw [heq]
  exact ht

/-- As long as no window can be full, every edit fits. -/
theorem fits_of_lt (h : img.methodVersions.rows.length < retentionLimit) (e : Edit) :
    e.Fits img past := by
  rintro k c - m - ⟨-, hfull, -⟩
  have hle : (img.methodVersions.of m).length ≤ img.methodVersions.rows.length :=
    List.length_filter_le _ _
  omega

/-- Only the oldest version has to leave a full window. -/
theorem not_pruneBlocked (h : img.Wf) {m : Nat} {history : List MethodContent}
    (ht : img.methodVersions.Tracks m retentionLimit history) (hfits : ¬ img.OldestReferenced m)
    (c : MethodContent) : ¬ (img.withVersion sentSelectors m c).PruneBlocked m := by
  rintro ⟨hfk, v, hv, hexp, ms, hms, hid⟩
  have hpos : 0 < retentionLimit := by decide
  obtain ⟨howner, hle⟩ := (Versions.expired_append h.ordered m _ c v).mp hexp
  rw [ht.nextNumber_eq h.ordered hpos] at hle
  rcases (Table.mem_insert _).mp hv with hv | rfl
  · -- the version was there before, with the least number of all
    have hmem : v ∈ img.methodVersions.of m := mem_of.mpr ⟨hv, howner⟩
    have hdrop : (v.2.number, v.2.content) ∈ window retentionLimit history :=
      ht ▸ List.mem_map.mpr ⟨v, hmem, rfl⟩
    have hlt := lt_number_of_mem_drop hdrop
    have hlen := ht.length_of
    have hord := h.ordered.pairwise m
    obtain ⟨first, rest, heq⟩ := List.exists_cons_of_ne_nil (List.ne_nil_of_mem hmem)
    have hfirst : (first.2.number, first.2.content) ∈ window retentionLimit history := by
      rw [← ht, heq]
      exact List.mem_map.mpr ⟨first, List.mem_cons_self, rfl⟩
    have hlt' := lt_number_of_mem_drop hfirst
    have hv_first : v = first := by
      rw [heq] at hmem hord
      rcases List.mem_cons.mp hmem with rfl | hrest
      · rfl
      · have hlt'' := (List.pairwise_cons.mp hord).1 v hrest
        dsimp only at hlt hlt'
        omega
    have hfull : retentionLimit ≤ (img.methodVersions.of m).length := by
      dsimp only at hlt
      rw [hlen]
      omega
    refine hfits ⟨hfk, hfull, v, ?_, ?_⟩
    · rw [heq, hv_first]
      rfl
    · have hold : ms ∈ img.methodSends := by
        have hlt_next := Table.lt_nextId _ hv
        have hms' : ms ∈ (if c.deleted then img.methodSends
            else (sentSelectors c.source).foldl (insertSend img.methodVersions.nextId)
              img.methodSends) := hms
        split at hms'
        · exact hms'
        · rcases (mem_foldl_insertSend _ _).mp hms' with hms' | ⟨heq', -⟩
          · exact hms'
          · omega
      exact ⟨ms, hold, hid⟩
  · -- the new version is not
    rw [ht.nextNumber_eq h.ordered hpos] at hle
    dsimp only at hle
    omega

/-- The oldest version of a full window is the one that has to leave it. -/
theorem pruneBlocked (h : img.Wf) {m : Nat} {history : List MethodContent}
    (ht : img.methodVersions.Tracks m retentionLimit history) (hold : img.OldestReferenced m)
    (c : MethodContent) : (img.withVersion sentSelectors m c).PruneBlocked m := by
  obtain ⟨hfk, hfull, v, hhead, ms, hms, hid⟩ := hold
  obtain ⟨hrow, howner⟩ := Versions.mem_of.mp (List.mem_of_head? hhead)
  have hnumber : v.2.number = history.length - retentionLimit + 1 := by
    have hwindow := congrArg List.head? ht
    unfold window numbered at hwindow
    rw [List.head?_map, hhead, List.head?_drop, List.getElem?_mapIdx] at hwindow
    obtain ⟨x, -, hx⟩ := Option.map_eq_some_iff.mp hwindow.symm
    exact (congrArg Prod.fst hx).symm
  refine ⟨hfk, v, (Table.mem_insert _).mpr (Or.inl hrow), ?_, ms, ?_, hid⟩
  · have hlen := ht.length_of
    refine (Versions.expired_append h.ordered m _ c v).mpr ⟨howner, ?_⟩
    rw [ht.nextNumber_eq h.ordered (by decide)]
    omega
  · unfold withVersion
    dsimp only
    split
    · exact hms
    · exact (mem_foldl_insertSend _ _).mpr (Or.inl hms)

theorem accept_tracks (h : img.Wf) {m : Nat} {history : List MethodContent}
    (ht : img.methodVersions.Tracks m retentionLimit history) (hfits : ¬ img.OldestReferenced m)
    (c : MethodContent) : (img.accept sentSelectors m c).methodVersions.Tracks m retentionLimit
      (history ++ [c]) := by
  rw [accept_methodVersions, if_neg (not_pruneBlocked h ht hfits c)]
  exact ht.append_prune h.ordered (by decide) c

/-! ## Which method a key names -/

/-- A new row gives its key a method, and no other key. -/
theorem Wf.methodId_withMethod (h : img.Wf) {classId : Nat}
    (hc : img.classIdOf k.className = some classId) (hk : img.methodId k = none) (k' : Key) :
    (img.withMethod ⟨classId, k.selector, k.side⟩).methodId k' =
      if k' = k then some img.methods.nextId else img.methodId k' := by
  obtain ⟨c, hrow, hname, rfl⟩ := h.classIdOf_eq_some.mp hc
  have hwf := h.withMethod (h.row_ne_of_methodIdOf hc hk) ⟨c, hrow, rfl⟩
  split
  · next heq =>
    rw [heq]
    exact hwf.methodId_eq_some.mpr ⟨c, hrow, hname, (Table.mem_insert _).mpr (Or.inr rfl)⟩
  · next hne =>
    refine Option.ext fun m => ?_
    rw [hwf.methodId_eq_some, h.methodId_eq_some]
    refine ⟨?_, fun ⟨c', hc', hn, hm⟩ => ⟨c', hc', hn, (Table.mem_insert _).mpr (Or.inl hm)⟩⟩
    rintro ⟨c', hc', hname', hm⟩
    rcases (Table.mem_insert _).mp hm with hm | heq
    · exact ⟨c', hc', hname', hm⟩
    · obtain ⟨-, hid, hsel, hside⟩ : m = img.methods.nextId ∧ c'.1 = c.1 ∧
          k'.selector = k.selector ∧ k'.side = k.side := by simpa using heq
      obtain rfl := Table.row_unique hc' hrow hid
      refine absurd ?_ hne
      obtain ⟨className, side, selector⟩ := k
      obtain ⟨className', side', selector'⟩ := k'
      dsimp only at hname hname' hsel hside
      rw [← hname, ← hname', hsel, hside]

/-- A new class has no methods. -/
theorem Wf.methodId_withClass (h : img.Wf) {row : ClassRow}
    (hnew : ∀ c ∈ img.classes.rows, c.2.name ≠ row.name) (content : ClassContent) (k : Key) :
    (img.withClass row content).methodId k = img.methodId k := by
  refine Option.ext fun m => ?_
  rw [(h.withClass hnew content).methodId_eq_some, h.methodId_eq_some]
  refine ⟨?_, fun ⟨c, hc, hname, hm⟩ => ⟨c, (Table.mem_insert _).mpr (Or.inl hc), hname, hm⟩⟩
  rintro ⟨c, hc, hname, hm⟩
  rcases (Table.mem_insert _).mp hc with hc | rfl
  · exact ⟨c, hc, hname, hm⟩
  · obtain ⟨c', hc', heq⟩ := h.methodClass _ hm
    exact absurd heq (Nat.ne_of_lt (Table.lt_nextId _ hc'))

/-! ## Every edit -/

namespace Remembers

variable {img' : Image}

theorem congr (h : img.Remembers past) (hwf : img'.Wf)
    (hid : ∀ k, img'.methodId k = img.methodId k)
    (hversions : img'.methodVersions = img.methodVersions) : img'.Remembers past where
  wf := hwf
  absent k hk := h.absent k (hid k ▸ hk)
  stored k m hk := hversions ▸ h.stored k m (hid k ▸ hk)

theorem add (h : img.Remembers past) (hwf : img'.Wf) {m : Nat} {c : MethodContent}
    (hid : ∀ k', img'.methodId k' = if k' = k then some m else img.methodId k')
    (hof : ∀ other ≠ m, img'.methodVersions.of other = img.methodVersions.of other)
    (hm : img'.methodVersions.Tracks m retentionLimit (past k ++ [c])) :
    img'.Remembers (past.add (some (k, c))) where
  wf := hwf
  absent k' hk' := by
    rw [hid] at hk'
    split at hk'
    · cases hk'
    · next hne =>
      exact (Function.update_of_ne hne _ _).trans (h.absent k' hk')
  stored k' m' hk' := by
    unfold Histories.add
    dsimp only
    by_cases heq : k' = k
    · rw [hid, if_pos heq] at hk'
      obtain rfl := Option.some.inj hk'
      rw [heq, Function.update_self]
      exact ⟨List.append_ne_nil_of_right_ne_nil _ (List.cons_ne_nil _ _), hm⟩
    · -- another key names another method
      have hne : m' ≠ m := by
        rintro rfl
        exact heq (hwf.methodId_injective hk' (by rw [hid, if_pos rfl]))
      rw [hid, if_neg heq] at hk'
      rw [Function.update_of_ne heq]
      exact ⟨(h.stored k' m' hk').1, Tracks.congr (h.stored k' m' hk').2 (hof m' hne)⟩

theorem accept (h : img.Remembers past) {m : Nat} (hk : img.methodId k = some m)
    (hfits : ¬ img.OldestReferenced m) (c : MethodContent) :
    (img.accept sentSelectors m c).Remembers (past.add (some (k, c))) := by
  refine h.add (h.wf.accept (h.wf.exists_of_methodIdOf hk) c) (fun k' => ?_)
    (fun other hne => accept_of_ne hne c) (accept_tracks h.wf (h.stored k m hk).2 hfits c)
  rw [methodId_congr (accept_classes m c) (accept_methods m c)]
  split
  · next heq => rw [heq, hk]
  · rfl

theorem of_nextId (h : img.Remembers past) (hk : img.methodId k = none) :
    img.methodVersions.Tracks img.methods.nextId retentionLimit (past k) := by
  rw [h.absent k hk]
  unfold Versions.Tracks
  rw [h.wf.of_nextId]
  rfl

theorem withMethod_accept (h : img.Remembers past) {classId : Nat}
    (hc : img.classIdOf k.className = some classId) (hk : img.methodId k = none)
    (c : MethodContent) :
    ((img.withMethod ⟨classId, k.selector, k.side⟩).accept sentSelectors
      img.methods.nextId c).Remembers (past.add (some (k, c))) := by
  have hwf := h.wf.withMethod (h.wf.row_ne_of_methodIdOf hc hk) (h.wf.exists_of_classIdOf hc)
  refine h.add (hwf.accept ⟨_, (Table.mem_insert _).mpr (Or.inr rfl), rfl⟩ c) (fun k' => ?_)
    (fun other hne => accept_of_ne hne c) (accept_tracks hwf (h.of_nextId hk) ?_ c)
  · rw [methodId_congr (accept_classes _ c) (accept_methods _ c)]
    exact h.wf.methodId_withMethod hc hk k'
  · rintro ⟨-, hfull, -⟩
    have hlen : (img.methodVersions.of img.methods.nextId).length = 0 := by rw [h.wf.of_nextId]; rfl
    exact absurd (hlen ▸ hfull) (by decide)

theorem withNewMethod (h : img.Remembers past) {classId : Nat}
    (hc : img.classIdOf k.className = some classId) (hk : img.methodId k = none)
    (c : MethodContent) : (img.withNewMethod ⟨classId, k.selector, k.side⟩ c).Remembers
      (past.add (some (k, c))) := by
  refine h.add (h.wf.withNewMethod (h.wf.row_ne_of_methodIdOf hc hk) (h.wf.exists_of_classIdOf hc) c)
    (h.wf.methodId_withMethod hc hk) (fun other hne => Versions.of_append_ne hne) ?_
  have hnumber := (h.of_nextId hk).nextNumber_eq h.wf.ordered (by decide)
  rw [h.absent k hk] at hnumber ⊢
  unfold Versions.Tracks Image.withNewMethod
  dsimp only
  rw [Versions.of_append, h.wf.of_nextId, hnumber]
  rfl

theorem latestOf (h : img.Remembers past) {m : Nat} (hk : img.methodId k = some m) :
    ∃ latest, img.methodVersions.latestOf m = some latest ∧
      (past k).getLast? = some latest.2.content := by
  obtain ⟨hne, ht⟩ := h.stored k m hk
  have hlast := ht.latestOf_eq h.wf.ordered (by decide)
  rw [List.getLast?_eq_some_getLast hne] at hlast ⊢
  obtain ⟨latest, hlatest, heq⟩ := Option.map_eq_some_iff.mp hlast
  exact ⟨latest, hlatest, heq ▸ rfl⟩

theorem previousOf (h : img.Remembers past) {m : Nat} (hk : img.methodId k = some m) :
    (img.methodVersions.previousOf m).map (fun v => v.2.content) = (past k).reverse[1]? :=
  (h.stored k m hk).2.previousOf_eq h.wf.ordered (by decide)

/-- What an edit can do: leave every method as it was, add a version to one, or add a method. -/
theorem after_cases (h : img.Remembers past) (e : Edit) :
    (e.writes img past = none ∧
      (∀ k, (e.after sentSelectors img).methodId k = img.methodId k) ∧
      (e.after sentSelectors img).methodVersions = img.methodVersions) ∨
    (∃ k c m, e.writes img past = some (k, c) ∧ e.key = some k ∧ img.methodId k = some m ∧
      e.after sentSelectors img = img.accept sentSelectors m c) ∨
    ∃ k c classId, e.writes img past = some (k, c) ∧ e.key = some k ∧ img.methodId k = none ∧
      img.classIdOf k.className = some classId ∧
      (e.after sentSelectors img = (img.withMethod ⟨classId, k.selector, k.side⟩).accept
          sentSelectors img.methods.nextId c ∨
        e.after sentSelectors img = img.withNewMethod ⟨classId, k.selector, k.side⟩ c) := by
  cases e with
  | addClass n s cat com iv cv lo =>
    rw [h.wf.addClass_after]
    split
    · exact Or.inl ⟨rfl, fun _ => rfl, rfl⟩
    · next hold =>
      exact Or.inl ⟨rfl, h.wf.methodId_withClass (fun c hc hname => hold ⟨c, hc, Or.inl hname⟩) _,
        rfl⟩
  | addMethod c side sel cat src =>
    rw [h.wf.addMethod_after]
    dsimp only [Edit.writes]
    cases hc : img.classIdOf c with
    | none => exact Or.inl ⟨rfl, fun _ => rfl, rfl⟩
    | some classId =>
      dsimp only
      cases hm : img.methodIdOf c side sel with
      | some m =>
        rw [if_neg fun hand => (h.stored ⟨c, side, sel⟩ m hm).1 hand.2]
        exact Or.inl ⟨rfl, fun _ => rfl, rfl⟩
      | none =>
        rw [if_pos ⟨rfl, h.absent ⟨c, side, sel⟩ hm⟩]
        exact Or.inr (Or.inr ⟨⟨c, side, sel⟩, _, classId, rfl, rfl, hm, hc, Or.inr rfl⟩)
  | setMethodSource c side sel src =>
    rw [setMethodSource_after h.wf.ordered]
    dsimp only [Edit.writes]
    cases hm : img.methodIdOf c side sel with
    | none =>
      rw [h.absent ⟨c, side, sel⟩ hm]
      exact Or.inl ⟨rfl, fun _ => rfl, rfl⟩
    | some m =>
      obtain ⟨latest, hlatest, hpast⟩ := h.latestOf (k := ⟨c, side, sel⟩) hm
      dsimp only
      rw [hpast, hlatest]
      exact Or.inr (Or.inl ⟨⟨c, side, sel⟩, _, m, rfl, rfl, hm, rfl⟩)
  | createOrReopenMethod c side sel cat src =>
    rw [h.wf.createOrReopenMethod_after]
    dsimp only [Edit.writes]
    cases hc : img.classIdOf c with
    | none => exact Or.inl ⟨rfl, fun _ => rfl, rfl⟩
    | some classId =>
      dsimp only
      cases hm : img.methodIdOf c side sel with
      | some m => exact Or.inr (Or.inl ⟨⟨c, side, sel⟩, _, m, rfl, rfl, hm, rfl⟩)
      | none => exact Or.inr (Or.inr ⟨⟨c, side, sel⟩, _, classId, rfl, rfl, hm, hc, Or.inl rfl⟩)
  | removeMethod c side sel =>
    rw [removeMethod_after h.wf.ordered]
    dsimp only [Edit.writes]
    cases hm : img.methodIdOf c side sel with
    | none =>
      rw [h.absent ⟨c, side, sel⟩ hm]
      exact Or.inl ⟨rfl, fun _ => rfl, rfl⟩
    | some m =>
      obtain ⟨latest, hlatest, hpast⟩ := h.latestOf (k := ⟨c, side, sel⟩) hm
      dsimp only
      rw [hpast, hlatest, Option.bind_some]
      dsimp only
      split
      · exact Or.inl ⟨rfl, fun _ => rfl, rfl⟩
      · exact Or.inr (Or.inl ⟨⟨c, side, sel⟩, _, m, rfl, rfl, hm, rfl⟩)
  | undoMethod c side sel =>
    rw [undoMethod_after h.wf.ordered]
    dsimp only [Edit.writes]
    cases hm : img.methodIdOf c side sel with
    | none =>
      rw [h.absent ⟨c, side, sel⟩ hm]
      exact Or.inl ⟨rfl, fun _ => rfl, rfl⟩
    | some m =>
      dsimp only
      rw [← h.previousOf (k := ⟨c, side, sel⟩) hm]
      cases hp : img.methodVersions.previousOf m with
      | none => exact Or.inl ⟨rfl, fun _ => rfl, rfl⟩
      | some previous => exact Or.inr (Or.inl ⟨⟨c, side, sel⟩, _, m, rfl, rfl, hm, rfl⟩)
  | removeClass c =>
    rw [removeClass_after h.wf.classOrdered]
    cases hc : img.classIdOf c with
    | none => exact Or.inl ⟨rfl, fun _ => rfl, rfl⟩
    | some classId =>
      dsimp only
      split
      · exact Or.inl ⟨rfl, fun _ => rfl, rfl⟩
      · split <;> exact Or.inl ⟨rfl, fun _ => rfl, rfl⟩
  | undoClass c =>
    rw [undoClass_after h.wf.classOrdered]
    cases hc : img.classIdOf c with
    | none => exact Or.inl ⟨rfl, fun _ => rfl, rfl⟩
    | some classId =>
      dsimp only
      split <;> exact Or.inl ⟨rfl, fun _ => rfl, rfl⟩

theorem after (h : img.Remembers past) (e : Edit) (hfits : e.Fits img past) :
    (e.after sentSelectors img).Remembers (past.add (e.writes img past)) := by
  rcases @after_cases sentSelectors _ _ h e with ⟨hw, hid, hversions⟩ |
    ⟨k, c, m, hw, -, hk, heq⟩ | ⟨k, c, classId, hw, -, hk, hc, heq | heq⟩
  · rw [hw]
    exact h.congr (h.wf.after e) hid hversions
  · rw [hw, heq]
    exact h.accept hk (hfits k c hw m hk) c
  · rw [hw, heq]
    exact h.withMethod_accept hc hk c
  · rw [hw, heq]
    exact h.withNewMethod hc hk c

theorem run (h : HistoryRun sentSelectors img past) : img.Remembers past := by
  induction h with
  | new foreignKeys => exact ⟨wf_new foreignKeys, fun _ _ => rfl, fun _ _ hk => nomatch hk⟩
  | edit e _ hfits ih => exact ih.after e hfits

/-! ## What is read -/

theorem storedVersions_eq (h : img.Remembers past) (k : Key) :
    img.storedVersions k = window retentionLimit (past k) := by
  unfold storedVersions
  cases hk : img.methodId k with
  | none =>
    rw [h.absent k hk]
    rfl
  | some m => exact (h.stored k m hk).2

theorem content_eq (h : img.Remembers past) (k : Key) : img.content k = (past k).getLast? := by
  unfold content
  cases hk : img.methodId k with
  | none =>
    rw [h.absent k hk]
    rfl
  | some m => exact (h.stored k m hk).2.latestOf_eq h.wf.ordered (by decide)

/-- Other methods keep their versions, whether old versions can be deleted or not. -/
theorem storedVersions_of_ne (h : img.Remembers past) {e : Edit} (hne : e.key ≠ some k) :
    (e.after sentSelectors img).storedVersions k = img.storedVersions k := by
  have hcongr : ∀ img' : Image, img'.methodId k = img.methodId k →
      (∀ m, img.methodId k = some m → img'.methodVersions.of m = img.methodVersions.of m) →
      img'.storedVersions k = img.storedVersions k := by
    intro img' hid hof
    unfold storedVersions
    rw [hid]
    cases hk : img.methodId k with
    | none => rfl
    | some m => exact congrArg (List.map _) (hof m hk)
  rcases @after_cases sentSelectors _ _ h e with ⟨-, hid, hversions⟩ |
    ⟨k', c, m, -, hkey, hk', heq⟩ | ⟨k', c, classId, -, hkey, hk', hc, heq⟩
  · exact hcongr _ (hid k) fun m _ => by rw [hversions]
  · rw [heq]
    refine hcongr _ (methodId_congr (accept_classes m c) (accept_methods m c)) fun m' hk => ?_
    refine accept_of_ne (fun hm => hne ?_) c
    rw [h.wf.methodId_injective hk (hm ▸ hk'), hkey]
  · have hid : (img.withMethod ⟨classId, k'.selector, k'.side⟩).methodId k = img.methodId k := by
      rw [h.wf.methodId_withMethod hc hk', if_neg fun hkk : k = k' => hne (hkk ▸ hkey)]
    have hm : ∀ m, img.methodId k = some m → m ≠ img.methods.nextId := by
      intro m hk
      obtain ⟨c', -, -, hrow⟩ := h.wf.methodId_eq_some.mp hk
      exact Nat.ne_of_lt (Table.lt_nextId _ hrow)
    rcases heq with heq | heq
    · rw [heq]
      refine hcongr _ ?_ fun m hk => accept_of_ne (hm m hk) c
      rw [methodId_congr (accept_classes _ c) (accept_methods _ c), hid]
    · rw [heq]
      exact hcongr _ hid fun m hk => Versions.of_append_ne (hm m hk)

end Remembers

/-! ## Undoing -/

/-- `undo_method`. -/
def undo (sentSelectors : String → List String) (img : Image) (k : Key) : Image :=
  (Edit.undoMethod k.className k.side k.selector).after sentSelectors img

theorem content_accept (h : img.methodVersions.Ordered) {m : Nat} (hk : img.methodId k = some m)
    (c : MethodContent) : (img.accept sentSelectors m c).content k = some c := by
  unfold content
  rw [methodId_congr (accept_classes m c) (accept_methods m c), hk, Option.bind_some,
    Versions.latestOf_eq (accept_ordered h m c), accept_getLast? h]
  rfl

theorem undo_eq (h : img.methodVersions.Ordered) {m : Nat} (hk : img.methodId k = some m)
    {previous : Nat × Version MethodContent}
    (hp : img.methodVersions.previousOf m = some previous) :
    img.undo sentSelectors k = img.accept sentSelectors m previous.2.content := by
  have hid : img.methodIdOf k.className k.side k.selector = some m := hk
  unfold undo
  rw [undoMethod_after h, hid]
  dsimp only
  rw [hp]

/-- An undo after another version takes back that version. -/
theorem undo_accept (h : img.methodVersions.Ordered) {m : Nat} (hk : img.methodId k = some m)
    {latest : Nat × Version MethodContent} (hl : img.methodVersions.latestOf m = some latest)
    (c : MethodContent) : ((img.accept sentSelectors m c).undo sentSelectors k).content k =
      some latest.2.content := by
  have hid : (img.accept sentSelectors m c).methodId k = some m := by
    rw [methodId_congr (accept_classes m c) (accept_methods m c), hk]
  have hne : img.methodVersions.of m ≠ [] := by
    intro hnil
    rw [Versions.latestOf_eq h, hnil] at hl
    cases hl
  rw [undo_eq (accept_ordered h m c) hid ((accept_previousOf h hne c).trans hl)]
  exact content_accept (accept_ordered h m c) hid _

namespace Remembers

variable (h : img.Remembers past)
include h

theorem undo_of_lt (hlen : (past k).length < 2) : img.undo sentSelectors k = img := by
  unfold undo
  rw [undoMethod_after h.wf.ordered]
  cases hk : img.methodIdOf k.className k.side k.selector with
  | none => rfl
  | some m =>
    have hp := h.previousOf (k := k) hk
    rw [List.getElem?_eq_none (by rw [List.length_reverse]; omega), Option.map_eq_none_iff] at hp
    dsimp only
    rw [hp]

/-- The versions an undo finds, when there are two. -/
theorem exists_previous (hlen : 2 ≤ (past k).length) : ∃ m previous latest,
    img.methodId k = some m ∧ img.methodVersions.previousOf m = some previous ∧
    img.methodVersions.latestOf m = some latest ∧
    (past k)[(past k).length - 2]? = some previous.2.content := by
  cases hk : img.methodId k with
  | none =>
    rw [h.absent k hk] at hlen
    exact absurd hlen (by decide)
  | some m =>
    have hp := h.previousOf hk
    rw [List.getElem?_reverse hlen, Nat.sub_right_comm] at hp
    obtain ⟨latest, hl, -⟩ := h.latestOf hk
    rw [List.getElem?_eq_getElem (by omega)] at hp ⊢
    obtain ⟨previous, hprevious, heq⟩ := Option.map_eq_some_iff.mp hp
    exact ⟨m, previous, latest, rfl, hprevious, hl, congrArg some heq.symm⟩

theorem undo_content (hlen : 2 ≤ (past k).length) :
    (img.undo sentSelectors k).content k = (past k)[(past k).length - 2]? := by
  obtain ⟨m, previous, -, hk, hp, -, heq⟩ := h.exists_previous hlen
  rw [undo_eq h.wf.ordered hk hp, heq]
  exact content_accept h.wf.ordered hk _

theorem undo_undo : ((img.undo sentSelectors k).undo sentSelectors k).content k = img.content k := by
  by_cases hlen : 2 ≤ (past k).length
  · obtain ⟨m, previous, latest, hk, hp, hl, -⟩ := h.exists_previous hlen
    rw [undo_eq h.wf.ordered hk hp, undo_accept h.wf.ordered hk hl]
    unfold content
    rw [hk, Option.bind_some, hl]
    rfl
  · rw [h.undo_of_lt (by omega), h.undo_of_lt (by omega)]

end Remembers

/-! ## The history of a method -/

/-- What `method_presence` says of a content. -/
def presence : Option MethodContent → MethodPresence
  | none => .absent
  | some c => if c.deleted then .deleted else .live c.source

theorem methodPresence_eq :
    img.methodPresence k.className k.side k.selector = presence (img.content k) := by
  unfold methodPresence content methodId
  cases (img.methodIdOf k.className k.side k.selector).bind img.methodVersions.latestOf <;> rfl

theorem version_history (h : HistoryRun sentSelectors img past) (k : Key) :
    img.storedVersions k = window retentionLimit (past k) ∧
    img.methodPresence k.className k.side k.selector = presence (past k).getLast? ∧
    (2 ≤ (img.storedVersions k).length →
      (img.undo sentSelectors k).content k = (past k)[(past k).length - 2]?) ∧
    ((img.storedVersions k).length < 2 → img.undo sentSelectors k = img) ∧
    ((img.undo sentSelectors k).undo sentSelectors k).content k = img.content k ∧
    ∀ e : Edit, e.key ≠ some k →
      (e.after sentSelectors img).storedVersions k = img.storedVersions k := by
  have hrem := Remembers.run h
  have hlen : (img.storedVersions k).length = min (past k).length retentionLimit := by
    rw [hrem.storedVersions_eq, length_window]
  have hlimit : 2 ≤ retentionLimit := by decide
  refine ⟨hrem.storedVersions_eq k, ?_, fun htwo => hrem.undo_content (by omega),
    fun hshort => hrem.undo_of_lt (by omega), hrem.undo_undo,
    fun e hne => hrem.storedVersions_of_ne hne⟩
  rw [methodPresence_eq, hrem.content_eq]

theorem version_history_of_two :
    let run : Edit := .createOrReopenMethod "A" .instanceSide "run" "" "run ^self foo"
    let stop : Edit := .removeMethod "A" .instanceSide "run"
    let s := [.addClass "A" none "" "" "" "" 1000, run, stop].foldl
      (Edit.step fun _ => ["foo"]) (.new true, fun _ => [])
    let k : Key := ⟨"A", .instanceSide, "run"⟩
    s.1.storedVersions k = [(1, ⟨"", "run ^self foo", false⟩), (2, ⟨"", "run ^self foo", true⟩)] ∧
    s.1.storedVersions k = window retentionLimit (s.2 k) ∧
    (s.1.undo (fun _ => ["foo"]) k).content k = some ⟨"", "run ^self foo", false⟩ := by
  intro run stop s k
  have hrun : HistoryRun (fun _ => ["foo"]) s.1 s.2 :=
    .edit stop (.edit run (.edit (.addClass "A" none "" "" "" "" 1000) (.new true)
      (fits_of_lt (by decide) _)) (fits_of_lt (by decide) _)) (fits_of_lt (by decide) _)
  obtain ⟨hstored, -, hundo, -⟩ := version_history hrun k
  exact ⟨by decide +kernel, hstored, hundo (by decide +kernel)⟩

/-- The window no longer moves once its oldest version is referred to. -/
theorem version_history_stuck (h : HistoryRun sentSelectors img past) {e : Edit} {c : MethodContent}
    (hw : e.writes img past = some (k, c)) {m : Nat} (hk : img.methodId k = some m)
    (hold : img.OldestReferenced m) : (e.after sentSelectors img).storedVersions k =
      window retentionLimit (past k) ++ [((past k).length + 1, c)] := by
  have hrem := Remembers.run h
  rcases @Remembers.after_cases sentSelectors _ _ hrem e with ⟨hw', -⟩ |
    ⟨k', c', m', hw', -, hk', heq⟩ | ⟨k', c', -, hw', -, hk', -⟩
  · rw [hw] at hw'
    cases hw'
  · rw [hw] at hw'
    cases hw'
    rw [hk] at hk'
    cases hk'
    have hblocked : (img.withVersion sentSelectors m c).PruneBlocked m :=
      pruneBlocked hrem.wf (hrem.stored k m hk).2 hold c
    unfold storedVersions
    rw [heq, methodId_congr (accept_classes m c) (accept_methods m c), hk]
    dsimp only
    rw [accept_methodVersions, if_pos hblocked, Versions.of_append, List.map_append,
      (hrem.stored k m hk).2.nextNumber_eq hrem.wf.ordered (by decide)]
    exact congrArg (· ++ _) (hrem.stored k m hk).2
  · rw [hw] at hw'
    cases hw'
    rw [hk] at hk'
    cases hk'

/-- The source sends, and the hundred and first version finds the first one referred to. -/
theorem version_history_grows :
    let run : Edit := .createOrReopenMethod "A" .instanceSide "run" "" "run ^self foo"
    let s := (.addClass "A" none "" "" "" "" 1000 :: List.replicate 101 run).foldl
      (Edit.step fun _ => ["foo"]) (.new true, fun _ => [])
    let k : Key := ⟨"A", .instanceSide, "run"⟩
    (s.2 k).length = 101 ∧ (s.1.storedVersions k).length = 101 ∧
      s.1.storedVersions k ≠ window retentionLimit (s.2 k) := by
  decide +kernel

end Image

end WinVm.ImageStore
