import WinVm.ImageStore.WellFormed

/-!
# The senders index

`method_sends` has an edge for each selector a version sends, and the two queries over it find the
live methods by their own tombstones only. So the queries are exact as long as every version comes
with its edges, and a removed class has no live method. `add_method` writes no edges, and neither
removing a class nor writing a method of a removed one looks at the other tombstone.

Results: `senders_index_exact`, both queries in every state reached by edits that keep the index.
-/

namespace WinVm.ImageStore

open WinVm.Lib

namespace Image

variable (sentSelectors : String → List String) (img : Image)

/-! ## What the queries should find -/

/-- The class exists, and its latest version is no tombstone. -/
def LiveClass (classId : Nat) : Prop :=
  ∃ v, img.classVersions.latestOf classId = some v ∧ v.2.content.deleted = false

/-- The method's latest version, if it is no tombstone. -/
def LiveVersion (methodId : Nat) (v : Nat × Version MethodContent) : Prop :=
  img.methodVersions.latestOf methodId = some v ∧ v.2.content.deleted = false

/-- A live method of a live class, with its source. -/
def LiveMethod (className : String) (side : Side) (selector source : String) : Prop :=
  img.methodPresence className side selector = .live source ∧
    ∃ classId, img.classIdOf className = some classId ∧ img.LiveClass classId

/-! ## Edits that keep the index -/

/-- No method of the class is live. -/
def NoLiveMethods (className : String) : Prop :=
  ∀ classId, img.classIdOf className = some classId →
    ∀ m ∈ img.methods.rows, m.2.classId = classId → ∀ v, ¬ img.LiveVersion m.1 v

/-- A version with this content may be written to a method of the class. -/
def Accepts (className : String) (content : MethodContent) : Prop :=
  ∀ classId, img.classIdOf className = some classId →
    content.deleted = false → img.LiveClass classId

end Image

/-- The edit writes a version without edges only if it sends nothing, and leaves no live method in
a removed class. -/
def Edit.KeepsIndex (sentSelectors : String → List String) (img : Image) : Edit → Prop
  | addClass .. | removeMethod .. => True
  | addMethod c side sel cat src => img.methodIdOf c side sel = none →
    img.classIdOf c ≠ none → sentSelectors src = [] ∧ img.Accepts c ⟨cat, src, false⟩
  | setMethodSource c side sel src => img.methodIdOf c side sel ≠ none → img.Accepts c ⟨"", src, false⟩
  | createOrReopenMethod c _ _ cat src => img.Accepts c ⟨cat, src, false⟩
  | undoMethod c side sel => ∀ methodId previous, img.methodIdOf c side sel = some methodId →
    img.methodVersions.previousOf methodId = some previous → img.Accepts c previous.2.content
  | removeClass c => img.NoLiveMethods c
  | undoClass c => ∀ classId previous, img.classIdOf c = some classId →
    img.classVersions.previousOf classId = some previous →
    previous.2.content.deleted = true → img.NoLiveMethods c

/-- A new image, and edits that keep the index. -/
inductive IndexRun (sentSelectors : String → List String) : Image → Prop
  | new (foreignKeys : Bool) : IndexRun sentSelectors (.new foreignKeys)
  | edit {img : Image} (e : Edit) : IndexRun sentSelectors img → e.KeepsIndex sentSelectors img →
      IndexRun sentSelectors (e.after sentSelectors img)

/-! ## The invariant -/

structure Image.Indexed (sentSelectors : String → List String) (img : Image) : Prop where
  wf : img.Wf
  edges : ∀ v ∈ img.methodVersions.rows, ∀ s, (v.1, s) ∈ img.methodSends ↔
    v.2.content.deleted = false ∧ s ∈ sentSelectors v.2.content.source
  nodup : img.methodSends.Nodup
  live : ∀ m ∈ img.methods.rows, ∀ v, img.LiveVersion m.1 v → img.LiveClass m.2.classId

namespace Image

variable {sentSelectors : String → List String} {img : Image}

theorem foldl_insertSend_nodup {versionId : Nat} (selectors : List String)
    {sends : List (Nat × String)} (h : sends.Nodup) :
    (selectors.foldl (insertSend versionId) sends).Nodup := by
  induction selectors generalizing sends with
  | nil => exact h
  | cons s rest ih =>
    refine ih ?_
    unfold insertSend
    split
    · exact h
    · next hnew => exact List.concat_eq_append ▸ h.concat hnew

namespace Indexed

variable (h : img.Indexed sentSelectors)
include h

/-- A version row comes with its edges, whether it is new or old. -/
theorem accept_edges (methodId : Nat) (content : MethodContent) (v : Nat × Version MethodContent)
    (hv : v ∈ (img.accept sentSelectors methodId content).methodVersions.rows) (s : String) :
    (v.1, s) ∈ (img.accept sentSelectors methodId content).methodSends ↔
      v.2.content.deleted = false ∧ s ∈ sentSelectors v.2.content.source := by
  rw [accept_methodSends]
  unfold withVersion
  dsimp only
  rcases mem_accept hv with hv | rfl
  · have hne : v.1 ≠ img.methodVersions.nextId := Nat.ne_of_lt (Table.lt_nextId _ hv)
    split
    · exact h.edges v hv s
    · rw [mem_foldl_insertSend, h.edges v hv s]
      exact or_iff_left fun hand => hne hand.1
  · have hnew : (img.methodVersions.nextId, s) ∉ img.methodSends := fun hmem =>
      Nat.lt_irrefl _ (h.wf.sends _ hmem)
    split
    · next hdeleted => simp [hnew, hdeleted]
    · next hlive =>
      rw [mem_foldl_insertSend, or_iff_right hnew]
      simpa using fun _ => hlive

theorem accept {m : Nat × MethodRow} (hm : m ∈ img.methods.rows) (content : MethodContent)
    (hlive : content.deleted = false → img.LiveClass m.2.classId) :
    (img.accept sentSelectors m.1 content).Indexed sentSelectors where
  wf := h.wf.accept ⟨m, hm, rfl⟩ content
  edges := h.accept_edges m.1 content
  nodup := by
    rw [accept_methodSends]
    unfold withVersion
    dsimp only
    split
    · exact h.nodup
    · exact foldl_insertSend_nodup _ h.nodup
  live := by
    rw [accept_methods]
    rintro m' hm' v ⟨hlatest, hv⟩
    have hclass : img.LiveClass m'.2.classId := by
      rw [Versions.latestOf_eq (accept_ordered h.wf.ordered m.1 content)] at hlatest
      by_cases heq : m'.1 = m.1
      · rw [heq, accept_getLast? h.wf.ordered] at hlatest
        obtain rfl := Option.some.inj hlatest
        rw [Table.row_unique hm' hm heq]
        exact hlive hv
      · rw [accept_of_ne heq, ← Versions.latestOf_eq h.wf.ordered] at hlatest
        exact h.live m' hm' v ⟨hlatest, hv⟩
    unfold LiveClass
    rwa [accept_classVersions]

/-- A method without versions is not live. -/
theorem withMethod {row : MethodRow} (hnew : ∀ m ∈ img.methods.rows, m.2 ≠ row)
    (hc : ∃ c ∈ img.classes.rows, c.1 = row.classId) :
    (img.withMethod row).Indexed sentSelectors where
  wf := h.wf.withMethod hnew hc
  edges := h.edges
  nodup := h.nodup
  live := by
    intro m hm v hv
    rcases (Table.mem_insert _).mp hm with hm | rfl
    · exact h.live m hm v hv
    · have hlatest : img.methodVersions.latestOf img.methods.nextId = some v := hv.1
      rw [Versions.latestOf_eq h.wf.ordered, h.wf.of_nextId] at hlatest
      cases hlatest

theorem withNewMethod {row : MethodRow} (hnew : ∀ m ∈ img.methods.rows, m.2 ≠ row)
    (hc : ∃ c ∈ img.classes.rows, c.1 = row.classId) {content : MethodContent}
    (hsends : sentSelectors content.source = []) (hlive : img.LiveClass row.classId) :
    (img.withNewMethod row content).Indexed sentSelectors where
  wf := h.wf.withNewMethod hnew hc content
  edges := by
    intro v hv s
    rcases (Table.mem_insert _).mp hv with hv | rfl
    · exact h.edges v hv s
    · refine iff_of_false (fun hmem => Nat.lt_irrefl _ (h.wf.sends _ hmem)) fun hand => ?_
      dsimp only at hand
      rw [hsends] at hand
      exact List.not_mem_nil hand.2
  nodup := h.nodup
  live := by
    rintro m hm v ⟨hlatest, hv⟩
    rcases (Table.mem_insert _).mp hm with hm | rfl
    · refine h.live m hm v ⟨?_, hv⟩
      have hne : m.1 ≠ img.methods.nextId := Nat.ne_of_lt (Table.lt_nextId _ hm)
      have hof : (img.methodVersions.append img.methods.nextId content).of m.1 = _ :=
        Versions.of_append_ne hne
      rw [Versions.latestOf_eq h.wf.ordered, ← hof]
      exact (Versions.latestOf_eq (h.wf.ordered.append _ _) _).symm.trans hlatest
    · exact hlive

theorem withClass {row : ClassRow} (hnew : ∀ c ∈ img.classes.rows, c.2.name ≠ row.name)
    (content : ClassContent) : (img.withClass row content).Indexed sentSelectors where
  wf := h.wf.withClass hnew content
  edges := h.edges
  nodup := h.nodup
  live := by
    intro m hm v hv
    obtain ⟨cv, hlatest, hcv⟩ := h.live m hm v hv
    obtain ⟨c, hc, heq⟩ := h.wf.methodClass m hm
    have hne : m.2.classId ≠ img.classes.nextId := heq ▸ Nat.ne_of_lt (Table.lt_nextId _ hc)
    refine ⟨cv, ?_, hcv⟩
    have hof : (img.classVersions.append _ content).of _ = _ := Versions.of_append_ne hne
    rw [Versions.latestOf_eq h.wf.classOrdered, ← hof] at hlatest
    exact (Versions.latestOf_eq (h.wf.classOrdered.append _ _) _).trans hlatest

theorem withClassVersion {classId : Nat} (hc : ∃ c ∈ img.classes.rows, c.1 = classId)
    {content : ClassContent} (hlive : content.deleted = true →
      ∀ m ∈ img.methods.rows, m.2.classId = classId → ∀ v, ¬ img.LiveVersion m.1 v) :
    (img.withClassVersion classId content).Indexed sentSelectors where
  wf := h.wf.withClassVersion hc content
  edges := h.edges
  nodup := h.nodup
  live := by
    intro m hm v hv
    have hord := (h.wf.classOrdered.append classId content).prune classId retentionLimit
    have hlatest := Versions.latestOf_eq hord m.2.classId
    by_cases heq : m.2.classId = classId
    · subst heq
      rw [Versions.getLast?_append_prune h.wf.classOrdered (by decide)] at hlatest
      refine ⟨_, hlatest, ?_⟩
      rw [← Bool.not_eq_true]
      exact fun hdeleted => hlive hdeleted m hm rfl v hv
    · obtain ⟨cv, hold, hcv⟩ := h.live m hm v hv
      rw [Versions.latestOf_eq h.wf.classOrdered] at hold
      rw [Versions.of_prune_ne heq, Versions.of_append_ne heq, hold] at hlatest
      exact ⟨cv, hlatest, hcv⟩

/-! ## Every edit -/

/-- The class of the method that a key names. -/
theorem exists_method {className selector : String} {side : Side} {methodId : Nat}
    (hm : img.methodIdOf className side selector = some methodId) :
    ∃ classId, img.classIdOf className = some classId ∧
      (methodId, ⟨classId, selector, side⟩) ∈ img.methods.rows := by
  obtain ⟨c, hc, hname, hrow⟩ := h.wf.methodIdOf_eq_some.mp hm
  exact ⟨c.1, h.wf.classIdOf_eq_some.mpr ⟨c, hc, hname, rfl⟩, hrow⟩

theorem accept_of_accepts {className selector : String} {side : Side} {methodId : Nat}
    (hm : img.methodIdOf className side selector = some methodId) {content : MethodContent}
    (hacc : img.Accepts className content) :
    (img.accept sentSelectors methodId content).Indexed sentSelectors := by
  obtain ⟨classId, hc, hrow⟩ := h.exists_method hm
  exact h.accept hrow content (hacc classId hc)

theorem after (e : Edit) (hkeeps : e.KeepsIndex sentSelectors img) :
    (e.after sentSelectors img).Indexed sentSelectors := by
  cases e with
  | addClass n s cat com iv cv lo =>
    rw [h.wf.addClass_after]
    split
    · exact h
    · next hold => exact h.withClass (fun c hc hname => hold ⟨c, hc, Or.inl hname⟩) _
  | addMethod c side sel cat src =>
    rw [h.wf.addMethod_after]
    cases hc : img.classIdOf c with
    | none => exact h
    | some classId =>
      dsimp only
      cases hm : img.methodIdOf c side sel with
      | some _ => exact h
      | none =>
        obtain ⟨hsends, hacc⟩ := hkeeps hm (by rw [hc]; exact Option.some_ne_none _)
        exact h.withNewMethod (h.wf.row_ne_of_methodIdOf hc hm) (h.wf.exists_of_classIdOf hc) hsends
          (hacc classId hc rfl)
  | setMethodSource c side sel src =>
    rw [setMethodSource_after h.wf.ordered]
    cases hm : img.methodIdOf c side sel with
    | none => exact h
    | some methodId =>
      dsimp only
      split
      · exact h
      · have hacc := hkeeps (by rw [hm]; exact Option.some_ne_none _)
        exact h.accept_of_accepts hm fun classId hc _ => hacc classId hc rfl
  | createOrReopenMethod c side sel cat src =>
    rw [h.wf.createOrReopenMethod_after]
    cases hc : img.classIdOf c with
    | none => exact h
    | some classId =>
      dsimp only
      cases hm : img.methodIdOf c side sel with
      | some methodId => exact h.accept_of_accepts hm hkeeps
      | none =>
        have hnew := h.withMethod (h.wf.row_ne_of_methodIdOf hc hm) (h.wf.exists_of_classIdOf hc)
        exact hnew.accept ((Table.mem_insert _).mpr (Or.inr rfl)) _ (hkeeps classId hc)
  | removeMethod c side sel =>
    rw [removeMethod_after h.wf.ordered]
    cases hm : img.methodIdOf c side sel with
    | none => exact h
    | some methodId =>
      dsimp only
      split
      · exact h
      · split
        · exact h
        · exact h.accept_of_accepts hm fun _ _ hlive => nomatch hlive
  | undoMethod c side sel =>
    rw [undoMethod_after h.wf.ordered]
    cases hm : img.methodIdOf c side sel with
    | none => exact h
    | some methodId =>
      dsimp only
      split
      · exact h
      · next previous hp => exact h.accept_of_accepts hm (hkeeps methodId previous hm hp)
  | removeClass c =>
    rw [removeClass_after h.wf.classOrdered]
    cases hc : img.classIdOf c with
    | none => exact h
    | some classId =>
      dsimp only
      split
      · exact h
      · split
        · exact h
        · exact h.withClassVersion (h.wf.exists_of_classIdOf hc) fun _ => hkeeps classId hc
  | undoClass c =>
    rw [undoClass_after h.wf.classOrdered]
    cases hc : img.classIdOf c with
    | none => exact h
    | some classId =>
      dsimp only
      split
      · exact h
      · next previous hp =>
        exact h.withClassVersion (h.wf.exists_of_classIdOf hc) fun hdeleted =>
          hkeeps classId previous hc hp hdeleted classId hc

end Indexed

theorem Indexed.run (h : IndexRun sentSelectors img) : img.Indexed sentSelectors := by
  induction h with
  | new foreignKeys =>
    exact ⟨wf_new foreignKeys, fun v hv => (nomatch hv), .nil, fun m hm => (nomatch hm)⟩
  | edit e _ hkeeps ih => exact ih.after e hkeeps

/-! ## What the queries find -/

theorem mem_orderBy {α : Type} {key : α → List String} {rows : List α} {r : α} :
    r ∈ orderBy key rows ↔ r ∈ rows :=
  (List.perm_insertionSort _ rows).mem_iff

theorem nodup_orderBy {α : Type} {key : α → List String} {rows : List α} :
    (orderBy key rows).Nodup ↔ rows.Nodup :=
  (List.perm_insertionSort _ rows).nodup_iff

namespace Indexed

variable (h : img.Indexed sentSelectors)
include h

/-- A live method is a class row, a method row and a version row that belong together. -/
theorem liveMethod_iff {className selector source : String} {side : Side} :
    img.LiveMethod className side selector source ↔
      ∃ c ∈ img.classes.rows, ∃ m ∈ img.methods.rows, ∃ v ∈ img.methodVersions.latest,
        c.2.name = className ∧ m.2 = ⟨c.1, selector, side⟩ ∧ v.2.owner = m.1 ∧
        v.2.content.deleted = false ∧ v.2.content.source = source := by
  unfold LiveMethod methodPresence
  constructor
  · rintro ⟨hpresence, -⟩
    cases hid : img.methodIdOf className side selector with
    | none =>
      rw [hid] at hpresence
      cases hpresence
    | some m =>
      obtain ⟨c, hc, hname, hm⟩ := h.wf.methodIdOf_eq_some.mp hid
      rw [hid, Option.bind_some] at hpresence
      cases hlatest : img.methodVersions.latestOf m with
      | none =>
        rw [hlatest] at hpresence
        cases hpresence
      | some v =>
        rw [hlatest] at hpresence
        dsimp only at hpresence
        split at hpresence
        · cases hpresence
        · next hlive =>
          have hlast := hlatest
          rw [Versions.latestOf_eq h.wf.ordered] at hlast
          have howner := (Versions.mem_of.mp (List.mem_of_getLast? hlast)).2
          refine ⟨c, hc, (m, _), hm, v, ?_, hname, rfl, howner, by simpa using hlive, ?_⟩
          · rw [Versions.mem_latest h.wf.ordered, howner, hlast]
          · exact MethodPresence.live.inj hpresence
  · rintro ⟨c, hc, m, hm, v, hv, hname, hrow, howner, hlive, hsource⟩
    have hid : img.methodIdOf className side selector = some m.1 :=
      h.wf.methodIdOf_eq_some.mpr ⟨c, hc, hname, hrow ▸ hm⟩
    have hlatest : img.methodVersions.latestOf m.1 = some v := by
      rw [Versions.latestOf_eq h.wf.ordered, ← howner]
      exact (Versions.mem_latest h.wf.ordered).mp hv
    rw [hid, Option.bind_some, hlatest]
    refine ⟨?_, c.1, h.wf.classIdOf_eq_some.mpr ⟨c, hc, hname, rfl⟩, ?_⟩
    · dsimp only
      rw [hlive, hsource]
      rfl
    · have hclass := h.live m hm v ⟨hlatest, hlive⟩
      rwa [hrow] at hclass

theorem mem_implementorsOf {selector : String} {r : String × Side} :
    r ∈ img.implementorsOf selector ↔ ∃ source, img.LiveMethod r.1 r.2 selector source := by
  unfold implementorsOf
  simp only [mem_orderBy, List.mem_flatMap, List.mem_map, List.mem_filter, decide_eq_true_eq,
    h.liveMethod_iff]
  constructor
  · rintro ⟨c, hc, m, ⟨hm, hclass, hsel⟩, v, ⟨hv, howner, hlive⟩, rfl⟩
    refine ⟨_, c, hc, m, hm, v, hv, rfl, ?_, howner, hlive, rfl⟩
    rw [← hclass, ← hsel]
  · rintro ⟨source, c, hc, m, hm, v, hv, hname, hrow, howner, hlive, -⟩
    refine ⟨c, hc, m, ⟨hm, by rw [hrow], by rw [hrow]⟩, v, ⟨hv, howner, hlive⟩, ?_⟩
    rw [hname, hrow]

theorem mem_sendersOf {selector : String} {r : String × String × Side} :
    r ∈ img.sendersOf selector ↔
      ∃ source, img.LiveMethod r.1 r.2.2 r.2.1 source ∧ selector ∈ sentSelectors source := by
  unfold sendersOf
  simp only [mem_orderBy, List.mem_flatMap, List.mem_map, List.mem_filter, decide_eq_true_eq,
    h.liveMethod_iff]
  constructor
  · rintro ⟨ms, ⟨hms, rfl⟩, v, ⟨hv, hid, hlive⟩, m, ⟨hm, howner⟩, c, ⟨hc, hclass⟩, rfl⟩
    have hsends := ((h.edges v (List.mem_of_mem_filter hv) ms.2).mp (hid ▸ hms)).2
    refine ⟨_, ⟨c, hc, m, hm, v, hv, rfl, ?_, howner.symm, hlive, rfl⟩, hsends⟩
    rw [hclass]
  · rintro ⟨source, ⟨c, hc, m, hm, v, hv, hname, hrow, howner, hlive, rfl⟩, hsends⟩
    have hedge := (h.edges v (List.mem_of_mem_filter hv) selector).mpr ⟨hlive, hsends⟩
    refine ⟨(v.1, selector), ⟨hedge, rfl⟩, v,
      ⟨hv, rfl, hlive⟩, m, ⟨hm, howner.symm⟩, c, ⟨hc, by rw [hrow]⟩, ?_⟩
    rw [hname, hrow]

theorem latest_unique {v w : Nat × Version MethodContent} (hv : v ∈ img.methodVersions.latest)
    (hw : w ∈ img.methodVersions.latest) (howner : v.2.owner = w.2.owner) : v = w := by
  have hlast := (Versions.mem_latest h.wf.ordered).mp hv
  rw [howner, (Versions.mem_latest h.wf.ordered).mp hw] at hlast
  exact (Option.some.inj hlast).symm

theorem nodup_implementorsOf (selector : String) : (img.implementorsOf selector).Nodup := by
  unfold implementorsOf
  rw [nodup_orderBy]
  refine nodup_join img.classes.rows_nodup (fun c _ => ?_) ?_
  · refine nodup_join (img.methods.rows_nodup.filter _) (fun m _ => ?_) ?_
    · refine (img.methodVersions.rows_nodup.filter _ |>.filter _).map_on fun v hv w hw _ => ?_
      obtain ⟨hv, howner⟩ := List.mem_filter.mp hv
      obtain ⟨hw, howner'⟩ := List.mem_filter.mp hw
      rw [decide_eq_true_eq] at howner howner'
      exact h.latest_unique hv hw (howner.1.trans howner'.1.symm)
    · intro m hm m' hm' r hr hr'
      simp only [List.mem_map, List.mem_filter, decide_eq_true_eq] at hm hm' hr hr'
      obtain ⟨v, -, rfl⟩ := hr
      obtain ⟨w, -, heq⟩ := hr'
      have hside : m'.2.side = m.2.side := congrArg Prod.snd heq
      refine h.wf.methodRows m hm.1 m' hm'.1 ?_
      obtain ⟨i, classId, sel, side⟩ := m
      obtain ⟨i', classId', sel', side'⟩ := m'
      dsimp only at hm hm' hside ⊢
      rw [hm.2.1, hm.2.2, hm'.2.1, hm'.2.2, hside]
  · intro c hc c' hc' r hr hr'
    simp only [List.mem_flatMap, List.mem_map] at hr hr'
    obtain ⟨_, -, _, -, rfl⟩ := hr
    obtain ⟨_, -, _, -, heq⟩ := hr'
    exact h.wf.classNames c hc c' hc' (congrArg Prod.fst heq).symm

theorem nodup_sendersOf (selector : String) : (img.sendersOf selector).Nodup := by
  unfold sendersOf
  rw [nodup_orderBy]
  refine nodup_join (h.nodup.filter _) (fun ms _ => ?_) ?_
  · refine nodup_join (img.methodVersions.rows_nodup.filter _ |>.filter _) (fun v _ => ?_) ?_
    · refine nodup_join (img.methods.rows_nodup.filter _) (fun m _ => ?_) ?_
      · refine (img.classes.rows_nodup.filter _).map_on fun c hc c' hc' _ => ?_
        obtain ⟨hc, hid⟩ := List.mem_filter.mp hc
        obtain ⟨hc', hid'⟩ := List.mem_filter.mp hc'
        exact Table.row_unique hc hc' ((of_decide_eq_true hid).trans (of_decide_eq_true hid').symm)
      · intro m hm m' hm' _ _ _
        obtain ⟨hm, hid⟩ := List.mem_filter.mp hm
        obtain ⟨hm', hid'⟩ := List.mem_filter.mp hm'
        exact Table.row_unique hm hm' ((of_decide_eq_true hid).trans (of_decide_eq_true hid').symm)
    · intro v hv w hw _ _ _
      simp only [List.mem_filter, decide_eq_true_eq] at hv hw
      exact h.latest_unique hv.1 hw.1 (congrArg (·.2.owner)
        (Table.row_unique (List.mem_of_mem_filter hv.1) (List.mem_of_mem_filter hw.1)
          (hv.2.1.trans hw.2.1.symm)))
  · -- the class, the method, its latest version, and so the edge
    intro e he e' he' r hr hr'
    simp only [List.mem_flatMap, List.mem_map, List.mem_filter, decide_eq_true_eq] at he he' hr hr'
    obtain ⟨v, hv, m, hm, c, hc, rfl⟩ := hr
    obtain ⟨w, hw, m', hm', c', hc', heq⟩ := hr'
    obtain ⟨hname, hsel, hside⟩ : c'.2.name = c.2.name ∧ m'.2.selector = m.2.selector ∧
        m'.2.side = m.2.side := by simpa using heq
    obtain rfl := h.wf.classNames c' hc'.1 c hc.1 hname
    have hmm : m' = m := by
      refine h.wf.methodRows m' hm'.1 m hm.1 ?_
      obtain ⟨i, classId, sel, side⟩ := m
      obtain ⟨i', classId', sel', side'⟩ := m'
      dsimp only at hc hc' hsel hside ⊢
      rw [← hc.2, ← hc'.2, hsel, hside]
    have hvw := h.latest_unique hv.1 hw.1 (by rw [← hm.2, ← hm'.2, hmm])
    exact Prod.ext (by rw [← hv.2.1, ← hw.2.1, hvw]) (he.2.trans he'.2.symm)

end Indexed

theorem senders_index_exact (h : IndexRun sentSelectors img) (selector : String) :
    (img.sendersOf selector).Nodup ∧
    (∀ className sender side, (className, sender, side) ∈ img.sendersOf selector ↔
      ∃ source, img.LiveMethod className side sender source ∧ selector ∈ sentSelectors source) ∧
    (img.implementorsOf selector).Nodup ∧
    ∀ className side, (className, side) ∈ img.implementorsOf selector ↔
      ∃ source, img.LiveMethod className side selector source := by
  have hidx := Indexed.run h
  exact ⟨hidx.nodup_sendersOf selector, fun _ _ _ => hidx.mem_sendersOf,
    hidx.nodup_implementorsOf selector, fun _ _ => hidx.mem_implementorsOf⟩

theorem senders_index_exact_of_one :
    let sends : String → List String := fun _ => ["foo"]
    let img := (Edit.createOrReopenMethod "A" .instanceSide "run" "" "run ^self foo").after sends
      ((Edit.addClass "A" none "" "" "" "" 1000).after sends (.new true))
    img.sendersOf "foo" = [("A", "run", .instanceSide)] ∧
    ∃ source, img.LiveMethod "A" .instanceSide "run" source ∧ "foo" ∈ sends source := by
  intro sends img
  have hrun : IndexRun sends img := by
    refine .edit _ (.edit _ (.new true) trivial) fun classId hc _ => ?_
    obtain rfl := Option.some.inj hc
    exact ⟨(1, ⟨1, 1, none, "", "", "", "", false⟩), by decide, rfl⟩
  have hsenders : img.sendersOf "foo" = [("A", "run", .instanceSide)] := by decide
  refine ⟨hsenders, ((senders_index_exact hrun "foo").2.1 "A" "run" .instanceSide).mp ?_⟩
  rw [hsenders]
  exact List.mem_singleton_self _

/-- A first version without its edges, and the live method of a removed class. -/
theorem senders_index_fails :
    let sends : String → List String := fun _ => ["foo"]
    let img := (Edit.addClass "A" none "" "" "" "" 1000).after sends (.new true)
    let added := (Edit.addMethod "A" .instanceSide "run" "" "run ^self foo").after sends img
    let created :=
      (Edit.createOrReopenMethod "A" .instanceSide "run" "" "run ^self foo").after sends img
    let removed := (Edit.removeClass "A").after sends created
    (added.LiveMethod "A" .instanceSide "run" "run ^self foo" ∧ added.sendersOf "foo" = []) ∧
    removed.sendersOf "foo" = [("A", "run", .instanceSide)] ∧
    removed.implementorsOf "run" = [("A", .instanceSide)] ∧
    ∀ side selector source, ¬ removed.LiveMethod "A" side selector source := by
  intro sends img added created removed
  refine ⟨⟨⟨by decide, 1, by decide, (1, ⟨1, 1, none, "", "", "", "", false⟩), by decide, rfl⟩,
    by decide⟩, by decide, by decide, ?_⟩
  rintro side selector source ⟨-, classId, hc, v, hlatest, hlive⟩
  obtain rfl := Option.some.inj hc
  have hremoved : removed.classVersions.latestOf 1 =
      some (2, ⟨1, 2, none, "", "", "", "", true⟩) := by decide
  have heq := hremoved.symm.trans hlatest
  cases heq
  cases hlive

end Image

end WinVm.ImageStore
