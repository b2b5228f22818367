import WinVm.ImageStore.Edits

/-!
# Well-formed images

What the constraints of the schema and the order of the statements keep true of the tables, and
which rows a query finds in such an image.

Results: `Wf.after`, every edit keeps an image well-formed; `Wf.methodIdOf_eq_some`.
-/

namespace WinVm.ImageStore

open WinVm.Lib

structure Image.Wf (img : Image) : Prop where
  classNames : ∀ x ∈ img.classes.rows, ∀ y ∈ img.classes.rows, x.2.name = y.2.name → x = y
  methodRows : ∀ x ∈ img.methods.rows, ∀ y ∈ img.methods.rows, x.2 = y.2 → x = y
  methodClass : ∀ m ∈ img.methods.rows, ∃ c ∈ img.classes.rows, c.1 = m.2.classId
  versionMethod : ∀ v ∈ img.methodVersions.rows, ∃ m ∈ img.methods.rows, m.1 = v.2.owner
  classVersionClass : ∀ v ∈ img.classVersions.rows, ∃ c ∈ img.classes.rows, c.1 = v.2.owner
  ordered : img.methodVersions.Ordered
  classOrdered : img.classVersions.Ordered
  sends : ∀ ms ∈ img.methodSends, ms.1 < img.methodVersions.nextId

namespace Image

variable {sentSelectors : String → List String} {img : Image}

theorem mem_foldl_insertSend {versionId : Nat} {e : Nat × String} (selectors : List String)
    (sends : List (Nat × String)) : e ∈ selectors.foldl (insertSend versionId) sends ↔
      e ∈ sends ∨ (e.1 = versionId ∧ e.2 ∈ selectors) := by
  induction selectors generalizing sends with
  | nil => simp
  | cons s rest ih =>
    rw [List.foldl_cons, ih]
    have hmem : e ∈ insertSend versionId sends s ↔ e ∈ sends ∨ e = (versionId, s) := by
      unfold insertSend
      split
      · next hold =>
        refine ⟨Or.inl, fun h => h.elim id ?_⟩
        rintro rfl
        exact hold
      · rw [List.mem_append, List.mem_singleton]
    rw [hmem, List.mem_cons, Prod.ext_iff]
    tauto

section Accept

variable (methodId : Nat) (content : MethodContent)

@[simp] theorem accept_classes : (img.accept sentSelectors methodId content).classes = img.classes := by
  unfold accept
  dsimp only
  split <;> rfl

@[simp] theorem accept_classVersions :
    (img.accept sentSelectors methodId content).classVersions = img.classVersions := by
  unfold accept
  dsimp only
  split <;> rfl

@[simp] theorem accept_methods : (img.accept sentSelectors methodId content).methods = img.methods := by
  unfold accept
  dsimp only
  split <;> rfl

@[simp] theorem accept_foreignKeys :
    (img.accept sentSelectors methodId content).foreignKeys = img.foreignKeys := by
  unfold accept
  dsimp only
  split <;> rfl

@[simp] theorem accept_methodSends :
    (img.accept sentSelectors methodId content).methodSends =
      (img.withVersion sentSelectors methodId content).methodSends := by
  unfold accept
  dsimp only
  split <;> rfl

theorem accept_methodVersions : (img.accept sentSelectors methodId content).methodVersions =
    if (img.withVersion sentSelectors methodId content).PruneBlocked methodId then
      img.methodVersions.append methodId content
    else (img.methodVersions.append methodId content).prune methodId retentionLimit := by
  unfold accept
  dsimp only
  split <;> rfl

end Accept

theorem accept_nextId (h : img.methodVersions.Ordered) (methodId : Nat) (content : MethodContent) :
    (img.accept sentSelectors methodId content).methodVersions.nextId =
      img.methodVersions.nextId + 1 := by
  rw [accept_methodVersions]
  split
  · unfold Versions.append Table.nextId Table.insert
    dsimp only
    rw [List.getLast?_concat]
    rfl
  · exact Table.nextId_deleteWhere_insert (Versions.expired_append_nextId h (by decide) methodId content)

theorem mem_accept {methodId : Nat} {content : MethodContent} {v : Nat × Version MethodContent}
    (hv : v ∈ (img.accept sentSelectors methodId content).methodVersions.rows) :
    v ∈ img.methodVersions.rows ∨
      v = (img.methodVersions.nextId, ⟨methodId, img.methodVersions.nextNumber methodId, content⟩) := by
  rw [accept_methodVersions] at hv
  split at hv
  · exact (Table.mem_insert _).mp hv
  · exact (Table.mem_insert _).mp ((Table.mem_deleteWhere _).mp hv).1

theorem accept_of_ne {methodId other : Nat} (hne : other ≠ methodId) (content : MethodContent) :
    (img.accept sentSelectors methodId content).methodVersions.of other =
      img.methodVersions.of other := by
  rw [accept_methodVersions]
  split
  · exact Versions.of_append_ne hne
  · rw [Versions.of_prune_ne hne, Versions.of_append_ne hne]

/-- The accepted version is the latest, whether the old ones could be pruned or not. -/
theorem accept_getLast? (h : img.methodVersions.Ordered) (methodId : Nat) (content : MethodContent) :
    ((img.accept sentSelectors methodId content).methodVersions.of methodId).getLast? =
      some (img.methodVersions.nextId,
        ⟨methodId, img.methodVersions.nextNumber methodId, content⟩) := by
  rw [accept_methodVersions]
  split
  · rw [Versions.of_append, List.getLast?_concat]
  · exact Versions.getLast?_append_prune h (by decide) methodId content

theorem accept_ordered (h : img.methodVersions.Ordered) (methodId : Nat) (content : MethodContent) :
    (img.accept sentSelectors methodId content).methodVersions.Ordered := by
  rw [accept_methodVersions]
  split
  · exact h.append methodId content
  · exact (h.append methodId content).prune methodId retentionLimit

/-- The latest version before is the one before the latest after, as the window holds two. -/
theorem accept_previousOf (h : img.methodVersions.Ordered) {methodId : Nat}
    (hne : img.methodVersions.of methodId ≠ []) (content : MethodContent) :
    (img.accept sentSelectors methodId content).methodVersions.previousOf methodId =
      img.methodVersions.latestOf methodId := by
  rw [Versions.previousOf_eq (accept_ordered h methodId content), Versions.latestOf_eq h]
  obtain ⟨xs, last, heq⟩ := (List.eq_nil_or_concat' _).resolve_left hne
  rw [accept_methodVersions]
  split
  · rw [Versions.of_append, heq]
    simp
  · have hlast : (img.methodVersions.append methodId content).expired methodId retentionLimit
        last = false := by
      have hnext : img.methodVersions.nextNumber methodId = last.2.number + 1 := by
        unfold Versions.nextNumber
        rw [Versions.maxNumber_eq h, heq, List.getLast?_concat]
        rfl
      rw [← Bool.not_eq_true, Versions.expired_append h, hnext]
      unfold retentionLimit
      omega
    rw [Versions.of_prune, Versions.of_append, heq, List.filter_append, List.filter_append,
      List.filter_singleton, List.filter_singleton, hlast,
      Versions.expired_append_nextId h (by decide)]
    simp

/-! ## Edits keep it -/

theorem wf_new (foreignKeys : Bool) : (new foreignKeys).Wf := by
  refine ⟨?_, ?_, ?_, ?_, ?_, .nil, .nil, ?_⟩ <;> intro x hx <;> cases hx

namespace Wf

variable (h : img.Wf)
include h

theorem accept {methodId : Nat} (hm : ∃ m ∈ img.methods.rows, m.1 = methodId)
    (content : MethodContent) : (img.accept sentSelectors methodId content).Wf where
  classNames := by
    rw [accept_classes]
    exact h.classNames
  methodRows := by
    rw [accept_methods]
    exact h.methodRows
  methodClass := by
    rw [accept_methods, accept_classes]
    exact h.methodClass
  versionMethod := by
    rw [accept_methods]
    intro v hv
    rcases mem_accept hv with hv | rfl
    · exact h.versionMethod v hv
    · exact hm
  classVersionClass := by
    rw [accept_classVersions, accept_classes]
    exact h.classVersionClass
  ordered := accept_ordered h.ordered methodId content
  classOrdered := by
    rw [accept_classVersions]
    exact h.classOrdered
  sends := by
    rw [accept_nextId h.ordered, accept_methodSends]
    intro ms hms
    have hold : ms ∈ img.methodSends → ms.1 < img.methodVersions.nextId + 1 := fun hms =>
      Nat.lt_succ_of_lt (h.sends ms hms)
    unfold withVersion at hms
    dsimp only at hms
    split at hms
    · exact hold hms
    · rcases (mem_foldl_insertSend _ _).mp hms with hms | ⟨heq, -⟩
      · exact hold hms
      · omega

theorem withMethod {row : MethodRow} (hnew : ∀ m ∈ img.methods.rows, m.2 ≠ row)
    (hc : ∃ c ∈ img.classes.rows, c.1 = row.classId) : (img.withMethod row).Wf where
  classNames := h.classNames
  methodRows := by
    intro x hx y hy heq
    rcases (Table.mem_insert _).mp hx with hx | rfl <;> rcases (Table.mem_insert _).mp hy with hy | rfl
    · exact h.methodRows x hx y hy heq
    · exact absurd heq (hnew x hx)
    · exact absurd heq.symm (hnew y hy)
    · rfl
  methodClass := by
    intro m hm
    rcases (Table.mem_insert _).mp hm with hm | rfl
    · exact h.methodClass m hm
    · exact hc
  versionMethod := by
    intro v hv
    obtain ⟨m, hm, heq⟩ := h.versionMethod v hv
    exact ⟨m, (Table.mem_insert _).mpr (Or.inl hm), heq⟩
  classVersionClass := h.classVersionClass
  ordered := h.ordered
  classOrdered := h.classOrdered
  sends := h.sends

theorem withClassVersion {classId : Nat} (hc : ∃ c ∈ img.classes.rows, c.1 = classId)
    (content : ClassContent) : (img.withClassVersion classId content).Wf where
  classNames := h.classNames
  methodRows := h.methodRows
  methodClass := h.methodClass
  versionMethod := h.versionMethod
  classVersionClass := by
    intro v hv
    rcases (Table.mem_insert _).mp ((Table.mem_deleteWhere _).mp hv).1 with hv | rfl
    · exact h.classVersionClass v hv
    · exact hc
  ordered := h.ordered
  classOrdered := (h.classOrdered.append classId content).prune classId retentionLimit
  sends := h.sends

theorem owner_lt {v : Nat × Version MethodContent} (hv : v ∈ img.methodVersions.rows) :
    v.2.owner < img.methods.nextId := by
  obtain ⟨m, hm, heq⟩ := h.versionMethod v hv
  exact heq ▸ Table.lt_nextId _ hm

theorem classOwner_lt {v : Nat × Version ClassContent} (hv : v ∈ img.classVersions.rows) :
    v.2.owner < img.classes.nextId := by
  obtain ⟨c, hc, heq⟩ := h.classVersionClass v hv
  exact heq ▸ Table.lt_nextId _ hc

/-- A method that was not there yet has no versions. -/
theorem of_nextId : img.methodVersions.of img.methods.nextId = [] :=
  List.eq_nil_iff_forall_not_mem.mpr fun v hv => by
    obtain ⟨hrow, howner⟩ := Versions.mem_of.mp hv
    exact absurd howner (Nat.ne_of_lt (h.owner_lt hrow))

/-! ## What a query finds -/

theorem classIdOf_eq_some {className : String} {classId : Nat} :
    img.classIdOf className = some classId ↔
      ∃ c ∈ img.classes.rows, c.2.name = className ∧ c.1 = classId := by
  unfold classIdOf
  rw [Option.map_eq_some_iff]
  constructor
  · rintro ⟨c, hfind, rfl⟩
    exact ⟨c, List.mem_of_find?_eq_some hfind, by simpa using List.find?_some hfind, rfl⟩
  · rintro ⟨c, hc, hname, rfl⟩
    refine ⟨c, ?_, rfl⟩
    cases hfind : img.classes.rows.find? fun c => c.2.name = className with
    | none => exact absurd (decide_eq_true hname) (List.find?_eq_none.mp hfind c hc)
    | some c' =>
      have hname' : c'.2.name = className := by simpa using List.find?_some hfind
      rw [h.classNames c' (List.mem_of_find?_eq_some hfind) c hc (hname'.trans hname.symm)]

theorem methodIdOf_eq_some {className selector : String} {side : Side} {methodId : Nat} :
    img.methodIdOf className side selector = some methodId ↔
      ∃ c ∈ img.classes.rows, c.2.name = className ∧
        (methodId, ⟨c.1, selector, side⟩) ∈ img.methods.rows := by
  unfold methodIdOf
  simp only [Option.bind_eq_bind, Option.bind_eq_some_iff, h.classIdOf_eq_some]
  constructor
  · rintro ⟨_, ⟨c, hc, hname, rfl⟩, ⟨m, row⟩, hfind, heq⟩
    obtain rfl := Option.some.inj heq
    obtain ⟨h1, h2, h3⟩ : row.classId = c.1 ∧ row.side = side ∧ row.selector = selector := by
      simpa using List.find?_some hfind
    refine ⟨c, hc, hname, ?_⟩
    rw [← h1, ← h2, ← h3]
    exact List.mem_of_find?_eq_some hfind
  · rintro ⟨c, hc, hname, hm⟩
    refine ⟨c.1, ⟨c, hc, hname, rfl⟩, (methodId, ⟨c.1, selector, side⟩), ?_, rfl⟩
    cases hfind : img.methods.rows.find? fun m =>
        m.2.classId = c.1 ∧ m.2.side = side ∧ m.2.selector = selector with
    | none =>
      have hnone := List.find?_eq_none.mp hfind _ hm
      simp at hnone
    | some m' =>
      obtain ⟨h1, h2, h3⟩ : m'.2.classId = c.1 ∧ m'.2.side = side ∧ m'.2.selector = selector := by
        simpa using List.find?_some hfind
      have hrow : m'.2 = ⟨c.1, selector, side⟩ := by rw [← h1, ← h2, ← h3]
      rw [h.methodRows m' (List.mem_of_find?_eq_some hfind) _ hm hrow]

theorem exists_of_methodIdOf {className selector : String} {side : Side} {methodId : Nat}
    (hid : img.methodIdOf className side selector = some methodId) :
    ∃ m ∈ img.methods.rows, m.1 = methodId := by
  obtain ⟨c, -, -, hm⟩ := h.methodIdOf_eq_some.mp hid
  exact ⟨_, hm, rfl⟩

/-- A class without this method has no row for it. -/
theorem row_ne_of_methodIdOf {className selector : String} {side : Side} {classId : Nat}
    (hc : img.classIdOf className = some classId)
    (hm : img.methodIdOf className side selector = none) :
    ∀ m ∈ img.methods.rows, m.2 ≠ ⟨classId, selector, side⟩ := by
  rintro ⟨m, row⟩ hmem rfl
  obtain ⟨c, hrow, hname, rfl⟩ := h.classIdOf_eq_some.mp hc
  rw [h.methodIdOf_eq_some.mpr ⟨c, hrow, hname, hmem⟩] at hm
  cases hm

theorem exists_of_classIdOf {className : String} {classId : Nat}
    (hc : img.classIdOf className = some classId) : ∃ c ∈ img.classes.rows, c.1 = classId := by
  obtain ⟨c, hrow, -, rfl⟩ := h.classIdOf_eq_some.mp hc
  exact ⟨c, hrow, rfl⟩

/-! ## Every edit -/

theorem classVersions_of_nextId : img.classVersions.of img.classes.nextId = [] :=
  List.eq_nil_iff_forall_not_mem.mpr fun v hv => by
    obtain ⟨hrow, howner⟩ := Versions.mem_of.mp hv
    exact absurd howner (Nat.ne_of_lt (h.classOwner_lt hrow))

theorem addMethod_after (className : String) (side : Side) (selector category source : String) :
    (Edit.addMethod className side selector category source).after sentSelectors img =
      match img.classIdOf className with
      | none => img
      | some classId =>
        match img.methodIdOf className side selector with
        | some _ => img
        | none => img.withNewMethod ⟨classId, selector, side⟩ ⟨category, source, false⟩ := by
  rw [Image.addMethod_after fun v hv => h.owner_lt hv]
  cases hc : img.classIdOf className with
  | none => rfl
  | some classId =>
    dsimp only
    cases hm : img.methodIdOf className side selector with
    | some methodId =>
      obtain ⟨c, hrow, hname, hmem⟩ := h.methodIdOf_eq_some.mp hm
      have heq : c.1 = classId := by
        have hid := h.classIdOf_eq_some.mpr ⟨c, hrow, hname, rfl⟩
        rw [hc] at hid
        exact (Option.some.inj hid).symm
      rw [if_pos ⟨_, hmem, by rw [heq]⟩]
    | none =>
      rw [if_neg fun ⟨m, hmem, heq⟩ => h.row_ne_of_methodIdOf hc hm m hmem heq]
      unfold withNewMethod Versions.append Versions.nextNumber Versions.maxNumber
      rw [h.of_nextId]
      rfl

theorem createOrReopenMethod_after (className : String) (side : Side)
    (selector category source : String) :
    (Edit.createOrReopenMethod className side selector category source).after sentSelectors img =
      match img.classIdOf className with
      | none => img
      | some classId =>
        match img.methodIdOf className side selector with
        | some methodId => img.accept sentSelectors methodId ⟨category, source, false⟩
        | none => (img.withMethod ⟨classId, selector, side⟩).accept sentSelectors
            img.methods.nextId ⟨category, source, false⟩ :=
  Image.createOrReopenMethod_after h.ordered fun _ hc hm => h.row_ne_of_methodIdOf hc hm

theorem addClass_after (className : String) (superclass : Option String)
    (category comment instanceVars classVars : String) (loadOrder : Int) :
    (Edit.addClass className superclass category comment instanceVars classVars loadOrder).after
        sentSelectors img =
      if ∃ c ∈ img.classes.rows, c.2.name = className ∨ c.2.loadOrder = loadOrder then img
      else img.withClass ⟨className, loadOrder⟩
        ⟨superclass, category, comment, instanceVars, classVars, false⟩ := by
  rw [Image.addClass_after fun v hv => h.classOwner_lt hv]
  split
  · rfl
  · unfold withClass Versions.append Versions.nextNumber Versions.maxNumber
    rw [h.classVersions_of_nextId]
    rfl

theorem withNewMethod {row : MethodRow} (hnew : ∀ m ∈ img.methods.rows, m.2 ≠ row)
    (hc : ∃ c ∈ img.classes.rows, c.1 = row.classId) (content : MethodContent) :
    (img.withNewMethod row content).Wf := by
  have hwith := h.withMethod hnew hc
  refine ⟨hwith.classNames, hwith.methodRows, hwith.methodClass, fun v hv => ?_,
    hwith.classVersionClass, h.ordered.append _ _, hwith.classOrdered, fun ms hms => ?_⟩
  · rcases (Table.mem_insert _).mp hv with hv | rfl
    · exact hwith.versionMethod v hv
    · exact ⟨_, (Table.mem_insert _).mpr (Or.inr rfl), rfl⟩
  · have hlt := h.sends ms hms
    have hnext : (img.withNewMethod row content).methodVersions.nextId =
        img.methodVersions.nextId + 1 := by
      unfold Image.withNewMethod Versions.append Table.nextId Table.insert
      dsimp only
      rw [List.getLast?_concat]
      rfl
    omega

theorem withClass {row : ClassRow} (hnew : ∀ c ∈ img.classes.rows, c.2.name ≠ row.name)
    (content : ClassContent) : (img.withClass row content).Wf where
  classNames := by
    intro x hx y hy heq
    rcases (Table.mem_insert _).mp hx with hx | rfl <;> rcases (Table.mem_insert _).mp hy with hy | rfl
    · exact h.classNames x hx y hy heq
    · exact absurd heq (hnew x hx)
    · exact absurd heq.symm (hnew y hy)
    · rfl
  methodRows := h.methodRows
  methodClass := by
    intro m hm
    obtain ⟨c, hc, heq⟩ := h.methodClass m hm
    exact ⟨c, (Table.mem_insert _).mpr (Or.inl hc), heq⟩
  versionMethod := h.versionMethod
  classVersionClass := by
    intro v hv
    rcases (Table.mem_insert _).mp hv with hv | rfl
    · obtain ⟨c, hc, heq⟩ := h.classVersionClass v hv
      exact ⟨c, (Table.mem_insert _).mpr (Or.inl hc), heq⟩
    · exact ⟨_, (Table.mem_insert _).mpr (Or.inr rfl), rfl⟩
  ordered := h.ordered
  classOrdered := h.classOrdered.append _ _
  sends := h.sends

theorem after (e : Edit) : (e.after sentSelectors img).Wf := by
  cases e with
  | addClass n s cat com iv cv lo =>
    rw [h.addClass_after]
    split
    · exact h
    · next hnew => exact h.withClass (fun c hc hname => hnew ⟨c, hc, Or.inl hname⟩) _
  | addMethod c side sel cat src =>
    rw [h.addMethod_after]
    cases hc : img.classIdOf c with
    | none => exact h
    | some classId =>
      dsimp only
      cases hm : img.methodIdOf c side sel with
      | some _ => exact h
      | none =>
        exact h.withNewMethod (h.row_ne_of_methodIdOf hc hm) (h.exists_of_classIdOf hc) _
  | setMethodSource c side sel src =>
    rw [setMethodSource_after h.ordered]
    cases hm : img.methodIdOf c side sel with
    | none => exact h
    | some methodId =>
      dsimp only
      split
      · exact h
      · exact h.accept (h.exists_of_methodIdOf hm) _
  | createOrReopenMethod c side sel cat src =>
    rw [h.createOrReopenMethod_after]
    cases hc : img.classIdOf c with
    | none => exact h
    | some classId =>
      dsimp only
      cases hm : img.methodIdOf c side sel with
      | some methodId => exact h.accept (h.exists_of_methodIdOf hm) _
      | none =>
        exact (h.withMethod (h.row_ne_of_methodIdOf hc hm) (h.exists_of_classIdOf hc)).accept
          ⟨_, (Table.mem_insert _).mpr (Or.inr rfl), rfl⟩ _
  | removeMethod c side sel =>
    rw [removeMethod_after h.ordered]
    cases hm : img.methodIdOf c side sel with
    | none => exact h
    | some methodId =>
      dsimp only
      split
      · exact h
      · split
        · exact h
        · exact h.accept (h.exists_of_methodIdOf hm) _
  | undoMethod c side sel =>
    rw [undoMethod_after h.ordered]
    cases hm : img.methodIdOf c side sel with
    | none => exact h
    | some methodId =>
      dsimp only
      split
      · exact h
      · exact h.accept (h.exists_of_methodIdOf hm) _
  | removeClass c =>
    rw [removeClass_after h.classOrdered]
    cases hc : img.classIdOf c with
    | none => exact h
    | some classId =>
      dsimp only
      split
      · exact h
      · split
        · exact h
        · exact h.withClassVersion (h.exists_of_classIdOf hc) _
  | undoClass c =>
    rw [undoClass_after h.classOrdered]
    cases hc : img.classIdOf c with
    | none => exact h
    | some classId =>
      dsimp only
      split
      · exact h
      · exact h.withClassVersion (h.exists_of_classIdOf hc) _

theorem run (edits : List Edit) : (edits.foldl (Edit.after sentSelectors) img).Wf := by
  induction edits generalizing img with
  | nil => exact h
  | cons e edits ih => exact ih (h.after e)

end Wf

end Image

end WinVm.ImageStore
