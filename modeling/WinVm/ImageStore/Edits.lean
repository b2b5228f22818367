import WinVm.ImageStore.Mutations

/-!
# What an edit leaves

Each mutation as a function of the image before it. All edits of an existing method end in the
same two statements, the insertion of a version and the pruning of old ones (`accept`).
-/

namespace WinVm.ImageStore

open WinVm.Lib

/-- The image a mutation leaves, whether it succeeds or fails. -/
def Db.after {α : Type} (x : Db α) (img : Image) : Image :=
  match x.run img with
  | .ok _ img' => img'
  | .error _ img' => img'

namespace Db

variable {α β : Type} {img img' : Image}

theorem after_get (f : Image → Db α) : after (get >>= f) img = after (f img) img := rfl

theorem after_pure (a : α) : after (pure a) img = img := rfl

theorem after_bind {x : Db α} {a : α} (h : x.run img = .ok a img') (f : α → Db β) :
    after (x >>= f) img = after (f a) img' := by
  unfold after
  rw [EStateM.run_bind, h]

theorem after_bind_error {x : Db α} {e : DbError} (h : x.run img = .error e img') (f : α → Db β) :
    after (x >>= f) img = img' := by
  unfold after
  rw [EStateM.run_bind, h]

end Db

inductive Edit where
  | addClass (name : String) (superclass : Option String)
      (category comment instanceVars classVars : String) (loadOrder : Int)
  | addMethod (className : String) (side : Side) (selector category source : String)
  | setMethodSource (className : String) (side : Side) (selector newSource : String)
  | createOrReopenMethod (className : String) (side : Side) (selector category source : String)
  | removeMethod (className : String) (side : Side) (selector : String)
  | undoMethod (className : String) (side : Side) (selector : String)
  | removeClass (className : String)
  | undoClass (className : String)
deriving DecidableEq, Repr

def Edit.after (sentSelectors : String → List String) (img : Image) : Edit → Image
  | addClass n s cat com iv cv lo => Db.after (Image.addClass n s cat com iv cv lo) img
  | addMethod c side sel cat src => Db.after (Image.addMethod c side sel cat src) img
  | setMethodSource c side sel src =>
    Db.after (Image.setMethodSource sentSelectors c side sel src) img
  | createOrReopenMethod c side sel cat src =>
    Db.after (Image.createOrReopenMethod sentSelectors c side sel cat src) img
  | removeMethod c side sel => Db.after (Image.removeMethod sentSelectors c side sel) img
  | undoMethod c side sel => Db.after (Image.undoMethod sentSelectors c side sel) img
  | removeClass c => Db.after (Image.removeClass c) img
  | undoClass c => Db.after (Image.undoClass c) img

namespace Image

variable (sentSelectors : String → List String) (img : Image)

/-- A version appended, with the edges of its sends unless it is a tombstone. -/
def withVersion (methodId : Nat) (content : MethodContent) : Image :=
  { img with
    methodVersions := img.methodVersions.append methodId content
    methodSends := if content.deleted then img.methodSends
      else (sentSelectors content.source).foldl (insertSend img.methodVersions.nextId)
        img.methodSends }

/-- A foreign key keeps the method's expired versions from being deleted. -/
def PruneBlocked (methodId : Nat) : Prop :=
  img.foreignKeys = true ∧ ∃ v ∈ img.methodVersions.rows,
    img.methodVersions.expired methodId retentionLimit v = true ∧ ∃ ms ∈ img.methodSends, ms.1 = v.1

instance (methodId : Nat) : Decidable (img.PruneBlocked methodId) :=
  inferInstanceAs (Decidable (_ ∧ ∃ v ∈ img.methodVersions.rows, _ ∧ ∃ ms ∈ img.methodSends, _))

def pruned (methodId : Nat) : Image :=
  { img with methodVersions := img.methodVersions.prune methodId retentionLimit }

/-- A version appended, and the old ones pruned unless that is blocked. -/
def accept (methodId : Nat) (content : MethodContent) : Image :=
  let img := img.withVersion sentSelectors methodId content
  if img.PruneBlocked methodId then img else img.pruned methodId

/-- One more row in `methods`. -/
def withMethod (row : MethodRow) : Image := { img with methods := img.methods.insert row }

/-- A new method with its first version, without edges. -/
def withNewMethod (row : MethodRow) (content : MethodContent) : Image :=
  { img.withMethod row with
    methodVersions := img.methodVersions.append img.methods.nextId content }

/-- A new class with its first version. -/
def withClass (row : ClassRow) (content : ClassContent) : Image :=
  { img with
    classes := img.classes.insert row
    classVersions := img.classVersions.append img.classes.nextId content }

def withClassVersion (classId : Nat) (content : ClassContent) : Image :=
  { img with classVersions :=
      (img.classVersions.append classId content).prune classId retentionLimit }

/-! ## The statements -/

variable {sentSelectors img} {α : Type}

theorem queryRow_after {query : Image → Option α} {β : Type} (f : α → Db β) :
    Db.after (queryRow query >>= f) img =
      match query img with
      | some row => Db.after (f row) img
      | none => img := by
  have hrun : (queryRow query).run img = match query img with
      | some row => .ok row img
      | none => .error .noRows img := by
    unfold queryRow
    rw [EStateM.run_bind, EStateM.run_get]
    dsimp only
    cases query img <;> rfl
  cases hq : query img with
  | some row =>
    rw [hq] at hrun
    exact Db.after_bind hrun f
  | none =>
    rw [hq] at hrun
    exact Db.after_bind_error hrun f

theorem insertMethod_run {row : MethodRow} (hnew : ∀ m ∈ img.methods.rows, m.2 ≠ row) :
    (insertMethod row).run img = .ok img.methods.nextId (img.withMethod row) := by
  have hnone : (img.methods.rows.any fun m => m.2 = row) = false := by
    simpa [List.any_eq_false] using hnew
  unfold insertMethod
  simp only [EStateM.run_bind, EStateM.run_get, hnone, Bool.false_eq_true, if_false]
  rfl

theorem insertMethodVersionRow_run {v : Version MethodContent}
    (hfresh : ∀ x ∈ img.methodVersions.rows, x.2.owner = v.owner → x.2.number < v.number) :
    (insertMethodVersionRow v).run img = .ok img.methodVersions.nextId
      { img with methodVersions := img.methodVersions.insert v } := by
  have hnone : (img.methodVersions.rows.any fun x => x.2.owner = v.owner ∧
      x.2.number = v.number) = false := by
    rw [List.any_eq_false]
    intro x hx heq
    obtain ⟨howner, hnum⟩ := of_decide_eq_true heq
    exact absurd hnum (Nat.ne_of_lt (hfresh x hx howner))
  unfold insertMethodVersionRow
  simp only [EStateM.run_bind, EStateM.run_get, hnone, Bool.false_eq_true, if_false]
  rfl

theorem insertClassVersionRow_run {v : Version ClassContent}
    (hfresh : ∀ x ∈ img.classVersions.rows, x.2.owner = v.owner → x.2.number < v.number) :
    (insertClassVersionRow v).run img = .ok img.classVersions.nextId
      { img with classVersions := img.classVersions.insert v } := by
  have hnone : (img.classVersions.rows.any fun x => x.2.owner = v.owner ∧
      x.2.number = v.number) = false := by
    rw [List.any_eq_false]
    intro x hx heq
    obtain ⟨howner, hnum⟩ := of_decide_eq_true heq
    exact absurd hnum (Nat.ne_of_lt (hfresh x hx howner))
  unfold insertClassVersionRow
  simp only [EStateM.run_bind, EStateM.run_get, hnone, Bool.false_eq_true, if_false]
  rfl

theorem insertMethodVersion_run (h : img.methodVersions.Ordered) (methodId : Nat)
    (content : MethodContent) :
    (insertMethodVersion sentSelectors methodId content.category content.source
      content.deleted).run img = .ok () (img.withVersion sentSelectors methodId content) := by
  obtain ⟨category, source, deleted⟩ := content
  unfold insertMethodVersion withVersion
  rw [EStateM.run_bind, EStateM.run_get]
  dsimp only
  rw [EStateM.run_bind, insertMethodVersionRow_run fun x hx howner =>
    Versions.number_lt_nextNumber h (Versions.mem_of.mpr ⟨hx, howner⟩)]
  cases deleted <;> rfl

theorem insertClassVersion_run (h : img.classVersions.Ordered) (classId : Nat)
    (content : ClassContent) : (insertClassVersion classId content).run img =
      .ok () { img with classVersions := img.classVersions.append classId content } := by
  unfold insertClassVersion
  rw [EStateM.run_bind, EStateM.run_get]
  dsimp only
  rw [EStateM.run_bind, insertClassVersionRow_run fun x hx howner =>
    Versions.number_lt_nextNumber h (Versions.mem_of.mpr ⟨hx, howner⟩)]
  rfl

theorem pruneMethodVersions_run (methodId : Nat) : (pruneMethodVersions methodId).run img =
    if img.PruneBlocked methodId then .error .foreignKey img
    else .ok () (img.pruned methodId) := by
  have hblocked : (img.foreignKeys = true ∧ ((img.methodVersions.rows.filter
      (img.methodVersions.expired methodId retentionLimit)).any
      fun v => img.methodSends.any fun ms => decide (ms.1 = v.1)) = true) ↔
      img.PruneBlocked methodId := by
    unfold PruneBlocked
    simp only [List.any_eq_true, List.mem_filter, decide_eq_true_eq, and_assoc]
  unfold pruneMethodVersions
  rw [EStateM.run_bind, EStateM.run_get]
  dsimp only
  by_cases hb : img.PruneBlocked methodId
  · rw [if_pos hb, if_pos (hblocked.mpr hb)]
    rfl
  · rw [if_neg hb, if_neg (mt hblocked.mp hb)]
    rfl

/-- The two statements an edit of a method ends in. -/
theorem accept_after (h : img.methodVersions.Ordered) (methodId : Nat) (content : MethodContent)
    (a : α) : Db.after (do
      insertMethodVersion sentSelectors methodId content.category content.source content.deleted
      pruneMethodVersions methodId
      pure a) img = img.accept sentSelectors methodId content := by
  have hprune : (pruneMethodVersions methodId).run
      (img.withVersion sentSelectors methodId content) = _ := pruneMethodVersions_run methodId
  rw [Db.after_bind (insertMethodVersion_run h methodId content)]
  unfold accept
  dsimp only
  split at hprune
  · next hb => rw [if_pos hb, Db.after_bind_error hprune]
  · next hb => rw [if_neg hb, Db.after_bind hprune, Db.after_pure]

theorem acceptClass_after (h : img.classVersions.Ordered) (classId : Nat) (content : ClassContent)
    (a : α) : Db.after (do
      insertClassVersion classId content
      pruneClassVersions classId
      pure a) img = img.withClassVersion classId content := by
  rw [Db.after_bind (insertClassVersion_run h classId content)]
  rfl

/-! ## The edits -/

variable {className selector : String} {side : Side} {category source : String}

theorem setMethodSource_after (h : img.methodVersions.Ordered) :
    (Edit.setMethodSource className side selector source).after sentSelectors img =
      match img.methodIdOf className side selector with
      | none => img
      | some methodId =>
        match img.methodVersions.latestOf methodId with
        | none => img
        | some latest =>
          img.accept sentSelectors methodId ⟨latest.2.content.category, source, false⟩ := by
  rw [Edit.after, setMethodSource, Db.after_get]
  cases img.methodIdOf className side selector with
  | none => rfl
  | some methodId =>
    dsimp only
    rw [queryRow_after]
    cases img.methodVersions.latestOf methodId with
    | none => rfl
    | some latest => exact accept_after h methodId ⟨latest.2.content.category, source, false⟩ true

theorem removeMethod_after (h : img.methodVersions.Ordered) :
    (Edit.removeMethod className side selector).after sentSelectors img =
      match img.methodIdOf className side selector with
      | none => img
      | some methodId =>
        match img.methodVersions.latestOf methodId with
        | none => img
        | some latest =>
          if latest.2.content.deleted then img
          else img.accept sentSelectors methodId { latest.2.content with deleted := true } := by
  rw [Edit.after, removeMethod, Db.after_get]
  cases img.methodIdOf className side selector with
  | none => rfl
  | some methodId =>
    dsimp only
    rw [queryRow_after]
    cases img.methodVersions.latestOf methodId with
    | none => rfl
    | some latest =>
      dsimp only
      split
      · rfl
      · exact accept_after h methodId { latest.2.content with deleted := true } true

theorem undoMethod_after (h : img.methodVersions.Ordered) :
    (Edit.undoMethod className side selector).after sentSelectors img =
      match img.methodIdOf className side selector with
      | none => img
      | some methodId =>
        match img.methodVersions.previousOf methodId with
        | none => img
        | some previous => img.accept sentSelectors methodId previous.2.content := by
  rw [Edit.after, undoMethod, Db.after_get]
  cases img.methodIdOf className side selector with
  | none => rfl
  | some methodId =>
    dsimp only
    rw [Db.after_get]
    cases img.methodVersions.previousOf methodId with
    | none => rfl
    | some previous => exact accept_after h methodId previous.2.content true

theorem createOrReopenMethod_after (h : img.methodVersions.Ordered)
    (hnew : ∀ classId, img.classIdOf className = some classId →
      img.methodIdOf className side selector = none →
      ∀ m ∈ img.methods.rows, m.2 ≠ ⟨classId, selector, side⟩) :
    (Edit.createOrReopenMethod className side selector category source).after sentSelectors img =
      match img.classIdOf className with
      | none => img
      | some classId =>
        match img.methodIdOf className side selector with
        | some methodId => img.accept sentSelectors methodId ⟨category, source, false⟩
        | none => (img.withMethod ⟨classId, selector, side⟩).accept sentSelectors
            img.methods.nextId ⟨category, source, false⟩ := by
  rw [Edit.after, createOrReopenMethod, Db.after_get]
  cases hc : img.classIdOf className with
  | none => rfl
  | some classId =>
    dsimp only
    rw [Db.after_get]
    cases hm : img.methodIdOf className side selector with
    | some methodId => exact accept_after h methodId ⟨category, source, false⟩ (some methodId)
    | none =>
      dsimp only
      rw [Db.after_bind (insertMethod_run (hnew classId hc hm))]
      exact accept_after
        (show (img.withMethod ⟨classId, selector, side⟩).methodVersions.Ordered from h) _
        ⟨category, source, false⟩ (some img.methods.nextId)

theorem addMethod_after (hv : ∀ v ∈ img.methodVersions.rows, v.2.owner < img.methods.nextId) :
    (Edit.addMethod className side selector category source).after sentSelectors img =
      match img.classIdOf className with
      | none => img
      | some classId =>
        if ∃ m ∈ img.methods.rows, m.2 = ⟨classId, selector, side⟩ then img
        else { img.withMethod ⟨classId, selector, side⟩ with
          methodVersions := img.methodVersions.insert
            ⟨img.methods.nextId, 1, category, source, false⟩ } := by
  rw [Edit.after, addMethod, Db.after_get]
  cases hc : img.classIdOf className with
  | none => rfl
  | some classId =>
    dsimp only
    split
    · next hold =>
      have hrun : (insertMethod ⟨classId, selector, side⟩).run img = .error .unique img := by
        have hany : (img.methods.rows.any fun m => m.2 = ⟨classId, selector, side⟩) = true := by
          simpa [List.any_eq_true] using hold
        unfold insertMethod
        rw [EStateM.run_bind, EStateM.run_get]
        dsimp only
        rw [if_pos hany]
        rfl
      exact Db.after_bind_error hrun _
    · next hnew =>
      rw [Db.after_bind (insertMethod_run fun m hm heq => hnew ⟨m, hm, heq⟩)]
      have hrow : (insertMethodVersionRow ⟨img.methods.nextId, 1, category, source, false⟩).run
          (img.withMethod ⟨classId, selector, side⟩) = _ := insertMethodVersionRow_run
        fun x hx howner => absurd howner (Nat.ne_of_lt (hv x hx))
      exact Db.after_bind hrow _

variable {superclass : Option String} {comment instanceVars classVars : String} {loadOrder : Int}

theorem addClass_after (hv : ∀ v ∈ img.classVersions.rows, v.2.owner < img.classes.nextId) :
    (Edit.addClass className superclass category comment instanceVars classVars loadOrder).after
        sentSelectors img =
      if ∃ c ∈ img.classes.rows, c.2.name = className ∨ c.2.loadOrder = loadOrder then img
      else { img with
        classes := img.classes.insert ⟨className, loadOrder⟩
        classVersions := img.classVersions.insert ⟨img.classes.nextId, 1, superclass, category,
          comment, instanceVars, classVars, false⟩ } := by
  rw [Edit.after, addClass]
  by_cases hold : ∃ c ∈ img.classes.rows, c.2.name = className ∨ c.2.loadOrder = loadOrder
  · have hrun : (insertClass ⟨className, loadOrder⟩).run img = .error .unique img := by
      have hany : (img.classes.rows.any fun c => c.2.name = className ∨
          c.2.loadOrder = loadOrder) = true := by
        simpa [List.any_eq_true] using hold
      unfold insertClass
      rw [EStateM.run_bind, EStateM.run_get]
      dsimp only
      rw [if_pos hany]
      rfl
    rw [if_pos hold]
    exact Db.after_bind_error hrun _
  · have hrun : (insertClass ⟨className, loadOrder⟩).run img = .ok img.classes.nextId
        { img with classes := img.classes.insert ⟨className, loadOrder⟩ } := by
      have hany : (img.classes.rows.any fun c => c.2.name = className ∨
          c.2.loadOrder = loadOrder) = false := by
        simpa [List.any_eq_false] using hold
      unfold insertClass
      rw [EStateM.run_bind, EStateM.run_get]
      dsimp only
      rw [hany]
      rfl
    have hrow : (insertClassVersionRow ⟨img.classes.nextId, 1, superclass, category, comment,
        instanceVars, classVars, false⟩).run
        { img with classes := img.classes.insert ⟨className, loadOrder⟩ } = _ :=
      insertClassVersionRow_run fun x hx howner => absurd howner (Nat.ne_of_lt (hv x hx))
    rw [if_neg hold, Db.after_bind hrun]
    exact Db.after_bind hrow _

theorem removeClass_after (h : img.classVersions.Ordered) :
    (Edit.removeClass className).after sentSelectors img =
      match img.classIdOf className with
      | none => img
      | some classId =>
        match img.classVersions.latestOf classId with
        | none => img
        | some latest =>
          if latest.2.content.deleted then img
          else img.withClassVersion classId { latest.2.content with deleted := true } := by
  rw [Edit.after, removeClass, Db.after_get]
  cases img.classIdOf className with
  | none => rfl
  | some classId =>
    dsimp only
    rw [queryRow_after]
    cases img.classVersions.latestOf classId with
    | none => rfl
    | some latest =>
      dsimp only
      split
      · rfl
      · exact acceptClass_after h classId _ true

theorem undoClass_after (h : img.classVersions.Ordered) :
    (Edit.undoClass className).after sentSelectors img =
      match img.classIdOf className with
      | none => img
      | some classId =>
        match img.classVersions.previousOf classId with
        | none => img
        | some previous => img.withClassVersion classId previous.2.content := by
  rw [Edit.after, undoClass, Db.after_get]
  cases img.classIdOf className with
  | none => rfl
  | some classId =>
    dsimp only
    rw [Db.after_get]
    cases img.classVersions.previousOf classId with
    | none => rfl
    | some previous => exact acceptClass_after h classId previous.2.content true

end Image

end WinVm.ImageStore
