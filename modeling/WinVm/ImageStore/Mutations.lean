import WinVm.ImageStore.Image

/-!
# Changing the image

The mutations of `image_store/src/lib.rs`. Every statement is a transaction of its own: when one
fails, what the statements before it have written stays.

An `INSERT` names only rows that were just read or written, so a foreign key can only be violated
by a `DELETE`.
-/

namespace WinVm.ImageStore

open WinVm.Lib

inductive DbError where
  | unique
  | foreignKey
  | noRows
deriving DecidableEq, Repr

abbrev Db := EStateM DbError Image

namespace Image

/-! ## Statements -/

/-- `query_row`. -/
def queryRow {α : Type} (query : Image → Option α) : Db α := do
  match query (← get) with
  | some row => pure row
  | none => throw .noRows

def insertClass (row : ClassRow) : Db Nat := do
  let img ← get
  if img.classes.rows.any fun c => c.2.name = row.name ∨ c.2.loadOrder = row.loadOrder then
    throw .unique
  set { img with classes := img.classes.insert row }
  pure img.classes.nextId

def insertMethod (row : MethodRow) : Db Nat := do
  let img ← get
  if img.methods.rows.any fun m => m.2 = row then throw .unique
  set { img with methods := img.methods.insert row }
  pure img.methods.nextId

def insertClassVersionRow (v : Version ClassContent) : Db Nat := do
  let img ← get
  if img.classVersions.rows.any fun x => x.2.owner = v.owner ∧ x.2.number = v.number then
    throw .unique
  set { img with classVersions := img.classVersions.insert v }
  pure img.classVersions.nextId

def insertMethodVersionRow (v : Version MethodContent) : Db Nat := do
  let img ← get
  if img.methodVersions.rows.any fun x => x.2.owner = v.owner ∧ x.2.number = v.number then
    throw .unique
  set { img with methodVersions := img.methodVersions.insert v }
  pure img.methodVersions.nextId

/-- `INSERT OR IGNORE INTO method_sends`. -/
def insertSend (versionId : Nat) (sends : List (Nat × String)) (selector : String) :
    List (Nat × String) :=
  if (versionId, selector) ∈ sends then sends else sends ++ [(versionId, selector)]

/-! ## Versions -/

/-- The selectors a source sends are what `sent_selectors` finds in it. -/
def insertMethodVersion (sentSelectors : String → List String) (methodId : Nat)
    (category source : String) (deleted : Bool) : Db Unit := do
  let next := (← get).methodVersions.nextNumber methodId
  let versionId ← insertMethodVersionRow ⟨methodId, next, category, source, deleted⟩
  if deleted then pure ()
  else modify fun img =>
    { img with methodSends := (sentSelectors source).foldl (insertSend versionId) img.methodSends }

def insertClassVersion (classId : Nat) (content : ClassContent) : Db Unit := do
  let next := (← get).classVersions.nextNumber classId
  let _ ← insertClassVersionRow ⟨classId, next, content⟩

/-- The `DELETE` fails as a whole if a row of `method_sends` refers to a version it would delete. -/
def pruneMethodVersions (methodId : Nat) : Db Unit := do
  let img ← get
  let doomed := img.methodVersions.rows.filter (img.methodVersions.expired methodId retentionLimit)
  if img.foreignKeys ∧ doomed.any fun v => img.methodSends.any fun ms => ms.1 = v.1 then
    throw .foreignKey
  set { img with methodVersions := img.methodVersions.prune methodId retentionLimit }

/-- Nothing refers to a class version. -/
def pruneClassVersions (classId : Nat) : Db Unit :=
  modify fun img => { img with classVersions := img.classVersions.prune classId retentionLimit }

/-! ## Mutations -/

def addClass (name : String) (superclass : Option String)
    (category comment instanceVars classVars : String) (loadOrder : Int) : Db Nat := do
  let classId ← insertClass ⟨name, loadOrder⟩
  let _ ← insertClassVersionRow
    ⟨classId, 1, superclass, category, comment, instanceVars, classVars, false⟩
  pure classId

def addMethod (className : String) (side : Side) (selector category source : String) :
    Db (Option Nat) := do
  match (← get).classIdOf className with
  | none => pure none
  | some classId =>
    let methodId ← insertMethod ⟨classId, selector, side⟩
    let _ ← insertMethodVersionRow ⟨methodId, 1, category, source, false⟩
    pure (some methodId)

/-- A removed class keeps its row, so that `class_id_of` finds it. -/
def removeClass (className : String) : Db Bool := do
  match (← get).classIdOf className with
  | none => pure false
  | some classId =>
    let latest ← queryRow fun img => img.classVersions.latestOf classId
    if latest.2.content.deleted then pure false
    else
      insertClassVersion classId { latest.2.content with deleted := true }
      pruneClassVersions classId
      pure true

def undoClass (className : String) : Db Bool := do
  match (← get).classIdOf className with
  | none => pure false
  | some classId =>
    match (← get).classVersions.previousOf classId with
    | none => pure false
    | some previous =>
      insertClassVersion classId previous.2.content
      pruneClassVersions classId
      pure true

section Methods

variable (sentSelectors : String → List String)
variable (className : String) (side : Side) (selector : String)

def setMethodSource (newSource : String) : Db Bool := do
  match (← get).methodIdOf className side selector with
  | none => pure false
  | some methodId =>
    let latest ← queryRow fun img => img.methodVersions.latestOf methodId
    insertMethodVersion sentSelectors methodId latest.2.content.category newSource false
    pruneMethodVersions methodId
    pure true

def removeMethod : Db Bool := do
  match (← get).methodIdOf className side selector with
  | none => pure false
  | some methodId =>
    let latest ← queryRow fun img => img.methodVersions.latestOf methodId
    if latest.2.content.deleted then pure false
    else
      insertMethodVersion sentSelectors methodId latest.2.content.category
        latest.2.content.source true
      pruneMethodVersions methodId
      pure true

def createOrReopenMethod (category source : String) : Db (Option Nat) := do
  match (← get).classIdOf className with
  | none => pure none
  | some classId =>
    let methodId ← match (← get).methodIdOf className side selector with
      | some methodId => pure methodId
      | none => insertMethod ⟨classId, selector, side⟩
    insertMethodVersion sentSelectors methodId category source false
    pruneMethodVersions methodId
    pure (some methodId)

/-- The version before the latest becomes a new one, with its own `deleted` flag. -/
def undoMethod : Db Bool := do
  match (← get).methodIdOf className side selector with
  | none => pure false
  | some methodId =>
    match (← get).methodVersions.previousOf methodId with
    | none => pure false
    | some previous =>
      insertMethodVersion sentSelectors methodId previous.2.content.category
        previous.2.content.source previous.2.content.deleted
      pruneMethodVersions methodId
      pure true

end Methods

end Image

end WinVm.ImageStore
