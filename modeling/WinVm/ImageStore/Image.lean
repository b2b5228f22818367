import WinVm.Lib.Versions

/-!
# The image

The tables of `SCHEMA` and the statements that read them (`image_store/src/lib.rs`). The views
`latest_class_versions` and `latest_method_versions` are `Versions.latest` of the two tables.

The connection enforces the `REFERENCES` of the schema or does not (`PRAGMA foreign_keys`); the
bundled SQLite that `Cargo.toml` asks for is built with `SQLITE_DEFAULT_FOREIGN_KEYS=1`. Columns
that none of these statements read (`edited_at`, `source_file`) are left out.
-/

namespace WinVm.ImageStore

open WinVm.Lib

/-- `RETENTION_LIMIT`. -/
def retentionLimit : Nat := 100

inductive Side where
  | instanceSide
  | classSide
deriving DecidableEq, Repr

def Side.asStr : Side → String
  | instanceSide => "instance"
  | classSide => "class"

/-! ## The tables -/

structure ClassRow where
  name : String
  loadOrder : Int
deriving DecidableEq, Repr

/-- What a class version records besides its number. -/
structure ClassContent where
  superclassName : Option String
  category : String
  comment : String
  instanceVars : String
  classVars : String
  deleted : Bool
deriving DecidableEq, Repr

structure MethodRow where
  classId : Nat
  selector : String
  side : Side
deriving DecidableEq, Repr

/-- What a method version records besides its number. -/
structure MethodContent where
  category : String
  source : String
  deleted : Bool
deriving DecidableEq, Repr

structure Image where
  foreignKeys : Bool
  classes : Table ClassRow
  /-- The owner of a class version is its `class_id`. -/
  classVersions : Versions ClassContent
  methods : Table MethodRow
  /-- The owner of a method version is its `method_id`. -/
  methodVersions : Versions MethodContent
  /-- Pairs of a method version's key and a selector; the pair is the primary key. -/
  methodSends : List (Nat × String)

namespace Image

/-- A new database. -/
def new (foreignKeys : Bool) : Image := ⟨foreignKeys, .empty, .empty, .empty, .empty, []⟩

variable (img : Image)

/-! ## Reading -/

def classIdOf (className : String) : Option Nat :=
  (img.classes.rows.find? fun c => c.2.name = className).map Prod.fst

def methodIdOf (className : String) (side : Side) (selector : String) : Option Nat := do
  let classId ← img.classIdOf className
  let m ← img.methods.rows.find? fun m =>
    m.2.classId = classId ∧ m.2.side = side ∧ m.2.selector = selector
  some m.1

/-- `MethodPresence`. -/
inductive MethodPresence where
  | live (source : String)
  | deleted
  | absent
deriving DecidableEq, Repr

def methodPresence (className : String) (side : Side) (selector : String) : MethodPresence :=
  match (img.methodIdOf className side selector).bind img.methodVersions.latestOf with
  | none => .absent
  | some v => if v.2.content.deleted then .deleted else .live v.2.content.source

/-- `ORDER BY` on texts, with the binary collation. -/
def textLe : List String → List String → Prop
  | [], _ => True
  | _ :: _, [] => False
  | x :: xs, y :: ys => x < y ∨ (x = y ∧ textLe xs ys)

instance textLe.decidable : ∀ xs ys, Decidable (textLe xs ys)
  | [], _ => isTrue trivial
  | _ :: _, [] => isFalse id
  | x :: xs, y :: ys =>
    have := textLe.decidable xs ys
    inferInstanceAs (Decidable (x < y ∨ (x = y ∧ textLe xs ys)))

def orderBy {α : Type} (key : α → List String) (rows : List α) : List α :=
  rows.insertionSort fun x y => textLe (key x) (key y)

/-- The classes with a live method of this selector, and the side. -/
def implementorsOf (selector : String) : List (String × Side) :=
  orderBy (fun r => [r.1, r.2.asStr]) <|
    img.classes.rows.flatMap fun c =>
    (img.methods.rows.filter fun m => m.2.classId = c.1 ∧ m.2.selector = selector).flatMap fun m =>
    (img.methodVersions.latest.filter fun v =>
      v.2.owner = m.1 ∧ v.2.content.deleted = false).map fun _ => (c.2.name, m.2.side)

/-- The methods whose latest version has an edge to this selector. -/
def sendersOf (selector : String) : List (String × String × Side) :=
  orderBy (fun r => [r.1, r.2.1, r.2.2.asStr]) <|
    (img.methodSends.filter fun ms => ms.2 = selector).flatMap fun ms =>
    (img.methodVersions.latest.filter fun v =>
      v.1 = ms.1 ∧ v.2.content.deleted = false).flatMap fun v =>
    (img.methods.rows.filter fun m => m.1 = v.2.owner).flatMap fun m =>
    (img.classes.rows.filter fun c => c.1 = m.2.classId).map fun c =>
      (c.2.name, m.2.selector, m.2.side)

end Image

end WinVm.ImageStore
