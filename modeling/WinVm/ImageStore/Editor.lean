import Mathlib
import WinVm.ImageStore.ClassText
import WinVm.ImageStore.LoadOrder
import WinVm.ImageStore.WellFormed

/-!
# The class editor

The editor shows a class as `class_source` renders it. Accepting a text parses it with
`parse_mst_source` and stores what differs (`persist_editor_class` of `gui/src/vm_host.rs`).

Results: `editor_round_trip`, for which classes the text is read back as the class that is stored,
and what accepting it unchanged writes.
-/

namespace WinVm.ImageStore

open WinVm.Lib

structure FullClass where
  name : String
  superclass : Option String
  category : String
  comment : String
  instanceVars : String
  classVars : String
  loadOrder : Int
deriving DecidableEq, Repr

structure FullMethod where
  selector : String
  side : Side
  category : String
  source : String
deriving DecidableEq, Repr

inductive ClassCreateOutcome where
  | created
  | reopened
  | alreadyLive
deriving DecidableEq, Repr

def sideOf (isClassSide : Bool) : Side := if isClassSide then .classSide else .instanceSide

/-- A stored method as the parser would give it. -/
def FullMethod.parsed (m : FullMethod) : ParsedMethod :=
  ⟨m.selector, m.side = .classSide, m.source⟩

namespace Image

variable (img : Image)

/-! ## Showing a class -/

def classNamed (className : String) : Option FullClass :=
  ((img.classes.rows.filter fun c => c.2.name = className).flatMap fun c =>
    (img.classVersions.latest.filter fun v =>
      v.2.owner = c.1 ∧ v.2.content.deleted = false).map fun v =>
      { name := c.2.name
        superclass := v.2.content.superclassName
        category := v.2.content.category
        comment := v.2.content.comment
        instanceVars := v.2.content.instanceVars
        classVars := v.2.content.classVars
        loadOrder := c.2.loadOrder }).head?

/-- The live methods of a class, in the order of their ids. -/
def allMethodsOf (className : String) : List FullMethod :=
  (((img.classes.rows.filter fun c => c.2.name = className).flatMap fun c =>
    (img.methods.rows.filter fun m => m.2.classId = c.1).flatMap fun m =>
    (img.methodVersions.latest.filter fun v =>
      v.2.owner = m.1 ∧ v.2.content.deleted = false).map fun v =>
      (m.1, FullMethod.mk m.2.selector m.2.side v.2.content.category v.2.content.source)).insertionSort
    fun x y => x.1 ≤ y.1).map Prod.snd

def classSource (className : String) : Option String :=
  (img.classNamed className).map fun c =>
    String.ofList (classBlock (c.superclass.getD "Object").toList c.name.toList
      c.instanceVars.toList c.classVars.toList
      ((img.allMethodsOf className).map fun m => m.source.toList) true)

/-! ## Accepting a text -/

def createOrReopenClass (name : String) (superclass : Option String)
    (category comment instanceVars : String) : Db ClassCreateOutcome := do
  match (← get).classIdOf name with
  | none =>
    let _ ← addClass name superclass category comment instanceVars "" (← get).nextLoadOrder
    pure .created
  | some classId =>
    let latest ← queryRow fun img => img.classVersions.latestOf classId
    if latest.2.content.deleted then
      insertClassVersion classId
        ⟨superclass, category, comment, instanceVars, latest.2.content.classVars, false⟩
      pruneClassVersions classId
      pure .reopened
    else pure .alreadyLive

/-- A version is written whether or not anything changes. -/
def setClassDefinition (className : String) (newSuperclass : Option String)
    (newInstanceVars : String) : Db Bool := do
  match (← get).classIdOf className with
  | none => pure false
  | some classId =>
    let latest ← queryRow fun img => img.classVersions.latestOf classId
    insertClassVersion classId { latest.2.content with
      superclassName := newSuperclass, instanceVars := newInstanceVars, deleted := false }
    pruneClassVersions classId
    pure true

/-- `let _ =`, which drops an error. -/
def ignore {α : Type} (x : Db α) : Db Unit := fun img => .ok () (Db.after x img)

/-- The entry of the map from selectors and sides to sources. -/
def storedSource (stored : List FullMethod) (selector : String) (side : Side) : Option String :=
  (stored.reverse.find? fun m => m.selector = selector ∧ m.side = side).map FullMethod.source

section Persist

variable (T : CharTables) (sentSelectors : String → List String)

/-- One parsed method, with the numbers of changed and of added methods. -/
def persistMethod (className : String) (stored : List FullMethod) (counts : Nat × Nat)
    (m : ParsedMethod) : Db (Nat × Nat) :=
  match storedSource stored m.selector (sideOf m.isClassSide) with
  | some old =>
    if old = m.source then pure counts
    else do
      ignore (createOrReopenMethod sentSelectors className (sideOf m.isClassSide) m.selector ""
        m.source)
      pure (counts.1 + 1, counts.2)
  | none => do
    ignore (createOrReopenMethod sentSelectors className (sideOf m.isClassSide) m.selector "" m.source)
    pure (counts.1, counts.2 + 1)

/-- The methods that the text no longer has. The source removes them in the order of a hash map. -/
def vanished (stored : List FullMethod) (methods : List ParsedMethod) : List (String × Side) :=
  ((stored.map fun m => (m.selector, m.side)).dedup).filter fun key =>
    key ∉ methods.map fun m => (m.selector, sideOf m.isClassSide)

def persistEditorClass (text : String) : Db String :=
  match (parseMstSource T text).head? with
  | none => pure "nothing to save (no class definition in the buffer)"
  | some cls => do
    ignore (createOrReopenClass cls.name cls.superclass "" "" cls.instanceVars)
    ignore (setClassDefinition cls.name cls.superclass cls.instanceVars)
    let stored := (← get).allMethodsOf cls.name
    let (changed, added) ← cls.methods.foldlM (persistMethod sentSelectors cls.name stored) (0, 0)
    let gone := vanished stored cls.methods
    gone.forM fun key => ignore (removeMethod sentSelectors cls.name key.2 key.1)
    let removed := gone.length
    if changed + added + removed = 0 then pure (cls.name ++ " — no changes")
    else pure ("saved " ++ cls.name ++ " (" ++ toString changed ++ " changed, " ++ toString added ++
      " added, " ++ toString removed ++ " removed)")

end Persist

/-! ## Round trips -/

/-- The source of a method came out of the parser, from some text, under the name of the class. -/
def Captured (T : CharTables) (className : String) (m : FullMethod) : Prop :=
  ∃ text, ∃ pc ∈ parseMstSource T text, pc.name = className ∧ m.parsed ∈ pc.methods

/-- The rendered class is read back as the class that is stored. -/
def RoundTrips (T : CharTables) (cls : FullClass) : Prop :=
  ∃ text pc, img.classSource cls.name = some text ∧ parseMstSource T text = [pc] ∧
    pc.name = cls.name ∧ pc.superclass = cls.superclass ∧ pc.instanceVars = cls.instanceVars ∧
    pc.classVars = cls.classVars ∧ pc.methods = (img.allMethodsOf cls.name).map FullMethod.parsed

/-- What the renderer can show and the scanner can read. -/
structure Editable (T : CharTables) (cls : FullClass) : Prop where
  name : IsIdentifier T cls.name.toList
  superclass : ∃ s, cls.superclass = some s ∧ IsIdentifier T s.toList ∧ s ≠ "nil"
  instanceVars : IsIvars T cls.instanceVars.toList
  classVars : IsClassVars cls.classVars.toList
  methods : ∀ m ∈ img.allMethodsOf cls.name, isClosed T cls.name.toList m.source.toList = true

variable {img} {T : CharTables} {sentSelectors : String → List String} {cls : FullClass}

theorem classSource_eq (hcls : img.classNamed cls.name = some cls) :
    img.classSource cls.name = some (String.ofList (classBlock (cls.superclass.getD "Object").toList
      cls.name.toList cls.instanceVars.toList cls.classVars.toList
      (((img.allMethodsOf cls.name).map FullMethod.parsed).map fun m => m.source.toList) true)) := by
  unfold classSource
  rw [hcls, List.map_map]
  rfl

theorem isCapture_of_captured {m : FullMethod} (h : Captured T cls.name m) :
    ∃ cs after, IsCapture T cls.name.toList cs m.parsed after := by
  obtain ⟨text, pc, hpc, hname, hm⟩ := h
  exact hname ▸ (isRead_of_mem hpc).methods _ hm

/-- A class without a superclass is shown as a subclass of `Object`. -/
theorem superclass_of_object {text : List Char} {pc : ParsedClass} {fuel : Nat}
    (h : parseClasses T fuel none ("Object".toList ++ ' ' :: text) = [pc]) :
    pc.superclass = some "Object" := by
  have hobject : IsIdentifier T "Object".toList := isIdentifier_of_alpha (by decide) (by decide)
  cases fuel with
  | zero => cases h
  | succ fuel =>
    rw [parseClasses_identifier hobject] at h
    split at h
    · cases h
    · next hheader =>
      rw [readClassHeader_append hobject hheader] at h
      rw [← (List.cons.inj h).1]
      rfl

theorem roundTrips_iff (hcls : img.classNamed cls.name = some cls)
    (hcaptured : ∀ m ∈ img.allMethodsOf cls.name, Captured T cls.name m) :
    img.RoundTrips T cls ↔ img.Editable T cls := by
  unfold RoundTrips
  rw [classSource_eq hcls]
  have hclosed : (∀ m ∈ (img.allMethodsOf cls.name).map FullMethod.parsed,
      isClosed T cls.name.toList m.source.toList = true) ↔
      ∀ m ∈ img.allMethodsOf cls.name, isClosed T cls.name.toList m.source.toList = true :=
    List.forall_mem_map
  have hms : ∀ m ∈ (img.allMethodsOf cls.name).map FullMethod.parsed,
      ∃ cs after, IsCapture T cls.name.toList cs m after :=
    List.forall_mem_map.mpr fun m hm => isCapture_of_captured (hcaptured m hm)
  generalize (img.allMethodsOf cls.name).map FullMethod.parsed = ms at hclosed hms
  have hlines := readBody_methodLines hms ⟨cls.instanceVars.toList, cls.classVars.toList, []⟩
  constructor
  · rintro ⟨text, pc, htext, hparse, hname, hsuper, hivars, hclassVars, hmethods⟩
    obtain rfl := Option.some.inj htext
    have hread : pc.IsRead T :=
      isRead_of_mem (show pc ∈ parseMstSource T _ by rw [hparse]; exact List.mem_cons_self)
    have hnameRead : IsIdentifier T cls.name.toList := hname ▸ hread.name
    have hivarsRead : IsIvars T cls.instanceVars.toList := hivars ▸ hread.instanceVars
    have hclassVarsRead : IsClassVars cls.classVars.toList := hclassVars ▸ hread.classVars
    obtain ⟨s, hs⟩ : ∃ s, cls.superclass = some s := by
      cases hs : cls.superclass with
      | some s => exact ⟨s, rfl⟩
      | none =>
        rw [hs, Option.getD_none, classBlock_eq] at hparse
        unfold parseMstSource at hparse
        rw [String.toList_ofList] at hparse
        have hobject := superclass_of_object hparse
        rw [hsuper, hs] at hobject
        cases hobject
    obtain ⟨hident, hnil⟩ := hread.superclass s (hsuper.trans hs)
    refine ⟨hnameRead, ⟨s, hs, hident, hnil⟩, hivarsRead, hclassVarsRead, hclosed.mp (hlines.2 ?_)⟩
    rw [hs, Option.getD_some] at hparse
    obtain ⟨fuel, hparse'⟩ := parse_classBlock hident hnameRead hivarsRead hclassVarsRead
      (ms.map fun m => m.source.toList) rfl
    rw [hparse] at hparse'
    exact (congrArg ParsedClass.methods (List.cons.inj hparse').1).symm.trans hmethods
  · intro h
    obtain ⟨s, hs, hident, hnil⟩ := h.superclass
    obtain ⟨fuel, hparse⟩ := parse_classBlock hident h.name h.instanceVars h.classVars _
      (hlines.1 (hclosed.mpr h.methods))
    rw [parseClasses_newline, if_neg fun heq => hnil (String.toList_injective heq)] at hparse
    rw [hs, Option.getD_some]
    refine ⟨_, _, rfl, hparse, ?_⟩
    simp only [String.ofList_toList, List.nil_append, and_self]

/-! ## Accepting unchanged -/

/-- The class, its row and its latest version. -/
theorem Wf.classNamed_eq_some (h : img.Wf) {className : String}
    (hcls : img.classNamed className = some cls) : cls.name = className ∧
    ∃ classId latest, img.classIdOf className = some classId ∧
      img.classVersions.latestOf classId = some latest ∧
      latest.2.content = ⟨cls.superclass, cls.category, cls.comment, cls.instanceVars,
        cls.classVars, false⟩ := by
  have hmem := List.mem_of_mem_head? hcls
  obtain ⟨c, hc, hmem⟩ := List.mem_flatMap.mp hmem
  obtain ⟨v, hv, rfl⟩ := List.mem_map.mp hmem
  obtain ⟨hrow, hname⟩ := List.mem_filter.mp hc
  obtain ⟨hlatest, hv⟩ := List.mem_filter.mp hv
  obtain ⟨howner, hlive⟩ := of_decide_eq_true hv
  refine ⟨of_decide_eq_true hname, c.1, v, ?_, ?_, ?_⟩
  · exact h.classIdOf_eq_some.mpr ⟨c, hrow, of_decide_eq_true hname, rfl⟩
  · rw [Versions.latestOf_eq h.classOrdered, ← howner]
    exact (Versions.mem_latest h.classOrdered).mp hlatest
  · rw [← hlive]

/-- A method of a class is a class row, a method row and a version row that belong together. -/
theorem mem_allMethodsOf {className : String} {m : FullMethod}
    (hm : m ∈ img.allMethodsOf className) : ∃ c ∈ img.classes.rows, c.2.name = className ∧
      ∃ row ∈ img.methods.rows, row.2 = ⟨c.1, m.selector, m.side⟩ ∧
      ∃ v ∈ img.methodVersions.latest, v.2.owner = row.1 ∧ v.2.content.source = m.source := by
  unfold allMethodsOf at hm
  obtain ⟨⟨id, m'⟩, hm', rfl⟩ := List.mem_map.mp hm
  rw [List.mem_insertionSort] at hm'
  obtain ⟨c, hc, hm'⟩ := List.mem_flatMap.mp hm'
  obtain ⟨row, hrow, hm'⟩ := List.mem_flatMap.mp hm'
  obtain ⟨v, hv, heq⟩ := List.mem_map.mp hm'
  cases heq
  obtain ⟨hc, hname⟩ := List.mem_filter.mp hc
  obtain ⟨hrow, hclass⟩ := List.mem_filter.mp hrow
  obtain ⟨hv, howner⟩ := List.mem_filter.mp hv
  refine ⟨c, hc, of_decide_eq_true hname, row, hrow, ?_, v, hv, (of_decide_eq_true howner).1, rfl⟩
  rw [← of_decide_eq_true hclass]

/-- The map from selectors and sides holds the source of each method. -/
theorem Wf.storedSource_eq (h : img.Wf) {className : String} {m : FullMethod}
    (hm : m ∈ img.allMethodsOf className) :
    storedSource (img.allMethodsOf className) m.selector m.side = some m.source := by
  unfold storedSource
  rw [Option.map_eq_some_iff]
  cases hfind : (img.allMethodsOf className).reverse.find? fun x =>
      x.selector = m.selector ∧ x.side = m.side with
  | none =>
    have hnone := List.find?_eq_none.mp hfind m (List.mem_reverse.mpr hm)
    exact absurd (decide_eq_true ⟨rfl, rfl⟩) hnone
  | some m' =>
    have hkey := List.find?_some hfind
    obtain ⟨hselector, hside⟩ := of_decide_eq_true hkey
    refine ⟨m', rfl, ?_⟩
    obtain ⟨c, hc, hname, row, hrow, heq, v, hv, howner, hsource⟩ := mem_allMethodsOf hm
    obtain ⟨c', hc', hname', row', hrow', heq', v', hv', howner', hsource'⟩ :=
      mem_allMethodsOf (List.mem_reverse.mp (List.mem_of_find?_eq_some hfind))
    obtain rfl := h.classNames c hc c' hc' (hname.trans hname'.symm)
    obtain rfl := h.methodRows row hrow row' hrow' (by rw [heq, heq', hselector, hside])
    have hlast := (Versions.mem_latest h.ordered).mp hv
    rw [howner, ← howner', (Versions.mem_latest h.ordered).mp hv'] at hlast
    rw [← hsource, ← hsource', Option.some.inj hlast]

theorem sideOf_parsed (m : FullMethod) : sideOf m.parsed.isClassSide = m.side := by
  obtain ⟨selector, side, category, source⟩ := m
  cases side <;> rfl

theorem after_ignore {α β : Type} (x : Db α) (f : Unit → Db β) (img : Image) :
    Db.after (ignore x >>= f) img = Db.after (f ()) (Db.after x img) := Db.after_bind rfl f

/-- A live class is left alone. -/
theorem createOrReopenClass_after {name : String} {classId : Nat}
    {latest : Nat × Version ClassContent} (hid : img.classIdOf name = some classId)
    (hlatest : img.classVersions.latestOf classId = some latest)
    (hlive : latest.2.content.deleted = false) (superclass : Option String)
    (category comment instanceVars : String) :
    Db.after (createOrReopenClass name superclass category comment instanceVars) img = img := by
  unfold createOrReopenClass
  rw [Db.after_get, hid]
  dsimp only
  rw [queryRow_after, hlatest]
  dsimp only
  rw [hlive, if_neg Bool.false_ne_true, Db.after_pure]

theorem setClassDefinition_after (h : img.classVersions.Ordered) {className : String}
    {classId : Nat} {latest : Nat × Version ClassContent}
    (hid : img.classIdOf className = some classId)
    (hlatest : img.classVersions.latestOf classId = some latest) (newSuperclass : Option String)
    (newInstanceVars : String) :
    Db.after (setClassDefinition className newSuperclass newInstanceVars) img =
      img.withClassVersion classId { latest.2.content with
        superclassName := newSuperclass, instanceVars := newInstanceVars, deleted := false } := by
  unfold setClassDefinition
  rw [Db.after_get, hid]
  dsimp only
  rw [queryRow_after, hlatest]
  exact acceptClass_after h classId _ true

/-- Methods that are stored as they are parsed are not written. -/
theorem persistMethods_eq {className : String} {stored : List FullMethod} {ms : List ParsedMethod}
    (h : ∀ m ∈ ms, storedSource stored m.selector (sideOf m.isClassSide) = some m.source)
    (counts : Nat × Nat) :
    ms.foldlM (persistMethod sentSelectors className stored) counts = pure counts := by
  induction ms with
  | nil => rfl
  | cons m ms ih =>
    have hm : persistMethod sentSelectors className stored counts m = pure counts := by
      unfold persistMethod
      rw [h m List.mem_cons_self]
      exact if_pos rfl
    rw [List.foldlM_cons, hm, pure_bind, ih fun x hx => h x (List.mem_cons_of_mem m hx)]

theorem vanished_parsed (stored : List FullMethod) :
    vanished stored (stored.map FullMethod.parsed) = [] := by
  unfold vanished
  rw [List.filter_eq_nil_iff]
  intro key hkey
  obtain ⟨m, hm, rfl⟩ := List.mem_map.mp (List.mem_dedup.mp hkey)
  rw [decide_eq_true_eq, not_not, List.map_map]
  exact List.mem_map.mpr ⟨m, hm, by rw [← sideOf_parsed m]; rfl⟩

/-- Accepting a class that is read back writes the version of its definition again, and nothing
else. -/
theorem persistEditorClass_after (h : img.Wf) (hcls : img.classNamed cls.name = some cls)
    (hround : img.RoundTrips T cls) {text : String} (htext : img.classSource cls.name = some text) :
    ∃ classId latest, img.classIdOf cls.name = some classId ∧
      img.classVersions.latestOf classId = some latest ∧
      Db.after (persistEditorClass T sentSelectors text) img =
        img.withClassVersion classId latest.2.content := by
  obtain ⟨text', pc, htext', hparse, hname, hsuper, hivars, -, hmethods⟩ := hround
  obtain rfl := Option.some.inj (htext.symm.trans htext')
  obtain ⟨-, classId, latest, hid, hlatest, hcontent⟩ := h.classNamed_eq_some hcls
  refine ⟨classId, latest, hid, hlatest, ?_⟩
  have hlive : latest.2.content.deleted = false := by rw [hcontent]
  unfold persistEditorClass
  rw [hparse]
  dsimp only [List.head?_cons]
  rw [after_ignore, hname, createOrReopenClass_after hid hlatest hlive, after_ignore,
    setClassDefinition_after h.classOrdered hid hlatest, hsuper, hivars, Db.after_get]
  have hsame : { latest.2.content with
      superclassName := cls.superclass, instanceVars := cls.instanceVars, deleted := false } =
        latest.2.content := by rw [hcontent]
  rw [hsame]
  have hstored : (img.withClassVersion classId latest.2.content).allMethodsOf cls.name =
      img.allMethodsOf cls.name := rfl
  rw [hstored, hmethods, persistMethods_eq]
  · rw [pure_bind, vanished_parsed]
    rfl
  · intro m hm
    obtain ⟨m, hstored, rfl⟩ := List.mem_map.mp hm
    rw [sideOf_parsed]
    exact h.storedSource_eq hstored

/-- The version that is written is one that was not there before. -/
theorem withClassVersion_ne (h : img.classVersions.Ordered) (classId : Nat) (content : ClassContent) :
    (img.withClassVersion classId content).classVersions ≠ img.classVersions := by
  intro heq
  have hlast : ((img.withClassVersion classId content).classVersions.of classId).getLast? = _ :=
    Versions.getLast?_append_prune h (by decide) classId content
  rw [heq] at hlast
  exact Nat.lt_irrefl _ (Table.lt_nextId _ (Versions.mem_of.mp (List.mem_of_getLast? hlast)).1)

/-- The text of a class is read back as that class exactly if the class is editable. Accepting it
then writes its definition once more, and no method; so accepting is never without a new version. -/
theorem editor_round_trip (T : CharTables) (sentSelectors : String → List String) (img : Image)
    (cls : FullClass) (hcls : img.classNamed cls.name = some cls)
    (hcaptured : ∀ m ∈ img.allMethodsOf cls.name, Captured T cls.name m) :
    (img.RoundTrips T cls ↔ img.Editable T cls) ∧
    (img.Wf → ∀ text, img.classSource cls.name = some text →
      (img.Editable T cls → ∃ classId latest, img.classIdOf cls.name = some classId ∧
        img.classVersions.latestOf classId = some latest ∧
        Db.after (persistEditorClass T sentSelectors text) img =
          img.withClassVersion classId latest.2.content) ∧
      ¬ (img.RoundTrips T cls ∧
        (Db.after (persistEditorClass T sentSelectors text) img).classVersions =
          img.classVersions)) := by
  have hiff := roundTrips_iff hcls hcaptured
  refine ⟨hiff, fun hwf text htext => ⟨fun heditable => ?_, ?_⟩⟩
  · exact persistEditorClass_after hwf hcls (hiff.mpr heditable) htext
  · rintro ⟨hround, hsame⟩
    obtain ⟨classId, latest, -, -, hafter⟩ := persistEditorClass_after hwf hcls hround htext
    rw [hafter] at hsame
    exact withClassVersion_ne hwf.classOrdered classId latest.2.content hsame

end Image

theorem ascii_whitespace (c : Char) (h : isWhitespace c = true) :
    c.isAlpha = false ∧ c.isDigit = false := by
  have hc : c.toNat = c.val.toNat := rfl
  unfold isWhitespace at h
  simp only [Bool.or_eq_true, Bool.and_eq_true, decide_eq_true_eq, List.mem_cons, List.not_mem_nil,
    or_false, hc] at h
  simp only [Char.isAlpha, Char.isUpper, Char.isLower, Char.isDigit, ge_iff_le,
    UInt32.le_iff_toNat_le, Bool.or_eq_false_iff, Bool.and_eq_false_iff, decide_eq_false_iff_not]
  have hbounds : 'A'.val.toNat = 65 ∧ 'Z'.val.toNat = 90 ∧ 'a'.val.toNat = 97 ∧
      'z'.val.toNat = 122 ∧ '0'.val.toNat = 48 ∧ '9'.val.toNat = 57 := by decide
  omega

/-- The tables, as far as ASCII goes. -/
def asciiTables : CharTables := ⟨Char.isAlpha, Char.isDigit, fun _ _ => ⟨rfl, rfl⟩, ascii_whitespace⟩

namespace Image

/-- Two classes, one with a method on each side. -/
def editorExample : Image :=
  [Edit.addClass "Object" none "" "" "" "" 1000,
    .addClass "Collection" (some "Object") "" "" "elements size" "" 1100,
    .addMethod "Collection" .instanceSide "do:" "" "do: b [ ^'[' ]",
    .addMethod "Collection" .classSide "new:" "" "Collection class >> new: n [ \"]\" ^n ]"].foldl
    (Edit.after fun _ => []) (.new true)

theorem editorExample_wf : editorExample.Wf := (wf_new true).run _

theorem editorExample_methods : editorExample.allMethodsOf "Collection" =
    [⟨"do:", .instanceSide, "", "do: b [ ^'[' ]"⟩,
      ⟨"new:", .classSide, "", "Collection class >> new: n [ \"]\" ^n ]"⟩] := rfl

/-- What the world file says is what the image holds. -/
theorem editorExample_captured : ∀ m ∈ editorExample.allMethodsOf "Collection",
    Captured asciiTables "Collection" m := by
  have hparse : (parseMstSource asciiTables ("Object subclass: Collection [\n" ++
      "    do: b [ ^'[' ]\n    Collection class >> new: n [ \"]\" ^n ]\n]")) =
      [⟨"Collection", some "Object", "", "", "", [⟨"do:", false, "do: b [ ^'[' ]"⟩,
        ⟨"new:", true, "Collection class >> new: n [ \"]\" ^n ]"⟩]⟩] := rfl
  rw [editorExample_methods]
  intro m hm
  refine ⟨_, _, by rw [hparse]; exact List.mem_cons_self, rfl, ?_⟩
  rcases List.mem_cons.mp hm with rfl | hm
  · exact List.mem_cons_self
  · rw [List.mem_singleton.mp hm]
    exact List.mem_cons_of_mem _ List.mem_cons_self

/-- A captured class with variables, and brackets in a string and in a comment. -/
theorem editor_round_trip_collection :
    let cls : FullClass := ⟨"Collection", some "Object", "", "", "elements size", "", 1100⟩
    editorExample.RoundTrips asciiTables cls ∧
    ∃ classId latest, editorExample.classIdOf "Collection" = some classId ∧
      Db.after (persistEditorClass asciiTables (fun _ => [])
        ((editorExample.classSource "Collection").getD "")) editorExample =
          editorExample.withClassVersion classId latest := by
  intro cls
  have hivars : IsIvars asciiTables cls.instanceVars.toList := by
    refine ⟨["elements".toList, "size".toList], List.forall_mem_cons.mpr ⟨?_, ?_⟩, by decide⟩
    · exact isIdentifier_of_alpha (by decide) (by decide)
    · exact List.forall_mem_singleton.mpr (isIdentifier_of_alpha (by decide) (by decide))
  have heditable : editorExample.Editable asciiTables cls :=
    ⟨isIdentifier_of_alpha (by decide) (by decide),
      ⟨"Object", rfl, isIdentifier_of_alpha (by decide) (by decide), by decide⟩, hivars,
      ⟨[], List.forall_mem_nil _, rfl⟩, by
        rw [show cls.name = "Collection" from rfl, editorExample_methods]
        exact List.forall_mem_cons.mpr ⟨by decide, List.forall_mem_singleton.mpr (by decide)⟩⟩
  obtain ⟨hiff, haccept⟩ := editor_round_trip asciiTables (fun _ => []) editorExample cls rfl
    editorExample_captured
  obtain ⟨classId, latest, hid, -, hafter⟩ := (haccept editorExample_wf _ rfl).1 heditable
  exact ⟨hiff.mpr heditable, classId, latest.2.content, hid, hafter⟩

/-- The root class has no superclass, and is shown with one. -/
theorem editor_round_trip_fails :
    let cls : FullClass := ⟨"Object", none, "", "", "", "", 1000⟩
    editorExample.classNamed cls.name = some cls ∧
    (∀ m ∈ editorExample.allMethodsOf cls.name, Captured asciiTables cls.name m) ∧
    ¬ editorExample.RoundTrips asciiTables cls := by
  intro cls
  have hmethods : editorExample.allMethodsOf "Object" = [] := rfl
  have hsource : editorExample.classSource "Object" = some "Object subclass: Object [\n]\n" := rfl
  have hread : parseMstSource asciiTables "Object subclass: Object [\n]\n" =
      [⟨"Object", some "Object", "", "", "", []⟩] := rfl
  refine ⟨rfl, ?_, ?_⟩
  · rw [show cls.name = "Object" from rfl, hmethods]
    exact List.forall_mem_nil _
  · rintro ⟨text, pc, htext, hparse, -, hsuper, -⟩
    rw [show cls.name = "Object" from rfl, hsource] at htext
    rw [← Option.some.inj htext, hread] at hparse
    rw [← (List.cons.inj hparse).1] at hsuper
    cases hsuper

end Image

end WinVm.ImageStore
