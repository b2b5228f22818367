import WinVm.Frontend.Codegen

/-!
# Lexical scoping

What scoping asks of compiled code. `outline` keeps of an expression the occurrences of
names, in the order code generation reaches them, and the blocks around them: real ones,
and dissolved ones in the three forms the inlined constructs have. An `Occurrence` stands
under the chain of units, method and real blocks, that enclose it, each with the dissolved
blocks that are open in it. Its `declaration` is the innermost block or method that
declares the name, and a declaration's `cell` is where its storage is in the activations
that run.
-/

namespace WinVm.Frontend

/-! ## Recognised sends -/

/-- What the blocks of a recognised send look like. -/
def Shape.Fits (receiver : Option Nat) (args : List (Option Nat)) : Shape → Prop
  | .ifTrue | .ifFalse | .and | .or | .timesRepeat | .ifNil => args = [some 0]
  | .ifNotNil => args = [some 0] ∨ args = [some 1]
  | .ifTrueIfFalse | .ifFalseIfTrue => args = [some 0, some 0]
  | .ifNilIfNotNil => args = [some 0, some 0] ∨ args = [some 0, some 1]
  | .ifNotNilIfNil => args = [some 0, some 0] ∨ args = [some 1, some 0]
  | .whileTrue | .whileFalse => receiver = some 0 ∧ args = [some 0]
  | .repeat => receiver = some 0 ∧ args = []
  | .toDo => ∃ limit, args = [limit, some 1]

theorem sendShape_fits {isSuper : Bool} {selector : String} {receiver : Expr} {args : List Expr}
    {shape : Shape} (found : sendShape isSuper selector receiver args = some shape) :
    shape.Fits (blockArgc receiver) (argcs args) := by
  unfold sendShape at found
  split at found
  · cases found
  unfold inlineShape shapeOf at found
  split at found
  all_goals first
    | (cases found; simp [Shape.Fits, *]; done)
    | (split at found <;> cases found; simp [Shape.Fits, *]; done)
    | cases found

/-! ## Outlines -/

inductive Outline where
  | done
  | seq (a b : Outline)
  /-- Written in this order; the second is emitted first. -/
  | arms (a b : Outline)
  | occ (name : String) (isWrite : Bool)
  /-- A slot of code generation's own. -/
  | hidden
  /-- A dissolved block whose names are hoisted. -/
  | dissolved (names : List String) (body : Outline)
  /-- A dissolved block whose names stay with the scope around it. -/
  | loose (names : List String) (body : Outline)
  /-- The limit and the block of a `to:do:`, which hoists the loop variable alone. -/
  | counted (loopVar : String) (temps : List String) (limit body : Outline)
  | real (scope : Nat) (params temps : List String) (body : Outline)

mutual

def outline : Expr → Outline
  | .selfRef _ | .cascadeRcvr _ | .lit _ _ => .done
  | .var name _ => .occ name false
  | .assign name value _ => .seq (outline value) (.occ name true)
  | .send receiver selector args isSuper _ =>
    match sendShape isSuper selector receiver args with
    | some shape => outlineInlined shape (outline receiver) (outlineBody receiver) args
    | none => .seq (outline receiver) (outlineAll args)
  | .cascade receiver segments _ => .seq (outline receiver) (outlineAll segments)
  | .dynArray elems _ => outlineAll elems
  | .block params temps body _ scopeId => .real scopeId params temps (outlineAll body)
  | .ret value _ => outline value

def outlineAll : List Expr → Outline
  | [] => .done
  | e :: es => .seq (outline e) (outlineAll es)

def outlineInlined (shape : Shape) (receiver receiverBody : Outline) : List Expr → Outline
  | [] => receiverBody
  | [a] =>
    match shape with
    | .whileTrue | .whileFalse => .seq receiverBody (outlineBody a)
    | .timesRepeat => .seq receiver (.seq .hidden (.seq .hidden (outlineLoose a)))
    | _ => .seq receiver (outlineBody a)
  | [a, b] =>
    match shape with
    | .ifFalseIfTrue => .seq receiver (.arms (outlineBody a) (outlineBody b))
    | .toDo => .seq receiver (outlineCounted (outline a) b)
    | _ => .seq receiver (.seq (outlineBody a) (outlineBody b))
  | _ => .done

def outlineBody : Expr → Outline
  | .block params temps body _ _ => .dissolved (params ++ temps) (outlineAll body)
  | _ => .done

def outlineLoose : Expr → Outline
  | .block params temps body _ _ => .loose (params ++ temps) (outlineAll body)
  | _ => .done

def outlineCounted (limit : Outline) : Expr → Outline
  | .block (loopVar :: params) temps body _ _ =>
    .counted loopVar (params ++ temps) limit (outlineAll body)
  | _ => .done

end

namespace Outline

/-- The names of the dissolved blocks, which the enclosing scope takes over. -/
def folded : Outline → List String
  | done | occ _ _ | hidden | real _ _ _ _ => []
  | seq a b | arms a b => a.folded ++ b.folded
  | dissolved names body | loose names body => names ++ body.folded
  | counted loopVar temps limit body => limit.folded ++ (loopVar :: temps ++ body.folded)

/-- The frame slots that code generation adds. -/
def slots : Outline → Nat
  | done | occ _ _ | real _ _ _ _ => 0
  | hidden => 1
  | seq a b | arms a b => a.slots + b.slots
  | dissolved names body => names.length + body.slots
  | loose _ body => body.slots
  | counted _ _ limit body => 2 + limit.slots + body.slots

/-- No scope declares a name twice. -/
def Distinct : Outline → Prop
  | done | occ _ _ | hidden => True
  | seq a b | arms a b => a.Distinct ∧ b.Distinct
  | dissolved names body | loose names body => names.Nodup ∧ body.Distinct
  | counted loopVar temps limit body =>
    (loopVar :: temps).Nodup ∧ limit.Distinct ∧ body.Distinct
  | real _ params temps body => (params ++ temps).Nodup ∧ body.Distinct

instance decidableDistinct : ∀ o : Outline, Decidable o.Distinct
  | done | occ _ _ | hidden => inferInstanceAs (Decidable True)
  | seq a b | arms a b =>
    have := decidableDistinct a
    have := decidableDistinct b
    inferInstanceAs (Decidable (a.Distinct ∧ b.Distinct))
  | dissolved names body | loose names body =>
    have := decidableDistinct body
    inferInstanceAs (Decidable (names.Nodup ∧ body.Distinct))
  | counted loopVar temps limit body =>
    have := decidableDistinct limit
    have := decidableDistinct body
    inferInstanceAs (Decidable ((loopVar :: temps).Nodup ∧ limit.Distinct ∧ body.Distinct))
  | real _ params temps body =>
    have := decidableDistinct body
    inferInstanceAs (Decidable ((params ++ temps).Nodup ∧ body.Distinct))

/-- Every real block has room for its variables and hoisted slots in a byte. -/
def Fits : Outline → Prop
  | done | occ _ _ | hidden => True
  | seq a b | arms a b => a.Fits ∧ b.Fits
  | dissolved _ body | loose _ body => body.Fits
  | counted _ _ limit body => limit.Fits ∧ body.Fits
  | real _ params temps body =>
    (params ++ temps ++ body.folded).length + body.slots ≤ 256 ∧ body.Fits

instance decidableFits : ∀ o : Outline, Decidable o.Fits
  | done | occ _ _ | hidden => inferInstanceAs (Decidable True)
  | seq a b | arms a b =>
    have := decidableFits a
    have := decidableFits b
    inferInstanceAs (Decidable (a.Fits ∧ b.Fits))
  | dissolved _ body | loose _ body => decidableFits body
  | counted _ _ limit body =>
    have := decidableFits limit
    have := decidableFits body
    inferInstanceAs (Decidable (limit.Fits ∧ body.Fits))
  | real _ params temps body =>
    have := decidableFits body
    inferInstanceAs (Decidable
      ((params ++ temps ++ body.folded).length + body.slots ≤ 256 ∧ body.Fits))

/-- How deep real blocks are nested. -/
def depth : Outline → Nat
  | done | occ _ _ | hidden => 0
  | seq a b | arms a b => max a.depth b.depth
  | dissolved _ body | loose _ body => body.depth
  | counted _ _ limit body => max limit.depth body.depth
  | real _ _ _ body => 1 + body.depth

end Outline

/-- No scope of the method declares a name twice. -/
def MethodNode.Distinct (m : MethodNode) : Prop :=
  (m.params ++ m.temps).Nodup ∧ (outlineAll m.body).Distinct

/-- Slots, depths and fields fit the operand bytes. -/
def MethodNode.Fits (m : MethodNode) (h : Holder) : Prop :=
  let o := outlineAll m.body
  (m.params ++ m.temps ++ o.folded).length + o.slots ≤ 256 ∧ o.Fits ∧ o.depth < 256 ∧
    h.instVarNames.length ≤ 256

instance (m : MethodNode) : Decidable m.Distinct :=
  inferInstanceAs (Decidable (_ ∧ _))

instance (m : MethodNode) (h : Holder) : Decidable (m.Fits h) :=
  inferInstanceAs (Decidable (_ ∧ _ ∧ _ ∧ _))

/-! ## Occurrences -/

/-- Where a declaration is kept: in a frame slot of its own, or with the variables of its
unit, by index. -/
inductive Storage where
  | hoisted (slot : Nat)
  | var (index : Nat)
deriving DecidableEq, Repr

/-- A unit around an occurrence: what it declares itself, all its variables with those of
its dissolved blocks, and the dissolved blocks that are open, the innermost first. -/
structure UnitScope where
  scope : Nat
  own : List String
  names : List String
  inner : List (List (String × Storage))
deriving Repr

def UnitScope.enter (u : UnitScope) (vars : List (String × Storage)) : UnitScope :=
  { u with inner := vars :: u.inner }

/-- The enclosing units, the innermost first. -/
structure Occurrence where
  chain : List UnitScope
  name : String
  isWrite : Bool

/-- A unit with its chain, itself first, and its occurrences. -/
structure LexUnit where
  chain : List UnitScope
  occurrences : List Occurrence

/-- Names hoisted to the slots from `first` on. -/
def hoistedVars (first : Nat) (names : List String) : List (String × Storage) :=
  names.mapIdx fun i name => (name, .hoisted (first + i))

/-- Names that are the unit's variables from `first` on. -/
def looseVars (first : Nat) (names : List String) : List (String × Storage) :=
  names.mapIdx fun i name => (name, .var (first + i))

namespace Outline

/-- The occurrences of the unit in the order of emission. `base` variables of the unit are
declared before the outline, and `next` is its first free slot. -/
def occurrences (u : UnitScope) (outer : List UnitScope) (base next : Nat) :
    Outline → List Occurrence
  | done | hidden | real _ _ _ _ => []
  | occ name isWrite => [⟨u :: outer, name, isWrite⟩]
  | seq a b =>
    a.occurrences u outer base next ++
      b.occurrences u outer (base + a.folded.length) (next + a.slots)
  | arms a b =>
    b.occurrences u outer (base + a.folded.length) next ++
      a.occurrences u outer base (next + b.slots)
  | dissolved names body =>
    body.occurrences (u.enter (hoistedVars next names)) outer (base + names.length)
      (next + names.length)
  | loose names body =>
    body.occurrences (u.enter (looseVars base names)) outer (base + names.length) next
  | counted loopVar temps limit body =>
    limit.occurrences u outer base (next + 1) ++
      body.occurrences
        (u.enter ((loopVar, .hoisted next) :: looseVars (base + limit.folded.length + 1) temps))
        outer (base + limit.folded.length + 1 + temps.length) (next + (2 + limit.slots))

/-- A real block as a unit of its own. -/
def realScope (scope : Nat) (params temps : List String) (body : Outline) : UnitScope where
  scope := scope
  own := params ++ temps
  names := params ++ temps ++ body.folded
  inner := []

/-- The units of the nested real blocks, each after those nested in it. Hoisted slots come
after the parameters and the `frameTemps` frame temporaries of a scope. -/
def units (frameTemps : Nat → Nat) (u : UnitScope) (outer : List UnitScope) (base next : Nat) :
    Outline → List LexUnit
  | done | hidden | occ _ _ => []
  | seq a b =>
    a.units frameTemps u outer base next ++
      b.units frameTemps u outer (base + a.folded.length) (next + a.slots)
  | arms a b =>
    b.units frameTemps u outer (base + a.folded.length) next ++
      a.units frameTemps u outer base (next + b.slots)
  | dissolved names body =>
    body.units frameTemps (u.enter (hoistedVars next names)) outer (base + names.length)
      (next + names.length)
  | loose names body =>
    body.units frameTemps (u.enter (looseVars base names)) outer (base + names.length) next
  | counted loopVar temps limit body =>
    limit.units frameTemps u outer base (next + 1) ++
      body.units frameTemps
        (u.enter ((loopVar, .hoisted next) :: looseVars (base + limit.folded.length + 1) temps))
        outer (base + limit.folded.length + 1 + temps.length) (next + (2 + limit.slots))
  | real scope params temps body =>
    let v := realScope scope params temps body
    let start := (params ++ temps).length
    let first := frameTemps scope + params.length
    body.units frameTemps v (u :: outer) start first ++
      [⟨v :: u :: outer, body.occurrences v (u :: outer) start first⟩]

end Outline

def CaptureInfo.frameTemps (c : CaptureInfo) (scope : Nat) : Nat :=
  ((c.scopes[scope]?).map ScopeInfo.frameTempCount).getD 0

/-- The units of a method, its own last. -/
def lexUnits (frameTemps : Nat → Nat) (m : MethodNode) : List LexUnit :=
  let o := outlineAll m.body
  let u := Outline.realScope 0 m.params m.temps o
  let start := (m.params ++ m.temps).length
  let first := frameTemps 0 + m.params.length
  o.units frameTemps u [] start first ++ [⟨[u], o.occurrences u [] start first⟩]

/-! ## Declarations -/

/-- A declaration seen from an occurrence: how many units out it is, and its storage. -/
structure Declaration where
  level : Nat
  storage : Storage
deriving DecidableEq, Repr

/-- The innermost declaration in a unit: of an open dissolved block, else the unit's own. -/
def UnitScope.declares (u : UnitScope) (name : String) : Option Storage :=
  match u.inner.findSome? fun vars => vars.lookup name with
  | some storage => some storage
  | none => if name ∈ u.own then some (.var (u.own.idxOf name)) else none

def lexical (name : String) : List UnitScope → Option Declaration
  | [] => none
  | u :: outer =>
    match u.declares name with
    | some storage => some ⟨0, storage⟩
    | none => (lexical name outer).map fun d => ⟨d.level + 1, d.storage⟩

def Occurrence.declaration (o : Occurrence) : Option Declaration :=
  lexical o.name o.chain

def Storage.slot? : Storage → Option Nat
  | .hoisted slot => some slot
  | .var _ => none

/-- The slot of the innermost open block of the unit that hoists the name. -/
def UnitScope.hoistSlot (u : UnitScope) (name : String) : Option Nat :=
  u.inner.findSome? fun vars => (vars.lookup name).bind Storage.slot?

/-- The names meet no defect. A hoisted variable is used in its own unit. Another variable
has no hoisted namesake around the occurrence, is the first of that name among all the
variables of its unit, and no unit on the way to it has the name. A name that is no
variable here is the name of no variable of the enclosing units. -/
def Occurrence.CleanAt (o : Occurrence) : Option Declaration → Prop
  | some ⟨level, .hoisted _⟩ => level = 0
  | some ⟨level, .var i⟩ =>
    (∀ u ∈ o.chain.head?, u.hoistSlot o.name = none) ∧
    (∀ u ∈ o.chain.take level, o.name ∉ u.names) ∧
    ∀ u ∈ o.chain[level]?, u.names.idxOf o.name = i
  | none => ∀ u ∈ o.chain, o.name ∉ u.names

def Occurrence.Clean (o : Occurrence) : Prop :=
  o.CleanAt o.declaration

instance (o : Occurrence) : ∀ d, Decidable (o.CleanAt d)
  | some ⟨level, .hoisted _⟩ => inferInstanceAs (Decidable (level = 0))
  | some ⟨level, .var i⟩ => inferInstanceAs (Decidable (
    (∀ u ∈ o.chain.head?, u.hoistSlot o.name = none) ∧
    (∀ u ∈ o.chain.take level, o.name ∉ u.names) ∧
    ∀ u ∈ o.chain[level]?, u.names.idxOf o.name = i))
  | none => inferInstanceAs (Decidable (∀ u ∈ o.chain, o.name ∉ u.names))

instance (o : Occurrence) : Decidable o.Clean :=
  inferInstanceAs (Decidable (o.CleanAt o.declaration))

/-! ## Activations -/

/-- A Context object: the activation it was made for and its `home_hint`. -/
inductive Context where
  | mk (owner : Nat) (homeHint : Option Context)

def Context.owner : Context → Nat
  | mk owner _ => owner

def Context.homeHint : Context → Option Context
  | mk _ outer => outer

/-- A frame: which activation it is and its `context` slot. -/
structure Activation where
  id : Nat
  context : Option Context

/-- Activation of a unit; `captured` is the Context its closure copied, if it copied one. -/
def activate (info : ScopeInfo) (id : Nat) (captured : Option Context) : Activation :=
  let enclosing := if info.capturesCtx then captured else none
  ⟨id, if info.hasCtx then some (.mk id enclosing) else enclosing⟩

/-- The activations that run when the unit at the head of the chain does: a block's closure
was made by the activation of the unit around it. -/
inductive Active (c : CaptureInfo) : List UnitScope → List Activation → Prop where
  | method {u : UnitScope} {info : ScopeInfo} (id : Nat) (found : c.scopes[u.scope]? = some info) :
      Active c [u] [activate info id none]
  | block {u v : UnitScope} {outer : List UnitScope} {info : ScopeInfo} {creator : Activation}
      {rest : List Activation} (id : Nat) (found : c.scopes[u.scope]? = some info)
      (made : Active c (v :: outer) (creator :: rest))
      (fresh : id ∉ (creator :: rest).map Activation.id) :
      Active c (u :: v :: outer) (activate info id creator.context :: creator :: rest)

/-- `ctx_temp_walk`. -/
def ctxTempWalk : Nat → Option Context → Option Context
  | 0, c => c
  | depth + 1, c => c.bind fun c => ctxTempWalk depth c.homeHint

inductive Cell where
  | frame (activation slot : Nat)
  | ctx (activation slot : Nat)
  | instVar (i : Nat)
  | assoc (a : Assoc)
deriving DecidableEq, Repr

/-- The cell that an access reaches when it runs. -/
def VarRef.reach (acts : List Activation) : VarRef → Option Cell
  | .local slot => acts.head?.map fun a => .frame a.id slot
  | .captured depth k =>
    (ctxTempWalk depth (acts.head?.bind Activation.context)).map fun c => .ctx c.owner k
  | .instVar i => some (.instVar i)
  | .global a => some (.assoc a)

/-- The cell of a variable of a scope, in its activation. -/
def VarSlot.cell (activation : Nat) (slot : VarSlot) : Option Cell :=
  if slot.captured then slot.ctxSlot.map (.ctx activation)
  else slot.frameSlot.map (.frame activation)

/-- The cell of a declaration. -/
def Declaration.cell (c : CaptureInfo) (chain : List UnitScope) (acts : List Activation)
    (d : Declaration) : Option Cell :=
  (acts[d.level]?).bind fun a =>
    match d.storage with
    | .hoisted slot => some (.frame a.id slot)
    | .var i =>
      (chain[d.level]?).bind fun u => (c.scopes[u.scope]?).bind fun info =>
        (info.vars[i]?).bind fun v => v.2.cell a.id

/-- The cell of a name that no scope declares. -/
def outerCell (h : Holder) (classSide : Bool) (name : String) : Cell :=
  if !classSide && h.instVarNames.contains name then .instVar (h.instVarNames.idxOf name)
  else if h.classVars.contains name then .assoc (.classVar (h.classVars.idxOf name))
  else .assoc (.global name)

/-- The cell that lexical scoping selects for an occurrence. -/
def Occurrence.cell (c : CaptureInfo) (h : Holder) (classSide : Bool) (acts : List Activation)
    (o : Occurrence) : Option Cell :=
  match o.declaration with
  | some d => d.cell c o.chain acts
  | none => some (outerCell h classSide o.name)

/-! ## Preservation -/

structure Access where
  name : String
  isWrite : Bool
  ref : VarRef
deriving DecidableEq, Repr

def Item.access? : Item → Option Access
  | .load name ref => some ⟨name, false, ref⟩
  | .store name ref => some ⟨name, true, ref⟩
  | _ => none

def accesses (code : List Item) : List Access :=
  code.filterMap Item.access?

/-- The access is the occurrence's, and reaches the cell of its declaration. -/
def Access.Preserves (c : CaptureInfo) (h : Holder) (classSide : Bool) (acts : List Activation)
    (a : Access) (o : Occurrence) : Prop :=
  a.name = o.name ∧ a.isWrite = o.isWrite ∧ a.ref.reach acts = o.cell c h classSide acts ∧
    a.ref.reach acts ≠ none

/-- Every occurrence of every unit compiles to an access that reaches the cell of its
declaration, whatever activations run it. -/
def ScopingPreserved (c : CaptureInfo) (h : Holder) (classSide : Bool) (units : List CodeUnit)
    (lex : List LexUnit) : Prop :=
  List.Forall₂ (fun unit l =>
    ∀ acts, Active c l.chain acts →
      List.Forall₂ (Access.Preserves c h classSide acts) (accesses unit.code) l.occurrences)
    units lex

end WinVm.Frontend
