import WinVm.Frontend.Ast

/-!
# Capture analysis

`frontend/capture.rs`. The walk numbers the real blocks in pre-order and collects, for
every scope, the names it declares and, for every reference, the scope it stands in.
A block that `inlineShape` recognises owns no scope: its names are added to the scope
around it. A variable referenced from another scope than its own is captured and gets a
Context slot, any other a frame slot.
-/

namespace WinVm.Frontend

/-! ## Inlined control flow -/

inductive BlockPos where
  | receiver
  | arg (i : Nat)
deriving DecidableEq, Repr

/-- The selectors whose literal blocks are dissolved. -/
inductive Shape where
  | ifTrue
  | ifFalse
  | and
  | or
  | ifTrueIfFalse
  | ifFalseIfTrue
  | whileTrue
  | whileFalse
  | timesRepeat
  | ifNil
  | ifNotNil
  | ifNilIfNotNil
  | ifNotNilIfNil
  | repeat
  | toDo
deriving DecidableEq, Repr

def Shape.positions : Shape → List BlockPos
  | .ifTrue | .ifFalse | .and | .or | .timesRepeat | .ifNil | .ifNotNil => [.arg 0]
  | .ifTrueIfFalse | .ifFalseIfTrue | .ifNilIfNotNil | .ifNotNilIfNil => [.arg 0, .arg 1]
  | .whileTrue | .whileFalse => [.receiver, .arg 0]
  | .repeat => [.receiver]
  | .toDo => [.arg 1]

def blockArgc : Expr → Option Nat
  | .block params _ _ _ _ => some params.length
  | _ => none

def argcs (args : List Expr) : List (Option Nat) :=
  args.map blockArgc

/-- The selector match of `inline_block_positions`, on the `block_argc` of the receiver and of
the arguments, and on whether a `to:do:` of these arguments needs a real send. -/
def shapeOf (needsRealSend : Bool) (selector : String) (receiver : Option Nat)
    (args : List (Option Nat)) : Option Shape :=
  match selector, args with
  | "ifTrue:", [some 0] => some .ifTrue
  | "ifFalse:", [some 0] => some .ifFalse
  | "and:", [some 0] => some .and
  | "or:", [some 0] => some .or
  | "ifTrue:ifFalse:", [some 0, some 0] => some .ifTrueIfFalse
  | "ifFalse:ifTrue:", [some 0, some 0] => some .ifFalseIfTrue
  | "whileTrue:", [some 0] => if receiver = some 0 then some .whileTrue else none
  | "whileFalse:", [some 0] => if receiver = some 0 then some .whileFalse else none
  | "timesRepeat:", [some 0] => some .timesRepeat
  | "ifNil:", [some 0] => some .ifNil
  | "ifNotNil:", [some 0] => some .ifNotNil
  | "ifNotNil:", [some 1] => some .ifNotNil
  | "ifNil:ifNotNil:", [some 0, some 0] => some .ifNilIfNotNil
  | "ifNil:ifNotNil:", [some 0, some 1] => some .ifNilIfNotNil
  | "ifNotNil:ifNil:", [some 0, some 0] => some .ifNotNilIfNil
  | "ifNotNil:ifNil:", [some 1, some 0] => some .ifNotNilIfNil
  | "repeat", [] => if receiver = some 0 then some .repeat else none
  | "to:do:", [_, some 1] => if needsRealSend then none else some .toDo
  | _, _ => none

/-! `scan` of `to_do_needs_real_send`: is `loopVar` mentioned from a block nested in the
statements? `dissolves` says that the send around the expression dissolves it. -/

mutual

def scan (loopVar : String) (inNestedBlock dissolves : Bool) : Expr → Bool
  | .var name _ => inNestedBlock && name == loopVar
  | .assign name value _ =>
    (inNestedBlock && name == loopVar) || scan loopVar inNestedBlock false value
  | .send receiver selector args _ _ =>
    let positions := ((shapeOf (bodyNeedsRealSend args) selector (blockArgc receiver)
      (argcs args)).map Shape.positions).getD []
    scan loopVar inNestedBlock (positions.contains .receiver) receiver ||
      scanArgs loopVar inNestedBlock positions 0 args
  | .cascade receiver segments _ =>
    scan loopVar inNestedBlock false receiver || scanAll loopVar inNestedBlock segments
  | .ret value _ => scan loopVar inNestedBlock false value
  | .dynArray elems _ => scanAll loopVar inNestedBlock elems
  | .block _ _ body _ _ => scanAll loopVar (inNestedBlock || !dissolves) body
  | .selfRef _ | .cascadeRcvr _ | .lit _ _ => false

def scanArgs (loopVar : String) (inNestedBlock : Bool) (positions : List BlockPos) (i : Nat) :
    List Expr → Bool
  | [] => false
  | a :: args =>
    scan loopVar inNestedBlock (positions.contains (.arg i)) a ||
      scanArgs loopVar inNestedBlock positions (i + 1) args

def scanAll (loopVar : String) (inNestedBlock : Bool) : List Expr → Bool
  | [] => false
  | e :: es => scan loopVar inNestedBlock false e || scanAll loopVar inNestedBlock es

/-- `to_do_needs_real_send` on the one-parameter block of `to:do:` arguments. -/
def bodyNeedsRealSend : List Expr → Bool
  | [_, .block [loopVar] _ body _ _] => scanAll loopVar false body
  | _ => false

end

/-- The recognised control structure of a send; `none` compiles to a real send. -/
def inlineShape (selector : String) (receiver : Expr) (args : List Expr) : Option Shape :=
  shapeOf (bodyNeedsRealSend args) selector (blockArgc receiver) (argcs args)

/-- A `super` send is never dissolved. -/
def sendShape (isSuper : Bool) (selector : String) (receiver : Expr) (args : List Expr) :
    Option Shape :=
  if isSuper then none else inlineShape selector receiver args

/-! ## The walk -/

structure ScopeBuilder where
  parent : Option Nat
  isMethod : Bool
  argc : Nat
  names : List String
  captured : List Bool

/-- The scopes so far, the next scope's id being their number, and the references. -/
structure Walk where
  builders : List ScopeBuilder
  refs : List (Nat × String)

namespace Walk

def addRef (w : Walk) (scope : Nat) (name : String) : Walk :=
  { w with refs := w.refs ++ [(scope, name)] }

/-- The names of a dissolved block become names of the scope it stands in. -/
def addNames (w : Walk) (scope : Nat) (names : List String) : Walk :=
  { w with builders := w.builders.modify scope fun b =>
      { b with names := b.names ++ names, captured := b.captured ++ names.map fun _ => false } }

def addScope (w : Walk) (parent : Nat) (params temps : List String) : Walk :=
  { w with builders := w.builders ++ [{
      parent := some parent
      isMethod := false
      argc := params.length
      names := params ++ temps
      captured := (params ++ temps).map fun _ => false }] }

end Walk

mutual

/-- `walk_expr`; `dissolves` says that the send around the expression dissolves it, which
is `dissolve_block_into`. -/
def walkExpr (scope : Nat) (dissolves : Bool) : Expr → Walk → Expr × Walk
  | .selfRef s, w => (.selfRef s, w)
  | .cascadeRcvr s, w => (.cascadeRcvr s, w)
  | .var name s, w => (.var name s, w.addRef scope name)
  | .lit v s, w => (.lit v s, w)
  | .assign name value s, w =>
    let (value, w) := walkExpr scope false value (w.addRef scope name)
    (.assign name value s, w)
  | .send receiver selector args isSuper s, w =>
    let positions := ((sendShape isSuper selector receiver args).map Shape.positions).getD []
    let (receiver, w) := walkExpr scope (positions.contains .receiver) receiver w
    let (args, w) := walkArgs scope positions 0 args w
    (.send receiver selector args isSuper s, w)
  | .cascade receiver segments s, w =>
    let (receiver, w) := walkExpr scope false receiver w
    let (segments, w) := walkBlockBody scope segments w
    (.cascade receiver segments s, w)
  | .dynArray elems s, w =>
    let (elems, w) := walkBlockBody scope elems w
    (.dynArray elems s, w)
  | .ret value s, w =>
    let (value, w) := walkExpr scope false value w
    (.ret value s, w)
  | .block params temps body s scopeId, w =>
    if dissolves then
      let (body, w) := walkBlockBody scope body (w.addNames scope (params ++ temps))
      (.block params temps body s scopeId, w)
    else
      let thisId := w.builders.length
      let (body, w) := walkBlockBody thisId body (w.addScope scope params temps)
      (.block params temps body s thisId, w)

def walkArgs (scope : Nat) (positions : List BlockPos) (i : Nat) :
    List Expr → Walk → List Expr × Walk
  | [], w => ([], w)
  | a :: args, w =>
    let (a, w) := walkExpr scope (positions.contains (.arg i)) a w
    let (args, w) := walkArgs scope positions (i + 1) args w
    (a :: args, w)

/-- Also the segments of a cascade and the elements of a brace array. -/
def walkBlockBody (scope : Nat) : List Expr → Walk → List Expr × Walk
  | [], w => ([], w)
  | e :: es, w =>
    let (e, w) := walkExpr scope false e w
    let (es, w) := walkBlockBody scope es w
    (e :: es, w)

end

/-! ## Storage -/

structure VarSlot where
  captured : Bool
  frameSlot : Option Nat
  ctxSlot : Option Nat
deriving DecidableEq, Repr

structure ScopeInfo where
  parent : Option Nat
  isMethod : Bool
  argc : Nat
  vars : List (String × VarSlot)
  nctx : Nat
  frameTempCount : Nat
  hasCtx : Bool
  capturesCtx : Bool
deriving DecidableEq, Repr

/-- The two slot loops of `finalize_scope`, from variable `i` on. A parameter keeps its
frame slot even when it is captured. -/
def assignSlots (argc i nextFrameTemp nextCtx : Nat) : List (String × Bool) →
    List (String × VarSlot)
  | [] => []
  | (name, captured) :: rest =>
    let frame := if i < argc then some i else if captured then none else some nextFrameTemp
    let ctx := if captured then some nextCtx else none
    (name, ⟨captured, frame, ctx⟩) ::
      assignSlots argc (i + 1)
        (if i < argc ∨ captured then nextFrameTemp else nextFrameTemp + 1)
        (if captured then nextCtx + 1 else nextCtx) rest

def finalizeScope (b : ScopeBuilder) (capturesCtx : Bool) : ScopeInfo :=
  let nctx := b.captured.count true
  { parent := b.parent
    isMethod := b.isMethod
    argc := b.argc
    vars := assignSlots b.argc 0 b.argc 0 (b.names.zip b.captured)
    nctx := nctx
    frameTempCount := (b.captured.drop b.argc).count false
    hasCtx := decide (0 < nctx)
    capturesCtx := capturesCtx }

/-- The static chain of a scope, itself first: at most `fuel` scopes. A parent's id is
smaller than its child's, so `scope + 1` scopes reach the method. -/
def chainFrom (parent : Nat → Option Nat) : Nat → Nat → List Nat
  | 0, _ => []
  | fuel + 1, scope =>
    scope :: match parent scope with
      | some p => chainFrom parent fuel p
      | none => []

def staticChain (parent : Nat → Option Nat) (scope : Nat) : List Nat :=
  chainFrom parent (scope + 1) scope

namespace Walk

def parent (w : Walk) (scope : Nat) : Option Nat :=
  (w.builders[scope]?).bind ScopeBuilder.parent

def names (w : Walk) (scope : Nat) : List String :=
  ((w.builders[scope]?).map ScopeBuilder.names).getD []

def findDefiningScope (w : Walk) (scope : Nat) (name : String) : Option Nat :=
  (staticChain w.parent scope).find? fun s => (w.names s).contains name

/-- The variable a reference captures: it is declared by another scope. -/
def mark (w : Walk) (ref : Nat × String) : Option (Nat × Nat) :=
  match w.findDefiningScope ref.1 ref.2 with
  | some def_ => if def_ ≠ ref.1 then some (def_, (w.names def_).idxOf ref.2) else none
  | none => none

/-- The scopes between a reference and the scope that declares it, which must relay a
Context. -/
def relays (w : Walk) (ref : Nat × String) : List Nat :=
  match w.findDefiningScope ref.1 ref.2 with
  | some def_ => (staticChain w.parent ref.1).takeWhile fun s => s ≠ def_
  | none => []

def isCaptured (w : Walk) (scope i : Nat) : Bool :=
  w.refs.any fun ref => w.mark ref = some (scope, i)

def needsChain (w : Walk) (scope : Nat) : Bool :=
  w.refs.any fun ref => (w.relays ref).contains scope

/-- The scopes of the finished walk. Only a block relays a Context. -/
def finish (w : Walk) : List ScopeInfo :=
  w.builders.mapIdx fun scope b =>
    finalizeScope
      { b with captured := b.captured.mapIdx fun i c => c || w.isCaptured scope i }
      (!b.isMethod && w.needsChain scope)

end Walk

/-! ## The result -/

inductive Resolved where
  | local (slot : Nat)
  | captured (depth ctxSlot : Nat)
deriving DecidableEq, Repr

/-- The access to a variable whose scope is `depth` Contexts out. -/
def VarSlot.resolved (as8 : Nat → Nat) (depth : Nat) (slot : VarSlot) : Resolved :=
  if slot.captured then .captured (as8 depth) (as8 (slot.ctxSlot.getD 0))
  else .local (slot.frameSlot.getD 0)

structure CaptureInfo where
  scopes : List ScopeInfo

def ScopeInfo.find (info : ScopeInfo) (name : String) : Option VarSlot :=
  (info.vars.find? fun v => v.1 = name).map (·.2)

namespace CaptureInfo

def parent (c : CaptureInfo) (scope : Nat) : Option Nat :=
  (c.scopes[scope]?).bind ScopeInfo.parent

def find (c : CaptureInfo) (scope : Nat) (name : String) : Option VarSlot :=
  (c.scopes[scope]?).bind fun info => info.find name

def hasCtx (c : CaptureInfo) (scope : Nat) : Bool :=
  ((c.scopes[scope]?).map ScopeInfo.hasCtx).getD false

/-- The number of scopes with a Context of their own from `scope` up to but excluding
`target`. -/
def depthTo (c : CaptureInfo) (scope target : Nat) : Nat :=
  ((staticChain c.parent scope).takeWhile fun s => s ≠ target).countP fun s => c.hasCtx s

/-- The innermost scope of the static chain that has `name`; operands are narrowed by
`as8`. -/
def resolve (as8 : Nat → Nat) (c : CaptureInfo) (scope : Nat) (name : String) :
    Option Resolved :=
  (staticChain c.parent scope).findSome? fun s =>
    (c.find s name).map (VarSlot.resolved as8 (c.depthTo scope s))

end CaptureInfo

/-- `analyze`: the method with its blocks numbered, and its scopes. -/
def analyze (m : MethodNode) : MethodNode × CaptureInfo :=
  let w : Walk := {
    builders := [{
      parent := none
      isMethod := true
      argc := m.params.length
      names := m.params ++ m.temps
      captured := (m.params ++ m.temps).map fun _ => false }]
    refs := [] }
  let (body, w) := walkBlockBody 0 m.body w
  ({ m with body := body }, ⟨w.finish⟩)

end WinVm.Frontend
