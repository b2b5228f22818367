import WinVm.Frontend.Capture

/-!
# Code generation

`frontend/codegen.rs`. Emission answers the calls it makes on the bytecode builder, in
order, as a list of `Item`s; `Assemble` feeds them to the builder. An operand that the
source narrows to a byte goes through `as8`, so that the code can be compared with the
one whose operands are unbounded. A nested block is named by its scope id in
`pushClosure`, and its own code joins the units that are finished.
-/

namespace WinVm.Frontend

/-! ## Items -/

/-- The associations that `push_global` names: a class variable, by its place on the
superclass chain, or a global. -/
inductive Assoc where
  | classVar (i : Nat)
  | global (name : String)
deriving DecidableEq, Repr

inductive VarRef where
  | local (slot : Nat)
  | captured (depth ctxSlot : Nat)
  | instVar (i : Nat)
  | global (assoc : Assoc)
deriving DecidableEq, Repr

def Resolved.varRef (as8 : Nat → Nat) : Resolved → VarRef
  | .local slot => .local (as8 slot)
  | .captured depth k => .captured depth k

/-- What a literal push names: the literal's value, or the class `Array`. -/
inductive LiteralRef where
  | value (l : Literal)
  | arrayClass

inductive Item where
  | noteLine (line : BitVec 32)
  | pushSelf
  | pushNil
  | pushTrue
  | pushFalse
  | pushSmiI8 (v : Int)
  | pushLiteral (l : LiteralRef)
  /-- The load or the store of a name, by `emit_load` or `emit_store`. -/
  | load (name : String) (ref : VarRef)
  | store (name : String) (ref : VarRef)
  | pushTemp (slot : Nat)
  | storeTempPop (slot : Nat)
  | storeCtxTempPop (depth ctxSlot : Nat)
  | pop
  | dup
  | send (isSuper : Bool) (selector : String) (argc : Nat)
  | bind (l : Nat)
  | jumpFwd (l : Nat)
  | brTrueFwd (l : Nat)
  | brFalseFwd (l : Nat)
  | jumpBack (l : Nat)
  | pushClosure (scopeId : Nat)
  | retTos
  | retSelf
  | blockReturnTos
  | nlrTos

/-- The code of a method or of a real block, and the flags set on it. -/
structure CodeUnit where
  scopeId : Nat
  argc : Nat
  ntemps : Nat
  hasCtx : Bool
  isBlock : Bool
  primFails : Bool
  capturesCtx : Bool
  nctx : Nat
  labels : Nat
  code : List Item

/-! ## Emission -/

/-- A compile error, or a panic of an arm the parser excludes. -/
inductive Fault where
  | error (e : CompileError)
  | panic
deriving DecidableEq, Repr

/-- What emission threads: the next hoisted slot and the number of labels of the unit
being emitted, the globals declared and the units finished. -/
structure Gen where
  nextHoistSlot : Nat
  labels : Nat
  globals : List String
  units : List CodeUnit

/-- Code to emit: what it appends to the unit, and the state after it. -/
def Emit : Type := Gen → Except Fault (List Item × Gen)

namespace Emit

def skip : Emit := fun g => .ok ([], g)

def op (i : Item) : Emit := fun g => .ok ([i], g)

def fail (f : Fault) : Emit := fun _ => .error f

def append (a b : Emit) : Emit := fun g =>
  match a g with
  | .error f => .error f
  | .ok (xs, g) =>
    match b g with
    | .error f => .error f
    | .ok (ys, g) => .ok (xs ++ ys, g)

instance : Append Emit := ⟨append⟩

/-- `b.new_label()`. -/
def newLabel (k : Nat → Emit) : Emit := fun g =>
  k g.labels { g with labels := g.labels + 1 }

/-- `*next_hoist_slot`, then its increment. -/
def newSlots (n : Nat) (k : Nat → Emit) : Emit := fun g =>
  k g.nextHoistSlot { g with nextHoistSlot := g.nextHoistSlot + n }

end Emit

open Emit

/-- A `HashMap`: the entry inserted last stands first. -/
structure HoistScope where
  names : List (String × Nat)

def HoistScope.get (h : HoistScope) (name : String) : Option Nat :=
  h.names.lookup name

structure Ctx where
  as8 : Nat → Nat
  /-- `flatten_inst_vars` of the holder. -/
  instVarNames : List String
  /-- The class variables of the superclass chain, the holder's first. -/
  classVars : List String
  classSide : Bool
  topLevel : Bool
  capture : CaptureInfo

namespace Ctx

def error (span : Span) (msg : String) : Fault := .error ⟨span, msg, false⟩

/-- `resolve_var` past the slot variables; the globals after it. -/
def resolveOuter (cx : Ctx) (globals : List String) (name : String) (span : Span)
    (isWrite : Bool) : Except Fault (VarRef × List String) :=
  if !cx.classSide && cx.instVarNames.contains name then
    .ok (.instVar (cx.as8 (cx.instVarNames.idxOf name)), globals)
  else if cx.classVars.contains name then
    .ok (.global (.classVar (cx.classVars.idxOf name)), globals)
  else if globals.contains name then
    .ok (.global (.global name), globals)
  else if cx.topLevel && isWrite && name.front.isUpper then
    .ok (.global (.global name), name :: globals)
  else
    .error (error span s!"undeclared variable '{name}'")

def resolveVar (cx : Ctx) (hoist : List HoistScope) (scopeId : Nat) (globals : List String)
    (name : String) (span : Span) (isWrite : Bool) : Except Fault (VarRef × List String) :=
  match hoist.findSome? fun h => h.get name with
  | some slot => .ok (.local slot, globals)
  | none =>
    match cx.capture.resolve cx.as8 scopeId name with
    | some r => .ok (r.varRef cx.as8, globals)
    | none => cx.resolveOuter globals name span isWrite

end Ctx

def methodArgcMax : Nat := 15
def methodNtempsMax : Nat := 255
def methodNctxMax : Nat := 255

def checkLimits (span : Span) (argc ntemps nctx : Nat) : Except Fault Unit :=
  if methodArgcMax < argc then
    .error (Ctx.error span s!"too many parameters ({argc} > {methodArgcMax})")
  else if methodNtempsMax < ntemps then
    .error (Ctx.error span s!"too many temporaries/locals ({ntemps} > {methodNtempsMax})")
  else if methodNctxMax < nctx then
    .error (Ctx.error span s!"too many captured variables ({nctx} > {methodNctxMax})")
  else .ok ()

/-- The unit of code that is being emitted: its scope, and whether it is a block, which
decides what an explicit return compiles to. -/
structure Site where
  hoist : List HoistScope
  scopeId : Nat
  inBlock : Bool

def emitAccess (cx : Ctx) (site : Site) (name : String) (span : Span) (isWrite : Bool) : Emit :=
  fun g =>
    match cx.resolveVar site.hoist site.scopeId g.globals name span isWrite with
    | .error f => .error f
    | .ok (ref, globals) =>
      .ok ([if isWrite then .store name ref else .load name ref], { g with globals := globals })

def emitLoad (cx : Ctx) (site : Site) (name : String) (span : Span) : Emit :=
  emitAccess cx site name span false

def emitStore (cx : Ctx) (site : Site) (name : String) (span : Span) : Emit :=
  emitAccess cx site name span true

def emitLiteral : Literal → Emit
  | .int v => if -128 ≤ v ∧ v ≤ 127 then op (.pushSmiI8 v) else op (.pushLiteral (.value (.int v)))
  | .nil => op .pushNil
  | .true => op .pushTrue
  | .false => op .pushFalse
  | l => op (.pushLiteral (.value l))

/-- `push_hoist_scope`: fresh frame slots for the parameters and temporaries of a
dissolved block. -/
def hoistNames (as8 : Nat → Nat) (first : Nat) (names : List String) : HoistScope :=
  ⟨(names.mapIdx fun i name => (name, as8 (first + i))).reverse⟩

def Site.push (site : Site) (h : HoistScope) : Site :=
  { site with hoist := h :: site.hoist }

def explicitReturn (inBlock : Bool) : Emit :=
  if inBlock then op .nlrTos else op .retTos

/-- `emit_statement_discard`; `operand` emits the expression a return or an assignment
statement evaluates, `whole` the statement itself. -/
def emitStatementDiscard (cx : Ctx) (site : Site) (isBlock : Bool) (stmt : Expr)
    (operand whole : Emit) : Emit :=
  op (.noteLine stmt.span.line) ++
    match stmt with
    | .ret _ _ => operand ++ explicitReturn isBlock
    | .assign name _ span => operand ++ emitStore cx site name span
    | _ => whole ++ op .pop

def emitStatementValue (cx : Ctx) (site : Site) (stmt : Expr) (operand whole : Emit) : Emit :=
  op (.noteLine stmt.span.line) ++
    match stmt with
    | .assign name _ span => operand ++ op .dup ++ emitStore cx site name span
    | _ => whole

/-- A loop over a counter that runs to a limit: `<=`, the body, and the increment. -/
def countedLoop (iSlot limSlot : Nat) (body : Emit) : Emit :=
  newLabel fun l0 => newLabel fun l2 =>
    op (.bind l0) ++ op (.pushTemp iSlot) ++ op (.pushTemp limSlot) ++
    op (.send false "<=" 1) ++ op (.brFalseFwd l2) ++
    body ++ op .pop ++
    op (.pushTemp iSlot) ++ op (.pushSmiI8 1) ++ op (.send false "+" 1) ++
    op (.storeTempPop iSlot) ++ op (.jumpBack l0) ++ op (.bind l2)

/-- The identity test of the nil family: the receiver stays on the stack. -/
def nilTest (receiver : Emit) : Emit :=
  receiver ++ op .dup ++ op .pushNil ++ op (.send false "==" 1)

def emitPrologue (as8 : Nat → Nat) (info : ScopeInfo) : List Item :=
  if info.hasCtx then
    ((info.vars.take info.argc).mapIdx fun i v =>
      if v.2.captured then
        [Item.pushTemp (as8 i), .storeCtxTempPop 0 (as8 (v.2.ctxSlot.getD 0))]
      else []).flatten
  else []

inductive BodyKind where
  | method
  | doIt
  | block
deriving DecidableEq, Repr

/-- How a sequence of statements ends: when it is empty, after an explicit return and
after the value of the last statement; and what an earlier explicit return compiles to. -/
structure Ending where
  empty : Emit
  afterReturn : Emit
  afterValue : Emit
  inBlock : Bool

/-- `emit_statement_seq`: a dissolved body leaves its value to the construct around it. -/
def Ending.dissolved (inBlock : Bool) : Ending :=
  ⟨op .pushNil, explicitReturn inBlock, skip, inBlock⟩

/-- `emit_body` of a block. -/
def Ending.block : Ending :=
  ⟨op .pushNil ++ op .blockReturnTos, op .nlrTos, op .blockReturnTos, true⟩

/-- `emit_body` of a doIt, which answers the value of its last statement. -/
def Ending.doIt : Ending :=
  ⟨op .retSelf, op .retTos, op .retTos, false⟩

def emitLastStatement (cx : Ctx) (site : Site) (ending : Ending) (stmt : Expr)
    (operand whole : Emit) : Emit :=
  match stmt with
  | .ret _ _ => operand ++ ending.afterReturn
  | _ => emitStatementValue cx site stmt operand whole ++ ending.afterValue

/-- The unit of a real block, around its emitted body. -/
def emitBlockLiteral (cx : Ctx) (span : Span) (scopeId argc : Nat) (body : Emit) : Emit := fun g =>
  match cx.capture.scopes[scopeId]? with
  | none => .error .panic
  | some info =>
    match checkLimits span argc info.frameTempCount info.nctx with
    | .error f => .error f
    | .ok () =>
      match body ⟨info.frameTempCount + argc, 0, g.globals, g.units⟩ with
      | .error f => .error f
      | .ok (code, inner) =>
        .ok ([.pushClosure scopeId], { g with
          globals := inner.globals
          units := inner.units ++ [{
            scopeId := scopeId
            argc := argc
            ntemps := inner.nextHoistSlot - argc
            hasCtx := info.hasCtx
            isBlock := true
            primFails := false
            capturesCtx := info.capturesCtx
            nctx := info.nctx
            labels := inner.labels
            code := emitPrologue cx.as8 info ++ code }] })

mutual

def emitExpr (cx : Ctx) (site : Site) : Expr → Emit
  | .selfRef _ => op .pushSelf
  | .cascadeRcvr _ => skip
  | .var name span => emitLoad cx site name span
  | .lit value _ => emitLiteral value
  | .assign name value span => emitExpr cx site value ++ op .dup ++ emitStore cx site name span
  | .send receiver selector args isSuper _ =>
    match sendShape isSuper selector receiver args with
    | some shape =>
      emitInlined cx site shape (emitExpr cx site receiver) (emitDissolvedBody cx site receiver)
        args
    | none =>
      emitExpr cx site receiver ++ emitArgs cx site args ++
        op (.send isSuper selector (cx.as8 args.length))
  | .cascade receiver segments _ => emitExpr cx site receiver ++ emitSegments cx site segments
  | .dynArray elems _ =>
    op (.pushLiteral .arrayClass) ++ emitLiteral (.int elems.length) ++
      op (.send false "new:" 1) ++ emitElems cx site 0 elems
  | .block params _ body span scopeId =>
    emitBlockLiteral cx span scopeId params.length
      (emitStatements cx ⟨[], scopeId, true⟩ Ending.block body)
  | .ret _ _ => fail .panic

def emitArgs (cx : Ctx) (site : Site) : List Expr → Emit
  | [] => skip
  | a :: args => emitExpr cx site a ++ emitArgs cx site args

/-- Every segment but the last works on a copy of the receiver, and its value is dropped. -/
def emitSegments (cx : Ctx) (site : Site) : List Expr → Emit
  | [] => skip
  | [seg] => emitExpr cx site seg
  | seg :: segments =>
    op .dup ++ emitExpr cx site seg ++ op .pop ++ emitSegments cx site segments

def emitElems (cx : Ctx) (site : Site) (i : Nat) : List Expr → Emit
  | [] => skip
  | el :: elems =>
    op .dup ++ emitLiteral (.int (i + 1)) ++ emitExpr cx site el ++
      op (.send false "at:put:" 2) ++ op .pop ++ emitElems cx site (i + 1) elems

/-- `emit_inlined`, on the code of its receiver: as an expression, and as a block
dissolved here. -/
def emitInlined (cx : Ctx) (site : Site) (shape : Shape) (receiver receiverBody : Emit) :
    List Expr → Emit
  | [] =>
    match shape with
    | .repeat =>
      newLabel fun l0 =>
        op (.bind l0) ++ receiverBody ++ op .pop ++ op (.jumpBack l0) ++ op .pushNil
    | _ => fail .panic
  | [a] =>
    match shape with
    | .ifTrue =>
      receiver ++ newLabel fun l1 => newLabel fun l2 =>
        op (.brFalseFwd l1) ++ emitDissolvedBody cx site a ++ op (.jumpFwd l2) ++
        op (.bind l1) ++ op .pushNil ++ op (.bind l2)
    | .ifFalse =>
      receiver ++ newLabel fun l1 => newLabel fun l2 =>
        op (.brTrueFwd l1) ++ emitDissolvedBody cx site a ++ op (.jumpFwd l2) ++
        op (.bind l1) ++ op .pushNil ++ op (.bind l2)
    | .and =>
      receiver ++ newLabel fun l1 => newLabel fun l2 =>
        op (.brFalseFwd l1) ++ emitDissolvedBody cx site a ++ op (.jumpFwd l2) ++
        op (.bind l1) ++ op .pushFalse ++ op (.bind l2)
    | .or =>
      receiver ++ newLabel fun l1 => newLabel fun l2 =>
        op (.brTrueFwd l1) ++ emitDissolvedBody cx site a ++ op (.jumpFwd l2) ++
        op (.bind l1) ++ op .pushTrue ++ op (.bind l2)
    | .whileTrue =>
      newLabel fun l0 => newLabel fun l2 =>
        op (.bind l0) ++ receiverBody ++ op (.brFalseFwd l2) ++
        emitDissolvedBody cx site a ++ op .pop ++ op (.jumpBack l0) ++
        op (.bind l2) ++ op .pushNil
    | .whileFalse =>
      newLabel fun l0 => newLabel fun l2 =>
        op (.bind l0) ++ receiverBody ++ op (.brTrueFwd l2) ++
        emitDissolvedBody cx site a ++ op .pop ++ op (.jumpBack l0) ++
        op (.bind l2) ++ op .pushNil
    | .timesRepeat =>
      receiver ++ op .dup ++ newSlots 1 fun limSlot =>
        op (.storeTempPop (cx.as8 limSlot)) ++ newSlots 1 fun iSlot =>
          op (.pushSmiI8 1) ++ op (.storeTempPop (cx.as8 iSlot)) ++
          countedLoop (cx.as8 iSlot) (cx.as8 limSlot) (emitLoopBody cx site 0 a)
    | .ifNil =>
      nilTest receiver ++ newLabel fun l1 => newLabel fun l2 =>
        op (.brFalseFwd l1) ++ op .pop ++ emitDissolvedBody cx site a ++ op (.jumpFwd l2) ++
        op (.bind l1) ++ op (.bind l2)
    | .ifNotNil =>
      nilTest receiver ++ newLabel fun l1 => newLabel fun l2 =>
        op (.brTrueFwd l1) ++ emitIfnotnilArm cx site a ++ op (.jumpFwd l2) ++
        op (.bind l1) ++ op (.bind l2)
    | _ => fail .panic
  | [a, b] =>
    match shape with
    | .ifTrueIfFalse =>
      receiver ++ newLabel fun l1 => newLabel fun l2 =>
        op (.brFalseFwd l1) ++ emitDissolvedBody cx site a ++ op (.jumpFwd l2) ++
        op (.bind l1) ++ emitDissolvedBody cx site b ++ op (.bind l2)
    | .ifFalseIfTrue =>
      receiver ++ newLabel fun l1 => newLabel fun l2 =>
        op (.brFalseFwd l1) ++ emitDissolvedBody cx site b ++ op (.jumpFwd l2) ++
        op (.bind l1) ++ emitDissolvedBody cx site a ++ op (.bind l2)
    | .ifNilIfNotNil =>
      nilTest receiver ++ newLabel fun l1 => newLabel fun l2 =>
        op (.brFalseFwd l1) ++ op .pop ++ emitDissolvedBody cx site a ++ op (.jumpFwd l2) ++
        op (.bind l1) ++ emitIfnotnilArm cx site b ++ op (.bind l2)
    | .ifNotNilIfNil =>
      nilTest receiver ++ newLabel fun l1 => newLabel fun l2 =>
        op (.brTrueFwd l1) ++ emitIfnotnilArm cx site a ++ op (.jumpFwd l2) ++
        op (.bind l1) ++ op .pop ++ emitDissolvedBody cx site b ++ op (.bind l2)
    | .toDo =>
      receiver ++ op .dup ++ newSlots 1 fun iSlot =>
        op (.storeTempPop (cx.as8 iSlot)) ++ emitExpr cx site a ++ newSlots 1 fun limSlot =>
          op (.storeTempPop (cx.as8 limSlot)) ++
          countedLoop (cx.as8 iSlot) (cx.as8 limSlot) (emitLoopBody cx site (cx.as8 iSlot) b)
    | _ => fail .panic
  | _ => fail .panic

def emitDissolvedBody (cx : Ctx) (site : Site) : Expr → Emit
  | .block params temps body _ _ =>
    newSlots (params ++ temps).length fun first =>
      emitStatements cx (site.push (hoistNames cx.as8 first (params ++ temps))) (Ending.dissolved site.inBlock) body
  | _ => fail .panic

/-- The statements of a counted loop's block, whose parameter, if it has one, is the
counter; its temporaries get no slot here. -/
def emitLoopBody (cx : Ctx) (site : Site) (iSlot : Nat) : Expr → Emit
  | .block [] _ body _ _ => emitStatements cx site (Ending.dissolved site.inBlock) body
  | .block (loopVar :: _) _ body _ _ =>
    emitStatements cx (site.push ⟨[(loopVar, iSlot)]⟩) (Ending.dissolved site.inBlock) body
  | _ => fail .panic

/-- The receiver's value is on the stack: dropped, or bound to the parameter. -/
def emitIfnotnilArm (cx : Ctx) (site : Site) : Expr → Emit
  | .block [] temps body _ _ =>
    op .pop ++ newSlots temps.length fun first =>
      emitStatements cx (site.push (hoistNames cx.as8 first temps)) (Ending.dissolved site.inBlock) body
  | .block (param :: params) temps body _ _ =>
    newSlots (param :: params ++ temps).length fun first =>
      let h := hoistNames cx.as8 first (param :: params ++ temps)
      op (.storeTempPop ((h.get param).getD 0)) ++ emitStatements cx (site.push h) (Ending.dissolved site.inBlock) body
  | _ => fail .panic

/-- The expression that a return or an assignment statement evaluates. -/
def emitOperand (cx : Ctx) (site : Site) : Expr → Emit
  | .ret value _ => emitExpr cx site value
  | .assign _ value _ => emitExpr cx site value
  | _ => skip

/-- The statements of a dissolved body, a block or a doIt. -/
def emitStatements (cx : Ctx) (site : Site) (ending : Ending) : List Expr → Emit
  | [] => ending.empty
  | [last] =>
    emitLastStatement cx site ending last (emitOperand cx site last) (emitExpr cx site last)
  | stmt :: body =>
    emitStatementDiscard cx site ending.inBlock stmt (emitOperand cx site stmt)
      (emitExpr cx site stmt) ++ emitStatements cx site ending body

end

/-- `emit_body` of a method: falling off the end answers the receiver. -/
def emitMethodBody (cx : Ctx) (site : Site) : List Expr → Emit
  | [] => op .retSelf
  | stmt :: body =>
    emitStatementDiscard cx site false stmt (emitOperand cx site stmt) (emitExpr cx site stmt) ++
      emitMethodBody cx site body

def emitBody (cx : Ctx) (site : Site) (body : List Expr) : BodyKind → Emit
  | .method => emitMethodBody cx site body
  | .doIt => emitStatements cx site Ending.doIt body
  | .block => emitStatements cx site Ending.block body

/-! ## Entry points -/

/-- The class a method is compiled for, and the globals there are. -/
structure Holder where
  instVarNames : List String
  classVars : List String
  globals : List String

/-- `compile_method_inner` up to the builder: the units of the nested blocks in the order
they are finished, then the method's own, and the globals after it. -/
def compileMethodInner (as8 : Nat → Nat) (h : Holder) (classSide topLevel : Bool)
    (m : MethodNode) : Except Fault (List CodeUnit × List String) :=
  let (m, capture) := analyze m
  let cx : Ctx := {
    as8 := as8
    instVarNames := if classSide then [] else h.instVarNames
    classVars := h.classVars
    classSide := classSide
    topLevel := topLevel
    capture := capture }
  match capture.scopes[0]? with
  | none => .error .panic
  | some scope0 =>
    let argc := m.params.length
    match checkLimits m.span argc scope0.frameTempCount scope0.nctx with
    | .error f => .error f
    | .ok () =>
      match emitBody cx ⟨[], 0, false⟩ m.body (if topLevel then .doIt else .method)
          ⟨scope0.frameTempCount + argc, 0, h.globals, []⟩ with
      | .error f => .error f
      | .ok (code, g) =>
        .ok (g.units ++ [{
          scopeId := 0
          argc := argc
          ntemps := g.nextHoistSlot - argc
          hasCtx := scope0.hasCtx
          isBlock := false
          primFails := m.primitive.isSome && !m.body.isEmpty
          capturesCtx := false
          nctx := scope0.nctx
          labels := g.labels
          code := emitPrologue as8 scope0 ++ code }], g.globals)

def compileMethod (as8 : Nat → Nat) (h : Holder) (classSide : Bool) (m : MethodNode) :
    Except Fault (List CodeUnit × List String) :=
  compileMethodInner as8 h classSide false m

/-- A statement wrapped as an anonymous `doIt` method. -/
def compileDoit (as8 : Nat → Nat) (h : Holder) (stmt : Expr) :
    Except Fault (List CodeUnit × List String) :=
  compileMethodInner as8 h false true {
    patternSelector := "doIt"
    params := []
    primitive := none
    ffi := none
    temps := []
    body := [stmt]
    classSide := false
    span := stmt.span }

/-- `as u8`. -/
def narrow8 (n : Nat) : Nat := n % 256

end WinVm.Frontend
