import WinVm.Frontend.Scoping
import WinVm.Lib.Traced

/-!
# What a program means, and what its code does

The meaning of a method's body, of a doIt and of a block is a computation that emits the
sends, the variable stores and the closure creations the program asks for. The locals of
a dissolved block belong to one activation of that block, as those of any block do; every
other variable is kept in its cell. What sends, closures and shared cells do is a
`Behaviour`, and everything outside the activation a world `W`.

The code of a unit runs on an operand stack and the frame's slots. A jump goes to the place
its label is bound.
-/

namespace WinVm.Frontend

open Lib

variable {V W : Type}

/-! ## Behaviours -/

/-- What the code around a unit does. A send answers nothing when it does not come back:
when it runs forever, or a non-local return leaves the activation. -/
structure Behaviour (V W : Type) where
  nilObj : V
  trueObj : V
  falseObj : V
  booleans : trueObj ≠ falseObj
  literal : LiteralRef → V
  get : Cell → W → V
  set : Cell → V → W → W
  send : Bool → String → V → List V → W → Option (V × W)
  closure : Nat → W → V × W

inductive Event (V : Type) where
  | sent (isSuper : Bool) (selector : String) (receiver : V) (args : List V)
  | stored (name : String) (value : V)
  | closed (scopeId : Nat) (closure : V)
deriving DecidableEq

/-- How an activation ends: it answers its sender, a block answers whoever evaluated it,
a block returns from its home method, or a send does not come back. -/
inductive Outcome (V W : Type) where
  | returned (v : V) (w : W)
  | blockReturned (v : V) (w : W)
  | nonLocal (v : V) (w : W)
  | away
deriving DecidableEq

def Behaviour.value (b : Behaviour V W) : Literal → V
  | .nil => b.nilObj
  | .true => b.trueObj
  | .false => b.falseObj
  | l => b.literal (.value l)

def Behaviour.int (b : Behaviour V W) (i : Int) : V := b.literal (.value (.int i))

/-! ## Source computations -/

/-- A local of a dissolved block: unassigned, or a value. A loop variable of `to:do:` is
marked. -/
structure Local (V : Type) where
  value : Option V
  counter : Bool

/-- The locals of the open dissolved blocks, the innermost first, the variables that only
the activation reaches, and the world. -/
structure State (V W : Type) where
  scopes : List (List (String × Local V))
  frame : Nat → V
  world : W

abbrev Act (V W : Type) : Type → Type := Comp (Event V) (State V W) (Outcome V W)

namespace State

def find (s : State V W) (name : String) : Option (Local V) :=
  s.scopes.findSome? fun vars => vars.lookup name

def push (vars : List (String × Local V)) (s : State V W) : State V W :=
  { s with scopes := vars :: s.scopes }

def pop (s : State V W) : State V W :=
  { s with scopes := s.scopes.tail }

/-- The innermost scope that has the name gets the value. -/
def assignIn (name : String) (v : V) :
    List (List (String × Local V)) → List (List (String × Local V))
  | [] => []
  | vars :: scopes =>
    if (vars.lookup name).isSome then
      vars.map (fun x => if x.1 = name then (x.1, { x.2 with value := some v }) else x) :: scopes
    else vars :: assignIn name v scopes

def assign (name : String) (v : V) (s : State V W) : State V W :=
  { s with scopes := assignIn name v s.scopes }

/-- A frame cell is one of the activation's own. -/
def read (b : Behaviour V W) (s : State V W) : Cell → V
  | .frame _ slot => s.frame slot
  | cell => b.get cell s.world

def write (b : Behaviour V W) (cell : Cell) (v : V) (s : State V W) : State V W :=
  match cell with
  | .frame _ slot => { s with frame := Function.update s.frame slot v }
  | cell => { s with world := b.set cell v s.world }

end State

/-- What the meaning of a unit's statements depends on. `place` is the cell of a name that
no dissolved block declares, and `fuel` bounds the turns of every loop. -/
structure Scene (V W : Type) where
  behaviour : Behaviour V W
  place : String → Option Cell
  self : V
  inBlock : Bool
  fuel : Nat

namespace Scene

variable (sc : Scene V W)

/-- The meaning is fixed on Booleans only. -/
def truth [DecidableEq V] (v : V) : Act V W Bool :=
  if v = sc.behaviour.trueObj then pure true
  else if v = sc.behaviour.falseObj then pure false
  else Comp.wrong

/-- Locals are assigned before they are read. -/
def load (name : String) : Act V W V := do
  match ← Comp.get (State.find · name) with
  | some ⟨some v, _⟩ => pure v
  | some ⟨none, _⟩ => Comp.wrong
  | none =>
    match sc.place name with
    | some cell => Comp.get (State.read sc.behaviour · cell)
    | none => Comp.wrong

/-- Assigning a loop variable of `to:do:` is flagged. -/
def store (name : String) (v : V) : Act V W Unit := do
  match ← Comp.get (State.find · name) with
  | some l =>
    if l.counter then Comp.flag
    Comp.emit (.stored name v)
    Comp.modify (State.assign name v)
  | none =>
    match sc.place name with
    | some cell =>
      Comp.emit (.stored name v)
      Comp.modify (State.write sc.behaviour cell v)
    | none => Comp.wrong

def send (isSuper : Bool) (selector : String) (receiver : V) (args : List V) : Act V W V := do
  Comp.emit (.sent isSuper selector receiver args)
  match ← Comp.get fun s => sc.behaviour.send isSuper selector receiver args s.world with
  | some (v, w) =>
    Comp.modify fun s => { s with world := w }
    pure v
  | none => Comp.halt fun _ => .away

def closure (scopeId : Nat) : Act V W V := do
  let (v, w) ← Comp.get fun s => sc.behaviour.closure scopeId s.world
  Comp.emit (.closed scopeId v)
  Comp.modify fun s => { s with world := w }
  pure v

/-- `^`: from a method, or from the home method of a block. -/
def explicitReturn (v : V) : Act V W V :=
  Comp.halt fun s => if sc.inBlock then .nonLocal v s.world else .returned v s.world

variable [DecidableEq V]

/-- `[c] whileTrue: [b]`, or `whileFalse:`. -/
def whileLoop (wanted : Bool) (cond body : Act V W V) : Act V W Unit :=
  Comp.loop (fun _ => do
    if (← sc.truth (← cond)) = wanted then
      let _ ← body
      pure (.inl ())
    else pure (.inr ())) sc.fuel ()

def repeatLoop (body : Act V W V) : Act V W V :=
  Comp.loop (fun _ => do
    let _ ← body
    pure (.inl ())) sc.fuel ()

/-- The loop of `to:do:` and of `timesRepeat:`: `<=` and `+` are sent. -/
def countedLoop (limit : V) (body : V → Act V W V) (first : V) : Act V W Unit :=
  Comp.loop (fun i => do
    if ← sc.truth (← sc.send false "<=" i [limit]) then
      let _ ← body i
      let next ← sc.send false "+" i [sc.behaviour.int 1]
      pure (.inl next)
    else pure (.inr ())) sc.fuel first

/-- The nil family asks with `==`. -/
def isNil (v : V) : Act V W Bool := do
  sc.truth (← sc.send false "==" v [sc.behaviour.nilObj])

end Scene

/-- The locals of a block's activation: its parameters hold the arguments. -/
def opened (params temps : List String) (args : List V) (counter : Bool) :
    List (String × Local V) :=
  (params.mapIdx fun i p => (p, ⟨args[i]?, counter⟩)) ++ temps.map fun t => (t, ⟨none, false⟩)

def within (vars : List (String × Local V)) (x : Act V W V) : Act V W V :=
  x.within (State.push vars) State.pop

/-! ## The meaning of expressions -/

section

variable [DecidableEq V]

mutual

/-- `rcvr` is the receiver of the cascade whose segment the expression begins. -/
def evalExpr (sc : Scene V W) (rcvr : Option V) : Expr → Act V W V
  | .selfRef _ => pure sc.self
  | .cascadeRcvr _ =>
    match rcvr with
    | some v => pure v
    | none => Comp.wrong
  | .var name _ => sc.load name
  | .lit value _ => pure (sc.behaviour.value value)
  | .assign name value _ => do
    let v ← evalExpr sc none value
    sc.store name v
    pure v
  | .send receiver selector args isSuper _ =>
    match sendShape isSuper selector receiver args with
    | some shape =>
      evalInlined sc shape (evalExpr sc rcvr receiver) (evalBlock sc [] false receiver) args
    | none => do
      let r ← evalExpr sc rcvr receiver
      let vs ← evalArgs sc args
      sc.send isSuper selector r vs
  | .cascade receiver segments _ => do
    let r ← evalExpr sc none receiver
    evalSegments sc r segments
  | .dynArray elems _ => do
    let array ← sc.send false "new:" (sc.behaviour.literal .arrayClass)
      [sc.behaviour.int elems.length]
    evalElems sc array 0 elems
  | .block _ _ _ _ scopeId => sc.closure scopeId
  | .ret value _ => do
    let v ← evalExpr sc none value
    sc.explicitReturn v

def evalArgs (sc : Scene V W) : List Expr → Act V W (List V)
  | [] => pure []
  | a :: args => do
    let v ← evalExpr sc none a
    let vs ← evalArgs sc args
    pure (v :: vs)

/-- Every segment is sent to the one receiver; the last one's value is the cascade's. -/
def evalSegments (sc : Scene V W) (r : V) : List Expr → Act V W V
  | [] => pure r
  | [seg] => evalExpr sc (some r) seg
  | seg :: segments => do
    let _ ← evalExpr sc (some r) seg
    evalSegments sc r segments

def evalElems (sc : Scene V W) (array : V) (i : Nat) : List Expr → Act V W V
  | [] => pure array
  | el :: elems => do
    let v ← evalExpr sc none el
    let _ ← sc.send false "at:put:" array [sc.behaviour.int (i + 1), v]
    evalElems sc array (i + 1) elems

/-- The inlined selectors, as the messages they stand for: `receiver` is the receiver's
meaning as an expression, `receiverBody` as a block that is evaluated. -/
def evalInlined (sc : Scene V W) (shape : Shape) (receiver receiverBody : Act V W V) :
    List Expr → Act V W V
  | [] =>
    match shape with
    | .repeat => sc.repeatLoop receiverBody
    | _ => Comp.wrong
  | [a] =>
    match shape with
    | .ifTrue => do
      if ← sc.truth (← receiver) then evalBlock sc [] false a else pure sc.behaviour.nilObj
    | .ifFalse => do
      if ← sc.truth (← receiver) then pure sc.behaviour.nilObj else evalBlock sc [] false a
    | .and => do
      if ← sc.truth (← receiver) then evalBlock sc [] false a else pure sc.behaviour.falseObj
    | .or => do
      if ← sc.truth (← receiver) then pure sc.behaviour.trueObj else evalBlock sc [] false a
    | .whileTrue => do
      sc.whileLoop true receiverBody (evalBlock sc [] false a)
      pure sc.behaviour.nilObj
    | .whileFalse => do
      sc.whileLoop false receiverBody (evalBlock sc [] false a)
      pure sc.behaviour.nilObj
    | .timesRepeat => do
      let n ← receiver
      sc.countedLoop n (fun _ => evalBlock sc [] false a) (sc.behaviour.int 1)
      pure n
    | .ifNil => do
      let v ← receiver
      if ← sc.isNil v then evalBlock sc [] false a else pure v
    | .ifNotNil => do
      let v ← receiver
      if ← sc.isNil v then pure v else evalBlock sc [v] false a
    | _ => Comp.wrong
  | [a, b] =>
    match shape with
    | .ifTrueIfFalse => do
      if ← sc.truth (← receiver) then evalBlock sc [] false a else evalBlock sc [] false b
    | .ifFalseIfTrue => do
      if ← sc.truth (← receiver) then evalBlock sc [] false b else evalBlock sc [] false a
    | .ifNilIfNotNil => do
      let v ← receiver
      if ← sc.isNil v then evalBlock sc [] false a else evalBlock sc [v] false b
    | .ifNotNilIfNil => do
      let v ← receiver
      if ← sc.isNil v then evalBlock sc [] false b else evalBlock sc [v] false a
    | .toDo => do
      let first ← receiver
      let limit ← evalExpr sc none a
      sc.countedLoop limit (fun i => evalBlock sc [i] true b) first
      pure first
    | _ => Comp.wrong
  | _ => Comp.wrong

/-- An activation of a block that is dissolved in the code. -/
def evalBlock (sc : Scene V W) (args : List V) (counter : Bool) : Expr → Act V W V
  | .block params temps body _ _ => within (opened params temps args counter) (evalStatements sc body)
  | _ => Comp.wrong

/-- The value of the last statement; nil if there is none. -/
def evalStatements (sc : Scene V W) : List Expr → Act V W V
  | [] => pure sc.behaviour.nilObj
  | [last] => evalExpr sc none last
  | stmt :: body => do
    let _ ← evalExpr sc none stmt
    evalStatements sc body

end

/-- A whole activation: a method that falls off its end answers the receiver, a doIt and a
block the value of the last statement. -/
def evalBody (sc : Scene V W) (kind : BodyKind) (body : List Expr) : Act V W Empty := do
  let v ← evalStatements sc body
  Comp.halt fun s =>
    match kind with
    | .method => .returned sc.self s.world
    | .doIt => .returned (if body.isEmpty then sc.self else v) s.world
    | .block => .blockReturned v s.world

end

/-! ## Running code -/

structure Frame (V W : Type) where
  pc : Nat
  stack : List V
  slots : Nat → V
  world : W

/-- An activation of a unit: its receiver and the activations around it, itself first. -/
structure Activated (V W : Type) where
  behaviour : Behaviour V W
  acts : List Activation
  self : V

def Item.binds (l : Nat) : Item → Bool
  | .bind l' => l' == l
  | _ => false

/-- Where a label is bound. -/
def labelPos (code : List Item) (l : Nat) : Nat :=
  code.findIdx (Item.binds l)

namespace Frame

def next (f : Frame V W) : Frame V W := { f with pc := f.pc + 1 }

def push (f : Frame V W) (v : V) : Frame V W := { f.next with stack := v :: f.stack }

def jump (f : Frame V W) (code : List Item) (l : Nat) : Frame V W :=
  { f with pc := labelPos code l }

end Frame

namespace Activated

variable (a : Activated V W)

def read (f : Frame V W) : VarRef → Option V
  | .local slot => some (f.slots slot)
  | ref => (ref.reach a.acts).map fun cell => a.behaviour.get cell f.world

def write (f : Frame V W) (v : V) : VarRef → Option (Frame V W)
  | .local slot => some { f with slots := Function.update f.slots slot v }
  | ref => (ref.reach a.acts).map fun cell => { f with world := a.behaviour.set cell v f.world }

variable [DecidableEq V]

/-- A conditional branch, taken on `wanted`; on neither Boolean it is not taken here. -/
def branch (code : List Item) (f : Frame V W) (wanted other : V) (l : Nat) :
    List (Event V) × Next (Frame V W) (Outcome V W) :=
  match f.stack with
  | v :: stack =>
    let f := { f with stack := stack }
    if v = wanted then ([], .at (f.jump code l))
    else if v = other then ([], .at f.next)
    else ([], .stuck)
  | [] => ([], .stuck)

def exec (code : List Item) (f : Frame V W) :
    Item → List (Event V) × Next (Frame V W) (Outcome V W)
  | .noteLine _ | .bind _ => ([], .at f.next)
  | .pushSelf => ([], .at (f.push a.self))
  | .pushNil => ([], .at (f.push a.behaviour.nilObj))
  | .pushTrue => ([], .at (f.push a.behaviour.trueObj))
  | .pushFalse => ([], .at (f.push a.behaviour.falseObj))
  | .pushSmiI8 i => ([], .at (f.push (a.behaviour.int i)))
  | .pushLiteral l => ([], .at (f.push (a.behaviour.literal l)))
  | .load _ ref =>
    match a.read f ref with
    | some v => ([], .at (f.push v))
    | none => ([], .stuck)
  | .store name ref =>
    match f.stack with
    | v :: stack =>
      match a.write { f with stack := stack } v ref with
      | some f => ([.stored name v], .at f.next)
      | none => ([], .stuck)
    | [] => ([], .stuck)
  | .pushTemp slot => ([], .at (f.push (f.slots slot)))
  | .storeTempPop slot =>
    match f.stack with
    | v :: stack =>
      ([], .at { f.next with stack := stack, slots := Function.update f.slots slot v })
    | [] => ([], .stuck)
  | .storeCtxTempPop depth k =>
    match f.stack with
    | v :: stack =>
      match a.write { f with stack := stack } v (.captured depth k) with
      | some f => ([], .at f.next)
      | none => ([], .stuck)
    | [] => ([], .stuck)
  | .pop =>
    match f.stack with
    | _ :: stack => ([], .at { f.next with stack := stack })
    | [] => ([], .stuck)
  | .dup =>
    match f.stack with
    | v :: _ => ([], .at (f.push v))
    | [] => ([], .stuck)
  | .send isSuper selector argc =>
    match f.stack.drop argc with
    | receiver :: stack =>
      let args := (f.stack.take argc).reverse
      let event := Event.sent isSuper selector receiver args
      match a.behaviour.send isSuper selector receiver args f.world with
      | some (v, w) => ([event], .at { f.next with stack := v :: stack, world := w })
      | none => ([event], .halt .away)
    | [] => ([], .stuck)
  | .jumpFwd l | .jumpBack l => ([], .at (f.jump code l))
  | .brTrueFwd l => branch code f a.behaviour.trueObj a.behaviour.falseObj l
  | .brFalseFwd l => branch code f a.behaviour.falseObj a.behaviour.trueObj l
  | .pushClosure scopeId =>
    let (v, w) := a.behaviour.closure scopeId f.world
    ([.closed scopeId v], .at { f.push v with world := w })
  | .retTos =>
    match f.stack with
    | v :: _ => ([], .halt (.returned v f.world))
    | [] => ([], .stuck)
  | .retSelf => ([], .halt (.returned a.self f.world))
  | .blockReturnTos =>
    match f.stack with
    | v :: _ => ([], .halt (.blockReturned v f.world))
    | [] => ([], .stuck)
  | .nlrTos =>
    match f.stack with
    | v :: _ => ([], .halt (.nonLocal v f.world))
    | [] => ([], .stuck)

/-- The interpreter on one unit's code. -/
def machine (code : List Item) : Machine (Event V) (Frame V W) (Outcome V W) where
  step f :=
    match code[f.pc]? with
    | some i => a.exec code f i
    | none => ([], .stuck)

end Activated

/-! ## Units -/

/-- The slots of a new frame: the arguments, then nil. -/
def startSlots (b : Behaviour V W) (args : List V) (slot : Nat) : V :=
  args.getD slot b.nilObj

def startFrame (b : Behaviour V W) (args : List V) (w : W) : Frame V W :=
  ⟨0, [], startSlots b args, w⟩

/-- The cells of a unit's parameters. -/
def paramCells (c : CaptureInfo) (chain : List UnitScope) (acts : List Activation) (argc : Nat) :
    List (Option Cell) :=
  (List.range argc).map fun i => Declaration.cell c chain acts ⟨0, .var i⟩

/-- A parameter that nested blocks reach is put in its shared cell. -/
def bindShared (b : Behaviour V W) : List (Option Cell × V) → W → W
  | [], w => w
  | (some (.ctx owner k), v) :: rest, w => bindShared b rest (b.set (.ctx owner k) v w)
  | _ :: rest, w => bindShared b rest w

def startState (b : Behaviour V W) (cells : List (Option Cell)) (args : List V) (w : W) :
    State V W :=
  ⟨[], startSlots b args, bindShared b (cells.zip args) w⟩

/-- What the unit's statements mean in an activation of it. -/
def unitScene (b : Behaviour V W) (c : CaptureInfo) (h : Holder) (classSide inBlock : Bool)
    (chain : List UnitScope) (acts : List Activation) (self : V) (fuel : Nat) : Scene V W where
  behaviour := b
  place name := Occurrence.cell c h classSide acts ⟨chain, name, false⟩
  self := self
  inBlock := inBlock
  fuel := fuel

def CodeUnit.kind (topLevel : Bool) (unit : CodeUnit) : BodyKind :=
  if unit.isBlock then .block else if topLevel then .doIt else .method

/-- The run that the source prescribes for an activation of a unit. -/
def unitRun [DecidableEq V] (b : Behaviour V W) (c : CaptureInfo) (h : Holder)
    (classSide topLevel : Bool) (unit : CodeUnit) (l : LexUnit) (stmts : List Expr)
    (acts : List Activation) (self : V) (args : List V) (fuel : Nat) (w : W) :
    Run (Event V) (State V W) (Outcome V W) Empty :=
  evalBody (unitScene b c h classSide unit.isBlock l.chain acts self fuel) (unit.kind topLevel) stmts
    (startState b (paramCells c l.chain acts unit.argc) args w)

/-- The unit's code does what the run prescribes. -/
def UnitPerforms [DecidableEq V] (b : Behaviour V W) (unit : CodeUnit) (acts : List Activation)
    (self : V) (args : List V) (fuel : Nat) (w : W)
    (run : Run (Event V) (State V W) (Outcome V W) Empty) : Prop :=
  Performs ((⟨b, acts, self⟩ : Activated V W).machine unit.code) fuel (startFrame b args w) run
    fun v _ _ => v.elim

mutual

/-- The statements of the real blocks of an expression, in the order their code is
finished. -/
def bodies : Expr → List (List Expr)
  | .selfRef _ | .cascadeRcvr _ | .lit _ _ | .var _ _ => []
  | .assign _ value _ | .ret value _ => bodies value
  | .send receiver selector args isSuper _ =>
    match sendShape isSuper selector receiver args with
    | some shape => bodiesInlined shape (bodies receiver) (bodiesBlock receiver) args
    | none => bodies receiver ++ bodiesAll args
  | .cascade receiver segments _ => bodies receiver ++ bodiesAll segments
  | .dynArray elems _ => bodiesAll elems
  | .block _ _ body _ _ => bodiesAll body ++ [body]

def bodiesAll : List Expr → List (List Expr)
  | [] => []
  | e :: es => bodies e ++ bodiesAll es

def bodiesInlined (shape : Shape) (receiver receiverBody : List (List Expr)) :
    List Expr → List (List Expr)
  | [] => receiverBody
  | [a] =>
    match shape with
    | .whileTrue | .whileFalse => receiverBody ++ bodiesBlock a
    | _ => receiver ++ bodiesBlock a
  | [a, b] =>
    match shape with
    | .ifFalseIfTrue => receiver ++ (bodiesBlock b ++ bodiesBlock a)
    | .toDo => receiver ++ (bodies a ++ bodiesBlock b)
    | _ => receiver ++ (bodiesBlock a ++ bodiesBlock b)
  | _ => []

def bodiesBlock : Expr → List (List Expr)
  | .block _ _ body _ _ => bodiesAll body
  | _ => []

end

/-- The statements of the units of a method, in the order of `lexUnits`. -/
def unitBodies (m : MethodNode) : List (List Expr) :=
  bodiesAll m.body ++ [m.body]

mutual

/-- As the parser builds it: the receiver of a cascade begins each of its segments and
stands nowhere else. An argument count is a byte. -/
def Expr.regular (segment : Bool) : Expr → Bool
  | .cascadeRcvr _ => segment
  | .selfRef _ | .var _ _ | .lit _ _ => !segment
  | .assign _ value _ | .ret value _ => !segment && value.regular false
  | .send receiver _ args _ _ =>
    receiver.regular segment && decide (args.length < 256) && regularAll false args
  | .cascade receiver segments _ => !segment && receiver.regular false && regularAll true segments
  | .dynArray elems _ => !segment && regularAll false elems
  | .block _ _ body _ _ => !segment && regularAll false body

def regularAll (segment : Bool) : List Expr → Bool
  | [] => true
  | e :: es => e.regular segment && regularAll segment es

end

/-- Three lists side by side. -/
def Matched {α β γ : Type} (r : α → β → γ → Prop) : List α → List β → List γ → Prop
  | [], [], [] => True
  | a :: as, b :: bs, c :: cs => r a b c ∧ Matched r as bs cs
  | _, _, _ => False

end WinVm.Frontend
