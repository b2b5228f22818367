import WinVm.Process.Machine

/-!
# What returns and unwinding mean

The meaning of activations, blocks, `ensure:`, `ifCurtailed:` and non-local returns, without
a process stack: an activation has its own temporaries and operands, a block knows the
activation that is its home, and running an activation has an `Outcome`, a value returned to
the sender or a non-local return on its way to a home.

* A method activation catches the non-local returns to itself.
* `p ensure: h` runs `p`, then `h` once whatever the outcome of `p`, and has `p`'s outcome;
  `p ifCurtailed: h` runs `h` only when `p` was left by a non-local return. A non-local
  return of `h` takes the place of `p`'s outcome.

`Result.clean` records the two situations in which the interpreter departs from this: a
non-local return that leaves a nested interpreter run, and a handler moved by a collection
while its protected block is activated.
-/

namespace WinVm.Process

/-- A closure: its home is an activation, not an address. -/
structure Block where
  method : Nat
  home : Nat
  copied : List Oop
deriving DecidableEq, Repr

/-- What outlives an activation. -/
structure World (σ : Type) where
  blocks : List Block
  contexts : List Context
  /-- Activations made so far. -/
  next : Nat
  heap : σ
  /-- The protected activations whose handler was started, in order. -/
  handlerRuns : List Nat

/-- An activation. `home` is where a `^` in it returns from: itself, for a method. Operands
are listed from the top. -/
structure Act where
  id : Nat
  home : Nat
  method : Nat
  receiver : Oop
  args : List Oop
  temps : List Oop
  context : Oop
  operands : List Oop
deriving DecidableEq, Repr

/-- How an activation ends. -/
inductive Outcome where
  | ret (v : Oop)
  | nlr (home : Nat) (v : Oop)
deriving DecidableEq, Repr

structure Result (σ : Type) where
  world : World σ
  outcome : Outcome
  clean : Bool

section
variable {σ : Type}

/-- A method activation catches what returns non-locally to it. -/
def Result.catch (r : Result σ) (id : Nat) : Result σ :=
  match r.outcome with
  | .nlr home v => if home = id then { r with outcome := .ret v } else r
  | .ret _ => r

/-- Goes on with the value of a send, unless a non-local return passes through. -/
def Result.andThen (r : Result σ) (k : World σ → Oop → Option (Result σ)) : Option (Result σ) :=
  match r.outcome with
  | .ret v => (k r.world v).map fun r' => { r' with clean := r.clean && r'.clean }
  | .nlr _ _ => some r

namespace World

variable (W : World σ)

def blockOf : Oop → Option Block
  | .closure c => W.blocks[c]?
  | _ => none

end World

variable (G : Guest σ)

/-- The context word and the contexts a fresh activation starts with. -/
def freshContext (contexts : List Context) (mid : Nat) (enclosing : Oop) : Oop × List Context :=
  if (G.method mid).hasCtx then
    (.context contexts.length, contexts ++ [⟨enclosing, List.replicate (G.method mid).nctx .nil⟩])
  else (enclosing, contexts)

/-- A fresh method activation. -/
def methodAct (W : World σ) (mid : Nat) (receiver : Oop) (args : List Oop) : Act × World σ :=
  let (context, contexts) := freshContext G W.contexts mid .nil
  ({ id := W.next, home := W.next, method := mid, receiver, args, context,
     temps := List.replicate (G.method mid).ntemps .nil, operands := [] },
   { W with next := W.next + 1, contexts })

/-- The value captures of a block, and the context it runs in. -/
def Block.captures (b : Block) : List Oop :=
  b.copied.drop (1 + if (G.method b.method).capturesCtx then 1 else 0)

def Block.enclosing (b : Block) : Oop :=
  if (G.method b.method).capturesCtx then b.copied.getD 1 .nil else .nil

/-- A fresh block activation: the captures are its first temporaries. -/
def blockAct (W : World σ) (b : Block) (args : List Oop) : Option (Act × World σ) :=
  let captures := b.captures G
  if captures.length ≤ (G.method b.method).ntemps then
    let (context, contexts) := freshContext G W.contexts b.method (b.enclosing G)
    some ({ id := W.next, home := b.home, method := b.method,
            receiver := b.copied.getD 0 .nil, args, context,
            temps := captures ++
              List.replicate ((G.method b.method).ntemps - captures.length) .nil,
            operands := [] },
          { W with next := W.next + 1, contexts })
  else none

namespace Act

variable (act : Act) (W : World σ)

/-- The variable at a unified argument and temporary index. -/
def local? (t : Nat) : Except Fault Oop :=
  match (act.args ++ act.temps)[t]? with
  | some v => .ok v
  | none => .error .badTemp

def setLocal (t : Nat) (v : Oop) : Act :=
  if t < act.args.length then { act with args := act.args.set t v }
  else { act with temps := act.temps.set (t - act.args.length) v }

/-- The word a push bytecode pushes. -/
def load : Source → Except Fault Oop
  | .self => .ok act.receiver
  | .nil => .ok .nil
  | .bool b => .ok (.bool b)
  | .smi v => .ok (.smi v)
  | .literal v => .ok v
  | .temp t => act.local? t
  | .instvar i => match G.instvar W.heap act.receiver i with
    | some v => .ok v
    | none => .error .noReceiver
  | .global i => .ok (G.global W.heap act.method i)
  | .ctxTemp depth idx => Vm.readContext W.contexts depth idx act.context

/-- The effect of a store bytecode. -/
def store (v : Oop) : Dest → Except Fault (Act × World σ)
  | .temp t => do
    let _ ← act.local? t
    .ok (act.setLocal t v, W)
  | .instvar i => match G.setInstvar W.heap act.receiver i v with
    | some heap => .ok (act, { W with heap })
    | none => .error .noReceiver
  | .global i => .ok (act, { W with heap := G.setGlobal W.heap act.method i v })
  | .ctxTemp depth idx => do
    let contexts ← Vm.writeContext W.contexts depth idx act.context v
    .ok (act, { W with contexts })

/-- The arguments, the receiver and what is left, for a send of `argc` arguments. -/
def splitSend (argc : Nat) : Option (List Oop × Oop × List Oop) :=
  match act.operands.drop argc with
  | [] => none
  | receiver :: rest => some ((act.operands.take argc).reverse, receiver, rest)

/-- The block a `push_closure` makes from the top `n` operands. -/
def makeBlock (blk n : Nat) : Block where
  method := blk
  home := act.home
  copied := act.receiver :: (if (G.method blk).capturesCtx then [act.context] else []) ++
    (act.operands.take n).reverse

end Act

/-- Method lookup for a send, `#doesNotUnderstand:` included. -/
def resolve (heap : σ) (site : Nat) (receiver : Oop) (args : List Oop) :
    Option (σ × Nat × List Oop) :=
  match G.lookup heap site receiver with
  | some m => if (G.method m).argc = args.length then some (heap, m, args) else none
  | none =>
    let (heap, msg) := G.message heap site args
    match G.lookup heap G.siteDoesNotUnderstand receiver with
    | some m => if (G.method m).argc = 1 then some (heap, m, [msg]) else none
    | none => none

/-- What the compiler and the class builder promise about code: method dictionaries hold
methods, the literal of a `push_closure` is a block, and no bci is a resume sentinel. -/
structure Guest.WellFormed : Prop where
  lookup : ∀ heap site receiver m, G.lookup heap site receiver = some m →
    (G.method m).isBlock = false
  blocks : ∀ m blk n, .pushClosure blk n ∈ (G.method m).bytecode → (G.method blk).isBlock = true
  short : ∀ m, (G.method m).bytecode.length < bciResumeEnsureRet

mutual

/-- Runs an activation from a bytecode on. `live` lists the method activations in progress:
the homes there are to return to. -/
def evalFrom : Nat → World σ → List Nat → Act → Nat → Option (Result σ)
  | 0, _, _, _, _ => none
  | fuel + 1, W, live, act, bci =>
    match (G.method act.method).bytecode[bci]? with
    | none => none
    | some (.push s) => match act.load G W s with
      | .ok v => evalFrom fuel W live { act with operands := v :: act.operands } (bci + 1)
      | .error _ => none
    | some (.storeTemp t) => match act.operands with
      | v :: _ => match act.store G W v (.temp t) with
        | .ok (act, W) => evalFrom fuel W live act (bci + 1)
        | .error _ => none
      | [] => none
    | some (.storePop d) => match act.operands with
      | v :: rest => match { act with operands := rest }.store G W v d with
        | .ok (act, W) => evalFrom fuel W live act (bci + 1)
        | .error _ => none
      | [] => none
    | some .pop => match act.operands with
      | _ :: rest => evalFrom fuel W live { act with operands := rest } (bci + 1)
      | [] => none
    | some .dup => match act.operands with
      | v :: rest => evalFrom fuel W live { act with operands := v :: v :: rest } (bci + 1)
      | [] => none
    | some (.jump target) => evalFrom fuel W live act target
    | some (.brTrue target) => evalBranch fuel W live act bci true target
    | some (.brFalse target) => evalBranch fuel W live act bci false target
    | some (.send site argc) => match act.splitSend argc with
      | none => none
      | some (args, receiver, rest) => match resolve G W.heap site receiver args with
        | none => none
        | some (heap, m, args) =>
          (invoke fuel { W with heap } live m receiver args).bind fun r =>
            r.andThen fun W v => evalFrom fuel W live { act with operands := v :: rest } (bci + 1)
    | some (.pushClosure blk n) =>
      if n ≤ act.operands.length then
        evalFrom fuel { W with blocks := W.blocks ++ [act.makeBlock G blk n] } live
          { act with operands := .closure W.blocks.length :: act.operands.drop n } (bci + 1)
      else none
    | some .returnTos | some .blockReturnTos => match act.operands with
      | v :: _ => some ⟨W, .ret v, true⟩
      | [] => none
    | some .returnSelf => some ⟨W, .ret act.receiver, true⟩
    | some .nlrTos => match act.operands with
      | v :: _ =>
        if (G.method act.method).isBlock ∧ act.home ∈ live then
          some ⟨W, .nlr act.home v, true⟩
        else none
      | [] => none

/-- A branch on the top operand, or a `#mustBeBoolean` send and the branch again. -/
def evalBranch : Nat → World σ → List Nat → Act → Nat → Bool → Nat → Option (Result σ)
  | 0, _, _, _, _, _, _ => none
  | fuel + 1, W, live, act, bci, sense, target =>
    match act.operands with
    | [] => none
    | .bool b :: rest =>
      evalFrom fuel W live { act with operands := rest } (if b = sense then target else bci + 1)
    | t :: rest => match G.lookup W.heap G.siteMustBeBoolean t with
      | none => none
      | some m =>
        if (G.method m).argc = 0 then
          (invoke fuel W live m t []).bind fun r =>
            r.andThen fun W v => evalFrom fuel W live { act with operands := v :: rest } bci
        else none

/-- Sends a resolved method to a receiver. -/
def invoke : Nat → World σ → List Nat → Nat → Oop → List Oop → Option (Result σ)
  | 0, _, _, _, _, _ => none
  | fuel + 1, W, live, mid, receiver, args =>
    match (G.method mid).primitive with
    | .none => evalBody fuel W live mid receiver args
    | .value => match W.blockOf receiver with
      | some b =>
        if (G.method b.method).argc = args.length then evalBlock fuel W live b args
        else evalBody fuel W live mid receiver args
      | none => evalBody fuel W live mid receiver args
    | .valueWithArguments => match args with
      | [arr] => match W.blockOf receiver, G.elements W.heap arr with
        | some b, some elements =>
          if elements.length = (G.method b.method).argc then evalBlock fuel W live b elements
          else evalBody fuel W live mid receiver args
        | _, _ => evalBody fuel W live mid receiver args
      | _ => none
    | .ensureLike kind => match args with
      | [handler] => match W.blockOf receiver, W.blockOf handler with
        | some p, some h =>
          if (G.method p.method).argc ≠ 0 ∨ (G.method h.method).argc ≠ 0 then
            evalBody fuel W live mid receiver args
          else evalProtected fuel W live kind p h
        | _, _ => evalBody fuel W live mid receiver args
      | _ => none
    | .performWithArguments => match args with
      | [symbol, arr] => match G.symbol W.heap symbol, G.elements W.heap arr with
        | some site, some elements => match G.lookup W.heap site receiver with
          | some m =>
            if (G.method m).argc ≠ elements.length then evalBody fuel W live mid receiver args
            else (invoke fuel W live m receiver elements).map fun r =>
              match r.outcome with
              | .ret _ => r
              -- the nested run hands the escaping return to its primitive as a value
              | .nlr _ _ => { r with clean := false }
          | none => evalBody fuel W live mid receiver args
        | _, _ => evalBody fuel W live mid receiver args
      | _ => none
    | .other id => match G.prim id W.heap receiver args with
      | some (heap, v) => some ⟨{ W with heap }, .ret v, true⟩
      | none => evalBody fuel W live mid receiver args

/-- The bytecode body of a method. -/
def evalBody : Nat → World σ → List Nat → Nat → Oop → List Oop → Option (Result σ)
  | 0, _, _, _, _, _ => none
  | fuel + 1, W, live, mid, receiver, args =>
    let (act, W) := methodAct G W mid receiver args
    (evalFrom fuel W (act.id :: live) act 0).map fun r => r.catch act.id

/-- A block. -/
def evalBlock : Nat → World σ → List Nat → Block → List Oop → Option (Result σ)
  | 0, _, _, _, _ => none
  | fuel + 1, W, live, b, args =>
    (blockAct G W b args).bind fun (act, W) => evalFrom fuel W live act 0

/-- `p ensure: h` and `p ifCurtailed: h`. -/
def evalProtected : Nat → World σ → List Nat → MarkerKind → Block → Block → Option (Result σ)
  | 0, _, _, _, _, _ => none
  | fuel + 1, W, live, kind, p, h =>
    let moved := (G.method p.method).hasCtx && G.collects W.contexts.length
    (blockAct G W p []).bind fun (act, W) =>
      (evalFrom fuel W live act 0).bind fun r =>
        match kind, r.outcome with
        | .ifCurtailed, .ret _ => some { r with clean := r.clean && !moved }
        | _, _ =>
          let W := { r.world with handlerRuns := r.world.handlerRuns ++ [act.id] }
          (evalBlock fuel W live h []).map fun r' =>
            { world := r'.world
              outcome := match r'.outcome with
                | .ret _ => r.outcome
                | .nlr _ _ => r'.outcome
              clean := r.clean && r'.clean && !moved }

end

end

end WinVm.Process
