import WinVm.Bytecode.Opcode

/-!
# Basic blocks of a method

`compiler/decode.rs`: the first stage of the tier-1 pipeline splits a method's
bytecode at its leaders and names, for each block, how it ends and where control
goes next. Every `panic!` and every failed assertion is a `none`. A `jump_back`
past bci 0 is a `none` as well: the subtraction panics in a build with overflow
checks, and otherwise wraps to a target that no block starts at.

`Cfg.Sound` is what the block graph is for, said of the bytecode alone: the blocks
fill the code, no instruction straddles two of them, stepping instructions through a
block ends where its terminator says, and the loop headers are the targets of the
backward jumps. `DecodeBlocks` proves it of the graphs that `decode` builds.
-/

namespace WinVm.Compiler

open WinVm.Bytecode WinVm.Lib

abbrev BlockIndex := Nat

/-- How a block ends. The two branch opcodes are normalised to taken and not taken. -/
inductive Terminator where
  | fallthrough (next : BlockIndex)
  | jump (target : BlockIndex) (isBackward : Bool)
  | branch (ifTrue ifFalse : BlockIndex)
  | ret
deriving DecidableEq, Repr

structure BasicBlock where
  bciStart : Nat
  bciEnd : Nat
  isLoopHeader : Bool
  terminator : Terminator
deriving DecidableEq, Repr

structure Cfg where
  blocks : List BasicBlock
deriving DecidableEq, Repr

/-! ## Leaders -/

/-- `BTreeSet::insert`, on the ascending list of the members. -/
def insertLeader (x : Nat) : List Nat → List Nat
  | [] => [x]
  | y :: ys => if x < y then x :: y :: ys else if x = y then y :: ys else y :: insertLeader x ys

/-- The leaders one instruction contributes: its target, and what follows it. -/
def leadersOf (instr : Instr) (next : Nat) : Option (List Nat) :=
  match instr with
  | .jumpFwd d => some [next + d.toNat, next]
  | .jumpBack d => if next < d.toNat then none else some [next - d.toNat, next]
  | .brTrueFwd d | .brFalseFwd d => some [next + d.toNat, next]
  | .returnTos | .returnSelf | .blockReturnTos | .nlrTos => some [next]
  | _ => some []

def insertLeaders (xs leaders : List Nat) : List Nat :=
  xs.foldl (fun ls x => insertLeader x ls) leaders

/-- The loop of `find_leaders` from `bci` on. -/
def leadersWalk (code : List Byte) : Nat → Nat → List Nat → Option (List Nat)
  | 0, bci, leaders => if bci < code.length then none else some leaders
  | fuel + 1, bci, leaders =>
    if bci < code.length then
      match decodeAt code bci with
      | none => none
      | some (instr, next) =>
        match leadersOf instr next with
        | none => none
        | some xs => leadersWalk code fuel next (insertLeaders xs leaders)
    else some leaders

def findLeaders (code : List Byte) : Option (List Nat) :=
  leadersWalk code code.length 0 [0]

/-! ## Blocks -/

/-- `starts.binary_search(&bci)`. -/
def indexOf (starts : List Nat) (bci : Nat) : Option BlockIndex :=
  starts.findIdx? (· = bci)

/-- The decoding loop of one block: its last instruction, with the bci behind it. -/
def lastInstr (code : List Byte) (stop : Nat) :
    Nat → Nat → Option (Instr × Nat) → Option (Option (Instr × Nat))
  | 0, bci, last => if bci < stop then none else some last
  | fuel + 1, bci, last =>
    if bci < stop then
      match decodeAt code bci with
      | none => none
      | some (instr, next) => lastInstr code stop fuel next (some (instr, next))
    else some last

/-- The terminator of block `i`, which ends at `stop`. `debug` tells whether
`debug_assert_eq!` is compiled in. -/
def terminatorOf (debug : Bool) (starts : List Nat) (i : BlockIndex) (stop : Nat) :
    Option (Instr × Nat) → Option Terminator
  | none => some (.fallthrough (i + 1))
  | some (.jumpFwd d, next) => (indexOf starts (next + d.toNat)).map (.jump · false)
  | some (.jumpBack d, next) =>
    if next < d.toNat then none else (indexOf starts (next - d.toNat)).map (.jump · true)
  | some (.brTrueFwd d, next) => do
    let ifTrue ← indexOf starts (next + d.toNat)
    let ifFalse ← indexOf starts next
    return .branch ifTrue ifFalse
  | some (.brFalseFwd d, next) => do
    let ifTrue ← indexOf starts next
    let ifFalse ← indexOf starts (next + d.toNat)
    return .branch ifTrue ifFalse
  | some (.returnTos, _) | some (.returnSelf, _) => some .ret
  | some (.blockReturnTos, _) | some (.nlrTos, _) => some .ret
  | some (_, next) => if debug && decide (next ≠ stop) then none else some (.fallthrough (i + 1))

/-- Block `i`, from `start` to `stop`. -/
def blockOf (debug : Bool) (code : List Byte) (starts : List Nat) (i : BlockIndex)
    (start stop : Nat) : Option BasicBlock :=
  match lastInstr code stop code.length start none with
  | none => none
  | some last => (terminatorOf debug starts i stop last).map (⟨start, stop, false, ·⟩)

/-- The blocks from index `i` on, which start at the bcis of the last argument. -/
def blocksFrom (debug : Bool) (code : List Byte) (starts : List Nat) :
    BlockIndex → List Nat → Option (List BasicBlock)
  | _, [] => some []
  | i, start :: rest =>
    match blockOf debug code starts i start (rest.head?.getD code.length) with
    | none => none
    | some block => (blocksFrom debug code starts (i + 1) rest).map (block :: ·)

/-- The target of a backward jump. -/
def Terminator.backTarget : Terminator → Option BlockIndex
  | .jump target true => some target
  | _ => none

def loopHeaders (blocks : List BasicBlock) : List BlockIndex :=
  blocks.filterMap (·.terminator.backTarget)

def markLoopHeaders (blocks : List BasicBlock) : List BasicBlock :=
  blocks.mapIdx fun i b => { b with isLoopHeader := decide (i ∈ loopHeaders blocks) }

/-- The block graph of a method. A leader at the end of the code starts no block. -/
def decode (debug : Bool) (code : List Byte) : Option Cfg :=
  match findLeaders code with
  | none => none
  | some leaders =>
    let starts := leaders.filter fun bci => decide (bci < code.length)
    (blocksFrom debug code starts 0 starts).map fun blocks => ⟨markLoopHeaders blocks⟩

/-! ## What the graph means -/

/-- Where control goes behind an instruction that ends at `next`, for an outcome of the
condition it pops. -/
def instrSuccessor (outcome : Bool) (next : Nat) : Instr → Option Nat
  | .jumpFwd d => some (next + d.toNat)
  | .jumpBack d => some (next - d.toNat)
  | .brTrueFwd d => some (if outcome then next + d.toNat else next)
  | .brFalseFwd d => some (if outcome then next else next + d.toNat)
  | .returnTos | .returnSelf | .blockReturnTos | .nlrTos => none
  | _ => some next

/-- The target of a forward jump or branch that ends at `next`. -/
def fwdTarget (next : Nat) : Instr → Option Nat
  | .jumpFwd d | .brTrueFwd d | .brFalseFwd d => some (next + d.toNat)
  | _ => none

/-- Step instructions until one ends at `stop`: the bcis executed and where control goes
from there. -/
def stepBlock (code : List Byte) (outcome : Bool) (stop : Nat) :
    Nat → Nat → Option (List Nat × Option Nat)
  | 0, _ => none
  | fuel + 1, bci =>
    match decodeAt code bci with
    | none => none
    | some (instr, next) =>
      if next = stop then some ([bci], instrSuccessor outcome next instr)
      else
        match instrSuccessor outcome next instr with
        | none => some ([bci], none)
        | some bci' => (stepBlock code outcome stop fuel bci').map fun (bcis, dest) => (bci :: bcis, dest)

/-- The block a terminator names for an outcome. -/
def Terminator.successor (outcome : Bool) : Terminator → Option BlockIndex
  | .fallthrough next => some next
  | .jump target _ => some target
  | .branch ifTrue ifFalse => some (if outcome then ifTrue else ifFalse)
  | .ret => none

/-- The instruction at `bci`, met when decoding from bci 0, ends at `next`. -/
def HasInstr (code : List Byte) (bci : Nat) (instr : Instr) (next : Nat) : Prop :=
  ∃ instrs, decodeAll code = some instrs ∧ (bci, instr) ∈ instrs ∧
    decodeAt code bci = some (instr, next)

/-- Non-empty blocks, each starting where the one before it ends, from `a` to `b`. -/
def Consecutive : Nat → List BasicBlock → Nat → Prop
  | a, [], b => a = b
  | a, block :: blocks, b =>
    block.bciStart = a ∧ a < block.bciEnd ∧ Consecutive block.bciEnd blocks b

namespace Cfg

/-- Stepping through `block` executes the instructions of the block in order, once each, and
control then goes to the start of the block its terminator names. -/
def Simulates (cfg : Cfg) (code : List Byte) (block : BasicBlock) (outcome : Bool) : Prop :=
  ∃ bcis dest,
    stepBlock code outcome block.bciEnd code.length block.bciStart = some (bcis, dest) ∧
    bcis.Pairwise (· < ·) ∧
    (∀ bci, bci ∈ bcis ↔ (∃ instr next, HasInstr code bci instr next) ∧
      block.bciStart ≤ bci ∧ bci < block.bciEnd) ∧
    match block.terminator.successor outcome with
    | none => dest = none
    | some j => ∃ block', cfg.blocks[j]? = some block' ∧ dest = some block'.bciStart

structure Sound (cfg : Cfg) (code : List Byte) : Prop where
  partition : Consecutive 0 cfg.blocks code.length
  whole : ∀ bci instr next, HasInstr code bci instr next →
    ∃! block, block ∈ cfg.blocks ∧ block.bciStart ≤ bci ∧ next ≤ block.bciEnd
  simulates : ∀ block ∈ cfg.blocks, ∀ outcome, cfg.Simulates code block outcome
  loopHeader : ∀ block ∈ cfg.blocks, block.isLoopHeader = true ↔
    ∃ bci d next, HasInstr code bci (.jumpBack d) next ∧ d.toNat ≤ next ∧
      block.bciStart = next - d.toNat

end Cfg

end WinVm.Compiler
