import Mathlib.Logic.Equiv.Basic
import Mathlib.Logic.Function.Basic
import WinVm.Bytecode.Opcode

/-!
# The bytecode assembler

`BytecodeBuilder` of `bytecode/builder.rs`. A builder is the code so far, the
literal frame with its dedup map, the inline-cache sites and the label table;
every emission call is a function on builders, `Option` where the source asserts.
Literals and selectors stand behind handles, so a collection between two calls
moves them in place while the dedup map keeps the raw addresses of insert time:
`Call.collect` is such a collection, `finish` takes the moves of its own
allocations.

A `Session` runs a sequence of calls and keeps beside the builder what the calls
asked for: the emitted instructions with the oops that were passed, the bci every
label was bound at and the block each literal index was handed out for.
`RoundTrip` compares the finished method with that record.
-/

namespace WinVm.Bytecode

open WinVm.Lib

abbrev Addr := Nat

/-- A tagged word: an immediate integer, or the address of an object. -/
inductive Oop where
  | smi (v : Int)
  | mem (a : Addr)
deriving DecidableEq, Repr

/-- A moving collection relocates objects and leaves immediates alone. -/
def Oop.move (ρ : Equiv.Perm Addr) : Oop → Oop
  | .smi v => .smi v
  | .mem a => .mem (ρ a)

abbrev Label := Nat

/-- A label is bound to a bci, or waits with the operand positions to patch. -/
inductive LabelState where
  | bound (bci : Nat)
  | unbound (sites : List Nat)
deriving DecidableEq, Repr

structure Builder where
  code : List Byte
  literals : List Oop
  literalIndex : Oop → Option Nat
  nIcs : Nat
  icSites : List (Oop × Byte)
  labels : List LabelState
  lineMap : List (BitVec 16 × BitVec 32)

/-- The shape a finished `CompiledMethod` has: bytecode tail, literal `Array` and the
inline-cache `Array` of four words a site. -/
structure CompiledMethod where
  selector : Oop
  holder : Oop
  argc : Nat
  ntemps : Nat
  literals : List Oop
  ics : List Oop
  code : List Byte

def methodArgcMax : Nat := 15
def methodNtempsMax : Nat := 255
def bciSentinelBase : Nat := 0x7FFF0000
def icStride : Nat := 4
def icSelOffset : Nat := 0
def icMetaOffset : Nat := 1

namespace Builder

def new : Builder where
  code := []
  literals := []
  literalIndex := fun _ => none
  nIcs := 0
  icSites := []
  labels := []
  lineMap := []

/-- Line 0 is no line, and consecutive notes of one line collapse. -/
def noteLine (b : Builder) (line : BitVec 32) : Builder :=
  if line = 0#32 then b
  else if b.lineMap.getLast?.map (·.2) = some line then b
  else { b with lineMap := b.lineMap ++ [(BitVec.ofNat 16 b.code.length, line)] }

def emitU8 (b : Builder) (x : Byte) : Builder :=
  { b with code := b.code ++ [x] }

def emitU16 (b : Builder) (v : BitVec 16) : Builder :=
  { b with code := b.code ++ u16le v }

/-! ## Straight-line opcodes -/

/-- An opcode with one operand byte. -/
def emitWithByte (b : Builder) (op x : Byte) : Builder :=
  (b.emitU8 op).emitU8 x

/-- An opcode with two operand bytes. -/
def emitWithBytes (b : Builder) (op x y : Byte) : Builder :=
  ((b.emitU8 op).emitU8 x).emitU8 y

def pushSelf (b : Builder) : Builder := b.emitU8 opPushSelf
def pushNil (b : Builder) : Builder := b.emitU8 opPushNil
def pushTrue (b : Builder) : Builder := b.emitU8 opPushTrue
def pushFalse (b : Builder) : Builder := b.emitU8 opPushFalse
def pushSmiI8 (b : Builder) (v : Byte) : Builder := b.emitWithByte opPushSmiI8 v
def pushTemp (b : Builder) (t : Byte) : Builder := b.emitWithByte opPushTemp t
def storeTemp (b : Builder) (t : Byte) : Builder := b.emitWithByte opStoreTemp t
def storeTempPop (b : Builder) (t : Byte) : Builder := b.emitWithByte opStoreTempPop t
def pushInstvar (b : Builder) (i : Byte) : Builder := b.emitWithByte opPushInstvar i
def storeInstvarPop (b : Builder) (i : Byte) : Builder := b.emitWithByte opStoreInstvarPop i
def pushCtxTemp (b : Builder) (depth idx : Byte) : Builder := b.emitWithBytes opPushCtxTemp depth idx
def storeCtxTempPop (b : Builder) (depth idx : Byte) : Builder :=
  b.emitWithBytes opStoreCtxTempPop depth idx
def pop (b : Builder) : Builder := b.emitU8 opPop
def dup (b : Builder) : Builder := b.emitU8 opDup
def retTos (b : Builder) : Builder := b.emitU8 opReturnTos
def retSelf (b : Builder) : Builder := b.emitU8 opReturnSelf
def blockReturnTos (b : Builder) : Builder := b.emitU8 opBlockReturnTos
def nlrTos (b : Builder) : Builder := b.emitU8 opNlrTos

/-! ## Literals -/

/-- The slot of `o` in the literal frame. A hit of the dedup map counts only when the
handle behind it still holds `o`: the map is keyed by the raw address of insert time. -/
def internLiteral (b : Builder) (o : Oop) : Nat × Builder :=
  let fresh := (b.literals.length, { b with
    literals := b.literals ++ [o]
    literalIndex := Function.update b.literalIndex o (some b.literals.length) })
  match b.literalIndex o with
  | some idx => if b.literals[idx]? = some o then (idx, b) else fresh
  | none => fresh

/-- Narrow form up to `u8::MAX`, wide form above. -/
def emitLiteralRef (b : Builder) (idx : Nat) : Builder :=
  if idx ≤ 255 then b.emitWithByte opPushLiteral (BitVec.ofNat 8 idx)
  else (b.emitU8 opPushLiteralW).emitU16 (BitVec.ofNat 16 idx)

def pushLiteral (b : Builder) (o : Oop) : Builder :=
  let (idx, b) := b.internLiteral o
  b.emitLiteralRef idx

/-- `emit_u8(idx as u8)`: no wide form and no check. -/
def pushGlobal (b : Builder) (assoc : Oop) : Builder :=
  let (idx, b) := b.internLiteral assoc
  b.emitWithByte opPushGlobal (BitVec.ofNat 8 idx)

def storeGlobalPop (b : Builder) (assoc : Oop) : Builder :=
  let (idx, b) := b.internLiteral assoc
  b.emitWithByte opStoreGlobalPop (BitVec.ofNat 8 idx)

def internBlockLiteral (b : Builder) (blk : Oop) : Nat × Builder :=
  b.internLiteral blk

/-- The index is checked in a build with debug assertions only. -/
def pushClosure (debug : Bool) (b : Builder) (lit : Nat) (nValueCaptures : Byte) :
    Option Builder :=
  if debug && decide (255 < lit) then none
  else some (b.emitWithBytes opPushClosure (BitVec.ofNat 8 lit) nValueCaptures)

/-! ## Sends -/

/-- Append an IC site and return its index. -/
def addSend (b : Builder) (selector : Oop) (argc : Byte) : Option (Nat × Builder) :=
  if 65535 < b.nIcs then none
  else some (b.nIcs, { b with
    nIcs := b.nIcs + 1
    icSites := b.icSites ++ [(selector, argc)] })

def emitSend (b : Builder) (opNarrow opWide : Byte) (selector : Oop) (argc : Byte) :
    Option Builder :=
  match b.addSend selector argc with
  | none => none
  | some (ic, b) =>
    if ic ≤ 255 then some (b.emitWithByte opNarrow (BitVec.ofNat 8 ic))
    else some ((b.emitU8 opWide).emitU16 (BitVec.ofNat 16 ic))

def send (b : Builder) (selector : Oop) (argc : Byte) : Option Builder :=
  b.emitSend opSend opSendW selector argc

def sendSuper (b : Builder) (selector : Oop) (argc : Byte) : Option Builder :=
  b.emitSend opSendSuper opSendSuperW selector argc

/-! ## Control flow -/

def here (b : Builder) : Nat := b.code.length

def newLabel (b : Builder) : Label × Builder :=
  (b.labels.length, { b with labels := b.labels ++ [.unbound []] })

/-- Write a distance over the operand at `site`. -/
def patchU16 (code : List Byte) (site : Nat) (distance : Nat) : List Byte :=
  (code.set site (BitVec.ofNat 8 distance)).set (site + 1) (BitVec.ofNat 8 (distance / 256))

/-- The patch loop of `bind`, assertions included. -/
def patchSites (bci : Nat) : List Nat → List Byte → Option (List Byte)
  | [], code => some code
  | site :: sites, code =>
    if bci < site + 2 then none
    else if 65535 < bci - (site + 2) then none
    else patchSites bci sites (patchU16 code site (bci - (site + 2)))

def bind (b : Builder) (l : Label) : Option Builder :=
  match b.labels[l]? with
  | none => none
  | some (.bound _) => none
  | some (.unbound sites) =>
    match patchSites b.here sites b.code with
    | none => none
    | some code => some { b with
        code := code
        labels := b.labels.set l (.bound b.here) }

/-- A forward jump leaves a placeholder and its position with the label. -/
def emitFwdJump (b : Builder) (op : Byte) (l : Label) : Option Builder :=
  let operandPos := b.code.length + 1
  let b' := (b.emitU8 op).emitU16 0xFFFF#16
  match b.labels[l]? with
  | none => none
  | some (.unbound sites) =>
    some { b' with labels := b.labels.set l (.unbound (sites ++ [operandPos])) }
  | some (.bound target) =>
    if target < operandPos + 2 then none
    else if 65535 < target - (operandPos + 2) then none
    else some { b' with code := patchU16 b'.code operandPos (target - (operandPos + 2)) }

def jumpFwd (b : Builder) (l : Label) : Option Builder := b.emitFwdJump opJumpFwd l
def brTrueFwd (b : Builder) (l : Label) : Option Builder := b.emitFwdJump opBrTrueFwd l
def brFalseFwd (b : Builder) (l : Label) : Option Builder := b.emitFwdJump opBrFalseFwd l

def jumpBack (b : Builder) (l : Label) : Option Builder :=
  match b.labels[l]? with
  | some (.bound target) =>
    let nextBci := b.code.length + 3
    if nextBci < target then none
    else if 65535 < nextBci - target then none
    else some ((b.emitU8 opJumpBack).emitU16 (BitVec.ofNat 16 (nextBci - target)))
  | _ => none

/-! ## Collections and finishing -/

/-- A collection updates what the handles hold, and nothing else of the builder. -/
def collect (b : Builder) (ρ : Equiv.Perm Addr) : Builder :=
  { b with
    literals := b.literals.map (Oop.move ρ)
    icSites := b.icSites.map fun (sel, argc) => (sel.move ρ, argc) }

/-- The four words of a fresh site: selector, packed argc with epoch 0, no guard, no
target. -/
def icWords (nil : Oop) (site : Oop × Byte) : List Oop :=
  [site.1, .smi (site.2.toNat : Int), nil, nil]

def endsInReturn (instrs : List (Nat × Instr)) : Bool :=
  match instrs.getLast? with
  | some (_, .returnTos) | some (_, .returnSelf) => true
  | some (_, .blockReturnTos) | some (_, .nlrTos) => true
  | _ => false

/-- `ρ` is the move of the collections its three allocations may run. -/
def finish (debug : Bool) (b : Builder) (ρ : Equiv.Perm Addr) (nil selector : Oop)
    (argc ntemps : Nat) : Option CompiledMethod :=
  if methodArgcMax < argc then none
  else if methodNtempsMax < ntemps then none
  else if debug && decide (bciSentinelBase ≤ b.code.length) then none
  else if b.labels.any fun l => match l with | .unbound _ => true | .bound _ => false then none
  else if b.code.isEmpty then none
  else
    match decodeAll b.code with
    | none => none
    | some instrs =>
      if endsInReturn instrs then
        let b := b.collect ρ
        some {
          selector := selector.move ρ
          holder := nil
          argc := argc
          ntemps := ntemps
          literals := b.literals
          ics := b.icSites.flatMap (icWords nil)
          code := b.code }
      else none

end Builder

/-! ## Sessions -/

/-- One call on a builder, or a collection between two calls. -/
inductive Call where
  | noteLine (line : BitVec 32)
  | pushSelf
  | pushNil
  | pushTrue
  | pushFalse
  | pushSmiI8 (v : Byte)
  | pushLiteral (o : Oop)
  | pushTemp (t : Byte)
  | storeTemp (t : Byte)
  | storeTempPop (t : Byte)
  | pushInstvar (i : Byte)
  | storeInstvarPop (i : Byte)
  | pushCtxTemp (depth idx : Byte)
  | storeCtxTempPop (depth idx : Byte)
  | pushGlobal (assoc : Oop)
  | storeGlobalPop (assoc : Oop)
  | pop
  | dup
  | retTos
  | retSelf
  | blockReturnTos
  | nlrTos
  | addSend (selector : Oop) (argc : Byte)
  | send (selector : Oop) (argc : Byte)
  | sendSuper (selector : Oop) (argc : Byte)
  | internBlockLiteral (blk : Oop)
  | pushClosure (lit : Nat) (nValueCaptures : Byte)
  | newLabel
  | bind (l : Label)
  | jumpFwd (l : Label)
  | brTrueFwd (l : Label)
  | brFalseFwd (l : Label)
  | jumpBack (l : Label)
  | collect (ρ : Equiv.Perm Addr)

def Builder.call (debug : Bool) (b : Builder) : Call → Option Builder
  | .noteLine line => some (b.noteLine line)
  | .pushSelf => some b.pushSelf
  | .pushNil => some b.pushNil
  | .pushTrue => some b.pushTrue
  | .pushFalse => some b.pushFalse
  | .pushSmiI8 v => some (b.pushSmiI8 v)
  | .pushLiteral o => some (b.pushLiteral o)
  | .pushTemp t => some (b.pushTemp t)
  | .storeTemp t => some (b.storeTemp t)
  | .storeTempPop t => some (b.storeTempPop t)
  | .pushInstvar i => some (b.pushInstvar i)
  | .storeInstvarPop i => some (b.storeInstvarPop i)
  | .pushCtxTemp depth idx => some (b.pushCtxTemp depth idx)
  | .storeCtxTempPop depth idx => some (b.storeCtxTempPop depth idx)
  | .pushGlobal assoc => some (b.pushGlobal assoc)
  | .storeGlobalPop assoc => some (b.storeGlobalPop assoc)
  | .pop => some b.pop
  | .dup => some b.dup
  | .retTos => some b.retTos
  | .retSelf => some b.retSelf
  | .blockReturnTos => some b.blockReturnTos
  | .nlrTos => some b.nlrTos
  | .addSend selector argc => (b.addSend selector argc).map (·.2)
  | .send selector argc => b.send selector argc
  | .sendSuper selector argc => b.sendSuper selector argc
  | .internBlockLiteral blk => some (b.internBlockLiteral blk).2
  | .pushClosure lit n => b.pushClosure debug lit n
  | .newLabel => some b.newLabel.2
  | .bind l => b.bind l
  | .jumpFwd l => b.jumpFwd l
  | .brTrueFwd l => b.brTrueFwd l
  | .brFalseFwd l => b.brFalseFwd l
  | .jumpBack l => b.jumpBack l
  | .collect ρ => some (b.collect ρ)

/-- The four jump instructions, by direction. -/
inductive Branch where
  | jump
  | brTrue
  | brFalse
deriving DecidableEq, Repr

/-- What one emission call asked for: the instruction, or the oop, the site or the label
it is to name. -/
inductive Emitted where
  | plain (i : Instr)
  | pushLiteral (o : Oop)
  | pushGlobal (assoc : Oop)
  | storeGlobalPop (assoc : Oop)
  | pushClosure (blk : Option Oop) (nValueCaptures : Byte)
  | send (isSuper : Bool) (selector : Oop) (argc : Byte)
  | fwd (kind : Branch) (l : Label)
  | jumpBack (l : Label)
deriving DecidableEq

def Emitted.move (ρ : Equiv.Perm Addr) : Emitted → Emitted
  | .plain i => .plain i
  | .pushLiteral o => .pushLiteral (o.move ρ)
  | .pushGlobal o => .pushGlobal (o.move ρ)
  | .storeGlobalPop o => .storeGlobalPop (o.move ρ)
  | .pushClosure blk n => .pushClosure (blk.map (Oop.move ρ)) n
  | .send isSuper sel argc => .send isSuper (sel.move ρ) argc
  | .fwd kind l => .fwd kind l
  | .jumpBack l => .jumpBack l

/-- The record of a session: the instructions asked for, the bci at which each label was
bound and the block passed for each index `intern_block_literal` returned. -/
structure Record where
  emitted : List Emitted
  boundAt : Label → Option Nat
  blocks : Nat → Option Oop

def Record.new : Record where
  emitted := []
  boundAt := fun _ => none
  blocks := fun _ => none

def Record.emit (t : Record) (e : Emitted) : Record :=
  { t with emitted := t.emitted ++ [e] }

def Record.move (ρ : Equiv.Perm Addr) (t : Record) : Record :=
  { t with
    emitted := t.emitted.map (Emitted.move ρ)
    blocks := fun i => (t.blocks i).map (Oop.move ρ) }

/-- The record after a call on `b`. -/
def Record.call (t : Record) (b : Builder) : Call → Record
  | .noteLine _ => t
  | .pushSelf => t.emit (.plain .pushSelf)
  | .pushNil => t.emit (.plain .pushNil)
  | .pushTrue => t.emit (.plain .pushTrue)
  | .pushFalse => t.emit (.plain .pushFalse)
  | .pushSmiI8 v => t.emit (.plain (.pushSmi v))
  | .pushLiteral o => t.emit (.pushLiteral o)
  | .pushTemp i => t.emit (.plain (.pushTemp i))
  | .storeTemp i => t.emit (.plain (.storeTemp i))
  | .storeTempPop i => t.emit (.plain (.storeTempPop i))
  | .pushInstvar i => t.emit (.plain (.pushInstvar i))
  | .storeInstvarPop i => t.emit (.plain (.storeInstvarPop i))
  | .pushCtxTemp depth idx => t.emit (.plain (.pushCtxTemp depth idx))
  | .storeCtxTempPop depth idx => t.emit (.plain (.storeCtxTempPop depth idx))
  | .pushGlobal assoc => t.emit (.pushGlobal assoc)
  | .storeGlobalPop assoc => t.emit (.storeGlobalPop assoc)
  | .pop => t.emit (.plain .pop)
  | .dup => t.emit (.plain .dup)
  | .retTos => t.emit (.plain .returnTos)
  | .retSelf => t.emit (.plain .returnSelf)
  | .blockReturnTos => t.emit (.plain .blockReturnTos)
  | .nlrTos => t.emit (.plain .nlrTos)
  | .addSend _ _ => t
  | .send selector argc => t.emit (.send false selector argc)
  | .sendSuper selector argc => t.emit (.send true selector argc)
  | .internBlockLiteral blk =>
    { t with blocks := Function.update t.blocks (b.internBlockLiteral blk).1 (some blk) }
  | .pushClosure lit n => t.emit (.pushClosure (t.blocks lit) n)
  | .newLabel => t
  | .bind l => { t with boundAt := Function.update t.boundAt l (some b.here) }
  | .jumpFwd l => t.emit (.fwd .jump l)
  | .brTrueFwd l => t.emit (.fwd .brTrue l)
  | .brFalseFwd l => t.emit (.fwd .brFalse l)
  | .jumpBack l => t.emit (.jumpBack l)
  | .collect ρ => t.move ρ

structure Session where
  builder : Builder
  record : Record

namespace Session

def new : Session := ⟨Builder.new, Record.new⟩

def call (debug : Bool) (s : Session) (c : Call) : Option Session :=
  (s.builder.call debug c).map fun b => ⟨b, s.record.call s.builder c⟩

def run (debug : Bool) (s : Session) : List Call → Option Session
  | [] => some s
  | c :: cs => (s.call debug c).bind fun s' => run debug s' cs

end Session

/-! ## What a finished method names -/

namespace CompiledMethod

/-- The selector and the argument count of IC site `ic`. -/
def icSite (m : CompiledMethod) (ic : Nat) : Option (Oop × Int) :=
  match m.ics[ic * icStride + icSelOffset]?, m.ics[ic * icStride + icMetaOffset]? with
  | some sel, some (.smi info) => some (sel, info % 256)
  | _, _ => none

/-- The decoded `(bci, instr)` is what the call asked for. -/
def Names (m : CompiledMethod) (boundAt : Label → Option Nat) : Emitted → Nat × Instr → Prop
  | .plain i, (_, j) => j = i
  | .pushLiteral o, (_, .pushLiteral k) => m.literals[k.toNat]? = some o
  | .pushGlobal o, (_, .pushGlobal k) => m.literals[k.toNat]? = some o
  | .storeGlobalPop o, (_, .storeGlobalPop k) => m.literals[k.toNat]? = some o
  | .pushClosure blk n, (_, .pushClosure k n') =>
    n' = n ∧ ∀ o, blk = some o → m.literals[k.toNat]? = some o
  | .send isSuper sel argc, (_, .send ic isSuper') =>
    isSuper' = isSuper ∧ m.icSite ic.toNat = some (sel, (argc.toNat : Int))
  | .fwd .jump l, (bci, .jumpFwd d) => boundAt l = some (bci + 3 + d.toNat)
  | .fwd .brTrue l, (bci, .brTrueFwd d) => boundAt l = some (bci + 3 + d.toNat)
  | .fwd .brFalse l, (bci, .brFalseFwd d) => boundAt l = some (bci + 3 + d.toNat)
  | .jumpBack l, (bci, .jumpBack d) => d.toNat ≤ bci + 3 ∧ boundAt l = some (bci + 3 - d.toNat)
  | _, _ => False

/-- Decoding from bci 0 gives the emitted instructions one for one, each naming what its
call was passed, and labels were bound at instruction boundaries. -/
def RoundTrip (m : CompiledMethod) (t : Record) : Prop :=
  ∃ instrs, decodeAll m.code = some instrs ∧
    List.Forall₂ (m.Names t.boundAt) t.emitted instrs ∧
    ∀ l bci, t.boundAt l = some bci → bci ∈ instrs.map Prod.fst ∨ bci = m.code.length

end CompiledMethod

/-- The literal operand of the call fits its opcode: the slot the literal gets is below the
operand's range, or the slot the truncated operand names holds the same oop already. -/
def Session.Fits (s : Session) : Call → Prop
  | .pushLiteral o =>
    let idx := (s.builder.internLiteral o).1
    idx < 65536 ∨ s.builder.literals[idx % 65536]? = some o
  | .pushGlobal o | .storeGlobalPop o =>
    let idx := (s.builder.internLiteral o).1
    idx < 256 ∨ s.builder.literals[idx % 256]? = some o
  | .pushClosure lit _ =>
    ∀ o ∈ s.record.blocks lit, lit < 256 ∨ s.builder.literals[lit % 256]? = some o
  | _ => True

/-- Every call of the run fits in the state it is made in. -/
def Session.AllFit (debug : Bool) (s : Session) : List Call → Prop
  | [] => True
  | c :: cs => s.Fits c ∧ ∀ s' ∈ s.call debug c, AllFit debug s' cs

instance (s : Session) : DecidablePred s.Fits := by
  intro c
  cases c <;> (dsimp only [Session.Fits]; infer_instance)

instance Session.decidableAllFit (debug : Bool) (s : Session) :
    (cs : List Call) → Decidable (s.AllFit debug cs)
  | [] => isTrue trivial
  | c :: cs =>
    haveI : ∀ s', Decidable (Session.AllFit debug s' cs) := fun s' => decidableAllFit debug s' cs
    inferInstanceAs (Decidable (s.Fits c ∧ ∀ s' ∈ s.call debug c, Session.AllFit debug s' cs))

end WinVm.Bytecode
