import WinVm.Lib.Bytes
import WinVm.Lib.Search

/-!
# Scope descriptors and PcDescs

The compiler-side metadata that turns a compiled frame back into interpreter
frames (`compiler/scopes.rs`): value locations, scope and safepoint records, the
`ScopeDescRecorder` that packs them into one blob of variable-length records
linked by byte offset, the decode side, and the OSR map. Machine integers are
bit vectors of the source's width; an `as` cast is `setWidth` or `signExtend`.
A panic (an index out of bounds, an unknown tag) is `none`.
-/

namespace WinVm.Compiler.Scopes

open WinVm.Lib WinVm.Lib.ByteReader

/-! ## Value locations -/

/-- Where an interpreter-visible value lives in a compiled frame. -/
inductive ValueLoc where
  | constPool (ix : BitVec 32)
  | constSmi (v : BitVec 64)
  | frameSlot (off : BitVec 32)
  | nil
  | elidedClosure (ix : BitVec 32)
  | doubleSlot (off : BitVec 32)
deriving DecidableEq, Repr

def ValueLoc.write : ValueLoc → List Byte
  | constPool ix => 0#8 :: writeUleb (ix.setWidth 64)
  | constSmi v => 1#8 :: writeSleb v
  | frameSlot off => 2#8 :: writeSleb (off.signExtend 64)
  | nil => [3#8]
  | elidedClosure ix => 4#8 :: writeUleb (ix.setWidth 64)
  | doubleSlot off => 5#8 :: writeSleb (off.signExtend 64)

def ValueLoc.read : ByteReader ValueLoc := do
  let tag ← nextByte
  match tag.toNat with
  | 0 => return constPool ((← readUleb).setWidth 32)
  | 1 => return constSmi (← readSleb)
  | 2 => return frameSlot ((← readSleb).setWidth 32)
  | 3 => return nil
  | 4 => return elidedClosure ((← readUleb).setWidth 32)
  | 5 => return doubleSlot ((← readSleb).setWidth 32)
  | _ => fail

/-- `write_uleb(len); for v in vs { v.write() }`, the shape of every list field. -/
def writeLocs (vs : List ValueLoc) : List Byte :=
  writeUleb (BitVec.ofNat 64 vs.length) ++ vs.flatMap ValueLoc.write

/-- `let n = read_uleb(); (0..n).map(|_| ValueLoc::read()).collect()`. -/
def readLocs : ByteReader (List ValueLoc) := do
  let n ← readUleb
  replicate n.toNat ValueLoc.read

/-- The heap Context of a scope. -/
inductive CtxLoc where
  | none
  | materialized (loc : ValueLoc)
  | elided (temps : List ValueLoc)
deriving DecidableEq, Repr

/-- The 2-bit `ctx_kind` for the scope flags byte. -/
def CtxLoc.kind : CtxLoc → Byte
  | none => 0#8
  | materialized _ => 1#8
  | elided _ => 2#8

def CtxLoc.write : CtxLoc → List Byte
  | none => []
  | materialized loc => loc.write
  | elided temps => writeLocs temps

def CtxLoc.read (kind : Byte) : ByteReader CtxLoc :=
  match kind.toNat with
  | 0 => return none
  | 1 => do return materialized (← ValueLoc.read)
  | 2 => do return elided (← readLocs)
  | _ => fail

/-! ## Scopes and safepoints, recorder side -/

abbrev ScopeId := BitVec 32

/-- An inlined-scope link: the sender, the bci of the inlined send in it, and the
sender's operand stack below the send's receiver and arguments. -/
structure SenderLink where
  sender : ScopeId
  senderBci : BitVec 16
  pendingStack : List ValueLoc
deriving DecidableEq, Repr

/-- One virtual (interpreter) frame, unpacked. -/
structure ScopeDescData where
  methodPoolIx : BitVec 32
  isBlock : Bool
  sender : Option SenderLink
  receiver : ValueLoc
  slots : List ValueLoc
  ctx : CtxLoc
deriving DecidableEq, Repr

inductive SafepointKind where
  | call
  | loopPoll
  | alloc
  | uncommonTrap
deriving DecidableEq, Repr

def SafepointKind.toBits : SafepointKind → Byte
  | call => 0#8
  | loopPoll => 1#8
  | alloc => 2#8
  | uncommonTrap => 3#8

def SafepointKind.fromBits (b : Byte) : ByteReader SafepointKind :=
  match b.toNat with
  | 0 => return call
  | 1 => return loopPoll
  | 2 => return alloc
  | 3 => return uncommonTrap
  | _ => fail

/-- The per-pc deopt state. -/
structure SafepointState where
  scope : ScopeId
  bci : BitVec 16
  kind : SafepointKind
  reexecute : Bool
  stack : List ValueLoc
deriving DecidableEq, Repr

/-- Fixed-width, sorted by `codeOff`. `siteOff` is the byte offset of the packed
safepoint record. -/
structure PcDesc where
  codeOff : BitVec 32
  siteOff : BitVec 32
deriving DecidableEq, Repr

/-- Exact-match binary search; a miss is a panic. -/
def PcDesc.find (descs : List PcDesc) (codeOff : BitVec 32) : Option PcDesc := do
  let idx ← binarySearchByKey (fun d : PcDesc => d.codeOff.toNat) descs codeOff.toNat
  descs[idx]?

/-- Accumulates scopes and per-site states during emit. -/
structure ScopeDescRecorder where
  scopes : List ScopeDescData
  sites : List (BitVec 32 × SafepointState)
deriving DecidableEq, Repr

namespace ScopeDescRecorder

def new : ScopeDescRecorder := ⟨[], []⟩

def beginScope (r : ScopeDescRecorder) (data : ScopeDescData) : ScopeId × ScopeDescRecorder :=
  (BitVec.ofNat 32 r.scopes.length, { r with scopes := r.scopes ++ [data] })

def recordSite (r : ScopeDescRecorder) (codeOff : BitVec 32) (state : SafepointState) :
    ScopeDescRecorder :=
  { r with sites := r.sites ++ [(codeOff, state)] }

/-- The histories of a recorder: a sender is begun before its child, a site names a
scope already begun (both asserted by the source), and no code offset is recorded
twice. -/
inductive Recorded : ScopeDescRecorder → Prop
  | new : Recorded new
  | beginScope {r : ScopeDescRecorder} {data : ScopeDescData} (hr : Recorded r)
      (hsender : ∀ link, data.sender = some link → link.sender.toNat < r.scopes.length) :
      Recorded (r.beginScope data).2
  | recordSite {r : ScopeDescRecorder} {codeOff : BitVec 32} {state : SafepointState}
      (hr : Recorded r) (hscope : state.scope.toNat < r.scopes.length)
      (hfresh : codeOff ∉ r.sites.map Prod.fst) :
      Recorded (r.recordSite codeOff state)

end ScopeDescRecorder

def boolByte (b : Bool) : Byte := if b then 1#8 else 0#8

/-- The sender part of a scope record; empty for a root scope. -/
def writeSender (sender : Option SenderLink) (scopeOffs : List (BitVec 32)) :
    Option (List Byte) :=
  match sender with
  | none => some []
  | some link => do
    let off ← scopeOffs[link.sender.toNat]?
    return writeUleb (off.setWidth 64) ++ (writeUleb (link.senderBci.setWidth 64) ++
      writeLocs link.pendingStack)

def scopeFlags (scope : ScopeDescData) : Byte :=
  boolByte scope.sender.isSome ||| (boolByte scope.isBlock <<< 1) ||| (scope.ctx.kind <<< 2)

def writeScopeRecord (scope : ScopeDescData) (scopeOffs : List (BitVec 32)) :
    Option (List Byte) := do
  let sender ← writeSender scope.sender scopeOffs
  return scopeFlags scope :: (writeUleb (scope.methodPoolIx.setWidth 64) ++ (sender ++
    (scope.receiver.write ++ (writeLocs scope.slots ++ scope.ctx.write))))

def siteFlags (state : SafepointState) : Byte :=
  boolByte state.reexecute ||| (state.kind.toBits <<< 1)

def writeSafepointRecord (state : SafepointState) (scopeOffs : List (BitVec 32)) :
    Option (List Byte) := do
  let off ← scopeOffs[state.scope.toNat]?
  return writeUleb (off.setWidth 64) ++ (writeUleb (state.bci.setWidth 64) ++
    (siteFlags state :: writeLocs state.stack))

/-- The scope loop of `pack`: a scope's offset is pushed before its record is written,
and `blob.len() as u32` keeps the low 32 bits of the length. -/
def packScopes : List ScopeDescData → List Byte → List (BitVec 32) →
    Option (List Byte × List (BitVec 32))
  | [], blob, scopeOffs => some (blob, scopeOffs)
  | scope :: rest, blob, scopeOffs => do
    let scopeOffs := scopeOffs ++ [BitVec.ofNat 32 blob.length]
    let record ← writeScopeRecord scope scopeOffs
    packScopes rest (blob ++ record) scopeOffs

/-- The site loop of `pack`. -/
def packSites (scopeOffs : List (BitVec 32)) :
    List (BitVec 32 × SafepointState) → List Byte → List PcDesc → Option (List Byte × List PcDesc)
  | [], blob, pcdescs => some (blob, pcdescs)
  | (codeOff, state) :: rest, blob, pcdescs => do
    let siteOff := BitVec.ofNat 32 blob.length
    let record ← writeSafepointRecord state scopeOffs
    packSites scopeOffs rest (blob ++ record) (pcdescs ++ [⟨codeOff, siteOff⟩])

/-- The scopes blob and the PcDesc array sorted by `codeOff`. -/
def ScopeDescRecorder.pack (r : ScopeDescRecorder) : Option (List Byte × List PcDesc) := do
  let (blob, scopeOffs) ← packScopes r.scopes [] []
  let (blob, pcdescs) ← packSites scopeOffs r.sites blob []
  return (blob, pcdescs.mergeSort (fun a b => decide (a.codeOff.toNat ≤ b.codeOff.toNat)))

/-! ## Decode side -/

/-- A scope record decoded from the blob; the sender is a byte offset. -/
structure DecodedScope where
  methodPoolIx : BitVec 32
  isBlock : Bool
  sender : Option (BitVec 32 × BitVec 16 × List ValueLoc)
  receiver : ValueLoc
  slots : List ValueLoc
  ctx : CtxLoc
deriving DecidableEq, Repr

structure DecodedSite where
  scopeOff : BitVec 32
  bci : BitVec 16
  kind : SafepointKind
  reexecute : Bool
  stack : List ValueLoc
deriving DecidableEq, Repr

def readSender (hasSender : Bool) : ByteReader (Option (BitVec 32 × BitVec 16 × List ValueLoc)) :=
  if hasSender then do
    let senderOff ← readUleb
    let senderBci ← readUleb
    let pending ← readLocs
    return some (senderOff.setWidth 32, senderBci.setWidth 16, pending)
  else return none

def scopeReader : ByteReader DecodedScope := do
  let flags ← nextByte
  let hasSender := decide (flags &&& 1#8 ≠ 0#8)
  let isBlock := decide (flags &&& 2#8 ≠ 0#8)
  let ctxKind := (flags >>> 2) &&& 0b11#8
  let methodPoolIx ← readUleb
  let sender ← readSender hasSender
  let receiver ← ValueLoc.read
  let slots ← readLocs
  let ctx ← CtxLoc.read ctxKind
  return { methodPoolIx := methodPoolIx.setWidth 32, isBlock, sender, receiver, slots, ctx }

def siteReader : ByteReader DecodedSite := do
  let scopeOff ← readUleb
  let bci ← readUleb
  let flags ← nextByte
  let reexecute := decide (flags &&& 1#8 ≠ 0#8)
  let kind ← SafepointKind.fromBits ((flags >>> 1) &&& 0b111#8)
  let stack ← readLocs
  return { scopeOff := scopeOff.setWidth 32, bci := bci.setWidth 16, kind, reexecute, stack }

def decodeScope (blob : List Byte) (off : BitVec 32) : Option DecodedScope :=
  (scopeReader blob off.toNat).map Prod.fst

def decodeSite (blob : List Byte) (siteOff : BitVec 32) : Option DecodedSite :=
  (siteReader blob siteOff.toNat).map Prod.fst

/-- The decoded deopt state at one native pc. -/
structure DeoptState where
  blob : List Byte
  site : DecodedSite

def DeoptState.atParts (blob : List Byte) (pcdescs : List PcDesc) (codeOff : BitVec 32) :
    Option DeoptState := do
  let pc ← PcDesc.find pcdescs codeOff
  let site ← decodeSite blob pc.siteOff
  return ⟨blob, site⟩

structure ScopeChainIter where
  blob : List Byte
  nextOff : Option (BitVec 32)

/-- Scope records innermost to outermost, decoded on demand. -/
def DeoptState.scopes (s : DeoptState) : ScopeChainIter := ⟨s.blob, some s.site.scopeOff⟩

/-- `Iterator::next`; the outer `none` is a panic, the inner one the end of the chain. -/
def ScopeChainIter.next (it : ScopeChainIter) : Option (Option DecodedScope × ScopeChainIter) :=
  match it.nextOff with
  | none => some (none, it)
  | some off => do
    let scope ← decodeScope it.blob off
    return (some scope, { it with nextOff := scope.sender.map Prod.fst })

/-- Drain the iterator with at most `fuel` calls of `next`; `none` when the chain has not
ended by then. -/
def ScopeChainIter.collect : Nat → ScopeChainIter → Option (List DecodedScope)
  | 0, _ => none
  | fuel + 1, it => do
    match ← it.next with
    | (none, _) => return []
    | (some scope, it') => return scope :: (← collect fuel it')

/-! ## The OSR map -/

/-- Where one OSR-transferred value comes from in the interpreter frame. -/
inductive OsrSource where
  | receiver
  | slot (i : BitVec 16)
  | stackSlot (i : BitVec 16)
  | context
deriving DecidableEq, Repr

structure OsrSlot where
  src : OsrSource
  dstFrameOff : BitVec 32
deriving DecidableEq, Repr

/-- The interpreter-to-compiled conversion map. A `Vec`'s length is a `usize`. -/
structure OsrMap where
  osrBci : BitVec 16
  entryOff : BitVec 32
  frameWords : BitVec 32
  slots : List OsrSlot
  slots_length : slots.length < 2 ^ 64

def OsrSource.write : OsrSource → List Byte
  | receiver => writeUleb 0#64
  | slot i => writeUleb 1#64 ++ writeUleb (i.setWidth 64)
  | stackSlot i => writeUleb 2#64 ++ writeUleb (i.setWidth 64)
  | context => writeUleb 3#64

/-- `(-off) as u64` negates in `i32`, wrapping at `i32::MIN`, and sign-extends. -/
def OsrSlot.write (s : OsrSlot) : List Byte :=
  s.src.write ++ writeUleb ((-s.dstFrameOff).signExtend 64)

def OsrMap.pack (m : OsrMap) : List Byte :=
  writeUleb (m.osrBci.setWidth 64) ++ (writeUleb (m.entryOff.setWidth 64) ++
    (writeUleb (m.frameWords.setWidth 64) ++ (writeUleb (BitVec.ofNat 64 m.slots.length) ++
      m.slots.flatMap OsrSlot.write)))

def OsrSource.read : ByteReader OsrSource := do
  let tag ← readUleb
  match tag.toNat with
  | 0 => return receiver
  | 1 => return slot ((← readUleb).setWidth 16)
  | 2 => return stackSlot ((← readUleb).setWidth 16)
  | 3 => return context
  | _ => fail

def OsrSlot.read : ByteReader OsrSlot := do
  let src ← OsrSource.read
  let off ← readUleb
  return { src, dstFrameOff := -(off.setWidth 32) }

/-- The fields of `unpack`, in buffer order. -/
def osrReader : ByteReader (BitVec 16 × BitVec 32 × BitVec 32 × List OsrSlot) := do
  let osrBci ← readUleb
  let entryOff ← readUleb
  let frameWords ← readUleb
  let n ← readUleb
  let slots ← replicate n.toNat OsrSlot.read
  return (osrBci.setWidth 16, entryOff.setWidth 32, frameWords.setWidth 32, slots)

def OsrMap.unpack (buf : List Byte) : Option OsrMap := do
  let ((osrBci, entryOff, frameWords, slots), _) ← osrReader buf 0
  if h : slots.length < 2 ^ 64 then
    return { osrBci, entryOff, frameWords, slots, slots_length := h }
  else none

end WinVm.Compiler.Scopes
