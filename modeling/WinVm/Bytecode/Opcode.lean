import WinVm.Lib.Bytes

/-!
# Bytecodes

The instruction set of `bytecode/opcode.rs`: the opcode bytes, the decoded form
`Instr` and `decodeAt`. Operands are one byte, two bytes, or a little-endian
16-bit word; an undefined opcode is a failed read, where the source panics.

Results:

* `reads_readU16`: the two bytes the assembler writes read back as the word;
* `reads_zero`, `reads_one`, `reads_two`, `reads_wide`: an opcode followed by its
  operands decodes to the instruction of that opcode.
-/

namespace WinVm.Bytecode

open WinVm.Lib

@[match_pattern] abbrev opPushSelf : Byte := 0x00#8
@[match_pattern] abbrev opPushNil : Byte := 0x01#8
@[match_pattern] abbrev opPushTrue : Byte := 0x02#8
@[match_pattern] abbrev opPushFalse : Byte := 0x03#8
@[match_pattern] abbrev opPushSmiI8 : Byte := 0x04#8
@[match_pattern] abbrev opPushLiteral : Byte := 0x05#8
@[match_pattern] abbrev opPushTemp : Byte := 0x06#8
@[match_pattern] abbrev opStoreTemp : Byte := 0x07#8
@[match_pattern] abbrev opStoreTempPop : Byte := 0x08#8
@[match_pattern] abbrev opPushInstvar : Byte := 0x09#8
@[match_pattern] abbrev opStoreInstvarPop : Byte := 0x0A#8
@[match_pattern] abbrev opPushGlobal : Byte := 0x0B#8
@[match_pattern] abbrev opStoreGlobalPop : Byte := 0x0C#8
@[match_pattern] abbrev opPop : Byte := 0x0D#8
@[match_pattern] abbrev opDup : Byte := 0x0E#8
@[match_pattern] abbrev opPushCtxTemp : Byte := 0x0F#8
@[match_pattern] abbrev opStoreCtxTempPop : Byte := 0x10#8
@[match_pattern] abbrev opPushClosure : Byte := 0x11#8
@[match_pattern] abbrev opPushLiteralW : Byte := 0x12#8
@[match_pattern] abbrev opSend : Byte := 0x20#8
@[match_pattern] abbrev opSendSuper : Byte := 0x21#8
@[match_pattern] abbrev opSendW : Byte := 0x22#8
@[match_pattern] abbrev opSendSuperW : Byte := 0x23#8
@[match_pattern] abbrev opJumpFwd : Byte := 0x30#8
@[match_pattern] abbrev opJumpBack : Byte := 0x31#8
@[match_pattern] abbrev opBrTrueFwd : Byte := 0x32#8
@[match_pattern] abbrev opBrFalseFwd : Byte := 0x33#8
@[match_pattern] abbrev opReturnTos : Byte := 0x40#8
@[match_pattern] abbrev opReturnSelf : Byte := 0x41#8
@[match_pattern] abbrev opBlockReturnTos : Byte := 0x42#8
@[match_pattern] abbrev opNlrTos : Byte := 0x43#8

/-- The decoded form of one instruction. The `i8` of `pushSmi` is kept as its byte; a
literal index and an IC index are widened, whichever form carried them. -/
inductive Instr where
  | pushSelf
  | pushNil
  | pushTrue
  | pushFalse
  | pushSmi (v : Byte)
  | pushLiteral (idx : BitVec 16)
  | pushTemp (t : Byte)
  | storeTemp (t : Byte)
  | storeTempPop (t : Byte)
  | pushInstvar (i : Byte)
  | storeInstvarPop (i : Byte)
  | pushGlobal (idx : Byte)
  | storeGlobalPop (idx : Byte)
  | pop
  | dup
  | pushCtxTemp (depth idx : Byte)
  | storeCtxTempPop (depth idx : Byte)
  | pushClosure (lit ncopied : Byte)
  | send (ic : BitVec 16) (isSuper : Bool)
  | jumpFwd (distance : BitVec 16)
  | jumpBack (distance : BitVec 16)
  | brTrueFwd (distance : BitVec 16)
  | brFalseFwd (distance : BitVec 16)
  | returnTos
  | returnSelf
  | blockReturnTos
  | nlrTos
deriving DecidableEq, Repr

/-! ## Decoding -/

/-- `lo | (hi << 8)`. -/
def readU16 : ByteReader (BitVec 16) := do
  let lo ← ByteReader.nextByte
  let hi ← ByteReader.nextByte
  return lo.setWidth 16 ||| (hi.setWidth 16 <<< 8)

/-- An opcode with one operand byte. -/
def readU8Then (f : Byte → Instr) : ByteReader Instr := do
  let x ← ByteReader.nextByte
  return f x

/-- An opcode with two operand bytes. -/
def readTwoThen (f : Byte → Byte → Instr) : ByteReader Instr := do
  let x ← ByteReader.nextByte
  let y ← ByteReader.nextByte
  return f x y

/-- An opcode with a 16-bit operand. -/
def readU16Then (f : BitVec 16 → Instr) : ByteReader Instr := do
  let x ← readU16
  return f x

/-- The arms of `decode_at`, after the opcode byte. -/
def decodeOperands : Byte → ByteReader Instr
  | opPushSelf => return .pushSelf
  | opPushNil => return .pushNil
  | opPushTrue => return .pushTrue
  | opPushFalse => return .pushFalse
  | opPushSmiI8 => readU8Then .pushSmi
  | opPushLiteral => readU8Then fun x => .pushLiteral (x.setWidth 16)
  | opPushTemp => readU8Then .pushTemp
  | opStoreTemp => readU8Then .storeTemp
  | opStoreTempPop => readU8Then .storeTempPop
  | opPushInstvar => readU8Then .pushInstvar
  | opStoreInstvarPop => readU8Then .storeInstvarPop
  | opPushGlobal => readU8Then .pushGlobal
  | opStoreGlobalPop => readU8Then .storeGlobalPop
  | opPop => return .pop
  | opDup => return .dup
  | opPushCtxTemp => readTwoThen .pushCtxTemp
  | opStoreCtxTempPop => readTwoThen .storeCtxTempPop
  | opPushClosure => readTwoThen .pushClosure
  | opPushLiteralW => readU16Then .pushLiteral
  | opSend => readU8Then fun x => .send (x.setWidth 16) false
  | opSendSuper => readU8Then fun x => .send (x.setWidth 16) true
  | opSendW => readU16Then fun x => .send x false
  | opSendSuperW => readU16Then fun x => .send x true
  | opJumpFwd => readU16Then .jumpFwd
  | opJumpBack => readU16Then .jumpBack
  | opBrTrueFwd => readU16Then .brTrueFwd
  | opBrFalseFwd => readU16Then .brFalseFwd
  | opReturnTos => return .returnTos
  | opReturnSelf => return .returnSelf
  | opBlockReturnTos => return .blockReturnTos
  | opNlrTos => return .nlrTos
  | _ => ByteReader.fail

/-- Decode the instruction at the cursor; the cursor moves to `next_bci`. -/
def decodeAt : ByteReader Instr := do
  let op ← ByteReader.nextByte
  decodeOperands op

/-- `while bci < len { decode_at }`: every instruction with its bci. -/
def decodeWalk (code : List Byte) : Nat → Nat → Option (List (Nat × Instr))
  | 0, bci => if bci < code.length then none else some []
  | fuel + 1, bci =>
    if bci < code.length then
      match decodeAt code bci with
      | none => none
      | some (instr, next) => (decodeWalk code fuel next).map ((bci, instr) :: ·)
    else some []

/-- Decoding from bci 0. Every instruction takes a byte, so the length is fuel enough. -/
def decodeAll (code : List Byte) : Option (List (Nat × Instr)) :=
  decodeWalk code code.length 0

/-! ## Decoding what was written -/

/-- The two bytes of a 16-bit operand, low byte first. -/
def u16le (v : BitVec 16) : List Byte :=
  [(v &&& 0xFF#16).setWidth 8, (v >>> 8).setWidth 8]

@[simp] theorem u16le_length (v : BitVec 16) : (u16le v).length = 2 := rfl

theorem u16le_join (v : BitVec 16) :
    ((v &&& 0xFF#16).setWidth 8).setWidth 16 ||| (((v >>> 8).setWidth 8).setWidth 16 <<< 8) = v := by
  apply BitVec.eq_of_getLsbD_eq
  intro i hi
  have hmask : (0xFF#16).getLsbD i = decide (i < 8) := by
    interval_cases i <;> rfl
  simp only [BitVec.getLsbD_or, BitVec.getLsbD_setWidth, BitVec.getLsbD_and, hmask,
    BitVec.getLsbD_shiftLeft, BitVec.getLsbD_ushiftRight, hi, decide_true, Bool.true_and]
  rcases Nat.lt_or_ge i 8 with h | h
  · simp [h]
  · simp [show ¬ i < 8 by omega, show i - 8 < 8 by omega, show i - 8 < 16 by omega,
      show 8 + (i - 8) = i by omega]

theorem reads_readU16 (v : BitVec 16) : Reads readU16 (u16le v) v := by
  have h : Reads readU16 (u16le v)
      (((v &&& 0xFF#16).setWidth 8).setWidth 16 |||
        (((v >>> 8).setWidth 8).setWidth 16 <<< 8)) :=
    Reads.bind_nextByte (Reads.bind_pure (Reads.nextByte _))
  rwa [u16le_join] at h

theorem reads_zero {op : Byte} {i : Instr} (h : decodeOperands op = pure i) :
    Reads decodeAt [op] i :=
  Reads.bind_nextByte (h ▸ Reads.pure i)

theorem reads_one {op : Byte} {f : Byte → Instr} (h : decodeOperands op = readU8Then f)
    (x : Byte) : Reads decodeAt [op, x] (f x) := by
  refine Reads.bind_nextByte ?_
  rw [h]
  exact Reads.bind_pure (Reads.nextByte x)

theorem reads_two {op : Byte} {f : Byte → Byte → Instr} (h : decodeOperands op = readTwoThen f)
    (x y : Byte) : Reads decodeAt [op, x, y] (f x y) := by
  refine Reads.bind_nextByte ?_
  rw [h]
  exact Reads.bind_nextByte (Reads.bind_pure (Reads.nextByte y))

theorem reads_wide {op : Byte} {f : BitVec 16 → Instr} (h : decodeOperands op = readU16Then f)
    (v : BitVec 16) : Reads decodeAt (op :: u16le v) (f v) := by
  refine Reads.bind_nextByte ?_
  rw [h]
  exact Reads.bind_pure (reads_readU16 v)

/-- One step of the walk: the instruction's bytes stand at the cursor. -/
theorem decodeWalk_cons {bytes pre post : List Byte} {i : Instr} (hne : bytes ≠ [])
    (h : Reads decodeAt bytes i) (fuel : Nat) :
    decodeWalk (pre ++ (bytes ++ post)) (fuel + 1) pre.length =
      (decodeWalk (pre ++ (bytes ++ post)) fuel (pre.length + bytes.length)).map
        ((pre.length, i) :: ·) := by
  have hlt : pre.length < (pre ++ (bytes ++ post)).length := by
    have := List.length_pos_iff.mpr hne
    simp only [List.length_append]
    omega
  rw [decodeWalk, if_pos hlt, h pre post]

theorem decodeWalk_end (code : List Byte) (fuel : Nat) :
    decodeWalk code fuel code.length = some [] := by
  cases fuel with
  | zero => simp [decodeWalk]
  | succ fuel => simp [decodeWalk]

end WinVm.Bytecode
