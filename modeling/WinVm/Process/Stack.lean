import Mathlib.Data.List.Basic
import Mathlib.Data.Nat.Bitwise
import Mathlib.Tactic.Ring

/-!
# The process stack

`ProcessStack` and `Frame` of `interpreter/stack.rs`, and the packed home reference of
`oops/home_ref.rs`. The stack is a flat array of guest words that grows upward; a frame
is a window of it at an index `fp`, seven header words followed by the temporaries, and
its links (saved fp, saved bci, serial) are smis like any other.

Results:

* `unpackHomeRef_pack`: packing a home reference into one smi loses nothing;
* `ProcessStack.pushAll_eq`: pushing a run of words writes exactly them or overflows.
-/

namespace WinVm.Process

/-! ## Words -/

/-- A word of the process stack. Objects are identities: a moving collection that
updates every reference is invisible here, and `stale` is the one word such a
collection leaves behind, the address an object had before it was moved. -/
inductive Oop where
  | smi (v : Int)
  | nil
  | bool (b : Bool)
  | obj (id : Nat)
  | method (id : Nat)
  | closure (id : Nat)
  | context (id : Nat)
  /-- The two-element `Array` of `alloc_unwind_token`. -/
  | token (id : Nat)
  /-- The reserved bits of `NLR_SENTINEL`. -/
  | nlrSentinel
  | stale
deriving DecidableEq, Repr

/-- The ways a run ends other than by returning: a fatal exit or a failed check. -/
inductive Fault where
  | stackOverflow
  | operandUnderflow
  | badTemp
  | notAMethod
  | notASmi
  | notAClosure
  | notAContext
  | badMarker
  | tokenOnReturn
  | noToken
  | entryWalk
  | resumedFromCannotReturn
  | doesNotUnderstand
  | fellOffEnd
  | noReceiver
  | stopped
deriving DecidableEq, Repr

/-! ## Home references -/

/-- `HomeRef`: process id, frame serial, frame index. -/
structure HomeRef where
  proc : Nat
  serial : Nat
  fp : Nat
deriving DecidableEq, Repr

/-- `pack_home_ref`: `proc:8 | serial:32 | fp:22`, the 62 bits sign-extended. -/
def packHomeRef (h : HomeRef) : Int :=
  let raw : Nat := (h.proc <<< 54 ||| h.serial <<< 22 ||| h.fp <<< 0) % 2 ^ 62
  if raw < 2 ^ 61 then (raw : Int) else (raw : Int) - 2 ^ 62

/-- `unpack_home_ref`. -/
def unpackHomeRef (v : Int) : HomeRef :=
  let raw := (v % 2 ^ 62).toNat
  { proc := (raw >>> 54) % 2 ^ 8, serial := (raw >>> 22) % 2 ^ 32, fp := (raw >>> 0) % 2 ^ 22 }

theorem packed_bits {proc serial fp : Nat} (hs : serial < 2 ^ 32) (hf : fp < 2 ^ 22) :
    proc <<< 54 ||| serial <<< 22 ||| fp <<< 0 = proc * 2 ^ 54 + serial * 2 ^ 22 + fp := by
  have hlow : serial <<< 22 ||| fp = serial * 2 ^ 22 + fp := by
    rw [← Nat.shiftLeft_add_eq_or_of_lt hf, Nat.shiftLeft_eq]
  have hlt : serial * 2 ^ 22 + fp < 2 ^ 54 := by omega
  rw [Nat.shiftLeft_zero, Nat.or_assoc, hlow, ← Nat.shiftLeft_add_eq_or_of_lt hlt,
    Nat.shiftLeft_eq, Nat.add_assoc]

/-- Packing then unpacking returns the reference, for every field in its range. -/
theorem unpackHomeRef_pack {h : HomeRef} (hp : h.proc < 2 ^ 8) (hs : h.serial < 2 ^ 32)
    (hf : h.fp < 2 ^ 22) : unpackHomeRef (packHomeRef h) = h := by
  obtain ⟨proc, serial, fp⟩ := h
  simp only at hp hs hf
  set raw := proc * 2 ^ 54 + serial * 2 ^ 22 + fp with hraw
  have hlt : raw < 2 ^ 62 := by omega
  have hback : (packHomeRef ⟨proc, serial, fp⟩ % 2 ^ 62).toNat = raw := by
    simp only [packHomeRef, packed_bits hs hf, ← hraw, Nat.mod_eq_of_lt hlt]
    split <;> omega
  simp only [unpackHomeRef, hback, Nat.shiftRight_eq_div_pow, HomeRef.mk.injEq]
  refine ⟨?_, ?_, ?_⟩ <;> omega

/-! ## The stack -/

/-- `DEFAULT_STACK_CAPACITY`. -/
def stackCapacity : Nat := 64 * 1024

/-- `ENTRY_FRAME_SENTINEL`, and the bits a `usize` frame pointer shows it as. -/
def entryFrameSentinel : Int := -1
def usizeMax : Nat := 2 ^ 64 - 1

/-- `fp as i64`. -/
def asI64 (n : Nat) : Int := if n < 2 ^ 63 then n else (n : Int) - 2 ^ 64

theorem asI64_of_lt {n : Nat} (h : n < 2 ^ 63) : asI64 n = n := by
  simp only [asI64, h, ↓reduceIte]

def frameMethod : Nat := 0
def frameSavedFp : Nat := 1
def frameSavedBci : Nat := 2
def frameContext : Nat := 3
def frameReceiver : Nat := 4
def frameSerial : Nat := 5
def frameMarker : Nat := 6
def frameTempsBase : Nat := 7

attribute [simp] frameMethod frameSavedFp frameSavedBci frameContext frameReceiver
  frameSerial frameMarker frameTempsBase

/-- `ProcessStack`. Slots at and above `sp` keep whatever was last written there. -/
structure ProcessStack where
  slots : Nat → Oop
  sp : Nat
  fp : Nat
  hasFrame : Bool

namespace ProcessStack

variable (st : ProcessStack)

def set (idx : Nat) (v : Oop) : ProcessStack :=
  { st with slots := fun i => if i = idx then v else st.slots i }

def withSp (sp : Nat) : ProcessStack := { st with sp }

/-- `push`: overflow is a fatal exit. -/
def push (v : Oop) : Except Fault ProcessStack :=
  if stackCapacity ≤ st.sp then .error .stackOverflow
  else .ok ((st.set st.sp v).withSp (st.sp + 1))

/-- Pushes a run of words, the first deepest. -/
def pushAll (st : ProcessStack) : List Oop → Except Fault ProcessStack
  | [] => .ok st
  | v :: vs => do (← st.push v).pushAll vs

def activateFrame (fp : Nat) : ProcessStack := { st with fp, hasFrame := true }

def deactivate : ProcessStack := { st with hasFrame := false }

@[simp] theorem withSp_sp (sp : Nat) : (st.withSp sp).sp = sp := rfl
@[simp] theorem withSp_fp (sp : Nat) : (st.withSp sp).fp = st.fp := rfl
@[simp] theorem withSp_slots (sp : Nat) : (st.withSp sp).slots = st.slots := rfl

theorem set_slots (idx : Nat) (v : Oop) (i : Nat) :
    (st.set idx v).slots i = if i = idx then v else st.slots i := rfl

@[simp] theorem set_slots_self (idx : Nat) (v : Oop) : (st.set idx v).slots idx = v := by
  simp [set_slots]

theorem set_slots_ne {idx i : Nat} (v : Oop) (h : i ≠ idx) :
    (st.set idx v).slots i = st.slots i := by
  simp [set_slots, h]

/-- The stack with a run of words laid out from `sp`. -/
def write (vs : List Oop) : ProcessStack :=
  { st with
    slots := fun i => if st.sp ≤ i then (vs[i - st.sp]?).getD (st.slots i) else st.slots i
    sp := st.sp + vs.length }

theorem write_slots_lt (vs : List Oop) {i : Nat} (h : i < st.sp) :
    (st.write vs).slots i = st.slots i := by
  simp [write, Nat.not_le.mpr h]

theorem write_slots_at (vs : List Oop) {k : Nat} {v : Oop} (h : vs[k]? = some v) :
    (st.write vs).slots (st.sp + k) = v := by
  simp [write, h]

theorem write_cons (v : Oop) (vs : List Oop) :
    ((st.set st.sp v).withSp (st.sp + 1)).write vs = st.write (v :: vs) := by
  obtain ⟨slots, sp, fp, hf⟩ := st
  simp only [write, set, withSp, mk.injEq, List.length_cons, and_self, and_true]
  refine ⟨?_, by omega⟩
  funext i
  rcases Nat.lt_trichotomy i sp with h | h | h
  · simp [Nat.not_le.mpr h, Nat.not_le.mpr (Nat.lt_succ_of_lt h), Nat.ne_of_lt h]
  · subst h
    simp
  · obtain ⟨k, rfl⟩ := Nat.exists_eq_add_of_lt h
    have hk : sp + k + 1 - sp = k + 1 := by omega
    have hk' : sp + k + 1 - (sp + 1) = k := by omega
    have hne : sp + k + 1 ≠ sp := by omega
    have h1 : sp + 1 ≤ sp + k + 1 := by omega
    have h2 : sp ≤ sp + k + 1 := by omega
    simp [hk, hk', hne, h1, h2]

/-- Pushing a run of words writes exactly them, or overflows the stack. -/
theorem pushAll_eq {vs : List Oop} {st : ProcessStack} (h : st.sp ≤ stackCapacity) :
    st.pushAll vs = if st.sp + vs.length ≤ stackCapacity then .ok (st.write vs)
      else .error .stackOverflow := by
  induction vs generalizing st with
  | nil =>
    have hw : st.write [] = st := by
      obtain ⟨slots, sp, fp, hf⟩ := st
      simp [write]
    simp [pushAll, h, hw]
  | cons v vs ih =>
    by_cases hfull : stackCapacity ≤ st.sp
    · have hover : ¬ st.sp + (vs.length + 1) ≤ stackCapacity := by omega
      simp only [pushAll, push, hfull, ↓reduceIte, List.length_cons, hover]
      rfl
    · have hroom : ((st.set st.sp v).withSp (st.sp + 1)).sp ≤ stackCapacity := by
        simp only [withSp_sp]
        omega
      have hlen : st.sp + 1 + vs.length = st.sp + (vs.length + 1) := by omega
      simp only [pushAll, push, hfull, ↓reduceIte, List.length_cons, ← hlen]
      show ((st.set st.sp v).withSp (st.sp + 1)).pushAll vs = _
      rw [ih hroom, write_cons, withSp_sp]

end ProcessStack

/-! ## Frames -/

/-- `MarkerKind`. -/
inductive MarkerKind where
  | ensure
  | ifCurtailed
deriving DecidableEq, Repr

/-- `FRAME_MARKER_KIND_MASK` for a kind, as added to the 32 serial bits. -/
def MarkerKind.bit : MarkerKind → Int
  | .ensure => 0
  | .ifCurtailed => 2 ^ 32

/-- The `u32` that `& FRAME_SERIAL_MASK` cuts out of a smi. -/
def serialBits (v : Int) : Nat := (v % 2 ^ 32).toNat

theorem serialBits_lt (v : Int) : serialBits v < 2 ^ 32 := by
  unfold serialBits
  omega

theorem serialBits_ofNat {n : Nat} (h : n < 2 ^ 32) : serialBits n = n := by
  unfold serialBits
  omega

theorem serialBits_add_bit {n : Nat} (h : n < 2 ^ 32) (k : MarkerKind) :
    serialBits (n + k.bit) = n := by
  cases k <;> simp only [serialBits, MarkerKind.bit] <;> omega

/-- `SmallInt::try_from`. -/
def Oop.asSmi : Oop → Except Fault Int
  | .smi v => .ok v
  | _ => .error .notASmi

namespace ProcessStack

variable (st : ProcessStack)

/-- `Frame::saved_fp`, `Frame::saved_bci`: `usize` for the latter. -/
def savedFp (fp : Nat) : Except Fault Int := (st.slots (fp + frameSavedFp)).asSmi
def savedBci (fp : Nat) : Except Fault Nat :=
  (st.slots (fp + frameSavedBci)).asSmi.map fun v => (v % 2 ^ 64).toNat

def context (fp : Nat) : Oop := st.slots (fp + frameContext)
def setContext (fp : Nat) (c : Oop) : ProcessStack := st.set (fp + frameContext) c

def receiver (fp : Nat) : Oop := st.slots (fp + frameReceiver)

/-- `Frame::serial`: the low 32 bits of the serial word. -/
def serial (fp : Nat) : Except Fault Nat := (st.slots (fp + frameSerial)).asSmi.map serialBits

def marker (fp : Nat) : Oop := st.slots (fp + frameMarker)

/-- `Frame::marker_kind`: bit 32 of the serial word. -/
def markerKind (fp : Nat) : Except Fault MarkerKind :=
  (st.slots (fp + frameSerial)).asSmi.map fun v =>
    if v / 2 ^ 32 % 2 = 0 then .ensure else .ifCurtailed

/-- `Frame::set_marker`: the serial bits survive, only the kind bit changes. -/
def setMarker (fp : Nat) (m : Oop) (kind : MarkerKind) : Except Fault ProcessStack := do
  let serialBits ← st.serial fp
  .ok ((st.set (fp + frameSerial) (.smi (serialBits + kind.bit))).set (fp + frameMarker) m)

def clearMarker (fp : Nat) : ProcessStack := st.set (fp + frameMarker) .nil

end ProcessStack

end WinVm.Process
