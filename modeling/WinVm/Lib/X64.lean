import Mathlib.Logic.Function.Basic

/-!
# Straight-line x86-64 code

Registers, stack slots and the flags; two-address arithmetic, moves, tests and conditional jumps. A
piece of code either falls through or leaves by the first jump that is taken, so `run` gives the
state and the label it left by. Slots, pool words and labels are parameters.

Results:

* `holds_cmp`: what the signed conditions say after `cmp`.
* `run_append`: code that falls through hands its state on.
-/

namespace WinVm.Lib.X64

abbrev Word := BitVec 64

structure Flags where
  zf : Bool
  sf : Bool
  of : Bool
deriving DecidableEq, Repr

inductive Cond where
  | e | ne | l | le | g | ge | o
deriving DecidableEq, Repr

def Cond.holds : Cond → Flags → Bool
  | .e, f => f.zf
  | .ne, f => !f.zf
  | .l, f => f.sf != f.of
  | .le, f => f.zf || f.sf != f.of
  | .g, f => !f.zf && f.sf == f.of
  | .ge, f => f.sf == f.of
  | .o, f => f.of

inductive Alu where
  | add | sub | imul | and | or | xor
deriving DecidableEq, Repr

def Alu.value : Alu → Word → Word → Word
  | .add, a, b => a + b
  | .sub, a, b => a - b
  | .imul, a, b => a * b
  | .and, a, b => a &&& b
  | .or, a, b => a ||| b
  | .xor, a, b => a ^^^ b

/-- Whether the signed result does not fit the word. -/
def Alu.overflows : Alu → Word → Word → Bool
  | .add, a, b => a.saddOverflow b
  | .sub, a, b => a.ssubOverflow b
  | .imul, a, b => a.smulOverflow b
  | _, _, _ => false

/-- The flags of a result. After `imul` the processor leaves `zf` and `sf` undefined; no code may
read them. -/
def flagsOf (r : Word) (of : Bool) : Flags := ⟨decide (r = 0#64), r.msb, of⟩

variable {Slot Lit Label : Type}

inductive Src (Slot Lit : Type) where
  | reg (r : Nat)
  | imm (w : Word)
  | slot (s : Slot)
  | lit (l : Lit)

inductive Instr (Slot Lit Label : Type) where
  | mov (dst : Nat) (src : Src Slot Lit)
  | store (dst : Slot) (src : Nat)
  | alu (op : Alu) (dst src : Nat)
  | sar (dst : Nat) (n : Nat)
  | test (a : Nat) (mask : Word)
  | cmp (a b : Nat)
  | cmov (c : Cond) (dst src : Nat)
  | jcc (c : Cond) (target : Label)
  | jmp (target : Label)

structure Cpu (Slot : Type) where
  reg : Nat → Word
  slot : Slot → Word
  flags : Flags

namespace Cpu

def set (s : Cpu Slot) (r : Nat) (w : Word) : Cpu Slot :=
  { s with reg := Function.update s.reg r w }

variable [DecidableEq Slot]

def put (s : Cpu Slot) (i : Slot) (w : Word) : Cpu Slot :=
  { s with slot := Function.update s.slot i w }

end Cpu

section
variable [DecidableEq Slot] (pool : Lit → Word)

def Src.read (s : Cpu Slot) : Src Slot Lit → Word
  | .reg r => s.reg r
  | .imm w => w
  | .slot i => s.slot i
  | .lit l => pool l

/-- One instruction: the state after it, and the label where it jumps. -/
def exec (s : Cpu Slot) : Instr Slot Lit Label → Cpu Slot × Option Label
  | .mov dst src => (s.set dst (src.read pool s), none)
  | .store dst src => (s.put dst (s.reg src), none)
  | .alu op dst src =>
    let r := op.value (s.reg dst) (s.reg src)
    ({ s.set dst r with flags := flagsOf r (op.overflows (s.reg dst) (s.reg src)) }, none)
  | .sar dst n =>
    let r := (s.reg dst).sshiftRight n
    ({ s.set dst r with flags := flagsOf r false }, none)
  | .test a mask => ({ s with flags := flagsOf (s.reg a &&& mask) false }, none)
  | .cmp a b =>
    ({ s with
      flags := flagsOf (s.reg a - s.reg b) ((s.reg a).ssubOverflow (s.reg b)) }, none)
  | .cmov c dst src => (if c.holds s.flags then s.set dst (s.reg src) else s, none)
  | .jcc c target => (s, if c.holds s.flags then some target else none)
  | .jmp target => (s, some target)

def run (s : Cpu Slot) : List (Instr Slot Lit Label) → Cpu Slot × Option Label
  | [] => (s, none)
  | i :: rest =>
    match exec pool s i with
    | (s', none) => run s' rest
    | (s', some target) => (s', some target)

variable {pool} {s s' : Cpu Slot} {code rest : List (Instr Slot Lit Label)}

@[simp] theorem run_nil : run pool s ([] : List (Instr Slot Lit Label)) = (s, none) := rfl

theorem run_append (falls : run pool s code = (s', none)) :
    run pool s (code ++ rest) = run pool s' rest := by
  induction code generalizing s with
  | nil =>
    obtain rfl : s = s' := congrArg Prod.fst falls
    rfl
  | cons i code ih =>
    unfold run at falls
    rw [List.cons_append, run]
    split at falls
    · rename_i mid stepped
      simpa only [stepped] using ih falls
    · cases falls

theorem run_append_left {target : Label} (leaves : run pool s code = (s', some target)) :
    run pool s (code ++ rest) = (s', some target) := by
  induction code generalizing s with
  | nil => cases leaves
  | cons i code ih =>
    unfold run at leaves
    rw [List.cons_append, run]
    split at leaves
    · rename_i mid stepped
      simpa only [stepped] using ih leaves
    · rename_i mid target' stepped
      simpa only [stepped] using leaves

end

/-! ## Registers -/

section
variable {s : Cpu Slot} {r r' : Nat} {w : Word}

@[simp] theorem set_reg_self : (s.set r w).reg r = w := Function.update_self ..

theorem set_reg_ne (ne : r' ≠ r) : (s.set r w).reg r' = s.reg r' := Function.update_of_ne ne ..

@[simp] theorem set_slot : (s.set r w).slot = s.slot := rfl

@[simp] theorem set_flags : (s.set r w).flags = s.flags := rfl

variable [DecidableEq Slot] {i i' : Slot}

@[simp] theorem put_slot_self : (s.put i w).slot i = w := Function.update_self ..

@[simp] theorem put_reg : (s.put i w).reg = s.reg := rfl

@[simp] theorem put_flags : (s.put i w).flags = s.flags := rfl

end

/-! ## Comparisons -/

theorem sub_eq_zero_iff (a b : Word) : a - b = 0#64 ↔ a = b := by
  constructor
  · intro zero
    have back := congrArg (· + b) zero
    simpa only [BitVec.sub_add_cancel, BitVec.zero_add] using back
  · rintro rfl
    exact BitVec.sub_self a

/-- The sign of the difference is wrong exactly if it overflows. -/
theorem msb_sub_bne (a b : Word) : ((a - b).msb != a.ssubOverflow b) = a.slt b := by
  have lowerA := BitVec.le_two_mul_toInt (x := a)
  have upperA := BitVec.two_mul_toInt_lt (x := a)
  have lowerB := BitVec.le_two_mul_toInt (x := b)
  have upperB := BitVec.two_mul_toInt_lt (x := b)
  rw [BitVec.msb_eq_toInt, BitVec.slt_eq_decide, BitVec.toInt_sub, Int.bmod_def,
    BitVec.ssubOverflow, ← Bool.decide_or, Bool.eq_iff_iff, bne_iff_ne, ne_eq, decide_eq_decide,
    decide_eq_true_eq]
  split <;> omega

/-- What a condition says of two signed words. -/
def Cond.compares : Cond → Int → Int → Bool
  | .e, x, y => decide (x = y)
  | .ne, x, y => decide (x ≠ y)
  | .l, x, y => decide (x < y)
  | .le, x, y => decide (x ≤ y)
  | .g, x, y => decide (x > y)
  | .ge, x, y => decide (x ≥ y)
  | .o, _, _ => false

theorem holds_cmp {c : Cond} (signed : c ≠ .o) (a b : Word) :
    c.holds (flagsOf (a - b) (a.ssubOverflow b)) = c.compares a.toInt b.toInt := by
  have less := msb_sub_bne a b
  rw [BitVec.slt_eq_decide] at less
  have equal : decide (a - b = 0#64) = decide (a.toInt = b.toInt) :=
    decide_eq_decide.2 ((sub_eq_zero_iff a b).trans BitVec.toInt_inj.symm)
  have notLess : ((a - b).msb == a.ssubOverflow b) = decide (b.toInt ≤ a.toInt) := by
    have negated : ((a - b).msb == a.ssubOverflow b) = !((a - b).msb != a.ssubOverflow b) :=
      (Bool.not_not _).symm
    rw [negated, less, ← decide_not, decide_eq_decide, Int.not_lt]
  cases c with
  | e => exact equal
  | ne => simp [Cond.holds, flagsOf, Cond.compares, equal]
  | l => simpa [Cond.holds, flagsOf, Cond.compares] using less
  | ge => simpa [Cond.holds, flagsOf, Cond.compares] using notLess
  | le =>
    simp only [Cond.holds, flagsOf, Cond.compares, equal, less, ← Bool.decide_or, decide_eq_decide]
    omega
  | g =>
    simp only [Cond.holds, flagsOf, Cond.compares, equal, notLess, ← decide_not, ← Bool.decide_and,
      decide_eq_decide]
    omega
  | o => exact absurd rfl signed

end WinVm.Lib.X64
