import WinVm.Compiler.Regalloc
import WinVm.Interpreter.SmallInteger
import WinVm.Lib.X64

/-!
# SmallInteger operations in compiled code

What `emit_op` of `compiler/emit_x64.rs` emits for `SmiArith`, `SmiCmpBr` and `SmiCmpVal`: both
operands are brought into registers, their tags are tested, and the operation works on the tagged
words, with one of them untagged for a product. A failed test and the overflow flag leave for the
`fail` block.

Results:

* `primArith_oop`: on tagged words the machine operation overflows exactly where the primitive fails,
  and gives its word otherwise.
* `smiArith_yields`, `smiCmpVal_yields`, `smiCmpBr_branches`: the emitted code does as the primitives.
* `smallInteger_refines`: this together with the integer laws of the primitives.
-/

namespace WinVm.Compiler

open WinVm.Interpreter
open WinVm.Lib.X64 hiding Word

inductive SmiOp where
  | add | sub | mul | and | or | xor
deriving DecidableEq, Repr

inductive CmpOp where
  | lt | le | gt | ge | eq | ne
deriving DecidableEq, Repr

/-! ## Registers -/

def rax : Nat := 0
def scratch0 : Nat := 10
def scratch1 : Nat := 11

/-- The emitter, as far as reading and defining vregs goes. A vreg with a resident register is a
spilled one. -/
structure Emitter where
  assignment : VReg → Option Assignment
  resident : VReg → Option Nat
  constSmiRemat : VReg → Option OopWord
  falseLit : Nat
  trueLit : Nat
  assigned : ∀ v r, assignment v = some (.reg r) → r ∈ RegFile.x64.allocatable
  spilled : ∀ v r, resident v = some r → ∃ slot, assignment v = some (.spill slot)
  homes : ∀ v r, resident v = some r → r ∈ RegFile.x64.residencyCandidates

abbrev Code := List (Instr Nat Nat BlockId)

namespace Emitter

variable (e : Emitter)

/-- `read_into`: the code that brings a vreg into a register, and the register. -/
def readInto (v : VReg) (scratch : Nat) : Option (Code × Nat) :=
  match e.resident v with
  | some r => some ([], r)
  | none =>
    match e.assignment v with
    | some (.reg r) => some ([], r)
    | some (.spill slot) =>
      match e.constSmiRemat v with
      | some tagged => some ([.mov scratch (.imm tagged)], scratch)
      | none => some ([.mov scratch (.slot slot)], scratch)
    | none => none

def defReg (v : VReg) (scratch : Nat) : Option Nat :=
  match e.assignment v with
  | some (.reg r) => some r
  | some (.spill _) => some scratch
  | none => none

def storeDef (v : VReg) (reg : Nat) : Code :=
  match e.assignment v with
  | some (.spill slot) =>
    .store slot reg :: match e.resident v with
      | some r => if r ≠ reg then [.mov r (.reg reg)] else []
      | none => []
  | _ => []

end Emitter

/-- `emit_two_address`: `dst = a op b`. -/
def emitTwoAddress (op : Alu) (commutative : Bool) (dst a b : Nat) : Code :=
  if dst = b then
    if commutative then [.alu op dst a]
    else [.mov scratch1 (.reg a), .alu op scratch1 b, .mov dst (.reg scratch1)]
  else (if dst ≠ a then [.mov dst (.reg a)] else []) ++ [.alu op dst b]

def emitSmiGuard (reg : Nat) (fail : BlockId) : Code := [.test reg 3#64, .jcc .ne fail]

def cmpCond : CmpOp → Cond
  | .lt => .l
  | .le => .le
  | .gt => .g
  | .ge => .ge
  | .eq => .e
  | .ne => .ne

/-- The operation itself, once both operands have passed. -/
def emitSmiOp (op : SmiOp) (d ra rb : Nat) (fail : BlockId) : Code :=
  match op with
  | .add => emitTwoAddress .add true d ra rb ++ [.jcc .o fail]
  | .sub => emitTwoAddress .sub false d ra rb ++ [.jcc .o fail]
  | .mul =>
    [.mov scratch1 (.reg rb), .sar scratch1 2] ++
      emitTwoAddress .imul true d ra scratch1 ++ [.jcc .o fail]
  | .and => emitTwoAddress .and true d ra rb
  | .or => emitTwoAddress .or true d ra rb
  | .xor => emitTwoAddress .xor true d ra rb

namespace Emitter

variable (e : Emitter)

/-- What the three operations begin with: both operands in registers, both of them small integers. -/
def smiOperands (a b : VReg) (fail : BlockId) : Option (Code × Nat × Nat) :=
  match e.readInto a scratch0, e.readInto b scratch1 with
  | some (ca, ra), some (cb, rb) =>
    some (ca ++ cb ++ emitSmiGuard ra fail ++ emitSmiGuard rb fail, ra, rb)
  | _, _ => none

def smiArith (op : SmiOp) (dst a b : VReg) (fail : BlockId) : Option Code :=
  match e.smiOperands a b fail, e.defReg dst rax with
  | some (code, ra, rb), some d => some (code ++ emitSmiOp op d ra rb fail ++ e.storeDef dst d)
  | _, _ => none

def smiCmpBr (op : CmpOp) (a b : VReg) (ifTrue ifFalse fail : BlockId) : Option Code :=
  match e.smiOperands a b fail with
  | some (code, ra, rb) => some (code ++ [.cmp ra rb, .jcc (cmpCond op) ifTrue, .jmp ifFalse])
  | none => none

def smiCmpVal (op : CmpOp) (dst a b : VReg) (fail : BlockId) : Option Code :=
  match e.smiOperands a b fail, e.defReg dst rax with
  | some (code, ra, rb), some d =>
    some (code ++ [.cmp ra rb, .mov d (.lit e.falseLit), .mov scratch0 (.lit e.trueLit),
      .cmov (cmpCond op) d scratch0] ++ e.storeDef dst d)
  | _, _ => none

end Emitter

/-! ## The primitives of the operations -/

def primArith : SmiOp → OopWord → OopWord → PrimResult
  | .add => primAdd
  | .sub => primSub
  | .mul => primMul
  | .and => primBitAnd
  | .or => primBitOr
  | .xor => primBitXor

def primCmp (trueObj falseObj : OopWord) : CmpOp → OopWord → OopWord → PrimResult
  | .lt => primLt trueObj falseObj
  | .le => primLe trueObj falseObj
  | .gt => primGt trueObj falseObj
  | .ge => primGe trueObj falseObj
  | .eq => primEq trueObj falseObj
  | .ne => primNe trueObj falseObj

namespace SmiOp

/-- The exact result. -/
def exact (op : SmiOp) (x y : SmallInt) : Int :=
  match op with
  | .add => x.value.toInt + y.value.toInt
  | .sub => x.value.toInt - y.value.toInt
  | .mul => x.value.toInt * y.value.toInt
  | .and => (x.value &&& y.value).toInt
  | .or => (x.value ||| y.value).toInt
  | .xor => (x.value ^^^ y.value).toInt

/-- The word the machine computes from two tagged words. -/
def word (op : SmiOp) (a b : OopWord) : OopWord :=
  match op with
  | .add => a + b
  | .sub => a - b
  | .mul => a * b.sshiftRight 2
  | .and => a &&& b
  | .or => a ||| b
  | .xor => a ^^^ b

def overflows (op : SmiOp) (a b : OopWord) : Bool :=
  match op with
  | .add => a.saddOverflow b
  | .sub => a.ssubOverflow b
  | .mul => a.smulOverflow (b.sshiftRight 2)
  | .and | .or | .xor => false

end SmiOp

/-! ## Tagged arithmetic -/

section
variable (x y : SmallInt)

/-- A machine result of four times the exact one. -/
theorem ofChecked_ofInt {n : Int} {w : OopWord} {exceeds : Bool} (out : exceeds = true → ¬ InRange n)
    (scaled : ¬ exceeds = true → w.toInt = 4 * n) :
    PrimResult.ofChecked (SmallInt.ofInt n) = if exceeds then .fail else .ok w := by
  split
  · rename_i overflow
    rw [SmallInt.ofInt_eq_none.2 (out overflow)]
    rfl
  · rename_i fits
    have value := scaled fits
    cases found : SmallInt.ofInt n with
    | none =>
      refine absurd ?_ (SmallInt.ofInt_eq_none.1 found)
      have lower := BitVec.le_two_mul_toInt (x := w)
      have upper := BitVec.two_mul_toInt_lt (x := w)
      simp only [InRange, smiMin, smiMax]
      omega
    | some r =>
      have same : r.oop = w := BitVec.eq_of_toInt_eq (by
        rw [r.toInt_oop, SmallInt.toInt_value_ofInt found, value])
      rw [PrimResult.ofChecked, same]

theorem isSmi_and : isSmi (x.oop &&& y.oop) = true := by
  have zero := beq_iff_eq.1 y.tag
  rw [isSmi, BitVec.and_assoc, zero, BitVec.and_zero]
  rfl

theorem isSmi_or : isSmi (x.oop ||| y.oop) = true := by
  have zeroX := beq_iff_eq.1 x.tag
  have zeroY := beq_iff_eq.1 y.tag
  rw [isSmi, BitVec.and_or_distrib_right, zeroX, zeroY]
  rfl

theorem isSmi_xor : isSmi (x.oop ^^^ y.oop) = true := by
  have zeroX := beq_iff_eq.1 x.tag
  have zeroY := beq_iff_eq.1 y.tag
  have distrib : (x.oop ^^^ y.oop) &&& tagMask = (x.oop &&& tagMask) ^^^ (y.oop &&& tagMask) :=
    BitVec.eq_of_getElem_eq (by simp [Bool.and_xor_distrib_right])
  rw [isSmi, distrib, zeroX, zeroY]
  rfl

/-- The value of a word the machine puts together bit by bit. -/
theorem ofNew_bits {v : OopWord} {o : OopWord} (tag : isSmi o = true) (value : o.sshiftRight 2 = v) :
    PrimResult.ofNew v = .ok o ∧ .ok o = PrimResult.ofChecked (SmallInt.ofInt v.toInt) := by
  have own : SmallInt.tryNew v = some ⟨o, tag⟩ := value ▸ SmallInt.tryNew_value ⟨o, tag⟩
  have new : PrimResult.ofNew v = .ok o := by simp only [PrimResult.ofNew, own]
  exact ⟨new, by rw [← SmallInt.tryNew_eq_ofInt rfl, own, PrimResult.ofChecked]⟩

/-- The primitives give the exact result where it fits. -/
theorem primArith_exact (op : SmiOp) :
    primArith op x.oop y.oop = .ofChecked (SmallInt.ofInt (op.exact x y)) := by
  cases op with
  | add => exact (prim2_oop ..).trans (congrArg _ (x.checkedAdd_eq y))
  | sub => exact (prim2_oop ..).trans (congrArg _ (x.checkedSub_eq y))
  | mul => exact (prim2_oop ..).trans (congrArg _ (x.checkedMul_eq y))
  | and =>
    obtain ⟨new, found⟩ := ofNew_bits (isSmi_and x y) (BitVec.sshiftRight_and_distrib ..)
    exact (prim2_oop ..).trans (new.trans found)
  | or =>
    obtain ⟨new, found⟩ := ofNew_bits (isSmi_or x y) (BitVec.sshiftRight_or_distrib ..)
    exact (prim2_oop ..).trans (new.trans found)
  | xor =>
    obtain ⟨new, found⟩ := ofNew_bits (isSmi_xor x y) (BitVec.sshiftRight_xor_distrib ..)
    exact (prim2_oop ..).trans (new.trans found)

/-- The machine works on tagged words, with one factor untagged: it overflows exactly where the
primitive fails. -/
theorem primArith_oop (op : SmiOp) : primArith op x.oop y.oop =
    if op.overflows x.oop y.oop then .fail else .ok (op.word x.oop y.oop) := by
  have scaleX := x.toInt_oop
  have scaleY := y.toInt_oop
  rw [primArith_exact]
  cases op with
  | add =>
    refine ofChecked_ofInt (fun exceeds => ?_) fun fits => ?_
    · simp only [SmiOp.overflows, BitVec.saddOverflow, Bool.or_eq_true, decide_eq_true_eq] at exceeds
      simp only [SmiOp.exact, InRange, smiMin, smiMax]
      omega
    · rw [SmiOp.word, BitVec.toInt_add_of_not_saddOverflow fits, scaleX, scaleY, SmiOp.exact]
      ring
  | sub =>
    refine ofChecked_ofInt (fun exceeds => ?_) fun fits => ?_
    · simp only [SmiOp.overflows, BitVec.ssubOverflow, Bool.or_eq_true, decide_eq_true_eq] at exceeds
      simp only [SmiOp.exact, InRange, smiMin, smiMax]
      omega
    · rw [SmiOp.word, BitVec.toInt_sub_of_not_ssubOverflow fits, scaleX, scaleY, SmiOp.exact]
      ring
  | mul =>
    have product : x.oop.toInt * (y.oop.sshiftRight 2).toInt =
        4 * (x.value.toInt * y.value.toInt) := by
      rw [show y.oop.sshiftRight 2 = y.value from rfl, scaleX]
      ring
    refine ofChecked_ofInt (fun exceeds => ?_) fun fits => ?_
    · simp only [SmiOp.overflows, BitVec.smulOverflow, product, Bool.or_eq_true,
        decide_eq_true_eq] at exceeds
      simp only [SmiOp.exact, InRange, smiMin, smiMax]
      omega
    · rw [SmiOp.word, BitVec.toInt_mul_of_not_smulOverflow fits, product, SmiOp.exact]
  | and => exact (ofNew_bits (isSmi_and x y) (BitVec.sshiftRight_and_distrib ..)).2.symm
  | or => exact (ofNew_bits (isSmi_or x y) (BitVec.sshiftRight_or_distrib ..)).2.symm
  | xor => exact (ofNew_bits (isSmi_xor x y) (BitVec.sshiftRight_xor_distrib ..)).2.symm

end

/-! ## Where values are -/

/-- The registers vregs live in; the emitter's scratches are not among them. -/
def IsHome (r : Nat) : Prop := r ∈ RegFile.x64.allocatable ∨ r ∈ RegFile.x64.residencyCandidates

theorem IsHome.ne {r : Nat} (home : IsHome r) : r ≠ rax ∧ r ≠ scratch0 ∧ r ≠ scratch1 := by
  have apart : ∀ r ∈ RegFile.x64.allocatable ++ RegFile.x64.residencyCandidates,
      r ≠ rax ∧ r ≠ scratch0 ∧ r ≠ scratch1 := by decide
  exact apart r (List.mem_append.2 home)

namespace Emitter

variable (e : Emitter)

/-- A vreg holds a word: in its register, or in its slot with the resident register and the
rematerialised constant agreeing. -/
def Holds (s : Cpu Nat) (v : VReg) (w : OopWord) : Prop :=
  match e.assignment v with
  | some (.reg r) => s.reg r = w
  | some (.spill slot) =>
    s.slot slot = w ∧ (∀ r, e.resident v = some r → s.reg r = w) ∧
      ∀ tagged, e.constSmiRemat v = some tagged → tagged = w
  | none => False

variable {e} {pool : Nat → OopWord} {s s' : Cpu Nat} {v : VReg} {w : OopWord}

theorem isHome_resident {r : Nat} (home : e.resident v = some r) : IsHome r :=
  .inr (e.homes v r home)

theorem isHome_reg {r : Nat} (assigned : e.assignment v = some (.reg r)) : IsHome r :=
  .inl (e.assigned v r assigned)

/-- What a vreg holds does not hang on the scratch registers. -/
theorem Holds.frame (holds : e.Holds s v w) (slots : s'.slot = s.slot)
    (regs : ∀ r, IsHome r → s'.reg r = s.reg r) : e.Holds s' v w := by
  unfold Holds at holds ⊢
  split
  · rename_i r assigned
    rw [assigned] at holds
    rw [regs r (isHome_reg assigned)]
    exact holds
  · rename_i slot assigned
    rw [assigned] at holds
    obtain ⟨inSlot, inReg, remat⟩ := holds
    exact ⟨by rw [slots, inSlot], fun r home => by rw [regs r (isHome_resident home), inReg r home],
      remat⟩
  · rename_i none
    rw [none] at holds
    exact holds

/-- Reading a vreg puts its word into a register and changes the scratch register at most. -/
theorem readInto_run (pool : Nat → OopWord) (holds : e.Holds s v w) (scratch : Nat) :
    ∃ code r s', e.readInto v scratch = some (code, r) ∧ run pool s code = (s', none) ∧
      s'.reg r = w ∧ s'.slot = s.slot ∧ (∀ r', r' ≠ scratch → s'.reg r' = s.reg r') ∧
      (r = scratch ∨ IsHome r) := by
  unfold readInto
  unfold Holds at holds
  cases home : e.resident v with
  | some r =>
    obtain ⟨slot, assigned⟩ := e.spilled v r home
    rw [assigned] at holds
    exact ⟨[], r, s, rfl, rfl, holds.2.1 r home, rfl, fun _ _ => rfl, .inr (isHome_resident home)⟩
  | none =>
    cases assigned : e.assignment v with
    | none => simp [assigned] at holds
    | some a =>
      rw [assigned] at holds
      cases a with
      | reg r =>
        exact ⟨[], r, s, rfl, rfl, holds, rfl, fun _ _ => rfl, .inr (isHome_reg assigned)⟩
      | spill slot =>
        obtain ⟨inSlot, -, remat⟩ := holds
        cases const : e.constSmiRemat v with
        | some tagged =>
          exact ⟨[.mov scratch (.imm tagged)], scratch, s.set scratch tagged, rfl, rfl,
            set_reg_self.trans (remat tagged const), rfl, fun r' ne => set_reg_ne ne, .inl rfl⟩
        | none =>
          exact ⟨[.mov scratch (.slot slot)], scratch, s.set scratch (s.slot slot), rfl, rfl,
            set_reg_self.trans inSlot, rfl, fun r' ne => set_reg_ne ne, .inl rfl⟩

theorem defReg_of_assigned (assigned : e.assignment v ≠ none) :
    ∃ d, e.defReg v rax = some d ∧ d ≠ scratch0 ∧ d ≠ scratch1 := by
  unfold defReg
  cases found : e.assignment v with
  | none => exact absurd found assigned
  | some a =>
    cases a with
    | reg r => exact ⟨r, rfl, (isHome_reg found).ne.2⟩
    | spill slot => exact ⟨rax, rfl, by decide⟩

/-- A definition ends with the vreg holding what its register holds. -/
theorem storeDef_run (pool : Nat → OopWord) {d : Nat} (defined : e.defReg v rax = some d)
    (notConst : e.constSmiRemat v = none) (value : s.reg d = w) :
    ∃ s', run pool s (e.storeDef v d) = (s', none) ∧ e.Holds s' v w := by
  unfold defReg at defined
  unfold storeDef
  cases found : e.assignment v with
  | none => simp [found] at defined
  | some a =>
    rw [found] at defined
    cases a with
    | reg r =>
      obtain rfl := Option.some.inj defined
      exact ⟨s, rfl, by simp only [Holds, found, value]⟩
    | spill slot =>
      have stored : (s.put slot (s.reg d)).slot slot = w := put_slot_self.trans value
      cases home : e.resident v with
      | none =>
        refine ⟨s.put slot (s.reg d), rfl, ?_⟩
        simp only [Holds, found]
        exact ⟨stored, by simp [home], by simp [notConst]⟩
      | some r =>
        by_cases same : r = d
        · refine ⟨s.put slot (s.reg d), by simp [same, run, exec], ?_⟩
          simp only [Holds, found]
          refine ⟨stored, fun r' home' => ?_, by simp [notConst]⟩
          obtain rfl := Option.some.inj (home.symm.trans home')
          rw [put_reg, same, value]
        · refine ⟨(s.put slot (s.reg d)).set r (s.reg d), by simp [same, run, exec, Src.read], ?_⟩
          simp only [Holds, found]
          refine ⟨stored, fun r' home' => ?_, by simp [notConst]⟩
          obtain rfl := Option.some.inj (home.symm.trans home')
          exact set_reg_self.trans value

end Emitter

/-! ## The emitted sequences -/

section
variable {pool : Nat → OopWord} {s : Cpu Nat} {d ra rb : Nat} {fail : BlockId}

theorem emitSmiGuard_run (pool : Nat → OopWord) (s : Cpu Nat) (fail : BlockId) (r : Nat) :
    ∃ s', run pool s (emitSmiGuard r fail) =
      (s', if isSmi (s.reg r) then none else some fail) ∧ s'.reg = s.reg := by
  refine ⟨{ s with flags := flagsOf (s.reg r &&& 3#64) false }, ?_, rfl⟩
  by_cases tag : s.reg r &&& 3#64 = 0#64
  · simp [emitSmiGuard, run, exec, Cond.holds, flagsOf, isSmi, tagMask, tag]
  · simp [emitSmiGuard, run, exec, Cond.holds, flagsOf, isSmi, tagMask, tag]

theorem value_comm {op : Alu} (swaps : op ≠ .sub) (a b : OopWord) : op.value a b = op.value b a := by
  cases op with
  | add => exact BitVec.add_comm a b
  | sub => exact absurd rfl swaps
  | imul => exact BitVec.mul_comm a b
  | and => exact BitVec.and_comm a b
  | or => exact BitVec.or_comm a b
  | xor => exact BitVec.xor_comm a b

theorem overflows_comm {op : Alu} (swaps : op ≠ .sub) (a b : OopWord) :
    op.overflows a b = op.overflows b a := by
  cases op with
  | add => simp only [Alu.overflows, BitVec.saddOverflow, Int.add_comm]
  | sub => exact absurd rfl swaps
  | imul => simp only [Alu.overflows, BitVec.smulOverflow, Int.mul_comm]
  | and | or | xor => rfl

/-- Whichever registers coincide, the destination gets `a op b`. -/
theorem emitTwoAddress_run {op : Alu} {commutative : Bool}
    (swaps : commutative = true → op ≠ .sub) (apart : d ≠ scratch1) :
    ∃ s', run pool s (emitTwoAddress op commutative d ra rb) = (s', none) ∧
      s'.reg d = op.value (s.reg ra) (s.reg rb) ∧
      s'.flags.of = op.overflows (s.reg ra) (s.reg rb) := by
  unfold emitTwoAddress
  split
  · rename_i same
    subst same
    cases commutative with
    | true =>
      refine ⟨_, rfl, ?_, ?_⟩
      · rw [value_comm (swaps rfl)]
        exact set_reg_self
      · rw [overflows_comm (swaps rfl)]
        rfl
    | false =>
      refine ⟨_, rfl, ?_, ?_⟩
      · simp [Src.read, set_reg_ne apart]
      · simp [Src.read, set_reg_ne apart, flagsOf]
  · rename_i other
    have kept : ∀ w, (s.set d w).reg rb = s.reg rb := fun w => set_reg_ne (Ne.symm other)
    split
    · refine ⟨_, rfl, ?_, ?_⟩
      · simp [Src.read, kept]
      · simp [Src.read, kept, flagsOf]
    · rename_i same
      obtain rfl : d = ra := not_not.1 same
      exact ⟨_, rfl, set_reg_self, rfl⟩

/-- A two-address operation with its overflow test. -/
theorem emitTwoAddress_jo {op : Alu} {commutative : Bool}
    (swaps : commutative = true → op ≠ .sub) (apart : d ≠ scratch1) :
    ∃ s', run pool s (emitTwoAddress op commutative d ra rb ++ [.jcc .o fail]) =
        (s', if op.overflows (s.reg ra) (s.reg rb) then some fail else none) ∧
      s'.reg d = op.value (s.reg ra) (s.reg rb) := by
  obtain ⟨s', falls, value, overflow⟩ := emitTwoAddress_run swaps apart
  refine ⟨s', ?_, value⟩
  rw [run_append falls, ← overflow]
  cases exceeds : s'.flags.of <;> simp [run, exec, Cond.holds, exceeds]

/-- The bitwise operations cannot overflow and are not tested. -/
theorem emitBits_run (op : Alu) (swaps : op ≠ .sub) (apart : d ≠ scratch1) :
    ∃ s', run pool s (emitTwoAddress op true d ra rb) = (s', if false then some fail else none) ∧
      s'.reg d = op.value (s.reg ra) (s.reg rb) := by
  obtain ⟨s', falls, value, -⟩ := emitTwoAddress_run (fun _ => swaps) apart
  exact ⟨s', falls, value⟩

theorem emitSmiOp_run (op : SmiOp) (apart : d ≠ scratch1) (apartA : ra ≠ scratch1) :
    ∃ s', run pool s (emitSmiOp op d ra rb fail) =
        (s', if op.overflows (s.reg ra) (s.reg rb) then some fail else none) ∧
      s'.reg d = op.word (s.reg ra) (s.reg rb) := by
  cases op with
  | add => exact emitTwoAddress_jo (fun _ => nofun) apart
  | sub => exact emitTwoAddress_jo nofun apart
  | mul =>
    obtain ⟨u, untag, untagged, kept⟩ : ∃ u, run pool s
          ([.mov scratch1 (.reg rb), .sar scratch1 2] : Code) = (u, none) ∧
        u.reg scratch1 = (s.reg rb).sshiftRight 2 ∧ u.reg ra = s.reg ra :=
      ⟨_, rfl, by simp [Src.read], by simp [Src.read, set_reg_ne apartA]⟩
    have product : ∃ s', run pool u (emitTwoAddress .imul true d ra scratch1 ++ [.jcc .o fail]) =
          (s', if Alu.imul.overflows (u.reg ra) (u.reg scratch1) then some fail else none) ∧
        s'.reg d = Alu.imul.value (u.reg ra) (u.reg scratch1) :=
      emitTwoAddress_jo (fun _ => nofun) apart
    rw [untagged, kept] at product
    rw [emitSmiOp, List.append_assoc, run_append untag]
    exact product
  | and => exact emitBits_run .and nofun apart
  | or => exact emitBits_run .or nofun apart
  | xor => exact emitBits_run .xor nofun apart

end

/-! ## Refinement -/

namespace Emitter

variable {e : Emitter} {pool : Nat → OopWord} {s : Cpu Nat} {x y dst : VReg} {a b : OopWord}
  {fail : BlockId}

/-- Two operands that hold `a` and `b` reach registers, and the code leaves unless both are tagged. -/
theorem smiOperands_run (pool : Nat → OopWord) (fail : BlockId) (holdsX : e.Holds s x a) (holdsY : e.Holds s y b) :
    ∃ code ra rb s', e.smiOperands x y fail = some (code, ra, rb) ∧
      run pool s code = (s', if isSmi a && isSmi b then none else some fail) ∧
      s'.reg ra = a ∧ s'.reg rb = b ∧ ra ≠ scratch1 := by
  obtain ⟨codeX, ra, s₁, readX, runX, valueX, slots, kept, placeX⟩ :=
    readInto_run pool holdsX scratch0
  have holdsY' : e.Holds s₁ y b := holdsY.frame slots fun r home => kept r home.ne.2.1
  obtain ⟨codeY, rb, s₂, readY, runY, valueY, -, kept', -⟩ :=
    readInto_run pool holdsY' scratch1
  have apart : ra ≠ scratch1 := by
    rcases placeX with rfl | home
    · decide
    · exact home.ne.2.2
  have valueX' : s₂.reg ra = a := (kept' ra apart).trans valueX
  obtain ⟨s₃, guardX, regs⟩ := emitSmiGuard_run pool s₂ fail ra
  obtain ⟨s₄, guardY, regs'⟩ := emitSmiGuard_run pool s₃ fail rb
  rw [valueX'] at guardX
  rw [regs, valueY] at guardY
  have reads : run pool s (codeX ++ codeY) = (s₂, none) := by rw [run_append runX, runY]
  have found : e.smiOperands x y fail =
      some (codeX ++ codeY ++ emitSmiGuard ra fail ++ emitSmiGuard rb fail, ra, rb) := by
    simp only [smiOperands, readX, readY]
  cases tagA : isSmi a with
  | false =>
    rw [tagA] at guardX
    refine ⟨_, ra, rb, s₃, found, ?_, by rw [regs, valueX'], by rw [regs, valueY], apart⟩
    rw [List.append_assoc, run_append reads]
    exact run_append_left guardX
  | true =>
    rw [tagA] at guardX
    refine ⟨_, ra, rb, s₄, found, ?_, by rw [regs', regs, valueX'], by rw [regs', regs, valueY],
      apart⟩
    rw [List.append_assoc, run_append reads, run_append guardX, guardY, Bool.true_and]

/-- The emitted code computes a primitive's result into `dst`, and leaves where it fails. -/
def Yields (e : Emitter) (pool : Nat → OopWord) (s : Cpu Nat) (dst : VReg) (fail : BlockId)
    (code : Option Code) : PrimResult → Prop
  | .ok r => ∃ c s', code = some c ∧ run pool s c = (s', none) ∧ e.Holds s' dst r
  | .fail => ∃ c s', code = some c ∧ run pool s c = (s', some fail)
  | .panicked => False

theorem smiArith_yields (op : SmiOp) (holdsX : e.Holds s x a) (holdsY : e.Holds s y b)
    (assigned : e.assignment dst ≠ none) (notConst : e.constSmiRemat dst = none) :
    e.Yields pool s dst fail (e.smiArith op dst x y fail) (primArith op a b) := by
  obtain ⟨d, defined, -, apart⟩ := defReg_of_assigned assigned
  obtain ⟨code, ra, rb, s', found, runs, valueX, valueY, apartA⟩ :=
    smiOperands_run pool fail holdsX holdsY
  have emitted : e.smiArith op dst x y fail =
      some (code ++ emitSmiOp op d ra rb fail ++ e.storeDef dst d) := by
    simp only [smiArith, found, defined]
  obtain ⟨u, v, rfl, rfl⟩ | ⟨untagged, fails⟩ := smi2_cases a b
  · rw [u.tag, v.tag] at runs
    obtain ⟨s'', leaves, value⟩ : ∃ s'', run pool s' (emitSmiOp op d ra rb fail) =
          (s'', if op.overflows (s'.reg ra) (s'.reg rb) then some fail else none) ∧
        s''.reg d = op.word (s'.reg ra) (s'.reg rb) := emitSmiOp_run op apart apartA
    rw [valueX, valueY] at leaves value
    have ends : run pool s (code ++ emitSmiOp op d ra rb fail) = _ := (run_append runs).trans leaves
    rw [primArith_oop]
    cases exceeds : op.overflows u.oop v.oop with
    | true =>
      rw [exceeds] at ends
      exact ⟨_, s'', emitted, run_append_left ends⟩
    | false =>
      rw [exceeds] at ends
      obtain ⟨s₃, stores, holds⟩ := storeDef_run pool defined notConst value
      exact ⟨_, s₃, emitted, (run_append ends).trans stores, holds⟩
  · have fail_ : primArith op a b = .fail := by cases op <;> exact fails _
    rw [untagged] at runs
    rw [fail_]
    exact ⟨_, s', emitted, run_append_left (run_append_left runs)⟩

/-! ## Comparisons -/

theorem compares_oop (c : Cond) (u v : SmallInt) :
    c.compares u.oop.toInt v.oop.toInt = c.compares u.value.toInt v.value.toInt := by
  rw [u.toInt_oop, v.toInt_oop]
  cases c <;> simp only [Cond.compares, decide_eq_decide] <;> omega

theorem cmpCond_signed (op : CmpOp) : cmpCond op ≠ .o := by cases op <;> nofun

theorem primCmp_oop (trueObj falseObj : OopWord) (op : CmpOp) (u v : SmallInt) :
    primCmp trueObj falseObj op u.oop v.oop =
      .ok (if (cmpCond op).compares u.value.toInt v.value.toInt then trueObj else falseObj) := by
  cases op <;> exact prim2_oop ..

/-- `cmp` and the condition decide as the primitive does. -/
theorem holds_cmpCond (op : CmpOp) (u v : SmallInt) :
    (cmpCond op).holds (flagsOf (u.oop - v.oop) (u.oop.ssubOverflow v.oop)) =
      (cmpCond op).compares u.value.toInt v.value.toInt := by
  rw [holds_cmp (cmpCond_signed op), compares_oop]

/-- The emitted code goes where the primitive's answer says, and leaves where it fails. -/
def Branches (pool : Nat → OopWord) (s : Cpu Nat) (trueObj : OopWord) (ifTrue ifFalse fail : BlockId)
    (code : Option Code) : PrimResult → Prop
  | .ok r => ∃ c s', code = some c ∧
      run pool s c = (s', some (if r = trueObj then ifTrue else ifFalse))
  | .fail => ∃ c s', code = some c ∧ run pool s c = (s', some fail)
  | .panicked => False

theorem smiCmpBr_branches (op : CmpOp) {trueObj falseObj : OopWord} (distinct : trueObj ≠ falseObj)
    {ifTrue ifFalse : BlockId} (holdsX : e.Holds s x a) (holdsY : e.Holds s y b) :
    Branches pool s trueObj ifTrue ifFalse fail (e.smiCmpBr op x y ifTrue ifFalse fail)
      (primCmp trueObj falseObj op a b) := by
  obtain ⟨code, ra, rb, s', found, runs, valueX, valueY, -⟩ :=
    smiOperands_run pool fail holdsX holdsY
  have emitted : e.smiCmpBr op x y ifTrue ifFalse fail =
      some (code ++ [.cmp ra rb, .jcc (cmpCond op) ifTrue, .jmp ifFalse]) := by
    simp only [smiCmpBr, found]
  obtain ⟨u, v, rfl, rfl⟩ | ⟨untagged, fails⟩ := smi2_cases a b
  · rw [u.tag, v.tag] at runs
    rw [primCmp_oop]
    have tail : ∃ t, run pool s'
          ([.cmp ra rb, .jcc (cmpCond op) ifTrue, .jmp ifFalse] : Code) = (t, some
        (if (cmpCond op).compares u.value.toInt v.value.toInt then ifTrue else ifFalse)) := by
      simp only [run, exec, valueX, valueY, holds_cmpCond]
      cases (cmpCond op).compares u.value.toInt v.value.toInt with
      | true => exact ⟨_, rfl⟩
      | false => exact ⟨_, rfl⟩
    obtain ⟨t, leaves⟩ := tail
    refine ⟨_, t, emitted, (run_append runs).trans (leaves.trans ?_)⟩
    cases (cmpCond op).compares u.value.toInt v.value.toInt with
    | true => simp
    | false => simp [Ne.symm distinct]
  · have fail_ : primCmp trueObj falseObj op a b = .fail := by cases op <;> exact fails _
    rw [untagged] at runs
    rw [fail_]
    exact ⟨_, s', emitted, run_append_left runs⟩

theorem smiCmpVal_yields (op : CmpOp) (holdsX : e.Holds s x a) (holdsY : e.Holds s y b)
    (assigned : e.assignment dst ≠ none) (notConst : e.constSmiRemat dst = none) :
    e.Yields pool s dst fail (e.smiCmpVal op dst x y fail)
      (primCmp (pool e.trueLit) (pool e.falseLit) op a b) := by
  obtain ⟨d, defined, apart, -⟩ := defReg_of_assigned assigned
  obtain ⟨code, ra, rb, s', found, runs, valueX, valueY, -⟩ :=
    smiOperands_run pool fail holdsX holdsY
  have emitted : e.smiCmpVal op dst x y fail = some (code ++ [.cmp ra rb, .mov d (.lit e.falseLit),
      .mov scratch0 (.lit e.trueLit), .cmov (cmpCond op) d scratch0] ++ e.storeDef dst d) := by
    simp only [smiCmpVal, found, defined]
  obtain ⟨u, v, rfl, rfl⟩ | ⟨untagged, fails⟩ := smi2_cases a b
  · rw [u.tag, v.tag] at runs
    rw [primCmp_oop]
    -- `cmov` overwrites the `false` in `d` with the `true` in the scratch register
    have selects : ∃ t, run pool s' ([.cmp ra rb, .mov d (.lit e.falseLit),
          .mov scratch0 (.lit e.trueLit), .cmov (cmpCond op) d scratch0] : Code) = (t, none) ∧
        t.reg d = if (cmpCond op).compares u.value.toInt v.value.toInt then pool e.trueLit
          else pool e.falseLit := by
      simp only [run, exec, Src.read, valueX, valueY, set_flags, holds_cmpCond]
      cases (cmpCond op).compares u.value.toInt v.value.toInt with
      | true => exact ⟨_, rfl, by simp⟩
      | false => exact ⟨_, rfl, by simp [set_reg_ne apart]⟩
    obtain ⟨t, falls, value⟩ := selects
    obtain ⟨s'', stores, holds⟩ := storeDef_run pool defined notConst value
    exact ⟨_, s'', emitted, (run_append ((run_append runs).trans falls)).trans stores, holds⟩
  · have fail_ : primCmp (pool e.trueLit) (pool e.falseLit) op a b = .fail := by
      cases op <;> exact fails _
    rw [untagged] at runs
    rw [fail_]
    exact ⟨_, s', emitted, run_append_left (run_append_left runs)⟩

/-- An arithmetic primitive answers the exact result, and fails where an operand is no small integer
or the result has none. -/
theorem primArith_cases (op : SmiOp) (a b : OopWord) :
    (primArith op a b = .fail ↔ (isSmi a && isSmi b) = false ∨
      ∃ u v : SmallInt, a = u.oop ∧ b = v.oop ∧ ¬ InRange (op.exact u v)) ∧
    ∀ r, primArith op a b = .ok r → ∃ u v z : SmallInt, a = u.oop ∧ b = v.oop ∧ r = z.oop ∧
      z.value.toInt = op.exact u v := by
  obtain ⟨u, v, rfl, rfl⟩ | ⟨untagged, fails⟩ := smi2_cases a b
  · rw [primArith_exact, PrimResult.ofChecked_eq_fail, SmallInt.ofInt_eq_none]
    refine ⟨⟨fun out => .inr ⟨u, v, rfl, rfl, out⟩, ?_⟩, fun r answer => ?_⟩
    · rintro (untagged | ⟨u', v', sameU, sameV, out⟩)
      · rw [u.tag, v.tag] at untagged
        cases untagged
      · have same : ∀ p q : SmallInt, p.oop = q.oop → p = q := fun p q h => by
          cases p; cases q; cases h; rfl
        rwa [same u u' sameU, same v v' sameV]
    · cases found : SmallInt.ofInt (op.exact u v) with
      | none => simp [found, PrimResult.ofChecked] at answer
      | some z =>
        rw [found] at answer
        cases answer
        exact ⟨u, v, z, rfl, rfl, rfl, SmallInt.toInt_value_ofInt found⟩
  · have fail_ : primArith op a b = .fail := by cases op <;> exact fails _
    exact ⟨⟨fun _ => .inl untagged, fun _ => fail_⟩, fun r answer => by simp [fail_] at answer⟩

/-- The emitted operations do as the primitives on every pair of words, the arithmetic primitives are
exact, and division and shift keep the laws of the integers. -/
theorem smallInteger_refines (holdsX : e.Holds s x a) (holdsY : e.Holds s y b)
    (assigned : e.assignment dst ≠ none) (notConst : e.constSmiRemat dst = none) :
    (∀ op, e.Yields pool s dst fail (e.smiArith op dst x y fail) (primArith op a b)) ∧
    (∀ op, (primArith op a b = .fail ↔ (isSmi a && isSmi b) = false ∨
        ∃ u v : SmallInt, a = u.oop ∧ b = v.oop ∧ ¬ InRange (op.exact u v)) ∧
      ∀ r, primArith op a b = .ok r → ∃ u v z : SmallInt, a = u.oop ∧ b = v.oop ∧ r = z.oop ∧
        z.value.toInt = op.exact u v) ∧
    (∀ op trueObj falseObj ifTrue ifFalse, trueObj ≠ falseObj →
      Branches pool s trueObj ifTrue ifFalse fail (e.smiCmpBr op x y ifTrue ifFalse fail)
        (primCmp trueObj falseObj op a b)) ∧
    (∀ op, e.Yields pool s dst fail (e.smiCmpVal op dst x y fail)
      (primCmp (pool e.trueLit) (pool e.falseLit) op a b)) ∧
    (∀ u v : SmallInt, v.value.toInt ≠ 0 → ∃ q r, Floored u.value.toInt v.value.toInt q r ∧
      InRange r ∧ primDiv u.oop v.oop = .ofChecked (SmallInt.ofInt q) ∧
      primMod u.oop v.oop = .ofChecked (SmallInt.ofInt r)) ∧
    (∀ u v : SmallInt, v.value.toInt = 0 →
      primDiv u.oop v.oop = .fail ∧ primMod u.oop v.oop = .fail) ∧
    (∀ r c : SmallInt, -61 ≤ c.value.toInt → c.value.toInt ≤ 61 → primBitShift r.oop c.oop =
      .ofChecked (SmallInt.ofInt ⌊(r.value.toInt : ℚ) * 2 ^ c.value.toInt⌋)) :=
  ⟨fun op => smiArith_yields op holdsX holdsY assigned notConst, fun op => primArith_cases op a b,
    fun op _ _ _ _ distinct => smiCmpBr_branches op distinct holdsX holdsY,
    fun op => smiCmpVal_yields op holdsX holdsY assigned notConst, primDiv_primMod_floored,
    primDiv_primMod_zero, primBitShift_eq⟩

end Emitter

/-- Vreg 0 in `RCX`, vreg 1 in slot 0 with its home in `R12`, vreg 2 in slot 1. -/
def threeVRegs : Emitter where
  assignment
    | 0 => some (.reg 1)
    | 1 => some (.spill 0)
    | 2 => some (.spill 1)
    | _ => none
  resident
    | 1 => some 12
    | _ => none
  constSmiRemat _ := none
  falseLit := 0
  trueLit := 1
  assigned v r found := by
    match v with
    | 0 => cases found; decide
    | 1 | 2 | _ + 3 => cases found
  spilled v r found := by
    match v with
    | 1 => exact ⟨0, rfl⟩
    | 0 | _ + 2 => cases found
  homes v r found := by
    match v with
    | 1 => cases found; decide
    | 0 | _ + 2 => cases found

def fiveAndThree : Cpu Nat where
  reg
    | 1 => 20#64
    | 12 => 12#64
    | _ => 0#64
  slot
    | 0 => 12#64
    | _ => 0#64
  flags := ⟨false, false, false⟩

/-- The oops of `false` and `true`. -/
def truthPool (l : Nat) : OopWord := if l = 0 then 0x101#64 else 0x201#64

/-- Five and three: the sum, the product and the comparison of the tagged words. -/
theorem smallInteger_refines_five_three :
    threeVRegs.Yields truthPool fiveAndThree 2 9 (threeVRegs.smiArith .add 2 0 1 9) (.ok 32#64) ∧
      threeVRegs.Yields truthPool fiveAndThree 2 9 (threeVRegs.smiArith .mul 2 0 1 9) (.ok 60#64) ∧
      threeVRegs.Yields truthPool fiveAndThree 2 9 (threeVRegs.smiCmpVal .lt 2 0 1 9)
        (.ok 0x101#64) := by
  have holdsX : threeVRegs.Holds fiveAndThree 0 20#64 := rfl
  have holdsY : threeVRegs.Holds fiveAndThree 1 12#64 :=
    ⟨rfl, fun r home => by cases home; rfl, nofun⟩
  obtain ⟨arith, -, -, cmp, -⟩ : (∀ op, threeVRegs.Yields truthPool fiveAndThree 2 9
      (threeVRegs.smiArith op 2 0 1 9) (primArith op 20#64 12#64)) ∧ _ :=
    Emitter.smallInteger_refines holdsX holdsY nofun rfl
  have sum : primArith .add 20#64 12#64 = .ok 32#64 := by decide
  have product : primArith .mul 20#64 12#64 = .ok 60#64 := by decide
  have less : primCmp (truthPool 1) (truthPool 0) .lt 20#64 12#64 = .ok 0x101#64 := by decide
  exact ⟨sum ▸ arith .add, product ▸ arith .mul, less ▸ cmp .lt⟩

end WinVm.Compiler
