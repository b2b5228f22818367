import Mathlib.Data.Rat.Floor
import Mathlib.Data.Int.Basic
import Mathlib.Tactic.Linarith
import Mathlib.Tactic.Ring

/-!
# SmallInteger

`SmallInt` of `oops/smi.rs` and the SmallInteger primitives of `runtime/primitives.rs`. A small
integer is a 64-bit word whose two tag bits are zero, holding a 62-bit value. The primitives work
on the values, as signed 64-bit integers (128-bit ones where they shift), and fail where the
result does not fit.

Results:

* `value_tryNew`, `tryNew_value`: words and values correspond.
* `checkedAdd_eq` and its siblings: a checked operation is the exact one cut to the range (`ofInt`).
* `primDiv_primMod_floored`, `primBitShift_eq`: the integer laws of the primitives.
-/

namespace WinVm.Interpreter

abbrev OopWord := BitVec 64

/-! ## `oops/smi.rs` -/

def tagMask : OopWord := 3#64

def isSmi (o : OopWord) : Bool := o &&& tagMask == 0#64

def smiMax : Int := 2 ^ 61 - 1
def smiMin : Int := -2 ^ 61

def InRange (n : Int) : Prop := smiMin ≤ n ∧ n ≤ smiMax

instance (n : Int) : Decidable (InRange n) := inferInstanceAs (Decidable (_ ∧ _))

/-- A word with a zero tag. -/
structure SmallInt where
  oop : OopWord
  tag : isSmi oop = true
deriving DecidableEq

theorem isSmi_shiftLeft (v : OopWord) : isSmi (v <<< 2) = true := by
  rw [isSmi, beq_iff_eq]
  apply BitVec.eq_of_getLsbD_eq
  intro i lt
  rcases Nat.lt_or_ge i 2 with low | high
  · simp [BitVec.getLsbD_shiftLeft, low]
  · have clear : tagMask.getLsbD i = false := by
      rw [tagMask, BitVec.getLsbD_ofNat, show 3 = 2 ^ 2 - 1 from rfl, Nat.testBit_two_pow_sub_one]
      simp [Nat.not_lt.mpr high]
    rw [BitVec.getLsbD_and, clear, Bool.and_false, BitVec.getLsbD_zero]

namespace SmallInt

def value (a : SmallInt) : OopWord := a.oop.sshiftRight 2

/-- `None` out of range. -/
def tryNew (v : OopWord) : Option SmallInt :=
  if InRange v.toInt then some ⟨v <<< 2, isSmi_shiftLeft v⟩ else none

def tryFrom (o : OopWord) : Option SmallInt :=
  if tag : isSmi o = true then some ⟨o, tag⟩ else none

variable (a b : SmallInt)

def checkedAdd : Option SmallInt :=
  if a.value.saddOverflow b.value then none else tryNew (a.value + b.value)

def checkedSub : Option SmallInt :=
  if a.value.ssubOverflow b.value then none else tryNew (a.value - b.value)

def checkedMul : Option SmallInt :=
  if a.value.smulOverflow b.value then none else tryNew (a.value * b.value)

end SmallInt

/-- Truncating division, adjusted where the remainder's sign is not the divisor's. -/
def floorDiv (a b : OopWord) : OopWord :=
  let q := a.sdiv b
  let r := a.srem b
  if r ≠ 0#64 ∧ r.slt 0#64 ≠ b.slt 0#64 then q - 1#64 else q

def floorMod (a b : OopWord) : OopWord :=
  let r := a.srem b
  if r ≠ 0#64 ∧ r.slt 0#64 ≠ b.slt 0#64 then r + b else r

namespace SmallInt

variable (a b : SmallInt)

def checkedDiv : Option SmallInt :=
  if b.value = 0#64 then none else tryNew (floorDiv a.value b.value)

def checkedRem : Option SmallInt :=
  if b.value = 0#64 then none else tryNew (floorMod a.value b.value)

/-- A left shift in 128 bits. -/
def checkedShl (by_ : Nat) : Option SmallInt :=
  if 64 ≤ by_ then none
  else
    let shifted : BitVec 128 := a.value.signExtend 128 <<< by_
    if smiMax < shifted.toInt ∨ shifted.toInt < smiMin then none
    else tryNew (shifted.setWidth 64)

end SmallInt

/-! ## `runtime/primitives.rs` -/

/-- `panicked` is `SmallInt::new` out of range. -/
inductive PrimResult where
  | ok (oop : OopWord)
  | fail
  | panicked
deriving DecidableEq, Repr

/-- A `checked` operation as a primitive's result. -/
def PrimResult.ofChecked : Option SmallInt → PrimResult
  | some r => .ok r.oop
  | none => .fail

/-- `SmallInt::new(v).oop()`. -/
def PrimResult.ofNew (v : OopWord) : PrimResult :=
  match SmallInt.tryNew v with
  | some r => .ok r.oop
  | none => .panicked

def smi2 (a b : OopWord) : Option (SmallInt × SmallInt) :=
  match SmallInt.tryFrom a, SmallInt.tryFrom b with
  | some a, some b => some (a, b)
  | _, _ => none

/-- The primitives that take two small integers and fail otherwise. -/
def prim2 (f : SmallInt → SmallInt → PrimResult) (a b : OopWord) : PrimResult :=
  match smi2 a b with
  | some (a, b) => f a b
  | none => .fail

def primAdd : OopWord → OopWord → PrimResult := prim2 fun a b => .ofChecked (a.checkedAdd b)
def primSub : OopWord → OopWord → PrimResult := prim2 fun a b => .ofChecked (a.checkedSub b)
def primMul : OopWord → OopWord → PrimResult := prim2 fun a b => .ofChecked (a.checkedMul b)
def primDiv : OopWord → OopWord → PrimResult := prim2 fun a b => .ofChecked (a.checkedDiv b)
def primMod : OopWord → OopWord → PrimResult := prim2 fun a b => .ofChecked (a.checkedRem b)
def primBitAnd : OopWord → OopWord → PrimResult := prim2 fun a b => .ofNew (a.value &&& b.value)
def primBitOr : OopWord → OopWord → PrimResult := prim2 fun a b => .ofNew (a.value ||| b.value)
def primBitXor : OopWord → OopWord → PrimResult := prim2 fun a b => .ofNew (a.value ^^^ b.value)

/-- Left for a positive count, arithmetically right for a negative one. -/
def primBitShift : OopWord → OopWord → PrimResult := prim2 fun r c =>
  let count := c.value
  if -61 ≤ count.toInt ∧ count.toInt ≤ 61 then
    if 0 ≤ count.toInt then .ofChecked (r.checkedShl count.toNat)
    else .ofNew (r.value.sshiftRight (-count).toNat)
  else .fail

/-- `smi_cmp`, with the oops of `true` and `false`. -/
def smiCmp (trueObj falseObj : OopWord) (f : Int → Int → Bool) : OopWord → OopWord → PrimResult :=
  prim2 fun a b => .ok (if f a.value.toInt b.value.toInt then trueObj else falseObj)

section
variable (trueObj falseObj : OopWord)

def primLt := smiCmp trueObj falseObj fun a b => decide (a < b)
def primLe := smiCmp trueObj falseObj fun a b => decide (a ≤ b)
def primGt := smiCmp trueObj falseObj fun a b => decide (a > b)
def primGe := smiCmp trueObj falseObj fun a b => decide (a ≥ b)
def primEq := smiCmp trueObj falseObj fun a b => decide (a = b)
def primNe := smiCmp trueObj falseObj fun a b => decide (a ≠ b)

end

/-! ## Words and values -/

/-- A left shift multiplies where the product fits. -/
theorem toInt_shiftLeft_of_fits {w : Nat} (v : BitVec w) (n : Nat)
    (lower : -2 ^ w ≤ v.toInt * 2 ^ n * 2) (upper : v.toInt * 2 ^ n * 2 < 2 ^ w) :
    (v <<< n).toInt = v.toInt * 2 ^ n := by
  obtain ⟨k, unsigned⟩ : ∃ k : Int, (v.toNat : Int) = v.toInt + ((2 ^ w : Nat) : Int) * k := by
    rw [BitVec.toInt_eq_toNat_cond]
    split
    · exact ⟨0, by ring⟩
    · exact ⟨1, by ring⟩
  have shifted : ((v.toNat <<< n : Nat) : Int) =
      v.toInt * 2 ^ n + ((2 ^ w : Nat) : Int) * (k * 2 ^ n) := by
    rw [Nat.shiftLeft_eq, Nat.cast_mul, unsigned]
    push_cast
    ring
  rw [BitVec.toInt_eq_toNat_bmod, BitVec.toNat_shiftLeft, Int.natCast_mod, Int.emod_bmod, shifted,
    Int.add_mul_bmod_self_left]
  exact Int.bmod_eq_of_le_mul_two (by exact_mod_cast lower) (by exact_mod_cast upper)

theorem toNat_mod_of_isSmi {o : OopWord} (tag : isSmi o = true) : o.toNat % 4 = 0 := by
  have zero := congrArg BitVec.toNat (beq_iff_eq.1 tag)
  rwa [BitVec.toNat_and, tagMask, show (3#64).toNat = 2 ^ 2 - 1 from rfl,
    Nat.and_two_pow_sub_one_eq_mod] at zero

namespace SmallInt

variable (a b : SmallInt)

theorem toInt_value_eq : a.value.toInt = a.oop.toInt / 4 := by
  rw [value, BitVec.toInt_sshiftRight, Int.shiftRight_eq_div_pow]
  rfl

/-- A word is four times its value. -/
theorem toInt_oop : a.oop.toInt = 4 * a.value.toInt := by
  have low := toNat_mod_of_isSmi a.tag
  rw [toInt_value_eq, BitVec.toInt_eq_toNat_cond]
  split <;> omega

theorem inRange : InRange a.value.toInt := by
  have lower := BitVec.le_two_mul_toInt (x := a.oop)
  have upper := BitVec.two_mul_toInt_lt (x := a.oop)
  rw [toInt_oop] at lower upper
  simp only [InRange, smiMin, smiMax]
  omega

theorem toInt_shiftLeft_two {v : OopWord} (fits : InRange v.toInt) :
    (v <<< 2).toInt = 4 * v.toInt := by
  simp only [InRange, smiMin, smiMax] at fits
  rw [toInt_shiftLeft_of_fits v 2 (by omega) (by omega)]
  ring

@[ext] theorem ext {a b : SmallInt} (same : a.value.toInt = b.value.toInt) : a = b := by
  obtain ⟨w, _⟩ := a
  obtain ⟨w', _⟩ := b
  have words : w = w' := BitVec.eq_of_toInt_eq (by
    have left := toInt_oop ⟨w, ‹_›⟩
    have right := toInt_oop ⟨w', ‹_›⟩
    rw [left, right, same])
  subst words
  rfl

theorem tryNew_eq_none {v : OopWord} : tryNew v = none ↔ ¬ InRange v.toInt := by
  unfold tryNew
  split <;> simp [*]

theorem value_tryNew {v : OopWord} {r : SmallInt} (new : tryNew v = some r) : r.value = v := by
  unfold tryNew at new
  split at new
  · rename_i fits
    obtain rfl := Option.some.inj new
    have words := toInt_oop ⟨v <<< 2, isSmi_shiftLeft v⟩
    rw [toInt_shiftLeft_two fits] at words
    exact BitVec.eq_of_toInt_eq (by omega)
  · cases new

theorem tryNew_value : tryNew a.value = some a := by
  cases new : tryNew a.value with
  | none => exact absurd a.inRange (tryNew_eq_none.1 new)
  | some r => exact congrArg some (ext (congrArg BitVec.toInt (value_tryNew new)))

theorem tryFrom_eq_some {o : OopWord} : tryFrom o = some a ↔ o = a.oop := by
  unfold tryFrom
  constructor
  · intro found
    split at found
    · exact congrArg oop (Option.some.inj found)
    · cases found
  · rintro rfl
    rw [dif_pos a.tag]

theorem tryFrom_eq_none {o : OopWord} : tryFrom o = none ↔ isSmi o = false := by
  unfold tryFrom
  split <;> simp [*]

/-! ## The checked operations -/

/-- The small integer of a number, where there is one. -/
def ofInt (n : Int) : Option SmallInt := if InRange n then tryNew (BitVec.ofInt 64 n) else none

theorem toInt_ofInt {n : Int} (fits : InRange n) : (BitVec.ofInt 64 n).toInt = n := by
  simp only [InRange, smiMin, smiMax] at fits
  rw [BitVec.toInt_ofInt]
  exact Int.bmod_eq_of_le_mul_two (by omega) (by omega)

theorem ofInt_eq_none {n : Int} : ofInt n = none ↔ ¬ InRange n := by
  unfold ofInt
  split
  · rename_i fits
    rw [tryNew_eq_none, toInt_ofInt fits]
  · simp [*]

theorem toInt_value_ofInt {n : Int} {r : SmallInt} (found : ofInt n = some r) :
    r.value.toInt = n := by
  unfold ofInt at found
  split at found
  · rename_i fits
    rw [value_tryNew found, toInt_ofInt fits]
  · cases found

theorem tryNew_eq_ofInt {v : OopWord} {n : Int} (exact_ : v.toInt = n) : tryNew v = ofInt n := by
  subst exact_
  unfold ofInt
  split
  · rename_i fits
    rw [BitVec.ofInt_toInt]
  · rename_i out
    exact tryNew_eq_none.2 out

/-- An operation that stops at the machine's overflow and then at the range stops at the range. -/
theorem checked_eq_ofInt {overflow : Bool} {v : OopWord} {n : Int}
    (exact_ : ¬ overflow = true → v.toInt = n) (out : overflow = true → ¬ InRange n) :
    (if overflow then none else tryNew v) = ofInt n := by
  split
  · rename_i exceeds
    exact (ofInt_eq_none.2 (out exceeds)).symm
  · rename_i fits
    exact tryNew_eq_ofInt (exact_ fits)

theorem checkedAdd_eq : a.checkedAdd b = ofInt (a.value.toInt + b.value.toInt) :=
  checked_eq_ofInt BitVec.toInt_add_of_not_saddOverflow fun exceeds => by
    simp only [BitVec.saddOverflow, Bool.or_eq_true, decide_eq_true_eq] at exceeds
    simp only [InRange, smiMin, smiMax]
    omega

theorem checkedSub_eq : a.checkedSub b = ofInt (a.value.toInt - b.value.toInt) :=
  checked_eq_ofInt BitVec.toInt_sub_of_not_ssubOverflow fun exceeds => by
    simp only [BitVec.ssubOverflow, Bool.or_eq_true, decide_eq_true_eq] at exceeds
    simp only [InRange, smiMin, smiMax]
    omega

theorem checkedMul_eq : a.checkedMul b = ofInt (a.value.toInt * b.value.toInt) :=
  checked_eq_ofInt BitVec.toInt_mul_of_not_smulOverflow fun exceeds => by
    simp only [BitVec.smulOverflow, Bool.or_eq_true, decide_eq_true_eq] at exceeds
    simp only [InRange, smiMin, smiMax]
    omega

end SmallInt

/-! ## Floored division -/

/-- The quotient and the remainder of floored division: they make up the dividend, and the remainder
is zero or has the divisor's sign, and is smaller. -/
structure Floored (a b q r : Int) : Prop where
  sum : a = q * b + r
  sign : r = 0 ∨ (r < 0 ↔ b < 0)
  small : |r| < |b|

theorem abs_tmod_lt (a : Int) {b : Int} (nonzero : b ≠ 0) : |a.tmod b| < |b| := by
  rw [Int.abs_eq_natAbs, Int.abs_eq_natAbs, Int.natAbs_tmod, Int.ofNat_lt]
  exact Nat.mod_lt _ (Int.natAbs_pos.2 nonzero)

theorem floored_of_agree {a b : Int} (nonzero : b ≠ 0)
    (agree : a.tmod b = 0 ∨ (a.tmod b < 0 ↔ b < 0)) : Floored a b (a.tdiv b) (a.tmod b) :=
  ⟨(Int.tdiv_mul_add_tmod a b).symm, agree, abs_tmod_lt a nonzero⟩

theorem floored_of_differ {a b : Int} (nonzero : b ≠ 0) (rest : a.tmod b ≠ 0)
    (differ : ¬ (a.tmod b < 0 ↔ b < 0)) : Floored a b (a.tdiv b - 1) (a.tmod b + b) := by
  have small := abs_tmod_lt a nonzero
  refine ⟨?_, ?_, ?_⟩
  · linarith [Int.tdiv_mul_add_tmod a b]
  · rcases lt_or_gt_of_ne nonzero with neg | pos
    · rw [abs_of_neg neg] at small
      have := abs_lt.1 small
      omega
    · rw [abs_of_pos pos] at small
      have := abs_lt.1 small
      omega
  · rcases lt_or_gt_of_ne nonzero with neg | pos
    · rw [abs_of_neg neg] at small ⊢
      have := abs_lt.1 small
      exact abs_lt.2 (by omega)
    · rw [abs_of_pos pos] at small ⊢
      have := abs_lt.1 small
      exact abs_lt.2 (by omega)

namespace SmallInt

variable (a b : SmallInt)

theorem toInt_srem_value : (a.value.srem b.value).toInt = a.value.toInt.tmod b.value.toInt :=
  BitVec.toInt_srem ..

theorem toInt_sdiv_value : (a.value.sdiv b.value).toInt = a.value.toInt.tdiv b.value.toInt := by
  refine BitVec.toInt_sdiv_of_ne_or_ne _ _ (.inl fun least => ?_)
  have range := a.inRange
  rw [least] at range
  exact absurd range (by decide)

/-- The test of both functions. -/
theorem adjusts_iff :
    (a.value.srem b.value ≠ 0#64 ∧ (a.value.srem b.value).slt 0#64 ≠ b.value.slt 0#64) ↔
      a.value.toInt.tmod b.value.toInt ≠ 0 ∧
        ¬ (a.value.toInt.tmod b.value.toInt < 0 ↔ b.value.toInt < 0) := by
  refine and_congr (not_congr ?_) (not_congr ?_)
  · rw [← BitVec.toInt_inj, toInt_srem_value, BitVec.toInt_zero]
  · rw [BitVec.slt_eq_decide, BitVec.slt_eq_decide, toInt_srem_value, BitVec.toInt_zero,
      decide_eq_decide]

theorem floored (nonzero : b.value.toInt ≠ 0) :
    Floored a.value.toInt b.value.toInt (floorDiv a.value b.value).toInt
      (floorMod a.value b.value).toInt := by
  by_cases adjusts : a.value.toInt.tmod b.value.toInt ≠ 0 ∧
      ¬ (a.value.toInt.tmod b.value.toInt < 0 ↔ b.value.toInt < 0)
  · have quotient : (floorDiv a.value b.value).toInt = a.value.toInt.tdiv b.value.toInt - 1 := by
      have bound := Int.natAbs_tdiv_le_natAbs a.value.toInt b.value.toInt
      have range := a.inRange
      simp only [InRange, smiMin, smiMax] at range
      simp only [floorDiv, if_pos ((adjusts_iff a b).2 adjusts)]
      rw [BitVec.toInt_sub, toInt_sdiv_value, show (1#64).toInt = 1 from rfl]
      exact Int.bmod_eq_of_le_mul_two (by omega) (by omega)
    have remainder : (floorMod a.value b.value).toInt =
        a.value.toInt.tmod b.value.toInt + b.value.toInt := by
      have small := abs_tmod_lt a.value.toInt nonzero
      have range := b.inRange
      simp only [InRange, smiMin, smiMax] at range
      simp only [floorMod, if_pos ((adjusts_iff a b).2 adjusts)]
      rw [BitVec.toInt_add, toInt_srem_value]
      rw [Int.abs_eq_natAbs, Int.abs_eq_natAbs] at small
      exact Int.bmod_eq_of_le_mul_two (by omega) (by omega)
    rw [quotient, remainder]
    exact floored_of_differ nonzero adjusts.1 adjusts.2
  · have agree : a.value.toInt.tmod b.value.toInt = 0 ∨
        (a.value.toInt.tmod b.value.toInt < 0 ↔ b.value.toInt < 0) := by tauto
    have keeps := (adjusts_iff a b).not.2 adjusts
    simp only [floorDiv, floorMod, if_neg keeps, toInt_sdiv_value, toInt_srem_value]
    exact floored_of_agree nonzero agree

theorem checkedDiv_eq (nonzero : b.value.toInt ≠ 0) :
    a.checkedDiv b = ofInt (floorDiv a.value b.value).toInt := by
  have divides : b.value ≠ 0#64 := fun zero => nonzero (congrArg BitVec.toInt zero)
  rw [checkedDiv, if_neg divides, tryNew_eq_ofInt rfl]

/-- The remainder is smaller than the divisor, so it is always there. -/
theorem checkedRem_eq (nonzero : b.value.toInt ≠ 0) :
    ∃ r, a.checkedRem b = some r ∧ r.value = floorMod a.value b.value := by
  have divides : b.value ≠ 0#64 := fun zero => nonzero (congrArg BitVec.toInt zero)
  have small := (floored a b nonzero).small
  have range := b.inRange
  rw [checkedRem, if_neg divides]
  cases new : tryNew (floorMod a.value b.value) with
  | some r => exact ⟨r, rfl, value_tryNew new⟩
  | none =>
    refine absurd ?_ (tryNew_eq_none.1 new)
    simp only [InRange, smiMin, smiMax] at range ⊢
    rw [Int.abs_eq_natAbs, Int.abs_eq_natAbs] at small
    omega

/-! ## Shifts -/

theorem checkedShl_eq {n : Nat} (le : n ≤ 61) : a.checkedShl n = ofInt (a.value.toInt * 2 ^ n) := by
  have range := a.inRange
  have product : (a.value.signExtend 128 <<< n).toInt = a.value.toInt * 2 ^ n := by
    have factor : (1 : Int) ≤ 2 ^ n ∧ (2 : Int) ^ n ≤ 2 ^ 61 :=
      ⟨one_le_pow₀ (by decide), pow_le_pow_right₀ (by decide) le⟩
    simp only [InRange, smiMin, smiMax] at range
    have extended : (a.value.signExtend 128).toInt = a.value.toInt :=
      BitVec.toInt_signExtend_of_le (by decide)
    rw [toInt_shiftLeft_of_fits _ _ _ _, extended]
    · rw [extended]
      nlinarith
    · rw [extended]
      nlinarith
  unfold checkedShl
  rw [if_neg (by omega)]
  simp only [product]
  split
  · rename_i out
    refine (ofInt_eq_none.2 fun fits => ?_).symm
    obtain high | low := out
    · exact absurd fits.2 (not_le.2 high)
    · exact absurd fits.1 (not_le.2 low)
  · rename_i fits
    obtain ⟨high, low⟩ := not_or.1 fits
    refine tryNew_eq_ofInt ?_
    simp only [smiMin, smiMax] at high low
    rw [← BitVec.signExtend_eq_setWidth_of_le _ (by decide),
      BitVec.toInt_signExtend_eq_toInt_bmod_of_le _ (by decide), product]
    exact Int.bmod_eq_of_le_mul_two (by omega) (by omega)

/-- An arithmetic right shift rounds down and stays in range. -/
theorem tryNew_sshiftRight (n : Nat) :
    ∃ r, tryNew (a.value.sshiftRight n) = some r ∧ r.value.toInt = a.value.toInt / 2 ^ n := by
  have shifted : (a.value.sshiftRight n).toInt = a.value.toInt / 2 ^ n := by
    rw [BitVec.toInt_sshiftRight, Int.shiftRight_eq_div_pow]
    norm_cast
  cases new : tryNew (a.value.sshiftRight n) with
  | some r => exact ⟨r, rfl, by rw [value_tryNew new, shifted]⟩
  | none =>
    refine absurd ?_ (tryNew_eq_none.1 new)
    have range := a.inRange
    have factor : (1 : Int) ≤ 2 ^ n := one_le_pow₀ (by decide)
    simp only [InRange, smiMin, smiMax] at range ⊢
    rw [shifted]
    constructor
    · rw [Int.le_ediv_iff_mul_le (by omega)]
      nlinarith
    · refine Int.le_of_lt_add_one ?_
      rw [Int.ediv_lt_iff_lt_mul (by omega)]
      nlinarith

end SmallInt

/-! ## The primitives on words -/

/-- Two words are two small integers, or a primitive of two fails. -/
theorem smi2_cases (a b : OopWord) : (∃ x y : SmallInt, a = x.oop ∧ b = y.oop) ∨
    ((isSmi a && isSmi b) = false ∧ ∀ f, prim2 f a b = .fail) := by
  cases tagA : isSmi a with
  | false =>
    right
    have none := SmallInt.tryFrom_eq_none.2 tagA
    exact ⟨rfl, fun f => by simp only [prim2, smi2, none]⟩
  | true =>
    cases tagB : isSmi b with
    | false =>
      right
      have none := SmallInt.tryFrom_eq_none.2 tagB
      refine ⟨rfl, fun f => ?_⟩
      simp only [prim2, smi2, none]
      cases SmallInt.tryFrom a <;> rfl
    | true => exact .inl ⟨⟨a, tagA⟩, ⟨b, tagB⟩, rfl, rfl⟩

theorem prim2_oop (f : SmallInt → SmallInt → PrimResult) (a b : SmallInt) :
    prim2 f a.oop b.oop = f a b := by
  have first := (SmallInt.tryFrom_eq_some a).2 rfl
  have second := (SmallInt.tryFrom_eq_some b).2 rfl
  simp only [prim2, smi2, first, second]

theorem PrimResult.ofChecked_eq_fail {o : Option SmallInt} : ofChecked o = .fail ↔ o = none := by
  cases o <;> simp [ofChecked]

/-- `bitShift:` multiplies by the power of two and rounds down, and fails where that is out of
range. -/
theorem primBitShift_eq (r c : SmallInt) (lower : -61 ≤ c.value.toInt)
    (upper : c.value.toInt ≤ 61) : primBitShift r.oop c.oop =
      .ofChecked (SmallInt.ofInt ⌊(r.value.toInt : ℚ) * 2 ^ c.value.toInt⌋) := by
  rw [primBitShift, prim2_oop]
  simp only [lower, upper, and_self, if_true]
  split
  · rename_i left
    have unsigned : c.value.toInt = (c.value.toNat : Int) := by
      rw [BitVec.toInt_eq_toNat_cond] at left ⊢
      split <;> omega
    have product : ⌊(r.value.toInt : ℚ) * 2 ^ c.value.toInt⌋ =
        r.value.toInt * 2 ^ c.value.toNat := by
      rw [unsigned, zpow_natCast]
      exact_mod_cast Int.floor_intCast (R := ℚ) (r.value.toInt * 2 ^ c.value.toNat)
    rw [SmallInt.checkedShl_eq r (by omega), product]
  · rename_i right
    have unsigned : c.value.toInt = -((-c.value).toNat : Int) := by
      have negated : (-c.value).toInt = -c.value.toInt := by
        rw [BitVec.toInt_neg]
        exact Int.bmod_eq_of_le_mul_two (by omega) (by omega)
      rw [BitVec.toInt_eq_toNat_cond] at negated
      split at negated <;> omega
    have quotient : ⌊(r.value.toInt : ℚ) * 2 ^ c.value.toInt⌋ =
        r.value.toInt / 2 ^ (-c.value).toNat := by
      rw [unsigned, zpow_neg, zpow_natCast, ← div_eq_mul_inv]
      exact_mod_cast Rat.floor_intCast_div_natCast r.value.toInt (2 ^ (-c.value).toNat)
    obtain ⟨v, new, value⟩ := r.tryNew_sshiftRight (-c.value).toNat
    have found : SmallInt.ofInt (r.value.toInt / 2 ^ (-c.value).toNat) = some v := by
      rw [← new]
      exact (SmallInt.tryNew_eq_ofInt (by rw [← value, SmallInt.value_tryNew new])).symm
    rw [quotient, found]
    simp only [PrimResult.ofNew, new, PrimResult.ofChecked]

/-- Division by a small integer other than zero: `\\\\` always answers, and `//` does where the floored
quotient is in range. -/
theorem primDiv_primMod_floored (a b : SmallInt) (nonzero : b.value.toInt ≠ 0) :
    ∃ q r, Floored a.value.toInt b.value.toInt q r ∧ InRange r ∧
      primDiv a.oop b.oop = .ofChecked (SmallInt.ofInt q) ∧
      primMod a.oop b.oop = .ofChecked (SmallInt.ofInt r) := by
  obtain ⟨rem, found, value⟩ := a.checkedRem_eq b nonzero
  have small : SmallInt.ofInt (floorMod a.value b.value).toInt = some rem := by
    rw [← value, ← SmallInt.tryNew_eq_ofInt rfl, rem.tryNew_value]
  refine ⟨_, _, a.floored b nonzero, value ▸ rem.inRange, ?_, ?_⟩
  · rw [primDiv, prim2_oop, a.checkedDiv_eq b nonzero]
  · rw [primMod, prim2_oop, found, small]

theorem primDiv_primMod_zero (a b : SmallInt) (zero : b.value.toInt = 0) :
    primDiv a.oop b.oop = .fail ∧ primMod a.oop b.oop = .fail := by
  have word : b.value = 0#64 := BitVec.eq_of_toInt_eq zero
  constructor
  · rw [primDiv, prim2_oop, SmallInt.checkedDiv, if_pos word, PrimResult.ofChecked]
  · rw [primMod, prim2_oop, SmallInt.checkedRem, if_pos word, PrimResult.ofChecked]

end WinVm.Interpreter
