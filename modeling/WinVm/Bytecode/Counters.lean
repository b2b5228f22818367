import Mathlib.Data.Nat.Bitwise

/-!
# The counters word of a method

One word of a method holds four facts: the invocation counter in bits 0-15, the loop counter in
bits 16-31, `has_bp` in bit 32 and `compile_disabled` in bit 33 (`oops/layout.rs`). The counters and
the two clearing functions rewrite their own bits only; `set_compile_disabled` writes the word
whole.

Results:

* what each writer leaves of the two flags (the simp set);
* what the writers of the flags leave of the two counters (`counts_..`).
-/

namespace WinVm.Bytecode

/-- The word `counters` reads and `set_counters` writes. -/
abbrev CountersWord := BitVec 64

namespace CountersWord

def invocationMask : BitVec 64 := 0xFFFF#64
def invocationMax : Nat := 0xFFFF
def loopMask : BitVec 64 := 0xFFFF0000#64
def compileDisabledBit : BitVec 64 := BitVec.twoPow 64 33
def hasBpBit : BitVec 64 := BitVec.twoPow 64 32
def loopCounterLimit : Nat := 10000

variable (c : CountersWord)

/-! ## Readers -/

def compileDisabled : Bool := c &&& compileDisabledBit != 0#64

def hasBp : Bool := c &&& hasBpBit != 0#64

/-- `counters & COUNTERS_INVOCATION_MASK`. -/
def invocation : Nat := (c &&& invocationMask).toNat

/-- `(counters & COUNTERS_LOOP_MASK) >> COUNTERS_LOOP_SHIFT`. -/
def loopCount : Nat := ((c &&& loopMask) >>> 16).toNat

/-! ## Writers -/

/-- `set_compile_disabled`: one write of the whole word. -/
def setCompileDisabled : CountersWord := compileDisabledBit

def clearCompileDisabled : CountersWord := c &&& ~~~compileDisabledBit

def setHasBp : CountersWord := c ||| hasBpBit

def clearHasBp : CountersWord := c &&& ~~~hasBpBit

/-- `c & !COUNTERS_INVOCATION_MASK | v`. -/
def putInvocation (v : Nat) : CountersWord := c &&& ~~~invocationMask ||| BitVec.ofNat 64 v

/-- `c & !COUNTERS_LOOP_MASK | v << COUNTERS_LOOP_SHIFT`. -/
def putLoopCount (v : Nat) : CountersWord := c &&& ~~~loopMask ||| BitVec.ofNat 64 v <<< 16

/-- `bump_invocation`, with the count it returns. -/
def bumpInvocation : Nat × CountersWord :=
  let bumped := min (c.invocation + 1) invocationMax
  (bumped, c.putInvocation bumped)

/-- `saturate_invocation`, with whether it raised the counter. -/
def saturateInvocation (n : Int) : Bool × CountersWord :=
  let want := (max 0 (min n invocationMax)).toNat
  if want ≤ c.invocation then (false, c) else (true, c.putInvocation want)

/-- `bump_loop_counter`, with whether the frame is offered for on-stack replacement. -/
def bumpLoopCounter : Bool × CountersWord :=
  let bumped := min (c.loopCount + 1) 0xFFFF
  (decide (loopCounterLimit ≤ bumped), c.putLoopCount bumped)

def resetLoopCounter : CountersWord := c &&& ~~~loopMask

/-! ## The flags as bits -/

theorem and_twoPow_bne {i : Nat} (lt : i < 64) :
    (c &&& BitVec.twoPow 64 i != 0#64) = c.getLsbD i := by
  rw [BitVec.and_twoPow]
  cases bit : c.getLsbD i with
  | false => simp
  | true =>
    have : BitVec.twoPow 64 i ≠ 0#64 := fun zero => by
      have set := congrArg (fun w => w.getLsbD i) zero
      simp [lt] at set
    simp [this]

theorem compileDisabled_eq : c.compileDisabled = c.getLsbD 33 := and_twoPow_bne c (by decide)

theorem hasBp_eq : c.hasBp = c.getLsbD 32 := and_twoPow_bne c (by decide)

theorem getLsbD_invocationMask (i : Nat) : invocationMask.getLsbD i = decide (i < 16) := by
  rw [invocationMask, show (0xFFFF#64) = BitVec.ofNat 64 (2 ^ 16 - 1) from rfl, BitVec.getLsbD_ofNat,
    Nat.testBit_two_pow_sub_one]
  rcases Nat.lt_or_ge i 16 with lt | ge
  · simp [lt, show i < 64 from lt.trans (by decide)]
  · simp [Nat.not_lt.mpr ge]

theorem getLsbD_loopMask (i : Nat) : loopMask.getLsbD i = decide (16 ≤ i ∧ i < 32) := by
  rw [show loopMask = invocationMask <<< 16 from rfl, BitVec.getLsbD_shiftLeft,
    getLsbD_invocationMask]
  rcases Nat.lt_or_ge i 16 with lt | ge
  · simp [lt]
  · rcases Nat.lt_or_ge i 32 with lt' | ge'
    · simp [ge, lt', show i < 64 from lt'.trans (by decide), show i - 16 < 16 by omega]
    · simp [ge, Nat.not_lt.mpr ge', show ¬ i - 16 < 16 by omega]

/-- A counter's value has no bit from 16 on. -/
theorem getLsbD_ofNat_of_le {v : Nat} (le : v ≤ invocationMax) {i : Nat} (ge : 16 ≤ i) :
    (BitVec.ofNat 64 v).getLsbD i = false := by
  have small : v < 2 ^ i :=
    (Nat.lt_succ_of_le le).trans_le (Nat.pow_le_pow_right Nat.two_pos ge)
  rw [BitVec.getLsbD_ofNat, Nat.testBit_lt_two_pow small, Bool.and_false]

/-! ## What the writers leave -/

theorem getLsbD_putInvocation {v : Nat} (le : v ≤ invocationMax) {i : Nat} (ge : 16 ≤ i)
    (lt : i < 64) : (c.putInvocation v).getLsbD i = c.getLsbD i := by
  rw [putInvocation, BitVec.getLsbD_or, BitVec.getLsbD_and, BitVec.getLsbD_not,
    getLsbD_invocationMask, getLsbD_ofNat_of_le le ge]
  simp [lt, Nat.not_lt.mpr ge]

theorem getLsbD_putLoopCount {v : Nat} (le : v ≤ 0xFFFF) {i : Nat} (out : i < 16 ∨ 32 ≤ i)
    (lt : i < 64) : (c.putLoopCount v).getLsbD i = c.getLsbD i := by
  rw [putLoopCount, BitVec.getLsbD_or, BitVec.getLsbD_and, BitVec.getLsbD_not, getLsbD_loopMask,
    BitVec.getLsbD_shiftLeft]
  rcases out with low | high
  · simp [low, lt, Nat.not_le.mpr low]
  · rw [getLsbD_ofNat_of_le le (show 16 ≤ i - 16 by omega)]
    simp [lt, Nat.not_lt.mpr high]

theorem bumped_le : min (c.invocation + 1) invocationMax ≤ invocationMax := min_le_right _ _

theorem want_le (n : Int) : (max 0 (min n invocationMax)).toNat ≤ invocationMax := by
  unfold invocationMax
  omega

@[simp] theorem hasBp_setCompileDisabled : (setCompileDisabled).hasBp = false := by decide

@[simp] theorem compileDisabled_setCompileDisabled : (setCompileDisabled).compileDisabled = true := by
  decide

@[simp] theorem hasBp_clearCompileDisabled : c.clearCompileDisabled.hasBp = c.hasBp := by
  simp [hasBp_eq, clearCompileDisabled, compileDisabledBit]

@[simp] theorem compileDisabled_clearCompileDisabled :
    c.clearCompileDisabled.compileDisabled = false := by
  simp [compileDisabled_eq, clearCompileDisabled, compileDisabledBit]

@[simp] theorem hasBp_setHasBp : c.setHasBp.hasBp = true := by
  simp [hasBp_eq, setHasBp, hasBpBit]

@[simp] theorem compileDisabled_setHasBp : c.setHasBp.compileDisabled = c.compileDisabled := by
  simp [compileDisabled_eq, setHasBp, hasBpBit]

@[simp] theorem hasBp_clearHasBp : c.clearHasBp.hasBp = false := by
  simp [hasBp_eq, clearHasBp, hasBpBit]

@[simp] theorem compileDisabled_clearHasBp : c.clearHasBp.compileDisabled = c.compileDisabled := by
  simp [compileDisabled_eq, clearHasBp, hasBpBit]

theorem hasBp_putInvocation {v : Nat} (le : v ≤ invocationMax) :
    (c.putInvocation v).hasBp = c.hasBp := by
  rw [hasBp_eq, hasBp_eq, c.getLsbD_putInvocation le (by decide) (by decide)]

theorem compileDisabled_putInvocation {v : Nat} (le : v ≤ invocationMax) :
    (c.putInvocation v).compileDisabled = c.compileDisabled := by
  rw [compileDisabled_eq, compileDisabled_eq, c.getLsbD_putInvocation le (by decide) (by decide)]

theorem hasBp_putLoopCount {v : Nat} (le : v ≤ 0xFFFF) : (c.putLoopCount v).hasBp = c.hasBp := by
  rw [hasBp_eq, hasBp_eq, c.getLsbD_putLoopCount le (.inr (by decide)) (by decide)]

theorem compileDisabled_putLoopCount {v : Nat} (le : v ≤ 0xFFFF) :
    (c.putLoopCount v).compileDisabled = c.compileDisabled := by
  rw [compileDisabled_eq, compileDisabled_eq,
    c.getLsbD_putLoopCount le (.inr (by decide)) (by decide)]

@[simp] theorem hasBp_bumpInvocation : c.bumpInvocation.2.hasBp = c.hasBp :=
  c.hasBp_putInvocation c.bumped_le

@[simp] theorem compileDisabled_bumpInvocation :
    c.bumpInvocation.2.compileDisabled = c.compileDisabled :=
  c.compileDisabled_putInvocation c.bumped_le

theorem saturateInvocation_cases (n : Int) :
    (c.saturateInvocation n).2 = c ∨
      ∃ v ≤ invocationMax, (c.saturateInvocation n).2 = c.putInvocation v := by
  simp only [saturateInvocation]
  split
  · exact .inl rfl
  · exact .inr ⟨_, want_le n, rfl⟩

@[simp] theorem hasBp_saturateInvocation (n : Int) : (c.saturateInvocation n).2.hasBp = c.hasBp := by
  obtain same | ⟨v, le, put⟩ := c.saturateInvocation_cases n
  · rw [same]
  · rw [put, c.hasBp_putInvocation le]

@[simp] theorem compileDisabled_saturateInvocation (n : Int) :
    (c.saturateInvocation n).2.compileDisabled = c.compileDisabled := by
  obtain same | ⟨v, le, put⟩ := c.saturateInvocation_cases n
  · rw [same]
  · rw [put, c.compileDisabled_putInvocation le]

@[simp] theorem hasBp_bumpLoopCounter : c.bumpLoopCounter.2.hasBp = c.hasBp :=
  c.hasBp_putLoopCount (min_le_right _ _)

@[simp] theorem compileDisabled_bumpLoopCounter :
    c.bumpLoopCounter.2.compileDisabled = c.compileDisabled :=
  c.compileDisabled_putLoopCount (min_le_right _ _)

theorem getLsbD_resetLoopCounter {i : Nat} (ge : 32 ≤ i) (lt : i < 64) :
    c.resetLoopCounter.getLsbD i = c.getLsbD i := by
  rw [resetLoopCounter, BitVec.getLsbD_and, BitVec.getLsbD_not, getLsbD_loopMask]
  simp [lt, Nat.not_lt.mpr ge]

@[simp] theorem hasBp_resetLoopCounter : c.resetLoopCounter.hasBp = c.hasBp := by
  rw [hasBp_eq, hasBp_eq, c.getLsbD_resetLoopCounter (by decide) (by decide)]

@[simp] theorem compileDisabled_resetLoopCounter :
    c.resetLoopCounter.compileDisabled = c.compileDisabled := by
  rw [compileDisabled_eq, compileDisabled_eq, c.getLsbD_resetLoopCounter (by decide) (by decide)]

/-! ## The counters -/

/-- The counters read bits that the flags are not in. -/
theorem counts_eq_of_low {c c' : CountersWord} (low : ∀ i < 32, c'.getLsbD i = c.getLsbD i) :
    c'.invocation = c.invocation ∧ c'.loopCount = c.loopCount := by
  have inv : c' &&& invocationMask = c &&& invocationMask := by
    apply BitVec.eq_of_getLsbD_eq
    intro i _
    rw [BitVec.getLsbD_and, BitVec.getLsbD_and, getLsbD_invocationMask]
    rcases Nat.lt_or_ge i 16 with lt | ge
    · rw [low i (lt.trans (by decide))]
    · simp [Nat.not_lt.mpr ge]
  have loop : c' &&& loopMask = c &&& loopMask := by
    apply BitVec.eq_of_getLsbD_eq
    intro i _
    rw [BitVec.getLsbD_and, BitVec.getLsbD_and, getLsbD_loopMask]
    rcases Nat.lt_or_ge i 32 with lt | ge
    · rw [low i lt]
    · simp [Nat.not_lt.mpr ge]
  exact ⟨by rw [invocation, inv, invocation], by rw [loopCount, loop, loopCount]⟩

theorem counts_setHasBp :
    c.setHasBp.invocation = c.invocation ∧ c.setHasBp.loopCount = c.loopCount :=
  counts_eq_of_low fun i lt => by
    simp [setHasBp, hasBpBit, BitVec.getLsbD_twoPow, show ¬ 32 = i from (lt.ne ·.symm)]

theorem getLsbD_and_not_twoPow {i j : Nat} (ne : j ≠ i) :
    (c &&& ~~~BitVec.twoPow 64 j).getLsbD i = c.getLsbD i := by
  rw [BitVec.getLsbD_and, BitVec.getLsbD_not, BitVec.getLsbD_twoPow, decide_eq_false ne]
  cases bit : c.getLsbD i with
  | false => rfl
  | true => simp [BitVec.lt_of_getLsbD bit]

theorem counts_clearHasBp :
    c.clearHasBp.invocation = c.invocation ∧ c.clearHasBp.loopCount = c.loopCount :=
  counts_eq_of_low fun _ lt => c.getLsbD_and_not_twoPow (lt.ne ·.symm)

theorem counts_clearCompileDisabled :
    c.clearCompileDisabled.invocation = c.invocation ∧
      c.clearCompileDisabled.loopCount = c.loopCount :=
  counts_eq_of_low fun _ lt => c.getLsbD_and_not_twoPow ((lt.trans (by decide)).ne ·.symm)

end CountersWord

end WinVm.Bytecode
