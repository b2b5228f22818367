import Mathlib.Data.BitVec
import Mathlib.Tactic.IntervalCases

/-!
# Byte readers and LEB128

A reader walks a fixed byte buffer with a cursor and fails when it runs off the
end. `Reads r bytes a` says that wherever `bytes` stand in a buffer, `r` started
at their first byte returns `a` and leaves the cursor right behind them. The
rules `Reads.pure`, `Reads.bind` and `Reads.replicate` compose such facts along
the structure of a reader, so that a codec is proved field by field.

The codecs of this module are the unsigned and the signed LEB128 of 64-bit
words: seven payload bits a byte, lowest group first, high bit set on every byte
but the last.
-/

namespace WinVm.Lib

abbrev Byte := BitVec 8

/-- A reader over a byte buffer: from a cursor position, a value and the next
position, or `none` when an index runs past the end of the buffer. -/
def ByteReader (α : Type) : Type := List Byte → Nat → Option (α × Nat)

namespace ByteReader

/-- Run `r`, then what its value selects, from where `r` left the cursor. -/
def andThen {α β : Type} (r : ByteReader α) (f : α → ByteReader β) : ByteReader β :=
  fun buf pos =>
    match r buf pos with
    | none => none
    | some (a, pos') => f a buf pos'

instance : Monad ByteReader where
  pure a := fun _ pos => some (a, pos)
  bind := andThen

/-- A reader that always fails: the unreachable arm of a tag dispatch. -/
def fail {α : Type} : ByteReader α := fun _ _ => none

/-- `buf[*pos]; *pos += 1`. -/
def nextByte : ByteReader Byte := fun buf pos => buf[pos]?.map (·, pos + 1)

/-- `(0..n).map(|_| r).collect()`. -/
def replicate {α : Type} : Nat → ByteReader α → ByteReader (List α)
  | 0, _ => return []
  | n + 1, r => do
    let a ← r
    let as ← replicate n r
    return a :: as

theorem andThen_eq_some {α β : Type} {r : ByteReader α} {f : α → ByteReader β}
    {buf : List Byte} {pos : Nat} {x : β × Nat} (h : (r >>= f) buf pos = some x) :
    ∃ a pos', r buf pos = some (a, pos') ∧ f a buf pos' = some x := by
  change andThen r f buf pos = some x at h
  unfold andThen at h
  cases hr : r buf pos with
  | none => simp [hr] at h
  | some y =>
    obtain ⟨a, pos'⟩ := y
    rw [hr] at h
    exact ⟨a, pos', rfl, h⟩

theorem nextByte_eq_some {buf : List Byte} {pos pos' : Nat} {x : Byte}
    (h : nextByte buf pos = some (x, pos')) : pos' = pos + 1 ∧ pos < buf.length := by
  obtain ⟨y, hy, heq⟩ := Option.map_eq_some_iff.mp h
  cases heq
  exact ⟨rfl, (List.getElem?_eq_some_iff.mp hy).1⟩

end ByteReader

open ByteReader

/-- Wherever `bytes` stand in a buffer, `r` reads them off as `a`. -/
def Reads {α : Type} (r : ByteReader α) (bytes : List Byte) (a : α) : Prop :=
  ∀ pre post, r (pre ++ (bytes ++ post)) pre.length = some (a, pre.length + bytes.length)

namespace Reads

variable {α β : Type} {r : ByteReader α} {f : α → ByteReader β} {bs cs : List Byte}
  {a : α} {b : β}

theorem pure (a : α) : Reads (Pure.pure a) [] a := by
  intro pre post
  rfl

theorem bind (hr : Reads r bs a) (hf : Reads (f a) cs b) : Reads (r >>= f) (bs ++ cs) b := by
  intro pre post
  have h1 := hr pre (cs ++ post)
  have h2 := hf (pre ++ bs) post
  simp only [List.append_assoc, List.length_append] at h1 h2 ⊢
  show andThen r f _ _ = _
  simp only [andThen, h1]
  rw [h2, Nat.add_assoc]

/-- The last field of a record: nothing but the assembled value is left. -/
theorem bind_pure (hr : Reads r bs a) {g : α → β} :
    Reads (r >>= fun x => Pure.pure (g x)) bs (g a) := by
  have h := bind hr (f := fun x => Pure.pure (g x)) (pure (g a))
  rwa [List.append_nil] at h

/-- A field that decides the value by itself, such as a tag without a payload. -/
theorem bind_eq_pure (hr : Reads r bs a) (hf : f a = Pure.pure b) : Reads (r >>= f) bs b := by
  have h := bind hr (f := f) (hf ▸ pure b)
  rwa [List.append_nil] at h

theorem nextByte (x : Byte) : Reads ByteReader.nextByte [x] x := by
  intro pre post
  simp [ByteReader.nextByte]

/-- A byte followed by what depends on it. -/
theorem bind_nextByte {x : Byte} {g : Byte → ByteReader β} (h : Reads (g x) cs b) :
    Reads (ByteReader.nextByte >>= g) (x :: cs) b :=
  bind (nextByte x) h

theorem replicate {l : List α} {enc : α → List Byte} (h : ∀ x ∈ l, Reads r (enc x) x) :
    Reads (ByteReader.replicate l.length r) (l.flatMap enc) l := by
  induction l with
  | nil => exact pure []
  | cons x l ih =>
    have hx : Reads r (enc x) x := h x List.mem_cons_self
    have hl := ih (fun y hy => h y (List.mem_cons_of_mem _ hy))
    rw [List.flatMap_cons]
    exact bind hx (bind_pure hl (g := fun as => x :: as))

end Reads

/-! ## Records inside a growing buffer -/

/-- The bytes `rec` stand in `buf` at offset `off`. -/
def RecordAt (buf : List Byte) (off : Nat) (rec : List Byte) : Prop :=
  ∃ pre post, buf = pre ++ (rec ++ post) ∧ pre.length = off

theorem RecordAt.append {buf rec : List Byte} {off : Nat} (h : RecordAt buf off rec)
    (more : List Byte) : RecordAt (buf ++ more) off rec := by
  obtain ⟨pre, post, rfl, hoff⟩ := h
  exact ⟨pre, post ++ more, by simp, hoff⟩

theorem RecordAt.snoc (buf rec : List Byte) : RecordAt (buf ++ rec) buf.length rec :=
  ⟨buf, [], by simp, rfl⟩

theorem RecordAt.lt_length {buf rec : List Byte} {off : Nat} (h : RecordAt buf off rec)
    (hne : rec ≠ []) : off < buf.length := by
  obtain ⟨pre, post, rfl, rfl⟩ := h
  have : 0 < rec.length := List.length_pos_iff.mpr hne
  simp only [List.length_append]
  omega

theorem RecordAt.length_le {buf rec : List Byte} {off : Nat} (h : RecordAt buf off rec) :
    rec.length ≤ buf.length := by
  obtain ⟨pre, post, rfl, -⟩ := h
  simp only [List.length_append]
  omega

/-- A reader for a record returns it from wherever the record stands. -/
theorem Reads.recordAt {α : Type} {r : ByteReader α} {rec : List Byte} {a : α} {buf : List Byte}
    {off : Nat} (hr : Reads r rec a) (h : RecordAt buf off rec) :
    r buf off = some (a, off + rec.length) := by
  obtain ⟨pre, post, rfl, rfl⟩ := h
  exact hr pre post

/-! ## Unsigned LEB128 -/

/-- Seven payload bits a byte, high bit set while more follow. -/
def writeUleb (v : BitVec 64) : List Byte :=
  let byte : Byte := (v &&& 0x7f#64).setWidth 8
  let v' := v >>> 7
  if h : v' = 0#64 then [byte] else (byte ||| 0x80#8) :: writeUleb v'
termination_by v.toNat
decreasing_by
  have hne : (v >>> 7).toNat ≠ 0 := fun h0 => h (BitVec.eq_of_toNat_eq h0)
  rw [BitVec.toNat_ushiftRight, Nat.shiftRight_eq_div_pow] at hne ⊢
  omega

/-- The loop of `readUleb` over the rest of the buffer: value and bytes consumed.
A shift count is taken modulo 64, as the machine does. -/
def readUlebGo : List Byte → BitVec 64 → Nat → Option (BitVec 64 × Nat)
  | [], _, _ => none
  | byte :: rest, result, shift =>
    let result := result ||| (((byte &&& 0x7f#8).setWidth 64) <<< (shift % 64))
    if byte &&& 0x80#8 = 0#8 then some (result, 1)
    else (readUlebGo rest result (shift + 7)).map fun (v, n) => (v, n + 1)

def readUleb : ByteReader (BitVec 64) := fun buf pos =>
  (readUlebGo (buf.drop pos) 0#64 0).map fun (v, n) => (v, pos + n)

theorem low_group_getLsbD (v : BitVec 64) (i : Nat) :
    (v &&& 0x7f#64).getLsbD i = (decide (i < 7) && v.getLsbD i) := by
  have h : (0x7f#64).getLsbD i = decide (i < 7) := by
    by_cases hi : i < 64
    · interval_cases i <;> rfl
    · have : ¬ i < 7 := by omega
      simp [BitVec.getLsbD_of_ge _ _ (Nat.le_of_not_lt hi), this]
  rw [BitVec.getLsbD_and, h, Bool.and_comm]

/-- The payload of an emitted byte is the low group, with or without the high bit. -/
theorem payload_eq (v : BitVec 64) (more : Bool) :
    (((v &&& 0x7f#64).setWidth 8 ||| (if more then 0x80#8 else 0#8)) &&& 0x7f#8).setWidth 64 =
      v &&& 0x7f#64 := by
  apply BitVec.eq_of_getLsbD_eq
  intro i hi
  rw [low_group_getLsbD]
  simp only [BitVec.getLsbD_setWidth, BitVec.getLsbD_and, BitVec.getLsbD_or]
  cases more <;> interval_cases i <;> simp

theorem high_bit_eq (v : BitVec 64) (more : Bool) :
    ((v &&& 0x7f#64).setWidth 8 ||| (if more then 0x80#8 else 0#8)) &&& 0x80#8 =
      if more then 0x80#8 else 0#8 := by
  apply BitVec.eq_of_getLsbD_eq
  intro i hi
  simp only [BitVec.getLsbD_setWidth, BitVec.getLsbD_and, BitVec.getLsbD_or]
  cases more <;> interval_cases i <;> simp

/-- Reading a group and the groups above it puts the whole word in place. -/
theorem group_or_shift (r v w : BitVec 64) (s : Nat) (hs : s + 7 ≤ 64)
    (hw : ∀ i, i + 7 < 64 → w.getLsbD i = v.getLsbD (i + 7)) :
    (r ||| (v &&& 0x7f#64) <<< s) ||| w <<< (s + 7) = r ||| v <<< s := by
  apply BitVec.eq_of_getLsbD_eq
  intro i hi
  simp only [BitVec.getLsbD_or, BitVec.getLsbD_shiftLeft, low_group_getLsbD, hi, decide_true,
    Bool.true_and]
  by_cases h1 : i < s
  · simp [h1, show i < s + 7 by omega]
  · by_cases h2 : i < s + 7
    · simp [h1, h2, show i - s < 7 by omega]
    · have := hw (i - (s + 7)) (by omega)
      rw [this, show i - (s + 7) + 7 = i - s by omega]
      simp [h1, h2, show ¬ i - s < 7 by omega]

/-- The unsigned loop: bytes of a value that fits above `s` land on the accumulator. -/
theorem readUlebGo_write (v r : BitVec 64) (s : Nat) (hs : s < 64) (hv : v.toNat < 2 ^ (64 - s))
    (post : List Byte) :
    readUlebGo (writeUleb v ++ post) r s = some (r ||| v <<< s, (writeUleb v).length) := by
  induction v using writeUleb.induct generalizing r s with
  | case1 v v' h =>
    have hlow : v &&& 0x7f#64 = v := by
      apply BitVec.eq_of_getLsbD_eq
      intro i hi
      rw [low_group_getLsbD]
      by_cases h7 : i < 7
      · simp [h7]
      · have hz : (v >>> 7).getLsbD (i - 7) = false := by
          have : v >>> 7 = 0#64 := h
          simp [this]
        rw [BitVec.getLsbD_ushiftRight, show 7 + (i - 7) = i by omega] at hz
        simp [hz]
    have hp := payload_eq v false
    have hb := high_bit_eq v false
    simp only [Bool.false_eq_true, if_false, BitVec.or_zero] at hp hb
    rw [writeUleb, dif_pos h]
    simp only [List.cons_append, List.nil_append, readUlebGo, hp, hb, Nat.mod_eq_of_lt hs, if_true,
      List.length_singleton]
    rw [hlow]
  | case2 v v' h ih =>
    have hge : 128 ≤ v.toNat := by
      by_contra hlt
      apply h
      apply BitVec.eq_of_toNat_eq
      show (v >>> 7).toNat = 0
      rw [BitVec.toNat_ushiftRight, Nat.shiftRight_eq_div_pow]
      omega
    have hs7 : s + 7 < 64 := by
      by_contra hge7
      have : 2 ^ (64 - s) ≤ 2 ^ 7 := Nat.pow_le_pow_right (by omega) (by omega)
      omega
    have hv' : v'.toNat < 2 ^ (64 - (s + 7)) := by
      show (v >>> 7).toNat < _
      rw [BitVec.toNat_ushiftRight, Nat.shiftRight_eq_div_pow]
      have : 2 ^ (64 - s) = 2 ^ (64 - (s + 7)) * 2 ^ 7 := by
        rw [← Nat.pow_add]
        congr 1
        omega
      rw [this] at hv
      exact Nat.div_lt_of_lt_mul (by rwa [Nat.mul_comm])
    have hp := payload_eq v true
    have hb := high_bit_eq v true
    simp only [if_true] at hp hb
    have hne : ¬ (0x80#8 = 0#8) := by decide
    rw [writeUleb, dif_neg h]
    simp only [List.cons_append, readUlebGo, hp, hb, hne, if_false, Nat.mod_eq_of_lt hs]
    rw [ih _ (s + 7) hs7 hv']
    simp only [Option.map_some, List.length_cons, Option.some.injEq, Prod.mk.injEq]
    refine ⟨group_or_shift r v v' s (by omega) ?_, rfl⟩
    intro i _
    show (v >>> 7).getLsbD i = _
    rw [BitVec.getLsbD_ushiftRight, Nat.add_comm]

theorem readUleb_write (v : BitVec 64) : Reads readUleb (writeUleb v) v := by
  intro pre post
  have h := readUlebGo_write v 0#64 0 (by decide) (by simpa using v.isLt) post
  simp only [readUleb, List.drop_left, h, Option.map_some, BitVec.shiftLeft_zero, BitVec.zero_or]

/-- A value of at most seven bits is one byte. -/
theorem writeUleb_single {v : BitVec 64} (h : v >>> 7 = 0#64) :
    writeUleb v = [(v &&& 0x7f#64).setWidth 8] := by
  rw [writeUleb, dif_pos h]

theorem writeUleb_ne_nil (v : BitVec 64) : writeUleb v ≠ [] := by
  rw [writeUleb]
  split <;> simp

/-! ## Signed LEB128 -/

/-- Groups of a two's-complement word, until the rest is the sign of the last group. -/
def writeSleb (v : BitVec 64) : List Byte :=
  let byte : Byte := (v &&& 0x7f#64).setWidth 8
  let v' := v.sshiftRight 7
  if h : (v' = 0#64 ∧ byte &&& 0x40#8 = 0#8) ∨ (v' = -1#64 ∧ byte &&& 0x40#8 ≠ 0#8) then [byte]
  else (byte ||| 0x80#8) :: writeSleb v'
termination_by v.toInt.natAbs
decreasing_by
  have h0 : v.toInt ≠ 0 := by
    intro hz
    have hv : v = 0#64 := BitVec.eq_of_toInt_eq (by simpa using hz)
    subst hv
    exact h (Or.inl ⟨by decide, by decide⟩)
  have h1 : v.toInt ≠ -1 := by
    intro hz
    have hv : v = -1#64 := BitVec.eq_of_toInt_eq (by rw [hz]; decide)
    subst hv
    exact h (Or.inr ⟨by decide, by decide⟩)
  rw [BitVec.toInt_sshiftRight, Int.shiftRight_eq_div_pow]
  omega

/-- The loop of `readSleb`; the last group's sign bit is extended while bits are left. -/
def readSlebGo : List Byte → BitVec 64 → Nat → Option (BitVec 64 × Nat)
  | [], _, _ => none
  | byte :: rest, result, shift =>
    let result := result ||| (((byte &&& 0x7f#8).setWidth 64) <<< (shift % 64))
    let shift := shift + 7
    if byte &&& 0x80#8 = 0#8 then
      if shift < 64 ∧ byte &&& 0x40#8 ≠ 0#8 then some (result ||| (-1#64) <<< shift, 1)
      else some (result, 1)
    else (readSlebGo rest result shift).map fun (v, n) => (v, n + 1)

def readSleb : ByteReader (BitVec 64) := fun buf pos =>
  (readSlebGo (buf.drop pos) 0#64 0).map fun (v, n) => (v, pos + n)

/-- The sign bit of an emitted byte is bit 6 of the word. -/
theorem sign_bit_eq (v : BitVec 64) (more : Bool) :
    (((v &&& 0x7f#64).setWidth 8 ||| (if more then 0x80#8 else 0#8)) &&& 0x40#8 = 0#8) ↔
      v.getLsbD 6 = false := by
  constructor
  · intro h
    have h6 := congrArg (fun b : Byte => b.getLsbD 6) h
    cases more <;> simpa [low_group_getLsbD] using h6
  · intro h
    apply BitVec.eq_of_getLsbD_eq
    intro i hi
    have h6 : v[6] = false := by simpa using h
    simp only [BitVec.getLsbD_setWidth, BitVec.getLsbD_and, BitVec.getLsbD_or]
    cases more <;> interval_cases i <;> simp [h6]

/-- The last group and its extended sign are the whole shifted word. -/
theorem last_group_sign (r v : BitVec 64) (s : Nat) (b : Bool)
    (hsign : ∀ i, 6 ≤ i → i < 64 → v.getLsbD i = b) :
    (r ||| (v &&& 0x7f#64) <<< s) |||
        (if s + 7 < 64 ∧ b = true then BitVec.allOnes 64 <<< (s + 7) else 0#64) =
      r ||| v <<< s := by
  apply BitVec.eq_of_getLsbD_eq
  intro i hi
  simp only [BitVec.getLsbD_or, BitVec.getLsbD_shiftLeft, low_group_getLsbD, hi, decide_true,
    Bool.true_and]
  by_cases h1 : i < s
  · by_cases h64 : s + 7 < 64 ∧ b = true
    · simp [h1, h64, show i < s + 7 by omega]
    · simp [h1, h64]
  · by_cases h2 : i < s + 7
    · by_cases h64 : s + 7 < 64 ∧ b = true
      · simp [h1, h2, h64, show i - s < 7 by omega]
      · simp [h1, h64, show i - s < 7 by omega]
    · rw [hsign (i - s) (by omega) (by omega)]
      have h7 : ¬ i - s < 7 := by omega
      have h64 : i - (s + 7) < 64 := by omega
      cases b with
      | false => simp [h1, h7]
      | true =>
        have hone : (BitVec.allOnes 64).getLsbD (i - (s + 7)) = true := by
          rw [BitVec.getLsbD_allOnes]
          exact decide_eq_true h64
        rw [if_pos ⟨by omega, rfl⟩, BitVec.getLsbD_shiftLeft, hone]
        simp [h1, h2, h7, hi]

/-- `writeSleb` stops exactly when bit 6 and everything above it agree. -/
theorem sign_of_stop {v : BitVec 64}
    (h : (v.sshiftRight 7 = 0#64 ∧ v.getLsbD 6 = false) ∨
      (v.sshiftRight 7 = -1#64 ∧ v.getLsbD 6 = true)) {i : Nat} (h6 : 6 ≤ i) (hi : i < 64) :
    v.getLsbD i = v.getLsbD 6 := by
  by_cases he : i = 6
  · rw [he]
  have hbit : (v.sshiftRight 7).getLsbD (i - 7) = v.getLsbD i := by
    rw [BitVec.getLsbD_sshiftRight, show 7 + (i - 7) = i by omega]
    simp [show ¬ 64 ≤ i - 7 by omega, hi]
  obtain ⟨hv, hs⟩ | ⟨hv, hs⟩ := h
  · rw [← hbit, hv, hs, BitVec.getLsbD_zero]
  · rw [← hbit, hv, hs, BitVec.neg_one_eq_allOnes, BitVec.getLsbD_allOnes]
    simp [show i - 7 < 64 by omega]

/-- A word whose top group carries no more than a sign ends there. -/
theorem sshiftRight_of_small {v : BitVec 64} (hlo : -64 ≤ v.toInt) (hhi : v.toInt < 64) :
    (v.sshiftRight 7 = 0#64 ∧ v.getLsbD 6 = false) ∨
      (v.sshiftRight 7 = -1#64 ∧ v.getLsbD 6 = true) := by
  have hshift : (v.sshiftRight 7).toInt = v.toInt / 128 := by
    rw [BitVec.toInt_sshiftRight, Int.shiftRight_eq_div_pow]
    rfl
  have hbit : v.getLsbD 6 = decide (v.toNat / 64 % 2 = 1) := by
    rw [BitVec.getLsbD, Nat.testBit_eq_decide_div_mod_eq]
  have hint := BitVec.toInt_eq_toNat_cond v
  have hlt := v.isLt
  by_cases hneg : v.toInt < 0
  · right
    constructor
    · apply BitVec.eq_of_toInt_eq
      rw [hshift, show (-1#64).toInt = -1 by decide]
      omega
    · rw [hbit, decide_eq_true_eq]
      split at hint <;> omega
  · left
    constructor
    · apply BitVec.eq_of_toInt_eq
      rw [hshift, show (0#64).toInt = 0 by decide]
      omega
    · rw [hbit, decide_eq_false_iff_not]
      split at hint <;> omega

theorem readSlebGo_write (v r : BitVec 64) (s : Nat) (hs : s < 64)
    (hlo : -(2 : Int) ^ (63 - s) ≤ v.toInt) (hhi : v.toInt < 2 ^ (63 - s)) (post : List Byte) :
    readSlebGo (writeSleb v ++ post) r s = some (r ||| v <<< s, (writeSleb v).length) := by
  induction v using writeSleb.induct generalizing r s with
  | case1 v byte v' h =>
    have hp := payload_eq v false
    have hb := high_bit_eq v false
    have hg := sign_bit_eq v false
    simp only [Bool.false_eq_true, if_false, BitVec.or_zero] at hp hb hg
    have hstop : (v' = 0#64 ∧ v.getLsbD 6 = false) ∨ (v' = -1#64 ∧ v.getLsbD 6 = true) := by
      simpa only [byte, hg, ne_eq, Bool.not_eq_false] using h
    have hlast := last_group_sign r v s (v.getLsbD 6) (fun i h6 hi => sign_of_stop hstop h6 hi)
    rw [writeSleb, dif_pos h]
    simp only [List.cons_append, List.nil_append, readSlebGo, hp, hb, Nat.mod_eq_of_lt hs, if_true,
      List.length_singleton, ne_eq, hg, Bool.not_eq_false, ← hlast, BitVec.neg_one_eq_allOnes]
    split
    · rfl
    · rw [BitVec.or_zero]
  | case2 v byte v' h ih =>
    have hp := payload_eq v true
    have hb := high_bit_eq v true
    have hg := sign_bit_eq v false
    simp only [if_true] at hp hb
    simp only [Bool.false_eq_true, if_false, BitVec.or_zero] at hg
    have hne : ¬ (0x80#8 = 0#8) := by decide
    have hs7 : s + 7 < 64 := by
      by_contra hge
      apply h
      simp only [byte, hg, ne_eq, Bool.not_eq_false]
      have hpow : (2 : Int) ^ (63 - s) ≤ 2 ^ 6 := by
        exact_mod_cast Nat.pow_le_pow_right (by omega) (by omega : 63 - s ≤ 6)
      exact sshiftRight_of_small (by omega) (by omega)
    have hsplit : (2 : Int) ^ (63 - s) = 2 ^ (63 - (s + 7)) * 128 := by
      rw [show 63 - s = 63 - (s + 7) + 7 by omega, pow_add]
      norm_num
    have hshift : v'.toInt = v.toInt / 128 := by
      show (v.sshiftRight 7).toInt = _
      rw [BitVec.toInt_sshiftRight, Int.shiftRight_eq_div_pow]
      rfl
    rw [writeSleb, dif_neg h]
    simp only [List.cons_append, readSlebGo, hp, hb, hne, if_false, Nat.mod_eq_of_lt hs]
    rw [ih _ (s + 7) hs7 (by omega) (by omega)]
    simp only [Option.map_some, List.length_cons, Option.some.injEq, Prod.mk.injEq]
    refine ⟨group_or_shift r v v' s (by omega) ?_, rfl⟩
    intro i hi
    show (v.sshiftRight 7).getLsbD i = _
    rw [BitVec.getLsbD_sshiftRight]
    rw [if_pos (show 7 + i < 64 by omega), Nat.add_comm]
    simp [show ¬ 64 ≤ i by omega]

theorem readSleb_write (v : BitVec 64) : Reads readSleb (writeSleb v) v := by
  intro pre post
  have h := readSlebGo_write v 0#64 0 (by decide) (by have := v.le_toInt; simpa using this)
    (by have := v.toInt_lt; simpa using this) post
  simp only [readSleb, List.drop_left, h, Option.map_some, BitVec.shiftLeft_zero, BitVec.zero_or]

/-- A value between -64 and 63 is one byte. -/
theorem writeSleb_single {v : BitVec 64}
    (h : (v.sshiftRight 7 = 0#64 ∧ v.getLsbD 6 = false) ∨
      (v.sshiftRight 7 = -1#64 ∧ v.getLsbD 6 = true)) :
    writeSleb v = [(v &&& 0x7f#64).setWidth 8] := by
  have hg := sign_bit_eq v false
  simp only [Bool.false_eq_true, if_false, BitVec.or_zero] at hg
  rw [writeSleb, dif_pos]
  simpa only [hg, ne_eq, Bool.not_eq_false] using h

end WinVm.Lib
