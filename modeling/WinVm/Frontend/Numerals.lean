import Mathlib.Data.Nat.Digits.Lemmas
import Mathlib.Data.Rat.Defs
import Mathlib.Tactic.FieldSimp
import Mathlib.Tactic.NormNum
import Mathlib.Tactic.Ring
import WinVm.Frontend.Parser

/-!
# Number literals are exact

An integer is written with a radix, as plain digits, or with an exponent that appends zeros; a
scaled decimal is rebuilt from its two digit strings as a fraction. All of them go through
`intLitMagnitude`, which multiplies a magnitude of bytes by the radix for each digit.

Results: `intLitMagnitude_eq`, the magnitude is canonical; `number_literal_exact`, what the lexer
and the parser make of a numeral denotes the number that is written.
-/

namespace WinVm.Frontend

open WinVm.Lib (isWhitespace)

/-- The number that digits write in a radix. -/
def natValue (radix : Nat) (digits : List Char) : Nat :=
  digits.foldl (fun v c => v * radix + toDigit c) 0

/-! ## Magnitudes -/

theorem bytesValue_cons (b : BitVec 8) (mag : List (BitVec 8)) :
    bytesValue (b :: mag) = b.toNat + 256 * bytesValue mag := rfl

/-- No high zero byte. -/
def Canonical (mag : List (BitVec 8)) : Prop := ∀ h : mag ≠ [], mag.getLast h ≠ 0

theorem Canonical.tail {b : BitVec 8} {mag : List (BitVec 8)} (h : Canonical (b :: mag)) :
    Canonical mag := by
  intro hne
  rw [← List.getLast_cons hne]
  exact h (List.cons_ne_nil _ _)

theorem Canonical.cons {b : BitVec 8} {mag : List (BitVec 8)} (h : Canonical mag)
    (hb : mag = [] → b ≠ 0) : Canonical (b :: mag) := by
  intro _
  by_cases hnil : mag = []
  · subst hnil
    exact hb rfl
  · rw [List.getLast_cons hnil]
    exact h hnil

theorem ofNat_ne_zero {v : Nat} (hpos : 0 < v) (hlt : v < 256) : BitVec.ofNat 8 v ≠ 0 := by
  intro heq
  have htoNat := congrArg BitVec.toNat heq
  rw [BitVec.toNat_ofNat, Nat.mod_eq_of_lt hlt] at htoNat
  exact absurd htoNat (Nat.ne_of_gt hpos)

theorem pushCarry_spec {n carry : Nat} (h : carry < 256 ^ n) :
    bytesValue (pushCarry n carry) = carry ∧ Canonical (pushCarry n carry) ∧
      (pushCarry n carry = [] → carry = 0) := by
  induction n generalizing carry with
  | zero =>
    rw [Nat.lt_one_iff.mp h]
    exact ⟨rfl, fun hne => absurd rfl hne, fun _ => rfl⟩
  | succ n ih =>
    unfold pushCarry
    split
    · next hzero => exact ⟨hzero.symm, fun hne => absurd rfl hne, fun _ => hzero⟩
    · next hpos =>
      have hdiv : carry / 256 < 256 ^ n :=
        Nat.div_lt_of_lt_mul (by rwa [Nat.mul_comm, ← Nat.pow_succ])
      obtain ⟨hvalue, hcanon, hnil⟩ := ih hdiv
      refine ⟨?_, hcanon.cons fun hempty => ?_, fun hempty => by cases hempty⟩
      · rw [bytesValue_cons, hvalue, BitVec.toNat_ofNat]
        exact Nat.mod_add_div carry 256
      · exact ofNat_ne_zero (Nat.pos_of_ne_zero hpos)
          (Nat.lt_of_div_eq_zero (by decide) (hnil hempty))

section MulAdd

variable {radix : Nat} {mag : List (BitVec 8)} {carry : Nat}

theorem bytesValue_mulAdd (hradix : radix ≤ 36) (hcarry : carry < 256 ^ 4) :
    bytesValue (mulAdd radix mag carry) = bytesValue mag * radix + carry := by
  induction mag generalizing carry with
  | nil =>
    rw [mulAdd, (pushCarry_spec hcarry).1]
    exact (Nat.zero_add carry).symm ▸ by rw [bytesValue]; simp
  | cons b mag ih =>
    have hle : b.toNat * radix ≤ 255 * 36 := Nat.mul_le_mul (Nat.le_of_lt_succ b.isLt) hradix
    rw [mulAdd, bytesValue_cons, bytesValue_cons, BitVec.toNat_ofNat, ih (by omega), Nat.add_mul]
    have hdiv := Nat.mod_add_div (b.toNat * radix + carry) 256
    have hcomm : 256 * bytesValue mag * radix = 256 * (bytesValue mag * radix) := Nat.mul_assoc ..
    omega

theorem canonical_mulAdd (hpos : 0 < radix) (hradix : radix ≤ 36) (hcarry : carry < 256 ^ 4)
    (h : Canonical mag) : Canonical (mulAdd radix mag carry) := by
  induction mag generalizing carry with
  | nil => exact (pushCarry_spec hcarry).2.1
  | cons b mag ih =>
    have hle : b.toNat * radix ≤ 255 * 36 := Nat.mul_le_mul (Nat.le_of_lt_succ b.isLt) hradix
    have hcarry' : (b.toNat * radix + carry) / 256 < 256 ^ 4 := by omega
    refine (ih hcarry' h.tail).cons fun hnil => ?_
    -- the top byte is the only one left, and does not become zero
    cases mag with
    | cons b' mag => cases hnil
    | nil =>
      have hb : 0 < b.toNat := by
        have hne := h (List.cons_ne_nil _ _)
        rw [List.getLast_singleton] at hne
        exact Nat.pos_of_ne_zero fun hzero => hne (BitVec.eq_of_toNat_eq hzero)
      have hquot := (pushCarry_spec hcarry').2.2 hnil
      have hprod : 0 < b.toNat * radix := Nat.mul_pos hb hpos
      exact ofNat_ne_zero (by omega) (Nat.lt_of_div_eq_zero (by decide) hquot)

end MulAdd

theorem toDigit_lt (c : Char) : toDigit c < 256 ^ 4 := by
  have hlt : c.toNat < 2 ^ 32 := c.val.toNat_lt
  unfold toDigit
  split
  · omega
  · split <;> omega

theorem intLitMagnitude_spec {radix : Nat} (hpos : 0 < radix) (hradix : radix ≤ 36)
    (digits : List Char) : bytesValue (intLitMagnitude radix digits) = natValue radix digits ∧
      Canonical (intLitMagnitude radix digits) := by
  unfold intLitMagnitude natValue
  have hstart : bytesValue [] = 0 ∧ Canonical [] := ⟨rfl, fun hne => absurd rfl hne⟩
  revert hstart
  generalize ([] : List (BitVec 8)) = mag
  generalize 0 = v
  intro hmag
  induction digits generalizing mag v with
  | nil => exact hmag
  | cons c digits ih =>
    refine ih _ _ ⟨?_, canonical_mulAdd hpos hradix (toDigit_lt c) hmag.2⟩
    rw [bytesValue_mulAdd hradix (toDigit_lt c), hmag.1]

theorem bytesValue_eq_ofDigits (mag : List (BitVec 8)) :
    bytesValue mag = Nat.ofDigits 256 (mag.map BitVec.toNat) := by
  induction mag with
  | nil => rfl
  | cons b mag ih =>
    rw [bytesValue_cons, ih, List.map_cons, Nat.ofDigits_cons]

/-- The bytes of a number, the lowest first, without a high zero byte. -/
def magnitude (v : Nat) : List (BitVec 8) := (Nat.digits 256 v).map (BitVec.ofNat 8)

theorem magnitude_bytesValue {mag : List (BitVec 8)} (h : Canonical mag) :
    magnitude (bytesValue mag) = mag := by
  have hdigits : Nat.digits 256 (bytesValue mag) = mag.map BitVec.toNat := by
    rw [bytesValue_eq_ofDigits]
    refine Nat.digits_ofDigits 256 (by decide) _ ?_ fun hne => ?_
    · intro l hl
      obtain ⟨b, -, rfl⟩ := List.mem_map.mp hl
      exact b.isLt
    · have hne' : mag ≠ [] := fun hnil => hne (by rw [hnil]; rfl)
      rw [List.getLast_map]
      exact fun hzero => h hne' (BitVec.eq_of_toNat_eq hzero)
  unfold magnitude
  rw [hdigits, List.map_map]
  refine (List.map_congr_left fun b _ => ?_).trans (List.map_id' mag)
  exact (BitVec.ofNat_toNat 8 b).trans (BitVec.setWidth_eq b)

theorem intLitMagnitude_eq {radix : Nat} (hpos : 0 < radix) (hradix : radix ≤ 36)
    (digits : List Char) :
    intLitMagnitude radix digits = magnitude (natValue radix digits) := by
  obtain ⟨hvalue, hcanon⟩ := intLitMagnitude_spec hpos hradix digits
  rw [← hvalue, magnitude_bytesValue hcanon]

/-! ## Integer literals -/

def signed (negative : Bool) (v : Nat) : Int := if negative then -v else v

/-- The literal for an integer: a SmallInteger in its range of 62 bits, else sign and magnitude. -/
def Literal.ofInt (v : Int) : Literal :=
  if smiMin ≤ v ∧ v ≤ smiMax then .int v else .bigInt (v < 0) (magnitude v.natAbs)

theorem intlitToLiteral_eq {radix : Nat} (hpos : 0 < radix) (hradix : radix ≤ 36)
    (negative : Bool) (digits : List Char) : intlitToLiteral negative radix digits =
      .ofInt (signed negative (natValue radix digits)) := by
  obtain ⟨hvalue, -⟩ := intLitMagnitude_spec hpos hradix digits
  have hmag := intLitMagnitude_eq hpos hradix digits
  unfold intlitToLiteral Literal.ofInt
  dsimp only
  rw [hvalue, hmag]
  generalize natValue radix digits = v
  have hlen : (magnitude v).length ≤ 8 ↔ v < 256 ^ 8 := by
    unfold magnitude
    rw [List.length_map, Nat.digits_length_le_iff (by decide)]
  unfold signed smiMin smiMax
  cases negative with
  | false =>
    simp only [Bool.false_eq_true, if_false]
    by_cases hfits : (v : Int) ≤ 2 ^ 61 - 1
    · rw [if_pos ⟨hlen.mpr (by omega), hfits⟩, if_pos ⟨by omega, hfits⟩]
    · rw [if_neg fun h => hfits h.2, if_neg fun h => hfits h.2]
      simp
  | true =>
    simp only [if_true]
    by_cases hfits : (v : Int) ≤ 2 ^ 61
    · rw [if_pos ⟨hlen.mpr (by omega), by omega⟩, if_pos ⟨by omega, by omega⟩]
    · rw [if_neg fun h => hfits (by omega), if_neg fun h => hfits (by omega), Int.natAbs_neg,
        Int.natAbs_natCast, decide_eq_true (by omega)]

/-! ## Numerals -/

/-- A number as it is written, without its sign. -/
inductive Numeral where
  | radix (base digits : List Char)
  | decimal (digits : List Char)
  | exponent (digits : List Char) (upper : Bool) (exp : List Char)
  /-- Without digits of its own, the scale is the number of fraction digits. -/
  | scaled (int frac : List Char) (scale : List Char)

namespace Numeral

def text : Numeral → List Char
  | radix base digits => base ++ 'r' :: digits
  | decimal digits => digits
  | exponent digits upper exp => digits ++ (if upper then 'E' else 'e') :: exp
  | scaled int frac scale => int ++ ((if frac = [] then [] else '.' :: frac) ++ 's' :: scale)

/-- A run of decimal digits. -/
def Digits (ds : List Char) : Prop := ∀ c ∈ ds, c.isDigit = true

/-- The digits are valid in the radix; letters are written in upper case. -/
def RadixDigits (radix : Nat) (ds : List Char) : Prop :=
  ∀ c ∈ ds, isRadixDigit c = true ∧ toDigit c < radix

def Wf : Numeral → Prop
  | radix base digits => base ≠ [] ∧ Digits base ∧ 2 ≤ natValue 10 base ∧ natValue 10 base ≤ 36 ∧
    digits ≠ [] ∧ RadixDigits (natValue 10 base) digits
  | decimal digits => digits ≠ [] ∧ Digits digits
  | exponent digits _ exp => digits ≠ [] ∧ Digits digits ∧ exp ≠ [] ∧ Digits exp ∧
    natValue 10 exp ≤ 10000
  | scaled int frac scale => int ≠ [] ∧ Digits int ∧ Digits frac ∧ Digits scale

/-- The text after the numeral does not continue it. -/
def Ends (tail : List Char) : Numeral → Prop
  | radix .. => ∀ c, tail.head? = some c → isRadixDigit c = false
  | exponent .. => ∀ c, tail.head? = some c → c.isDigit = false
  | scaled _ _ scale => ∀ c, tail.head? = some c →
    if scale = [] then isIdentCont c = false ∧ c ≠ ':' else c.isDigit = false
  | decimal _ => ∀ c, tail.head? = some c → c.isDigit = false ∧ c ≠ 'r' ∧
    (c = '.' → tail[1]?.any Char.isDigit = false) ∧
    (c = 's' → tail[1]?.any Char.isDigit = false ∧
      tail[1]?.any (fun c => isIdentCont c || c = ':') = true) ∧
    (c ∈ ['e', 'E', 'd', 'D'] → tail[1]?.any Char.isDigit = false ∧
      (tail[1]? = some '-' → tail[2]?.any Char.isDigit = false))

/-- The number that is written. -/
def value : Numeral → ℚ
  | radix base digits => natValue (natValue 10 base) digits
  | decimal digits => natValue 10 digits
  | exponent digits _ exp => natValue 10 digits * 10 ^ natValue 10 exp
  | scaled int frac _ => natValue 10 int + natValue 10 frac / 10 ^ frac.length

/-- The scale of a scaled decimal, which is limited. -/
def scaleValue : Numeral → Nat
  | scaled _ frac scale => if scale = [] then min frac.length 65535 else natValue 10 scale
  | _ => 0

/-- The token the lexer makes of it. -/
def tok (negative : Bool) : Numeral → Tok
  | radix base digits => .intLit negative (natValue 10 base) digits
  | decimal digits => .intLit negative 10 digits
  | exponent digits _ exp => .intLit negative 10 (digits ++ List.replicate (natValue 10 exp) '0')
  | scaled int frac scale => .scaledLit negative int frac (scaleValue (.scaled int frac scale))

end Numeral

/-! ## Lexing -/

theorem parseU32_eq {ds : List Char} (h : natValue 10 ds < 2 ^ 32) :
    parseU32 ds = some (natValue 10 ds) := if_pos h

theorem parseU32_spec (ds : List Char) :
    parseU32 ds = if natValue 10 ds < 2 ^ 32 then some (natValue 10 ds) else none := rfl

namespace Lexer

variable {lx : Lexer} {tail : List Char} {negative : Bool} {start : Span}

theorem rest_skip_append {s : List Char} (h : lx.rest = s ++ tail) :
    (lx.skip s.length).rest = tail := by
  rw [rest_skip, h, List.drop_left]

theorem lexRadix_eq {lead digits : List Char} (hrest : lx.rest = 'r' :: (digits ++ tail))
    (h2 : 2 ≤ natValue 10 lead) (h36 : natValue 10 lead ≤ 36) (hne : digits ≠ [])
    (hdigits : Numeral.RadixDigits (natValue 10 lead) digits)
    (hend : ∀ c, tail.head? = some c → isRadixDigit c = false) :
    lx.lexRadix negative start lead = .ok
      (.intLit negative (natValue 10 lead) digits, lx.skip (digits.length + 1)) := by
  have hrest' : lx.bump.rest = digits ++ tail := by rw [rest_bump, hrest, List.tail_cons]
  have hvalid : (digits.find? fun c => decide (natValue 10 lead ≤ toDigit c)) = none :=
    List.find?_eq_none.mpr fun c hc => by
      rw [decide_eq_true_eq, Nat.not_le]
      exact (hdigits c hc).2
  unfold lexRadix
  rw [parseU32_eq (by omega), Option.getD_some]
  dsimp only
  rw [if_neg (by omega), consumeWhile_eq hrest' (fun c hc => (hdigits c hc).1) hend]
  dsimp only
  rw [if_neg hne, hvalid]
  rfl

/-- A scale, with digits or without. -/
theorem tryConsumeScale_eq {scale : List Char} {default : Nat} (hdefault : default ≤ 65535)
    (hrest : lx.rest = 's' :: (scale ++ tail)) (hdigits : Numeral.Digits scale)
    (hend : ∀ c, tail.head? = some c →
      if scale = [] then isIdentCont c = false ∧ c ≠ ':' else c.isDigit = false) :
    lx.tryConsumeScale default start =
      if (if scale = [] then default else natValue 10 scale) ≤ 65535 then
        .ok (some (if scale = [] then default else natValue 10 scale, lx.skip (scale.length + 1)))
      else .error (err start "scaled-decimal scale too large") := by
  have hrest' : lx.bump.rest = scale ++ tail := by rw [rest_bump, hrest, List.tail_cons]
  have hnext : lx.peekCharAt 1 = (scale ++ tail).head? := by
    unfold peekCharAt
    rw [hrest, List.getElem?_cons_succ, List.head?_eq_getElem?]
  unfold tryConsumeScale
  rw [peekChar_eq hrest, if_neg (by simp), hnext]
  by_cases hnil : scale = []
  · subst hnil
    simp only [if_true] at hend
    rw [List.nil_append, if_pos rfl, if_pos hdefault]
    cases htail : tail.head? with
    | none => rfl
    | some c =>
      obtain ⟨hcont, hcolon⟩ := hend c htail
      have hdigit : c.isDigit = false := by
        unfold isIdentCont Char.isAlphanum at hcont
        simp only [Bool.or_eq_false_iff] at hcont
        exact hcont.1.2
      rw [Option.any_some, Option.any_some, hdigit, hcont, decide_eq_false hcolon]
      rfl
  · rw [if_neg hnil]
    simp only [if_neg hnil] at hend
    obtain ⟨d, ds, rfl⟩ := List.exists_cons_of_ne_nil hnil
    rw [List.cons_append, List.head?_cons, Option.any_some, hdigits d List.mem_cons_self,
      if_pos rfl, consumeWhile_eq hrest' hdigits hend]
    dsimp only
    rw [parseU32_spec]
    by_cases hlimit : natValue 10 (d :: ds) ≤ 65535
    · rw [if_pos hlimit, if_pos (by omega)]
      dsimp only
      rw [if_neg (by omega)]
      rfl
    · rw [if_neg hlimit]
      split
      · rfl
      · next heq =>
        obtain ⟨-, rfl⟩ : natValue 10 (d :: ds) < 2 ^ 32 ∧ natValue 10 (d :: ds) = _ := by
          simpa using heq
        rw [if_pos (by omega)]

theorem tryConsumeScale_none {default : Nat} (h : lx.peekChar ≠ some 's') :
    lx.tryConsumeScale default start = .ok none := if_pos h

theorem tryConsumeExponent_none {c : Char} (hc : lx.peekChar = some c)
    (h : c ∉ ['e', 'E', 'd', 'D']) : lx.tryConsumeExponent = none := by
  unfold tryConsumeExponent
  rw [hc]
  exact if_pos h

theorem tryConsumeExponent_eq {upper : Bool} {exp : List Char}
    (hrest : lx.rest = (if upper then 'E' else 'e') :: (exp ++ tail)) (hne : exp ≠ [])
    (hdigits : Numeral.Digits exp) (hend : ∀ c, tail.head? = some c → c.isDigit = false) :
    lx.tryConsumeExponent = some ('e', false, exp, lx.skip (exp.length + 1)) := by
  obtain ⟨d, ds, rfl⟩ := List.exists_cons_of_ne_nil hne
  have hd := hdigits d List.mem_cons_self
  have hnext : lx.peekCharAt 1 = some d := by
    unfold peekCharAt
    rw [hrest]
    rfl
  have hminus : d ≠ '-' := by
    rintro rfl
    cases hd
  have hrest' : (lx.skip 1).rest = d :: ds ++ tail := by rw [rest_skip, hrest]; rfl
  unfold tryConsumeExponent
  rw [peekChar_eq hrest]
  have hmarker : (if upper then 'E' else 'e') ∈ ['e', 'E', 'd', 'D'] := by cases upper <;> decide
  have hlower : (if upper then 'E' else 'e').toLower = 'e' := by cases upper <;> decide
  simp only [Option.bind_eq_bind, Option.bind_some, hmarker, not_true, if_false, hnext,
    Option.some.injEq, hminus, decide_false, Bool.false_eq_true, Option.any_some, hd, if_true,
    consumeWhile_eq hrest' hdigits hend, hlower]
  rw [skip_skip, Nat.add_comm]

/-- The digits a number starts with, and the rest. -/
theorem consumeLead {lead cs : List Char} {c : Char} (hrest : lx.rest = lead ++ c :: cs)
    (hlead : Numeral.Digits lead) (hc : c.isDigit = false) :
    lx.consumeWhile Char.isDigit = (lead, lx.skip lead.length) ∧
      (lx.skip lead.length).rest = c :: cs := by
  refine ⟨consumeWhile_eq hrest hlead fun c' hc' => ?_, rest_skip_append hrest⟩
  obtain rfl := Option.some.inj hc'
  exact hc

variable [F64]

theorem lexNumber_radix {base digits : List Char} (hn : (Numeral.radix base digits).Wf)
    (hrest : lx.rest = (Numeral.radix base digits).text ++ tail)
    (hend : (Numeral.radix base digits).Ends tail) : lx.lexNumber negative start = .ok
      (.intLit negative (natValue 10 base) digits, lx.skip (base.length + (digits.length + 1))) := by
  obtain ⟨-, hbase, h2, h36, hne, hdigits⟩ := hn
  rw [Numeral.text, List.append_assoc, List.cons_append] at hrest
  obtain ⟨hlead, hrest'⟩ := consumeLead hrest hbase rfl
  unfold lexNumber
  rw [hlead]
  dsimp only
  rw [if_pos (peekChar_eq hrest'), lexRadix_eq hrest' h2 h36 hne hdigits hend, skip_skip]

/-- After the digits, when no `r` and no fraction follows. -/
theorem lexNumber_lead {lead cs : List Char} {c : Char} (hrest : lx.rest = lead ++ c :: cs)
    (hlead : Numeral.Digits lead) (hc : c.isDigit = false) (hr : c ≠ 'r')
    (hpoint : c = '.' → cs.head?.any Char.isDigit = false) :
    lx.lexNumber negative start = (lx.skip lead.length).lexInteger negative start lead := by
  obtain ⟨hconsume, hrest'⟩ := consumeLead hrest hlead hc
  have hpeek := peekChar_eq hrest'
  have hfraction : ¬ ((lx.skip lead.length).peekChar = some '.' ∧
      ((lx.skip lead.length).peekCharAt 1).any Char.isDigit) := by
    rintro ⟨hdot, hdigit⟩
    rw [hpeek] at hdot
    have hnone := hpoint (Option.some.inj hdot)
    unfold peekCharAt at hdigit
    rw [hrest', List.getElem?_cons_succ, ← List.head?_eq_getElem?, hnone] at hdigit
    cases hdigit
  unfold lexNumber
  rw [hconsume]
  dsimp only
  rw [if_neg (by rw [hpeek]; simpa using hr), if_neg hfraction]

theorem lexNumber_exponent {digits exp : List Char} {upper : Bool}
    (hn : (Numeral.exponent digits upper exp).Wf)
    (hrest : lx.rest = (Numeral.exponent digits upper exp).text ++ tail)
    (hend : (Numeral.exponent digits upper exp).Ends tail) : lx.lexNumber negative start = .ok
      (.intLit negative 10 (digits ++ List.replicate (natValue 10 exp) '0'),
        lx.skip (digits.length + (exp.length + 1))) := by
  obtain ⟨-, hdigits, hne, hexp, hlimit⟩ := hn
  rw [Numeral.text, List.append_assoc, List.cons_append] at hrest
  have hmarker : (if upper then 'E' else 'e').isDigit = false := by cases upper <;> decide
  have hrest' := rest_skip_append hrest
  rw [lexNumber_lead hrest hdigits hmarker (by cases upper <;> decide)
    (by cases upper <;> intro h <;> cases h), lexInteger, tryConsumeScale_none
      (by rw [peekChar_eq hrest']; cases upper <;> decide), tryConsumeExponent_eq hrest' hne hexp hend]
  have hparse : parseU32 exp = some (natValue 10 exp) := parseU32_eq (by omega)
  simp only [Except.bind, bind, true_and, if_true, hparse, Nat.not_lt.mpr hlimit, if_false]
  rw [skip_skip]
  rfl

theorem lexNumber_decimal {digits : List Char} (hn : (Numeral.decimal digits).Wf)
    (hrest : lx.rest = digits ++ tail) (hend : (Numeral.decimal digits).Ends tail) :
    lx.lexNumber negative start = .ok (.intLit negative 10 digits, lx.skip digits.length) := by
  obtain ⟨-, hdigits⟩ := hn
  cases tail with
  | nil =>
    have hrest' := rest_skip_append hrest
    have hpeek : (lx.skip digits.length).peekChar = none := by
      unfold peekChar
      rw [hrest', List.head?_nil]
    unfold lexNumber
    rw [consumeWhile_eq hrest hdigits fun c hc => nomatch hc]
    dsimp only
    rw [if_neg (by rw [hpeek]; simp), if_neg (by rw [hpeek]; simp), lexInteger,
      tryConsumeScale_none (by rw [hpeek]; simp)]
    unfold tryConsumeExponent
    rw [hpeek]
    rfl
  | cons c cs =>
    obtain ⟨hc, hr, hpoint, hscale, hexp⟩ := hend c rfl
    have hrest' := rest_skip_append hrest
    have hat : ∀ n, (lx.skip digits.length).peekCharAt n = (c :: cs)[n]? := fun n => by
      unfold peekCharAt
      rw [hrest']
    rw [lexNumber_lead hrest hdigits hc hr fun h => by
      have h1 := hpoint h
      rwa [List.getElem?_cons_succ, ← List.head?_eq_getElem?] at h1]
    have hnoScale : (lx.skip digits.length).tryConsumeScale 0 start = .ok none := by
      unfold tryConsumeScale
      rw [peekChar_eq hrest']
      by_cases hs : c = 's'
      · obtain ⟨h1, h2⟩ := hscale hs
        rw [if_neg (by simpa using hs), hat, h1, if_neg (by simp), if_pos h2]
      · rw [if_pos (by simpa using hs)]
    have hnoExp : (lx.skip digits.length).tryConsumeExponent = none := by
      by_cases hmem : c ∈ ['e', 'E', 'd', 'D']
      · obtain ⟨h1, h2⟩ := hexp hmem
        unfold tryConsumeExponent
        rw [peekChar_eq hrest', hat]
        by_cases hminus : (c :: cs)[1]? = some '-'
        · simp only [Option.bind_eq_bind, Option.bind_some, hmem, not_true, if_false, hminus,
            decide_true, if_true, hat, h2 hminus, Bool.false_eq_true]
        · simp only [Option.bind_eq_bind, Option.bind_some, hmem, not_true, if_false, hminus,
            decide_false, hat, h1, Bool.false_eq_true]
      · exact tryConsumeExponent_none (peekChar_eq hrest') hmem
    rw [lexInteger, hnoScale, hnoExp]
    rfl

theorem lexNumber_scaled {int frac scale : List Char} (hn : (Numeral.scaled int frac scale).Wf)
    (hrest : lx.rest = (Numeral.scaled int frac scale).text ++ tail)
    (hend : (Numeral.scaled int frac scale).Ends tail) : lx.lexNumber negative start =
      if (Numeral.scaled int frac scale).scaleValue ≤ 65535 then
        .ok ((Numeral.scaled int frac scale).tok negative,
          lx.skip (Numeral.scaled int frac scale).text.length)
      else .error (err start "scaled-decimal scale too large") := by
  obtain ⟨-, hint, hfrac, hscale⟩ := hn
  rw [Numeral.text, List.append_assoc, List.append_assoc, List.cons_append] at hrest
  by_cases hnil : frac = []
  · subst hnil
    rw [if_pos rfl, List.nil_append] at hrest
    have hscaled : (lx.skip int.length).tryConsumeScale 0 start = _ :=
      tryConsumeScale_eq (Nat.zero_le _) (rest_skip_append hrest) hscale hend
    have hvalue : (if scale = [] then 0 else natValue 10 scale) =
        (Numeral.scaled int [] scale).scaleValue := by
      rw [Numeral.scaleValue, List.length_nil, Nat.zero_min]
    rw [hvalue, skip_skip] at hscaled
    rw [lexNumber_lead hrest hint rfl (by decide) (fun h => by cases h), lexInteger, hscaled]
    by_cases hlimit : (Numeral.scaled int [] scale).scaleValue ≤ 65535
    · rw [if_pos hlimit, if_pos hlimit, Numeral.text, List.length_append]
      rfl
    · rw [if_neg hlimit, if_neg hlimit]
      rfl
  · rw [if_neg hnil, List.cons_append] at hrest
    obtain ⟨d, ds, hfrac_eq⟩ := List.exists_cons_of_ne_nil hnil
    obtain ⟨hconsume, hrest'⟩ := consumeLead hrest hint rfl
    have hdigit : ((lx.skip int.length).peekCharAt 1).any Char.isDigit = true := by
      unfold peekCharAt
      rw [hrest', hfrac_eq]
      exact hfrac d (hfrac_eq ▸ List.mem_cons_self)
    have hbump : (lx.skip int.length).bump.rest = frac ++ 's' :: (scale ++ tail) := by
      rw [rest_bump, hrest', List.tail_cons]
    obtain ⟨hconsume', hrest''⟩ := consumeLead hbump hfrac rfl
    have hscaled : ((lx.skip int.length).bump.skip frac.length).tryConsumeScale
        (min frac.length 65535) start = _ :=
      tryConsumeScale_eq (Nat.min_le_right frac.length 65535) hrest'' hscale hend
    unfold lexNumber
    rw [hconsume]
    dsimp only
    rw [if_neg (by rw [peekChar_eq hrest']; simp), if_pos ⟨peekChar_eq hrest', hdigit⟩]
    unfold lexFraction
    rw [hconsume']
    dsimp only
    rw [bump_skip, skip_skip, skip_skip] at hscaled
    change _ = if (Numeral.scaled int frac scale).scaleValue ≤ 65535 then _ else _ at hscaled
    rw [bump_skip, skip_skip, hscaled]
    have hlen : (Numeral.scaled int frac scale).text.length =
        int.length + 1 + frac.length + (scale.length + 1) := by
      rw [Numeral.text, if_neg hnil]
      simp only [List.length_append, List.length_cons]
      omega
    by_cases hlimit : (Numeral.scaled int frac scale).scaleValue ≤ 65535
    · rw [if_pos hlimit, if_pos hlimit, hlen]
      rfl
    · rw [if_neg hlimit, if_neg hlimit]
      rfl

/-- The token of a numeral, unless its scale is too large. -/
theorem lexNumber_eq {n : Numeral} (hn : n.Wf) (hrest : lx.rest = n.text ++ tail)
    (hend : n.Ends tail) : lx.lexNumber negative start =
      if n.scaleValue ≤ 65535 then .ok (n.tok negative, lx.skip n.text.length)
      else .error (err start "scaled-decimal scale too large") := by
  cases n with
  | radix base digits =>
    rw [lexNumber_radix hn hrest hend, if_pos (show (Numeral.radix base digits).scaleValue ≤ 65535
      from Nat.zero_le _), Numeral.text, List.length_append]
    rfl
  | decimal digits =>
    rw [lexNumber_decimal hn hrest hend, if_pos (show (Numeral.decimal digits).scaleValue ≤ 65535
      from Nat.zero_le _)]
    rfl
  | exponent digits upper exp =>
    rw [lexNumber_exponent hn hrest hend,
      if_pos (show (Numeral.exponent digits upper exp).scaleValue ≤ 65535 from Nat.zero_le _),
      Numeral.text, List.length_append]
    rfl
  | scaled int frac scale => exact lexNumber_scaled hn hrest hend

end Lexer

/-! ## Tokens -/

theorem isWhitespace_digit {c : Char} (h : c.isDigit = true) : isWhitespace c = false := by
  unfold Char.isDigit at h
  simp only [Bool.and_eq_true, decide_eq_true_eq] at h
  have hlo : 48 ≤ c.toNat := h.1
  have hhi : c.toNat ≤ 57 := h.2
  unfold isWhitespace
  simp only [List.mem_cons, List.not_mem_nil, or_false, Bool.or_eq_false_iff, Bool.and_eq_false_iff,
    decide_eq_false_iff_not]
  omega

theorem isIdentStart_digit {c : Char} (h : c.isDigit = true) : isIdentStart c = false := by
  unfold Char.isDigit at h
  simp only [Bool.and_eq_true, decide_eq_true_eq] at h
  have hlo : 48 ≤ c.val.toNat := h.1
  have hhi : c.val.toNat ≤ 57 := h.2
  unfold isIdentStart Char.isAlpha Char.isUpper Char.isLower
  simp only [Bool.or_eq_false_iff, Bool.and_eq_false_iff, decide_eq_false_iff_not]
  refine ⟨⟨?_, ?_⟩, ?_⟩
  · rintro ⟨hle, -⟩
    have : 65 ≤ c.val.toNat := hle
    omega
  · left
    intro hle
    have : 97 ≤ c.val.toNat := hle
    omega
  · rintro rfl
    exact absurd hhi (by decide)

namespace Numeral

def sign (negative : Bool) : List Char := if negative then ['-'] else []

/-- A numeral starts with a digit. -/
theorem text_cons {n : Numeral} (hn : n.Wf) : ∃ c cs, n.text = c :: cs ∧ c.isDigit = true := by
  have hcons : ∀ {ds : List Char} (cs : List Char), ds ≠ [] → Digits ds →
      ∃ c cs', ds ++ cs = c :: cs' ∧ c.isDigit = true := by
    rintro ds cs hne hdigits
    obtain ⟨c, ds, rfl⟩ := List.exists_cons_of_ne_nil hne
    exact ⟨c, ds ++ cs, rfl, hdigits c List.mem_cons_self⟩
  cases n with
  | radix base digits => exact hcons _ hn.1 hn.2.1
  | decimal digits =>
    obtain ⟨c, cs, htext, hc⟩ := hcons [] hn.1 hn.2
    exact ⟨c, cs, by rwa [List.append_nil] at htext, hc⟩
  | exponent digits upper exp => exact hcons _ hn.1 hn.2.1
  | scaled int frac scale => exact hcons _ hn.1 hn.2.1

theorem tokEndsExpr_tok (negative : Bool) (n : Numeral) : tokEndsExpr (n.tok negative) = true := by
  cases n <;> rfl

end Numeral

namespace Lexer

variable {lx : Lexer} {tail : List Char} {negative : Bool}

variable [F64]

/-- A number with its sign, where a sign is read as one. -/
theorem lexToken_number {d : Char} {ds : List Char} (hd : d.isDigit = true)
    (hrest : lx.rest = Numeral.sign negative ++ (d :: ds) ++ tail)
    (hsign : negative = true → lx.inLiteralSeq = true ∨ lx.prevEndsExpr = false) :
    ∃ c cs, lx.rest = c :: cs ∧ isWhitespace c = false ∧ c ≠ '"' ∧
      lx.lexToken c = (lx.skip (Numeral.sign negative).length).lexNumber negative lx.here := by
  cases negative with
  | false =>
    refine ⟨d, ds ++ tail, hrest, isWhitespace_digit hd, ?_, ?_⟩
    · rintro rfl
      cases hd
    · unfold lexToken
      dsimp only
      rw [if_neg (by rw [isIdentStart_digit hd]; exact Bool.false_ne_true), if_pos hd]
      rfl
  | true =>
    refine ⟨'-', d :: ds ++ tail, hrest, by decide, by decide, ?_⟩
    have hnext : (lx.peekCharAt 1).any Char.isDigit = true := by
      unfold peekCharAt
      rw [hrest]
      exact hd
    have hmode : lx.inLiteralSeq = true ∨ ¬lx.prevEndsExpr = true := by
      simpa using hsign rfl
    unfold lexToken
    dsimp only
    rw [if_neg (by decide), if_neg (by decide), if_pos rfl, if_pos ⟨hnext, hmode⟩]
    rfl

/-- The next token is the number, unless its scale is too large. -/
theorem nextToken_number {n : Numeral} (hn : n.Wf)
    (hrest : lx.rest = Numeral.sign negative ++ n.text ++ tail) (hend : n.Ends tail)
    (hsign : negative = true → lx.inLiteralSeq = true ∨ lx.prevEndsExpr = false) :
    lx.nextToken =
      if n.scaleValue ≤ 65535 then
        .ok ((n.tok negative, lx.here),
          { lx.skip ((Numeral.sign negative).length + n.text.length) with prevEndsExpr := true })
      else .error (err lx.here "scaled-decimal scale too large") := by
  obtain ⟨d, ds, htext, hd⟩ := Numeral.text_cons hn
  obtain ⟨c, cs, hcons, hspace, hquote, htoken⟩ :=
    lexToken_number hd (by rw [hrest, htext]) hsign
  have hrest' : (lx.skip (Numeral.sign negative).length).rest = n.text ++ tail :=
    rest_skip_append (by rw [hrest, List.append_assoc])
  unfold nextToken
  have htrivia : lx.skipTrivia = .ok lx := skipTrivia_self <| by
    rw [hcons, List.head?_cons, Option.any_some, hspace, decide_eq_false hquote, Bool.or_false]
  rw [htrivia]
  simp only [bind, Except.bind, peekChar_eq hcons]
  rw [htoken, lexNumber_eq hn hrest' hend]
  by_cases hscale : n.scaleValue ≤ 65535
  · rw [if_pos hscale, if_pos hscale, skip_skip]
    simp only [Numeral.tokEndsExpr_tok]
    rfl
  · rw [if_neg hscale, if_neg hscale]

end Lexer

/-! ## Values -/

theorem natValue_append (radix : Nat) (ds es : List Char) :
    natValue radix (ds ++ es) = natValue radix ds * radix ^ es.length + natValue radix es := by
  have hfrom : ∀ (es : List Char) (v : Nat), es.foldl (fun v c => v * radix + toDigit c) v =
      v * radix ^ es.length + natValue radix es := by
    intro es
    induction es with
    | nil =>
      intro v
      rw [List.length_nil, Nat.pow_zero, Nat.mul_one]
      rfl
    | cons c es ih =>
      intro v
      unfold natValue
      rw [List.foldl_cons, List.foldl_cons, ih, ih (0 * radix + toDigit c), List.length_cons,
        Nat.pow_succ]
      ring
  unfold natValue
  rw [List.foldl_append]
  exact hfrom es _

theorem natValue_zeros (radix k : Nat) : natValue radix (List.replicate k '0') = 0 := by
  induction k with
  | zero => rfl
  | succ k ih =>
    rw [List.replicate_succ', natValue_append, ih, Nat.zero_mul, Nat.zero_add]
    exact (Nat.add_eq_zero_iff.mpr ⟨Nat.zero_mul radix, rfl⟩ : 0 * radix + toDigit '0' = 0)

theorem natValue_one_zeros (k : Nat) : natValue 10 ('1' :: List.replicate k '0') = 10 ^ k := by
  have happend := natValue_append 10 ['1'] (List.replicate k '0')
  rw [List.singleton_append, natValue_zeros, List.length_replicate] at happend
  rw [happend]
  exact (Nat.add_zero _).trans (Nat.one_mul _)

/-- The number that a literal is. -/
def Literal.number? : Literal → Option ℚ
  | .int v => some v
  | .bigInt negative mag => some (signed negative (bytesValue mag))
  | _ => none

/-- The number that an expression denotes: a literal, or a fraction. -/
def Expr.number? : Expr → Option ℚ
  | .lit value _ => value.number?
  | .send (.var name _) selector [.lit numerator _, .lit denominator _, .lit (.int _) _] false _ =>
    if name = "ScaledDecimal" ∧ selector = "numerator:denominator:scale:" then do
      let n ← numerator.number?
      let d ← denominator.number?
      if d = 0 then none else some (n / d)
    else none
  | _ => none

theorem bytesValue_magnitude (v : Nat) : bytesValue (magnitude v) = v := by
  unfold magnitude
  rw [bytesValue_eq_ofDigits, List.map_map]
  have hid : (Nat.digits 256 v).map (BitVec.toNat ∘ BitVec.ofNat 8) = Nat.digits 256 v := by
    refine (List.map_congr_left fun d hd => ?_).trans (List.map_id' _)
    rw [Function.comp_apply, BitVec.toNat_ofNat]
    exact Nat.mod_eq_of_lt (Nat.digits_lt_base (by decide) hd)
  rw [hid, Nat.ofDigits_digits]

theorem number?_ofInt (v : Int) : (Literal.ofInt v).number? = some (v : ℚ) := by
  unfold Literal.ofInt
  split
  · rfl
  · change some ((signed (v < 0) (bytesValue (magnitude v.natAbs)) : Int) : ℚ) = _
    rw [bytesValue_magnitude]
    congr 2
    unfold signed
    split
    · next h =>
      have := of_decide_eq_true h
      omega
    · next h =>
      have : ¬ v < 0 := by simpa using h
      omega

namespace Numeral

/-- What the parser makes of a numeral. -/
def expr (negative : Bool) (span : Span) : Numeral → Expr
  | radix base digits =>
    .lit (.ofInt (signed negative (natValue (natValue 10 base) digits))) span
  | decimal digits => .lit (.ofInt (signed negative (natValue 10 digits))) span
  | exponent digits _ exp =>
    .lit (.ofInt (signed negative (natValue 10 digits * 10 ^ natValue 10 exp))) span
  | scaled int frac scale =>
    .send (.var "ScaledDecimal" span) "numerator:denominator:scale:"
      [.lit (.ofInt (signed negative (natValue 10 (int ++ frac)))) span,
       .lit (.ofInt (10 ^ frac.length)) span,
       .lit (.int (scaleValue (.scaled int frac scale))) span] false span

variable {n : Numeral} {negative : Bool} {span : Span}

theorem primaryOf_tok (hn : n.Wf) :
    Parser.primaryOf (n.tok negative) span = some (n.expr negative span, false) := by
  cases n with
  | radix base digits =>
    obtain ⟨-, -, h2, h36, -, -⟩ := hn
    exact congrArg (fun l => some (Expr.lit l span, false))
      (intlitToLiteral_eq (by omega) h36 negative digits)
  | decimal digits =>
    exact congrArg (fun l => some (Expr.lit l span, false))
      (intlitToLiteral_eq (by decide) (by decide) negative digits)
  | exponent digits upper exp =>
    have hlit := intlitToLiteral_eq (show 0 < 10 by decide) (by decide) negative
      (digits ++ List.replicate (natValue 10 exp) '0')
    rw [natValue_append, natValue_zeros, List.length_replicate, Nat.add_zero] at hlit
    exact congrArg (fun l => some (Expr.lit l span, false)) hlit
  | scaled int frac scale =>
    have hnum := intlitToLiteral_eq (show 0 < 10 by decide) (by decide) negative (int ++ frac)
    have hden := intlitToLiteral_eq (show 0 < 10 by decide) (by decide) false
      ('1' :: List.replicate frac.length '0')
    rw [natValue_one_zeros] at hden
    unfold tok Parser.primaryOf expr scaledToSend
    dsimp only
    rw [hnum, hden]
    rfl

theorem signed_cast (negative : Bool) (v : Nat) :
    ((signed negative v : Int) : ℚ) = if negative then -(v : ℚ) else v := by
  unfold signed
  cases negative with
  | false => simp
  | true => simp

theorem number?_expr (hn : n.Wf) :
    (n.expr negative span).number? = some (if negative then -n.value else n.value) := by
  cases n with
  | radix base digits => exact (number?_ofInt _).trans (congrArg some (signed_cast ..))
  | decimal digits => exact (number?_ofInt _).trans (congrArg some (signed_cast ..))
  | exponent digits upper exp =>
    refine (number?_ofInt _).trans (congrArg some ((signed_cast ..).trans ?_))
    rw [Nat.cast_mul, Nat.cast_pow]
    rfl
  | scaled int frac scale =>
    have hpow : (10 : ℚ) ^ frac.length ≠ 0 := pow_ne_zero _ (by norm_num)
    rw [expr, Expr.number?, if_pos ⟨rfl, rfl⟩, number?_ofInt, number?_ofInt]
    simp only [Option.bind_eq_bind, Option.bind_some]
    rw [signed_cast, if_neg (by push_cast; exact hpow), natValue_append]
    congr 1
    unfold value
    push_cast
    cases negative with
    | false =>
      simp only [Bool.false_eq_true, if_false]
      field_simp
    | true =>
      simp only [if_true]
      field_simp

end Numeral

section Parsing

variable [F64] {n : Numeral} {negative : Bool} {span : Span} {p : Parser}

theorem parsePrimary_number (hn : n.Wf) (hcur : p.cur = (n.tok negative, span)) (k : Nat) :
    Parser.parsePrimary (k + 1) p =
      (do Parser.bump; return (n.expr negative span, false) : Parse _) p := by
  have hprimary : Parser.primaryOf (n.tok negative) span = _ := n.primaryOf_tok hn
  rw [Parser.parsePrimary, Parser.get_bind, hcur]
  dsimp only
  rw [hprimary]

/-- As an element of a literal array, where there are no scaled decimals. -/
theorem parseArrayElem_number (hn : n.Wf) (hcur : p.cur = (n.tok negative, span)) {value : Literal}
    (hvalue : n.expr negative span = .lit value span) (k : Nat) :
    Parser.parseArrayElem (k + 1) p = (do Parser.bump; return value : Parse _) p := by
  have helem : Parser.arrayElemOf (n.tok negative) = some value := by
    have hprimary : Parser.primaryOf (n.tok negative) span = _ := n.primaryOf_tok hn
    rw [hvalue] at hprimary
    cases n with
    | scaled int frac scale => cases hvalue
    | _ =>
      injection hprimary with hprimary
      injection hprimary with hprimary
      injection hprimary with hprimary
      exact congrArg some hprimary
  rw [Parser.parseArrayElem, Parser.get_bind, hcur]
  dsimp only
  rw [helem]

end Parsing

/-- The magnitude of digits in any radix is canonical; their literal is a SmallInteger exactly in
its range, else their sign and magnitude; and a numeral that is read parses to its number. -/
theorem number_literal_exact [F64] :
    (∀ radix digits, 2 ≤ radix → radix ≤ 36 →
      intLitMagnitude radix digits = magnitude (natValue radix digits)) ∧
    (∀ negative radix digits, 2 ≤ radix → radix ≤ 36 →
      intlitToLiteral negative radix digits =
        .ofInt (signed negative (natValue radix digits))) ∧
    ∀ (n : Numeral) (negative : Bool) (lx : Lexer) (tail : List Char), n.Wf →
      lx.rest = Numeral.sign negative ++ n.text ++ tail → n.Ends tail →
      (negative = true → lx.inLiteralSeq = true ∨ lx.prevEndsExpr = false) →
      if n.scaleValue ≤ 65535 then
        (∃ lx', lx.nextToken = .ok ((n.tok negative, lx.here), lx') ∧ lx'.rest = tail) ∧
        (n.expr negative lx.here).number? = some (if negative then -n.value else n.value) ∧
        ∀ (k : Nat) (p : Parser), p.cur = (n.tok negative, lx.here) →
          Parser.parsePrimary (k + 1) p =
            (do Parser.bump; return (n.expr negative lx.here, false) : Parse _) p ∧
          ∀ value, n.expr negative lx.here = .lit value lx.here →
            Parser.parseArrayElem (k + 1) p = (do Parser.bump; return value : Parse _) p
      else lx.nextToken = .error (Lexer.err lx.here "scaled-decimal scale too large") := by
  refine ⟨fun radix digits h2 h36 => intLitMagnitude_eq (by omega) h36 digits,
    fun negative radix digits h2 h36 => intlitToLiteral_eq (by omega) h36 negative digits,
    fun n negative lx tail hn hrest hend hsign => ?_⟩
  have hnext := Lexer.nextToken_number hn hrest hend hsign
  split
  · next hscale =>
    rw [if_pos hscale] at hnext
    refine ⟨⟨_, hnext, ?_⟩, Numeral.number?_expr hn, fun k p hcur =>
      ⟨parsePrimary_number hn hcur k, fun value hvalue => parseArrayElem_number hn hcur hvalue k⟩⟩
    rw [← List.length_append]
    exact Lexer.rest_skip_append hrest
  · next hscale => rw [hnext, if_neg hscale]

/-- `-16r1F` and `3.14s`. -/
theorem number_literal_exact_radix_scaled :
    letI : F64 := ⟨fun _ => 0⟩
    intLitMagnitude 16 "1FF".toList = [0xFF, 0x01] ∧
    (∃ lx', (Lexer.new "-16r1F ".toList).nextToken =
      .ok ((.intLit true 16 ['1', 'F'], ⟨1, 1⟩), lx') ∧ lx'.rest = [' ']) ∧
    (∃ lx', (Lexer.new "3.14s]".toList).nextToken =
      .ok ((.scaledLit false ['3'] ['1', '4'] 2, ⟨1, 1⟩), lx') ∧ lx'.rest = [']']) ∧
    ((Numeral.scaled ['3'] ['1', '4'] []).expr false ⟨1, 1⟩).number? = some (157 / 50) := by
  let _ : F64 := ⟨fun _ => 0⟩
  have hradix := number_literal_exact.2.2 (.radix ['1', '6'] ['1', 'F']) true
    (Lexer.new "-16r1F ".toList) [' ']
    ⟨by decide, List.all_eq_true.mp (by decide), by decide, by decide, by decide,
      List.forall_mem_cons.mpr ⟨by decide, List.forall_mem_singleton.mpr (by decide)⟩⟩ (by decide)
    (fun c hc => Option.some.inj hc ▸ rfl) (fun _ => .inr rfl)
  have hscaled := number_literal_exact.2.2 (.scaled ['3'] ['1', '4'] []) false
    (Lexer.new "3.14s]".toList) [']']
    ⟨by decide, List.all_eq_true.mp (by decide), List.all_eq_true.mp (by decide),
      List.forall_mem_nil _⟩ (by decide)
    (fun c hc => Option.some.inj hc ▸ by decide) (fun h => nomatch h)
  refine ⟨by decide, hradix.1, hscaled.1, hscaled.2.1.trans ?_⟩
  have hint : natValue 10 ['3'] = 3 := by decide
  have hfrac : natValue 10 ['1', '4'] = 14 := by decide
  simp only [Numeral.value, hint, hfrac, List.length_cons, List.length_nil]
  norm_num

end WinVm.Frontend
