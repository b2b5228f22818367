import Mathlib
import WinVm.Frontend.Ast
import WinVm.Lib.Text

/-!
# The lexer

`frontend/lexer.rs`. The parser drives two modes of it: inside a literal array (`inLiteralSeq`) a
minus before a digit is always a sign, and inside a pragma (`pragmaMode`) a `>` never merges with
the character after it.

How a float's text is read is a parameter, `F64.fromStr`. The text has a form that Rust's
`f64::from_str` always accepts.
-/

namespace WinVm.Frontend

open WinVm.Lib (isWhitespace)

/-- `f64::from_str`, as bits. -/
class F64 where
  fromStr : String → BitVec 64

inductive Tok where
  | ident (name : String)
  | keyword (name : String)
  | binarySel (sel : String)
  | intLit (negative : Bool) (radix : Nat) (digits : List Char)
  | scaledLit (negative : Bool) (intDigits fracDigits : List Char) (scale : Nat)
  | floatLit (bits : BitVec 64)
  | charLit (c : Char)
  | strLit (s : String)
  | symLit (s : String)
  | litArrayOpen
  | byteArrayOpen
  | lParen
  | rParen
  | lBracket
  | rBracket
  | lBrace
  | rBrace
  | vBar
  | semi
  | period
  | caret
  | assign
  | colon
  | eof
deriving DecidableEq, Repr

/-! ## Characters -/

/-- `BINARY_CHARS`. -/
def isBinaryChar (c : Char) : Bool :=
  c ∈ ['+', '-', '*', '/', '\\', '~', '<', '>', '=', '&', '|', '@', '%', ',', '?', '!']

def isIdentStart (c : Char) : Bool := c.isAlpha || c = '_'

def isIdentCont (c : Char) : Bool := c.isAlphanum || c = '_'

def isRadixDigit (c : Char) : Bool := c.isDigit || c.isUpper

/-- `to_digit(36)`, on the characters that are digits in some radix. -/
def toDigit (c : Char) : Nat :=
  if c.isDigit then c.toNat - 48 else if c.isUpper then c.toNat - 55 else c.toNat - 87

/-- `str::parse::<u32>` of ASCII digits. -/
def parseU32 (digits : List Char) : Option Nat :=
  let v := digits.foldl (fun v c => v * 10 + toDigit c) 0
  if v < 2 ^ 32 then some v else none

/-- `-v`. -/
def negF64 (bits : BitVec 64) : BitVec 64 := bits ^^^ (1#64 <<< 63)

def tokEndsExpr : Tok → Bool
  | .ident _ | .intLit .. | .scaledLit .. | .floatLit _ | .charLit _ | .strLit _ | .symLit _
  | .rParen | .rBracket | .rBrace => true
  | _ => false

/-! ## Reading characters -/

structure Lexer where
  rest : List Char
  line : BitVec 32
  col : BitVec 32
  prevEndsExpr : Bool
  pragmaMode : Bool
  inLiteralSeq : Bool
deriving DecidableEq, Repr

namespace Lexer

def new (input : List Char) : Lexer :=
  { rest := input, line := 1, col := 1, prevEndsExpr := false, pragmaMode := false
    inLiteralSeq := false }

def peekChar (lx : Lexer) : Option Char := lx.rest.head?

def peekCharAt (lx : Lexer) (n : Nat) : Option Char := lx.rest[n]?

def here (lx : Lexer) : Span := ⟨lx.line, lx.col⟩

/-- Columns count bytes. -/
def bump (lx : Lexer) : Lexer :=
  match lx.rest with
  | [] => lx
  | c :: rest =>
    if c = '\n' then { lx with rest, line := lx.line + 1, col := 1 }
    else { lx with rest, col := lx.col + BitVec.ofNat 32 c.utf8Size }

def skip : Nat → Lexer → Lexer
  | 0, lx => lx
  | n + 1, lx => skip n lx.bump

def consumeWhile (p : Char → Bool) (lx : Lexer) : List Char × Lexer :=
  let s := lx.rest.takeWhile p
  (s, lx.skip s.length)

section

variable (lx : Lexer)

@[simp] theorem rest_bump : lx.bump.rest = lx.rest.tail := by
  unfold bump
  split
  · next h => rw [h, List.tail_nil]
  · next h =>
    rw [h]
    split <;> rfl

theorem rest_skip (n : Nat) : (lx.skip n).rest = lx.rest.drop n := by
  induction n generalizing lx with
  | zero => rfl
  | succ n ih => rw [skip, ih, rest_bump, ← List.drop_one, List.drop_drop, Nat.add_comm]

theorem rest_takeWhile (p : Char → Bool) :
    (lx.skip (lx.rest.takeWhile p).length).rest = lx.rest.dropWhile p := by
  calc (lx.skip (lx.rest.takeWhile p).length).rest
      = (lx.rest.takeWhile p ++ lx.rest.dropWhile p).drop (lx.rest.takeWhile p).length := by
        rw [rest_skip, List.takeWhile_append_dropWhile]
    _ = lx.rest.dropWhile p := List.drop_left

theorem skip_skip (m n : Nat) : (lx.skip m).skip n = lx.skip (m + n) := by
  induction m generalizing lx with
  | zero => rw [Nat.zero_add]; rfl
  | succ m ih => rw [skip, ih, Nat.succ_add]; rfl

theorem bump_skip (n : Nat) : (lx.skip n).bump = lx.skip (n + 1) := lx.skip_skip n 1

/-- Pragma mode, literal mode, and whether the last token ended an expression. -/
def modes : Bool × Bool × Bool := (lx.pragmaMode, lx.inLiteralSeq, lx.prevEndsExpr)

theorem modes_bump : lx.bump.modes = lx.modes := by
  unfold bump
  split
  · rfl
  · split <;> rfl

theorem modes_skip (n : Nat) : (lx.skip n).modes = lx.modes := by
  induction n generalizing lx with
  | zero => rfl
  | succ n ih => exact (ih lx.bump).trans lx.modes_bump

variable {lx}

theorem peekChar_eq {c : Char} {cs : List Char} (h : lx.rest = c :: cs) : lx.peekChar = some c := by
  unfold peekChar
  rw [h, List.head?_cons]

theorem consumeWhile_eq {p : Char → Bool} {s tail : List Char} (h : lx.rest = s ++ tail)
    (hs : ∀ c ∈ s, p c = true) (htail : ∀ c, tail.head? = some c → p c = false) :
    lx.consumeWhile p = (s, lx.skip s.length) := by
  have htake : lx.rest.takeWhile p = s := by
    have hnil : tail.takeWhile p = [] := by
      cases tail with
      | nil => rfl
      | cons c cs =>
        rw [List.takeWhile_cons, htail c rfl]
        rfl
    rw [h, List.takeWhile_append_of_pos hs, hnil, List.append_nil]
  unfold consumeWhile
  rw [htake]

end

def err (span : Span) (msg : String) : CompileError := ⟨span, msg, false⟩

def errEof (span : Span) (msg : String) : CompileError := ⟨span, msg, true⟩

/-- The loops of `skip_trivia`, over the characters ahead; inside a comment with its start. -/
def skipTriviaFrom : List Char → Option Span → Lexer → Except CompileError Lexer
  | [], none, lx => .ok lx
  | [], some start, _ => .error (errEof start "unterminated comment")
  | c :: cs, none, lx =>
    if isWhitespace c then skipTriviaFrom cs none lx.bump
    else if c = '"' then skipTriviaFrom cs (some lx.here) lx.bump
    else .ok lx
  | '"' :: '"' :: cs, some start, lx => skipTriviaFrom cs (some start) lx.bump.bump
  | c :: cs, some start, lx =>
    skipTriviaFrom cs (if c = '"' then none else some start) lx.bump

def skipTrivia (lx : Lexer) : Except CompileError Lexer := skipTriviaFrom lx.rest none lx

/-! ## Tokens -/

def lexIdentOrKeyword (lx : Lexer) : Tok × Lexer :=
  let (ident, lx) := lx.consumeWhile isIdentCont
  if lx.peekChar = some ':' ∧ lx.peekCharAt 1 ≠ some '=' then
    (.keyword (String.ofList (ident ++ [':'])), lx.bump)
  else (.ident (String.ofList ident), lx)

/-- The marker in lower case, whether there is a minus, and the digits. -/
def tryConsumeExponent (lx : Lexer) : Option (Char × Bool × List Char × Lexer) := do
  let c ← lx.peekChar
  if c ∉ ['e', 'E', 'd', 'D'] then none
  else
    let neg : Bool := lx.peekCharAt 1 = some '-'
    if (lx.peekCharAt (if neg then 2 else 1)).any Char.isDigit then
      let (digits, lx) := (lx.skip (if neg then 2 else 1)).consumeWhile Char.isDigit
      some (c.toLower, neg, digits, lx)
    else none

def tryConsumeScale (lx : Lexer) (default : Nat) (start : Span) :
    Except CompileError (Option (Nat × Lexer)) :=
  if lx.peekChar ≠ some 's' then .ok none
  else if (lx.peekCharAt 1).any Char.isDigit then
    let (digits, lx) := lx.bump.consumeWhile Char.isDigit
    match parseU32 digits with
    | none => .error (err start "scaled-decimal scale too large")
    | some scale =>
      if 65535 < scale then .error (err start "scaled-decimal scale too large")
      else .ok (some (scale, lx))
  else if (lx.peekCharAt 1).any fun c => isIdentCont c || c = ':' then .ok none
  else .ok (some (default, lx.bump))

/-- After the digits before an `r`. -/
def lexRadix (negative : Bool) (start : Span) (lead : List Char) (lx : Lexer) :
    Except CompileError (Tok × Lexer) :=
  let radix := (parseU32 lead).getD 0
  if radix < 2 ∨ 36 < radix then
    .error (err start s!"radix {radix} out of range 2..=36")
  else
    let (digits, lx) := lx.bump.consumeWhile isRadixDigit
    if digits = [] then .error (err start "radix literal has no digits after 'r'")
    else match digits.find? fun c => radix ≤ toDigit c with
      | some c => .error (err start s!"digit '{c}' is not valid in radix {radix}")
      | none => .ok (.intLit negative radix digits, lx)

def exponentText (neg : Bool) (digits : List Char) : List Char :=
  'e' :: ((if neg then ['-'] else []) ++ digits)

variable [F64]

def floatTok (negative : Bool) (text : List Char) : Tok :=
  let v := F64.fromStr (String.ofList text)
  .floatLit (if negative then negF64 v else v)

/-- After the digits before a point that another digit follows. -/
def lexFraction (negative : Bool) (start : Span) (lead : List Char) (lx : Lexer) :
    Except CompileError (Tok × Lexer) := do
  let (frac, lx) := lx.bump.consumeWhile Char.isDigit
  match ← lx.tryConsumeScale (min frac.length 65535) start with
  | some (scale, lx) => pure (.scaledLit negative lead frac scale, lx)
  | none =>
    let text := lead ++ '.' :: frac
    match lx.tryConsumeExponent with
    | some (_, neg, digits, lx) =>
      pure (floatTok negative (text ++ exponentText neg digits), lx)
    | none => pure (floatTok negative text, lx)

/-- After digits that neither an `r` nor a fraction follows. -/
def lexInteger (negative : Bool) (start : Span) (lead : List Char) (lx : Lexer) :
    Except CompileError (Tok × Lexer) := do
  match ← lx.tryConsumeScale 0 start with
  | some (scale, lx) => pure (.scaledLit negative lead [] scale, lx)
  | none =>
    match lx.tryConsumeExponent with
    | none => pure (.intLit negative 10 lead, lx)
    | some (marker, neg, digits, lx) =>
      if marker = 'e' ∧ neg = false then
        match parseU32 digits with
        | none => .error (err start "integer exponent too large")
        | some exp =>
          if 10000 < exp then
            .error (err start "integer exponent too large (limit 10000 digits)")
          else pure (.intLit negative 10 (lead ++ List.replicate exp '0'), lx)
      else pure (floatTok negative (lead ++ exponentText neg digits), lx)

def lexNumber (negative : Bool) (start : Span) (lx : Lexer) : Except CompileError (Tok × Lexer) :=
  let (lead, lx) := lx.consumeWhile Char.isDigit
  if lx.peekChar = some 'r' then lexRadix negative start lead lx
  else if lx.peekChar = some '.' ∧ (lx.peekCharAt 1).any Char.isDigit then
    lexFraction negative start lead lx
  else lexInteger negative start lead lx

def lexCharLiteral (start : Span) (lx : Lexer) : Except CompileError (Tok × Lexer) :=
  match lx.bump.peekChar with
  | some c => .ok (.charLit c, lx.bump.bump)
  | none => .error (errEof start "'$' at end of input")

/-- The loop over a string's characters after the opening quote. -/
def lexQuotedFrom (start : Span) : List Char → Lexer → Except CompileError (List Char × Lexer)
  | [], _ => .error (errEof start "unterminated string")
  | '\'' :: '\'' :: cs, lx => do
    let (s, lx) ← lexQuotedFrom start cs lx.bump.bump
    pure ('\'' :: s, lx)
  | c :: cs, lx =>
    if c = '\'' then .ok ([], lx.bump)
    else do
      let (s, lx) ← lexQuotedFrom start cs lx.bump
      pure (c :: s, lx)

def lexQuotedText (start : Span) (lx : Lexer) : Except CompileError (String × Lexer) := do
  let (s, lx) ← lexQuotedFrom start lx.bump.rest lx.bump
  pure (String.ofList s, lx)

def lexStringLiteral (start : Span) (lx : Lexer) : Except CompileError (Tok × Lexer) := do
  let (s, lx) ← lx.lexQuotedText start
  pure (.strLit s, lx)

/-- At most two characters, and never a minus that a digit follows. -/
def lexBinarySel (first : Char) (lx : Lexer) : String × Lexer :=
  let lx := lx.bump
  match lx.peekChar with
  | some c =>
    if ¬(lx.pragmaMode ∧ first = '>') ∧ isBinaryChar c ∧ c ≠ '|' ∧
        ¬(c = '-' ∧ (lx.peekCharAt 1).any Char.isDigit) then
      (String.ofList [first, c], lx.bump)
    else (String.ofList [first], lx)
  | none => (String.ofList [first], lx)

/-- The loop over the parts of a symbol; at most one part for each character ahead. -/
def lexSymbolParts : Nat → Lexer → List Char × Lexer
  | 0, lx => ([], lx)
  | n + 1, lx =>
    let (part, lx) := lx.consumeWhile isIdentCont
    if lx.peekChar = some ':' then
      if lx.bump.peekChar.any isIdentStart then
        let (rest, lx) := lexSymbolParts n lx.bump
        (part ++ ':' :: rest, lx)
      else (part ++ [':'], lx.bump)
    else (part, lx)

def lexHash (start : Span) (lx : Lexer) : Except CompileError (Tok × Lexer) :=
  let lx := lx.bump
  match lx.peekChar with
  | none => .error (err start "invalid '#' sequence")
  | some c =>
    if c = '(' then .ok (.litArrayOpen, lx.bump)
    else if c = '[' then .ok (.byteArrayOpen, lx.bump)
    else if c = '\'' then do
      let (s, lx) ← lx.lexQuotedText start
      pure (.symLit s, lx)
    else if isIdentStart c then
      let (s, lx) := lexSymbolParts lx.rest.length lx
      .ok (.symLit (String.ofList s), lx)
    else if c = '|' then .ok (.symLit "|", lx.bump)
    else if isBinaryChar c then
      let (s, lx) := lx.lexBinarySel c
      .ok (.symLit s, lx)
    else .error (err start "invalid '#' sequence")

/-- The tokens of a fixed text. -/
def punctuation : List (Char × Tok) :=
  [('|', .vBar), ('(', .lParen), (')', .rParen), ('[', .lBracket), (']', .rBracket),
   ('{', .lBrace), ('}', .rBrace), (';', .semi), ('.', .period), ('^', .caret)]

/-- `next_token`, after the trivia, at a character. -/
def lexToken (c : Char) (lx : Lexer) : Except CompileError (Tok × Lexer) :=
  let start := lx.here
  if isIdentStart c then .ok lx.lexIdentOrKeyword
  else if c.isDigit then lx.lexNumber false start
  else if c = '-' then
    if (lx.peekCharAt 1).any Char.isDigit ∧ (lx.inLiteralSeq ∨ ¬lx.prevEndsExpr) then
      lx.bump.lexNumber true start
    else
      let (s, lx) := lx.lexBinarySel '-'
      .ok (.binarySel s, lx)
  else if c = '$' then lx.lexCharLiteral start
  else if c = '\'' then lx.lexStringLiteral start
  else if c = '#' then lx.lexHash start
  else match punctuation.lookup c with
    | some tok => .ok (tok, lx.bump)
    | none =>
      if c = ':' then
        if lx.bump.peekChar = some '=' then .ok (.assign, lx.bump.bump) else .ok (.colon, lx.bump)
      else if isBinaryChar c then
        let (s, lx) := lx.lexBinarySel c
        .ok (.binarySel s, lx)
      else .error (err start s!"unexpected character '{c}'")

def nextToken (lx : Lexer) : Except CompileError ((Tok × Span) × Lexer) := do
  let lx ← lx.skipTrivia
  match lx.peekChar with
  | none => pure ((.eof, lx.here), lx)
  | some c =>
    let (tok, lx') ← lx.lexToken c
    pure ((tok, lx.here), { lx' with prevEndsExpr := tokEndsExpr tok })

end Lexer

/-! ## What kinds of token are read -/

theorem ok_of_bind {ε α β : Type} {x : Except ε α} {f : α → Except ε β} {b : β}
    (h : x >>= f = .ok b) : ∃ a, x = .ok a ∧ f a = .ok b := by
  cases x with
  | error e => cases h
  | ok a => exact ⟨a, rfl, h⟩

def Tok.isKeyword : Tok → Bool
  | .keyword _ => true
  | _ => false

/-- A number of this sign. -/
def Tok.IsNumber [F64] (negative : Bool) : Tok → Prop
  | .intLit neg _ _ | .scaledLit neg _ _ _ => neg = negative
  | .floatLit bits =>
    ∃ text, bits = if negative then negF64 (F64.fromStr text) else F64.fromStr text
  | _ => False

/-- The characters of names take one column each. -/
theorem utf8Size_identCont {c : Char} (h : isIdentCont c = true) :
    c.utf8Size = 1 ∧ c ≠ '\n' := by
  unfold isIdentCont Char.isAlphanum Char.isAlpha Char.isUpper Char.isLower Char.isDigit at h
  simp only [Bool.or_eq_true, Bool.and_eq_true, decide_eq_true_eq] at h
  have hrange : 48 ≤ c.toNat ∧ c.toNat ≤ 122 := by
    rcases h with ((⟨hlo, hhi⟩ | ⟨hlo, hhi⟩) | ⟨hlo, hhi⟩) | rfl
    · exact ⟨Nat.le_trans (by decide) hlo, Nat.le_trans hhi (by decide)⟩
    · exact ⟨Nat.le_trans (by decide) hlo, hhi⟩
    · exact ⟨hlo, Nat.le_trans hhi (by decide)⟩
    · decide
  refine ⟨Char.utf8Size_eq_one_iff.mpr (Nat.le_trans hrange.2 (by decide)), ?_⟩
  rintro rfl
  exact absurd hrange.1 (by decide)

namespace Lexer

variable {lx lx' : Lexer} {t : Tok} {start : Span} {negative : Bool} {lead : List Char} {c : Char}

theorem col_skip {s tail : List Char} (hrest : lx.rest = s ++ tail)
    (hs : ∀ c ∈ s, c.utf8Size = 1 ∧ c ≠ '\n') :
    (lx.skip s.length).col = lx.col + BitVec.ofNat 32 s.length := by
  induction s generalizing lx with
  | nil => exact (BitVec.add_zero _).symm
  | cons c s ih =>
    obtain ⟨hsize, hnewline⟩ := hs c List.mem_cons_self
    have hbump : lx.bump.col = lx.col + BitVec.ofNat 32 1 := by
      unfold bump
      rw [hrest]
      dsimp only [List.cons_append]
      rw [if_neg hnewline, hsize]
    have hrest' : lx.bump.rest = s ++ tail := by rw [rest_bump, hrest]; rfl
    rw [List.length_cons, skip, ih hrest' fun c hc => hs c (List.mem_cons_of_mem _ hc), hbump,
      BitVec.add_assoc, ← BitVec.ofNat_add, Nat.add_comm]

theorem utf8ByteSize_ofList {s : List Char} (hs : ∀ c ∈ s, c.utf8Size = 1) :
    (String.ofList s).utf8ByteSize = s.length := by
  induction s with
  | nil => rfl
  | cons c s ih =>
    rw [← List.singleton_append, String.ofList_append, String.utf8ByteSize_append,
      ih fun c hc => hs c (List.mem_cons_of_mem _ hc), ← String.singleton_eq_ofList,
      String.utf8ByteSize_singleton, hs c List.mem_cons_self, List.length_append]
    rfl

/-- A keyword ends where its characters do. -/
theorem col_keyword {k : String} (h : lx.lexIdentOrKeyword = (.keyword k, lx')) :
    lx'.col = lx.col + BitVec.ofNat 32 k.utf8ByteSize := by
  unfold lexIdentOrKeyword consumeWhile at h
  dsimp only at h
  split at h
  · next hcolon =>
    injection h with htok hlx
    injection htok with hk
    have hpeek := hcolon.1
    unfold peekChar at hpeek
    rw [rest_takeWhile] at hpeek
    obtain ⟨tail, htail⟩ := List.head?_eq_some_iff.mp hpeek
    have hascii : ∀ c ∈ lx.rest.takeWhile isIdentCont ++ [':'], c.utf8Size = 1 ∧ c ≠ '\n' := by
      intro c hc
      rcases List.mem_append.mp hc with hc | hc
      · exact utf8Size_identCont (List.mem_takeWhile_imp hc)
      · obtain rfl := List.mem_singleton.mp hc
        decide
    have hrest : lx.rest = lx.rest.takeWhile isIdentCont ++ [':'] ++ tail := by
      rw [List.append_assoc, List.singleton_append, ← htail, List.takeWhile_append_dropWhile]
    have hcol := col_skip hrest hascii
    rw [← hlx, ← hk, utf8ByteSize_ofList fun c hc => (hascii c hc).1, bump_skip, ← hcol,
      List.length_append]
    rfl
  · cases h

theorem lexRadix_isNumber [F64] (h : lx.lexRadix negative start lead = .ok (t, lx')) :
    t.IsNumber negative := by
  unfold lexRadix at h
  dsimp only at h
  split at h
  · cases h
  · split at h
    · cases h
    · split at h <;> cases h
      rfl

variable [F64]

theorem floatTok_isNumber (text : List Char) : (floatTok negative text).IsNumber negative :=
  ⟨_, rfl⟩

theorem lexFraction_isNumber (h : lx.lexFraction negative start lead = .ok (t, lx')) :
    t.IsNumber negative := by
  unfold lexFraction at h
  obtain ⟨scale, -, h⟩ := ok_of_bind h
  cases scale with
  | some s =>
    cases h
    rfl
  | none =>
    dsimp only at h
    split at h <;> cases h <;> exact floatTok_isNumber _

theorem lexInteger_isNumber (h : lx.lexInteger negative start lead = .ok (t, lx')) :
    t.IsNumber negative := by
  unfold lexInteger at h
  obtain ⟨scale, -, h⟩ := ok_of_bind h
  cases scale with
  | some s =>
    cases h
    rfl
  | none =>
    dsimp only at h
    split at h
    · cases h
      rfl
    · split at h
      · split at h
        · cases h
        · split at h <;> cases h
          rfl
      · cases h
        exact floatTok_isNumber _

theorem lexNumber_isNumber (h : lx.lexNumber negative start = .ok (t, lx')) :
    t.IsNumber negative := by
  unfold lexNumber at h
  dsimp only at h
  split at h
  · exact lexRadix_isNumber h
  · split at h
    · exact lexFraction_isNumber h
    · exact lexInteger_isNumber h

omit [F64] in
theorem lexHash_isKeyword (h : lx.lexHash start = .ok (t, lx')) : t.isKeyword = false := by
  unfold lexHash at h
  dsimp only at h
  split at h
  · cases h
  · repeat' split at h
    any_goals (cases h; rfl)
    · obtain ⟨_, -, h⟩ := ok_of_bind h
      cases h
      rfl
    · cases h

omit [F64] in
theorem punctuation_isKeyword (h : punctuation.lookup c = some t) : t.isKeyword = false := by
  have hall : ∀ q ∈ punctuation, q.2.isKeyword = false := by decide
  obtain ⟨before, after, heq, -⟩ := List.lookup_eq_some_iff.mp h
  exact hall (c, t) (heq ▸ List.mem_append_right _ List.mem_cons_self)

/-- Only the characters of a name make a keyword. -/
theorem lexToken_keyword {k : String} (h : lx.lexToken c = .ok (.keyword k, lx')) :
    isIdentStart c = true ∧ lx.lexIdentOrKeyword = (.keyword k, lx') := by
  unfold lexToken at h
  dsimp only at h
  split at h
  · next hc => exact ⟨hc, Except.ok.inj h⟩
  split at h
  · cases lexNumber_isNumber h
  split at h
  · split at h
    · cases lexNumber_isNumber h
    · cases h
  split at h
  · unfold lexCharLiteral at h
    split at h <;> cases h
  split at h
  · obtain ⟨_, -, h⟩ := ok_of_bind h
    cases h
  split at h
  · cases lexHash_isKeyword h
  split at h
  · next hlookup =>
    cases h
    cases punctuation_isKeyword hlookup
  · repeat' split at h
    all_goals cases h

omit [F64] in
/-- Nothing is skipped where no whitespace and no comment is ahead. -/
theorem skipTrivia_self (h : (lx.rest.head?.any fun c => isWhitespace c || c = '"') = false) :
    lx.skipTrivia = .ok lx := by
  unfold skipTrivia
  cases hrest : lx.rest with
  | nil => rfl
  | cons c cs =>
    rw [hrest, List.head?_cons, Option.any_some, Bool.or_eq_false_iff, decide_eq_false_iff_not] at h
    rw [skipTriviaFrom, if_neg (by rw [h.1]; exact Bool.false_ne_true), if_neg h.2]

theorem nextToken_eq_ok {span : Span} (h : lx.nextToken = .ok ((t, span), lx')) :
    ∃ lx₀, lx.skipTrivia = .ok lx₀ ∧ span = lx₀.here ∧
      ((lx₀.peekChar = none ∧ t = .eof ∧ lx' = lx₀) ∨
        ∃ c lx₁, lx₀.peekChar = some c ∧ lx₀.lexToken c = .ok (t, lx₁) ∧
          lx' = { lx₁ with prevEndsExpr := tokEndsExpr t }) := by
  unfold nextToken at h
  obtain ⟨lx₀, htrivia, h⟩ := ok_of_bind h
  refine ⟨lx₀, htrivia, ?_⟩
  split at h
  · next hpeek =>
    cases h
    exact ⟨rfl, .inl ⟨hpeek, rfl, rfl⟩⟩
  · next c hpeek =>
    obtain ⟨⟨t', lx₁⟩, htoken, h⟩ := ok_of_bind h
    cases h
    exact ⟨rfl, .inr ⟨c, lx₁, hpeek, htoken, rfl⟩⟩

theorem nextToken_keyword {k : String} {span : Span}
    (h : lx.nextToken = .ok ((.keyword k, span), lx')) :
    lx'.col = span.col + BitVec.ofNat 32 k.utf8ByteSize := by
  obtain ⟨lx₀, -, rfl, ⟨-, htok, -⟩ | ⟨c, lx₁, -, htoken, rfl⟩⟩ := nextToken_eq_ok h
  · cases htok
  · exact (col_keyword (lexToken_keyword htoken).2 :)

omit [F64] in
theorem modes_skipTrivia (h : lx.skipTrivia = .ok lx') : lx'.modes = lx.modes := by
  have hfrom : ∀ (cs : List Char) (comment : Option Span) (lx : Lexer),
      skipTriviaFrom cs comment lx = .ok lx' → lx'.modes = lx.modes := by
    intro cs comment lx
    fun_induction skipTriviaFrom cs comment lx with
    | case1 lx =>
      intro h
      exact Except.ok.inj h ▸ rfl
    | case2 => exact fun h => nomatch h
    | case3 _ _ _ _ ih => exact fun h => (ih h).trans (modes_bump _)
    | case4 _ _ _ ih => exact fun h => (ih h).trans (modes_bump _)
    | case5 => exact fun h => Except.ok.inj h ▸ rfl
    | case6 _ _ _ ih => exact fun h => (ih h).trans ((modes_bump _).trans (modes_bump _))
    | case7 _ _ _ _ _ ih => exact fun h => (ih h).trans (modes_bump _)
  exact hfrom _ _ _ h

/-- A minus before a digit, where it is a sign. -/
theorem nextToken_minus {lx₀ : Lexer} {d : Char} {cs : List Char} {span : Span}
    (hsign : lx.inLiteralSeq = true ∨ lx.prevEndsExpr = false)
    (htrivia : lx.skipTrivia = .ok lx₀) (hrest : lx₀.rest = '-' :: d :: cs)
    (hd : d.isDigit = true) (h : lx.nextToken = .ok ((t, span), lx')) : t.IsNumber true := by
  obtain ⟨lx₁, htrivia', -, hcases⟩ := nextToken_eq_ok h
  obtain rfl := Except.ok.inj (htrivia.symm.trans htrivia')
  have hpeek := peekChar_eq hrest
  obtain ⟨hnone, -, -⟩ | ⟨c, lx₂, hsome, htoken, -⟩ := hcases
  · rw [hpeek] at hnone
    cases hnone
  · obtain rfl := Option.some.inj (hpeek.symm.trans hsome)
    obtain ⟨-, hmode, hprev⟩ : _ ∧ lx₀.inLiteralSeq = lx.inLiteralSeq ∧
      lx₀.prevEndsExpr = lx.prevEndsExpr := by simpa [modes] using modes_skipTrivia htrivia
    have hnext : (lx₀.peekCharAt 1).any Char.isDigit = true := by
      unfold peekCharAt
      rw [hrest]
      exact hd
    have hsign' : lx₀.inLiteralSeq = true ∨ ¬lx₀.prevEndsExpr = true := by
      rw [hmode, hprev, Bool.not_eq_true]
      exact hsign
    unfold lexToken at htoken
    dsimp only at htoken
    rw [if_neg (by decide), if_neg (by decide), if_pos rfl, if_pos ⟨hnext, hsign'⟩] at htoken
    exact lexNumber_isNumber htoken

/-- A minus after an expression, outside literal arrays. -/
theorem nextToken_binary {lx₀ : Lexer} (hmode : lx.inLiteralSeq = false)
    (hprev : lx.prevEndsExpr = true) (htrivia : lx.skipTrivia = .ok lx₀)
    (hpeek : lx₀.peekChar = some '-') :
    ∃ s lx', lx.nextToken = .ok ((.binarySel s, lx₀.here), lx') := by
  obtain ⟨-, hmode', hprev'⟩ : _ ∧ lx₀.inLiteralSeq = lx.inLiteralSeq ∧
    lx₀.prevEndsExpr = lx.prevEndsExpr := by simpa [modes] using modes_skipTrivia htrivia
  have hsign : ¬(lx₀.inLiteralSeq = true ∨ ¬lx₀.prevEndsExpr = true) := by
    rw [hmode', hprev', hmode, hprev]
    decide
  unfold nextToken
  rw [htrivia]
  simp only [bind, Except.bind, hpeek]
  unfold lexToken
  dsimp only
  rw [if_neg (by decide), if_neg (by decide), if_pos rfl, if_neg fun h => hsign h.2]
  exact ⟨_, _, rfl⟩

/-! ### Modes -/

section Modes

omit [F64]

theorem modes_lexIdentOrKeyword (h : lx.lexIdentOrKeyword = (t, lx')) : lx'.modes = lx.modes := by
  unfold lexIdentOrKeyword consumeWhile at h
  dsimp only at h
  split at h <;> cases h
  · exact (modes_bump _).trans (modes_skip _ _)
  · exact modes_skip _ _

theorem modes_tryConsumeExponent {r : Char × Bool × List Char × Lexer}
    (h : lx.tryConsumeExponent = some r) : r.2.2.2.modes = lx.modes := by
  unfold tryConsumeExponent consumeWhile at h
  obtain ⟨c, -, h⟩ := Option.bind_eq_some_iff.mp h
  dsimp only at h
  split at h
  · cases h
  · generalize (if decide (lx.peekCharAt 1 = some '-') = true then 2 else 1) = n at h
    split at h
    · cases h
      exact (modes_skip _ _).trans (modes_skip _ _)
    · cases h

theorem modes_tryConsumeScale {default scale : Nat}
    (h : lx.tryConsumeScale default start = .ok (some (scale, lx'))) : lx'.modes = lx.modes := by
  unfold tryConsumeScale consumeWhile at h
  dsimp only at h
  split at h
  · cases h
  split at h
  · split at h
    · cases h
    · split at h <;> cases h
      exact (modes_skip _ _).trans (modes_bump _)
  · split at h <;> cases h
    exact modes_bump _

theorem modes_lexRadix (h : lx.lexRadix negative start lead = .ok (t, lx')) :
    lx'.modes = lx.modes := by
  unfold lexRadix consumeWhile at h
  dsimp only at h
  split at h
  · cases h
  · split at h
    · cases h
    · split at h <;> cases h
      exact (modes_skip _ _).trans (modes_bump _)

theorem modes_lexQuotedFrom {cs s : List Char} (h : lexQuotedFrom start cs lx = .ok (s, lx')) :
    lx'.modes = lx.modes := by
  fun_induction lexQuotedFrom start cs lx generalizing s with
  | case1 => cases h
  | case2 _ _ ih =>
    obtain ⟨⟨s', lx''⟩, h', h⟩ := ok_of_bind h
    cases h
    exact (ih h').trans ((modes_bump _).trans (modes_bump _))
  | case3 =>
    cases h
    exact modes_bump _
  | case4 _ _ _ _ _ ih =>
    obtain ⟨⟨s', lx''⟩, h', h⟩ := ok_of_bind h
    cases h
    exact (ih h').trans (modes_bump _)

theorem modes_lexQuotedText {s : String} (h : lx.lexQuotedText start = .ok (s, lx')) :
    lx'.modes = lx.modes := by
  unfold lexQuotedText at h
  obtain ⟨⟨s', lx''⟩, h', h⟩ := ok_of_bind h
  cases h
  exact (modes_lexQuotedFrom h').trans (modes_bump _)

theorem modes_lexBinarySel (first : Char) (lx : Lexer) :
    (lx.lexBinarySel first).2.modes = lx.modes := by
  unfold lexBinarySel
  dsimp only
  split
  · split
    · exact (modes_bump _).trans (modes_bump _)
    · exact modes_bump _
  · exact modes_bump _

theorem modes_lexSymbolParts (n : Nat) (lx : Lexer) :
    (lexSymbolParts n lx).2.modes = lx.modes := by
  induction n generalizing lx with
  | zero => rfl
  | succ n ih =>
    unfold lexSymbolParts consumeWhile
    dsimp only
    split
    · split
      · exact (ih _).trans ((modes_bump _).trans (modes_skip _ _))
      · exact (modes_bump _).trans (modes_skip _ _)
    · exact modes_skip _ _

theorem modes_lexHash (h : lx.lexHash start = .ok (t, lx')) : lx'.modes = lx.modes := by
  unfold lexHash at h
  dsimp only at h
  split at h
  · cases h
  split at h
  · cases h
    exact (modes_bump _).trans (modes_bump _)
  split at h
  · cases h
    exact (modes_bump _).trans (modes_bump _)
  split at h
  · obtain ⟨⟨s', lx''⟩, h', h⟩ := ok_of_bind h
    cases h
    exact (modes_lexQuotedText h').trans (modes_bump _)
  split at h
  · cases h
    exact (modes_lexSymbolParts _ _).trans (modes_bump _)
  split at h
  · cases h
    exact (modes_bump _).trans (modes_bump _)
  split at h
  · cases h
    exact (modes_lexBinarySel _ _).trans (modes_bump _)
  · cases h

end Modes

theorem modes_lexFraction (h : lx.lexFraction negative start lead = .ok (t, lx')) :
    lx'.modes = lx.modes := by
  unfold lexFraction consumeWhile at h
  obtain ⟨scale, hscale, h⟩ := ok_of_bind h
  cases scale with
  | some s =>
    cases h
    exact (modes_tryConsumeScale hscale).trans ((modes_skip _ _).trans (modes_bump _))
  | none =>
    dsimp only at h
    split at h
    · next hexp =>
      cases h
      exact (modes_tryConsumeExponent hexp).trans ((modes_skip _ _).trans (modes_bump _))
    · cases h
      exact (modes_skip _ _).trans (modes_bump _)

theorem modes_lexInteger (h : lx.lexInteger negative start lead = .ok (t, lx')) :
    lx'.modes = lx.modes := by
  unfold lexInteger at h
  obtain ⟨scale, hscale, h⟩ := ok_of_bind h
  cases scale with
  | some s =>
    cases h
    exact modes_tryConsumeScale hscale
  | none =>
    dsimp only at h
    split at h
    · cases h
      rfl
    · next hexp =>
      have hmodes := modes_tryConsumeExponent hexp
      split at h
      · split at h
        · cases h
        · split at h <;> cases h
          exact hmodes
      · cases h
        exact hmodes

theorem modes_lexNumber (h : lx.lexNumber negative start = .ok (t, lx')) :
    lx'.modes = lx.modes := by
  unfold lexNumber consumeWhile at h
  dsimp only at h
  split at h
  · exact (modes_lexRadix h).trans (modes_skip _ _)
  · split at h
    · exact (modes_lexFraction h).trans (modes_skip _ _)
    · exact (modes_lexInteger h).trans (modes_skip _ _)

theorem modes_lexToken (h : lx.lexToken c = .ok (t, lx')) : lx'.modes = lx.modes := by
  unfold lexToken at h
  dsimp only at h
  split at h
  · exact modes_lexIdentOrKeyword (Except.ok.inj h)
  split at h
  · exact modes_lexNumber h
  split at h
  · split at h
    · exact (modes_lexNumber h).trans (modes_bump _)
    · cases h
      exact modes_lexBinarySel _ _
  split at h
  · unfold lexCharLiteral at h
    split at h <;> cases h
    exact (modes_bump _).trans (modes_bump _)
  split at h
  · obtain ⟨⟨s', lx''⟩, h', h⟩ := ok_of_bind h
    cases h
    exact modes_lexQuotedText h'
  split at h
  · exact modes_lexHash h
  split at h
  · cases h
    exact modes_bump _
  split at h
  · split at h <;> cases h
    · exact (modes_bump _).trans (modes_bump _)
    · exact modes_bump _
  · split at h <;> cases h
    exact modes_lexBinarySel _ _

/-- The modes are the parser's; the lexer keeps track of where an expression ends. -/
theorem modes_nextToken {span : Span} (h : lx.nextToken = .ok ((t, span), lx')) :
    lx'.pragmaMode = lx.pragmaMode ∧ lx'.inLiteralSeq = lx.inLiteralSeq ∧
      (t ≠ .eof → lx'.prevEndsExpr = tokEndsExpr t) := by
  obtain ⟨lx₀, htrivia, -, ⟨-, htok, rfl⟩ | ⟨c, lx₁, -, htoken, rfl⟩⟩ := nextToken_eq_ok h
  · obtain ⟨hp, hs, -⟩ : _ ∧ _ ∧ _ := by simpa [modes] using modes_skipTrivia htrivia
    exact ⟨hp, hs, fun hne => absurd htok hne⟩
  · have hmodes := (modes_lexToken htoken).trans (modes_skipTrivia htrivia)
    obtain ⟨hp, hs, -⟩ : _ ∧ _ ∧ _ := by simpa [modes] using hmodes
    exact ⟨hp, hs, fun _ => rfl⟩

end Lexer

end WinVm.Frontend
