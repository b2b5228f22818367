import WinVm.Frontend.Lexer

/-!
# Text cut at a line break

The lexer on a text and on a prefix of it that ends at a line break. No token but a string
or a character literal crosses the end of a line, and of the trivia only a comment does; so
on the prefix the lexer reads the tokens of the whole text until it comes to the end, which
it reports as the end of input or as an error with the flag for it.

Result: `nextToken_cut`.
-/

namespace WinVm.Frontend.Lexer

open WinVm.Lib (isWhitespace)

/-- The text ahead goes on. -/
def extend (lx : Lexer) (tail : List Char) : Lexer := { lx with rest := lx.rest ++ tail }

/-- The text ahead ends at a line break of the text that goes on with `tail`. -/
def Cut (lx : Lexer) (tail : List Char) : Prop :=
  (∀ c, tail.head? = some c → c = '\n') ∨ lx.rest.getLast? = some '\n'

section

variable {lx lx' : Lexer} {tail : List Char} {c : Char} {p : Char → Bool}

theorem bump_extend (more : lx.rest ≠ []) : (lx.extend tail).bump = lx.bump.extend tail := by
  obtain ⟨rest, line, col, ends, pragma, literal⟩ := lx
  cases rest with
  | nil => exact absurd rfl more
  | cons c cs =>
    unfold bump extend
    dsimp only [List.cons_append]
    split <;> rfl

theorem skip_extend {n : Nat} (le : n ≤ lx.rest.length) :
    (lx.extend tail).skip n = (lx.skip n).extend tail := by
  induction n generalizing lx with
  | zero => rfl
  | succ n ih =>
    have more : lx.rest ≠ [] := List.ne_nil_of_length_pos (by omega)
    rw [skip, skip, bump_extend more, ih]
    rw [rest_bump, List.length_tail]
    omega

theorem Cut.bump (cut : lx.Cut tail) (at_ : lx.peekChar = some c) (ne : c ≠ '\n') :
    lx.bump.Cut tail := by
  refine cut.imp id fun last => ?_
  obtain ⟨cs, rest⟩ := List.head?_eq_some_iff.mp at_
  rw [rest_bump, rest, List.tail_cons]
  rw [rest] at last
  cases cs with
  | nil => exact absurd (Option.some.inj last) ne
  | cons d cs => rwa [List.getLast?_cons_cons] at last

/-- What stands ahead is the same, or is the line break. -/
theorem Cut.ahead (cut : lx.Cut tail) :
    (lx.extend tail).peekChar = lx.peekChar ∨
      lx.peekChar = none ∧ ∀ c, (lx.extend tail).peekChar = some c → c = '\n' := by
  unfold peekChar extend
  cases rest : lx.rest with
  | nil =>
    refine .inr ⟨rfl, fun c at_ => ?_⟩
    rcases cut with first | last
    · exact first c at_
    · rw [rest] at last
      cases last
  | cons d cs => exact .inl rfl

theorem Cut.peek_iff (cut : lx.Cut tail) (ne : c ≠ '\n') :
    (lx.extend tail).peekChar = some c ↔ lx.peekChar = some c := by
  rcases cut.ahead with same | ⟨none_, newline⟩
  · rw [same]
  · rw [none_]
    exact ⟨fun at_ => absurd (newline c at_) ne, fun at_ => by cases at_⟩

theorem Cut.peek_any (cut : lx.Cut tail) (no : p '\n' = false) :
    (lx.extend tail).peekChar.any p = lx.peekChar.any p := by
  rcases cut.ahead with same | ⟨none_, newline⟩
  · rw [same]
  · rw [none_]
    cases at_ : (lx.extend tail).peekChar with
    | none => rfl
    | some c =>
      rw [newline c at_]
      exact no

/-- The character after the next one stands ahead of the lexer that has read that one. -/
theorem peekCharAt_one (lx : Lexer) : lx.peekCharAt 1 = lx.bump.peekChar := by
  unfold peekCharAt peekChar
  rw [rest_bump]
  cases lx.rest with
  | nil => rfl
  | cons c cs => cases cs <;> rfl

theorem peekCharAt_two (lx : Lexer) : lx.peekCharAt 2 = lx.bump.peekCharAt 1 := by
  unfold peekCharAt
  rw [rest_bump]
  cases lx.rest <;> rfl

theorem ne_nil_of_peek (at_ : lx.peekChar = some c) : lx.rest ≠ [] := by
  rintro nil
  unfold peekChar at at_
  rw [nil] at at_
  cases at_

theorem peekCharAt_one_extend (at_ : lx.peekChar = some c) :
    (lx.extend tail).peekCharAt 1 = (lx.bump.extend tail).peekChar := by
  rw [peekCharAt_one, bump_extend (ne_nil_of_peek at_)]

/-- A run of characters that are no line break. -/
theorem Cut.consumeWhile (cut : lx.Cut tail) (no : p '\n' = false) :
    (lx.extend tail).consumeWhile p =
        ((lx.consumeWhile p).1, (lx.consumeWhile p).2.extend tail) ∧
      (lx.consumeWhile p).2.Cut tail := by
  have last : lx.rest.getLast? = some '\n' → (lx.rest.dropWhile p).getLast? = some '\n' := by
    intro last
    rw [← List.takeWhile_append_dropWhile (p := p) (l := lx.rest), List.getLast?_append] at last
    cases dropped : (lx.rest.dropWhile p).getLast? with
    | some d =>
      rw [dropped] at last
      exact last
    | none =>
      rw [dropped] at last
      have mem := List.mem_of_getLast? last
      rw [List.mem_takeWhile_imp mem] at no
      cases no
  have taken : (lx.rest ++ tail).takeWhile p = lx.rest.takeWhile p := by
    rw [List.takeWhile_append]
    split
    · next all =>
      have whole : lx.rest.takeWhile p = lx.rest :=
        (List.takeWhile_prefix p).eq_of_length all
      have stops : tail.takeWhile p = [] := by
        rcases cut with first | newline
        · cases tail with
          | nil => rfl
          | cons c cs => rw [List.takeWhile_cons, first c rfl, no]; rfl
        · have mem := List.mem_of_getLast? newline
          rw [← whole] at mem
          rw [List.mem_takeWhile_imp mem] at no
          cases no
      rw [stops, List.append_nil, whole]
    · rfl
  have short : (lx.rest.takeWhile p).length ≤ lx.rest.length :=
    (List.takeWhile_prefix p).length_le
  unfold Lexer.consumeWhile
  dsimp only
  rw [show (lx.extend tail).rest = lx.rest ++ tail from rfl, taken, skip_extend short]
  refine ⟨rfl, cut.imp id fun newline => ?_⟩
  rw [rest_takeWhile]
  exact last newline

end

/-! ## Tokens within a line -/

/-- What a reader gives on the whole text and on the prefix. -/
def Carries {α : Type} (tail : List Char) :
    Except CompileError (α × Lexer) → Except CompileError (α × Lexer) → Prop
  | .ok (a', lx'), .ok (a, lx) => a' = a ∧ lx' = lx.extend tail ∧ lx.Cut tail
  | .error e', .error e => e' = e
  | _, _ => False

section

variable {α β : Type} {lx : Lexer} {tail : List Char} {c : Char}

theorem Cut.identOrKeyword (cut : lx.Cut tail) :
    (lx.extend tail).lexIdentOrKeyword =
        (lx.lexIdentOrKeyword.1, lx.lexIdentOrKeyword.2.extend tail) ∧
      lx.lexIdentOrKeyword.2.Cut tail := by
  obtain ⟨read, cut⟩ := cut.consumeWhile (p := isIdentCont) (by decide)
  unfold lexIdentOrKeyword
  rw [read]
  dsimp only
  generalize lx.consumeWhile isIdentCont = s at read cut ⊢
  obtain ⟨ident, lx⟩ := s
  dsimp only at cut ⊢
  have colon := cut.peek_iff (c := ':') (by decide)
  have cond : ((lx.extend tail).peekChar = some ':' ∧ (lx.extend tail).peekCharAt 1 ≠ some '=') ↔
      (lx.peekChar = some ':' ∧ lx.peekCharAt 1 ≠ some '=') := by
    rw [colon]
    refine and_congr_right fun at_ => not_congr ?_
    rw [peekCharAt_one_extend at_, peekCharAt_one]
    exact (cut.bump at_ (by decide)).peek_iff (by decide)
  by_cases is : lx.peekChar = some ':' ∧ lx.peekCharAt 1 ≠ some '='
  · rw [if_pos (cond.mpr is), if_pos is, bump_extend (ne_nil_of_peek is.1)]
    exact ⟨rfl, cut.bump is.1 (by decide)⟩
  · rw [if_neg fun h => is (cond.mp h), if_neg is]
    exact ⟨rfl, cut⟩

theorem Cut.binarySel (cut : lx.Cut tail) {first : Char} (at_ : lx.peekChar = some first)
    (ne : first ≠ '\n') :
    (lx.extend tail).lexBinarySel first =
        ((lx.lexBinarySel first).1, (lx.lexBinarySel first).2.extend tail) ∧
      (lx.lexBinarySel first).2.Cut tail := by
  have cut := cut.bump at_ ne
  unfold lexBinarySel
  rw [bump_extend (ne_nil_of_peek at_)]
  dsimp only
  generalize lx.bump = lx at cut ⊢
  rcases cut.ahead with same | ⟨none_, newline⟩
  · rw [same]
    cases ahead : lx.peekChar with
    | none => exact ⟨rfl, cut⟩
    | some c =>
      dsimp only
      have cond : (¬((lx.extend tail).pragmaMode ∧ first = '>') ∧ isBinaryChar c ∧ c ≠ '|' ∧
          ¬(c = '-' ∧ ((lx.extend tail).peekCharAt 1).any Char.isDigit)) ↔
          (¬(lx.pragmaMode ∧ first = '>') ∧ isBinaryChar c ∧ c ≠ '|' ∧
          ¬(c = '-' ∧ (lx.peekCharAt 1).any Char.isDigit)) := by
        refine and_congr_right fun _ => and_congr_right fun _ => and_congr_right fun _ =>
          not_congr (and_congr_right fun minus => ?_)
        rw [peekCharAt_one_extend ahead, peekCharAt_one]
        exact iff_of_eq (congrArg (· = true)
          ((cut.bump ahead (by rw [minus]; decide)).peek_any (by decide)))
      split
      · next two =>
        rw [if_pos (cond.mp two), bump_extend (ne_nil_of_peek ahead)]
        refine ⟨rfl, cut.bump ahead fun newline => ?_⟩
        rw [newline] at two
        exact absurd two.2.1 (by decide)
      · next one =>
        rw [if_neg fun two => one (cond.mpr two)]
        exact ⟨rfl, cut⟩
  · rw [none_]
    cases ahead : (lx.extend tail).peekChar with
    | none => exact ⟨rfl, cut⟩
    | some c =>
      dsimp only
      rw [if_neg]
      · exact ⟨rfl, cut⟩
      · rw [newline c ahead]
        exact fun two => absurd two.2.1 (by decide)

/-! ## Numbers -/

/-- The digits of an exponent or of a scale, if there is one. -/
theorem Cut.digits (cut : lx.Cut tail) :
    (lx.extend tail).consumeWhile Char.isDigit =
        ((lx.consumeWhile Char.isDigit).1, (lx.consumeWhile Char.isDigit).2.extend tail) ∧
      (lx.consumeWhile Char.isDigit).2.Cut tail :=
  cut.consumeWhile (by decide)

/-- What stands behind the marker and the minus of an exponent. -/
def exponentDigits (marker : Char) (neg : Bool) (lx : Lexer) :
    Option (Char × Bool × List Char × Lexer) :=
  if lx.peekChar.any Char.isDigit then
    some (marker.toLower, neg, (lx.consumeWhile Char.isDigit).1, (lx.consumeWhile Char.isDigit).2)
  else none

theorem tryConsumeExponent_step (ahead : lx.peekChar = some c) : lx.tryConsumeExponent =
    if c ∉ ['e', 'E', 'd', 'D'] then none
    else if lx.bump.peekChar = some '-' then exponentDigits c true lx.bump.bump
    else exponentDigits c false lx.bump := by
  unfold tryConsumeExponent
  rw [ahead]
  dsimp only [Option.bind_eq_bind, Option.bind_some]
  by_cases marker : c ∉ ['e', 'E', 'd', 'D']
  · rw [if_pos marker, if_pos marker]
  · rw [if_neg marker, if_neg marker, peekCharAt_one]
    by_cases minus : lx.bump.peekChar = some '-'
    · rw [if_pos minus, decide_eq_true minus]
      rw [if_pos rfl, peekCharAt_two, peekCharAt_one]
      rfl
    · rw [if_neg minus, decide_eq_false minus]
      rw [if_neg Bool.false_ne_true, peekCharAt_one]
      rfl

theorem Cut.exponentDigits (cut : lx.Cut tail) (marker : Char) (neg : Bool) :
    ((lx.extend tail).exponentDigits marker neg = none ∧ lx.exponentDigits marker neg = none) ∨
      ∃ digits lx', (lx.extend tail).exponentDigits marker neg =
          some (marker.toLower, neg, digits, lx'.extend tail) ∧
        lx.exponentDigits marker neg = some (marker.toLower, neg, digits, lx') ∧ lx'.Cut tail := by
  obtain ⟨read, cut'⟩ := cut.digits
  unfold Lexer.exponentDigits
  rw [cut.peek_any (by decide), read]
  split
  · exact .inr ⟨_, _, rfl, rfl, cut'⟩
  · exact .inl ⟨rfl, rfl⟩

theorem Cut.exponent (cut : lx.Cut tail) :
    ((lx.extend tail).tryConsumeExponent = none ∧ lx.tryConsumeExponent = none) ∨
      ∃ marker neg digits lx',
        (lx.extend tail).tryConsumeExponent = some (marker, neg, digits, lx'.extend tail) ∧
          lx.tryConsumeExponent = some (marker, neg, digits, lx') ∧ lx'.Cut tail := by
  cases ahead : lx.peekChar with
  | none =>
    have none_ : lx.tryConsumeExponent = none := by
      unfold tryConsumeExponent
      rw [ahead]
      rfl
    refine .inl ⟨?_, none_⟩
    cases ahead' : (lx.extend tail).peekChar with
    | none =>
      unfold tryConsumeExponent
      rw [ahead']
      rfl
    | some c =>
      rcases cut.ahead with same | ⟨-, newline⟩
      · rw [same, ahead] at ahead'
        cases ahead'
      · rw [tryConsumeExponent_step ahead', newline c ahead', if_pos (by decide)]
  | some c =>
    have ahead' : (lx.extend tail).peekChar = some c := by
      rcases cut.ahead with same | ⟨none_, -⟩
      · rw [same, ahead]
      · rw [ahead] at none_
        cases none_
    rw [tryConsumeExponent_step ahead, tryConsumeExponent_step ahead']
    by_cases marker : c ∉ ['e', 'E', 'd', 'D']
    · rw [if_pos marker, if_pos marker]
      exact .inl ⟨rfl, rfl⟩
    have cut₁ := cut.bump ahead fun newline => marker (by rw [newline]; decide)
    rw [if_neg marker, if_neg marker, bump_extend (ne_nil_of_peek ahead)]
    by_cases minus : lx.bump.peekChar = some '-'
    · rw [if_pos minus, if_pos ((cut₁.peek_iff (by decide)).mpr minus),
        bump_extend (ne_nil_of_peek minus)]
      exact ((cut₁.bump minus (by decide)).exponentDigits c true).imp id
        fun ⟨digits, lx', found⟩ => ⟨_, _, digits, lx', found⟩
    · rw [if_neg minus, if_neg fun at_ => minus ((cut₁.peek_iff (by decide)).mp at_)]
      exact (cut₁.exponentDigits c false).imp id fun ⟨digits, lx', found⟩ => ⟨_, _, digits, lx', found⟩

theorem Cut.scale (cut : lx.Cut tail) (default : Nat) (start : Span) :
    (∃ e, (lx.extend tail).tryConsumeScale default start = .error e ∧
        lx.tryConsumeScale default start = .error e) ∨
      ((lx.extend tail).tryConsumeScale default start = .ok none ∧
        lx.tryConsumeScale default start = .ok none) ∨
      ∃ scale lx', (lx.extend tail).tryConsumeScale default start = .ok (some (scale, lx'.extend tail)) ∧
        lx.tryConsumeScale default start = .ok (some (scale, lx')) ∧ lx'.Cut tail := by
  unfold tryConsumeScale
  by_cases s : lx.peekChar = some 's'
  · have s' := (cut.peek_iff (by decide)).mpr s
    have cut₁ := cut.bump s (by decide)
    have bumped : (lx.extend tail).bump = lx.bump.extend tail := bump_extend (ne_nil_of_peek s)
    rw [if_neg (not_not.mpr s), if_neg (not_not.mpr s'), peekCharAt_one_extend s, peekCharAt_one,
      cut₁.peek_any (by decide), cut₁.peek_any (by decide), bumped]
    split
    · obtain ⟨read, cut₂⟩ := cut₁.digits
      rw [read]
      dsimp only
      split
      · exact .inl ⟨_, rfl, rfl⟩
      · split
        · exact .inl ⟨_, rfl, rfl⟩
        · exact .inr (.inr ⟨_, _, rfl, rfl, cut₂⟩)
    · split
      · exact .inr (.inl ⟨rfl, rfl⟩)
      · exact .inr (.inr ⟨_, _, rfl, rfl, cut₁⟩)
  · have s' := fun at_ => s ((cut.peek_iff (by decide)).mp at_)
    rw [if_pos s, if_pos s']
    exact .inr (.inl ⟨rfl, rfl⟩)

theorem Cut.radix (cut : lx.Cut tail) (at_ : lx.peekChar = some 'r') (negative : Bool) (start : Span)
    (lead : List Char) :
    Carries tail ((lx.extend tail).lexRadix negative start lead) (lx.lexRadix negative start lead) := by
  obtain ⟨read, cut⟩ := (cut.bump at_ (by decide)).consumeWhile (p := isRadixDigit) (by decide)
  unfold lexRadix
  rw [bump_extend (ne_nil_of_peek at_), read]
  dsimp only
  split
  · exact rfl
  · split
    · exact rfl
    · split
      · exact rfl
      · exact ⟨rfl, rfl, cut⟩

variable [F64]

theorem Cut.fraction (cut : lx.Cut tail) (at_ : lx.peekChar = some '.') (negative : Bool)
    (start : Span) (lead : List Char) :
    Carries tail ((lx.extend tail).lexFraction negative start lead)
      (lx.lexFraction negative start lead) := by
  obtain ⟨read, cut⟩ := (cut.bump at_ (by decide)).digits
  unfold lexFraction
  rw [bump_extend (ne_nil_of_peek at_), read]
  dsimp only
  rcases cut.scale (min (lx.bump.consumeWhile Char.isDigit).1.length 65535) start with
    ⟨e, whole, prefix_⟩ | ⟨whole, prefix_⟩ | ⟨scale, lx', whole, prefix_, cut'⟩
  · rw [whole, prefix_]
    exact rfl
  · rw [whole, prefix_]
    rcases cut.exponent with ⟨whole, prefix_⟩ | ⟨marker, neg, digits, lx', whole, prefix_, cut'⟩
    · simp only [bind, Except.bind, whole, prefix_]
      exact ⟨rfl, rfl, cut⟩
    · simp only [bind, Except.bind, whole, prefix_]
      exact ⟨rfl, rfl, cut'⟩
  · rw [whole, prefix_]
    exact ⟨rfl, rfl, cut'⟩

theorem Cut.integer (cut : lx.Cut tail) (negative : Bool) (start : Span) (lead : List Char) :
    Carries tail ((lx.extend tail).lexInteger negative start lead)
      (lx.lexInteger negative start lead) := by
  unfold lexInteger
  rcases cut.scale 0 start with
    ⟨e, whole, prefix_⟩ | ⟨whole, prefix_⟩ | ⟨scale, lx', whole, prefix_, cut'⟩
  · rw [whole, prefix_]
    exact rfl
  · rw [whole, prefix_]
    rcases cut.exponent with ⟨whole, prefix_⟩ | ⟨marker, neg, digits, lx', whole, prefix_, cut'⟩
    · simp only [bind, Except.bind, whole, prefix_]
      exact ⟨rfl, rfl, cut⟩
    · simp only [bind, Except.bind, whole, prefix_]
      split
      · split
        · exact rfl
        · split
          · exact rfl
          · exact ⟨rfl, rfl, cut'⟩
      · exact ⟨rfl, rfl, cut'⟩
  · rw [whole, prefix_]
    exact ⟨rfl, rfl, cut'⟩

theorem Cut.number (cut : lx.Cut tail) (negative : Bool) (start : Span) :
    Carries tail ((lx.extend tail).lexNumber negative start) (lx.lexNumber negative start) := by
  obtain ⟨read, cut⟩ := cut.digits
  unfold lexNumber
  rw [read]
  dsimp only
  generalize lx.consumeWhile Char.isDigit = s at read cut ⊢
  obtain ⟨lead, lx⟩ := s
  dsimp only at cut ⊢
  by_cases r : lx.peekChar = some 'r'
  · rw [if_pos r, if_pos ((cut.peek_iff (by decide)).mpr r)]
    exact cut.radix r negative start lead
  · rw [if_neg r, if_neg fun at_ => r ((cut.peek_iff (by decide)).mp at_)]
    have cond : ((lx.extend tail).peekChar = some '.' ∧
        ((lx.extend tail).peekCharAt 1).any Char.isDigit = true) ↔
        (lx.peekChar = some '.' ∧ (lx.peekCharAt 1).any Char.isDigit = true) := by
      rw [cut.peek_iff (by decide)]
      refine and_congr_right fun point => ?_
      rw [peekCharAt_one_extend point, peekCharAt_one,
        (cut.bump point (by decide)).peek_any (by decide)]
    by_cases point : lx.peekChar = some '.' ∧ (lx.peekCharAt 1).any Char.isDigit = true
    · rw [if_pos point, if_pos (cond.mpr point)]
      exact cut.fraction point.1 negative start lead
    · rw [if_neg point, if_neg fun h => point (cond.mp h)]
      exact cut.integer negative start lead

end

/-! ## Strings and comments -/

/-- The prefix ends at a line break, or has been read to its end. -/
def CutOrDone (lx : Lexer) (tail : List Char) : Prop := lx.Cut tail ∨ lx.rest = []

/-- On the whole text the reader succeeds; on the prefix it comes to the end of the input, or
does the same. -/
def Reaches {α : Type} (tail : List Char) (a : α) (lx' : Lexer)
    (result : Except CompileError (α × Lexer)) : Prop :=
  (∃ e, result = .error e ∧ e.eof = true) ∨
    ∃ lx, result = .ok (a, lx) ∧ lx' = lx.extend tail ∧ lx.CutOrDone tail

section

variable {α β : Type} {lx lx' : Lexer} {tail : List Char} {c : Char}

theorem Carries.reaches {x y : Except CompileError (α × Lexer)} {a : α} (carries : Carries tail x y)
    (ok : x = .ok (a, lx')) : Reaches tail a lx' y := by
  subst ok
  match y with
  | .ok (a', lx) =>
    obtain ⟨rfl, rfl, cut⟩ := carries
    exact .inr ⟨lx, rfl, rfl, .inl cut⟩
  | .error e => cases carries

theorem Cut.bump_or_done (cut : lx.Cut tail) : lx.bump.CutOrDone tail := by
  unfold CutOrDone Cut
  rw [rest_bump]
  rcases cut with first | last
  · exact .inl (.inl first)
  · obtain ⟨cs, rest⟩ := List.getLast?_eq_some_iff.mp last
    rw [rest]
    cases cs with
    | nil => exact .inr rfl
    | cons c cs => exact .inl (.inr List.getLast?_concat)

theorem Reaches.map {a : α} {result : Except CompileError (α × Lexer)} {f : α → β}
    (reaches : Reaches tail a lx' result) :
    Reaches tail (f a) lx' (result >>= fun r => pure (f r.1, r.2)) := by
  rcases reaches with ⟨e, rfl, eof⟩ | ⟨lx, rfl, extended⟩
  · exact .inl ⟨e, rfl, eof⟩
  · exact .inr ⟨lx, rfl, extended⟩

/-- Behind a character that is the last of the prefix, the text goes on with a line break. -/
theorem Cut.tail_head (cut : lx.Cut tail) (last : lx.rest = [c]) (ne : c ≠ '\n') {d : Char}
    (head : tail.head? = some d) : d = '\n' := by
  rcases cut with first | newline
  · exact first d head
  · rw [last] at newline
    exact absurd (Option.some.inj newline) ne

/-- A string that is closed in the whole text. -/
theorem CutOrDone.quotedFrom (start : Span) (cs : List Char) {s : List Char} (lx : Lexer)
    (rest : lx.rest = cs) (cut : lx.CutOrDone tail)
    (ok : lexQuotedFrom start (cs ++ tail) (lx.extend tail) = .ok (s, lx')) :
    Reaches tail s lx' (lexQuotedFrom start cs lx) := by
  match cs with
  | [] => exact .inl ⟨_, rfl, rfl⟩
  | c :: cs =>
    have cut := cut.resolve_right (by rw [rest]; simp)
    have ahead : lx.peekChar = some c := by
      rw [peekChar, rest]
      rfl
    have bumped : (lx.extend tail).bump = lx.bump.extend tail := bump_extend (ne_nil_of_peek ahead)
    have rest' : lx.bump.rest = cs := by
      rw [rest_bump, rest]
      rfl
    by_cases quote : c = '\''
    · subst quote
      have cut₁ := cut.bump ahead (by decide)
      match cs with
      | [] =>
        have single : ∀ cs, '\'' = '\'' → tail = '\'' :: cs → False := by
          rintro cs - rfl
          exact absurd (cut.tail_head rest (by decide) rfl) (by decide)
        rw [List.singleton_append, lexQuotedFrom, if_pos rfl, bumped] at ok
        · cases ok
          exact .inr ⟨lx.bump, rfl, rfl, .inl cut₁⟩
        · exact single
      | d :: cs =>
        by_cases doubled : d = '\''
        · subst doubled
          have ahead₁ : lx.bump.peekChar = some '\'' := by
            rw [peekChar, rest']
            rfl
          have rest₂ : lx.bump.bump.rest = cs := by
            rw [rest_bump, rest']
            rfl
          rw [List.cons_append, List.cons_append, lexQuotedFrom, bumped,
            bump_extend (ne_nil_of_peek ahead₁)] at ok
          obtain ⟨⟨s', lx₁⟩, read, ok⟩ := ok_of_bind ok
          cases ok
          have reaches := CutOrDone.quotedFrom start cs lx.bump.bump rest₂
            (.inl (cut₁.bump ahead₁ (by decide))) read
          rw [lexQuotedFrom]
          exact reaches.map
        · have single : ∀ cs', '\'' = '\'' → d :: cs ++ tail = '\'' :: cs' → False := by
            rintro cs' - eq
            exact doubled (List.cons.inj eq).1
          have single' : ∀ cs', '\'' = '\'' → d :: cs = '\'' :: cs' → False := by
            rintro cs' - eq
            exact doubled (List.cons.inj eq).1
          rw [List.cons_append, lexQuotedFrom, if_pos rfl, bumped] at ok
          · cases ok
            rw [lexQuotedFrom, if_pos rfl]
            · exact .inr ⟨lx.bump, rfl, rfl, .inl cut₁⟩
            · exact single'
          · exact single
    · have other : ∀ {cs₀ : List Char} cs', c = '\'' → cs₀ = '\'' :: cs' → False :=
        fun _ eq _ => quote eq
      rw [List.cons_append, lexQuotedFrom, if_neg quote, bumped] at ok
      · obtain ⟨⟨s', lx₁⟩, read, ok⟩ := ok_of_bind ok
        cases ok
        have reaches := CutOrDone.quotedFrom start cs lx.bump rest' cut.bump_or_done read
        rw [lexQuotedFrom, if_neg quote]
        · exact reaches.map
        · exact other
      · exact other
termination_by cs.length

theorem Cut.quotedText (cut : lx.Cut tail) (ahead : lx.peekChar = some c) (ne : c ≠ '\n')
    {start : Span} {s : String} (ok : (lx.extend tail).lexQuotedText start = .ok (s, lx')) :
    Reaches tail s lx' (lx.lexQuotedText start) := by
  unfold lexQuotedText at ok ⊢
  rw [bump_extend (ne_nil_of_peek ahead)] at ok
  obtain ⟨⟨cs, lx₁⟩, read, ok⟩ := ok_of_bind ok
  cases ok
  exact (CutOrDone.quotedFrom start lx.bump.rest lx.bump rfl (.inl (cut.bump ahead ne)) read).map

/-- White space and comments: on the prefix they may reach its end. -/
theorem CutOrDone.skipTriviaFrom (cs : List Char) (comment : Option Span) (lx : Lexer)
    (rest : lx.rest = cs) (cut : lx.CutOrDone tail)
    (ok : Lexer.skipTriviaFrom (cs ++ tail) comment (lx.extend tail) = .ok lx') :
    (∃ e, Lexer.skipTriviaFrom cs comment lx = .error e ∧ e.eof = true) ∨
      ∃ lx₁, Lexer.skipTriviaFrom cs comment lx = .ok lx₁ ∧
        (lx₁.rest = [] ∨ lx' = lx₁.extend tail ∧ lx₁.Cut tail) := by
  match cs with
  | [] =>
    cases comment with
    | none => exact .inr ⟨lx, rfl, .inl rest⟩
    | some start => exact .inl ⟨_, rfl, rfl⟩
  | c :: cs =>
    have cut := cut.resolve_right (by rw [rest]; simp)
    have ahead : lx.peekChar = some c := by
      rw [peekChar, rest]
      rfl
    have bumped : (lx.extend tail).bump = lx.bump.extend tail := bump_extend (ne_nil_of_peek ahead)
    have rest' : lx.bump.rest = cs := by
      rw [rest_bump, rest]
      rfl
    have next := fun comment => CutOrDone.skipTriviaFrom cs comment lx.bump rest' cut.bump_or_done
    cases comment with
    | none =>
      rw [List.cons_append, Lexer.skipTriviaFrom, bumped] at ok
      rw [Lexer.skipTriviaFrom]
      split at ok
      · next white =>
        rw [if_pos white]
        exact next none ok
      · next black =>
        rw [if_neg black]
        split at ok
        · next quote =>
          rw [if_pos quote]
          exact next _ ok
        · next other =>
          rw [if_neg other]
          cases ok
          exact .inr ⟨lx, rfl, .inr ⟨rfl, cut⟩⟩
    | some start =>
      by_cases doubled : ∃ cs', c = '"' ∧ cs = '"' :: cs'
      · obtain ⟨cs', rfl, rfl⟩ := doubled
        have ahead₁ : lx.bump.peekChar = some '"' := by
          rw [peekChar, rest']
          rfl
        have rest₂ : lx.bump.bump.rest = cs' := by
          rw [rest_bump, rest']
          rfl
        rw [List.cons_append, List.cons_append, Lexer.skipTriviaFrom, bumped,
          bump_extend (ne_nil_of_peek ahead₁)] at ok
        rw [Lexer.skipTriviaFrom]
        exact CutOrDone.skipTriviaFrom cs' (some start) lx.bump.bump rest₂
          (.inl ((cut.bump ahead (by decide)).bump ahead₁ (by decide))) ok
      · have single : ∀ cs', c = '"' → cs = '"' :: cs' → False := fun cs' quote eq =>
          doubled ⟨cs', quote, eq⟩
        have single' : ∀ cs', c = '"' → cs ++ tail = '"' :: cs' → False := by
          rintro cs' rfl eq
          cases cs with
          | nil =>
            have head : tail.head? = some '"' := by
              rw [show tail = '"' :: cs' from eq]
              rfl
            exact absurd (cut.tail_head rest (by decide) head) (by decide)
          | cons d cs => exact doubled ⟨cs, rfl, by rw [(List.cons.inj eq).1]⟩
        rw [List.cons_append, Lexer.skipTriviaFrom, bumped] at ok
        · rw [Lexer.skipTriviaFrom]
          · exact next _ ok
          · exact single
        · exact single'
termination_by cs.length

/-! ## Symbols -/

/-- One part of a symbol for each character at most, so that any fuel above their number does. -/
theorem Cut.symbolParts {n m : Nat} (cut : lx.Cut tail) (enough : lx.rest.length ≤ n) (le : n ≤ m) :
    lexSymbolParts m (lx.extend tail) =
        ((lexSymbolParts n lx).1, (lexSymbolParts n lx).2.extend tail) ∧
      (lexSymbolParts n lx).2.Cut tail := by
  induction n generalizing lx m with
  | zero =>
    have nil : lx.rest = [] := List.length_eq_zero_iff.mp (Nat.le_zero.mp enough)
    refine ⟨?_, cut⟩
    cases m with
    | zero => rfl
    | succ m =>
      obtain ⟨read, cut'⟩ := cut.consumeWhile (p := isIdentCont) (by decide)
      have none_ : lx.consumeWhile isIdentCont = ([], lx) := by
        unfold Lexer.consumeWhile
        rw [nil]
        rfl
      rw [none_] at read
      have colon : ¬ (lx.extend tail).peekChar = some ':' := fun at_ => by
        have at_ := (cut.peek_iff (by decide)).mp at_
        exact ne_nil_of_peek at_ nil
      show lexSymbolParts (m + 1) (lx.extend tail) = ([], lx.extend tail)
      rw [lexSymbolParts, read]
      dsimp only
      rw [if_neg colon]
  | succ n ih =>
    obtain ⟨m, rfl⟩ : ∃ k, m = k + 1 := ⟨m - 1, by omega⟩
    obtain ⟨read, cut'⟩ := cut.consumeWhile (p := isIdentCont) (by decide)
    have shorter : (lx.consumeWhile isIdentCont).2.rest.length ≤ lx.rest.length := by
      unfold Lexer.consumeWhile
      dsimp only
      rw [rest_skip, List.length_drop]
      omega
    rw [lexSymbolParts, lexSymbolParts, read]
    dsimp only
    generalize lx.consumeWhile isIdentCont = s at cut' shorter ⊢
    obtain ⟨part, lx₁⟩ := s
    dsimp only at cut' shorter ⊢
    by_cases colon : lx₁.peekChar = some ':'
    · have cut₂ := cut'.bump colon (by decide)
      have fewer : lx₁.bump.rest.length ≤ n := by
        have := List.length_pos_iff.mpr (ne_nil_of_peek colon)
        rw [rest_bump, List.length_tail]
        omega
      obtain ⟨whole, cut₃⟩ := ih cut₂ fewer (Nat.le_of_succ_le_succ le)
      rw [if_pos colon, if_pos ((cut'.peek_iff (by decide)).mpr colon),
        bump_extend (ne_nil_of_peek colon), cut₂.peek_any (by decide)]
      split
      · rw [whole]
        exact ⟨rfl, cut₃⟩
      · exact ⟨rfl, cut₂⟩
    · rw [if_neg colon, if_neg fun at_ => colon ((cut'.peek_iff (by decide)).mp at_)]
      exact ⟨rfl, cut'⟩

/-- A reader that gives the same token, and goes on behind it. -/
theorem reaches_ok {a : α} {lx₁ : Lexer} (cut : lx₁.CutOrDone tail) :
    Reaches tail a (lx₁.extend tail) (.ok (a, lx₁)) :=
  .inr ⟨lx₁, rfl, rfl, cut⟩

variable {t : Tok} {start : Span}

theorem Cut.hash (cut : lx.Cut tail) (ahead : lx.peekChar = some '#')
    (ok : (lx.extend tail).lexHash start = .ok (t, lx')) : Reaches tail t lx' (lx.lexHash start) := by
  have cut := cut.bump ahead (by decide)
  unfold lexHash at ok ⊢
  rw [bump_extend (ne_nil_of_peek ahead)] at ok
  dsimp only at ok ⊢
  generalize lx.bump = lx at cut ok ⊢
  cases next : (lx.extend tail).peekChar with
  | none =>
    rw [next] at ok
    cases ok
  | some c =>
    rw [next] at ok
    dsimp only at ok
    by_cases newline : c = '\n'
    · subst newline
      exact absurd ok (by simp [isIdentStart, isBinaryChar])
    have next := (cut.peek_iff newline).mp next
    have bumped : (lx.extend tail).bump = lx.bump.extend tail := bump_extend (ne_nil_of_peek next)
    rw [next]
    dsimp only
    by_cases paren : c = '('
    · rw [if_pos paren, bumped] at ok
      cases ok
      rw [if_pos paren]
      exact reaches_ok cut.bump_or_done
    rw [if_neg paren] at ok ⊢
    by_cases bracket : c = '['
    · rw [if_pos bracket, bumped] at ok
      cases ok
      rw [if_pos bracket]
      exact reaches_ok cut.bump_or_done
    rw [if_neg bracket] at ok ⊢
    by_cases quote : c = '\''
    · rw [if_pos quote] at ok ⊢
      obtain ⟨⟨text, lx₁⟩, read, ok⟩ := ok_of_bind ok
      cases ok
      exact (cut.quotedText next newline read).map
    rw [if_neg quote] at ok ⊢
    by_cases name : isIdentStart c = true
    · rw [if_pos name] at ok ⊢
      obtain ⟨whole, cut₁⟩ := cut.symbolParts (Nat.le_refl lx.rest.length)
        (show lx.rest.length ≤ (lx.extend tail).rest.length by simp [extend])
      rw [whole] at ok
      cases ok
      exact reaches_ok (.inl cut₁)
    rw [if_neg name] at ok ⊢
    by_cases bar : c = '|'
    · rw [if_pos bar, bumped] at ok
      cases ok
      rw [if_pos bar]
      exact reaches_ok cut.bump_or_done
    rw [if_neg bar] at ok ⊢
    by_cases binary : isBinaryChar c = true
    · obtain ⟨whole, cut₁⟩ := cut.binarySel next newline
      rw [if_pos binary, whole] at ok
      cases ok
      rw [if_pos binary]
      exact reaches_ok (.inl cut₁)
    · rw [if_neg binary] at ok
      cases ok

theorem Cut.charLiteral (cut : lx.Cut tail) (ahead : lx.peekChar = some '$')
    (ok : (lx.extend tail).lexCharLiteral start = .ok (t, lx')) :
    Reaches tail t lx' (lx.lexCharLiteral start) := by
  have cut := cut.bump ahead (by decide)
  unfold lexCharLiteral at ok ⊢
  rw [bump_extend (ne_nil_of_peek ahead)] at ok
  generalize lx.bump = lx at cut ok ⊢
  cases next : lx.peekChar with
  | none => exact .inl ⟨_, rfl, rfl⟩
  | some c =>
    rcases cut.ahead with same | ⟨none_, -⟩
    · rw [same, next, bump_extend (ne_nil_of_peek next)] at ok
      cases ok
      exact reaches_ok cut.bump_or_done
    · rw [next] at none_
      cases none_

/-! ## Tokens -/

variable [F64]

theorem Cut.lexToken (cut : lx.Cut tail) (ahead : lx.peekChar = some c)
    (ok : (lx.extend tail).lexToken c = .ok (t, lx')) : Reaches tail t lx' (lx.lexToken c) := by
  have bumped : (lx.extend tail).bump = lx.bump.extend tail := bump_extend (ne_nil_of_peek ahead)
  unfold Lexer.lexToken at ok ⊢
  dsimp only at ok ⊢
  rw [show (lx.extend tail).here = lx.here from rfl] at ok
  by_cases name : isIdentStart c = true
  · obtain ⟨whole, cut₁⟩ := cut.identOrKeyword
    rw [if_pos name, whole] at ok
    cases ok
    rw [if_pos name]
    exact reaches_ok (.inl cut₁)
  rw [if_neg name] at ok ⊢
  by_cases digit : c.isDigit = true
  · rw [if_pos digit] at ok ⊢
    exact (cut.number false lx.here).reaches ok
  rw [if_neg digit] at ok ⊢
  by_cases minus : c = '-'
  · subst minus
    have cut₁ := cut.bump ahead (by decide)
    rw [if_pos rfl] at ok ⊢
    rw [peekCharAt_one_extend ahead, cut₁.peek_any (by decide), ← peekCharAt_one,
      show (lx.extend tail).inLiteralSeq = lx.inLiteralSeq from rfl,
      show (lx.extend tail).prevEndsExpr = lx.prevEndsExpr from rfl] at ok
    split at ok
    · next number =>
      rw [if_pos number]
      rw [bumped] at ok
      exact (cut₁.number true lx.here).reaches ok
    · next selector =>
      obtain ⟨whole, cut₂⟩ := cut.binarySel ahead (by decide)
      rw [whole] at ok
      cases ok
      rw [if_neg selector]
      exact reaches_ok (.inl cut₂)
  rw [if_neg minus] at ok ⊢
  by_cases dollar : c = '$'
  · subst dollar
    rw [if_pos rfl] at ok ⊢
    exact cut.charLiteral ahead ok
  rw [if_neg dollar] at ok ⊢
  by_cases quote : c = '\''
  · subst quote
    rw [if_pos rfl] at ok ⊢
    obtain ⟨⟨text, lx₁⟩, read, ok⟩ := ok_of_bind ok
    cases ok
    exact (cut.quotedText ahead (by decide) read).map
  rw [if_neg quote] at ok ⊢
  by_cases sharp : c = '#'
  · subst sharp
    rw [if_pos rfl] at ok ⊢
    exact cut.hash ahead ok
  rw [if_neg sharp] at ok ⊢
  cases mark : punctuation.lookup c with
  | some tok =>
    rw [mark, bumped] at ok
    cases ok
    exact reaches_ok cut.bump_or_done
  | none =>
    rw [mark] at ok
    dsimp only at ok ⊢
    by_cases colon : c = ':'
    · subst colon
      have cut₁ := cut.bump ahead (by decide)
      rw [if_pos rfl, bumped] at ok
      rw [if_pos rfl]
      by_cases equals : lx.bump.peekChar = some '='
      · rw [if_pos ((cut₁.peek_iff (by decide)).mpr equals), bump_extend (ne_nil_of_peek equals)] at ok
        cases ok
        rw [if_pos equals]
        exact reaches_ok cut₁.bump_or_done
      · rw [if_neg fun at_ => equals ((cut₁.peek_iff (by decide)).mp at_)] at ok
        cases ok
        rw [if_neg equals]
        exact reaches_ok (.inl cut₁)
    rw [if_neg colon] at ok ⊢
    by_cases binary : isBinaryChar c = true
    · have newline : c ≠ '\n' := by
        rintro rfl
        exact absurd binary (by decide)
      obtain ⟨whole, cut₁⟩ := cut.binarySel ahead newline
      rw [if_pos binary, whole] at ok
      cases ok
      rw [if_pos binary]
      exact reaches_ok (.inl cut₁)
    · rw [if_neg binary] at ok
      cases ok

/-- The next token of the whole text is the next of the prefix as well, or the prefix is at
its end there. -/
theorem nextToken_cut {t : Tok × Span} (cut : lx.CutOrDone tail)
    (ok : (lx.extend tail).nextToken = .ok (t, lx')) :
    (∃ e, lx.nextToken = .error e ∧ e.eof = true) ∨
      (∃ span lx₁, lx.nextToken = .ok ((.eof, span), lx₁) ∧ lx₁.rest = []) ∨
      ∃ lx₁, lx.nextToken = .ok (t, lx₁) ∧ lx' = lx₁.extend tail ∧ lx₁.CutOrDone tail := by
  unfold nextToken at ok ⊢
  obtain ⟨lx₁', trivia, ok⟩ := ok_of_bind ok
  rcases CutOrDone.skipTriviaFrom lx.rest none lx rfl cut trivia with
    ⟨e, failed, eof⟩ | ⟨lx₁, skipped, done | ⟨rfl, cut₁⟩⟩
  · refine .inl ⟨e, ?_, eof⟩
    rw [skipTrivia, failed]
    rfl
  · refine .inr (.inl ⟨lx₁.here, lx₁, ?_, done⟩)
    rw [skipTrivia, skipped]
    dsimp only [bind, Except.bind]
    rw [peekChar, done]
    rfl
  · rw [skipTrivia, skipped]
    dsimp only [bind, Except.bind] at ok ⊢
    cases ahead : lx₁.peekChar with
    | none =>
      have nil : lx₁.rest = [] := List.head?_eq_none_iff.mp ahead
      exact .inr (.inl ⟨lx₁.here, lx₁, rfl, nil⟩)
    | some c =>
      rcases cut₁.ahead with same | ⟨none_, -⟩
      · rw [same, ahead] at ok
        dsimp only at ok ⊢
        cases read : (lx₁.extend tail).lexToken c with
        | error e =>
          rw [read] at ok
          cases ok
        | ok r =>
          obtain ⟨tok, lx₂'⟩ := r
          rw [read] at ok
          cases ok
          rcases cut₁.lexToken ahead read with ⟨e, failed, eof⟩ | ⟨lx₂, read₂, rfl, cut₂⟩
          · rw [failed]
            exact .inl ⟨e, rfl, eof⟩
          · rw [read₂]
            exact .inr (.inr ⟨_, rfl, rfl, cut₂⟩)
      · rw [ahead] at none_
        cases none_

end

end WinVm.Frontend.Lexer
