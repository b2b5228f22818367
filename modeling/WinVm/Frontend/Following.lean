import WinVm.Frontend.LineBreak
import WinVm.Frontend.Parser

/-!
# A text and a prefix of it

The expression parser on a text, and on a prefix of it that ends at a line break. While the
prefix lasts, both parses do the same (`Sync`); at its end the parse of the prefix holds the
token for the end of input (`Ended`), or has it as the token after the one it holds (`Late`).
From there on it only ever returns or fails, and with that token at hand every error has the
flag for the end of input.

Result: `exprsFollow`.
-/

namespace WinVm.Frontend.Parser

variable {α β : Type} {tail : List Char} {p p' q q' : Parser}

/-! ## Parses at the end of the input -/

/-- The end of the input is at hand. -/
structure Ended (p : Parser) : Prop where
  cur : ∃ span, p.cur = (.eof, span)
  peeked : p.peeked = none
  rest : p.lx.rest = []

/-- The end of the input comes next. -/
structure Late (p : Parser) : Prop where
  peeked : ∃ span, p.peeked = some (.eof, span)
  rest : p.lx.rest = []

/-- An error with the flag for the end of input. -/
def Flagged (x : Parse α) (p : Parser) : Prop :=
  ∃ e, x p = ExceptT.mk (some (.error e)) ∧ e.eof = true

/-- An error with the flag, or a return at the end of the input. -/
def Finishes (x : Parse α) (p : Parser) : Prop :=
  Flagged x p ∨ ∃ a q, Returns x p a q ∧ Ended q

def Fails (x : Parse α) : Prop := ∀ p, Ended p → Flagged x p

def Closes (x : Parse α) : Prop := ∀ p, Ended p → Finishes x p

section

variable {x : Parse α} {f : α → Parse β}

theorem Flagged.bind (flagged : Flagged x p) : Flagged (x >>= f) p := by
  obtain ⟨e, failed, eof⟩ := flagged
  refine ⟨e, ?_, eof⟩
  change ExceptT.bind (x p) _ = _
  rw [failed]
  rfl

theorem Finishes.bind (finishes : Finishes x p) (later : ∀ a, Closes (f a)) : Finishes (x >>= f) p := by
  rcases finishes with flagged | ⟨a, q, returns, ended⟩
  · exact .inl flagged.bind
  · unfold Finishes Flagged Returns
    rw [returns.bind_eq]
    exact later a q ended

theorem Fails.bind (fails : Fails x) : Fails (x >>= f) := fun p ended => (fails p ended).bind

theorem Fails.closes (fails : Fails x) : Closes x := fun p ended => .inl (fails p ended)

theorem Closes.bind (closes : Closes x) (later : ∀ a, Closes (f a)) : Closes (x >>= f) :=
  fun p ended => (closes p ended).bind later

theorem closes_pure (a : α) : Closes (pure a) := fun p ended => .inr ⟨a, p, .pure a, ended⟩

theorem fails_error (span : Span) (msg : String) : Fails (error (α := α) span msg) := by
  rintro p ⟨⟨span', cur⟩, -, -⟩
  refine ⟨⟨span, msg, decide (p.cur.1 = .eof)⟩, rfl, ?_⟩
  rw [cur]
  rfl

theorem fails_curTok {f : Tok → Parse β} (fails : Fails (f .eof)) : Fails (curTok >>= f) := by
  intro p ended
  obtain ⟨span, cur⟩ := ended.cur
  have := fails p ended
  unfold Flagged at this ⊢
  rw [curTok_bind, cur]
  exact this

theorem closes_curTok {f : Tok → Parse β} (closes : Closes (f .eof)) : Closes (curTok >>= f) := by
  intro p ended
  obtain ⟨span, cur⟩ := ended.cur
  have := closes p ended
  unfold Finishes Flagged Returns at this ⊢
  rw [curTok_bind, cur]
  exact this

theorem fails_curSpan {f : Span → Parse β} (fails : ∀ span, Fails (f span)) :
    Fails (curSpan >>= f) := fun p ended => fails p.cur.2 p ended

theorem Finishes.curSpan {f : Span → Parse β} (finishes : Finishes (f p.cur.2) p) :
    Finishes (Parser.curSpan >>= f) p := finishes

theorem closes_curSpan {f : Span → Parse β} (closes : ∀ span, Closes (f span)) :
    Closes (curSpan >>= f) := fun p ended => closes p.cur.2 p ended

/-- A parse that looks at the token at hand and its place. -/
theorem fails_get {f : Parser → Parse β} (fails : ∀ p span, p.cur = (.eof, span) → Fails (f p)) :
    Fails (get >>= f) := by
  intro p ended
  obtain ⟨span, cur⟩ := ended.cur
  exact fails p span cur p ended

theorem closes_get {f : Parser → Parse β} (closes : ∀ p span, p.cur = (.eof, span) → Closes (f p)) :
    Closes (get >>= f) := by
  intro p ended
  obtain ⟨span, cur⟩ := ended.cur
  exact closes p span cur p ended

theorem closes_modify {f : Parser → Parser} (keeps : ∀ p, Ended p → Ended (f p)) :
    Closes (modify f) := fun p ended => .inr ⟨(), f p, rfl, keeps p ended⟩

theorem closes_setPragmaMode (v : Bool) : Closes (setPragmaMode v) :=
  closes_modify fun _ ended => ⟨ended.cur, ended.peeked, ended.rest⟩

variable [F64]

theorem closes_bump : Closes bump := by
  intro p ended
  have next : p.lx.nextToken = .ok ((.eof, p.lx.here), p.lx) := by
    unfold Lexer.nextToken Lexer.skipTrivia
    rw [ended.rest]
    dsimp only [Lexer.skipTriviaFrom, bind, Except.bind]
    rw [Lexer.peekChar, ended.rest]
    rfl
  exact .inr ⟨(), _, bump_returns ended.peeked next, ⟨_, rfl⟩, ended.peeked, ended.rest⟩

/-- The token after the one at hand is the end of the input. -/
theorem Late.bump (late : Late p) : ∃ q, Returns bump p () q ∧ Ended q := by
  obtain ⟨span, peeked⟩ := late.peeked
  refine ⟨{ p with cur := (.eof, span), peeked := none }, ?_, ⟨span, rfl⟩, rfl, late.rest⟩
  unfold Returns Parser.bump
  rw [get_bind, peeked]
  rfl

theorem Late.bump_bind {f : Unit → Parse β} (late : Late p) (closes : Closes (f ())) :
    Finishes (Parser.bump >>= f) p := by
  obtain ⟨q, returns, ended⟩ := late.bump
  unfold Finishes Flagged Returns
  rw [returns.bind_eq]
  exact closes q ended

end

/-! ## Two parses side by side -/

/-- Parsers of the whole text and of the prefix: the same token at hand, and the same ahead
or on the prefix the end of the input. -/
structure Sync (tail : List Char) (p' p : Parser) : Prop where
  cur : p'.cur = p.cur
  depth : p'.literalSeqDepth = p.literalSeqDepth
  ahead : Late p ∨ p'.peeked = p.peeked ∧ p'.lx = p.lx.extend tail ∧ p.lx.CutOrDone tail

/-- If the parse of the whole text returns, the parse of the prefix returns the same, or it
has come to the end of the input. -/
def FollowsAt (tail : List Char) (x y : Parse α) (p' p : Parser) : Prop :=
  ∀ a q', Returns x p' a q' → Finishes y p ∨ ∃ q, Returns y p a q ∧ Sync tail q' q

def Follows (tail : List Char) (x y : Parse α) : Prop := ∀ p' p, Sync tail p' p → FollowsAt tail x y p' p

section

variable {x y : Parse α} {f g : α → Parse β}

/-- A parse that returns has returned from its first part. -/
theorem Returns.of_bind {b : β} (returns : Returns (x >>= f) p b q) :
    ∃ a r, Returns x p a r ∧ Returns (f a) r b q := by
  unfold Returns at returns ⊢
  change ExceptT.bind (x p) _ = _ at returns
  cases first : x p with
  | none =>
    rw [first] at returns
    cases returns
  | some result =>
    rw [first] at returns
    cases result with
    | error e => cases returns
    | ok r => exact ⟨r.1, r.2, rfl, returns⟩

theorem FollowsAt.bind (first : FollowsAt tail x y p' p)
    (later : ∀ a, Follows tail (f a) (g a)) (closes : ∀ a, Closes (g a)) :
    FollowsAt tail (x >>= f) (y >>= g) p' p := by
  intro b q' returns
  obtain ⟨a, r', read, returns⟩ := returns.of_bind
  rcases first a r' read with finishes | ⟨r, read, sync⟩
  · exact .inl (finishes.bind closes)
  · have := later a r' r sync b q' returns
    unfold Finishes Flagged Returns at this ⊢
    rw [read.bind_eq]
    exact this

theorem Follows.bind (first : Follows tail x y) (later : ∀ a, Follows tail (f a) (g a))
    (closes : ∀ a, Closes (g a)) : Follows tail (x >>= f) (y >>= g) :=
  fun p' p sync => (first p' p sync).bind later closes

theorem follows_pure (a : α) : Follows tail (pure a) (pure a) := by
  intro p' p sync a' q' returns
  obtain ⟨rfl, rfl⟩ := Returns.unique returns (.pure a)
  exact .inr ⟨p, .pure a', sync⟩

/-- Nothing to follow where the parse of the whole text fails. -/
theorem follows_error {span : Span} {msg : String} {y : Parse α} :
    Follows tail (error span msg) y := by
  intro p' p sync a q' returns
  cases returns

theorem follows_error_bind {span : Span} {msg : String} {y : Parse β} :
    Follows tail (error span msg >>= f) y := by
  intro p' p sync b q' returns
  obtain ⟨a, r, failed, -⟩ := returns.of_bind
  cases failed

theorem follows_outOfFuel {y : Parse α} : Follows tail outOfFuel y := by
  intro p' p sync a q' returns
  cases returns

theorem follows_curTok {f g : Tok → Parse β} (later : ∀ tok, Follows tail (f tok) (g tok)) :
    Follows tail (curTok >>= f) (curTok >>= g) := by
  intro p' p sync b q' returns
  have := later p.cur.1 p' p sync b q'
  rw [← sync.cur] at this
  rw [sync.cur] at this
  have returns : Returns (f p.cur.1) p' b q' := by
    rw [← sync.cur]
    exact returns
  exact this returns

theorem follows_curSpan {f g : Span → Parse β} (later : ∀ span, Follows tail (f span) (g span)) :
    Follows tail (curSpan >>= f) (curSpan >>= g) := by
  intro p' p sync b q' returns
  have returns : Returns (f p.cur.2) p' b q' := by
    rw [← sync.cur]
    exact returns
  exact later p.cur.2 p' p sync b q' returns

/-- A parse that looks at the token at hand and its place. -/
theorem follows_get {f g : Parser → Parse β}
    (later : ∀ p' p c, p'.cur = c → p.cur = c → Follows tail (f p') (g p)) :
    Follows tail (get >>= f) (get >>= g) := fun p' p sync =>
  later p' p p.cur sync.cur rfl p' p sync

theorem follows_modify {f : Parser → Parser}
    (keeps : ∀ p' p, Sync tail p' p → Sync tail (f p') (f p)) : Follows tail (modify f) (modify f) := by
  intro p' p sync a q' returns
  obtain ⟨-, rfl⟩ := Returns.unique returns (show Returns (modify f) p' () (f p') from rfl)
  exact .inr ⟨f p, rfl, keeps p' p sync⟩

theorem follows_setPragmaMode (v : Bool) : Follows tail (setPragmaMode v) (setPragmaMode v) :=
  follows_modify fun p' p sync => ⟨sync.cur, sync.depth, sync.ahead.imp
    (fun late => ⟨late.peeked, late.rest⟩)
    fun ⟨peeked, lx, cut⟩ => ⟨peeked, by rw [lx]; rfl, cut⟩⟩

theorem follows_fail {y : Parse α} {msg : String} :
    Follows tail (do error (← curSpan) msg) y := by
  intro p' p sync a q' returns
  cases returns

theorem fails_fail (msg : String) : Fails (do error (α := α) (← curSpan) msg) :=
  fails_curSpan fun span => fails_error span msg

theorem follows_checkNotReserved (span : Span) (name : String) :
    Follows tail (checkNotReserved span name) (checkNotReserved span name) := by
  unfold checkNotReserved
  split
  · exact follows_error
  · exact follows_pure ()

theorem closes_checkNotReserved (span : Span) (name : String) : Closes (checkNotReserved span name) := by
  unfold checkNotReserved
  split
  · exact (fails_error span _).closes
  · exact closes_pure ()

theorem enterLiteralSeq_eq : enterLiteralSeq = modify fun p =>
    if p.literalSeqDepth + 1 = 1 then
      { p with literalSeqDepth := p.literalSeqDepth + 1, lx := { p.lx with inLiteralSeq := true } }
    else { p with literalSeqDepth := p.literalSeqDepth + 1 } := by
  funext p
  by_cases edge : p.literalSeqDepth + 1 = 1
  · show (if p.literalSeqDepth + 1 = 1 then setInLiteralSeq true else pure ()) _ =
      ExceptT.mk (some (.ok ((), if p.literalSeqDepth + 1 = 1 then _ else _)))
    rw [if_pos edge, if_pos edge]
    rfl
  · show (if p.literalSeqDepth + 1 = 1 then setInLiteralSeq true else pure ()) _ =
      ExceptT.mk (some (.ok ((), if p.literalSeqDepth + 1 = 1 then _ else _)))
    rw [if_neg edge, if_neg edge]
    rfl

theorem exitLiteralSeq_eq : exitLiteralSeq = modify fun p =>
    if p.literalSeqDepth - 1 = 0 then
      { p with literalSeqDepth := p.literalSeqDepth - 1, lx := { p.lx with inLiteralSeq := false } }
    else { p with literalSeqDepth := p.literalSeqDepth - 1 } := by
  funext p
  by_cases edge : p.literalSeqDepth - 1 = 0
  · show (if p.literalSeqDepth - 1 = 0 then setInLiteralSeq false else pure ()) _ =
      ExceptT.mk (some (.ok ((), if p.literalSeqDepth - 1 = 0 then _ else _)))
    rw [if_pos edge, if_pos edge]
    rfl
  · show (if p.literalSeqDepth - 1 = 0 then setInLiteralSeq false else pure ()) _ =
      ExceptT.mk (some (.ok ((), if p.literalSeqDepth - 1 = 0 then _ else _)))
    rw [if_neg edge, if_neg edge]
    rfl

/-- A change of the depth and of the lexer's mode that depends on the depth only. -/
theorem follows_depth (cond : Nat → Prop) [DecidablePred cond] (step : Nat → Nat) {mode : Bool} :
    Follows tail
      (modify fun p => if cond p.literalSeqDepth then
          { p with literalSeqDepth := step p.literalSeqDepth, lx := { p.lx with inLiteralSeq := mode } }
        else { p with literalSeqDepth := step p.literalSeqDepth })
      (modify fun p => if cond p.literalSeqDepth then
          { p with literalSeqDepth := step p.literalSeqDepth, lx := { p.lx with inLiteralSeq := mode } }
        else { p with literalSeqDepth := step p.literalSeqDepth }) := by
  refine follows_modify fun p' p sync => ?_
  rw [sync.depth]
  split
  · exact ⟨sync.cur, rfl, sync.ahead.imp (fun late => ⟨late.peeked, late.rest⟩)
      fun ⟨peeked, lx, cut⟩ => ⟨peeked, by rw [lx]; rfl, cut⟩⟩
  · exact ⟨sync.cur, rfl, sync.ahead.imp (fun late => ⟨late.peeked, late.rest⟩) id⟩

theorem closes_depth (cond : Nat → Prop) [DecidablePred cond] (step : Nat → Nat) {mode : Bool} :
    Closes (modify fun p : Parser => if cond p.literalSeqDepth then
        { p with literalSeqDepth := step p.literalSeqDepth, lx := { p.lx with inLiteralSeq := mode } }
      else { p with literalSeqDepth := step p.literalSeqDepth }) := by
  refine closes_modify fun p ended => ?_
  split
  · exact ⟨ended.cur, ended.peeked, ended.rest⟩
  · exact ⟨ended.cur, ended.peeked, ended.rest⟩

theorem follows_enterLiteralSeq : Follows tail enterLiteralSeq enterLiteralSeq := by
  rw [enterLiteralSeq_eq]
  exact follows_depth (· + 1 = 1) (· + 1)

theorem follows_exitLiteralSeq : Follows tail exitLiteralSeq exitLiteralSeq := by
  rw [exitLiteralSeq_eq]
  exact follows_depth (· - 1 = 0) (· - 1)

theorem closes_exitLiteralSeq : Closes exitLiteralSeq := by
  rw [exitLiteralSeq_eq]
  exact closes_depth (· - 1 = 0) (· - 1)

/-- A check that fails with an error before the rest. -/
theorem follows_guard {c : Prop} [Decidable c] {span : Span} {msg : String} {f g : PUnit → Parse β}
    (later : Follows tail (f ()) (g ())) :
    Follows tail (if c then error span msg >>= f else f ()) (if c then error span msg >>= g else g ()) := by
  split
  · intro p' p sync b q' returns
    obtain ⟨a, r, failed, -⟩ := returns.of_bind
    cases failed
  · exact later

theorem closes_guard {c : Prop} [Decidable c] {span : Span} {msg : String} {f : PUnit → Parse β}
    (closes : Closes (f ())) : Closes (if c then error span msg >>= f else f ()) := by
  split
  · exact (fails_error span msg).bind.closes
  · exact closes

/-- A check whose error stands at the token at hand. -/
theorem follows_guardHere {c : Prop} [Decidable c] {msg : String} {f g : PUnit → Parse β}
    (later : Follows tail (f ()) (g ())) :
    Follows tail (if c then curSpan >>= fun span => error span msg >>= f else f ())
      (if c then curSpan >>= fun span => error span msg >>= g else g ()) := by
  split
  · intro p' p sync b q' returns
    obtain ⟨span, r, -, returns⟩ := returns.of_bind
    obtain ⟨a, r, failed, -⟩ := returns.of_bind
    cases failed
  · exact later

theorem closes_guardHere {c : Prop} [Decidable c] {msg : String} {f : PUnit → Parse β}
    (closes : Closes (f ())) :
    Closes (if c then curSpan >>= fun span => error span msg >>= f else f ()) := by
  split
  · exact closes_curSpan fun span => (fails_error span msg).bind.closes
  · exact closes

variable [F64]

theorem lexNext_returns {t : Tok × Span} (returns : Returns lexNext p t q) :
    ∃ lx, p.lx.nextToken = .ok (t, lx) ∧ q = { p with lx := lx } := by
  unfold Returns lexNext at returns
  rw [get_bind] at returns
  cases next : p.lx.nextToken with
  | error e =>
    rw [next] at returns
    cases returns
  | ok r =>
    rw [next] at returns
    cases returns
    exact ⟨r.2, rfl, rfl⟩

theorem lexNext_eq {t : Tok × Span} {lx : Lexer} (next : p.lx.nextToken = .ok (t, lx)) :
    Returns lexNext p t { p with lx := lx } := by
  unfold Returns lexNext
  rw [get_bind, next]
  rfl

theorem lexNext_flagged {e : CompileError} (next : p.lx.nextToken = .error e) (eof : e.eof = true) :
    Flagged lexNext p := by
  refine ⟨e, ?_, eof⟩
  unfold lexNext
  rw [get_bind, next]
  rfl

theorem follows_bump : Follows tail bump bump := by
  intro p' p sync a q' returns
  rcases sync.ahead with late | ⟨peeked, lx, cut⟩
  · obtain ⟨q, returns, ended⟩ := late.bump
    exact .inl (.inr ⟨(), q, returns, ended⟩)
  unfold Returns bump at returns
  rw [get_bind] at returns
  unfold Finishes Flagged Returns bump
  rw [get_bind]
  cases ahead : p.peeked with
  | some t =>
    rw [peeked, ahead] at returns
    cases returns
    exact .inr ⟨_, rfl, rfl, sync.depth, .inr ⟨rfl, lx, cut⟩⟩
  | none =>
    rw [peeked, ahead] at returns
    obtain ⟨t, r', read, returns⟩ := Returns.of_bind returns
    obtain ⟨lx', next, rfl⟩ := lexNext_returns read
    cases returns
    rw [lx] at next
    rcases Lexer.nextToken_cut cut next with
      ⟨e, failed, eof⟩ | ⟨span, lx₁, next₁, done⟩ | ⟨lx₁, next₁, rfl, cut₁⟩
    · exact .inl (.inl (lexNext_flagged failed eof).bind)
    · exact .inl (.inr ⟨(), _, (lexNext_eq next₁).bind_eq, ⟨span, rfl⟩, ahead, done⟩)
    · exact .inr ⟨_, (lexNext_eq next₁).bind_eq, rfl, sync.depth, .inr ⟨peeked, rfl, cut₁⟩⟩

/-- What `peek2` returns: the token at hand stays. -/
theorem peek2_returns {tok : Tok} (returns : Returns peek2 p tok q) : q.cur = p.cur := by
  unfold Returns peek2 at returns
  rw [get_bind] at returns
  cases ahead : p.peeked with
  | some t =>
    rw [ahead] at returns
    cases returns
    rfl
  | none =>
    rw [ahead] at returns
    obtain ⟨t, r, read, returns⟩ := Returns.of_bind returns
    obtain ⟨lx, -, rfl⟩ := lexNext_returns read
    cases returns
    rfl

/-- Looking at the token after the one at hand: on the prefix, that may be the end of the
input, whatever stands there in the whole text. -/
theorem FollowsAt.peek2 {f g : Tok → Parse β} (sync : Sync tail p' p)
    (later : ∀ tok, Follows tail (f tok) (g tok))
    (atEnd : ∀ tok q' q, q'.cur = p.cur → q.cur = p.cur → Late q → ∀ b r', Returns (f tok) q' b r' →
      Finishes (g .eof) q) :
    FollowsAt tail (Parser.peek2 >>= f) (Parser.peek2 >>= g) p' p := by
  intro b r' returns
  obtain ⟨tok, q', read', returns⟩ := returns.of_bind
  have cur := (peek2_returns read').trans sync.cur
  have finish : ∀ q, Returns Parser.peek2 p .eof q → q.cur = p.cur → Late q →
      Finishes (Parser.peek2 >>= g) p := by
    intro q read same late
    have := atEnd tok q' q cur same late b r' returns
    unfold Finishes Flagged Returns at this ⊢
    rw [read.bind_eq]
    exact this
  have follow : ∀ q, Returns Parser.peek2 p tok q → Sync tail q' q →
      Finishes (Parser.peek2 >>= g) p ∨ ∃ r, Returns (Parser.peek2 >>= g) p b r ∧ Sync tail r' r := by
    intro q read sync
    have := later tok q' q sync b r' returns
    unfold Finishes Flagged Returns at this ⊢
    rw [read.bind_eq]
    exact this
  have peeks : ∀ {p : Parser} {t : Tok × Span}, p.peeked = some t → Returns Parser.peek2 p t.1 p := by
    intro p t ahead
    unfold Returns Parser.peek2
    rw [get_bind, ahead]
    rfl
  have lexes : ∀ {p : Parser} {t : Tok × Span} {lx : Lexer}, p.peeked = none →
      p.lx.nextToken = .ok (t, lx) →
      Returns Parser.peek2 p t.1 { p with lx := lx, peeked := some t } := by
    intro p t lx ahead next
    unfold Returns Parser.peek2
    rw [get_bind, ahead]
    exact (lexNext_eq next).bind_eq
  rcases sync.ahead with late | ⟨peeked, lx, cut⟩
  · obtain ⟨span, ahead⟩ := late.peeked
    exact .inl (finish p (peeks ahead) rfl late)
  cases ahead : p.peeked with
  | some t =>
    obtain ⟨rfl, rfl⟩ := Returns.unique read' (peeks (peeked.trans ahead))
    exact follow p (peeks ahead) sync
  | none =>
    unfold Returns Parser.peek2 at read'
    rw [get_bind, peeked, ahead] at read'
    obtain ⟨t, q₁, read₁, rest⟩ := Returns.of_bind read'
    obtain ⟨lx', next, rfl⟩ := lexNext_returns read₁
    cases rest
    rw [lx] at next
    rcases Lexer.nextToken_cut cut next with
      ⟨e, failed, eof⟩ | ⟨span, lx₁, next₁, done⟩ | ⟨lx₁, next₁, rfl, cut₁⟩
    · refine .inl (.inl (Flagged.bind ?_))
      obtain ⟨e, flagged, eof⟩ := (lexNext_flagged failed eof).bind (f := fun t => do
        modify fun p => { p with peeked := some t }
        return t.1)
      refine ⟨e, ?_, eof⟩
      unfold Parser.peek2
      rw [get_bind, ahead]
      exact flagged
    · exact .inl (finish _ (lexes ahead next₁) rfl ⟨⟨span, rfl⟩, done⟩)
    · exact follow _ (lexes ahead next₁) ⟨sync.cur, sync.depth, .inr ⟨rfl, rfl, cut₁⟩⟩

/-! ## Single tokens -/

theorem follows_expect (want : Tok) (msg : String) : Follows tail (expect want msg) (expect want msg) := by
  refine follows_curTok fun tok => ?_
  split
  · exact follows_bump
  · exact follows_fail

theorem fails_expect {want : Tok} (ne : want ≠ .eof) (msg : String) : Fails (expect want msg) := by
  refine fails_curTok ?_
  rw [if_neg ne.symm]
  exact fails_fail msg

theorem follows_closeParen (msg : String) : Follows tail (closeParen msg) (closeParen msg) :=
  follows_expect .rParen msg

theorem fails_closeParen (msg : String) : Fails (closeParen msg) :=
  fails_expect (show Tok.rParen ≠ .eof by simp) msg

theorem follows_expectKeyword (kw : String) : Follows tail (expectKeyword kw) (expectKeyword kw) :=
  follows_expect (.keyword kw) _

theorem fails_expectKeyword (kw : String) : Fails (expectKeyword kw) :=
  fails_expect (show Tok.keyword kw ≠ .eof by simp) _

/-- A token, and then the rest. -/
theorem follows_next {f g : Unit → Parse β} (later : Follows tail (f ()) (g ()))
    (closes : Closes (g ())) : Follows tail (bump >>= f) (bump >>= g) :=
  follows_bump.bind (fun _ => later) fun _ => closes

theorem closes_next {f : Unit → Parse β} (closes : Closes (f ())) : Closes (bump >>= f) :=
  closes_bump.bind fun _ => closes

theorem follows_expectIdent (msg : String) : Follows tail (expectIdent msg) (expectIdent msg) := by
  refine follows_curTok fun tok => ?_
  cases tok with
  | ident name => exact follows_next (follows_pure _) (closes_pure _)
  | _ => exact follows_fail

theorem fails_expectIdent (msg : String) : Fails (expectIdent msg) :=
  fails_curTok (fails_fail msg)

/-! ## Literals -/

theorem closes_keywordRun (n : Nat) (col : Option (BitVec 32)) : Closes (parseKeywordRun (n + 1) col) := by
  rw [parseKeywordRun]
  refine closes_get fun p span cur => ?_
  rw [cur]
  exact closes_pure _

theorem follows_keywordRun {n m : Nat} (le : n + 1 ≤ m) (col : Option (BitVec 32)) :
    Follows tail (parseKeywordRun n col) (parseKeywordRun m col) := by
  induction n generalizing m col with
  | zero => exact follows_outOfFuel
  | succ n ih =>
    obtain ⟨m, rfl⟩ : ∃ k, m = k + 1 := ⟨m - 1, by omega⟩
    rw [parseKeywordRun, parseKeywordRun]
    refine follows_get fun p' p c cur' cur => ?_
    rw [cur', cur]
    obtain ⟨tok, span⟩ := c
    cases tok with
    | keyword k =>
      dsimp only
      split
      · exact follows_pure _
      · obtain ⟨m, rfl⟩ : ∃ k, m = k + 1 := ⟨m - 1, by omega⟩
        exact follows_next ((ih (by omega) _).bind (fun _ => follows_pure _) fun _ => closes_pure _)
          ((closes_keywordRun m _).bind fun _ => closes_pure _)
    | _ => exact follows_pure _

theorem fails_byteElems {n : Nat} (enough : 1 ≤ n) : Fails (parseByteElems n) := by
  obtain ⟨n, rfl⟩ : ∃ k, n = k + 1 := ⟨n - 1, by omega⟩
  rw [parseByteElems]
  refine fails_get fun p span cur => ?_
  rw [cur]
  exact fails_error span _

theorem follows_byteElems {n m : Nat} (le : n + 1 ≤ m) :
    Follows tail (parseByteElems n) (parseByteElems m) := by
  induction n generalizing m with
  | zero => exact follows_outOfFuel
  | succ n ih =>
    obtain ⟨m, rfl⟩ : ∃ k, m = k + 1 := ⟨m - 1, by omega⟩
    rw [parseByteElems, parseByteElems]
    refine follows_get fun p' p c cur' cur => ?_
    rw [cur', cur]
    obtain ⟨tok, span⟩ := c
    cases tok with
    | rBracket => exact follows_pure _
    | intLit negative radix digits =>
      refine follows_next (follows_guard ?_) (closes_guard ?_)
      · exact (ih (by omega)).bind (fun _ => follows_pure _) fun _ => closes_pure _
      · exact (fails_byteElems (by omega)).bind.closes
    | _ => exact follows_error

theorem follows_byteArrayLiteral {n m : Nat} (le : n + 1 ≤ m) :
    Follows tail (parseByteArrayLiteral n) (parseByteArrayLiteral m) := by
  have close : ∀ bytes, Closes (do exitLiteralSeq; bump; return Literal.byteArray bytes) := fun bytes =>
    closes_exitLiteralSeq.bind fun _ => closes_next (closes_pure _)
  refine follows_enterLiteralSeq.bind (fun _ => follows_next ?_ ?_) fun _ => ?_
  · exact (follows_byteElems le).bind (fun _ => follows_exitLiteralSeq.bind
      (fun _ => follows_next (follows_pure _) (closes_pure _)) fun _ => closes_next (closes_pure _)) close
  · exact (fails_byteElems (by omega)).bind.closes
  · exact closes_next (fails_byteElems (by omega)).bind.closes

theorem fails_arrayElem {n : Nat} (enough : 1 ≤ n) : Fails (parseArrayElem n) := by
  obtain ⟨n, rfl⟩ : ∃ k, n = k + 1 := ⟨n - 1, by omega⟩
  rw [parseArrayElem]
  refine fails_get fun p span cur => ?_
  rw [cur]
  exact fails_error span _

theorem fails_arrayElems {n : Nat} (enough : 2 ≤ n) : Fails (parseArrayElems n) := by
  obtain ⟨n, rfl⟩ : ∃ k, n = k + 1 := ⟨n - 1, by omega⟩
  rw [parseArrayElems]
  exact fails_curTok (fails_arrayElem (by omega)).bind

/-- The readers of literal arrays at some fuel, and at more. -/
structure ArraysFollow (tail : List Char) (n m : Nat) : Prop where
  elems : Follows tail (parseArrayElems n) (parseArrayElems m)
  elem : Follows tail (parseArrayElem n) (parseArrayElem m)
  literal : Follows tail (parseArrayLiteral n) (parseArrayLiteral m)

theorem arraysFollow {n m : Nat} (le : n + 10 ≤ m) : ArraysFollow tail n m := by
  induction n generalizing m with
  | zero => exact ⟨follows_outOfFuel, follows_outOfFuel, follows_outOfFuel⟩
  | succ n ih =>
    obtain ⟨m, rfl⟩ : ∃ k, m = k + 1 := ⟨m - 1, by omega⟩
    obtain ⟨elems, elem, literal⟩ := @ih m (by omega)
    have failsElems : Fails (parseArrayElems m) := fails_arrayElems (by omega)
    refine ⟨?_, ?_, ?_⟩
    · rw [parseArrayElems, parseArrayElems]
      refine follows_curTok fun tok => ?_
      split
      · exact follows_pure _
      · exact elem.bind (fun _ => elems.bind (fun _ => follows_pure _) fun _ => closes_pure _)
          fun _ => failsElems.bind.closes
    · rw [parseArrayElem, parseArrayElem]
      refine follows_get fun p' p c cur' cur => ?_
      rw [cur', cur]
      obtain ⟨tok, span⟩ := c
      dsimp only
      split
      · exact follows_next (follows_pure _) (closes_pure _)
      cases tok with
      | keyword k =>
        obtain ⟨m, rfl⟩ : ∃ k, m = k + 1 := ⟨m - 1, by omega⟩
        exact (follows_keywordRun (by omega) none).bind (fun _ => follows_pure _) fun _ => closes_pure _
      | lParen =>
        refine follows_next (elems.bind (fun _ => ?_) fun _ => ?_) failsElems.bind.closes
        · exact (follows_closeParen _).bind (fun _ => follows_pure _) fun _ => closes_pure _
        · exact (fails_closeParen _).bind.closes
      | litArrayOpen => exact literal
      | byteArrayOpen => exact follows_byteArrayLiteral (by omega)
      | _ => exact follows_error
    · rw [parseArrayLiteral, parseArrayLiteral]
      refine follows_enterLiteralSeq.bind (fun _ => follows_next ?_ failsElems.bind.closes) fun _ =>
        closes_next failsElems.bind.closes
      have close : ∀ elems, Closes (do exitLiteralSeq; bump; return Literal.array elems) := fun elems =>
        closes_exitLiteralSeq.bind fun _ => closes_next (closes_pure _)
      refine elems.bind (fun _ => follows_curTok fun tok => follows_guardHere ?_)
        fun elems => closes_curTok (closes_guardHere (close elems))
      exact follows_exitLiteralSeq.bind (fun _ => follows_next (follows_pure _) (closes_pure _))
        fun _ => closes_next (closes_pure _)

/-! ## Expressions -/

theorem closes_blockParams {n : Nat} (enough : 1 ≤ n) : Closes (parseBlockParams n) := by
  obtain ⟨n, rfl⟩ : ∃ k, n = k + 1 := ⟨n - 1, by omega⟩
  rw [parseBlockParams]
  exact closes_curTok (closes_pure _)

theorem follows_blockParams {n m : Nat} (le : n + 1 ≤ m) :
    Follows tail (parseBlockParams n) (parseBlockParams m) := by
  induction n generalizing m with
  | zero => exact follows_outOfFuel
  | succ n ih =>
    obtain ⟨m, rfl⟩ : ∃ k, m = k + 1 := ⟨m - 1, by omega⟩
    have rest := @ih m (by omega)
    have closes : Closes (parseBlockParams m) := closes_blockParams (by omega)
    rw [parseBlockParams, parseBlockParams]
    refine follows_curTok fun tok => ?_
    split
    · exact follows_pure _
    · refine follows_next (follows_curSpan fun span => ?_) (closes_curSpan fun span => ?_)
      · refine (follows_expectIdent _).bind (fun name => ?_) fun name => ?_
        · exact (follows_checkNotReserved span name).bind
            (fun _ => rest.bind (fun _ => follows_pure _) fun _ => closes_pure _)
            fun _ => closes.bind fun _ => closes_pure _
        · exact (closes_checkNotReserved span name).bind fun _ => closes.bind fun _ => closes_pure _
      · exact (fails_expectIdent _).bind.closes

theorem closes_names {n : Nat} (enough : 1 ≤ n) : Closes (parseNames n) := by
  obtain ⟨n, rfl⟩ : ∃ k, n = k + 1 := ⟨n - 1, by omega⟩
  rw [parseNames]
  refine closes_get fun p span cur => ?_
  rw [cur]
  exact closes_pure _

theorem follows_names {n m : Nat} (le : n + 1 ≤ m) : Follows tail (parseNames n) (parseNames m) := by
  induction n generalizing m with
  | zero => exact follows_outOfFuel
  | succ n ih =>
    obtain ⟨m, rfl⟩ : ∃ k, m = k + 1 := ⟨m - 1, by omega⟩
    have closes : Closes (parseNames m) := closes_names (by omega)
    rw [parseNames, parseNames]
    refine follows_get fun p' p c cur' cur => ?_
    rw [cur', cur]
    obtain ⟨tok, span⟩ := c
    cases tok with
    | ident name =>
      refine (follows_checkNotReserved span name).bind (fun _ => follows_next ?_ ?_) fun _ => closes_next ?_
      · exact (@ih m (by omega)).bind (fun _ => follows_pure _) fun _ => closes_pure _
      · exact closes.bind fun _ => closes_pure _
      · exact closes.bind fun _ => closes_pure _
    | _ => exact follows_pure _

theorem closes_optionalTemps (n : Nat) : Closes (parseOptionalTemps n) :=
  closes_curTok (closes_pure _)

theorem follows_optionalTemps {n m : Nat} (le : n + 1 ≤ m) :
    Follows tail (parseOptionalTemps n) (parseOptionalTemps m) := by
  have bar : Fails (expect .vBar "expected closing '|' after temporaries") := fails_expect (by simp) _
  refine follows_curTok fun tok => ?_
  split
  · exact follows_pure _
  · refine follows_next ((follows_names le).bind (fun _ => ?_) fun _ => bar.bind.closes) ?_
    · exact (follows_expect _ _).bind (fun _ => follows_pure _) fun _ => closes_pure _
    · exact (closes_names (by omega)).bind fun _ => bar.bind.closes

theorem closes_unaryChain {n : Nat} (enough : 1 ≤ n) (e : Expr) (isSuper : Bool) :
    Closes (parseUnaryChain n e isSuper) := by
  obtain ⟨n, rfl⟩ : ∃ k, n = k + 1 := ⟨n - 1, by omega⟩
  rw [parseUnaryChain]
  refine closes_get fun p span cur => ?_
  rw [cur]
  exact closes_pure _

theorem follows_unaryChain {n m : Nat} (le : n + 1 ≤ m) (e : Expr) (isSuper : Bool) :
    Follows tail (parseUnaryChain n e isSuper) (parseUnaryChain m e isSuper) := by
  induction n generalizing m e isSuper with
  | zero => exact follows_outOfFuel
  | succ n ih =>
    obtain ⟨m, rfl⟩ : ∃ k, m = k + 1 := ⟨m - 1, by omega⟩
    rw [parseUnaryChain, parseUnaryChain]
    refine follows_get fun p' p c cur' cur => ?_
    rw [cur', cur]
    obtain ⟨tok, span⟩ := c
    cases tok with
    | ident name => exact follows_next (ih (by omega) _ _) (closes_unaryChain (by omega) _ _)
    | _ => exact follows_pure _

theorem fails_primary {n : Nat} (enough : 1 ≤ n) : Fails (parsePrimary n) := by
  obtain ⟨n, rfl⟩ : ∃ k, n = k + 1 := ⟨n - 1, by omega⟩
  rw [parsePrimary]
  refine fails_get fun p span cur => ?_
  rw [cur]
  exact fails_error span _

theorem closes_binaryTail {n : Nat} (enough : 1 ≤ n) (e : Expr) (isSuper : Bool) :
    Closes (parseBinaryTail n e isSuper) := by
  obtain ⟨n, rfl⟩ : ∃ k, n = k + 1 := ⟨n - 1, by omega⟩
  rw [parseBinaryTail]
  refine closes_get fun p span cur => ?_
  rw [cur]
  exact closes_pure _

theorem closes_binaryChain {n : Nat} (enough : 2 ≤ n) (e : Expr) (isSuper : Bool) :
    Closes (parseBinaryChain n e isSuper) := by
  obtain ⟨n, rfl⟩ : ∃ k, n = k + 1 := ⟨n - 1, by omega⟩
  rw [parseBinaryChain]
  exact (closes_unaryChain (by omega) e isSuper).bind fun _ => closes_binaryTail (by omega) _ _

theorem closes_keywordParts {n : Nat} (enough : 1 ≤ n) : Closes (parseKeywordParts n) := by
  obtain ⟨n, rfl⟩ : ∃ k, n = k + 1 := ⟨n - 1, by omega⟩
  rw [parseKeywordParts]
  exact closes_curTok (closes_pure _)

theorem closes_keywordChain {n : Nat} (enough : 3 ≤ n) (e : Expr) (isSuper : Bool) :
    Closes (parseKeywordChain n e isSuper) := by
  obtain ⟨n, rfl⟩ : ∃ k, n = k + 1 := ⟨n - 1, by omega⟩
  rw [parseKeywordChain]
  refine (closes_binaryChain (by omega) e isSuper).bind fun _ => closes_get fun p span cur => ?_
  rw [cur]
  exact closes_pure _

theorem fails_keywordExpr {n : Nat} (enough : 2 ≤ n) : Fails (parseKeywordExpr n) := by
  obtain ⟨n, rfl⟩ : ∃ k, n = k + 1 := ⟨n - 1, by omega⟩
  rw [parseKeywordExpr]
  exact fails_curSpan fun _ => (fails_primary (by omega)).bind

theorem closes_cascadeSegments {n : Nat} (enough : 1 ≤ n) (span : Span) (isSuper : Bool) :
    Closes (parseCascadeSegments n span isSuper) := by
  obtain ⟨n, rfl⟩ : ∃ k, n = k + 1 := ⟨n - 1, by omega⟩
  rw [parseCascadeSegments]
  exact closes_curTok (closes_pure _)

theorem fails_cascade {n : Nat} (enough : 3 ≤ n) : Fails (parseCascade n) := by
  obtain ⟨n, rfl⟩ : ∃ k, n = k + 1 := ⟨n - 1, by omega⟩
  rw [parseCascade]
  exact fails_curSpan fun _ => (fails_keywordExpr (by omega)).bind

theorem fails_expression {n : Nat} (enough : 4 ≤ n) : Fails (parseExpression n) := by
  obtain ⟨n, rfl⟩ : ∃ k, n = k + 1 := ⟨n - 1, by omega⟩
  rw [parseExpression]
  refine fails_get fun p span cur => ?_
  rw [cur]
  exact fails_cascade (by omega)

theorem closes_statements {n : Nat} (enough : 1 ≤ n) : Closes (parseStatements n) := by
  obtain ⟨n, rfl⟩ : ∃ k, n = k + 1 := ⟨n - 1, by omega⟩
  rw [parseStatements]
  exact closes_curTok (closes_curTok (closes_pure _))

theorem fails_dynElems {n : Nat} (enough : 5 ≤ n) : Fails (parseDynElems n) := by
  obtain ⟨n, rfl⟩ : ∃ k, n = k + 1 := ⟨n - 1, by omega⟩
  rw [parseDynElems]
  exact (fails_expression (by omega)).bind

/-! ### An identifier at the end

The end of the input comes after an identifier: it is read as the first primary. -/

section

variable {n : Nat} {name : String} {span : Span}

theorem Late.primary (late : Late p) (cur : p.cur = (.ident name, span)) (enough : 1 ≤ n) :
    Finishes (parsePrimary n) p := by
  obtain ⟨n, rfl⟩ : ∃ k, n = k + 1 := ⟨n - 1, by omega⟩
  rw [parsePrimary]
  unfold Finishes Flagged Returns
  rw [get_bind, cur]
  exact late.bump_bind (closes_pure _)

theorem Late.keywordExpr (late : Late p) (cur : p.cur = (.ident name, span)) (enough : 4 ≤ n) :
    Finishes (parseKeywordExpr n) p := by
  obtain ⟨n, rfl⟩ : ∃ k, n = k + 1 := ⟨n - 1, by omega⟩
  rw [parseKeywordExpr]
  exact .curSpan <| (late.primary cur (by omega)).bind fun r => (closes_keywordChain (by omega) _ _).bind fun _ =>
    closes_guard (closes_pure _)

theorem Late.cascade (late : Late p) (cur : p.cur = (.ident name, span)) (enough : 5 ≤ n) :
    Finishes (parseCascade n) p := by
  obtain ⟨n, rfl⟩ : ∃ k, n = k + 1 := ⟨n - 1, by omega⟩
  rw [parseCascade]
  exact .curSpan <| (late.keywordExpr cur (by omega)).bind fun first => closes_curTok (closes_pure _)

theorem Late.peek2 (late : Late p) : Returns peek2 p .eof p := by
  obtain ⟨span, ahead⟩ := late.peeked
  unfold Returns Parser.peek2
  rw [get_bind, ahead]
  rfl

theorem Late.expression (late : Late p) (cur : p.cur = (.ident name, span)) (enough : 6 ≤ n) :
    Finishes (parseExpression n) p := by
  obtain ⟨n, rfl⟩ : ∃ k, n = k + 1 := ⟨n - 1, by omega⟩
  rw [parseExpression]
  unfold Finishes Flagged Returns
  rw [get_bind, cur]
  dsimp only
  rw [late.peek2.bind_eq]
  exact late.cascade cur (by omega)

theorem Late.statement (late : Late p) (cur : p.cur = (.ident name, span)) (enough : 7 ≤ n) :
    Finishes (parseStatement n) p := by
  obtain ⟨n, rfl⟩ : ∃ k, n = k + 1 := ⟨n - 1, by omega⟩
  rw [parseStatement]
  unfold Finishes Flagged Returns
  rw [get_bind, cur]
  exact late.expression cur (by omega)

end

/-- The readers of expressions at some fuel, and at more. -/
structure ExprsFollow (tail : List Char) (n m : Nat) : Prop where
  primary : Follows tail (parsePrimary n) (parsePrimary m)
  binaryTail : ∀ e isSuper, Follows tail (parseBinaryTail n e isSuper) (parseBinaryTail m e isSuper)
  binaryChain : ∀ e isSuper, Follows tail (parseBinaryChain n e isSuper) (parseBinaryChain m e isSuper)
  keywordParts : Follows tail (parseKeywordParts n) (parseKeywordParts m)
  keywordChain : ∀ e isSuper,
    Follows tail (parseKeywordChain n e isSuper) (parseKeywordChain m e isSuper)
  keywordExpr : Follows tail (parseKeywordExpr n) (parseKeywordExpr m)
  cascadeSegments : ∀ span isSuper,
    Follows tail (parseCascadeSegments n span isSuper) (parseCascadeSegments m span isSuper)
  cascade : Follows tail (parseCascade n) (parseCascade m)
  expression : Follows tail (parseExpression n) (parseExpression m)
  statement : Follows tail (parseStatement n) (parseStatement m)
  statementList : Follows tail (parseStatementList n) (parseStatementList m)
  statements : Follows tail (parseStatements n) (parseStatements m)
  block : Follows tail (parseBlock n) (parseBlock m)
  dynElems : Follows tail (parseDynElems n) (parseDynElems m)
  dynArray : Follows tail (parseDynArray n) (parseDynArray m)

section

variable {n m : Nat}

theorem exprsFollow_zero : ExprsFollow tail 0 m where
  primary := follows_outOfFuel
  binaryTail _ _ := follows_outOfFuel
  binaryChain _ _ := follows_outOfFuel
  keywordParts := follows_outOfFuel
  keywordChain _ _ := follows_outOfFuel
  keywordExpr := follows_outOfFuel
  cascadeSegments _ _ := follows_outOfFuel
  cascade := follows_outOfFuel
  expression := follows_outOfFuel
  statement := follows_outOfFuel
  statementList := follows_outOfFuel
  statements := follows_outOfFuel
  block := follows_outOfFuel
  dynElems := follows_outOfFuel
  dynArray := follows_outOfFuel

variable (ih : ExprsFollow tail n m) (le : n + 10 ≤ m)

include ih le

theorem follows_primary : Follows tail (parsePrimary (n + 1)) (parsePrimary (m + 1)) := by
  rw [parsePrimary, parsePrimary]
  refine follows_get fun p' p c cur' cur => ?_
  rw [cur', cur]
  obtain ⟨tok, span⟩ := c
  dsimp only
  split
  · exact follows_next (follows_pure _) (closes_pure _)
  cases tok with
  | lParen =>
    refine follows_next (ih.expression.bind (fun _ => ?_) fun _ => ?_)
      (fails_expression (by omega)).bind.closes
    · exact (follows_closeParen _).bind (fun _ => follows_pure _) fun _ => closes_pure _
    · exact (fails_closeParen _).bind.closes
  | lBracket => exact ih.block.bind (fun _ => follows_pure _) fun _ => closes_pure _
  | litArrayOpen =>
    exact (arraysFollow le).literal.bind (fun _ => follows_pure _) fun _ => closes_pure _
  | byteArrayOpen =>
    exact (follows_byteArrayLiteral (by omega)).bind (fun _ => follows_pure _) fun _ => closes_pure _
  | lBrace => exact ih.dynArray.bind (fun _ => follows_pure _) fun _ => closes_pure _
  | _ => exact follows_error

theorem follows_binaryTail (e : Expr) (isSuper : Bool) :
    Follows tail (parseBinaryTail (n + 1) e isSuper) (parseBinaryTail (m + 1) e isSuper) := by
  rw [parseBinaryTail, parseBinaryTail]
  refine follows_get fun p' p c cur' cur => ?_
  rw [cur', cur]
  obtain ⟨tok, span⟩ := c
  dsimp only
  split
  · exact follows_pure _
  · refine follows_next (ih.primary.bind (fun r => ?_) fun r => ?_) (fails_primary (by omega)).bind.closes
    · exact (follows_unaryChain (by omega) _ _).bind (fun _ => ih.binaryTail _ _)
        fun _ => closes_binaryTail (by omega) _ _
    · exact (closes_unaryChain (by omega) _ _).bind fun _ => closes_binaryTail (by omega) _ _

theorem follows_binaryChain (e : Expr) (isSuper : Bool) :
    Follows tail (parseBinaryChain (n + 1) e isSuper) (parseBinaryChain (m + 1) e isSuper) := by
  rw [parseBinaryChain, parseBinaryChain]
  exact (follows_unaryChain (by omega) e isSuper).bind (fun _ => ih.binaryTail _ _)
    fun _ => closes_binaryTail (by omega) _ _

theorem follows_keywordParts :
    Follows tail (parseKeywordParts (n + 1)) (parseKeywordParts (m + 1)) := by
  rw [parseKeywordParts, parseKeywordParts]
  refine follows_curTok fun tok => ?_
  cases tok with
  | keyword k =>
    refine follows_next (ih.primary.bind (fun r => ?_) fun r => ?_) (fails_primary (by omega)).bind.closes
    · refine (ih.binaryChain _ _).bind (fun arg => ?_) fun arg => ?_
      · exact ih.keywordParts.bind (fun _ => follows_pure _) fun _ => closes_pure _
      · exact (closes_keywordParts (by omega)).bind fun _ => closes_pure _
    · exact (closes_binaryChain (by omega) _ _).bind fun arg =>
        (closes_keywordParts (by omega)).bind fun _ => closes_pure _
  | _ => exact follows_pure _

omit le in
theorem follows_keywordChain (e : Expr) (isSuper : Bool) :
    Follows tail (parseKeywordChain (n + 1) e isSuper) (parseKeywordChain (m + 1) e isSuper) := by
  rw [parseKeywordChain, parseKeywordChain]
  refine (ih.binaryChain e isSuper).bind (fun r => follows_get fun p' p c cur' cur => ?_)
    fun r => closes_get fun p span cur => ?_
  · rw [cur', cur]
    obtain ⟨tok, span⟩ := c
    cases tok with
    | keyword k => exact ih.keywordParts.bind (fun _ => follows_pure _) fun _ => closes_pure _
    | _ => exact follows_pure _
  · rw [cur]
    exact closes_pure _

theorem follows_keywordExpr :
    Follows tail (parseKeywordExpr (n + 1)) (parseKeywordExpr (m + 1)) := by
  rw [parseKeywordExpr, parseKeywordExpr]
  refine follows_curSpan fun start => ih.primary.bind (fun r => ?_) fun r => ?_
  · exact (ih.keywordChain _ _).bind (fun _ => follows_guard (follows_pure _))
      fun _ => closes_guard (closes_pure _)
  · exact (closes_keywordChain (by omega) _ _).bind fun _ => closes_guard (closes_pure _)

theorem follows_cascadeSegments (span : Span) (isSuper : Bool) :
    Follows tail (parseCascadeSegments (n + 1) span isSuper) (parseCascadeSegments (m + 1) span isSuper) := by
  rw [parseCascadeSegments, parseCascadeSegments]
  refine follows_curTok fun tok => ?_
  split
  · exact follows_pure _
  have rest : ∀ seg : Expr, Closes (do return seg :: (← parseCascadeSegments m span isSuper)) := fun seg =>
    (closes_cascadeSegments (by omega) _ _).bind fun _ => closes_pure _
  refine follows_next (follows_curSpan fun start => (ih.keywordChain _ _).bind (fun r => ?_) fun r => ?_)
    (closes_curSpan fun start => (closes_keywordChain (by omega) _ _).bind fun r => ?_)
  · obtain ⟨seg, isSuper'⟩ := r
    cases seg with
    | cascadeRcvr => exact follows_error_bind
    | _ => exact (ih.cascadeSegments _ _).bind (fun _ => follows_pure _) fun _ => closes_pure _
  all_goals
    obtain ⟨seg, isSuper'⟩ := r
    cases seg with
    | cascadeRcvr => exact (fails_error _ _).bind.closes
    | _ => exact rest _

omit le in
theorem follows_cascade : Follows tail (parseCascade (n + 1)) (parseCascade (m + 1)) := by
  rw [parseCascade, parseCascade]
  refine follows_curSpan fun start => ih.keywordExpr.bind (fun first => follows_curTok fun tok => ?_)
    fun first => closes_curTok (closes_pure _)
  split
  · exact follows_pure _
  · cases first with
    | send receiver selector args isSuper span =>
      exact (ih.cascadeSegments _ _).bind (fun _ => follows_pure _) fun _ => closes_pure _
    | _ => exact follows_error

theorem follows_expression : Follows tail (parseExpression (n + 1)) (parseExpression (m + 1)) := by
  intro p' p sync
  rw [parseExpression, parseExpression]
  unfold FollowsAt Finishes Flagged Returns
  rw [get_bind, get_bind, sync.cur]
  cases cur : p.cur with
  | mk tok span =>
    cases tok with
    | ident name =>
      refine FollowsAt.peek2 sync (fun tok => ?_) fun tok q' q cur' same late b r' returns => ?_
      · split
        · refine (follows_checkNotReserved span name).bind (fun _ => follows_next (follows_next ?_ ?_) ?_)
            fun _ => closes_next (closes_next ?_)
          · exact ih.expression.bind (fun _ => follows_pure _) fun _ => closes_pure _
          · exact (fails_expression (by omega)).bind.closes
          · exact closes_next (fails_expression (by omega)).bind.closes
          · exact (fails_expression (by omega)).bind.closes
        · exact ih.cascade
      · exact late.cascade (same.trans cur) (by omega)
    | _ => exact ih.cascade p' p sync

theorem follows_statement : Follows tail (parseStatement (n + 1)) (parseStatement (m + 1)) := by
  rw [parseStatement, parseStatement]
  refine follows_get fun p' p c cur' cur => ?_
  rw [cur', cur]
  obtain ⟨tok, span⟩ := c
  cases tok with
  | caret =>
    exact follows_next (ih.expression.bind (fun _ => follows_pure _) fun _ => closes_pure _)
      (fails_expression (by omega)).bind.closes
  | _ => exact ih.expression

omit le in
theorem follows_statementList :
    Follows tail (parseStatementList (n + 1)) (parseStatementList (m + 1)) := by
  rw [parseStatementList, parseStatementList]
  refine ih.statement.bind (fun stmt => follows_curTok fun tok => ?_) fun stmt =>
    closes_curTok (closes_pure _)
  split
  · exact follows_pure _
  · refine follows_next (follows_curTok fun tok => follows_curTok fun tok' => ?_)
      (closes_curTok (closes_curTok (closes_pure _)))
    split
    · exact follows_pure _
    · exact ih.statementList.bind (fun _ => follows_pure _) fun _ => closes_pure _

omit le in
theorem follows_statements : Follows tail (parseStatements (n + 1)) (parseStatements (m + 1)) := by
  rw [parseStatements, parseStatements]
  refine follows_curTok fun tok => follows_curTok fun tok' => ?_
  split
  · exact follows_pure _
  · exact ih.statementList

/-- What stands in a block after its parameters. -/
theorem follows_blockRest {params : List String} {span : Span} :
    Follows tail
      (do
        let temps ← parseOptionalTemps n
        let body ← parseStatements n
        expect .rBracket "expected ']' to close block"
        return Expr.block params temps body span 0)
      (do
        let temps ← parseOptionalTemps m
        let body ← parseStatements m
        expect .rBracket "expected ']' to close block"
        return Expr.block params temps body span 0) := by
  have close : Fails (expect .rBracket "expected ']' to close block") := fails_expect (by simp) _
  refine (follows_optionalTemps (by omega)).bind (fun temps => ih.statements.bind (fun body => ?_) fun body =>
    close.bind.closes) fun temps => (closes_statements (by omega)).bind fun body => close.bind.closes
  exact (follows_expect _ _).bind (fun _ => follows_pure _) fun _ => closes_pure _

theorem follows_block : Follows tail (parseBlock (n + 1)) (parseBlock (m + 1)) := by
  have close : Fails (expect .rBracket "expected ']' to close block") := fails_expect (by simp) _
  have bar : Fails (expect .vBar "expected '|' after block parameters") := fails_expect (by simp) _
  have rest : ∀ params span, Closes (do
      let temps ← parseOptionalTemps m
      let body ← parseStatements m
      expect .rBracket "expected ']' to close block"
      return Expr.block params temps body span 0) := fun params span =>
    (closes_optionalTemps m).bind fun temps => (closes_statements (by omega)).bind fun body =>
      close.bind.closes
  rw [parseBlock, parseBlock]
  refine follows_curSpan fun span => follows_next (follows_curTok fun tok => ?_)
    (closes_curTok ?_)
  · dsimp only
    split
    · refine (follows_blockParams (by omega)).bind (fun params => ?_) fun params => bar.bind.closes
      refine (follows_expect _ _).bind (fun _ => (follows_pure params).bind (fun _ => ?_) fun _ => rest _ _)
        fun _ => (closes_pure params).bind fun _ => rest _ _
      exact follows_blockRest ih le
    · exact (follows_pure []).bind (fun _ => follows_blockRest ih le) fun _ => rest _ _
  · dsimp only
    rw [if_neg (by simp)]
    exact (closes_pure []).bind fun _ => rest _ _

theorem follows_dynElems : Follows tail (parseDynElems (n + 1)) (parseDynElems (m + 1)) := by
  rw [parseDynElems, parseDynElems]
  refine ih.expression.bind (fun e => follows_curTok fun tok => ?_) fun e => closes_curTok (closes_pure _)
  split
  · exact follows_pure _
  · have more : Follows tail (do return e :: (← parseDynElems n)) (do return e :: (← parseDynElems m)) :=
      ih.dynElems.bind (fun _ => follows_pure _) fun _ => closes_pure _
    refine follows_next (follows_curTok fun tok => ?_)
      (closes_curTok ((fails_dynElems (n := m) (by omega)).bind.closes))
    split
    · exact follows_pure _
    · exact more

theorem follows_dynArray : Follows tail (parseDynArray (n + 1)) (parseDynArray (m + 1)) := by
  have close : Fails (expect .rBrace "expected '\x7d' to close brace array") := fails_expect (by simp) _
  have rest : ∀ elems span, Follows tail
      (do expect .rBrace "expected '\x7d' to close brace array"; return Expr.dynArray elems span)
      (do expect .rBrace "expected '\x7d' to close brace array"; return Expr.dynArray elems span) :=
    fun _ _ => (follows_expect _ _).bind (fun _ => follows_pure _) fun _ => closes_pure _
  rw [parseDynArray, parseDynArray]
  refine follows_curSpan fun span => follows_next (follows_curTok fun tok => ?_) (closes_curTok ?_)
  · dsimp only
    split
    · exact (follows_pure []).bind (fun _ => rest _ _) fun _ => close.bind.closes
    · exact ih.dynElems.bind (fun _ => rest _ _) fun _ => close.bind.closes
  · dsimp only
    rw [if_neg (by simp)]
    exact (fails_dynElems (by omega)).bind.closes

end

theorem exprsFollow {n m : Nat} (le : n + 10 ≤ m) : ExprsFollow tail n m := by
  induction n generalizing m with
  | zero => exact exprsFollow_zero
  | succ n ih =>
    obtain ⟨m, rfl⟩ : ∃ k, m = k + 1 := ⟨m - 1, by omega⟩
    have le : n + 10 ≤ m := by omega
    have ih := ih le
    exact {
      primary := follows_primary ih le
      binaryTail := follows_binaryTail ih le
      binaryChain := follows_binaryChain ih le
      keywordParts := follows_keywordParts ih le
      keywordChain := follows_keywordChain ih
      keywordExpr := follows_keywordExpr ih le
      cascadeSegments := follows_cascadeSegments ih le
      cascade := follows_cascade ih
      expression := follows_expression ih le
      statement := follows_statement ih le
      statementList := follows_statementList ih
      statements := follows_statements ih
      block := follows_block ih le
      dynElems := follows_dynElems ih le
      dynArray := follows_dynArray ih le }

end

end WinVm.Frontend.Parser
