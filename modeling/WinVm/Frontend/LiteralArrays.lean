import Mathlib.Data.List.Chain
import WinVm.Frontend.Parser

/-!
# Literal arrays

What the text of a literal array says is a grammar over its tokens, after keywords that nothing
separates are joined. The parser joins keywords by their columns, which it compares without their
lines: a keyword at the start of a line joins one that ended in the same column further up.

Results: `literal_array_elements`, the parser reads the elements that are written exactly when no
keyword is separated from the one before it and yet starts in the column where that one ends;
`parse_elems`, what it reads in any case.
-/

namespace WinVm.Frontend

open WinVm.Lib (isWhitespace)

/-- A token in its text: the lexer before and after it. -/
structure Lexeme where
  tok : Tok
  span : Span
  before : Lexer
  after : Lexer

namespace Lexeme

/-- Whitespace, a line break or a comment follows. -/
def separated (a : Lexeme) : Bool :=
  a.after.rest.head?.any fun c => isWhitespace c || c = '"'

/-- A keyword that nothing separates from the one before it. -/
def joinsText (a b : Lexeme) : Bool := b.tok.isKeyword && !a.separated

/-- A keyword in the column where the one before it ends. -/
def joinsColumn (a b : Lexeme) : Bool := b.tok.isKeyword && b.span.col = a.after.col

end Lexeme

/-! ## What an array says -/

/-- A keyword and the one it is joined with. -/
def joinHead (k : String) : List Tok → List Tok
  | .keyword k' :: ts => .keyword (k ++ k') :: ts
  | ts => .keyword k :: ts

/-- The tokens, with keywords joined. -/
def glue (joins : Lexeme → Lexeme → Bool) : List Lexeme → List Tok
  | [] => []
  | a :: rest =>
    match a.tok with
    | .keyword k =>
      if rest.head?.any (joins a) then joinHead k (glue joins rest)
      else .keyword k :: glue joins rest
    | t => t :: glue joins rest

/-- An element of a byte array. -/
def IsByte (t : Tok) (b : BitVec 8) : Prop :=
  ∃ radix digits, t = .intLit false radix digits ∧
    (intLitMagnitude radix digits).length ≤ 1 ∧ bytesValue (intLitMagnitude radix digits) = b.toNat

/-- The elements that tokens say, in order. -/
inductive Elems : List Tok → List Literal → Prop
  | nil : Elems [] []
  | one {t : Tok} {e : Literal} {ts : List Tok} {es : List Literal} :
    Parser.arrayElemOf t = some e → Elems ts es → Elems (t :: ts) (e :: es)
  | keyword {k : String} {ts : List Tok} {es : List Literal} :
    Elems ts es → Elems (.keyword k :: ts) (.symbol k :: es)
  | array {t : Tok} {us ts : List Tok} {items es : List Literal} :
    t = .lParen ∨ t = .litArrayOpen → Elems us items → Elems ts es →
    Elems (t :: (us ++ .rParen :: ts)) (.array items :: es)
  | bytes {us ts : List Tok} {bs : List (BitVec 8)} {es : List Literal} :
    List.Forall₂ IsByte us bs → Elems ts es →
    Elems (.byteArrayOpen :: (us ++ .rBracket :: ts)) (.byteArray bs :: es)

/-! ## Joining -/

theorem isKeyword_iff {t : Tok} : t.isKeyword = true ↔ ∃ k, t = .keyword k := by
  cases t <;> simp [Tok.isKeyword]

section Glue

variable {joins : Lexeme → Lexeme → Bool} {a : Lexeme} {rest : List Lexeme}

theorem glue_cons (h : a.tok.isKeyword = false) :
    glue joins (a :: rest) = a.tok :: glue joins rest := by
  rw [glue]
  split
  · next htok =>
    rw [htok] at h
    cases h
  · rfl

theorem glue_keyword {k : String} (h : a.tok = .keyword k) : glue joins (a :: rest) =
    if rest.head?.any (joins a) then joinHead k (glue joins rest)
    else .keyword k :: glue joins rest := by
  rw [glue, h]

theorem glue_keyword_cons {k : String} (h : a.tok = .keyword k) (b : Lexeme) :
    glue joins (a :: b :: rest) =
      if joins a b then joinHead k (glue joins (b :: rest))
      else .keyword k :: glue joins (b :: rest) :=
  glue_keyword h

/-- The first of the tokens is a keyword when it was one before. -/
theorem glue_head (joins : Lexeme → Lexeme → Bool) {k : String} (h : a.tok = .keyword k)
    (rest : List Lexeme) : ∃ k' ts, glue joins (a :: rest) = .keyword k' :: ts := by
  rw [glue_keyword h]
  split
  · unfold joinHead
    split <;> exact ⟨_, _, rfl⟩
  · exact ⟨k, _, rfl⟩

theorem glue_ne {c : Tok} {t : Tok} {ts : List Tok} (h : glue joins (a :: rest) = t :: ts)
    (hc : c.isKeyword = false) (ht : t ≠ c) : a.tok ≠ c := by
  rintro rfl
  rw [glue_cons hc] at h
  exact ht (List.cons.inj h).1.symm

theorem glue_eq_nil {ls : List Lexeme} (h : glue joins ls = []) : ls = [] := by
  cases ls with
  | nil => rfl
  | cons a rest =>
    cases ha : a.tok.isKeyword with
    | false =>
      rw [glue_cons ha] at h
      cases h
    | true =>
      obtain ⟨k, hk⟩ := isKeyword_iff.mp ha
      obtain ⟨k', ts, hglue⟩ := glue_head joins hk rest
      rw [hglue] at h
      cases h

/-- Other tokens stay. -/
theorem glue_inv {t : Tok} {ts : List Tok} (h : glue joins (a :: rest) = t :: ts)
    (ht : t.isKeyword = false) : a.tok = t ∧ glue joins rest = ts := by
  cases hkw : a.tok.isKeyword with
  | false =>
    rw [glue_cons hkw] at h
    exact List.cons.inj h
  | true =>
    obtain ⟨k, hk⟩ := isKeyword_iff.mp hkw
    obtain ⟨k', ts', hglue⟩ := glue_head joins hk rest
    rw [hglue] at h
    cases h
    cases ht

end Glue

/-- Some keywords next to each other are joined. -/
inductive Joined : List Tok → List Tok → Prop
  | nil : Joined [] []
  | cons {ts us : List Tok} (t : Tok) : Joined ts us → Joined (t :: ts) (t :: us)
  | join {k k' : String} {ts us : List Tok} :
    Joined ts (.keyword k' :: us) → Joined (.keyword k :: ts) (.keyword (k ++ k') :: us)

namespace Joined

variable {ts us : List Tok}

theorem length_le (h : Joined ts us) : us.length ≤ ts.length := by
  induction h with
  | nil => exact Nat.le_refl _
  | cons t _ ih => exact Nat.succ_le_succ ih
  | join _ ih => exact Nat.le_succ_of_le ih

/-- A token that is no keyword separates what is joined before it and after it. -/
theorem split {c : Tok} (hc : c.isKeyword = false) {vs : List Tok}
    (h : Joined (ts ++ c :: us) vs) :
    ∃ ts' us', vs = ts' ++ c :: us' ∧ Joined ts ts' ∧ Joined us us' := by
  generalize hws : ts ++ c :: us = ws at h
  induction h generalizing ts with
  | nil => cases ts <;> cases hws
  | @cons ws vs t hjoined ih =>
    cases ts with
    | nil =>
      obtain ⟨rfl, rfl⟩ := List.cons.inj hws
      exact ⟨[], vs, rfl, .nil, hjoined⟩
    | cons t' ts =>
      obtain ⟨rfl, htail⟩ := List.cons.inj hws
      obtain ⟨ts', us', rfl, hts, hus⟩ := ih htail
      exact ⟨t' :: ts', us', rfl, .cons t' hts, hus⟩
  | @join k k' ws vs hjoined ih =>
    cases ts with
    | nil =>
      obtain ⟨rfl, -⟩ := List.cons.inj hws
      cases hc
    | cons t ts =>
      obtain ⟨rfl, htail⟩ := List.cons.inj hws
      obtain ⟨ts', us', heq, hts, hus⟩ := ih htail
      cases ts' with
      | nil =>
        obtain ⟨rfl, -⟩ := List.cons.inj heq
        cases hc
      | cons t' ts' =>
        obtain ⟨rfl, rfl⟩ := List.cons.inj heq
        exact ⟨_, us', rfl, .join hts, hus⟩

/-- Bytes are no keywords. -/
theorem eq_of_bytes {bs : List (BitVec 8)} (hbytes : List.Forall₂ IsByte ts bs)
    (h : Joined ts us) : us = ts := by
  induction hbytes generalizing us with
  | nil =>
    cases h
    rfl
  | cons hbyte _ ih =>
    obtain ⟨radix, digits, rfl, -⟩ := hbyte
    cases h with
    | cons _ hjoined => rw [ih hjoined]

end Joined

/-- Joined keywords are read as well. -/
theorem Elems.joined {ts us : List Tok} {es : List Literal} (h : Elems ts es)
    (hjoined : Joined ts us) : ∃ es', Elems us es' := by
  induction h generalizing us with
  | nil =>
    cases hjoined
    exact ⟨[], .nil⟩
  | one helem _ ih =>
    cases hjoined with
    | cons _ hjoined =>
      obtain ⟨es', hes'⟩ := ih hjoined
      exact ⟨_, .one helem hes'⟩
    | join _ => cases helem
  | keyword _ ih =>
    cases hjoined with
    | cons _ hjoined =>
      obtain ⟨es', hes'⟩ := ih hjoined
      exact ⟨_, .keyword hes'⟩
    | join hjoined =>
      obtain ⟨es', hes'⟩ := ih hjoined
      cases hes' with
      | one helem _ => cases helem
      | keyword hes' => exact ⟨_, .keyword hes'⟩
      | array hopen _ _ => rcases hopen with hopen | hopen <;> cases hopen
  | array hopen _ _ ihItems ih =>
    cases hjoined with
    | cons _ hjoined =>
      obtain ⟨us', ts', rfl, hus, hts⟩ := hjoined.split rfl
      obtain ⟨items', hitems⟩ := ihItems hus
      obtain ⟨es', hes'⟩ := ih hts
      exact ⟨_, .array hopen hitems hes'⟩
    | join _ => rcases hopen with hopen | hopen <;> cases hopen
  | bytes hbytes _ ih =>
    cases hjoined with
    | cons _ hjoined =>
      obtain ⟨us', ts', rfl, hus, hts⟩ := hjoined.split rfl
      rw [Joined.eq_of_bytes hbytes hus]
      obtain ⟨es', hes'⟩ := ih hts
      exact ⟨_, .bytes hbytes hes'⟩

theorem Joined.eq_of_length {ts us : List Tok} (h : Joined ts us) (hlen : us.length = ts.length) :
    us = ts := by
  induction h with
  | nil => rfl
  | cons t _ ih => rw [ih (Nat.succ.inj hlen)]
  | join hjoined _ =>
    have hle := hjoined.length_le
    simp only [List.length_cons] at hle hlen
    omega

theorem Joined.prepend {ts us : List Tok} {k k₁ k₂ : String}
    (h : Joined (.keyword k₁ :: ts) (.keyword k₂ :: us)) :
    Joined (.keyword (k ++ k₁) :: ts) (.keyword (k ++ k₂) :: us) := by
  cases h with
  | cons _ h => exact .cons _ h
  | @join _ k' _ _ h => exact (String.append_assoc ..) ▸ .join h

/-- What is left to join when one way to join extends the other. -/
theorem joined_glue {joins₁ joins₂ : Lexeme → Lexeme → Bool} {ls : List Lexeme}
    (hkw : ∀ a b, joins₂ a b = true → b.tok.isKeyword = true)
    (h : ls.IsChain fun a b => joins₁ a b = true → joins₂ a b = true) :
    Joined (glue joins₁ ls) (glue joins₂ ls) ∧
      ((glue joins₂ ls).length = (glue joins₁ ls).length ↔ ls.IsChain fun a b =>
        a.tok.isKeyword = true → joins₂ a b = true → joins₁ a b = true) := by
  induction ls with
  | nil => exact ⟨.nil, by simp [glue]⟩
  | cons a rest ih =>
    obtain ⟨hjoined, hlength⟩ := ih h.tail
    have hle := hjoined.length_le
    rw [List.isChain_cons]
    cases ha : a.tok.isKeyword with
    | false =>
      rw [glue_cons ha, glue_cons ha, List.length_cons, List.length_cons, Nat.add_right_cancel_iff,
        hlength]
      exact ⟨.cons _ hjoined, fun hchain => ⟨fun _ _ hfalse => (nomatch hfalse), hchain⟩,
        fun hchain => hchain.2⟩
    | true =>
      obtain ⟨k, hk⟩ := isKeyword_iff.mp ha
      cases rest with
      | nil =>
        rw [glue_keyword hk, glue_keyword hk]
        exact ⟨.cons _ .nil, by simp [glue]⟩
      | cons b rest =>
        rw [glue_keyword_cons hk, glue_keyword_cons hk]
        have hext : joins₁ a b = true → joins₂ a b = true := (List.isChain_cons_cons.mp h).1
        have hhead : (∀ c ∈ (b :: rest).head?, true = true → joins₂ a c = true → joins₁ a c = true) ↔
            (joins₂ a b = true → joins₁ a b = true) := by simp
        rw [hhead]
        by_cases h₂ : joins₂ a b = true
        · obtain ⟨kb, hkb⟩ := isKeyword_iff.mp (hkw a b h₂)
          obtain ⟨k₁, ts₁, hglue₁⟩ := glue_head joins₁ hkb rest
          obtain ⟨k₂, ts₂, hglue₂⟩ := glue_head joins₂ hkb rest
          rw [hglue₁, hglue₂] at hjoined hlength hle
          rw [if_pos h₂, hglue₁, hglue₂, joinHead, joinHead]
          by_cases h₁ : joins₁ a b = true
          · rw [if_pos h₁]
            refine ⟨hjoined.prepend, ?_⟩
            rw [List.length_cons, List.length_cons]
            rw [List.length_cons, List.length_cons] at hlength
            exact hlength.trans ⟨fun hchain => ⟨fun _ => h₁, hchain⟩, And.right⟩
          · rw [if_neg h₁]
            refine ⟨.join hjoined, fun hlen => ?_, fun hchain => absurd (hchain.1 h₂) h₁⟩
            simp only [List.length_cons] at hlen hle
            omega
        · rw [if_neg h₂, if_neg fun h₁ => h₂ (hext h₁), List.length_cons, List.length_cons,
            Nat.add_right_cancel_iff, hlength]
          exact ⟨.cons _ hjoined, fun hchain => ⟨fun h => absurd h h₂, hchain⟩, And.right⟩

mutual

/-- How many tokens write a literal, inside an array. -/
def Literal.tokens : Literal → Nat
  | .array items => 2 + tokensOf items
  | .byteArray bytes => 2 + bytes.length
  | _ => 1

def tokensOf : List Literal → Nat
  | [] => 0
  | e :: es => e.tokens + tokensOf es

end

theorem tokens_arrayElemOf {t : Tok} {e : Literal} (h : Parser.arrayElemOf t = some e) :
    e.tokens = 1 := by
  cases t with
  | intLit negative radix digits =>
    obtain rfl := Option.some.inj h
    unfold intlitToLiteral
    dsimp only
    (repeat' split) <;> rfl
  | ident name =>
    obtain rfl := Option.some.inj h
    (repeat' split) <;> rfl
  | _ => cases h <;> rfl

theorem Elems.tokens_eq {ts : List Tok} {es : List Literal} (h : Elems ts es) :
    tokensOf es = ts.length := by
  induction h with
  | nil => rfl
  | one helem _ ih =>
    rw [tokensOf, tokens_arrayElemOf helem, ih, List.length_cons, Nat.add_comm]
  | keyword _ ih => rw [tokensOf, Literal.tokens, ih, List.length_cons, Nat.add_comm]; nofun; nofun
  | array _ _ _ ihItems ih =>
    rw [tokensOf, Literal.tokens, ihItems, ih]
    simp only [List.length_cons, List.length_append]
    omega
  | bytes hbytes _ ih =>
    rw [tokensOf, Literal.tokens, ← hbytes.length_eq, ih]
    simp only [List.length_cons, List.length_append]
    omega

/-! ## Reading the tokens -/

section Lexing

variable [F64]

/-- The tokens that the lexer reads, one after another. -/
def Lexed : Lexer → List Lexeme → Prop
  | _, [] => True
  | lx, a :: rest =>
    a.before = lx ∧ lx.nextToken = .ok ((a.tok, a.span), a.after) ∧ Lexed a.after rest

/-- The parser is at the first of these tokens, inside a literal array. -/
structure At (p : Parser) (a : Lexeme) (rest : List Lexeme) : Prop where
  lexed : Lexed a.before (a :: rest)
  cur : p.cur = (a.tok, a.span)
  lx : p.lx = a.after
  peeked : p.peeked = none
  depth : 0 < p.literalSeqDepth

/-- The parser at another token. -/
def Parser.goto (p : Parser) (a : Lexeme) : Parser :=
  { p with cur := (a.tok, a.span), lx := a.after }

variable {p : Parser} {a b : Lexeme} {rest : List Lexeme}

theorem At.goto_self (h : At p a rest) : p.goto a = p := by
  unfold Parser.goto
  rw [← h.cur, ← h.lx]

theorem At.bump (h : At p a (b :: rest)) : Parser.Returns Parser.bump p () (p.goto b) := by
  refine Parser.bump_returns h.peeked ?_
  rw [h.lx]
  exact h.lexed.2.2.2.1

theorem At.next (h : At p a (b :: rest)) : At (p.goto b) b rest := by
  have hlexed := h.lexed.2.2
  exact ⟨hlexed.1 ▸ hlexed, rfl, rfl, h.peeked, h.depth⟩

theorem Lexed.head {lx : Lexer} (h : Lexed lx (a :: rest)) : Lexed a.before (a :: rest) := by
  obtain ⟨rfl, h⟩ := h
  exact ⟨rfl, h⟩

theorem At.col {k : String} (h : At p a rest) (ha : a.tok = .keyword k) :
    a.after.col = a.span.col + BitVec.ofNat 32 k.utf8ByteSize := by
  have hnext := h.lexed.2.1
  rw [ha] at hnext
  exact Lexer.nextToken_keyword hnext

/-- With fuel enough, the parse gives a value, and stops where these tokens are left. -/
def Reads {α : Type} (x : Nat → Parse α) (p : Parser) (a : Lexeme) (rest : List Lexeme) (v : α)
    (ts : List Tok) : Prop :=
  ∃ b rest', (b :: rest') <:+ (a :: rest) ∧ glue Lexeme.joinsColumn (b :: rest') = ts ∧
    At (p.goto b) b rest' ∧ ∃ m, ∀ n, m ≤ n → Parser.Returns (x n) p v (p.goto b)

/-- A run of keywords, each in the column where the one before it ends. -/
theorem parseKeywordRun_reads {s : String} {ts : List Tok} {col : Option (BitVec 32)}
    (hp : At p a rest) (hkw : a.tok.isKeyword = true) (hcol : col.any (a.span.col ≠ ·) = false)
    (hglue : glue Lexeme.joinsColumn (a :: rest) = .keyword s :: ts) (hts : ts ≠ []) :
    Reads (Parser.parseKeywordRun · col) p a rest s ts := by
  obtain ⟨k, hk⟩ := isKeyword_iff.mp hkw
  induction rest generalizing p a s col k with
  | nil =>
    rw [glue_keyword hk] at hglue
    cases hglue
    exact absurd rfl hts
  | cons b rest ih =>
    have hcur : p.cur = (.keyword k, a.span) := by rw [hp.cur, hk]
    have hstep : ∀ n, Parser.parseKeywordRun (n + 1) col p =
        (do return k ++ (← Parser.parseKeywordRun n
          (some (a.span.col + BitVec.ofNat 32 k.utf8ByteSize))) : Parse String) (p.goto b) := by
      intro n
      rw [Parser.parseKeywordRun, Parser.get_bind, hcur]
      dsimp only
      rw [hcol]
      exact hp.bump.bind_eq
    rw [glue_keyword hk, List.head?_cons, Option.any_some] at hglue
    by_cases hjoins : a.joinsColumn b = true
    · -- the next one is joined
      rw [if_pos hjoins] at hglue
      unfold Lexeme.joinsColumn at hjoins
      rw [Bool.and_eq_true, decide_eq_true_eq, hp.col hk] at hjoins
      obtain ⟨k', hk'⟩ := isKeyword_iff.mp hjoins.1
      obtain ⟨s', ts', hglue'⟩ := glue_head Lexeme.joinsColumn hk' rest
      rw [hglue', joinHead] at hglue
      injection hglue with hs hts'
      injection hs with hs
      subst hts'
      have hcol' : (some (a.span.col + BitVec.ofNat 32 k.utf8ByteSize)).any (b.span.col ≠ ·) =
          false := by
        rw [Option.any_some, hjoins.2]
        exact decide_eq_false fun h => h rfl
      obtain ⟨a', rest', hsuffix, hrest', hat, m, hm⟩ := ih hp.next hjoins.1 hcol' hglue' k' hk'
      refine ⟨a', rest', hsuffix.trans (List.suffix_cons _ _), hrest', hat, m + 1, fun n hn => ?_⟩
      obtain ⟨n, rfl⟩ := Nat.exists_eq_add_of_le' hn
      unfold Parser.Returns
      dsimp only
      rw [← Nat.add_assoc, hstep, (hm (n + m) (Nat.le_add_left m n)).bind_eq, ← hs]
      rfl
    · rw [if_neg hjoins] at hglue
      injection hglue with hs hts'
      injection hs with hs
      refine ⟨b, rest, List.suffix_cons _ _, hts', hp.next, 2, fun n hn => ?_⟩
      obtain ⟨n, rfl⟩ := Nat.exists_eq_add_of_le' hn
      have hend : Parser.Returns (Parser.parseKeywordRun (n + 1)
          (some (a.span.col + BitVec.ofNat 32 k.utf8ByteSize))) (p.goto b) "" (p.goto b) := by
        unfold Parser.Returns
        rw [Parser.parseKeywordRun, Parser.get_bind, hp.next.cur]
        cases htok : b.tok with
        | keyword k' =>
          have hne : b.span.col ≠ a.span.col + BitVec.ofNat 32 k.utf8ByteSize := by
            intro heq
            refine hjoins ?_
            unfold Lexeme.joinsColumn
            rw [htok, hp.col hk, ← heq]
            simp [Tok.isKeyword]
          dsimp only
          rw [Option.any_some, decide_eq_true hne, if_pos rfl]
          rfl
        | _ => rfl
      unfold Parser.Returns
      dsimp only
      rw [hstep, hend.bind_eq, ← hs]
      exact congrArg (fun s => ExceptT.mk (some (.ok (s, p.goto b)))) (String.append_empty)

section Elements

variable {t : Tok} {ts us : List Tok} {α : Type} {v : α}

/-- One token is read. -/
theorem reads_one {x : Nat → Parse α} (hp : At p a rest)
    (hglue : glue Lexeme.joinsColumn (a :: rest) = t :: ts) (ht : t.isKeyword = false)
    (hts : ts ≠ []) (hx : ∀ n, x (n + 1) p = (do Parser.bump; return v : Parse α) p) :
    Reads x p a rest v ts := by
  obtain ⟨-, hrest⟩ := glue_inv hglue ht
  cases rest with
  | nil => exact absurd hrest.symm hts
  | cons b rest =>
    refine ⟨b, rest, List.suffix_cons _ _, hrest, hp.next, 1, fun n hn => ?_⟩
    obtain ⟨n, rfl⟩ := Nat.exists_eq_add_of_le' hn
    exact (hx n).trans (hp.bump.bind (.pure v))

theorem reads_nil (hp : At p a rest) (hglue : glue Lexeme.joinsColumn (a :: rest) = .rParen :: ts) :
    Reads Parser.parseArrayElems p a rest [] (.rParen :: ts) := by
  refine ⟨a, rest, List.suffix_rfl, hglue, hp.goto_self.symm ▸ hp, 1, fun n hn => ?_⟩
  obtain ⟨n, rfl⟩ := Nat.exists_eq_add_of_le' hn
  unfold Parser.Returns
  rw [Parser.parseArrayElems, Parser.curTok_bind, hp.cur, (glue_inv hglue rfl).1, if_pos rfl,
    hp.goto_self]
  rfl

/-- An element and the elements after it. -/
theorem reads_cons {e : Literal} {es : List Literal} (hp : At p a rest) (htok : a.tok ≠ .rParen)
    (helem : Reads Parser.parseArrayElem p a rest e ts)
    (hrest : ∀ b rest', At (p.goto b) b rest' → glue Lexeme.joinsColumn (b :: rest') = ts →
      Reads Parser.parseArrayElems (p.goto b) b rest' es us) :
    Reads Parser.parseArrayElems p a rest (e :: es) us := by
  obtain ⟨b, rest₁, hsuffix₁, hglue₁, hat₁, m₁, hm₁⟩ := helem
  obtain ⟨c, rest₂, hsuffix₂, hglue₂, hat₂, m₂, hm₂⟩ := hrest b rest₁ hat₁ hglue₁
  refine ⟨c, rest₂, hsuffix₂.trans hsuffix₁, hglue₂, hat₂, max m₁ m₂ + 1, fun n hn => ?_⟩
  obtain ⟨n, rfl⟩ : ∃ k, n = k + 1 := ⟨n - 1, by omega⟩
  unfold Parser.Returns
  rw [Parser.parseArrayElems, Parser.curTok_bind, hp.cur, if_neg htok]
  refine ((hm₁ n (by omega)).bind ?_)
  exact (hm₂ n (by omega)).bind (.pure _)

theorem reads_arrayElemOf {e : Literal} (hp : At p a rest)
    (hglue : glue Lexeme.joinsColumn (a :: rest) = t :: ts) (helem : Parser.arrayElemOf t = some e)
    (hts : ts ≠ []) : Reads Parser.parseArrayElem p a rest e ts := by
  have ht : t.isKeyword = false := by
    cases t with
    | keyword k => cases helem
    | _ => rfl
  refine reads_one hp hglue ht hts fun n => ?_
  rw [Parser.parseArrayElem, Parser.get_bind, hp.cur, (glue_inv hglue ht).1]
  dsimp only
  rw [helem]

theorem reads_keyword {k : String} (hp : At p a rest)
    (hglue : glue Lexeme.joinsColumn (a :: rest) = .keyword k :: ts) (hts : ts ≠ []) :
    Reads Parser.parseArrayElem p a rest (.symbol k) ts := by
  have hkw : a.tok.isKeyword = true := by
    cases h : a.tok.isKeyword with
    | true => rfl
    | false =>
      rw [glue_cons h] at hglue
      rw [(List.cons.inj hglue).1] at h
      cases h
  obtain ⟨k', hk'⟩ := isKeyword_iff.mp hkw
  have hrun : Reads (Parser.parseKeywordRun · none) p a rest k ts :=
    parseKeywordRun_reads hp hkw rfl hglue hts
  obtain ⟨b, rest', hsuffix, hglue', hat, m, hm⟩ := hrun
  refine ⟨b, rest', hsuffix, hglue', hat, m + 1, fun n hn => ?_⟩
  obtain ⟨n, rfl⟩ : ∃ k, n = k + 1 := ⟨n - 1, by omega⟩
  unfold Parser.Returns
  rw [Parser.parseArrayElem, Parser.get_bind, hp.cur, hk']
  exact (hm n (by omega)).bind (.pure _)

/-- Inside one more literal sequence. -/
def Parser.deeper (p : Parser) : Parser := { p with literalSeqDepth := p.literalSeqDepth + 1 }

theorem At.deeper (h : At p a rest) : At p.deeper a rest :=
  ⟨h.lexed, h.cur, h.lx, h.peeked, Nat.succ_pos _⟩

omit [F64] in
/-- Only the outermost literal sequence switches the mode. -/
theorem enterLiteralSeq_returns (h : 0 < p.literalSeqDepth) :
    Parser.Returns Parser.enterLiteralSeq p () p.deeper := by
  unfold Parser.Returns Parser.enterLiteralSeq
  have hdepth : ¬ p.literalSeqDepth + 1 = 1 := by omega
  rw [Parser.modify_bind, Parser.get_bind]
  exact congrFun (if_neg hdepth) _

omit [F64] in
theorem exitLiteralSeq_returns (h : 0 < p.literalSeqDepth) :
    Parser.Returns Parser.exitLiteralSeq p.deeper () p := by
  unfold Parser.Returns Parser.exitLiteralSeq
  have hdepth : ¬ p.literalSeqDepth + 1 - 1 = 0 := by omega
  rw [Parser.modify_bind, Parser.get_bind]
  exact congrFun (if_neg hdepth) _

/-- The closing token and the one after it. -/
theorem At.close {c : Lexeme} {closing : Tok} (hat : At p c rest)
    (hglue : glue Lexeme.joinsColumn (c :: rest) = closing :: ts) (hclosing : closing.isKeyword = false)
    (hts : ts ≠ []) : p.cur.1 = closing ∧ ∃ d rest', (d :: rest') <:+ (c :: rest) ∧
      glue Lexeme.joinsColumn (d :: rest') = ts ∧ At (p.goto d) d rest' ∧
      Parser.Returns Parser.bump p () (p.goto d) := by
  obtain ⟨htok, hrest⟩ := glue_inv hglue hclosing
  refine ⟨by rw [hat.cur, htok], ?_⟩
  cases rest with
  | nil => exact absurd hrest.symm hts
  | cons d rest' => exact ⟨d, rest', List.suffix_cons _ _, hrest, hat.next, hat.bump⟩

/-- An array in parentheses, inside another. -/
theorem reads_paren {items : List Literal} (hp : At p a rest)
    (hglue : glue Lexeme.joinsColumn (a :: rest) = .lParen :: us) (hus : us ≠ []) (hts : ts ≠ [])
    (hitems : ∀ q b rest', At q b rest' → glue Lexeme.joinsColumn (b :: rest') = us →
      Reads Parser.parseArrayElems q b rest' items (.rParen :: ts)) :
    Reads Parser.parseArrayElem p a rest (.array items) ts := by
  obtain ⟨hcur, b, rest₁, hsuffix₁, hglue₁, hat₁, hbump₁⟩ := hp.close hglue rfl hus
  obtain ⟨c, rest₂, hsuffix₂, hglue₂, hat₂, m, hm⟩ := hitems _ b rest₁ hat₁ hglue₁
  obtain ⟨hcur₂, d, rest₃, hsuffix₃, hglue₃, hat₃, hbump₃⟩ := hat₂.close hglue₂ rfl hts
  refine ⟨d, rest₃, (hsuffix₃.trans hsuffix₂).trans hsuffix₁, hglue₃, hat₃, m + 1, fun n hn => ?_⟩
  obtain ⟨n, rfl⟩ : ∃ k, n = k + 1 := ⟨n - 1, by omega⟩
  have hclose : Parser.Returns (Parser.closeParen "expected ')'") ((p.goto b).goto c) ()
      (p.goto d) := by
    unfold Parser.Returns Parser.closeParen
    rw [Parser.curTok_bind, if_pos hcur₂]
    exact hbump₃
  unfold Parser.Returns
  rw [Parser.parseArrayElem, Parser.get_bind, hp.cur, (glue_inv hglue rfl).1]
  exact hbump₁.bind ((hm n (by omega)).bind (hclose.bind (.pure _)))

theorem At.shallower {c : Lexeme} (h : At (p.deeper.goto c) c rest) (hdepth : 0 < p.literalSeqDepth) :
    At (p.goto c) c rest :=
  ⟨h.lexed, rfl, rfl, h.peeked, hdepth⟩

/-- A literal array inside another. -/
theorem reads_hash {items : List Literal} (hp : At p a rest)
    (hglue : glue Lexeme.joinsColumn (a :: rest) = .litArrayOpen :: us) (hus : us ≠ [])
    (hts : ts ≠ []) (hitems : ∀ q b rest', At q b rest' → glue Lexeme.joinsColumn (b :: rest') = us →
      Reads Parser.parseArrayElems q b rest' items (.rParen :: ts)) :
    Reads Parser.parseArrayElem p a rest (.array items) ts := by
  obtain ⟨-, b, rest₁, hsuffix₁, hglue₁, hat₁, hbump₁⟩ := hp.deeper.close hglue rfl hus
  obtain ⟨c, rest₂, hsuffix₂, hglue₂, hat₂, m, hm⟩ := hitems _ b rest₁ hat₁ hglue₁
  have hatc : At (p.goto c) c rest₂ := At.shallower (p := p) hat₂ hp.depth
  obtain ⟨hcur, d, rest₃, hsuffix₃, hglue₃, hat₃, hbump₃⟩ := hatc.close hglue₂ rfl hts
  refine ⟨d, rest₃, (hsuffix₃.trans hsuffix₂).trans hsuffix₁, hglue₃, hat₃, m + 2, fun n hn => ?_⟩
  obtain ⟨n, rfl⟩ : ∃ k, n = k + 2 := ⟨n - 2, by omega⟩
  have hexit : Parser.Returns Parser.exitLiteralSeq (p.goto c).deeper () (p.goto c) :=
    exitLiteralSeq_returns hp.depth
  unfold Parser.Returns
  rw [Parser.parseArrayElem, Parser.get_bind, hp.cur, (glue_inv hglue rfl).1]
  change Parser.parseArrayLiteral (n + 1) p = _
  have hend : ¬ ((p.deeper.goto b).goto c).cur.1 ≠ .rParen := not_not_intro hcur
  rw [Parser.parseArrayLiteral, (enterLiteralSeq_returns hp.depth).bind_eq, hbump₁.bind_eq,
    (hm n (by omega)).bind_eq, Parser.curTok_bind, if_neg hend]
  exact hexit.bind (hbump₃.bind (.pure _))

theorem reads_bytes {bs : List (BitVec 8)} (hp : At p a rest) (hbytes : List.Forall₂ IsByte us bs)
    (hglue : glue Lexeme.joinsColumn (a :: rest) = us ++ .rBracket :: ts) :
    Reads Parser.parseByteElems p a rest bs (.rBracket :: ts) := by
  induction hbytes generalizing p a rest with
  | nil =>
    refine ⟨a, rest, List.suffix_rfl, hglue, hp.goto_self.symm ▸ hp, 1, fun n hn => ?_⟩
    obtain ⟨n, rfl⟩ : ∃ k, n = k + 1 := ⟨n - 1, by omega⟩
    unfold Parser.Returns
    rw [Parser.parseByteElems, Parser.get_bind, hp.cur, (glue_inv hglue rfl).1, hp.goto_self]
    rfl
  | @cons t b us bs hbyte hbytes ih =>
    obtain ⟨radix, digits, rfl, hlen, hvalue⟩ := hbyte
    obtain ⟨hcur, c, rest₁, hsuffix₁, hglue₁, hat₁, hbump₁⟩ := hp.close hglue rfl (by simp)
    obtain ⟨d, rest₂, hsuffix₂, hglue₂, hat₂, m, hm⟩ := ih hat₁ hglue₁
    refine ⟨d, rest₂, hsuffix₂.trans hsuffix₁, hglue₂, hat₂, m + 1, fun n hn => ?_⟩
    obtain ⟨n, rfl⟩ : ∃ k, n = k + 1 := ⟨n - 1, by omega⟩
    have hhead : (intLitMagnitude radix digits).headD 0 = b := by
      cases hmag : intLitMagnitude radix digits with
      | nil =>
        rw [hmag] at hvalue
        exact BitVec.eq_of_toNat_eq hvalue
      | cons b' mag =>
        rw [hmag, List.length_cons] at hlen
        obtain rfl := List.eq_nil_of_length_eq_zero (by omega : mag.length = 0)
        rw [hmag] at hvalue
        refine BitVec.eq_of_toNat_eq (Eq.trans ?_ hvalue)
        simp [bytesValue]
    unfold Parser.Returns
    rw [Parser.parseByteElems, Parser.get_bind, hp.cur, (glue_inv hglue rfl).1]
    dsimp only
    rw [hbump₁.bind_eq, if_neg (by simp; omega), hhead]
    exact (hm n (by omega)).bind (.pure _)

/-- A byte array inside a literal array. -/
theorem reads_byteArray {bs : List (BitVec 8)} (hp : At p a rest)
    (hbytes : List.Forall₂ IsByte us bs)
    (hglue : glue Lexeme.joinsColumn (a :: rest) = .byteArrayOpen :: (us ++ .rBracket :: ts))
    (hts : ts ≠ []) : Reads Parser.parseArrayElem p a rest (.byteArray bs) ts := by
  obtain ⟨-, b, rest₁, hsuffix₁, hglue₁, hat₁, hbump₁⟩ := hp.deeper.close hglue rfl (by simp)
  obtain ⟨c, rest₂, hsuffix₂, hglue₂, hat₂, m, hm⟩ := reads_bytes hat₁ hbytes hglue₁
  have hatc : At (p.goto c) c rest₂ := At.shallower (p := p) hat₂ hp.depth
  obtain ⟨-, d, rest₃, hsuffix₃, hglue₃, hat₃, hbump₃⟩ := hatc.close hglue₂ rfl hts
  refine ⟨d, rest₃, (hsuffix₃.trans hsuffix₂).trans hsuffix₁, hglue₃, hat₃, m + 1, fun n hn => ?_⟩
  obtain ⟨n, rfl⟩ : ∃ k, n = k + 1 := ⟨n - 1, by omega⟩
  have hexit : Parser.Returns Parser.exitLiteralSeq (p.goto c).deeper () (p.goto c) :=
    exitLiteralSeq_returns hp.depth
  unfold Parser.Returns
  rw [Parser.parseArrayElem, Parser.get_bind, hp.cur, (glue_inv hglue rfl).1]
  change Parser.parseByteArrayLiteral n p = _
  unfold Parser.parseByteArrayLiteral
  rw [(enterLiteralSeq_returns hp.depth).bind_eq, hbump₁.bind_eq, (hm n (by omega)).bind_eq]
  exact hexit.bind (hbump₃.bind (.pure _))

/-- The elements up to the closing parenthesis, keywords being joined by columns. -/
theorem parse_elems {es : List Literal} (h : Elems ts es) (hp : At p a rest)
    (hglue : glue Lexeme.joinsColumn (a :: rest) = ts ++ .rParen :: us) :
    Reads Parser.parseArrayElems p a rest es (.rParen :: us) := by
  have hne : ∀ {ts : List Tok}, ts ++ .rParen :: us ≠ [] := by simp
  induction h generalizing p a rest us with
  | nil => exact reads_nil hp hglue
  | one helem _ ih =>
    refine reads_cons hp (glue_ne hglue rfl ?_) (reads_arrayElemOf hp hglue helem hne)
      fun b rest' hb hb' => ih hb hb' hne
    rintro rfl
    cases helem
  | keyword _ ih =>
    exact reads_cons hp (glue_ne hglue rfl (by simp)) (reads_keyword hp hglue hne)
      fun b rest' hb hb' => ih hb hb' hne
  | @array t us' ts items es hopen _ _ ihItems ih =>
    rw [List.cons_append, List.append_assoc, List.cons_append] at hglue
    have hitems : ∀ q b rest', At q b rest' →
        glue Lexeme.joinsColumn (b :: rest') = us' ++ .rParen :: (ts ++ .rParen :: us) →
        Reads Parser.parseArrayElems q b rest' items (.rParen :: (ts ++ .rParen :: us)) :=
      fun q b rest' hb hb' => ihItems hb hb' (by simp)
    obtain rfl | rfl := hopen
    · exact reads_cons hp (glue_ne hglue rfl (by simp))
        (reads_paren hp hglue (by simp) hne hitems) fun b rest' hb hb' => ih hb hb' hne
    · exact reads_cons hp (glue_ne hglue rfl (by simp))
        (reads_hash hp hglue (by simp) hne hitems) fun b rest' hb hb' => ih hb hb' hne
  | bytes hbytes _ ih =>
    rw [List.cons_append, List.append_assoc, List.cons_append] at hglue
    exact reads_cons hp (glue_ne hglue rfl (by simp)) (reads_byteArray hp hbytes hglue hne)
      fun b rest' hb hb' => ih hb hb' hne

end Elements

/-! ## The outermost array -/

/-- What joins in the text joins by columns as well. -/
theorem Lexed.isChain {lx : Lexer} {ls : List Lexeme} (h : Lexed lx ls) :
    ls.IsChain fun a b => a.joinsText b = true → a.joinsColumn b = true := by
  induction ls generalizing lx with
  | nil => exact .nil
  | cons a rest ih =>
    refine List.isChain_cons.mpr ⟨fun b hb => ?_, ih h.2.2⟩
    cases rest with
    | nil => cases hb
    | cons b' rest =>
      obtain rfl := Option.some.inj hb
      unfold Lexeme.joinsText Lexeme.joinsColumn
      rw [Bool.and_eq_true, Bool.and_eq_true, Bool.not_eq_true', decide_eq_true_eq]
      rintro ⟨hkw, hsep⟩
      obtain ⟨lx₀, htrivia, hspan, -⟩ := Lexer.nextToken_eq_ok h.2.2.2.1
      obtain rfl := Except.ok.inj ((Lexer.skipTrivia_self hsep).symm.trans htrivia)
      exact ⟨hkw, by rw [hspan]; rfl⟩

/-- Inside the array, the lexer is in literal mode. -/
theorem Lexed.inLiteralSeq {lx : Lexer} {ls : List Lexeme} (h : Lexed lx ls)
    (hlx : lx.inLiteralSeq = true) :
    ∀ a ∈ ls, a.before.inLiteralSeq = true ∧
      a.before.nextToken = .ok ((a.tok, a.span), a.after) := by
  induction ls generalizing lx with
  | nil => exact fun a ha => nomatch ha
  | cons a rest ih =>
    obtain ⟨rfl, hnext, hrest⟩ := h
    intro b hb
    rcases List.mem_cons.mp hb with rfl | hb
    · exact ⟨hlx, hnext⟩
    · exact ih hrest ((Lexer.modes_nextToken hnext).2.1.trans hlx) b hb

omit [F64] in
theorem joinHead_close (k : String) (ts : List Tok) {c : Tok} (hc : c.isKeyword = false) :
    joinHead k (ts ++ [c]) = joinHead k ts ++ [c] := by
  cases ts with
  | nil =>
    cases c with
    | keyword k' => cases hc
    | _ => rfl
  | cons t ts => cases t <;> rfl

omit [F64] in
theorem glue_close {joins : Lexeme → Lexeme → Bool} {body : List Lexeme} {close : Lexeme}
    (hjoins : ∀ a, joins a close = false) (hclose : close.tok.isKeyword = false) :
    glue joins (body ++ [close]) = glue joins body ++ [close.tok] := by
  induction body with
  | nil => exact glue_cons hclose
  | cons a rest ih =>
    rw [List.cons_append]
    cases ha : a.tok.isKeyword with
    | false => rw [glue_cons ha, glue_cons ha, ih, List.cons_append]
    | true =>
      obtain ⟨k, hk⟩ := isKeyword_iff.mp ha
      cases rest with
      | nil =>
        rw [List.nil_append, glue_keyword_cons hk, hjoins a, if_neg Bool.false_ne_true,
          glue_keyword hk, glue_cons hclose]
        rfl
      | cons b rest =>
        rw [List.cons_append, glue_keyword_cons hk, glue_keyword_cons hk]
        rw [List.cons_append] at ih
        split
        · rw [ih, joinHead_close _ _ hclose]
        · rw [ih, List.cons_append]

/-- The parser inside an outermost literal array. -/
def Parser.inside (p : Parser) : Parser :=
  { p with literalSeqDepth := 1, lx := { p.lx with inLiteralSeq := true } }

/-- Before the token after the array is read. -/
def Parser.afterArray (p : Parser) (close : Lexeme) : Parser :=
  { p with cur := (close.tok, close.span), lx := { close.after with inLiteralSeq := false } }

/-- The parser reads these elements. Inside the array a minus before a digit is a sign; after it, a
minus is the binary operator. -/
structure ReadsArray (p : Parser) (body : List Lexeme) (close : Lexeme) (es : List Literal) :
    Prop where
  elems : ∃ m, ∀ n, m ≤ n →
    Parser.Returns (do Parser.enterLiteralSeq; Parser.bump; Parser.parseArrayElems n) p es
      (p.inside.goto close) ∧
    Parser.parseArrayLiteral (n + 1) p =
      (do Parser.bump; return .array es : Parse Literal) (p.afterArray close)
  minus_inside : ∀ a ∈ body, ∀ lx d cs, a.before.skipTrivia = .ok lx →
    lx.rest = '-' :: d :: cs → d.isDigit = true → a.tok.IsNumber true
  minus_after : ∀ lx, (p.afterArray close).lx.skipTrivia = .ok lx → lx.peekChar = some '-' →
    ∃ s lx', (p.afterArray close).lx.nextToken = .ok ((.binarySel s, lx.here), lx')

section Outermost

variable {body : List Lexeme} {close : Lexeme} {es : List Literal}

omit [F64] in
theorem enter_returns (hdepth : p.literalSeqDepth = 0) :
    Parser.Returns Parser.enterLiteralSeq p () p.inside := by
  unfold Parser.Returns Parser.enterLiteralSeq
  rw [Parser.modify_bind, Parser.get_bind, hdepth]
  rfl

omit [F64] in
theorem leave_returns (hdepth : p.literalSeqDepth = 0) (close : Lexeme) :
    Parser.Returns Parser.exitLiteralSeq (p.inside.goto close) () (p.afterArray close) := by
  unfold Parser.afterArray Parser.Returns Parser.exitLiteralSeq
  rw [Parser.modify_bind, Parser.get_bind]
  cases p
  cases hdepth
  rfl

theorem readsArray_of_elems (hpeeked : p.peeked = none)
    (hdepth : p.literalSeqDepth = 0) (hlexed : Lexed p.inside.lx (body ++ [close]))
    (hclose : close.tok = .rParen) (hread : Elems (glue Lexeme.joinsColumn body) es) :
    ReadsArray p body close es := by
  have henter := enter_returns hdepth
  obtain ⟨a, rest, hls⟩ : ∃ a rest, body ++ [close] = a :: rest :=
    List.exists_cons_of_ne_nil (by simp)
  have hmode := hlexed.inLiteralSeq rfl
  have hat : At (p.inside.goto a) a rest := by
    rw [hls] at hlexed
    exact ⟨hlexed.head, rfl, rfl, hpeeked, Nat.one_pos⟩
  have hbump : Parser.Returns Parser.bump p.inside () (p.inside.goto a) := by
    rw [hls] at hlexed
    exact Parser.bump_returns hpeeked hlexed.2.1
  have hglue : glue Lexeme.joinsColumn (a :: rest) =
      glue Lexeme.joinsColumn body ++ .rParen :: [] := by
    rw [← hls, glue_close (fun a => by unfold Lexeme.joinsColumn; rw [hclose]; rfl)
      (by rw [hclose]; rfl), hclose]
  obtain ⟨b, rest', hsuffix, hglue', hatb, m, hm⟩ := parse_elems hread hat hglue
  obtain rfl : close = b := by
    obtain rfl := glue_eq_nil (glue_inv hglue' rfl).2
    obtain ⟨pre, hpre⟩ := hsuffix
    rw [← hls] at hpre
    exact (List.cons.inj (List.append_inj' hpre rfl).2).1.symm
  have hnext := hmode close (List.mem_append_right _ List.mem_cons_self)
  refine ⟨⟨m, fun n hn => ?_⟩, fun a ha lx d cs htrivia hrest hd => ?_, fun lx htrivia hpeek => ?_⟩
  · have helems : Parser.Returns (do Parser.enterLiteralSeq; Parser.bump; Parser.parseArrayElems n)
        p es (p.inside.goto close) := henter.bind (hbump.bind (hm n hn))
    refine ⟨helems, ?_⟩
    have hend : ¬ ((p.inside.goto a).goto close).cur.1 ≠ .rParen := not_not_intro hclose
    rw [Parser.parseArrayLiteral, henter.bind_eq, hbump.bind_eq, (hm n hn).bind_eq,
      Parser.curTok_bind, if_neg hend]
    exact (leave_returns hdepth close).bind_eq
  · obtain ⟨hbefore, hnext⟩ := hmode a (List.mem_append_left _ ha)
    exact Lexer.nextToken_minus (.inl hbefore) htrivia hrest hd hnext
  · refine Lexer.nextToken_binary rfl ?_ htrivia hpeek
    have hprev := (Lexer.modes_nextToken hnext.2).2.2 (by rw [hclose]; simp)
    rw [hclose] at hprev
    exact hprev

theorem ReadsArray.unique {es' : List Literal} (h : ReadsArray p body close es)
    (h' : ReadsArray p body close es') : es = es' := by
  obtain ⟨m, hm⟩ := h.elems
  obtain ⟨m', hm'⟩ := h'.elems
  exact ((hm (max m m') (Nat.le_max_left ..)).1.unique (hm' (max m m') (Nat.le_max_right ..)).1).1

/-- The parser reads the elements of a literal array, at any depth, exactly when no keyword that is
separated from the one before it starts in the column where that one ends. -/
theorem literal_array_elements (hpeeked : p.peeked = none) (hdepth : p.literalSeqDepth = 0)
    (hlexed : Lexed p.inside.lx (body ++ [close]))
    (hclose : close.tok = .rParen) (hread : Elems (glue Lexeme.joinsText body) es) :
    ReadsArray p body close es ↔ body.IsChain fun a b =>
      a.tok.isKeyword = true → b.tok.isKeyword = true → b.span.col = a.after.col →
        a.separated = false := by
  obtain ⟨hjoined, hlength⟩ := joined_glue
    (fun a b (h : a.joinsColumn b = true) => (Bool.and_eq_true _ _ ▸ h).1)
    (List.IsChain.left_of_append hlexed.isChain)
  have hchain : ((glue Lexeme.joinsColumn body).length = (glue Lexeme.joinsText body).length) ↔
      body.IsChain fun a b => a.tok.isKeyword = true → b.tok.isKeyword = true →
        b.span.col = a.after.col → a.separated = false := by
    rw [hlength]
    refine List.IsChain.iff fun a b => imp_congr_right fun _ => ?_
    unfold Lexeme.joinsColumn Lexeme.joinsText
    cases b.tok.isKeyword <;> simp
  rw [← hchain]
  constructor
  · intro hreads
    obtain ⟨es', hread'⟩ := hread.joined hjoined
    have hes : es = es' :=
      hreads.unique (readsArray_of_elems hpeeked hdepth hlexed hclose hread')
    rw [← hread'.tokens_eq, ← hes, hread.tokens_eq]
  · intro hlen
    rw [← hjoined.eq_of_length hlen] at hread
    exact readsArray_of_elems hpeeked hdepth hlexed hclose hread

end Outermost

/-! ## Two texts -/

/-- The first tokens. -/
def lexemes : Nat → Lexer → List Lexeme
  | 0, _ => []
  | n + 1, lx =>
    match lx.nextToken with
    | .error _ => []
    | .ok ((tok, span), lx') => ⟨tok, span, lx, lx'⟩ :: lexemes n lx'

theorem lexed_lexemes (n : Nat) (lx : Lexer) : Lexed lx (lexemes n lx) := by
  induction n generalizing lx with
  | zero => trivial
  | succ n ih =>
    unfold lexemes
    split
    · trivial
    · next hnext => exact ⟨rfl, hnext, ih _⟩

/-- The parser at a literal array with this text after its opening. -/
def Parser.atArray (text : String) : Parser :=
  { lx := (Lexer.new ("#(".toList ++ text.toList)).skip 2, cur := (.litArrayOpen, ⟨1, 1⟩)
    peeked := none, literalSeqDepth := 0 }

end Lexing

/-- `#(a:b: c: (-3))`. -/
theorem literal_array_elements_nested :
    let _ : F64 := ⟨fun _ => 0⟩
    let p := Parser.atArray "a:b: c: (-3))"
    let ls := lexemes 7 p.inside.lx
    ∃ close, ls = ls.dropLast ++ [close] ∧
      ReadsArray p ls.dropLast close [.symbol "a:b:", .symbol "c:", .array [.int (-3)]] := by
  intro _ p ls
  obtain ⟨close, hclose⟩ : ∃ close, ls.getLast? = some close := ⟨_, rfl⟩
  have hls : ls = ls.dropLast ++ [close] := (List.dropLast_append_getLast? close hclose).symm
  refine ⟨close, hls, (literal_array_elements rfl rfl ?_ ?_ ?_).mpr ?_⟩
  · rw [← hls]
    exact lexed_lexemes 7 p.inside.lx
  · obtain rfl := Option.some.inj hclose
    decide
  · have hglue : glue Lexeme.joinsText ls.dropLast = [.keyword "a:b:", .keyword "c:", .lParen,
        .intLit true 10 ['3'], .rParen] := by decide
    rw [hglue]
    exact .keyword (.keyword (.array (.inl rfl) (.one rfl .nil) .nil))
  · decide

/-- `#(bar:`, and `baz:` in the next line, under the end of `bar:`. -/
theorem literal_array_elements_fails :
    let _ : F64 := ⟨fun _ => 0⟩
    let p := Parser.atArray "bar:\n      baz:)"
    let ls := lexemes 3 p.inside.lx
    ∃ close, ls = ls.dropLast ++ [close] ∧ close.tok = .rParen ∧
      Elems (glue Lexeme.joinsText ls.dropLast) [.symbol "bar:", .symbol "baz:"] ∧
      ¬ ReadsArray p ls.dropLast close [.symbol "bar:", .symbol "baz:"] ∧
      ReadsArray p ls.dropLast close [.symbol "bar:baz:"] := by
  intro _ p ls
  obtain ⟨close, hclose⟩ : ∃ close, ls.getLast? = some close := ⟨_, rfl⟩
  have hls : ls = ls.dropLast ++ [close] := (List.dropLast_append_getLast? close hclose).symm
  have htok : close.tok = .rParen := by
    obtain rfl := Option.some.inj hclose
    decide
  have htext : glue Lexeme.joinsText ls.dropLast = [.keyword "bar:", .keyword "baz:"] := by decide
  have hcolumn : glue Lexeme.joinsColumn ls.dropLast = [.keyword "bar:baz:"] := by decide
  have hlexed : Lexed p.inside.lx (ls.dropLast ++ [close]) := hls ▸ lexed_lexemes 3 p.inside.lx
  have hreads : ReadsArray p ls.dropLast close [.symbol "bar:baz:"] :=
    readsArray_of_elems rfl rfl hlexed htok (hcolumn ▸ .keyword .nil)
  refine ⟨close, hls, htok, htext ▸ .keyword (.keyword .nil), fun hfalse => ?_, hreads⟩
  have hlength := congrArg List.length (hfalse.unique hreads)
  cases hlength

end WinVm.Frontend
