import WinVm.ImageStore.Mst

/-!
# Captured methods

What the scanner reads of a method is decided by the method's own text: its header by what lies
before the bracket that opens the body, its body by what lies before the bracket that closes it. So
a captured method is captured again wherever its source stands in a class of the same name.

Results: `readHeader_local`; `IsCapture.move`.
-/

namespace WinVm.ImageStore

open WinVm.Lib

variable {T : CharTables} {x z w : List Char}

/-! ## Up to the opening bracket -/

theorem skip_bracket (z : List Char) : skip ('[' :: z) = '[' :: z :=
  skip_cons (by decide) (by decide) z

theorem identCont_bracket : isIdentCont T '[' = false := by
  rw [isIdentCont_ascii (by decide)]
  decide

theorem identStart_bracket : isIdentStart T '[' = false := by
  cases h : isIdentStart T '[' with
  | false => rfl
  | true => exact (isIdentCont_of_start h).symm.trans identCont_bracket

theorem readIdentifier_bracket (z : List Char) : readIdentifier T ('[' :: z) = none := by
  rw [readIdentifier_eq_none, skip_bracket]
  exact identStart_bracket

/-- What precedes a part that reaches back before the bracket reaches back as well. -/
theorem reaches_of_suffix {r s : List Char} (hr : r = w ++ '[' :: z) (h : r <:+ s) :
    ∃ w', s = w' ++ '[' :: z := by
  obtain ⟨p, rfl⟩ := h
  exact ⟨p ++ w, by rw [hr, List.append_assoc]⟩

theorem skipFrom_local {m : Trivia} (h : skipFrom m (x ++ '[' :: z) = w ++ '[' :: z)
    (z' : List Char) : skipFrom m (x ++ '[' :: z') = w ++ '[' :: z' := by
  induction x generalizing m with
  | nil =>
    have hself : ∀ {s t : List Char}, s = t → t = w ++ '[' :: z → s = '[' :: z →
        '[' :: z' = w ++ '[' :: z' := by
      rintro s t rfl ht rfl
      rw [List.self_eq_append_left.mp ht, List.nil_append]
    cases m with
    | comment =>
      have hlength := (skipFrom_suffix .comment z).length_le
      have hskip : skipFrom .comment z = w ++ '[' :: z := h
      rw [hskip, List.length_append, List.length_cons] at hlength
      exact absurd hlength (by omega)
    | outside => exact hself rfl h rfl
    | quote => exact hself rfl h rfl
  | cons c x ih =>
    cases m with
    | comment => exact ih h
    | outside | quote =>
      rw [List.cons_append, skipFrom] at h ⊢
      split at h
      · next hspace =>
        rw [if_pos hspace]
        exact ih h
      · next hspace =>
        rw [if_neg hspace]
        split at h
        · next hquote =>
          rw [if_pos hquote]
          exact ih h
        · next hquote =>
          rw [if_neg hquote]
          have hw := List.append_cancel_right (show (c :: x) ++ '[' :: z = w ++ '[' :: z from h)
          rw [← hw, List.cons_append]

theorem skip_local (h : skip (x ++ '[' :: z) = w ++ '[' :: z) (z' : List Char) :
    skip (x ++ '[' :: z') = w ++ '[' :: z' := skipFrom_local h z'

theorem head?_append_bracket (w z z' : List Char) :
    (w ++ '[' :: z).head? = (w ++ '[' :: z').head? := by
  cases w <;> rfl

theorem readIdentifier_local {id : List Char}
    (h : readIdentifier T (x ++ '[' :: z) = some (id, w ++ '[' :: z)) (z' : List Char) :
    readIdentifier T (x ++ '[' :: z') = some (id, w ++ '[' :: z') := by
  obtain ⟨hskip, hident, hrest⟩ := readIdentifier_eq_some.mp h
  rw [← List.append_assoc] at hskip
  refine readIdentifier_eq_some.mpr ⟨?_, hident, ?_⟩
  · rw [skip_local hskip z', List.append_assoc]
  · rw [head?_append_bracket w z' z, hrest]

theorem eatStr_local {lit : String} (h : eatStr lit (x ++ '[' :: z) = some (w ++ '[' :: z))
    (z' : List Char) : eatStr lit (x ++ '[' :: z') = some (w ++ '[' :: z') := by
  rw [eatStr_eq_some, ← List.append_assoc] at h ⊢
  exact skip_local h z'

theorem skip_dropIdentifier_local
    (h : skip (dropIdentifier T (x ++ '[' :: z)) = w ++ '[' :: z) (z' : List Char) :
    skip (dropIdentifier T (x ++ '[' :: z')) = w ++ '[' :: z' := by
  unfold dropIdentifier at h
  cases hident : readIdentifier T (x ++ '[' :: z) with
  | some found =>
    obtain ⟨id, rest⟩ := found
    rw [hident] at h
    obtain ⟨w', rfl⟩ := reaches_of_suffix h (skip_suffix rest)
    unfold dropIdentifier
    rw [readIdentifier_local hident z']
    exact skip_local h z'
  | none =>
    rw [hident] at h
    have hskip : skip (x ++ '[' :: z) = w ++ '[' :: z := (skip_skip _).symm.trans h
    have hskip' := skip_local hskip z'
    have hnone : readIdentifier T (x ++ '[' :: z') = none := by
      rw [readIdentifier_eq_none, hskip] at hident
      rw [readIdentifier_eq_none, hskip', head?_append_bracket w z' z, hident]
    unfold dropIdentifier
    rw [hnone]
    exact (skip_skip _).trans hskip'

theorem readKeywordParts_local {fuel : Nat} {sel part sel' r : List Char} (hne : x ≠ [])
    (h : readKeywordParts T fuel sel part (x ++ '[' :: z) = (sel', r)) (hr : skip r = '[' :: z)
    (z' : List Char) : ∃ r', readKeywordParts T fuel sel part (x ++ '[' :: z') = (sel', r') ∧
      skip r' = '[' :: z' := by
  have hskipNil : ∀ {s : List Char}, skip (s ++ '[' :: z) = '[' :: z →
      skip (s ++ '[' :: z') = '[' :: z' := fun hs => skip_local (show _ = [] ++ '[' :: z from hs) z'
  induction fuel generalizing x sel part with
  | zero =>
    obtain ⟨rfl, rfl⟩ := Prod.mk.inj h
    exact ⟨_, rfl, hskipNil hr⟩
  | succ fuel ih =>
    obtain ⟨c, x, rfl⟩ := List.exists_cons_of_ne_nil hne
    have hreach : ∀ {s : List Char}, r <:+ s → ∃ w, s = w ++ '[' :: z := fun hs =>
      reaches_of_suffix (show skip r = [] ++ '[' :: z from hr) ((skip_suffix r).trans hs)
    rw [readKeywordParts] at h ⊢
    rw [List.cons_append, List.drop_one, List.tail_cons] at h ⊢
    cases hnext : readIdentifier T (skip (dropIdentifier T (x ++ '[' :: z))) with
    | some found =>
      obtain ⟨next, rest⟩ := found
      rw [hnext] at h
      dsimp only at h
      split at h
      · next hcolon =>
        have hsuffix : r <:+ skip rest := by
          have := readKeywordParts_suffix (T := T) fuel (sel ++ part ++ [':']) next (skip rest)
          rwa [h] at this
        obtain ⟨w₁, hw₁⟩ := hreach hsuffix
        obtain ⟨w₂, rfl⟩ := hreach (hsuffix.trans (skip_suffix rest))
        obtain ⟨w₃, hw₃⟩ := reaches_of_suffix rfl (readIdentifier_suffix hnext).1
        rw [hw₃] at hnext
        rw [skip_dropIdentifier_local hw₃ z', readIdentifier_local hnext z']
        dsimp only
        rw [skip_local hw₁ z', head?_append_bracket w₁ z' z, ← hw₁, if_pos hcolon]
        rw [hw₁] at h hcolon
        refine ih ?_ h
        rintro rfl
        exact absurd (Option.some.inj hcolon) (by decide)
      · obtain ⟨-, rfl⟩ := Prod.mk.inj h
        rw [skip_skip] at hr
        rw [hr, readIdentifier_bracket] at hnext
        cases hnext
    | none =>
      rw [hnext] at h
      obtain ⟨rfl, rfl⟩ := Prod.mk.inj h
      rw [skip_skip] at hr
      have hsave := skip_dropIdentifier_local (T := T) (show _ = [] ++ '[' :: z from hr) z'
      rw [hsave, List.nil_append, readIdentifier_bracket]
      exact ⟨_, rfl, skip_bracket z'⟩

theorem readSelector_local {sel r : List Char}
    (h : readSelector T (x ++ '[' :: z) = some (sel, r)) (hr : skip r = '[' :: z)
    (z' : List Char) :
    ∃ r', readSelector T (x ++ '[' :: z') = some (sel, r') ∧ skip r' = '[' :: z' := by
  have hreach : ∀ {s : List Char}, r <:+ s → ∃ w, s = w ++ '[' :: z := fun hs =>
    reaches_of_suffix (show skip r = [] ++ '[' :: z from hr) ((skip_suffix r).trans hs)
  unfold readSelector at h
  split at h
  · cases h
  · next c s heq =>
    split at h
    · cases h
    · next hclose =>
      split at h
      · next hbinary =>
        obtain ⟨rfl, rfl⟩ := Prod.mk.inj (Option.some.inj h)
        have hdrop : (c :: s).dropWhile isBinaryChar <:+ s := by
          rw [List.dropWhile_cons_of_pos hbinary]
          exact List.dropWhile_suffix _
        obtain ⟨v, rfl⟩ := hreach ((dropIdentifier_suffix _).trans hdrop)
        have hskip := skip_local (show _ = (c :: v) ++ '[' :: z from heq) z'
        have hmark : isBinaryChar '[' = false := by decide
        unfold readSelector
        rw [hskip]
        dsimp only [List.cons_append]
        rw [if_neg hclose, if_pos hbinary]
        rw [← List.cons_append, dropWhile_append_mark hmark] at hr
        rw [← List.cons_append, ← List.cons_append, takeWhile_append_mark hmark,
          takeWhile_append_mark hmark, dropWhile_append_mark hmark]
        exact ⟨_, rfl, skip_dropIdentifier_local (show _ = [] ++ '[' :: z from hr) z'⟩
      · next hbinary =>
        split at h
        · cases h
        · next first rest hfirst =>
          have hsuffix : rest <:+ s := (List.suffix_cons_iff.mp (readIdentifier_suffix hfirst).1).resolve_left
            fun heq => absurd (readIdentifier_suffix hfirst).2 (heq ▸ Nat.lt_irrefl _)
          have hrest : r <:+ skip rest := by
            split at h
            · obtain ⟨-, rfl⟩ := Prod.mk.inj (Option.some.inj h)
              exact readKeywordParts_suffix ..
            · obtain ⟨-, rfl⟩ := Prod.mk.inj (Option.some.inj h)
              exact List.suffix_rfl
          obtain ⟨v, rfl⟩ := hreach (hrest.trans ((skip_suffix rest).trans hsuffix))
          obtain ⟨w₁, rfl⟩ := hreach (hrest.trans (skip_suffix rest))
          obtain ⟨w₂, hw₂⟩ := hreach hrest
          have hskip := skip_local (show _ = (c :: v) ++ '[' :: z from heq) z'
          have hfirst' := readIdentifier_local (show readIdentifier T ((c :: v) ++ '[' :: z) = _ from
            hfirst) z'
          have hskip' := skip_local hw₂ z'
          unfold readSelector
          rw [hskip]
          dsimp only [List.cons_append]
          rw [if_neg hclose, if_neg hbinary]
          rw [List.cons_append] at hfirst'
          rw [hfirst']
          dsimp only
          rw [hskip', head?_append_bracket w₂ z' z]
          rw [hw₂] at h
          split at h
          · next hcolon =>
            rw [if_pos hcolon]
            have hne : ∀ z, w₂ ++ '[' :: z ≠ [] := fun z hnil => by
              cases (List.append_eq_nil_iff.mp hnil).2
            have hw : w₂ ≠ [] := by
              rintro rfl
              exact absurd (Option.some.inj hcolon) (by decide)
            have hparts := Option.some.inj h
            rw [readKeywordParts_fuel (hne z) (Nat.le_refl _)
              (Nat.le_add_right _ (w₂ ++ '[' :: z').length)] at hparts
            obtain ⟨r', hr', hskipr'⟩ := readKeywordParts_local hw hparts hr z'
            rw [← readKeywordParts_fuel (hne z') (Nat.le_refl _) (Nat.le_add_left _ _)] at hr'
            exact ⟨r', by rw [hr'], hskipr'⟩
          · next hcolon =>
            rw [if_neg hcolon]
            obtain ⟨rfl, rfl⟩ := Prod.mk.inj (Option.some.inj h)
            exact ⟨_, rfl, skip_local (show _ = [] ++ '[' :: z from hr) z'⟩

/-! ## What a header leaves after its first characters -/

theorem identStart_binary {c : Char} (h : isBinaryChar c = true) : isIdentStart T c = false := by
  have hascii : ("+-*/~<>=&|@%,?!\\".toList.all fun c =>
      c.toNat < 128 && !(c.isAlpha || c.isDigit || c = '_')) = true := by decide
  have hplain := List.all_eq_true.mp hascii c (of_decide_eq_true h)
  rw [Bool.and_eq_true, decide_eq_true_eq, Bool.not_eq_true'] at hplain
  obtain ⟨hc, hcont⟩ := hplain
  cases hstart : isIdentStart T c with
  | false => rfl
  | true => rw [← hcont, ← isIdentCont_ascii hc, isIdentCont_of_start hstart]

theorem readIdentifier_skip (cs : List Char) : readIdentifier T (skip cs) = readIdentifier T cs := by
  unfold readIdentifier
  rw [skip_skip]

theorem skip_eq_cons {cs s : List Char} {c : Char} (h : skip cs = c :: s) :
    isWhitespace c = false ∧ c ≠ '"' := by
  have hself := skip_skip cs
  rw [h] at hself
  have hlt : ∀ m, skipFrom m s ≠ c :: s := fun m heq => by
    have := (skipFrom_suffix m s).length_le
    rw [heq] at this
    exact absurd this (Nat.not_le.mpr (Nat.lt_succ_self _))
  unfold skip at hself
  rw [skipFrom] at hself
  split at hself
  · exact absurd hself (hlt _)
  · next hspace =>
    split at hself
    · exact absurd hself (hlt _)
    · next hquote => exact ⟨Bool.not_eq_true _ ▸ hspace, hquote⟩

/-- The first identifier of a header is followed by a colon or by the bracket. -/
theorem readSelector_identifier {cs id rest sel r : List Char} (hstarts : skip cs = cs)
    (hident : readIdentifier T cs = some (id, rest)) (h : readSelector T cs = some (sel, r))
    (hr : skip r = '[' :: z) : ∃ w, skip rest = w ++ '[' :: z ∧
      ((skip rest).head? = some ':' ∨ (skip rest).head? = some '[') := by
  have hreach : ∀ {s : List Char}, r <:+ s → ∃ w, s = w ++ '[' :: z := fun hs =>
    reaches_of_suffix (show skip r = [] ++ '[' :: z from hr) ((skip_suffix r).trans hs)
  obtain ⟨happend, hisIdent, -⟩ := readIdentifier_eq_some.mp hident
  rw [hstarts] at happend
  obtain ⟨c, v, rfl⟩ := List.exists_cons_of_ne_nil hisIdent.ne_nil
  have hstart : isIdentStart T c = true := hisIdent.1
  have hclose : c ≠ ']' := by
    rintro rfl
    have := isIdentCont_of_start hstart
    rw [isIdentCont_ascii (by decide)] at this
    exact absurd this (by decide)
  have hbinary : ¬ isBinaryChar c = true := fun hb => by
    rw [identStart_binary hb] at hstart
    cases hstart
  unfold readSelector at h
  rw [hstarts, happend, List.cons_append] at h
  dsimp only at h
  rw [if_neg hclose, if_neg hbinary, ← List.cons_append, ← happend, hident] at h
  dsimp only at h
  split at h
  · next hcolon =>
    have hparts := Option.some.inj h
    obtain ⟨w, hw⟩ := hreach (congrArg Prod.snd hparts ▸ readKeywordParts_suffix _ _ _ _)
    exact ⟨w, hw, .inl hcolon⟩
  · obtain ⟨-, rfl⟩ := Prod.mk.inj (Option.some.inj h)
    rw [skip_skip] at hr
    exact ⟨[], hr, .inr (by rw [hr]; rfl)⟩

theorem skip_binary {c : Char} (h : isBinaryChar c = true) (t : List Char) :
    skip (c :: t) = c :: t := by
  have hchars : ("+-*/~<>=&|@%,?!\\".toList.all fun c => !isWhitespace c && c ≠ '"') = true := by
    decide
  have hplain := List.all_eq_true.mp hchars c (of_decide_eq_true h)
  rw [Bool.and_eq_true, decide_eq_true_eq, Bool.not_eq_true'] at hplain
  obtain ⟨hspace, hquote⟩ := hplain
  exact skip_cons hspace hquote t

/-- After a binary character, an identifier can only be the parameter. -/
theorem readSelector_binary {c : Char} {t sel r : List Char} (hc : isBinaryChar c = true)
    (h : readSelector T (c :: t) = some (sel, r)) (hr : skip r = '[' :: z) :
    ∃ w, skip t = w ++ '[' :: z ∧
      ∀ id rest, readIdentifier T t = some (id, rest) → skip rest = '[' :: z := by
  have hclose : c ≠ ']' := by
    rintro rfl
    exact absurd hc (by decide)
  have hreach : ∀ {s : List Char}, r <:+ s → ∃ w, s = w ++ '[' :: z := fun hs =>
    reaches_of_suffix (show skip r = [] ++ '[' :: z from hr) ((skip_suffix r).trans hs)
  unfold readSelector at h
  rw [skip_binary hc] at h
  dsimp only at h
  rw [if_neg hclose, if_pos hc, List.dropWhile_cons_of_pos hc] at h
  obtain ⟨-, rfl⟩ := Prod.mk.inj (Option.some.inj h)
  by_cases hd : t.head?.any isBinaryChar = true
  · cases t with
    | nil => cases hd
    | cons d t =>
      rw [skip_binary hd]
      refine ⟨_, (hreach ((dropIdentifier_suffix _).trans (List.dropWhile_suffix _))).choose_spec, ?_⟩
      intro id rest hident
      have hnone : readIdentifier T (d :: t) = none := by
        rw [readIdentifier_eq_none, skip_binary hd]
        exact identStart_binary hd
      rw [hnone] at hident
      cases hident
  · have hdrop : t.dropWhile isBinaryChar = t := by
      cases t with
      | nil => rfl
      | cons d t => exact List.dropWhile_cons_of_neg hd
    rw [hdrop] at hr hreach
    unfold dropIdentifier at hr hreach
    cases hident : readIdentifier T t with
    | none =>
      rw [hident] at hreach
      obtain ⟨w, hw⟩ := hreach List.suffix_rfl
      exact ⟨w, hw, nofun⟩
    | some found =>
      obtain ⟨id, rest⟩ := found
      rw [hident] at hr hreach
      have hskip := (readIdentifier_eq_some.mp hident).1
      obtain ⟨w, hw⟩ := hreach (List.suffix_append id rest)
      rw [hskip]
      refine ⟨w, hw, fun id' rest' heq => ?_⟩
      obtain ⟨rfl, rfl⟩ := Prod.mk.inj (Option.some.inj heq)
      exact hr

/-! ## The header -/

/-- Selector and side of a method, and what begins with the bracket of its body. -/
def readHeader (T : CharTables) (name cs : List Char) : Option (List Char × Bool × List Char) :=
  match readSelector T ((classSidePrefix T name cs).getD cs) with
  | some (sel, rest) =>
    if (skip rest).head? = some '[' then
      some (sel, (classSidePrefix T name cs).isSome, skip rest)
    else none
  | none => none

theorem readHeader_eq_some {name cs sel rest : List Char} {side : Bool} :
    readHeader T name cs = some (sel, side, rest) ↔ ∃ z r, rest = '[' :: z ∧
      readSelector T ((classSidePrefix T name cs).getD cs) = some (sel, r) ∧
      skip r = '[' :: z ∧ side = (classSidePrefix T name cs).isSome := by
  unfold readHeader
  constructor
  · intro h
    split at h
    · next r hsel =>
      split at h
      · next hbracket =>
        cases h
        obtain ⟨z, hz⟩ := List.head?_eq_some_iff.mp hbracket
        exact ⟨z, r, hz, hsel, hz, rfl⟩
      · cases h
    · cases h
  · rintro ⟨z, r, rfl, hsel, hr, rfl⟩
    rw [hsel]
    dsimp only
    rw [hr]
    rfl

theorem readHeader_reaches {name cs sel : List Char} {side : Bool}
    (h : readHeader T name cs = some (sel, side, '[' :: z)) : ∃ x, cs = x ++ '[' :: z := by
  obtain ⟨z, r, heq, hsel, hr, -⟩ := readHeader_eq_some.mp h
  cases heq
  exact reaches_of_suffix (show skip r = [] ++ '[' :: z from hr) ((skip_suffix r).trans
    ((readSelector_suffix hsel).1.trans (classSidePrefix_getD_suffix T name cs)))

theorem classSidePrefix_local {name : List Char}
    (h : classSidePrefix T name (x ++ '[' :: z) = some (w ++ '[' :: z)) (z' : List Char) :
    classSidePrefix T name (x ++ '[' :: z') = some (w ++ '[' :: z') := by
  unfold classSidePrefix at h ⊢
  cases hident : readIdentifier T (x ++ '[' :: z) with
  | none =>
    rw [hident] at h
    cases h
  | some found =>
    obtain ⟨ident, rest⟩ := found
    rw [hident] at h
    dsimp only at h
    split at h
    · next hname =>
      obtain ⟨s, hclass, harrow⟩ := Option.bind_eq_some_iff.mp h
      obtain ⟨w₁, rfl⟩ := reaches_of_suffix rfl (eatStr_suffix harrow)
      obtain ⟨w₂, rfl⟩ := reaches_of_suffix rfl (eatStr_suffix hclass)
      rw [readIdentifier_local hident z']
      dsimp only
      rw [if_pos hname, eatStr_local hclass z', Option.bind_some, eatStr_local harrow z']
    · cases h

/-- Whether the name is followed by something other than `class`. -/
def NotSided (T : CharTables) (name cs : List Char) : Prop :=
  ∀ rest, readIdentifier T cs = some (name, rest) → eatStr "class" rest = none

theorem NotSided.classSidePrefix {name cs : List Char} (h : NotSided T name cs) :
    classSidePrefix T name cs = none := by
  unfold ImageStore.classSidePrefix
  split
  · next ident rest hident =>
    split
    · next hname =>
      rw [h rest (hname ▸ hident)]
      rfl
    · rfl
  · rfl

theorem eatStr_class {rest : List Char}
    (h : (skip rest).head? = some ':' ∨ (skip rest).head? = some '[') : eatStr "class" rest = none := by
  cases heat : eatStr "class" rest with
  | none => rfl
  | some s =>
    rw [eatStr_eq_some.mp heat] at h
    have hhead : (some 'c' = some ':') ∨ (some 'c' = some '[') := h
    exact absurd hhead (by decide)

theorem notSided_local {name sel r : List Char} (hstarts : skip (x ++ '[' :: z) = x ++ '[' :: z)
    (h : readSelector T (x ++ '[' :: z) = some (sel, r)) (hr : skip r = '[' :: z) (z' : List Char) :
    NotSided T name (x ++ '[' :: z') := by
  intro rest hident
  obtain ⟨happend, hisIdent, -⟩ := readIdentifier_eq_some.mp hident
  rw [skip_local hstarts z'] at happend
  have hrest : ∃ w, rest = w ++ '[' :: z' := by
    rcases List.append_eq_append_iff.mp happend with ⟨v, rfl, hv⟩ | ⟨v, -, rfl⟩
    · cases v with
      | nil => exact ⟨[], hv.symm⟩
      | cons c v =>
        obtain ⟨rfl, -⟩ := List.cons.inj hv
        have := hisIdent.2 '[' (List.mem_append_right x List.mem_cons_self)
        rw [identCont_bracket] at this
        cases this
    · exact ⟨v, rfl⟩
  obtain ⟨w, rfl⟩ := hrest
  obtain ⟨w', hw', hhead⟩ := readSelector_identifier hstarts (readIdentifier_local hident z) h hr
  refine eatStr_class ?_
  rwa [skip_local hw' z', head?_append_bracket w' z' z, ← hw']

/-- The header is decided by what lies before the bracket. -/
theorem readHeader_local {name sel : List Char} {side : Bool}
    (hstarts : skip (x ++ '[' :: z) = x ++ '[' :: z)
    (h : readHeader T name (x ++ '[' :: z) = some (sel, side, '[' :: z)) (z' : List Char) :
    readHeader T name (x ++ '[' :: z') = some (sel, side, '[' :: z') := by
  obtain ⟨z, r, heq, hsel, hr, rfl⟩ := readHeader_eq_some.mp h
  cases heq
  refine readHeader_eq_some.mpr ⟨z', ?_⟩
  cases hside : classSidePrefix T name (x ++ '[' :: z) with
  | none =>
    rw [hside] at hsel
    rw [(notSided_local hstarts hsel hr z').classSidePrefix]
    obtain ⟨r', hsel', hr'⟩ := readSelector_local hsel hr z'
    exact ⟨r', rfl, hsel', hr', rfl⟩
  | some rest =>
    rw [hside] at hsel
    obtain ⟨w, rfl⟩ := reaches_of_suffix (show skip r = [] ++ '[' :: z from hr)
      ((skip_suffix r).trans (readSelector_suffix hsel).1)
    rw [classSidePrefix_local hside z']
    obtain ⟨r', hsel', hr'⟩ := readSelector_local hsel hr z'
    exact ⟨r', rfl, hsel', hr', rfl⟩

/-- A header is no list of variables, unless the text begins with two bars. -/
theorem tryReadIvarList_of_header {t sel r : List Char}
    (h : readSelector T ('|' :: t) = some (sel, r)) (hr : skip r = '[' :: z) :
    tryReadIvarList T ('|' :: t) = none ↔ (skip t).head? ≠ some '|' := by
  obtain ⟨-, -, hident⟩ := readSelector_binary (by decide) h hr
  unfold tryReadIvarList
  rw [List.drop_one, List.tail_cons, List.length_cons, readIvars]
  constructor
  · intro hnone hbar
    rw [if_pos hbar] at hnone
    cases hnone
  · intro hbar
    rw [if_neg hbar, readIdentifier_skip]
    cases hid : readIdentifier T t with
    | none => rfl
    | some found =>
      obtain ⟨id, rest⟩ := found
      have hrest := hident id rest hid
      cases hfuel : t.length with
      | zero => rfl
      | succ n =>
        dsimp only
        rw [readIvars, if_neg (by rw [hrest]; simp), hrest, readIdentifier_bracket]

theorem peekIsClassPragma_of_header {t sel r : List Char}
    (h : readSelector T ('<' :: t) = some (sel, r)) (hr : skip r = '[' :: z) :
    peekIsClassPragma T ('<' :: t) = false := by
  obtain ⟨-, -, hident⟩ := readSelector_binary (by decide) h hr
  unfold peekIsClassPragma
  rw [List.drop_one, List.tail_cons]
  split
  · next id rest hid =>
    rw [hident id rest hid]
    rfl
  · rfl

/-! ## The body -/

theorem bodyStep_eq_none {s : Nat × Within} {c : Char} (h : bodyStep s c = none) : c = ']' := by
  have hcode : ∀ {depth}, codeStep depth c = none → c = ']' := fun hc => by
    unfold codeStep at hc
    split at hc
    · cases hc
    · split at hc
      · assumption
      · split at hc <;> [cases hc; split at hc <;> [cases hc; split at hc <;> cases hc]]
  obtain ⟨depth, m⟩ := s
  unfold bodyStep at h
  cases m with
  | code => exact hcode h
  | literal | comment | string => cases h
  | commentQuote | stringQuote =>
    dsimp only at h
    split at h
    · cases h
    · exact hcode h

/-- The body is decided by what lies before the bracket that closes it. -/
theorem closeBracket_eq_some {s : Nat × Within} {b rest : List Char}
    (h : closeBracket s b = some rest) :
    ∃ p, b = p ++ ']' :: rest ∧ ∀ y, closeBracket s (p ++ ']' :: y) = some y := by
  induction b generalizing s with
  | nil => cases h
  | cons c b ih =>
    rw [closeBracket] at h
    cases hstep : bodyStep s c with
    | none =>
      rw [hstep] at h
      obtain rfl := bodyStep_eq_none hstep
      cases h
      exact ⟨[], rfl, fun y => by rw [List.nil_append, closeBracket, hstep]⟩
    | some s' =>
      rw [hstep] at h
      obtain ⟨p, rfl, hclose⟩ := ih h
      exact ⟨c :: p, rfl, fun y => by rw [List.cons_append, closeBracket, hstep]; exact hclose y⟩

theorem closeBracket_append_of_none {s : Nat × Within} {b : List Char}
    (h : closeBracket s b = none) : ∃ s', ∀ y, closeBracket s (b ++ y) = closeBracket s' y := by
  induction b generalizing s with
  | nil => exact ⟨s, fun y => rfl⟩
  | cons c b ih =>
    rw [closeBracket] at h
    cases hstep : bodyStep s c with
    | none =>
      rw [hstep] at h
      cases h
    | some s' =>
      rw [hstep] at h
      obtain ⟨s'', hs''⟩ := ih h
      exact ⟨s'', fun y => by rw [List.cons_append, closeBracket, hstep]; exact hs'' y⟩

theorem closeBracket_of_prefix {s : Nat × Within} {b b' : List Char} (hb : b' <+: b)
    (h : closeBracket s b = none) : closeBracket s b' = none := by
  cases hclose : closeBracket s b' with
  | none => rfl
  | some rest =>
    obtain ⟨y, rfl⟩ := hb
    obtain ⟨p, rfl, hp⟩ := closeBracket_eq_some hclose
    rw [List.append_assoc, List.cons_append, hp] at h
    cases h

/-! ## Captures -/

/-- The loop over a class body takes a method off this text. -/
structure IsCapture (T : CharTables) (name cs : List Char) (m : ParsedMethod) (after : List Char) :
    Prop where
  starts : skip cs = cs
  goesOn : cs.head? ≠ some ']'
  noIvars : cs.head? = some '|' → tryReadIvarList T cs = none
  noPragma : cs.head? = some '<' → peekIsClassPragma T cs = false
  method : readMethod T name cs = .ok (m, after)

theorem readMethod_eq_ok {name cs after : List Char} {m : ParsedMethod} :
    readMethod T name cs = .ok (m, after) ↔ ∃ sel z,
      readHeader T name cs = some (sel, m.isClassSide, '[' :: z) ∧
      after = (closeBracket (1, .code) z).getD [] ∧
      m.selector = String.ofList sel ∧
      m.source = String.ofList (trim (cs.take (cs.length - after.length))) := by
  unfold readMethod readHeader readBracketedBody
  dsimp only
  cases readSelector T ((classSidePrefix T name cs).getD cs) with
  | none => exact ⟨nofun, fun ⟨_, _, h, _⟩ => nomatch h⟩
  | some found =>
    obtain ⟨sel, r⟩ := found
    dsimp only
    cases hbracket : skip r with
    | nil => exact ⟨nofun, fun ⟨_, _, h, _⟩ => nomatch h⟩
    | cons c z =>
      by_cases hc : c = '['
      · subst hc
        constructor
        · intro h
          cases h
          exact ⟨sel, z, rfl, rfl, rfl, rfl⟩
        · rintro ⟨sel', z', hheader, rfl, hselector, hsource⟩
          obtain ⟨selector, side, source⟩ := m
          obtain ⟨rfl, hrest⟩ := Prod.mk.inj (Option.some.inj hheader)
          obtain ⟨hside, hz⟩ := Prod.mk.inj hrest
          cases hside
          cases hz
          cases hselector
          cases hsource
          rfl
      · have hhead : ¬ (c :: z).head? = some '[' := fun h => hc (Option.some.inj h)
        rw [if_neg hhead, if_neg hhead]
        exact ⟨nofun, fun ⟨_, _, h, _⟩ => nomatch h⟩

theorem readHeader_binary {c : Char} {t name sel : List Char} {side : Bool}
    (hc : isBinaryChar c = true) (h : readHeader T name (c :: t) = some (sel, side, '[' :: z)) :
    ∃ r, readSelector T (c :: t) = some (sel, r) ∧ skip r = '[' :: z := by
  obtain ⟨z, r, heq, hsel, hr, -⟩ := readHeader_eq_some.mp h
  cases heq
  have hnone : classSidePrefix T name (c :: t) = none := by
    have hident : readIdentifier T (c :: t) = none := by
      rw [readIdentifier_eq_none, skip_binary hc]
      exact identStart_binary hc
    unfold classSidePrefix
    rw [hident]
  rw [hnone] at hsel
  exact ⟨r, hsel, hr⟩

/-- The same header with another body is a capture, too. -/
theorem IsCapture.move {name cs after : List Char} {m : ParsedMethod}
    (h : IsCapture T name cs m after) : ∃ x z sel, cs = x ++ '[' :: z ∧
      after = (closeBracket (1, .code) z).getD [] ∧
      (∀ z', readHeader T name (x ++ '[' :: z') = some (sel, m.isClassSide, '[' :: z')) ∧
      ∀ z', ∃ source, IsCapture T name (x ++ '[' :: z') { m with source }
        ((closeBracket (1, .code) z').getD []) := by
  obtain ⟨sel, z, hheader, hafter, hselector, hsource⟩ := readMethod_eq_ok.mp h.method
  obtain ⟨x, rfl⟩ := readHeader_reaches hheader
  have hlocal := readHeader_local h.starts hheader
  refine ⟨x, z, sel, rfl, hafter, hlocal, fun z' => ⟨String.ofList (trim ((x ++ '[' :: z').take
    ((x ++ '[' :: z').length - ((closeBracket (1, .code) z').getD []).length))), ?_⟩⟩
  have hstarts' := skip_local h.starts z'
  have hhead := head?_append_bracket x z' z
  refine ⟨hstarts', hhead ▸ h.goesOn, fun hbar => ?_, fun hless => ?_,
    readMethod_eq_ok.mpr ⟨sel, z', hlocal z', rfl, hselector, rfl⟩⟩
  · have hnone := h.noIvars (hhead ▸ hbar)
    cases x with
    | nil => cases hbar
    | cons c v =>
      cases hbar
      have hbinary (z' : List Char) := readHeader_binary (by decide)
        (show readHeader T name ('|' :: (v ++ '[' :: z')) = _ from hlocal z')
      obtain ⟨r, hsel, hr⟩ := hbinary z
      obtain ⟨r', hsel', hr'⟩ := hbinary z'
      obtain ⟨w, hw, -⟩ := readSelector_binary (by decide) hsel hr
      rw [List.cons_append, tryReadIvarList_of_header hsel hr, hw] at hnone
      rwa [List.cons_append, tryReadIvarList_of_header hsel' hr', skip_local hw z',
        head?_append_bracket w z' z]
  · cases x with
    | nil => cases hless
    | cons c v =>
      cases hless
      obtain ⟨r', hsel', hr'⟩ := readHeader_binary (by decide) (hlocal z')
      exact peekIsClassPragma_of_header hsel' hr'

/-- Whether the last character of a source closes the body that its header opens. -/
def isClosed (T : CharTables) (name source : List Char) : Bool :=
  match readHeader T name source with
  | some (_, _, body) => closeBracket (1, .code) (body.drop 1) = some []
  | none => false

theorem isClosed_of_header {name source sel : List Char} {side : Bool}
    (h : readHeader T name source = some (sel, side, '[' :: z)) :
    isClosed T name source = true ↔ closeBracket (1, .code) z = some [] := by
  unfold isClosed
  rw [h]
  exact decide_eq_true_iff

namespace IsCapture

variable {name cs after : List Char} {m : ParsedMethod}

theorem trim_prefix (h : IsCapture T name cs m after) {s : List Char} (hs : trimEnd s <+: cs) :
    trim s = trimEnd s := by
  unfold trim trimStart
  cases hend : trimEnd s with
  | nil => rfl
  | cons c s =>
    rw [hend] at hs
    obtain ⟨t, rfl⟩ := hs
    exact dropWhile_cons_neg (skip_eq_cons h.starts).1

theorem source_eq (h : IsCapture T name cs m after) :
    m.source.toList = trimEnd (cs.take (cs.length - after.length)) := by
  obtain ⟨-, -, -, -, -, hsource⟩ := readMethod_eq_ok.mp h.method
  rw [hsource, String.toList_ofList]
  exact h.trim_prefix ((List.rdropWhile_prefix _ _).trans (List.take_prefix _ _))

/-- A method that ends with its bracket is kept as it is. -/
theorem source_of_close (h : IsCapture T name cs m after) {s : List Char}
    (hs : cs = s ++ ']' :: after) : m.source.toList = s ++ [']'] := by
  rw [h.source_eq, hs, List.append_cons, List.length_append, Nat.add_sub_cancel, List.take_left]
  exact trimEnd_concat (by decide) s

/-- A method whose body is not closed extends as far as the text. -/
theorem source_of_end {cs : List Char} (h : IsCapture T name cs m []) :
    m.source.toList = trimEnd cs := by
  rw [h.source_eq, List.length_nil, Nat.sub_zero, List.take_length]

/-- A capture that was closed is one whatever follows it. A capture that ended with its text takes
more when something follows. -/
theorem cases_source (h : IsCapture T name cs m after) :
    (isClosed T name m.source.toList = true ∧ ∀ y, IsCapture T name (m.source.toList ++ y) m y) ∨
    (isClosed T name m.source.toList = false ∧
      ∀ y, (∃ c ∈ y, isWhitespace c = false) → ∃ m' after',
        IsCapture T name (m.source.toList ++ y) m' after' ∧ m'.source ≠ m.source) := by
  obtain ⟨x, z, sel, rfl, rfl, hheader, hmove⟩ := h.move
  cases hclose : closeBracket (1, .code) z with
  | some rest =>
    rw [hclose] at h
    obtain ⟨p, rfl, hp⟩ := closeBracket_eq_some hclose
    have hsource : m.source.toList = (x ++ '[' :: p) ++ [']'] := h.source_of_close (by simp)
    refine .inl ⟨?_, fun y => ?_⟩
    · rw [hsource, List.append_assoc, List.cons_append, isClosed_of_header (hheader _), hp]
    · obtain ⟨source, hcapture⟩ := hmove (p ++ ']' :: y)
      rw [hp, Option.getD_some] at hcapture
      have hsource' := hcapture.source_of_close (show _ = (x ++ '[' :: p) ++ ']' :: y by simp)
      obtain rfl : source = m.source := String.toList_injective (hsource'.trans hsource.symm)
      rwa [hsource, List.append_assoc, List.append_assoc]
  | none =>
    rw [hclose, Option.getD_none] at h
    obtain ⟨t, htrim, hprefix⟩ := trimEnd_append_cons (show isWhitespace '[' = false by decide) x z
    have hsource := h.source_of_end.trans htrim
    have hnone := closeBracket_of_prefix hprefix hclose
    refine .inr ⟨?_, fun y hy => ?_⟩
    · rw [← Bool.not_eq_true, hsource, isClosed_of_header (hheader _), hnone]
      exact nofun
    · obtain ⟨source, hcapture⟩ := hmove (t ++ y)
      refine ⟨_, _, by rw [hsource, List.append_assoc]; exact hcapture, fun heq => ?_⟩
      obtain ⟨s', hs'⟩ := closeBracket_append_of_none hnone
      rw [hs' y] at hcapture
      -- the body now reaches beyond the source, to a bracket or to the end of the text
      have hlonger : ∃ d u, source.toList = x ++ '[' :: t ++ d :: u := by
        cases hrest : closeBracket s' y with
        | some rest =>
          obtain ⟨q, rfl, -⟩ := closeBracket_eq_some hrest
          rw [hrest, Option.getD_some] at hcapture
          have hsource' := hcapture.source_of_close
            (show _ = (x ++ '[' :: (t ++ q)) ++ ']' :: rest by simp)
          obtain ⟨d, u, hdu⟩ := List.exists_cons_of_ne_nil (show q ++ [']'] ≠ [] by simp)
          refine ⟨d, u, ?_⟩
          rw [hsource', ← hdu]
          simp
        | none =>
          rw [hrest, Option.getD_none] at hcapture
          obtain ⟨c, hc, hspace⟩ := hy
          obtain ⟨y₁, y₂, rfl⟩ := List.append_of_mem hc
          obtain ⟨u, hu, -⟩ := trimEnd_append_cons hspace (x ++ '[' :: t ++ y₁) y₂
          obtain ⟨d, u', hdu⟩ := List.exists_cons_of_ne_nil (show y₁ ++ c :: u ≠ [] by simp)
          refine ⟨d, u', ?_⟩
          have hassoc : x ++ '[' :: (t ++ (y₁ ++ c :: y₂)) = x ++ '[' :: t ++ y₁ ++ c :: y₂ := by simp
          rw [hcapture.source_of_end, hassoc, hu, ← hdu, List.append_assoc]
      obtain ⟨d, u, hdu⟩ := hlonger
      rw [show source = m.source from heq, hsource] at hdu
      exact List.cons_ne_nil d u (List.self_eq_append_right.mp hdu)

end IsCapture

end WinVm.ImageStore
