import WinVm.Lib.Text

/-!
# Reading world files

The scanner of `image_store/src/mst.rs`. A position in the text is what is left of it. `CharTables`
stands for the Unicode tables behind `char::is_alphabetic` and `char::is_numeric`.

The loops of the source run until the text is used up; here they take fuel, and are started with
enough of it: `readKeywordParts_fuel`, `readItems_fuel` and `parseClasses_fuel`, more changes nothing.

Results: `readIdentifier_eq_some`; `readItem_suffix`, an item takes something off the text.
-/

namespace WinVm.ImageStore

open WinVm.Lib

structure CharTables where
  isAlphabetic : Char → Bool
  isNumeric : Char → Bool
  ascii : ∀ c : Char, c.toNat < 128 → isAlphabetic c = c.isAlpha ∧ isNumeric c = c.isDigit
  whitespace : ∀ c, isWhitespace c = true → isAlphabetic c = false ∧ isNumeric c = false

structure ParsedMethod where
  selector : String
  isClassSide : Bool
  source : String
deriving DecidableEq, Repr

structure ParsedClass where
  name : String
  superclass : Option String
  instanceVars : String
  classVars : String
  comment : String
  methods : List ParsedMethod
deriving DecidableEq, Repr

/-! ## Comments and whitespace -/

/-- After the opening quote of a comment: its text, and what follows it. -/
def skipComment : List Char → List Char × List Char
  | [] => ([], [])
  | '"' :: '"' :: cs => ('"' :: (skipComment cs).1, (skipComment cs).2)
  | '"' :: cs => ([], cs)
  | c :: cs => (c :: (skipComment cs).1, (skipComment cs).2)

inductive Trivia where
  | outside
  | comment
  /-- After a quote in a comment: the comment ends here, unless another one follows. -/
  | quote
deriving DecidableEq, Repr

def skipFrom : Trivia → List Char → List Char
  | _, [] => []
  | .outside, c :: cs =>
    if isWhitespace c then skipFrom .outside cs
    else if c = '"' then skipFrom .comment cs
    else c :: cs
  | .comment, c :: cs => skipFrom (if c = '"' then .quote else .comment) cs
  | .quote, c :: cs =>
    if isWhitespace c then skipFrom .outside cs
    else if c = '"' then skipFrom .comment cs
    else c :: cs

/-- `skip_ws_and_comments`. -/
def skip (cs : List Char) : List Char := skipFrom .outside cs

/-! ## Identifiers and selectors -/

section Scanner

variable (T : CharTables)

def isIdentStart (c : Char) : Bool := T.isAlphabetic c || c = '_'

def isIdentCont (c : Char) : Bool := T.isAlphabetic c || T.isNumeric c || c = '_'

def readIdentifier (cs : List Char) : Option (List Char × List Char) :=
  match skip cs with
  | [] => none
  | c :: rest =>
    if isIdentStart T c then
      some ((c :: rest).takeWhile (isIdentCont T), (c :: rest).dropWhile (isIdentCont T))
    else none

/-- The position after `read_identifier`, which also moves when there is none. -/
def dropIdentifier (cs : List Char) : List Char :=
  match readIdentifier T cs with
  | some (_, rest) => rest
  | none => skip cs

/-- The position after `eat_str`, if it finds the literal. -/
def eatStr (lit : String) (cs : List Char) : Option (List Char) :=
  if lit.toList <+: skip cs then some ((skip cs).drop lit.toList.length) else none

def isBinaryChar (c : Char) : Bool := c ∈ "+-*/~<>=&|@%,?!\\".toList

/-- The loop over the parts of a keyword selector, at the colon of `part`. -/
def readKeywordParts : Nat → List Char → List Char → List Char → List Char × List Char
  | 0, sel, _, cs => (sel, cs)
  | fuel + 1, sel, part, cs =>
    let save := skip (dropIdentifier T (cs.drop 1))
    match readIdentifier T save with
    | some (next, rest) =>
      if (skip rest).head? = some ':' then
        readKeywordParts fuel (sel ++ part ++ [':']) next (skip rest)
      else (sel ++ part ++ [':'], save)
    | none => (sel ++ part ++ [':'], save)

def readSelector (cs : List Char) : Option (List Char × List Char) :=
  match skip cs with
  | [] => none
  | c :: rest =>
    if c = ']' then none
    else if isBinaryChar c then
      some ((c :: rest).takeWhile isBinaryChar,
        dropIdentifier T ((c :: rest).dropWhile isBinaryChar))
    else
      match readIdentifier T (c :: rest) with
      | none => none
      | some (first, rest) =>
        if (skip rest).head? = some ':' then
          some (readKeywordParts T (skip rest).length [] first (skip rest))
        else some (first, skip rest)

/-! ## Pragmas and variables -/

/-- At a `<`. -/
def peekIsClassPragma (cs : List Char) : Bool :=
  match readIdentifier T (cs.drop 1) with
  | some (_, rest) => (skip rest).head? = some ':'
  | none => false

/-- At a `<`. -/
def readAnglePragma (cs : List Char) : List Char × List Char :=
  ((cs.drop 1).takeWhile (· ≠ '>'), ((cs.drop 1).dropWhile (· ≠ '>')).drop 1)

/-- What a pragma makes of the class variables. -/
def pragmaClassVars (pragma classVars : List Char) : List Char :=
  if "classVars:".toList <+: trim pragma then
    unwords (splitWhitespace ((trim pragma).drop "classVars:".toList.length))
  else classVars

def readIvars : Nat → List (List Char) → List Char → Option (List Char × List Char)
  | 0, _, _ => none
  | fuel + 1, vars, cs =>
    if (skip cs).head? = some '|' then some (unwords vars, (skip cs).drop 1)
    else
      match readIdentifier T (skip cs) with
      | some (v, rest) => readIvars fuel (vars ++ [v]) rest
      | none => none

/-- At a `|`. -/
def tryReadIvarList (cs : List Char) : Option (List Char × List Char) :=
  readIvars T cs.length [] (cs.drop 1)

/-! ## Bodies -/

inductive Within where
  | code
  /-- After a `$`. -/
  | literal
  | comment
  | commentQuote
  | string
  | stringQuote
deriving DecidableEq, Repr

/-- What a character in code does to the open brackets: `none` if it closes the last one. -/
def codeStep (depth : Nat) (c : Char) : Option (Nat × Within) :=
  if c = '[' then some (depth + 1, .code)
  else if c = ']' then if depth = 1 then none else some (depth - 1, .code)
  else if c = '$' then some (depth, .literal)
  else if c = '"' then some (depth, .comment)
  else if c = '\'' then some (depth, .string)
  else some (depth, .code)

def bodyStep (s : Nat × Within) (c : Char) : Option (Nat × Within) :=
  match s.2 with
  | .code => codeStep s.1 c
  | .literal => some (s.1, .code)
  | .comment => some (s.1, if c = '"' then .commentQuote else .comment)
  | .commentQuote => if c = '"' then some (s.1, .comment) else codeStep s.1 c
  | .string => some (s.1, if c = '\'' then .stringQuote else .string)
  | .stringQuote => if c = '\'' then some (s.1, .string) else codeStep s.1 c

/-- What follows the bracket that closes the last open one. -/
def closeBracket : Nat × Within → List Char → Option (List Char)
  | _, [] => none
  | s, c :: cs =>
    match bodyStep s c with
    | none => some cs
    | some s => closeBracket s cs

/-- The position after `read_bracketed_body`, which takes all there is if the body is not closed. -/
def readBracketedBody (cs : List Char) : Option (List Char) :=
  if (skip cs).head? = some '[' then
    some ((closeBracket (1, .code) ((skip cs).drop 1)).getD [])
  else none

/-! ## Classes -/

/-- `Name class >>`. -/
def classSidePrefix (name cs : List Char) : Option (List Char) :=
  match readIdentifier T cs with
  | some (ident, rest) => if ident = name then (eatStr "class" rest).bind (eatStr ">>") else none
  | none => none

/-- A method and what follows it, or where the scanner stops. -/
def readMethod (name cs : List Char) : Except (List Char) (ParsedMethod × List Char) :=
  let start := (classSidePrefix T name cs).getD cs
  match readSelector T start with
  | none => .error (skip start)
  | some (selector, rest) =>
    match readBracketedBody rest with
    | none => .error (skip rest)
    | some after =>
      .ok (⟨String.ofList selector, (classSidePrefix T name cs).isSome,
        String.ofList (trim (cs.take (cs.length - after.length)))⟩, after)

structure ClassBody where
  instanceVars : List Char
  classVars : List Char
  methods : List ParsedMethod
deriving DecidableEq, Repr

/-- One turn of the loop over a class body: what was read, and whether the loop goes on. -/
def readItem (name : List Char) (body : ClassBody) (cs : List Char) :
    ClassBody × List Char × Bool :=
  match skip cs with
  | [] => (body, [], false)
  | c :: rest =>
    if c = ']' then (body, rest, false)
    else
      match if c = '|' then tryReadIvarList T (c :: rest) else none with
      | some (vars, after) => ({ body with instanceVars := vars }, after, true)
      | none =>
        if c = '<' && peekIsClassPragma T (c :: rest) then
          let (pragma, after) := readAnglePragma (c :: rest)
          ({ body with classVars := pragmaClassVars pragma body.classVars }, after, true)
        else
          match readMethod T name (c :: rest) with
          | .error stopped => (body, stopped, false)
          | .ok (m, after) => ({ body with methods := body.methods ++ [m] }, after, true)

def readItems (name : List Char) : Nat → ClassBody → List Char → ClassBody × List Char
  | 0, body, cs => (body, cs)
  | fuel + 1, body, cs =>
    match readItem T name body cs with
    | (body, rest, true) => readItems name fuel body rest
    | (body, rest, false) => (body, rest)

def readBody (name : List Char) (body : ClassBody) (cs : List Char) : ClassBody × List Char :=
  readItems T name (cs.length + 1) body cs

/-- `Super subclass: Name [`. -/
def readClassHeader (cs : List Char) : Option (List Char × List Char × List Char) := do
  let (superclassName, rest) ← readIdentifier T cs
  let rest ← eatStr "subclass:" rest
  let (newName, rest) ← readIdentifier T rest
  if (skip rest).head? = some '[' then some (superclassName, newName, (skip rest).drop 1) else none

def parseClasses : Nat → Option (List Char) → List Char → List ParsedClass
  | 0, _, _ => []
  | fuel + 1, pending, cs =>
    match trimStart cs with
    | [] => []
    | c :: rest =>
      if c = '"' then parseClasses fuel (some (skipComment rest).1) (skipComment rest).2
      else
        match readClassHeader T (c :: rest) with
        | none => []
        | some (superclassName, newName, rest) =>
          let (body, after) := readBody T newName ⟨[], [], []⟩ rest
          { name := String.ofList newName
            superclass :=
              if superclassName = "nil".toList then none else some (String.ofList superclassName)
            instanceVars := String.ofList body.instanceVars
            classVars := String.ofList body.classVars
            comment := String.ofList (pending.getD [])
            methods := body.methods } :: parseClasses fuel none after

/-- `parse_mst_source`. -/
def parseMstSource (text : String) : List ParsedClass :=
  parseClasses T (text.toList.length + 1) none text.toList

/-! ## What is left is a part of the text -/

variable {T}

theorem skipFrom_suffix (m : Trivia) (cs : List Char) : skipFrom m cs <:+ cs := by
  induction cs generalizing m with
  | nil => cases m <;> exact List.suffix_rfl
  | cons c cs ih =>
    have hlater : ∀ m, skipFrom m cs <:+ c :: cs := fun m => (ih m).trans (List.suffix_cons c cs)
    cases m with
    | comment => exact hlater _
    | outside | quote =>
      rw [skipFrom]
      split
      · exact hlater _
      · split
        · exact hlater _
        · exact List.suffix_rfl

theorem skip_suffix (cs : List Char) : skip cs <:+ cs := skipFrom_suffix .outside cs

/-- Skipping stops where there is nothing to skip. -/
theorem skip_skipFrom (m : Trivia) (cs : List Char) : skip (skipFrom m cs) = skipFrom m cs := by
  induction cs generalizing m with
  | nil => cases m <;> rfl
  | cons c cs ih =>
    cases m with
    | comment => exact ih _
    | outside | quote =>
      rw [skipFrom]
      split
      · exact ih _
      · split
        · exact ih _
        · next hspace hquote =>
          show skipFrom .outside (c :: cs) = c :: cs
          rw [skipFrom, if_neg hspace, if_neg hquote]

theorem skip_skip (cs : List Char) : skip (skip cs) = skip cs := skip_skipFrom .outside cs

/-! ## Identifiers -/

/-- The text of an identifier. -/
def IsIdentifier (T : CharTables) (w : List Char) : Prop :=
  w.head?.any (isIdentStart T) = true ∧ ∀ c ∈ w, isIdentCont T c = true

theorem isIdentCont_of_start {c : Char} (h : isIdentStart T c = true) : isIdentCont T c = true := by
  unfold isIdentStart at h
  unfold isIdentCont
  rw [Bool.or_right_comm, h, Bool.true_or]

theorem isIdentCont_ascii {c : Char} (hc : c.toNat < 128) :
    isIdentCont T c = (c.isAlpha || c.isDigit || c = '_') := by
  unfold isIdentCont
  rw [(T.ascii c hc).1, (T.ascii c hc).2]

theorem isWhitespace_of_identCont {c : Char} (h : isIdentCont T c = true) :
    isWhitespace c = false := by
  rw [← Bool.not_eq_true]
  intro hspace
  unfold isIdentCont at h
  rw [(T.whitespace c hspace).1, (T.whitespace c hspace).2] at h
  rw [of_decide_eq_true h] at hspace
  exact absurd hspace (by decide)

theorem IsIdentifier.isWord {w : List Char} (h : IsIdentifier T w) : IsWord w := by
  refine ⟨?_, fun c hc => isWhitespace_of_identCont (h.2 c hc)⟩
  rintro rfl
  exact absurd h.1 Bool.false_ne_true

theorem IsIdentifier.ne_nil {w : List Char} (h : IsIdentifier T w) : w ≠ [] := h.isWord.1

/-- Nothing is skipped before a character that is no trivia. -/
theorem skip_cons {c : Char} (hspace : isWhitespace c = false) (hquote : c ≠ '"') (cs : List Char) :
    skip (c :: cs) = c :: cs := by
  unfold skip
  rw [skipFrom, hspace, if_neg Bool.false_ne_true, if_neg hquote]

theorem skip_identifier {w : List Char} (h : IsIdentifier T w) (cs : List Char) :
    skip (w ++ cs) = w ++ cs := by
  obtain ⟨c, w, rfl⟩ := List.exists_cons_of_ne_nil h.ne_nil
  refine skip_cons (h.isWord.2 c List.mem_cons_self) ?_ _
  rintro rfl
  exact absurd (h.2 '"' List.mem_cons_self) (by rw [isIdentCont_ascii (by decide)]; decide)

theorem readIdentifier_eq_some {cs w rest : List Char} : readIdentifier T cs = some (w, rest) ↔
    skip cs = w ++ rest ∧ IsIdentifier T w ∧ rest.head?.any (isIdentCont T) = false := by
  unfold readIdentifier
  cases hskip : skip cs with
  | nil =>
    refine ⟨nofun, fun h => absurd (List.append_eq_nil_iff.mp h.1.symm).1 h.2.1.ne_nil⟩
  | cons c s =>
    dsimp only
    constructor
    · intro h
      split at h
      · next hstart =>
        obtain ⟨rfl, rfl⟩ := Prod.mk.inj (Option.some.inj h)
        have hcont := isIdentCont_of_start hstart
        refine ⟨(List.takeWhile_append_dropWhile ..).symm, ⟨?_, ?_⟩, ?_⟩
        · rw [List.takeWhile_cons_of_pos hcont]
          exact hstart
        · exact fun x hx => List.mem_takeWhile_imp hx
        · cases hdrop : (c :: s).dropWhile (isIdentCont T) with
          | nil => rfl
          | cons d t =>
            have := List.head_dropWhile_not (isIdentCont T) (l := c :: s) (by rw [hdrop]; exact nofun)
            simp only [hdrop] at this
            exact this
      · cases h
    · rintro ⟨happend, hident, hrest⟩
      obtain ⟨d, w', rfl⟩ := List.exists_cons_of_ne_nil hident.ne_nil
      obtain ⟨rfl, -⟩ := List.cons.inj happend
      have hstart : isIdentStart T c = true := hident.1
      rw [if_pos hstart, happend, List.takeWhile_append_of_pos hident.2,
        List.dropWhile_append_of_pos hident.2]
      cases rest with
      | nil => simp
      | cons e rest =>
        have he : ¬ isIdentCont T e = true := by
          rw [Bool.not_eq_true]
          exact hrest
        rw [List.takeWhile_cons_of_neg he, List.dropWhile_cons_of_neg he, List.append_nil]

theorem readIdentifier_eq_none {cs : List Char} :
    readIdentifier T cs = none ↔ (skip cs).head?.any (isIdentStart T) = false := by
  unfold readIdentifier
  cases skip cs with
  | nil => exact ⟨fun _ => rfl, fun _ => rfl⟩
  | cons c s =>
    show (if isIdentStart T c = true then some _ else none) = none ↔ isIdentStart T c = false
    cases isIdentStart T c with
    | true => exact ⟨nofun, nofun⟩
    | false => exact ⟨fun _ => rfl, fun _ => rfl⟩

theorem eatStr_eq_some {lit : String} {cs rest : List Char} :
    eatStr lit cs = some rest ↔ skip cs = lit.toList ++ rest := by
  unfold eatStr
  constructor
  · intro h
    split at h
    · next hprefix =>
      obtain ⟨t, ht⟩ := hprefix
      rw [← ht, List.drop_left] at h
      rw [← ht, Option.some.inj h]
    · cases h
  · intro h
    rw [if_pos ⟨rest, h.symm⟩, h, List.drop_left]

theorem readIdentifier_suffix {cs w rest : List Char} (h : readIdentifier T cs = some (w, rest)) :
    rest <:+ cs ∧ rest.length < cs.length := by
  obtain ⟨hskip, hident, -⟩ := readIdentifier_eq_some.mp h
  have hsuffix := skip_suffix cs
  rw [hskip] at hsuffix
  refine ⟨(List.suffix_append w rest).trans hsuffix, Nat.lt_of_lt_of_le ?_ hsuffix.length_le⟩
  rw [List.length_append]
  exact Nat.lt_add_of_pos_left (List.length_pos_iff.mpr hident.ne_nil)

theorem dropIdentifier_suffix (cs : List Char) : dropIdentifier T cs <:+ cs := by
  unfold dropIdentifier
  split
  · next h => exact (readIdentifier_suffix h).1
  · exact skip_suffix cs

theorem eatStr_suffix {lit : String} {cs rest : List Char} (h : eatStr lit cs = some rest) :
    rest <:+ cs :=
  (List.suffix_append _ rest).trans (eatStr_eq_some.mp h ▸ skip_suffix cs)

/-! ## The loops use up the text -/

theorem readKeywordParts_suffix (fuel : Nat) (sel part cs : List Char) :
    (readKeywordParts T fuel sel part cs).2 <:+ cs := by
  induction fuel generalizing sel part cs with
  | zero => exact List.suffix_rfl
  | succ fuel ih =>
    have hsave : skip (dropIdentifier T (cs.drop 1)) <:+ cs :=
      ((skip_suffix _).trans (dropIdentifier_suffix _)).trans (List.drop_suffix 1 cs)
    rw [readKeywordParts]
    split
    · next hnext =>
      split
      · exact (ih _ _ _).trans ((skip_suffix _).trans ((readIdentifier_suffix hnext).1.trans hsave))
      · exact hsave
    · exact hsave

theorem readKeywordParts_fuel {fuel fuel' : Nat} {cs : List Char} (hne : cs ≠ [])
    (h : cs.length ≤ fuel) (h' : cs.length ≤ fuel') (sel part : List Char) :
    readKeywordParts T fuel sel part cs = readKeywordParts T fuel' sel part cs := by
  have hpos := List.length_pos_iff.mpr hne
  induction fuel generalizing fuel' cs sel part with
  | zero => exact absurd hpos (Nat.not_lt.mpr h)
  | succ fuel ih =>
    obtain ⟨fuel', rfl⟩ := Nat.exists_eq_add_one.mpr (Nat.lt_of_lt_of_le hpos h')
    rw [readKeywordParts, readKeywordParts]
    split
    · next rest hnext =>
      split
      · next hcolon =>
        have hrest : (skip rest).length < cs.length := by
          have hsave := (skip_suffix (dropIdentifier T (cs.drop 1))).length_le
          exact Nat.lt_of_le_of_lt (skip_suffix rest).length_le (Nat.lt_of_lt_of_le
            (readIdentifier_suffix hnext).2 (hsave.trans
              ((dropIdentifier_suffix _).trans (List.drop_suffix 1 cs)).length_le))
        have hne' : skip rest ≠ [] := fun h => by rw [h] at hcolon; cases hcolon
        exact ih hne' (Nat.le_of_lt_succ (Nat.lt_of_lt_of_le hrest h))
          (Nat.le_of_lt_succ (Nat.lt_of_lt_of_le hrest h')) _ _ (List.length_pos_iff.mpr hne')
      · rfl
    · rfl

theorem readSelector_suffix {cs sel rest : List Char} (h : readSelector T cs = some (sel, rest)) :
    rest <:+ cs ∧ rest.length < cs.length := by
  have hskip := skip_suffix cs
  have hstrict : ∀ {s t : List Char}, rest <:+ s → s <:+ t → s.length < t.length → t <:+ cs →
      rest <:+ cs ∧ rest.length < cs.length := fun hs ht hlt hcs =>
    ⟨hs.trans (ht.trans hcs),
      Nat.lt_of_le_of_lt hs.length_le (Nat.lt_of_lt_of_le hlt hcs.length_le)⟩
  unfold readSelector at h
  split at h
  · cases h
  · next c s heq =>
    rw [heq] at hskip
    split at h
    · cases h
    · split at h
      · next hbinary =>
        obtain ⟨-, rfl⟩ := Prod.mk.inj (Option.some.inj h)
        have hdrop : (c :: s).dropWhile isBinaryChar <:+ s := by
          rw [List.dropWhile_cons_of_pos hbinary]
          exact List.dropWhile_suffix _
        exact hstrict ((dropIdentifier_suffix _).trans hdrop) (List.suffix_cons c s)
          (Nat.lt_succ_self _) hskip
      · split at h
        · cases h
        · next first rest' hfirst =>
          obtain ⟨hsuffix, hlt⟩ := readIdentifier_suffix hfirst
          split at h
          · obtain ⟨-, rfl⟩ := Prod.mk.inj (Option.some.inj h)
            exact hstrict ((readKeywordParts_suffix ..).trans (skip_suffix rest')) hsuffix hlt hskip
          · obtain ⟨-, rfl⟩ := Prod.mk.inj (Option.some.inj h)
            exact hstrict (skip_suffix rest') hsuffix hlt hskip

theorem readIvars_suffix {fuel : Nat} {vars : List (List Char)} {cs v rest : List Char}
    (h : readIvars T fuel vars cs = some (v, rest)) : rest <:+ cs := by
  induction fuel generalizing vars cs with
  | zero => cases h
  | succ fuel ih =>
    rw [readIvars] at h
    split at h
    · obtain ⟨-, rfl⟩ := Prod.mk.inj (Option.some.inj h)
      exact (List.drop_suffix 1 _).trans (skip_suffix cs)
    · split at h
      · next hident =>
        exact (ih h).trans ((readIdentifier_suffix hident).1.trans (skip_suffix cs))
      · cases h

theorem closeBracket_suffix {s : Nat × Within} {cs rest : List Char}
    (h : closeBracket s cs = some rest) : rest <:+ cs := by
  induction cs generalizing s with
  | nil => cases h
  | cons c cs ih =>
    rw [closeBracket] at h
    split at h
    · cases h
      exact List.suffix_cons c _
    · exact (ih h).trans (List.suffix_cons c cs)

theorem readBracketedBody_suffix {cs rest : List Char} (h : readBracketedBody cs = some rest) :
    rest <:+ cs := by
  unfold readBracketedBody at h
  split at h
  · cases h
    cases hclose : closeBracket (1, .code) ((skip cs).drop 1) with
    | none => exact List.nil_suffix
    | some r =>
      exact (closeBracket_suffix hclose).trans ((List.drop_suffix 1 _).trans (skip_suffix cs))
  · cases h

theorem classSidePrefix_suffix {name cs rest : List Char}
    (h : classSidePrefix T name cs = some rest) : rest <:+ cs := by
  unfold classSidePrefix at h
  split at h
  · next hident =>
    split at h
    · obtain ⟨s, hclass, harrow⟩ := Option.bind_eq_some_iff.mp h
      exact (eatStr_suffix harrow).trans
        ((eatStr_suffix hclass).trans (readIdentifier_suffix hident).1)
    · cases h
  · cases h

theorem classSidePrefix_getD_suffix (T : CharTables) (name cs : List Char) :
    (classSidePrefix T name cs).getD cs <:+ cs := by
  cases h : classSidePrefix T name cs with
  | none => exact List.suffix_rfl
  | some rest => exact classSidePrefix_suffix h

theorem skipComment_suffix (cs : List Char) : (skipComment cs).2 <:+ cs := by
  induction cs using skipComment.induct with
  | case1 => exact List.suffix_rfl
  | case2 cs ih =>
    rw [skipComment]
    exact ih.trans ((List.suffix_cons _ _).trans (List.suffix_cons _ _))
  | case3 cs hne =>
    rw [skipComment.eq_3 cs hne]
    exact List.suffix_cons _ _
  | case4 c cs hne hne' ih =>
    rw [skipComment.eq_4 c cs hne hne']
    exact ih.trans (List.suffix_cons _ _)

theorem readMethod_suffix {name cs rest : List Char} {m : ParsedMethod}
    (h : readMethod T name cs = .ok (m, rest)) : rest <:+ cs ∧ rest.length < cs.length := by
  have hstart := classSidePrefix_getD_suffix T name cs
  unfold readMethod at h
  dsimp only at h
  split at h
  · cases h
  · next hsel =>
    obtain ⟨hsuffix, hlt⟩ := readSelector_suffix hsel
    split at h
    · cases h
    · next hbody =>
      cases h
      have hrest := readBracketedBody_suffix hbody
      exact ⟨hrest.trans (hsuffix.trans hstart), Nat.lt_of_le_of_lt hrest.length_le
        (Nat.lt_of_lt_of_le hlt hstart.length_le)⟩

theorem readMethod_error_suffix {name cs stopped : List Char}
    (h : readMethod T name cs = .error stopped) : stopped <:+ cs := by
  have hstart := classSidePrefix_getD_suffix T name cs
  unfold readMethod at h
  dsimp only at h
  split at h
  · cases h
    exact (skip_suffix _).trans hstart
  · next hsel =>
    split at h
    · cases h
      exact (skip_suffix _).trans ((readSelector_suffix hsel).1.trans hstart)
    · cases h

/-- An item that was read takes something off the text. -/
theorem readItem_suffix {name cs rest : List Char} {body body' : ClassBody} {goesOn : Bool}
    (h : readItem T name body cs = (body', rest, goesOn)) :
    rest <:+ cs ∧ (goesOn = true → rest.length < cs.length) := by
  have hskip := skip_suffix cs
  have htail : ∀ {c : Char} {s : List Char}, rest <:+ s → c :: s <:+ cs →
      rest <:+ cs ∧ (goesOn = true → rest.length < cs.length) := fun {c s} hs hcs =>
    ⟨hs.trans ((List.suffix_cons c s).trans hcs), fun _ =>
      Nat.lt_of_lt_of_le (Nat.lt_succ_of_le hs.length_le) hcs.length_le⟩
  unfold readItem at h
  split at h
  · cases h
    exact ⟨List.nil_suffix, nofun⟩
  · next c s heq =>
    rw [heq] at hskip
    split at h
    · cases h
      exact htail List.suffix_rfl hskip
    · split at h
      · next hivars =>
        cases h
        split at hivars
        · exact htail (readIvars_suffix hivars) hskip
        · cases hivars
      · split at h
        · cases h
          exact htail ((List.drop_suffix 1 _).trans (List.dropWhile_suffix _)) hskip
        · split at h
          · next hstop =>
            cases h
            exact ⟨(readMethod_error_suffix hstop).trans hskip, nofun⟩
          · next hmethod =>
            cases h
            obtain ⟨hsuffix, hlt⟩ := readMethod_suffix hmethod
            exact ⟨hsuffix.trans hskip, fun _ => Nat.lt_of_lt_of_le hlt hskip.length_le⟩

theorem readItems_suffix (fuel : Nat) (name : List Char) (body : ClassBody) (cs : List Char) :
    (readItems T name fuel body cs).2 <:+ cs := by
  induction fuel generalizing body cs with
  | zero => exact List.suffix_rfl
  | succ fuel ih =>
    rw [readItems]
    split
    · next hitem => exact (ih _ _).trans (readItem_suffix hitem).1
    · next hitem => exact (readItem_suffix hitem).1

theorem readBody_suffix (T : CharTables) (name : List Char) (body : ClassBody) (cs : List Char) :
    (readBody T name body cs).2 <:+ cs := readItems_suffix _ name body cs

theorem readItems_fuel {fuel fuel' : Nat} {cs : List Char} (h : cs.length < fuel)
    (h' : cs.length < fuel') (name : List Char) (body : ClassBody) :
    readItems T name fuel body cs = readItems T name fuel' body cs := by
  induction fuel generalizing fuel' cs body with
  | zero => exact absurd h (Nat.not_lt_zero _)
  | succ fuel ih =>
    obtain ⟨fuel', rfl⟩ := Nat.exists_eq_add_one.mpr (Nat.zero_lt_of_lt h')
    rw [readItems, readItems]
    split
    · next hitem =>
      have hlt := (readItem_suffix hitem).2 rfl
      exact ih (Nat.lt_of_lt_of_le hlt (Nat.le_of_lt_succ h))
        (Nat.lt_of_lt_of_le hlt (Nat.le_of_lt_succ h')) _
    · rfl

/-- The loop over the class body. -/
theorem readBody_eq (name : List Char) (body : ClassBody) (cs : List Char) :
    readBody T name body cs =
      match readItem T name body cs with
      | (body, rest, true) => readBody T name body rest
      | (body, rest, false) => (body, rest) := by
  unfold readBody
  rw [readItems]
  split
  · next hitem => exact readItems_fuel ((readItem_suffix hitem).2 rfl) (Nat.lt_succ_self _) _ _
  · rfl

theorem readClassHeader_suffix {cs superclassName newName rest : List Char}
    (h : readClassHeader T cs = some (superclassName, newName, rest)) :
    rest <:+ cs ∧ rest.length < cs.length := by
  unfold readClassHeader at h
  obtain ⟨⟨_, r₁⟩, h₁, h⟩ := Option.bind_eq_some_iff.mp h
  obtain ⟨r₂, h₂, h⟩ := Option.bind_eq_some_iff.mp h
  obtain ⟨⟨_, r₃⟩, h₃, h⟩ := Option.bind_eq_some_iff.mp h
  dsimp only at h
  split at h
  · cases h
    obtain ⟨hsuffix, hlt⟩ := readIdentifier_suffix h₁
    have hrest := (((List.drop_suffix 1 _).trans (skip_suffix r₃)).trans
      (readIdentifier_suffix h₃).1).trans (eatStr_suffix h₂)
    exact ⟨hrest.trans hsuffix, Nat.lt_of_le_of_lt hrest.length_le hlt⟩
  · cases h

/-- More fuel than the text is long changes nothing. -/
theorem parseClasses_fuel {fuel fuel' : Nat} {cs : List Char} (h : cs.length < fuel)
    (h' : cs.length < fuel') (pending : Option (List Char)) :
    parseClasses T fuel pending cs = parseClasses T fuel' pending cs := by
  induction fuel generalizing fuel' cs pending with
  | zero => exact absurd h (Nat.not_lt_zero _)
  | succ fuel ih =>
    obtain ⟨fuel', rfl⟩ := Nat.exists_eq_add_one.mpr (Nat.zero_lt_of_lt h')
    have hstep : ∀ {s : List Char}, s.length < (trimStart cs).length → ∀ pending,
        parseClasses T fuel pending s = parseClasses T fuel' pending s := fun hs pending => by
      have hlt := Nat.lt_of_lt_of_le hs (List.dropWhile_suffix _).length_le
      exact ih (Nat.lt_of_lt_of_le hlt (Nat.le_of_lt_succ h))
        (Nat.lt_of_lt_of_le hlt (Nat.le_of_lt_succ h')) pending
    rw [parseClasses, parseClasses]
    split
    · rfl
    · next c rest heq =>
      rw [heq] at hstep
      split
      · exact hstep (Nat.lt_succ_of_le (skipComment_suffix rest).length_le) _
      · split
        · rfl
        · next newName after hheader =>
          have hbody := (readBody_suffix T newName ⟨[], [], []⟩ after).length_le
          exact congrArg (List.cons _)
            (hstep (Nat.lt_of_le_of_lt hbody (readClassHeader_suffix hheader).2) none)

end Scanner

end WinVm.ImageStore
