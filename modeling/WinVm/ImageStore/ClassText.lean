import WinVm.ImageStore.Captures

/-!
# The text of a class

`class_block` of `image_store/src/export.rs`, and what the scanner reads of such a text.

Results: `ParsedClass.IsRead`, what any parsed class is like; `readBody_methodLines`, the methods
are read back exactly when each is closed; `parse_classBlock`.
-/

namespace WinVm.ImageStore

open WinVm.Lib

variable {T : CharTables}

/-! ## What is read -/

/-- The text of a list of instance variables. -/
def IsIvars (T : CharTables) (s : List Char) : Prop :=
  ∃ vars : List (List Char), (∀ v ∈ vars, IsIdentifier T v) ∧ s = unwords vars

/-- The text of a list of class variables. -/
def IsClassVars (s : List Char) : Prop :=
  ∃ words : List (List Char), (∀ w ∈ words, IsWord w ∧ '>' ∉ w) ∧ s = unwords words

structure ClassBody.IsRead (T : CharTables) (name : List Char) (body : ClassBody) : Prop where
  instanceVars : IsIvars T body.instanceVars
  classVars : IsClassVars body.classVars
  methods : ∀ m ∈ body.methods, ∃ cs after, IsCapture T name cs m after

theorem readIvars_isIvars {fuel : Nat} {vars : List (List Char)} {cs s rest : List Char}
    (hvars : ∀ v ∈ vars, IsIdentifier T v) (h : readIvars T fuel vars cs = some (s, rest)) :
    IsIvars T s := by
  induction fuel generalizing vars cs with
  | zero => cases h
  | succ fuel ih =>
    rw [readIvars] at h
    split at h
    · obtain ⟨rfl, -⟩ := Prod.mk.inj (Option.some.inj h)
      exact ⟨vars, hvars, rfl⟩
    · split at h
      · next v rest' hident =>
        refine ih (fun x hx => ?_) h
        rcases List.mem_append.mp hx with hx | hx
        · exact hvars x hx
        · rw [List.mem_singleton.mp hx]
          exact (readIdentifier_eq_some.mp hident).2.1
      · cases h

theorem pragmaClassVars_isClassVars {pragma classVars : List Char} (hpragma : '>' ∉ pragma)
    (h : IsClassVars classVars) : IsClassVars (pragmaClassVars pragma classVars) := by
  unfold pragmaClassVars
  split
  · refine ⟨_, fun w hw => ?_, rfl⟩
    obtain ⟨hword, hmem⟩ := mem_splitWhitespace hw
    refine ⟨hword, fun hbracket => hpragma ?_⟩
    have htrim := List.mem_of_mem_drop (hmem _ hbracket)
    exact (List.rdropWhile_prefix _ _).subset ((List.dropWhile_suffix _).subset htrim)
  · exact h

/-- A turn of the loop over the class body. -/
theorem ClassBody.IsRead.readItem {name : List Char} {body : ClassBody} (h : body.IsRead T name)
    (cs : List Char) : (readItem T name body cs).1.IsRead T name := by
  unfold ImageStore.readItem
  split
  · exact h
  · next c rest heq =>
    split
    · exact h
    · next hclose =>
      split
      · next hivars =>
        split at hivars
        · exact { h with instanceVars := readIvars_isIvars (List.forall_mem_nil _) hivars }
        · cases hivars
      · next hivars =>
        split
        · refine { h with classVars := pragmaClassVars_isClassVars (fun hmem => ?_) h.classVars }
          exact absurd (List.mem_takeWhile_imp hmem) (by decide)
        · next hpragma =>
          split
          · exact h
          · next m after hmethod =>
            refine { h with methods := fun x hx => ?_ }
            rcases List.mem_append.mp hx with hx | hx
            · exact h.methods x hx
            · rw [List.mem_singleton.mp hx]
              refine ⟨c :: rest, after, ?_, ?_, ?_, ?_, hmethod⟩
              · rw [← heq, skip_skip]
              · exact fun h => hclose (Option.some.inj h)
              · intro hbar
                rwa [if_pos (Option.some.inj hbar)] at hivars
              · intro hless
                rw [Bool.and_eq_true, not_and, Bool.not_eq_true] at hpragma
                exact hpragma (decide_eq_true (Option.some.inj hless))

theorem ClassBody.IsRead.readItems {name : List Char} {body : ClassBody} (h : body.IsRead T name)
    (fuel : Nat) (cs : List Char) : (readItems T name fuel body cs).1.IsRead T name := by
  induction fuel generalizing body cs with
  | zero => exact h
  | succ fuel ih =>
    have hstep := h.readItem cs
    rw [ImageStore.readItems]
    split
    · next heq =>
      rw [heq] at hstep
      exact ih hstep _
    · next heq =>
      rw [heq] at hstep
      exact hstep

/-- What any class that the scanner reads is like. -/
structure ParsedClass.IsRead (T : CharTables) (pc : ParsedClass) : Prop where
  name : IsIdentifier T pc.name.toList
  superclass : ∀ s, pc.superclass = some s → IsIdentifier T s.toList ∧ s ≠ "nil"
  instanceVars : IsIvars T pc.instanceVars.toList
  classVars : IsClassVars pc.classVars.toList
  methods : ∀ m ∈ pc.methods, ∃ cs after, IsCapture T pc.name.toList cs m after

theorem readClassHeader_eq_some {cs superclassName newName rest : List Char} :
    readClassHeader T cs = some (superclassName, newName, rest) ↔ ∃ r₁ r₂ r₃,
      readIdentifier T cs = some (superclassName, r₁) ∧ eatStr "subclass:" r₁ = some r₂ ∧
      readIdentifier T r₂ = some (newName, r₃) ∧ skip r₃ = '[' :: rest := by
  unfold readClassHeader
  constructor
  · intro h
    obtain ⟨⟨_, r₁⟩, h₁, h⟩ := Option.bind_eq_some_iff.mp h
    obtain ⟨r₂, h₂, h⟩ := Option.bind_eq_some_iff.mp h
    obtain ⟨⟨_, r₃⟩, h₃, h⟩ := Option.bind_eq_some_iff.mp h
    dsimp only at h
    split at h
    · next hbracket =>
      cases h
      obtain ⟨rest, hrest⟩ := List.head?_eq_some_iff.mp hbracket
      exact ⟨r₁, r₂, r₃, h₁, h₂, h₃, by rw [hrest]; rfl⟩
    · cases h
  · rintro ⟨r₁, r₂, r₃, h₁, h₂, h₃, h₄⟩
    simp only [h₁, h₂, h₃, h₄, Option.bind_eq_bind, Option.bind_some]
    rfl

theorem isRead_of_mem {fuel : Nat} {pending : Option (List Char)} {cs : List Char}
    {pc : ParsedClass} (h : pc ∈ parseClasses T fuel pending cs) : pc.IsRead T := by
  induction fuel generalizing pending cs with
  | zero => cases h
  | succ fuel ih =>
    rw [parseClasses] at h
    split at h
    · cases h
    · split at h
      · exact ih h
      · split at h
        · cases h
        · next superclassName newName rest hheader =>
          obtain ⟨r₁, r₂, r₃, h₁, -, h₃, -⟩ := readClassHeader_eq_some.mp hheader
          have hempty : ClassBody.IsRead T newName ⟨[], [], []⟩ :=
            ⟨⟨[], List.forall_mem_nil _, rfl⟩, ⟨[], List.forall_mem_nil _, rfl⟩, List.forall_mem_nil _⟩
          have hbody := hempty.readItems (rest.length + 1) rest
          rcases List.mem_cons.mp h with rfl | h
          · refine ⟨?_, fun s hs => ?_, ?_, ?_, ?_⟩
            · rw [String.toList_ofList]
              exact (readIdentifier_eq_some.mp h₃).2.1
            · dsimp only at hs
              split at hs
              · cases hs
              · next hnil =>
                cases hs
                rw [String.toList_ofList]
                refine ⟨(readIdentifier_eq_some.mp h₁).2.1, fun heq => hnil ?_⟩
                rw [← heq, String.toList_ofList]
            · rw [String.toList_ofList]
              exact hbody.instanceVars
            · rw [String.toList_ofList]
              exact hbody.classVars
            · intro m hm
              obtain ⟨cs, after, hcapture⟩ := hbody.methods m hm
              refine ⟨cs, after, ?_⟩
              show IsCapture T (String.ofList newName).toList cs m after
              rwa [String.toList_ofList]
          · exact ih h

/-! ## What is written -/

/-- `class_block`. -/
def classBlock (superclass name instanceVars classVars : List Char)
    (methodSources : List (List Char)) (withHeader : Bool) : List Char :=
  superclass ++ " subclass: ".toList ++ name ++ " [\n".toList ++
  (if withHeader && trim instanceVars ≠ [] then
    "    | ".toList ++ trim instanceVars ++ " |\n".toList else []) ++
  (if withHeader && trim classVars ≠ [] then
    "    <classVars: ".toList ++ trim classVars ++ ">\n".toList else []) ++
  methodSources.flatMap (fun src => "    ".toList ++ trimEnd src ++ "\n".toList) ++ "]\n".toList

/-- What follows the variables, after the last line break before it. -/
def methodLines (sources : List (List Char)) : List Char :=
  sources.flatMap (fun src => "    ".toList ++ trimEnd src ++ "\n".toList) ++ "]\n".toList

theorem skip_space {c : Char} (hc : isWhitespace c = true) (cs : List Char) :
    skip (c :: cs) = skip cs := by
  unfold skip
  rw [skipFrom, if_pos hc]

theorem skip_spaces {s : List Char} (hs : s.all isWhitespace = true) (cs : List Char) :
    skip (s ++ cs) = skip cs := by
  induction s with
  | nil => rfl
  | cons c s ih =>
    rw [List.all_cons, Bool.and_eq_true] at hs
    rw [List.cons_append, skip_space hs.1, ih hs.2]

theorem readItem_skip (name : List Char) (body : ClassBody) (cs : List Char) :
    readItem T name body (skip cs) = readItem T name body cs := by
  unfold readItem
  rw [skip_skip]

/-- Where the loop over the class body goes on does not depend on the whitespace before it. -/
theorem readBody_congr {name cs cs' : List Char} (h : skip cs = skip cs') (body : ClassBody) :
    readBody T name body cs = readBody T name body cs' := by
  rw [readBody_eq, readBody_eq, ← readItem_skip, h, readItem_skip]

/-! ## Methods -/

theorem IsCapture.readItem {name cs after : List Char} {m : ParsedMethod}
    (h : IsCapture T name cs m after) (body : ClassBody) :
    readItem T name body cs = ({ body with methods := body.methods ++ [m] }, after, true) := by
  unfold ImageStore.readItem
  rw [h.starts]
  cases cs with
  | nil =>
    obtain ⟨_, _, _, hnil, -⟩ := h.move
    exact absurd hnil.symm (List.append_ne_nil_of_right_ne_nil _ (List.cons_ne_nil _ _))
  | cons c cs =>
    have hclose : c ≠ ']' := fun hc => h.goesOn (congrArg some hc)
    have hivars : (if c = '|' then tryReadIvarList T (c :: cs) else none) = none := by
      split
      · next hbar => exact h.noIvars (congrArg some hbar)
      · rfl
    have hpragma : ¬ (c = '<' && peekIsClassPragma T (c :: cs)) = true := by
      rw [Bool.and_eq_true, decide_eq_true_eq]
      rintro ⟨hless, hpragma⟩
      rw [h.noPragma (congrArg some hless)] at hpragma
      cases hpragma
    dsimp only
    rw [if_neg hclose, hivars]
    dsimp only
    rw [if_neg hpragma, h.method]

/-- The loop only adds to the methods. -/
theorem methods_prefix_readBody (name : List Char) (body : ClassBody) (cs : List Char) :
    body.methods <+: (readBody T name body cs).1.methods := by
  have hitem : ∀ (body : ClassBody) cs,
      body.methods <+: (readItem T name body cs).1.methods := fun body cs => by
    unfold readItem
    split
    · exact List.prefix_rfl
    · split
      · exact List.prefix_rfl
      · split
        · exact List.prefix_rfl
        · split
          · exact List.prefix_rfl
          · split
            · exact List.prefix_rfl
            · exact List.prefix_append _ _
  have hitems : ∀ fuel (body : ClassBody) cs,
      body.methods <+: (readItems T name fuel body cs).1.methods := fun fuel => by
    induction fuel with
    | zero => exact fun _ _ => List.prefix_rfl
    | succ fuel ih =>
      intro body cs
      have hfirst := hitem body cs
      rw [readItems]
      split
      · next heq =>
        rw [heq] at hfirst
        exact hfirst.trans (ih _ _)
      · next heq =>
        rw [heq] at hfirst
        exact hfirst
  exact hitems _ body cs

theorem IsCapture.readBody {name cs after : List Char} {m : ParsedMethod}
    (h : IsCapture T name cs m after) (body : ClassBody) :
    readBody T name body cs =
      ImageStore.readBody T name { body with methods := body.methods ++ [m] } after := by
  rw [readBody_eq, h.readItem]

theorem methodLines_cons {src : List Char} (hsrc : trimEnd src = src) (srcs : List (List Char)) :
    methodLines (src :: srcs) = "    ".toList ++ (src ++ '\n' :: methodLines srcs) := by
  unfold methodLines
  rw [List.flatMap_cons, hsrc]
  simp

theorem IsCapture.trimEnd_source {name cs after : List Char} {m : ParsedMethod}
    (h : IsCapture T name cs m after) : trimEnd m.source.toList = m.source.toList := by
  rw [h.source_eq, trimEnd_trimEnd]

theorem bracket_mem_methodLines (sources : List (List Char)) : ']' ∈ methodLines sources :=
  List.mem_append_right _ List.mem_cons_self

theorem readBody_methodLines_nil (name : List Char) (body : ClassBody) :
    readBody T name body ('\n' :: methodLines []) = (body, ['\n']) := by
  rw [readBody_eq]
  rfl

/-- Captured methods are read back exactly if each of them is closed. -/
theorem readBody_methodLines {name : List Char} {ms : List ParsedMethod}
    (hms : ∀ m ∈ ms, ∃ cs after, IsCapture T name cs m after) (body : ClassBody) :
    ((∀ m ∈ ms, isClosed T name m.source.toList = true) →
      readBody T name body ('\n' :: methodLines (ms.map fun m => m.source.toList)) =
        ({ body with methods := body.methods ++ ms }, ['\n'])) ∧
    ((readBody T name body ('\n' :: methodLines (ms.map fun m => m.source.toList))).1.methods =
      body.methods ++ ms → ∀ m ∈ ms, isClosed T name m.source.toList = true) := by
  induction ms generalizing body with
  | nil =>
    refine ⟨fun _ => ?_, fun _ => List.forall_mem_nil _⟩
    rw [List.map_nil, readBody_methodLines_nil, List.append_nil]
  | cons m ms ih =>
    obtain ⟨cs, after, hcapture⟩ := hms m List.mem_cons_self
    obtain ⟨hread, hopen⟩ := ih (fun x hx => hms x (List.mem_cons_of_mem m hx))
      { body with methods := body.methods ++ [m] }
    dsimp only at hread hopen
    rw [List.append_assoc, List.singleton_append] at hread hopen
    rw [List.map_cons, methodLines_cons hcapture.trimEnd_source]
    generalize hlines : '\n' :: methodLines (ms.map fun m => m.source.toList) = lines at hread hopen
    have hskip := skip_spaces (show ('\n' :: "    ".toList).all isWhitespace = true by decide)
      (m.source.toList ++ lines)
    rw [← List.cons_append, readBody_congr hskip]
    rcases hcapture.cases_source with ⟨hclosed, hagain⟩ | ⟨hclosed, hlonger⟩
    · rw [(hagain lines).readBody]
      refine ⟨fun h => hread fun x hx => h x (List.mem_cons_of_mem m hx), fun h x hx => ?_⟩
      rcases List.mem_cons.mp hx with rfl | hx
      · exact hclosed
      · exact hopen h x hx
    · refine ⟨fun h => ?_, fun h => ?_⟩
      · rw [h m List.mem_cons_self] at hclosed
        cases hclosed
      · obtain ⟨m', after', hcapture', hne⟩ := hlonger lines ⟨']', by
          rw [← hlines]
          exact List.mem_cons_of_mem _ (bracket_mem_methodLines _), by decide⟩
        have hprefix := methods_prefix_readBody (T := T) name
          { body with methods := body.methods ++ [m'] } after'
        rw [← hcapture'.readBody, h] at hprefix
        rw [List.prefix_append_right_inj, List.cons_prefix_cons] at hprefix
        exact absurd (congrArg ParsedMethod.source hprefix.1) hne

/-! ## Variables -/

theorem unwords_append {v : List Char} (vs : List (List Char)) (s : List Char) :
    ∃ t, unwords (v :: vs) ++ ' ' :: s = v ++ ' ' :: t ∧
      skip (' ' :: t) = skip (unwords vs ++ ' ' :: s) := by
  cases vs with
  | nil => exact ⟨s, rfl, rfl⟩
  | cons w vs =>
    refine ⟨unwords (w :: vs) ++ ' ' :: s, ?_, skip_space (by decide) _⟩
    rw [unwords]
    · rw [List.append_assoc, List.cons_append]
    · exact List.cons_ne_nil _ _

theorem length_le_length_unwords {ws : List (List Char)} (h : ∀ w ∈ ws, IsWord w) :
    ws.length ≤ (unwords ws).length := by
  induction ws with
  | nil => exact Nat.le_refl 0
  | cons w ws ih =>
    have hws := ih fun x hx => h x (List.mem_cons_of_mem w hx)
    cases ws with
    | nil => exact List.length_pos_iff.mpr (h w List.mem_cons_self).1
    | cons w' ws =>
      show (w' :: ws).length + 1 ≤ (unwords (w :: w' :: ws)).length
      rw [unwords, List.length_append]
      · exact (Nat.succ_le_succ hws).trans (Nat.le_add_left _ _)
      · exact List.cons_ne_nil _ _

theorem mem_unwords {c : Char} {ws : List (List Char)} (h : c ∈ unwords ws) :
    c = ' ' ∨ ∃ w ∈ ws, c ∈ w := by
  induction ws with
  | nil => cases h
  | cons w ws ih =>
    have hlater (hc : c ∈ unwords ws) : c = ' ' ∨ ∃ x ∈ w :: ws, c ∈ x :=
      (ih hc).imp_right fun ⟨x, hx, hc⟩ => ⟨x, List.mem_cons_of_mem w hx, hc⟩
    cases ws with
    | nil => exact .inr ⟨w, List.mem_cons_self, h⟩
    | cons w' ws =>
      rcases List.mem_append.mp h with hc | hc
      · exact .inr ⟨w, List.mem_cons_self, hc⟩
      · exact (List.mem_cons.mp hc).elim .inl hlater

theorem isIdentifier_of_alpha {w : List Char} (hne : w ≠ [])
    (h : (w.all fun c => c.toNat < 128 && c.isAlpha) = true) : IsIdentifier T w := by
  have hstart : ∀ c ∈ w, isIdentStart T c = true := fun c hc => by
    have halpha := List.all_eq_true.mp h c hc
    rw [Bool.and_eq_true, decide_eq_true_eq] at halpha
    unfold isIdentStart
    rw [(T.ascii c halpha.1).1, halpha.2, Bool.true_or]
  obtain ⟨c, w, rfl⟩ := List.exists_cons_of_ne_nil hne
  exact ⟨hstart c List.mem_cons_self, fun x hx => isIdentCont_of_start (hstart x hx)⟩

theorem readIdentifier_append {w : List Char} (hw : IsIdentifier T w) {c : Char}
    (hc : isIdentCont T c = false) (cs : List Char) :
    readIdentifier T (w ++ c :: cs) = some (w, c :: cs) :=
  readIdentifier_eq_some.mpr ⟨skip_identifier hw _, hw, hc⟩

theorem skip_bar (rest : List Char) : skip ('|' :: rest) = '|' :: rest := skip_binary (by decide) rest

theorem identCont_space : isIdentCont T ' ' = false := by
  rw [isIdentCont_ascii (by decide)]
  decide

theorem readIvars_unwords {vars : List (List Char)} (hvars : ∀ v ∈ vars, IsIdentifier T v)
    {fuel : Nat} (hfuel : vars.length < fuel) {cs rest : List Char}
    (hcs : skip cs = skip (unwords vars ++ ' ' :: '|' :: rest)) (acc : List (List Char)) :
    readIvars T fuel acc cs = some (unwords (acc ++ vars), rest) := by
  induction vars generalizing fuel cs acc with
  | nil =>
    obtain ⟨fuel, rfl⟩ := Nat.exists_eq_add_one.mpr hfuel
    have hbar : skip cs = '|' :: rest := hcs.trans ((skip_space (by decide) _).trans (skip_bar rest))
    rw [readIvars, hbar, List.append_nil]
    rfl
  | cons v vars ih =>
    obtain ⟨fuel, rfl⟩ := Nat.exists_eq_add_one.mpr (Nat.zero_lt_of_lt hfuel)
    have hv := hvars v List.mem_cons_self
    obtain ⟨t, ht, hskip⟩ := unwords_append (v := v) vars ('|' :: rest)
    rw [ht, skip_identifier hv] at hcs
    have hident : readIdentifier T (skip cs) = some (v, ' ' :: t) := by
      rw [readIdentifier_skip]
      exact readIdentifier_eq_some.mpr ⟨hcs, hv, identCont_space⟩
    have hbar : ¬ (skip cs).head? = some '|' := by
      obtain ⟨c, w, rfl⟩ := List.exists_cons_of_ne_nil hv.ne_nil
      rw [hcs]
      intro h
      have := hv.2 c List.mem_cons_self
      rw [Option.some.inj h, isIdentCont_ascii (by decide)] at this
      exact absurd this (by decide)
    rw [readIvars, if_neg hbar, hident]
    dsimp only
    rw [ih (fun x hx => hvars x (List.mem_cons_of_mem v hx)) (Nat.lt_of_succ_lt_succ hfuel) hskip,
      List.append_assoc, List.singleton_append]

def ivarsLine (s : List Char) : List Char :=
  if trim s ≠ [] then "    | ".toList ++ trim s ++ " |\n".toList else []

def classVarsLine (s : List Char) : List Char :=
  if trim s ≠ [] then "    <classVars: ".toList ++ trim s ++ ">\n".toList else []

theorem readBody_ivarsLine {s : List Char} (hs : IsIvars T s) (name classVars rest : List Char)
    (methods : List ParsedMethod) :
    readBody T name ⟨[], classVars, methods⟩ ('\n' :: (ivarsLine s ++ rest)) =
      readBody T name ⟨s, classVars, methods⟩ ('\n' :: rest) := by
  obtain ⟨vars, hvars, rfl⟩ := hs
  have hwords : ∀ v ∈ vars, IsWord v := fun v hv => (hvars v hv).isWord
  unfold ivarsLine
  rw [trim_unwords hwords]
  cases vars with
  | nil => rfl
  | cons v vars =>
    rw [if_pos (unwords_ne_nil (hwords v List.mem_cons_self).1 vars)]
    generalize hu : unwords (v :: vars) = u
    have htext : '\n' :: ("    | ".toList ++ u ++ " |\n".toList ++ rest) =
        ('\n' :: "    ".toList) ++ '|' :: ' ' :: (u ++ ' ' :: '|' :: '\n' :: rest) := by simp
    have htry : tryReadIvarList T ('|' :: ' ' :: (u ++ ' ' :: '|' :: '\n' :: rest)) =
        some (u, '\n' :: rest) := by
      have hlength := length_le_length_unwords hwords
      refine (readIvars_unwords hvars ?_ ?_ []).trans (by rw [List.nil_append, hu])
      · refine Nat.lt_succ_of_le (Nat.le_succ_of_le ?_)
        rw [hu] at hlength
        rw [List.length_append]
        exact hlength.trans (Nat.le_add_right _ _)
      · rw [hu]
        exact skip_space (by decide) _
    rw [htext, readBody_congr (skip_spaces (by decide) _), readBody_eq]
    unfold readItem
    rw [skip_bar]
    dsimp only
    rw [if_neg (by decide), if_pos rfl, htry]

theorem readBody_classVarsLine {s : List Char} (hs : IsClassVars s)
    (name instanceVars rest : List Char) (methods : List ParsedMethod) :
    readBody T name ⟨instanceVars, [], methods⟩ ('\n' :: (classVarsLine s ++ rest)) =
      readBody T name ⟨instanceVars, s, methods⟩ ('\n' :: rest) := by
  obtain ⟨words, hall, rfl⟩ := hs
  have hwords : ∀ w ∈ words, IsWord w := fun w hw => (hall w hw).1
  unfold classVarsLine
  rw [trim_unwords hwords]
  cases words with
  | nil => rfl
  | cons w words =>
    have hne := unwords_ne_nil (hwords w List.mem_cons_self).1 words
    rw [if_pos hne]
    have htrim := trimEnd_unwords hwords
    have hsplit := congrArg unwords (splitWhitespace_unwords hwords)
    have hbracket : '>' ∉ unwords (w :: words) := fun hmem =>
      (mem_unwords hmem).elim (absurd · (by decide)) fun ⟨x, hx, hc⟩ => (hall x hx).2 hc
    generalize unwords (w :: words) = u at *
    have htext : '\n' :: ("    <classVars: ".toList ++ u ++ ">\n".toList ++ rest) =
        ('\n' :: "    ".toList) ++
          '<' :: ("classVars".toList ++ ':' :: (' ' :: u ++ '>' :: '\n' :: rest)) := by simp
    have hpragma : peekIsClassPragma T
        ('<' :: ("classVars".toList ++ ':' :: (' ' :: u ++ '>' :: '\n' :: rest))) = true := by
      have hident : IsIdentifier T "classVars".toList := isIdentifier_of_alpha (by decide) (by decide)
      have hcolon : isIdentCont T ':' = false := by
        rw [isIdentCont_ascii (by decide)]
        decide
      unfold peekIsClassPragma
      rw [List.drop_one, List.tail_cons, readIdentifier_append hident hcolon]
      dsimp only
      rw [skip_cons (by decide) (by decide)]
      rfl
    have hread : readAnglePragma
        ('<' :: ("classVars".toList ++ ':' :: (' ' :: u ++ '>' :: '\n' :: rest))) =
        ("classVars".toList ++ ':' :: ' ' :: u, '\n' :: rest) := by
      have hassoc : "classVars".toList ++ ':' :: (' ' :: u ++ '>' :: '\n' :: rest) =
          ("classVars: ".toList ++ u) ++ '>' :: '\n' :: rest := by simp
      have hmark : ∀ c ∈ "classVars: ".toList ++ u, decide (c ≠ '>') = true := fun c hc => by
        rw [decide_eq_true_eq]
        rintro rfl
        rcases List.mem_append.mp hc with hc | hc
        · exact absurd hc (by decide)
        · exact hbracket hc
      unfold readAnglePragma
      rw [List.drop_one, List.tail_cons, hassoc, takeWhile_append_mark (by decide),
        dropWhile_append_mark (by decide), List.takeWhile_eq_self_iff.mpr hmark,
        List.dropWhile_eq_nil_iff.mpr hmark]
      simp
    have hvars : pragmaClassVars ("classVars".toList ++ ':' :: ' ' :: u) [] = u := by
      have htrimmed : trim ("classVars".toList ++ ':' :: ' ' :: u) =
          "classVars:".toList ++ ' ' :: u :=
        (trim_cons (by decide) _).trans (trimEnd_append hne htrim "classVars: ".toList)
      unfold pragmaClassVars
      rw [htrimmed, if_pos (List.prefix_append _ _), List.drop_left,
        splitWhitespace_cons_space (by decide), hsplit]
    rw [htext, readBody_congr (skip_spaces (by decide) _), readBody_eq]
    unfold readItem
    rw [skip_binary (by decide)]
    dsimp only
    rw [if_neg (by decide), if_neg (by decide)]
    dsimp only
    rw [hpragma, hread, hvars]
    rfl

/-! ## The class -/

theorem classBlock_eq (superclass name instanceVars classVars : List Char)
    (sources : List (List Char)) :
    classBlock superclass name instanceVars classVars sources true =
      superclass ++ ' ' :: ("subclass:".toList ++ ' ' :: (name ++ ' ' :: '[' ::
        ('\n' :: (ivarsLine instanceVars ++ (classVarsLine classVars ++ methodLines sources))))) := by
  have hif : ∀ s t : List Char,
      (if (true && decide (s ≠ [])) = true then t else []) = if s ≠ [] then t else [] := fun s t => by
    rw [Bool.true_and]
    exact if_congr decide_eq_true_iff rfl rfl
  have hsubclass : " subclass: ".toList = ' ' :: ("subclass:".toList ++ [' ']) := rfl
  have hopen : " [\n".toList = [' ', '[', '\n'] := rfl
  unfold classBlock methodLines
  rw [hif, hif, hsubclass, hopen]
  simp only [List.append_assoc, List.cons_append, List.nil_append]
  rfl

theorem readClassHeader_append {superclass : List Char} (hsuper : IsIdentifier T superclass)
    {s superclass' name' rest' : List Char}
    (h : readClassHeader T (superclass ++ ' ' :: s) = some (superclass', name', rest')) :
    superclass' = superclass := by
  obtain ⟨r₁, -, -, h₁, -⟩ := readClassHeader_eq_some.mp h
  rw [readIdentifier_append hsuper identCont_space] at h₁
  exact (Prod.mk.inj (Option.some.inj h₁)).1.symm

theorem readClassHeader_classBlock {superclass name : List Char}
    (hsuper : IsIdentifier T superclass) (hname : IsIdentifier T name) (rest : List Char) :
    readClassHeader T (superclass ++ ' ' :: ("subclass:".toList ++ ' ' :: (name ++ ' ' :: '[' :: rest))) =
      some (superclass, name, rest) := by
  refine readClassHeader_eq_some.mpr ⟨_, ' ' :: (name ++ ' ' :: '[' :: rest), ' ' :: '[' :: rest,
    readIdentifier_append hsuper identCont_space _, eatStr_eq_some.mpr ?_,
    readIdentifier_eq_some.mpr ⟨?_, hname, identCont_space⟩, ?_⟩
  · rw [skip_space (by decide)]
    exact skip_cons (by decide) (by decide) _
  · rw [skip_space (by decide), skip_identifier hname]
  · rw [skip_space (by decide), skip_bracket]

/-- Parsing a text that begins with an identifier. -/
theorem parseClasses_identifier {superclass : List Char} (hsuper : IsIdentifier T superclass)
    (fuel : Nat) (pending : Option (List Char)) (s : List Char) :
    parseClasses T (fuel + 1) pending (superclass ++ s) =
      match readClassHeader T (superclass ++ s) with
      | none => []
      | some (superclassName, newName, rest) =>
        let (body, after) := readBody T newName ⟨[], [], []⟩ rest
        { name := String.ofList newName
          superclass :=
            if superclassName = "nil".toList then none else some (String.ofList superclassName)
          instanceVars := String.ofList body.instanceVars
          classVars := String.ofList body.classVars
          comment := String.ofList (pending.getD [])
          methods := body.methods } :: parseClasses T fuel none after := by
  obtain ⟨c, w, rfl⟩ := List.exists_cons_of_ne_nil hsuper.ne_nil
  have hspace : isWhitespace c = false := hsuper.isWord.2 c List.mem_cons_self
  have hquote : c ≠ '"' := by
    rintro rfl
    have := hsuper.2 '"' List.mem_cons_self
    rw [isIdentCont_ascii (by decide)] at this
    exact absurd this (by decide)
  have htrim : trimStart (c :: w ++ s) = c :: (w ++ s) := dropWhile_cons_neg hspace
  rw [parseClasses, htrim]
  dsimp only
  rw [if_neg hquote]
  rfl

theorem parseClasses_newline (fuel : Nat) (pending : Option (List Char)) :
    parseClasses T fuel pending ['\n'] = [] := by
  cases fuel <;> rfl

/-- The class that is read from a rendered one, up to what becomes of the methods. -/
theorem parse_classBlock {superclass name instanceVars classVars : List Char}
    (hsuper : IsIdentifier T superclass) (hname : IsIdentifier T name)
    (hivars : IsIvars T instanceVars) (hclassVars : IsClassVars classVars)
    (sources : List (List Char)) {body : ClassBody} {after : List Char}
    (hbody : readBody T name ⟨instanceVars, classVars, []⟩ ('\n' :: methodLines sources) =
      (body, after)) :
    ∃ fuel, parseMstSource T
        (String.ofList (classBlock superclass name instanceVars classVars sources true)) =
      { name := String.ofList name
        superclass :=
          if superclass = "nil".toList then none else some (String.ofList superclass)
        instanceVars := String.ofList body.instanceVars
        classVars := String.ofList body.classVars
        comment := ""
        methods := body.methods } :: parseClasses T fuel none after := by
  refine ⟨(classBlock superclass name instanceVars classVars sources true).length, ?_⟩
  unfold parseMstSource
  rw [String.toList_ofList]
  generalize (classBlock superclass name instanceVars classVars sources true).length = fuel
  rw [classBlock_eq, parseClasses_identifier hsuper, readClassHeader_classBlock hsuper hname]
  dsimp only
  rw [readBody_ivarsLine hivars, readBody_classVarsLine hclassVars, hbody]
  rfl

end WinVm.ImageStore
