import WinVm.Frontend.Following

/-!
# Detecting a continuation

`parse_one_top_item` on a text, and on a prefix of it that ends at a line break: pragmas,
methods and classes follow as expressions do (`exprsFollow`). So the parse of the prefix of a
text that parses succeeds, or fails with the flag for the end of input, and `cmd_repl`, which
keeps buffering while the flag is set, rejects none of the lines of the text.

Result: `prefix_continues`.
-/

namespace WinVm.Frontend.Parser

variable {α β : Type} {tail : List Char} {p p' q q' : Parser}

section

variable [F64]

/-! ## Pragmas -/

theorem fails_skipPragmaBody {n : Nat} (enough : 1 ≤ n) (depth : Nat) : Fails (skipPragmaBody n depth) := by
  obtain ⟨n, rfl⟩ : ∃ k, n = k + 1 := ⟨n - 1, by omega⟩
  rw [skipPragmaBody]
  exact fails_curTok (fails_fail _)

theorem follows_skipPragmaBody {n m : Nat} (le : n + 1 ≤ m) (depth : Nat) :
    Follows tail (skipPragmaBody n depth) (skipPragmaBody m depth) := by
  induction n generalizing m depth with
  | zero => exact follows_outOfFuel
  | succ n ih =>
    obtain ⟨m, rfl⟩ : ∃ k, m = k + 1 := ⟨m - 1, by omega⟩
    have fails : ∀ depth, Closes (skipPragmaBody m depth) := fun depth =>
      (fails_skipPragmaBody (by omega) depth).closes
    rw [skipPragmaBody, skipPragmaBody]
    refine follows_curTok fun tok => ?_
    split
    · exact follows_next (ih (by omega) _) (fails _)
    · split
      · exact (follows_setPragmaMode false).bind (fun _ => follows_bump) fun _ => closes_bump
      · exact follows_next (ih (by omega) _) (fails _)
    · exact follows_fail
    · exact follows_next (ih (by omega) _) (fails _)

theorem fails_expectFfiSym (ctx : String) : Fails (expectFfiSym ctx) := fails_curTok (fails_fail _)

theorem follows_expectFfiSym (ctx : String) : Follows tail (expectFfiSym ctx) (expectFfiSym ctx) := by
  refine follows_curTok fun tok => ?_
  split
  · exact follows_next (follows_pure _) (closes_pure _)
  · exact follows_fail

theorem fails_expectFfiBool (ctx : String) : Fails (expectFfiBool ctx) := fails_curTok (fails_fail _)

theorem follows_expectFfiBool (ctx : String) : Follows tail (expectFfiBool ctx) (expectFfiBool ctx) := by
  refine follows_curTok fun tok => ?_
  split
  · exact follows_next (follows_pure _) (closes_pure _)
  · exact follows_next (follows_pure _) (closes_pure _)
  · exact follows_fail

omit [F64] in
theorem closes_mapM {γ : Type} {f : γ → Parse β} (closes : ∀ c, Closes (f c)) (l : List γ) :
    Closes (l.mapM f) := by
  induction l with
  | nil =>
    rw [List.mapM_nil]
    exact closes_pure _
  | cons c l ih =>
    rw [List.mapM_cons]
    exact (closes c).bind fun _ => ih.bind fun _ => closes_pure _

omit [F64] in
/-- A check of every element. -/
theorem follows_mapM {γ : Type} {f : γ → Parse β} (each : ∀ c, Follows tail (f c) (f c))
    (closes : ∀ c, Closes (f c)) (l : List γ) : Follows tail (l.mapM f) (l.mapM f) := by
  induction l with
  | nil =>
    rw [List.mapM_nil]
    exact follows_pure _
  | cons c l ih =>
    rw [List.mapM_cons]
    exact (each c).bind (fun _ => ih.bind (fun _ => follows_pure _) fun _ => closes_pure _)
      fun _ => (closes_mapM closes l).bind fun _ => closes_pure _

theorem fails_expectFfiSymArray (n : Nat) (ctx : String) : Fails (expectFfiSymArray n ctx) := by
  refine fails_curTok ?_
  rw [if_pos (by simp)]
  exact fails_curSpan fun span => (fails_error span _).bind

theorem follows_expectFfiSymArray {n m : Nat} (le : n + 10 ≤ m) (ctx : String) :
    Follows tail (expectFfiSymArray n ctx) (expectFfiSymArray m ctx) := by
  refine follows_curTok fun tok => follows_guardHere (follows_curSpan fun span => ?_)
  refine (arraysFollow le).literal.bind (fun lit => ?_) fun lit => ?_
  · cases lit with
    | array elems =>
      refine follows_mapM (fun elem => ?_) (fun elem => ?_) elems
      · cases elem <;> first | exact follows_pure _ | exact follows_error
      · cases elem <;> first | exact closes_pure _ | exact (fails_error _ _).closes
    | _ => exact follows_pure _
  · cases lit with
    | array elems =>
      refine closes_mapM (fun elem => ?_) elems
      cases elem <;> first | exact closes_pure _ | exact (fails_error _ _).closes
    | _ => exact closes_pure _

omit [F64] in
theorem follows_dupCheck (start : Span) (slot : Option α) (name : String) :
    Follows tail (dupCheck start slot name) (dupCheck start slot name) := by
  unfold dupCheck
  split
  · exact follows_error
  · exact follows_pure ()

omit [F64] in
theorem closes_dupCheck (start : Span) (slot : Option α) (name : String) :
    Closes (dupCheck start slot name) := by
  unfold dupCheck
  split
  · exact (fails_error start _).closes
  · exact closes_pure ()

theorem fails_ffiParts {n : Nat} (enough : 1 ≤ n) (start : Span) (parts : FfiParts) :
    Fails (parseFfiParts n start parts) := by
  obtain ⟨n, rfl⟩ : ∃ k, n = k + 1 := ⟨n - 1, by omega⟩
  rw [parseFfiParts]
  exact fails_curTok (fails_fail _)

omit [F64] in
/-- A part of an FFI pragma: a value, once. -/
theorem follows_part {slot : Option α} {start : Span} {k : String} {x y : Parse β} {set : β → FfiParts}
    {f g : FfiParts → Parse FfiParts} (value : Follows tail x y) (fails : Fails y)
    (later : ∀ parts, Follows tail (f parts) (g parts)) (closes : ∀ parts, Closes (g parts)) :
    Follows tail
      (dupCheck start slot k >>= fun _ => x >>= fun v => pure (set v) >>= f)
      (dupCheck start slot k >>= fun _ => y >>= fun v => pure (set v) >>= g) :=
  (follows_dupCheck start slot k).bind
    (fun _ => value.bind (fun _ => (follows_pure _).bind later closes) fun _ => (closes_pure _).bind closes)
    fun _ => fails.bind.closes

omit [F64] in
theorem closes_part {slot : Option α} {start : Span} {k : String} {y : Parse β} {set : β → FfiParts}
    {g : FfiParts → Parse FfiParts} (fails : Fails y) :
    Closes (dupCheck start slot k >>= fun _ => y >>= fun v => pure (set v) >>= g) :=
  (closes_dupCheck start slot k).bind fun _ => fails.bind.closes

theorem follows_ffiParts {n m : Nat} (le : n + 10 ≤ m) (start : Span) (parts : FfiParts) :
    Follows tail (parseFfiParts n start parts) (parseFfiParts m start parts) := by
  induction n generalizing m parts with
  | zero => exact follows_outOfFuel
  | succ n ih =>
    obtain ⟨m, rfl⟩ : ∃ k, m = k + 1 := ⟨m - 1, by omega⟩
    have later := fun parts => @ih m (by omega) parts
    have closes : ∀ parts, Closes (parseFfiParts m start parts) := fun parts =>
      (fails_ffiParts (by omega) start parts).closes
    rw [parseFfiParts, parseFfiParts]
    refine follows_curTok fun tok => ?_
    split
    · exact follows_pure _
    · refine follows_next ?_ ?_
      · dsimp only
        split
        · exact follows_part (follows_expectFfiSym _) (fails_expectFfiSym _) later closes
        · exact follows_part (follows_expectFfiSym _) (fails_expectFfiSym _) later closes
        · exact follows_part (follows_expectFfiSym _) (fails_expectFfiSym _) later closes
        · exact follows_part (follows_expectFfiBool _) (fails_expectFfiBool _) later closes
        · exact follows_part (follows_expectFfiSym _) (fails_expectFfiSym _) later closes
        · exact follows_part (follows_expectFfiSymArray (by omega) _) (fails_expectFfiSymArray _ _)
            later closes
        · exact follows_error_bind
      · dsimp only
        split
        · exact closes_part (fails_expectFfiSym _)
        · exact closes_part (fails_expectFfiSym _)
        · exact closes_part (fails_expectFfiSym _)
        · exact closes_part (fails_expectFfiBool _)
        · exact closes_part (fails_expectFfiSym _)
        · exact closes_part (fails_expectFfiSymArray _ _)
        · exact (fails_error _ _).bind.closes
    · exact follows_fail

/-- The end of a pragma: the mode of the lexer changes before the token that closes it. -/
theorem closes_pragmaEnd {f : Unit → Parse β} (closes : Closes (f ())) :
    Closes (setPragmaMode false >>= fun _ => bump >>= f) :=
  (closes_setPragmaMode false).bind fun _ => closes_next closes

theorem follows_pragmaEnd {f g : Unit → Parse β} (later : Follows tail (f ()) (g ()))
    (closes : Closes (g ())) :
    Follows tail (setPragmaMode false >>= fun _ => bump >>= f) (setPragmaMode false >>= fun _ => bump >>= g) :=
  (follows_setPragmaMode false).bind (fun _ => follows_next later closes) fun _ => closes_next closes

theorem follows_ffiPragmaBody {n m : Nat} (le : n + 10 ≤ m) (start : Span) :
    Follows tail (parseFfiPragmaBody n start) (parseFfiPragmaBody m start) := by
  refine (follows_ffiParts le start {}).bind (fun parts => follows_pragmaEnd ?_ ?_)
    fun parts => closes_pragmaEnd ?_
  · dsimp only
    split
    · exact follows_error
    · split
      · exact follows_pure _
      · split
        · exact follows_error
        · exact follows_pure _
      · exact follows_error
      · exact follows_error
  all_goals
    dsimp only
    split
    · exact (fails_error _ _).closes
    · split
      · exact closes_pure _
      · split
        · exact (fails_error _ _).closes
        · exact closes_pure _
      · exact (fails_error _ _).closes
      · exact (fails_error _ _).closes

theorem fails_ffiPragmaBody {n : Nat} (enough : 1 ≤ n) (start : Span) : Fails (parseFfiPragmaBody n start) :=
  (fails_ffiParts enough start {}).bind

theorem fails_primitiveId (start : Span) : Fails (parsePrimitiveId start) :=
  fails_curTok (fails_error start _)

theorem follows_primitiveId (start : Span) :
    Follows tail (parsePrimitiveId start) (parsePrimitiveId start) := by
  refine follows_curTok fun tok => ?_
  split
  · refine follows_next (follows_curTok fun tok => follows_guard ?_) (closes_curTok (closes_guard ?_))
    · exact follows_pragmaEnd (follows_guard (follows_guard (follows_pure _)))
        (closes_guard (closes_guard (closes_pure _)))
    · exact closes_pragmaEnd (closes_guard (closes_guard (closes_pure _)))
  · exact follows_error

theorem closes_skip {n : Nat} (enough : 1 ≤ n) (a : α) : Closes (skipPragmaBody n 1 >>= fun _ => pure a) :=
  (fails_skipPragmaBody enough 1).bind.closes

theorem follows_methodPragma {n m : Nat} (le : n + 10 ≤ m) :
    Follows tail (parseMethodPragma n) (parseMethodPragma m) := by
  refine follows_curSpan fun start => (follows_setPragmaMode true).bind (fun _ => follows_next
    (follows_curTok fun tok => ?_) (closes_curTok ?_)) fun _ => closes_next (closes_curTok ?_)
  · split
    · refine follows_next (follows_curTok fun tok => ?_) (closes_curTok ?_)
      · split
        · exact follows_next ((follows_ffiPragmaBody le start).bind (fun _ => follows_pure _)
            fun _ => closes_pure _) (fails_ffiPragmaBody (by omega) start).bind.closes
        · exact (follows_primitiveId start).bind (fun _ => follows_pure _) fun _ => closes_pure _
      · rw [if_neg (by simp)]
        exact (fails_primitiveId start).bind.closes
    · exact (follows_skipPragmaBody (by omega) 1).bind (fun _ => follows_pure _) fun _ => closes_pure _
  · rw [if_neg (by simp)]
    exact closes_skip (by omega) _
  · rw [if_neg (by simp)]
    exact closes_skip (by omega) _

theorem closes_idents {n : Nat} (enough : 1 ≤ n) : Closes (parseIdents n) := by
  obtain ⟨n, rfl⟩ : ∃ k, n = k + 1 := ⟨n - 1, by omega⟩
  rw [parseIdents]
  exact closes_curTok (closes_pure _)

theorem follows_idents {n m : Nat} (le : n + 1 ≤ m) : Follows tail (parseIdents n) (parseIdents m) := by
  induction n generalizing m with
  | zero => exact follows_outOfFuel
  | succ n ih =>
    obtain ⟨m, rfl⟩ : ∃ k, m = k + 1 := ⟨m - 1, by omega⟩
    rw [parseIdents, parseIdents]
    refine follows_curTok fun tok => ?_
    split
    · exact follows_next ((ih (by omega)).bind (fun _ => follows_pure _) fun _ => closes_pure _)
        ((closes_idents (by omega)).bind fun _ => closes_pure _)
    · exact follows_pure _

theorem follows_classPragma {n m : Nat} (le : n + 10 ≤ m) :
    Follows tail (parseClassPragma n) (parseClassPragma m) := by
  have idents : ∀ start, Closes (do
      let names ← parseIdents m
      if (← curTok) = .binarySel ">" then
        setPragmaMode false
        bump
        return ClassPragma.classVars names
      error start "malformed <classVars:> pragma") := by
    refine fun start => (closes_idents (by omega)).bind fun names => closes_curTok ?_
    rw [if_neg (by simp)]
    exact (fails_error start _).closes
  refine follows_curSpan fun start => (follows_setPragmaMode true).bind (fun _ => follows_next
    (follows_curTok fun tok => ?_) (closes_curTok ?_)) fun _ => closes_next (closes_curTok ?_)
  · split
    · refine follows_next (follows_curTok fun tok => ?_) (closes_curTok (fails_error start _).closes)
      split
      · refine follows_next (follows_curTok fun tok => ?_) (closes_curTok ?_)
        · split
          · refine follows_pragmaEnd ?_ ?_
            · dsimp only
              split
              · exact follows_pure _
              · exact follows_pure _
              · exact follows_error
            · dsimp only
              split
              · exact closes_pure _
              · exact closes_pure _
              · exact (fails_error _ _).closes
          · exact follows_error
        · rw [if_neg (by simp)]
          exact (fails_error start _).closes
      · exact follows_error
    · refine follows_curTok fun tok => ?_
      split
      · refine follows_next ((follows_idents (by omega)).bind (fun names => follows_curTok fun tok => ?_)
          fun names => closes_curTok ?_) (idents start)
        · split
          · exact follows_pragmaEnd (follows_pure _) (closes_pure _)
          · exact follows_error
        · rw [if_neg (by simp)]
          exact (fails_error start _).closes
      · exact (follows_skipPragmaBody (by omega) 1).bind (fun _ => follows_pure _) fun _ => closes_pure _
  all_goals
    rw [if_neg (by simp)]
    refine closes_curTok ?_
    rw [if_neg (by simp)]
    exact closes_skip (by omega) _

/-! ## Methods and classes -/

theorem fails_param (msg : String) : Fails (parseParam msg) :=
  fails_curSpan fun _ => (fails_expectIdent msg).bind

theorem follows_param (msg : String) : Follows tail (parseParam msg) (parseParam msg) :=
  follows_curSpan fun span => (follows_expectIdent msg).bind
    (fun name => (follows_checkNotReserved span name).bind (fun _ => follows_pure _) fun _ => closes_pure _)
    fun name => (closes_checkNotReserved span name).bind fun _ => closes_pure _

theorem closes_keywordPattern {n : Nat} (enough : 1 ≤ n) : Closes (parseKeywordPattern n) := by
  obtain ⟨n, rfl⟩ : ∃ k, n = k + 1 := ⟨n - 1, by omega⟩
  rw [parseKeywordPattern]
  exact closes_curTok (closes_pure _)

theorem follows_keywordPattern {n m : Nat} (le : n + 1 ≤ m) :
    Follows tail (parseKeywordPattern n) (parseKeywordPattern m) := by
  induction n generalizing m with
  | zero => exact follows_outOfFuel
  | succ n ih =>
    obtain ⟨m, rfl⟩ : ∃ k, m = k + 1 := ⟨m - 1, by omega⟩
    rw [parseKeywordPattern, parseKeywordPattern]
    refine follows_curTok fun tok => ?_
    split
    · refine follows_next ((follows_param _).bind (fun param => ?_) fun param => ?_)
        (fails_param _).bind.closes
      · exact (ih (by omega)).bind (fun _ => follows_pure _) fun _ => closes_pure _
      · exact (closes_keywordPattern (by omega)).bind fun _ => closes_pure _
    · exact follows_pure _

theorem fails_pattern (n : Nat) : Fails (parsePattern n) := fails_curTok (fails_fail _)

theorem follows_pattern {n m : Nat} (le : n + 1 ≤ m) :
    Follows tail (parsePattern n) (parsePattern m) := by
  refine follows_curTok fun tok => ?_
  split
  · exact follows_next (follows_pure _) (closes_pure _)
  · exact follows_next ((follows_param _).bind (fun _ => follows_pure _) fun _ => closes_pure _)
      (fails_param _).bind.closes
  · exact follows_next ((follows_param _).bind (fun _ => follows_pure _) fun _ => closes_pure _)
      (fails_param _).bind.closes
  · exact follows_keywordPattern le
  · exact follows_fail

theorem closes_methodPragmas {n : Nat} (enough : 1 ≤ n) (primitive : Option (BitVec 16))
    (ffi : Option FfiPragma) : Closes (parseMethodPragmas n primitive ffi) := by
  obtain ⟨n, rfl⟩ : ∃ k, n = k + 1 := ⟨n - 1, by omega⟩
  rw [parseMethodPragmas]
  refine closes_curTok ?_
  rw [if_pos (by simp)]
  exact closes_pure _

theorem follows_methodPragmas {n m : Nat} (le : n + 10 ≤ m) (primitive : Option (BitVec 16))
    (ffi : Option FfiPragma) :
    Follows tail (parseMethodPragmas n primitive ffi) (parseMethodPragmas m primitive ffi) := by
  induction n generalizing m primitive ffi with
  | zero => exact follows_outOfFuel
  | succ n ih =>
    obtain ⟨m, rfl⟩ : ∃ k, m = k + 1 := ⟨m - 1, by omega⟩
    have closes := fun primitive ffi => closes_methodPragmas (n := m) (by omega) primitive ffi
    rw [parseMethodPragmas, parseMethodPragmas]
    refine follows_curTok fun tok => ?_
    split
    · exact follows_pure _
    · refine follows_curSpan fun span => (follows_methodPragma (by omega)).bind (fun pragma => ?_)
        fun pragma => ?_
      · dsimp only
        split
        · exact follows_guard (ih (by omega) _ _)
        · exact ih (by omega) _ _
      · dsimp only
        split
        · exact closes_guard (closes _ _)
        · exact closes _ _

theorem closes_methodRest {n : Nat} (enough : 1 ≤ n) (selector : String) (params : List String)
    (classSide : Bool) (span : Span) (closeMsg : String) :
    Closes (parseMethodRest n selector params classSide span closeMsg) :=
  (closes_methodPragmas enough none none).bind fun _ => (closes_optionalTemps n).bind fun _ =>
    (closes_statements enough).bind fun _ => (fails_expect (by simp) _).bind.closes

theorem follows_methodRest {n m : Nat} (le : n + 10 ≤ m) (selector : String) (params : List String)
    (classSide : Bool) (span : Span) (closeMsg : String) :
    Follows tail (parseMethodRest n selector params classSide span closeMsg)
      (parseMethodRest m selector params classSide span closeMsg) := by
  have close : Fails (expect .rBracket closeMsg) := fails_expect (by simp) _
  refine (follows_methodPragmas le none none).bind (fun pragmas => (follows_optionalTemps (by omega)).bind
    (fun temps => (exprsFollow le).statements.bind (fun body => ?_) fun body => close.bind.closes)
    fun temps => ?_) fun pragmas => ?_
  · exact (follows_expect _ _).bind (fun _ => follows_pure _) fun _ => closes_pure _
  · exact (closes_statements (by omega)).bind fun _ => close.bind.closes
  · exact (closes_optionalTemps m).bind fun _ => (closes_statements (by omega)).bind fun _ =>
      close.bind.closes

theorem fails_method (n : Nat) (classSide : Bool) : Fails (parseMethod n classSide) :=
  fails_curSpan fun _ => (fails_pattern n).bind

theorem follows_method {n m : Nat} (le : n + 10 ≤ m) (classSide : Bool) :
    Follows tail (parseMethod n classSide) (parseMethod m classSide) := by
  have fails : Fails (expect .lBracket "expected '[' to start method body") := fails_expect (by simp) _
  refine follows_curSpan fun span => (follows_pattern (by omega)).bind (fun pattern => ?_)
    fun pattern => fails.bind.closes
  exact (follows_expect _ _).bind (fun _ => follows_methodRest le _ _ _ _ _)
    fun _ => closes_methodRest (by omega) _ _ _ _ _

/-- A method whose name is the last token. -/
theorem Late.method {n : Nat} {name : String} {span : Span} (late : Late p)
    (cur : p.cur = (.ident name, span)) (classSide : Bool) : Finishes (parseMethod n classSide) p := by
  have fails : Fails (expect .lBracket "expected '[' to start method body") := fails_expect (by simp) _
  refine .curSpan (Finishes.bind ?_ fun pattern => fails.bind.closes)
  unfold parsePattern Finishes Flagged Returns
  rw [curTok_bind, cur]
  exact late.bump_bind (closes_pure _)

omit [F64] in
theorem unreserved_of_returns {name : String} {span : Span} {a : Unit}
    (returns : Returns (checkNotReserved span name) p a q) : isReserved name = false := by
  unfold checkNotReserved at returns
  cases reserved : isReserved name with
  | true =>
    rw [reserved] at returns
    cases returns
  | false => rfl

theorem param_unreserved {name msg b : String} {span : Span} (cur : p.cur = (.ident name, span))
    (returns : Returns (parseParam msg) p b q) : isReserved name = false := by
  obtain ⟨span', r, read, returns⟩ := returns.of_bind
  cases read
  obtain ⟨name', r, read, returns⟩ := returns.of_bind
  obtain ⟨_, _, checked, -⟩ := returns.of_bind
  unfold Returns expectIdent at read
  rw [curTok_bind, cur] at read
  obtain ⟨_, _, -, read⟩ := Returns.of_bind read
  cases read
  exact unreserved_of_returns checked

theorem names_unreserved {n : Nat} {name : String} {span : Span} {names : List String}
    (cur : p.cur = (.ident name, span)) (returns : Returns (parseNames n) p names q) :
    isReserved name = false := by
  cases n with
  | zero => cases returns
  | succ n =>
    rw [parseNames] at returns
    unfold Returns at returns
    rw [get_bind, cur] at returns
    obtain ⟨_, _, checked, -⟩ := Returns.of_bind returns
    exact unreserved_of_returns checked

/-- Names of which the first is the last token. -/
theorem Late.names {n : Nat} {name : String} {span : Span} (late : Late p)
    (cur : p.cur = (.ident name, span)) (unreserved : isReserved name = false) (enough : 2 ≤ n) :
    Finishes (parseNames n) p := by
  obtain ⟨n, rfl⟩ : ∃ k, n = k + 1 := ⟨n - 1, by omega⟩
  rw [parseNames]
  unfold Finishes Flagged Returns
  rw [get_bind, cur]
  dsimp only
  have := late.bump_bind (f := fun _ => do return name :: (← parseNames n))
    ((closes_names (by omega)).bind fun _ => closes_pure _)
  unfold checkNotReserved
  rw [unreserved]
  exact this

/-- The two readings of what stands after a bar. -/
theorem follows_barChoice {n m : Nat} (le : n + 10 ≤ m) (isBinaryMethod : Bool) :
    Follows tail
      (if isBinaryMethod then do
        let span ← curSpan
        let param ← parseParam "expected a parameter name"
        expect .lBracket "expected '['"
        return Sum.inl (← parseMethodRest n "|" [param] false span "expected ']'")
      else do
        let names ← parseNames n
        expect .vBar "expected closing '|' after instance variables"
        return Sum.inr names : Parse (MethodNode ⊕ List String))
      (if isBinaryMethod then do
        let span ← curSpan
        let param ← parseParam "expected a parameter name"
        expect .lBracket "expected '['"
        return Sum.inl (← parseMethodRest m "|" [param] false span "expected ']'")
      else do
        let names ← parseNames m
        expect .vBar "expected closing '|' after instance variables"
        return Sum.inr names) := by
  have bracket : Fails (expect .lBracket "expected '['") := fails_expect (by simp) _
  have bar : Fails (expect .vBar "expected closing '|' after instance variables") := fails_expect (by simp) _
  split
  · refine follows_curSpan fun span => (follows_param _).bind (fun param => ?_) fun param => bracket.bind.closes
    exact (follows_expect _ _).bind (fun _ => (follows_methodRest le _ _ _ _ _).bind
        (fun _ => follows_pure _) fun _ => closes_pure _)
      fun _ => (closes_methodRest (by omega) _ _ _ _ _).bind fun _ => closes_pure _
  · refine (follows_names (by omega)).bind (fun names => ?_) fun names => bar.bind.closes
    exact (follows_expect _ _).bind (fun _ => follows_pure _) fun _ => closes_pure _

theorem closes_barChoice {n : Nat} (enough : 1 ≤ n) (isBinaryMethod : Bool) :
    Closes
      (if isBinaryMethod then do
        let span ← curSpan
        let param ← parseParam "expected a parameter name"
        expect .lBracket "expected '['"
        return Sum.inl (← parseMethodRest n "|" [param] false span "expected ']'")
      else do
        let names ← parseNames n
        expect .vBar "expected closing '|' after instance variables"
        return Sum.inr names : Parse (MethodNode ⊕ List String)) := by
  split
  · exact closes_curSpan fun _ => (fails_param _).bind.closes
  · exact (closes_names enough).bind fun _ => (fails_expect (by simp) _).bind.closes

theorem closes_barItem {n : Nat} (enough : 1 ≤ n) : Closes (parseBarItem n) :=
  closes_curTok ((closes_pure false).bind (closes_barChoice enough))

theorem follows_barItem {n m : Nat} (le : n + 10 ≤ m) :
    Follows tail (parseBarItem n) (parseBarItem m) := by
  have bar : Fails (expect .vBar "expected closing '|' after instance variables") := fails_expect (by simp) _
  have closes := closes_barChoice (n := m) (by omega)
  intro p' p sync
  unfold FollowsAt Finishes Flagged Returns parseBarItem
  rw [curTok_bind, curTok_bind, sync.cur]
  cases cur : p.cur with
  | mk tok span =>
    cases tok with
    | ident name =>
      dsimp only
      refine FollowsAt.peek2 sync (fun tok => ?_) fun tok q' q cur' same late b r' returns => ?_
      · exact (follows_pure _).bind (follows_barChoice le) closes
      · have unreserved : isReserved name = false := by
          obtain ⟨isBinaryMethod, _, read, returns⟩ := returns.of_bind
          cases read
          cases choice : decide (tok = Tok.lBracket) with
          | true =>
            rw [choice] at returns
            obtain ⟨span, _, read, returns⟩ := Returns.of_bind returns
            cases read
            obtain ⟨_, _, read, -⟩ := returns.of_bind
            exact param_unreserved (cur'.trans cur) read
          | false =>
            rw [choice] at returns
            obtain ⟨_, _, read, -⟩ := Returns.of_bind returns
            exact names_unreserved (cur'.trans cur) read
        have finishes := (late.names (n := m) (same.trans cur) unreserved (by omega)).bind (f := fun names => do
          expect .vBar "expected closing '|' after instance variables"
          return (Sum.inr names : MethodNode ⊕ List String)) fun _ => bar.bind.closes
        exact finishes
    | _ => exact (follows_pure false).bind (follows_barChoice le) closes p' p sync

theorem follows_classMethod {n m : Nat} (le : n + 10 ≤ m) (identName name : String) :
    Follows tail (parseClassMethod n identName name) (parseClassMethod m identName name) := by
  have fails : Closes (do bump; parseMethod m true) := closes_next (fails_method m true).closes
  refine follows_curSpan fun span => follows_next (follows_next ?_ ?_) (closes_next ?_)
  · exact follows_guard (follows_curTok fun tok => follows_guardHere
      (follows_next (follows_method le true) (fails_method m true).closes))
  · exact closes_guard (closes_curTok (closes_guardHere fails))
  · exact closes_guard (closes_curTok (closes_guardHere fails))

omit [F64] in
theorem Finishes.setPragmaMode {v : Bool} {f : Unit → Parse β}
    (finishes : Finishes (f ()) { p with lx := { p.lx with pragmaMode := v } }) :
    Finishes (Parser.setPragmaMode v >>= f) p := finishes

/-- A pragma whose bracket is the last token. -/
theorem Late.classPragma {n : Nat} (late : Late p) (enough : 1 ≤ n) : Finishes (parseClassPragma n) p := by
  have late : Late { p with lx := { p.lx with pragmaMode := true } } := ⟨late.peeked, late.rest⟩
  refine .curSpan (.setPragmaMode (late.bump_bind (closes_curTok ?_)))
  rw [if_neg (by simp)]
  refine closes_curTok ?_
  rw [if_neg (by simp)]
  exact closes_skip enough _

theorem fails_classItems {n : Nat} (enough : 1 ≤ n) (c : ClassDefNode) : Fails (parseClassItems n c) := by
  obtain ⟨n, rfl⟩ : ∃ k, n = k + 1 := ⟨n - 1, by omega⟩
  rw [parseClassItems]
  exact fails_curTok (fails_fail _)

theorem follows_classItems {n m : Nat} (le : n + 10 ≤ m) (c : ClassDefNode) :
    Follows tail (parseClassItems n c) (parseClassItems m c) := by
  induction n generalizing m c with
  | zero => exact follows_outOfFuel
  | succ n ih =>
    obtain ⟨m, rfl⟩ : ∃ k, m = k + 1 := ⟨m - 1, by omega⟩
    have le : n + 10 ≤ m := by omega
    have items := fun c => ih le c
    have close : ∀ c, Closes (parseClassItems m c) := fun c => (fails_classItems (by omega) c).closes
    have method := (follows_method le false).bind (fun m => items { c with methods := c.methods ++ [m] })
      fun _ => close _
    rw [parseClassItems, parseClassItems]
    intro p' p sync
    unfold FollowsAt Finishes Flagged Returns
    rw [curTok_bind, curTok_bind, sync.cur]
    cases cur : p.cur with
    | mk tok span =>
      dsimp only
      split
      · exact follows_pure c p' p sync
      · exact follows_fail p' p sync
      · refine FollowsAt.peek2 sync (fun tok => ?_) fun tok q' q cur' same late b r' returns => ?_
        · split
          · exact method
          · refine (follows_classPragma le).bind (fun pragma => ?_) fun pragma => ?_
            · cases pragma with
              | indexable i => exact items _
              | classVars names => exact items _
              | ignored => exact items _
            · cases pragma with
              | indexable i => exact close _
              | classVars names => exact close _
              | ignored => exact close _
        · refine (late.classPragma (by omega)).bind fun pragma => ?_
          cases pragma with
          | indexable i => exact close _
          | classVars names => exact close _
          | ignored => exact close _
      · refine follows_next ((follows_barItem le).bind (fun item => ?_) fun item => ?_)
          ((closes_barItem (by omega)).bind fun item => ?_) p' p sync
        all_goals
          cases item with
          | inl m => first | exact items _ | exact close _
          | inr names => first | exact items _ | exact close _
      · refine FollowsAt.peek2 sync (fun tok => ?_) fun tok q' q cur' same late b r' returns => ?_
        · split
          · exact (follows_classMethod le _ _).bind (fun _ => items _) fun _ => close _
          · exact method
        · rw [if_neg (by simp)]
          exact (late.method (same.trans cur) false).bind fun _ => close _
      · exact method p' p sync
      · exact method p' p sync
      · exact follows_fail p' p sync

theorem follows_classDef {n m : Nat} (le : n + 10 ≤ m) :
    Follows tail (parseClassDef n) (parseClassDef m) := by
  have items : ∀ c, Closes (do let c ← parseClassItems m c; bump; return c) := fun c =>
    (fails_classItems (by omega) c).bind.closes
  have bracket : Fails (expect .lBracket "expected '[' to start class body") := fails_expect (by simp) _
  refine follows_curSpan fun span => (follows_expectIdent _).bind (fun superclass => ?_) fun superclass =>
    (fails_expectKeyword _).bind.closes
  refine (follows_expectKeyword _).bind (fun _ => ?_) fun _ => (fails_expectIdent _).bind.closes
  refine (follows_expectIdent _).bind (fun name => ?_) fun name => bracket.bind.closes
  refine (follows_expect _ _).bind (fun _ => ?_) fun _ => items _
  exact (follows_classItems le _).bind (fun c => follows_next (follows_pure c) (closes_pure c))
    fun c => closes_next (closes_pure c)

/-! ## A whole text -/

/-- A top-level statement, up to its period or the end of the text. -/
theorem closes_statementEnd (stmt : Expr) : Closes (do
    if (← curTok) ≠ .eof then expect .period "expected '.' after statement"
    return some (TopItem.doIt stmt)) := by
  refine closes_curTok ?_
  rw [if_neg (by simp)]
  exact closes_pure _

/-- The two kinds of a top-level item. -/
theorem follows_topChoice {n m : Nat} (le : n + 10 ≤ m) (isClassDef : Bool) :
    Follows tail
      (do
        if isClassDef then return some (TopItem.classDef (← parseClassDef n))
        let stmt ← parseStatement n
        if (← curTok) ≠ .eof then expect .period "expected '.' after statement"
        return some (TopItem.doIt stmt))
      (do
        if isClassDef then return some (TopItem.classDef (← parseClassDef m))
        let stmt ← parseStatement m
        if (← curTok) ≠ .eof then expect .period "expected '.' after statement"
        return some (TopItem.doIt stmt)) := by
  dsimp only
  split
  · exact (follows_classDef le).bind (fun _ => follows_pure _) fun _ => closes_pure _
  · refine (exprsFollow le).statement.bind (fun stmt => follows_curTok fun tok => ?_) closes_statementEnd
    split
    · exact (follows_expect _ _).bind (fun _ => follows_pure _) fun _ => closes_pure _
    · exact follows_pure _

theorem atClassDef_bind {f : Bool → Parse β} {name : String} {span : Span}
    (cur : p.cur = (.ident name, span)) :
    (atClassDef >>= f) p = (peek2 >>= fun tok => f (decide (tok = .keyword "subclass:"))) p := by
  unfold atClassDef
  rw [bind_assoc, curTok_bind, cur]
  dsimp only
  rw [bind_assoc]
  rfl

theorem atClassDef_bind_of_ne {f : Bool → Parse β} (ne : ∀ name, p.cur.1 ≠ .ident name) :
    (atClassDef >>= f) p = f false p := by
  unfold atClassDef
  rw [bind_assoc, curTok_bind]
  split
  · exact absurd ‹_› (ne _)
  · rfl

theorem follows_topItem {n m : Nat} (le : n + 10 ≤ m) :
    Follows tail (parseTopItem n) (parseTopItem m) := by
  refine follows_curTok fun tok => ?_
  split
  · exact follows_pure _
  intro p' p sync
  unfold FollowsAt Finishes Flagged Returns
  cases cur : p.cur with
  | mk tok span =>
    cases tok with
    | ident name =>
      rw [atClassDef_bind cur, atClassDef_bind (sync.cur.trans cur)]
      refine FollowsAt.peek2 sync (fun tok => follows_topChoice le _) fun tok q' q cur' same late b r' returns => ?_
      exact (late.statement (n := m) (same.trans cur) (by omega)).bind closes_statementEnd
    | _ =>
      have ne : ∀ name, p.cur.1 ≠ .ident name := by simp [cur]
      rw [atClassDef_bind_of_ne ne, atClassDef_bind_of_ne (sync.cur ▸ ne)]
      exact follows_topChoice le false p' p sync

omit [F64] in
/-- What a parse of a whole text gives. -/
theorem Returns.run_eq {x : Parse α} {a : α} (returns : Returns x p a q) :
    ((x.run p).run).map (fun r => r.map Prod.fst) = some (.ok a) := by
  change Option.map _ (x p) = _
  rw [returns]
  rfl

omit [F64] in
theorem returns_of_run {x : Parse α} {a : α}
    (ran : ((x.run p).run).map (fun r => r.map Prod.fst) = some (.ok a)) : ∃ q, Returns x p a q := by
  obtain ⟨result, whole, value⟩ := Option.map_eq_some_iff.mp ran
  cases result with
  | error e => cases value
  | ok r =>
    cases value
    exact ⟨r.2, whole⟩

omit [F64] in
/-- An error with the flag, or no error. -/
theorem run_of_finishes {y : Parse α} (finishes : Finishes y p ∨ ∃ a q, Returns y p a q) :
    ∃ r, ((y.run p).run).map (fun r => r.map Prod.fst) = some r ∧ ∀ e, r = .error e → e.eof = true := by
  rcases finishes with (⟨e, failed, eof⟩ | ⟨a, q, returns, -⟩) | ⟨a, q, returns⟩
  · refine ⟨.error e, ?_, fun e' same => ?_⟩
    · change Option.map _ (y p) = _
      rw [failed]
      rfl
    · cases same
      exact eof
  · exact ⟨_, returns.run_eq, nofun⟩
  · exact ⟨_, returns.run_eq, nofun⟩

/-- The parse of a whole text and of a prefix of it. -/
theorem parse_follows {x y : Parse α} {t : List Char} {a : α} (follows : Follows tail x y)
    (closes : Closes y) (breaks : (Lexer.new t).CutOrDone tail) (parsed : parse x (t ++ tail) = some (.ok a)) :
    ∃ r, parse y t = some r ∧ ∀ e, r = .error e → e.eof = true := by
  unfold parse new at parsed ⊢
  cases first' : (Lexer.new (t ++ tail)).nextToken with
  | error e =>
    rw [first'] at parsed
    cases parsed
  | ok r' =>
    obtain ⟨cur', lx'⟩ := r'
    rw [first'] at parsed
    obtain ⟨q', returns⟩ := returns_of_run parsed
    rcases Lexer.nextToken_cut breaks first' with
      ⟨e, failed, eof⟩ | ⟨span, lx, first, done⟩ | ⟨lx, first, rfl, cut⟩
    · rw [failed]
      refine ⟨.error e, rfl, fun e' same => ?_⟩
      cases same
      exact eof
    · rw [first]
      exact run_of_finishes (.inl (closes _ ⟨⟨span, rfl⟩, rfl, done⟩))
    · rw [first]
      have sync : Sync tail ⟨lx.extend tail, cur', none, 0⟩ ⟨lx, cur', none, 0⟩ :=
        ⟨rfl, rfl, .inr ⟨rfl, rfl, cut⟩⟩
      rcases follows _ _ sync a q' returns with finishes | ⟨q, read, -⟩
      · exact run_of_finishes (.inl finishes)
      · exact run_of_finishes (.inr ⟨a, q, read⟩)

theorem closes_topItem (n : Nat) : Closes (parseTopItem n) := by
  refine closes_curTok ?_
  rw [if_pos rfl]
  exact closes_pure _

end

/-! ## Reading lines -/

/-- A text is cut before or after a line break, or at one of its ends. -/
def EndsAtLineBreak (p tail : List Char) : Prop :=
  p = [] ∨ p.getLast? = some '\n' ∨ tail.head? = some '\n' ∨ tail = []

/-- What `cmd_repl` does with the lines it reads. -/
inductive Reading where
  | item (item : Option TopItem) (later : List (List Char))
  | rejected (e : CompileError)
  | buffering (buf : List Char)

/-- `cmd_repl` from one item to the next: an error with the flag for the end of input keeps
buffering, any other is reported. -/
def readItem [F64] (m : Nat) : List Char → List (List Char) → Option Reading
  | buf, [] => some (.buffering buf)
  | buf, line :: lines => do
    match ← parseOneTopItem m (buf ++ line) with
    | .ok item => some (.item item lines)
    | .error e => if e.eof then readItem m (buf ++ line) lines else some (.rejected e)

section

variable [F64] {n m : Nat} {t : List Char} {item : Option TopItem}

theorem prefix_parsed (parsed : parseOneTopItem n t = some (.ok item)) (le : n + 10 ≤ m)
    {p tail : List Char} (whole : t = p ++ tail) (ends : EndsAtLineBreak p tail) :
    ∃ r, parseOneTopItem m p = some r ∧ ∀ e, r = .error e → e.eof = true := by
  subst whole
  refine parse_follows (follows_topItem le) (closes_topItem m) ?_ parsed
  rcases ends with rfl | last | head | rfl
  · exact .inr rfl
  · exact .inl (.inr last)
  · refine .inl (.inl fun c first => ?_)
    rw [head] at first
    exact (Option.some.inj first).symm
  · exact .inl (.inl nofun)

/-- Reading on from a buffer that ends at a line break. -/
theorem readItem_accepts (parsed : parseOneTopItem n t = some (.ok item)) (le : n + 10 ≤ m)
    (lines : List (List Char)) (last buf : List Char) (whole : t = buf ++ (lines.flatten ++ last))
    (breaks : ∀ line ∈ lines, line.getLast? = some '\n') :
    ∃ r, readItem m buf (lines ++ [last]) = some r ∧ ∀ e, r ≠ .rejected e := by
  induction lines generalizing buf with
  | nil =>
    obtain ⟨r, parse, eof⟩ := prefix_parsed parsed le (show t = (buf ++ last) ++ [] by simpa using whole)
      (.inr (.inr (.inr rfl)))
    rw [List.nil_append, readItem, parse]
    cases r with
    | ok item => exact ⟨.item item [], rfl, nofun⟩
    | error e =>
      refine ⟨.buffering (buf ++ last), ?_, nofun⟩
      show (if e.eof = true then _ else _) = _
      rw [if_pos (eof e rfl)]
      rfl
  | cons line lines ih =>
    have whole : t = (buf ++ line) ++ (lines.flatten ++ last) := by simpa using whole
    have break_ : (buf ++ line).getLast? = some '\n' := by
      rw [List.getLast?_append, breaks line List.mem_cons_self]
      rfl
    obtain ⟨r, parse, eof⟩ := prefix_parsed parsed le whole (.inr (.inl break_))
    rw [List.cons_append, readItem, parse]
    cases r with
    | ok item => exact ⟨.item item _, rfl, nofun⟩
    | error e =>
      show ∃ r, (if e.eof = true then _ else _) = some r ∧ _
      rw [if_pos (eof e rfl)]
      exact ih (buf ++ line) whole fun line mem => breaks line (List.mem_cons_of_mem _ mem)

/-- Every prefix up to a line break of a text that parses: it parses, or fails with the flag for
the end of input. So the lines of the text, read one by one, are never rejected. -/
theorem prefix_continues (parsed : parseOneTopItem n t = some (.ok item)) (le : n + 10 ≤ m) :
    (∀ p tail, t = p ++ tail → EndsAtLineBreak p tail →
      ∃ r, parseOneTopItem m p = some r ∧ ∀ e, r = .error e → e.eof = true) ∧
    ∀ lines last, t = lines.flatten ++ last → (∀ line ∈ lines, line.getLast? = some '\n') →
      ∃ r, readItem m [] (lines ++ [last]) = some r ∧ ∀ e, r ≠ .rejected e :=
  ⟨fun _ _ => prefix_parsed parsed le, fun lines last => readItem_accepts parsed le lines last []⟩

end

/-- A keyword message over two lines. -/
theorem prefix_continues_keyword :
    let _ : F64 := ⟨fun _ => 0⟩
    (∃ item, parseOneTopItem 12 "x at:\n  1.".toList = some (.ok item)) ∧
      (∃ r, parseOneTopItem 22 "x at:\n".toList = some r ∧ ∀ e, r = .error e → e.eof = true) ∧
      ∃ r, readItem 22 [] ["x at:\n".toList, "  1.".toList] = some r ∧ ∀ e, r ≠ .rejected e := by
  let _ : F64 := ⟨fun _ => 0⟩
  obtain ⟨item, parsed⟩ : ∃ item, parseOneTopItem 12 "x at:\n  1.".toList = some (.ok item) := ⟨_, rfl⟩
  have continues := prefix_continues (m := 22) parsed (by decide)
  refine ⟨⟨item, parsed⟩, ?_, ?_⟩
  · exact continues.1 "x at:\n".toList "  1.".toList (by decide) (.inr (.inl (by decide)))
  · exact continues.2 ["x at:\n".toList] "  1.".toList (by decide) (by decide)

end WinVm.Frontend.Parser
