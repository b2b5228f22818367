import WinVm.Frontend.Scoping

/-!
# The walk follows the outline

Capture analysis reads the same outline as code generation: the renumbered tree keeps its
control structures, its real blocks are numbered in pre-order, every scope gets the names
of its dissolved blocks in the order they are written, and every occurrence is a reference
of its scope.
-/

namespace WinVm.Frontend

/-! ## Renumbering keeps the control structures -/

theorem blockArgc_walk (scope : Nat) (dissolves : Bool) (e : Expr) (w : Walk) :
    blockArgc (walkExpr scope dissolves e w).1 = blockArgc e := by
  match e with
  | .block params temps body s scopeId =>
    rw [walkExpr]
    cases dissolves <;> rfl
  | .selfRef _ | .cascadeRcvr _ | .lit _ _ | .var _ _ | .assign _ _ _ | .send _ _ _ _ _
  | .cascade _ _ _ | .dynArray _ _ | .ret _ _ => rfl

theorem argcs_walk (scope : Nat) (positions : List BlockPos) (i : Nat) (args : List Expr)
    (w : Walk) : argcs (walkArgs scope positions i args w).1 = argcs args := by
  induction args generalizing i w with
  | nil => rfl
  | cons a args ih =>
    have rest := ih (i + 1) (walkExpr scope (positions.contains (.arg i)) a w).2
    simp only [argcs] at rest
    simp only [walkArgs, argcs, List.map_cons, rest, blockArgc_walk]

mutual

theorem scan_walk (e : Expr) (v : String) (nested dissolves : Bool) (scope : Nat) (d : Bool)
    (w : Walk) : scan v nested dissolves (walkExpr scope d e w).1 = scan v nested dissolves e := by
  match e with
  | .selfRef _ | .cascadeRcvr _ | .lit _ _ | .var _ _ => rfl
  | .assign name value _ =>
    simp only [walkExpr, scan]
    rw [scan_walk value]
  | .ret value _ =>
    simp only [walkExpr, scan]
    rw [scan_walk value]
  | .send receiver selector args isSuper _ =>
    simp only [walkExpr, scan]
    rw [needs_walk args, blockArgc_walk, argcs_walk, scan_walk receiver, scanArgs_walk args]
  | .cascade receiver segments _ =>
    simp only [walkExpr, scan]
    rw [scan_walk receiver, scanAll_walk segments]
  | .dynArray elems _ =>
    simp only [walkExpr, scan]
    rw [scanAll_walk elems]
  | .block params temps body _ _ =>
    rw [walkExpr]
    cases d
    · simp only [Bool.false_eq_true, if_false, scan]
      rw [scanAll_walk body]
    · simp only [if_true, scan]
      rw [scanAll_walk body]

theorem scanArgs_walk (args : List Expr) (v : String) (nested : Bool) (positions : List BlockPos)
    (i : Nat) (scope : Nat) (ps : List BlockPos) (j : Nat) (w : Walk) :
    scanArgs v nested positions i (walkArgs scope ps j args w).1 =
      scanArgs v nested positions i args := by
  match args with
  | [] => rfl
  | a :: args =>
    simp only [walkArgs, scanArgs]
    rw [scan_walk a, scanArgs_walk args]

theorem scanAll_walk (es : List Expr) (v : String) (nested : Bool) (scope : Nat) (w : Walk) :
    scanAll v nested (walkBlockBody scope es w).1 = scanAll v nested es := by
  match es with
  | [] => rfl
  | e :: es =>
    simp only [walkBlockBody, scanAll]
    rw [scan_walk e, scanAll_walk es]

theorem needs_walk (args : List Expr) (scope : Nat) (ps : List BlockPos) (j : Nat) (w : Walk) :
    bodyNeedsRealSend (walkArgs scope ps j args w).1 = bodyNeedsRealSend args := by
  match args with
  | [] => rfl
  | [a] => simp only [walkArgs, bodyNeedsRealSend]
  | [a, b] =>
    simp only [walkArgs]
    match b with
    | .block [v] temps body _ _ =>
      rw [walkExpr]
      split
      · simp only [bodyNeedsRealSend]
        rw [scanAll_walk body]
      · simp only [bodyNeedsRealSend]
        rw [scanAll_walk body]
    | .block [] _ _ _ _ =>
      rw [walkExpr]
      split <;> rfl
    | .block (_ :: _ :: _) _ _ _ _ =>
      rw [walkExpr]
      split <;> rfl
    | .selfRef _ | .cascadeRcvr _ | .lit _ _ | .var _ _ | .assign _ _ _ | .send _ _ _ _ _
    | .cascade _ _ _ | .dynArray _ _ | .ret _ _ => rfl
  | a :: b :: c :: rest =>
    simp only [walkArgs]
    rw [bodyNeedsRealSend, bodyNeedsRealSend]
    all_goals simp

end

theorem sendShape_walk (isSuper : Bool) (selector : String) (receiver : Expr) (args : List Expr)
    (scope : Nat) (d : Bool) (ps : List BlockPos) (j : Nat) (w w' : Walk) :
    sendShape isSuper selector (walkExpr scope d receiver w).1 (walkArgs scope ps j args w').1 =
      sendShape isSuper selector receiver args := by
  unfold sendShape inlineShape
  rw [needs_walk, blockArgc_walk, argcs_walk]

/-! ## What the walk adds -/

namespace Outline

/-- The number of real blocks. -/
def reals : Outline → Nat
  | done | occ _ _ | hidden => 0
  | seq a b | arms a b => a.reals + b.reals
  | dissolved _ body | loose _ body => body.reals
  | counted _ _ limit body => limit.reals + body.reals
  | real _ _ _ body => 1 + body.reals

/-- The real blocks are numbered in pre-order from `n` on. -/
def Numbered (n : Nat) : Outline → Prop
  | done | occ _ _ | hidden => True
  | seq a b | arms a b => a.Numbered n ∧ b.Numbered (n + a.reals)
  | dissolved _ body | loose _ body => body.Numbered n
  | counted _ _ limit body => limit.Numbered n ∧ body.Numbered (n + limit.reals)
  | real scope _ _ body => scope = n ∧ body.Numbered (n + 1)

/-- The scope of a real block, when the walk is over. -/
def builder (parent : Nat) (params temps : List String) (body : Outline) : ScopeBuilder where
  parent := some parent
  isMethod := false
  argc := params.length
  names := params ++ temps ++ body.folded
  captured := (params ++ temps ++ body.folded).map fun _ => false

/-- The scopes of the real blocks, in the order of their numbers. -/
def newBuilders (scope : Nat) : Outline → List ScopeBuilder
  | done | occ _ _ | hidden => []
  | seq a b | arms a b => a.newBuilders scope ++ b.newBuilders scope
  | dissolved _ body | loose _ body => body.newBuilders scope
  | counted _ _ limit body => limit.newBuilders scope ++ body.newBuilders scope
  | real block params temps body => builder scope params temps body :: body.newBuilders block

def refs (scope : Nat) : Outline → List (Nat × String)
  | done | hidden => []
  | occ name _ => [(scope, name)]
  | seq a b | arms a b => a.refs scope ++ b.refs scope
  | dissolved _ body | loose _ body => body.refs scope
  | counted _ _ limit body => limit.refs scope ++ body.refs scope
  | real block _ _ body => body.refs block

theorem length_newBuilders (o : Outline) (scope : Nat) :
    (o.newBuilders scope).length = o.reals := by
  induction o generalizing scope with
  | done | occ | hidden => rfl
  | seq a b iha ihb | arms a b iha ihb => simp [newBuilders, reals, iha, ihb]
  | dissolved names body ih | loose names body ih => simp [newBuilders, reals, ih]
  | counted loopVar temps limit body ihl ihb => simp [newBuilders, reals, ihl, ihb]
  | real block params temps body ih => simp [newBuilders, reals, ih, Nat.add_comm]

end Outline

/-- A scope takes over the names of a dissolved block. -/
def ScopeBuilder.fold (b : ScopeBuilder) (names : List String) : ScopeBuilder :=
  { b with names := b.names ++ names, captured := b.captured ++ names.map fun _ => false }

theorem ScopeBuilder.fold_nil (b : ScopeBuilder) : b.fold [] = b := by
  simp [ScopeBuilder.fold]

theorem ScopeBuilder.fold_fold (b : ScopeBuilder) (xs ys : List String) :
    (b.fold xs).fold ys = b.fold (xs ++ ys) := by
  simp [ScopeBuilder.fold]

/-- The walk from `w` to `w'`, in scope `scope`, walked `o`. -/
structure Walked (scope : Nat) (o : Outline) (w w' : Walk) : Prop where
  numbered : o.Numbered w.builders.length
  builders : w'.builders =
    (w.builders.modify scope fun b => b.fold o.folded) ++ o.newBuilders scope
  refs : ∀ r, r ∈ w'.refs ↔ r ∈ w.refs ∨ r ∈ o.refs scope

variable {scope : Nat} {a b o : Outline} {w w' w'' : Walk}

theorem modify_fold_nil (bs : List ScopeBuilder) (scope : Nat) :
    (bs.modify scope fun b => b.fold []) = bs := by
  simp only [ScopeBuilder.fold_nil]
  exact List.modify_id scope bs

theorem modify_append_left {α : Type} (f : α → α) {i : Nat} {xs : List α} (ys : List α)
    (inside : i < xs.length) : (xs ++ ys).modify i f = xs.modify i f ++ ys := by
  induction xs generalizing i with
  | nil => simp at inside
  | cons x xs ih =>
    cases i with
    | zero => rfl
    | succ i => simp [ih (by simpa using inside)]

theorem modify_concat {α : Type} (f : α → α) (xs : List α) (y : α) :
    (xs ++ [y]).modify xs.length f = xs ++ [f y] := by
  induction xs with
  | nil => rfl
  | cons x xs ih => simpa using ih

theorem walked_none (folded : o.folded = []) (numbered : ∀ n, o.Numbered n)
    (news : ∀ s, o.newBuilders s = []) (refs : o.refs scope = []) : Walked scope o w w where
  numbered := numbered _
  builders := by rw [folded, modify_fold_nil, news, List.append_nil]
  refs r := by simp [refs]

theorem walked_done : Walked scope .done w w :=
  walked_none rfl (fun _ => trivial) (fun _ => rfl) rfl

theorem walked_occ (name : String) (isWrite : Bool) :
    Walked scope (.occ name isWrite) w (w.addRef scope name) where
  numbered := trivial
  builders := by simp [Outline.folded, modify_fold_nil, Outline.newBuilders, Walk.addRef]
  refs r := by simp [Walk.addRef, Outline.refs]

theorem Walked.length (walked : Walked scope o w w') :
    w'.builders.length = w.builders.length + o.reals := by
  simp [walked.builders, Outline.length_newBuilders]

theorem Walked.seq (first : Walked scope a w w') (second : Walked scope b w' w'')
    (inside : scope < w.builders.length) : Walked scope (.seq a b) w w'' where
  numbered := ⟨first.numbered, first.length ▸ second.numbered⟩
  builders := by
    have split : ((w.builders.modify scope fun s => s.fold a.folded) ++ a.newBuilders scope).modify
        scope (fun s => s.fold b.folded) =
        (w.builders.modify scope fun s => s.fold (a.folded ++ b.folded)) ++ a.newBuilders scope := by
      rw [modify_append_left _ _ (by simpa using inside), List.modify_modify_eq]
      congr 2
      funext s
      exact s.fold_fold a.folded b.folded
    rw [second.builders, first.builders, split, List.append_assoc]
    rfl
  refs r := by
    rw [second.refs, first.refs, Outline.refs, List.mem_append, or_assoc]

/-- Two outlines that the walk does not tell apart. -/
structure Outline.Alike (a b : Outline) : Prop where
  folded : a.folded = b.folded
  numbered : ∀ n, a.Numbered n → b.Numbered n
  news : ∀ s, a.newBuilders s = b.newBuilders s
  refs : ∀ s, a.refs s = b.refs s

theorem Walked.alike (walked : Walked scope a w w') (alike : a.Alike b) : Walked scope b w w' where
  numbered := alike.numbered _ walked.numbered
  builders := by rw [walked.builders, alike.folded, alike.news]
  refs r := by rw [walked.refs, alike.refs]

theorem walked_dissolved {names : List String}
    (walked : Walked scope o (w.addNames scope names) w') :
    Walked scope (.dissolved names o) w w' where
  numbered := by simpa [Walk.addNames, Outline.Numbered] using walked.numbered
  builders := by
    have merged : (w.addNames scope names).builders =
        w.builders.modify scope fun b => b.fold names := rfl
    rw [walked.builders, merged, List.modify_modify_eq]
    simp only [Outline.newBuilders, Outline.folded]
    congr 2
    funext s
    exact s.fold_fold names o.folded
  refs := walked.refs

theorem walked_real {params temps : List String} (inside : scope < w.builders.length)
    (walked : Walked w.builders.length o (w.addScope scope params temps) w') :
    Walked scope (.real w.builders.length params temps o) w w' where
  numbered := ⟨rfl, by simpa [Walk.addScope] using walked.numbered⟩
  builders := by
    have unfolded : (Outline.real w.builders.length params temps o).folded = [] := rfl
    rw [walked.builders, Walk.addScope, modify_concat, List.append_assoc, unfolded,
      modify_fold_nil]
    simp [Outline.newBuilders, ScopeBuilder.fold, Outline.builder, Nat.add_assoc]
  refs := walked.refs

theorem Walked.inside (walked : Walked scope o w w') (inside : scope < w.builders.length) :
    scope < w'.builders.length := by
  rw [walked.length]
  omega

theorem alike_arms (a b : Outline) : (Outline.seq a b).Alike (.arms a b) :=
  ⟨rfl, fun _ h => h, fun _ => rfl, fun _ => rfl⟩

/-- A loop over a counter adds what its receiver and its body add. -/
theorem alike_loop (a : Outline) (e : Expr) :
    (Outline.seq a (outlineBody e)).Alike
      (.seq a (.seq .hidden (.seq .hidden (outlineLoose e)))) := by
  match e with
  | .block _ _ _ _ _ =>
    rw [outlineBody, outlineLoose]
    exact ⟨rfl, fun _ h => ⟨h.1, trivial, trivial, h.2⟩, fun _ => rfl, fun _ => rfl⟩
  | .selfRef _ | .cascadeRcvr _ | .lit _ _ | .var _ _ | .assign _ _ _ | .send _ _ _ _ _
  | .cascade _ _ _ | .dynArray _ _ | .ret _ _ =>
    exact ⟨rfl, fun _ h => ⟨h.1, trivial, trivial, trivial⟩, fun _ => rfl, fun _ => rfl⟩

theorem alike_counted (r limit : Outline) {e : Expr} (one : blockArgc e = some 1) :
    (Outline.seq r (.seq limit (outlineBody e))).Alike (.seq r (outlineCounted limit e)) := by
  match e with
  | .block (loopVar :: params) temps body _ _ =>
    rw [outlineBody, outlineCounted]
    exact ⟨rfl, fun _ h => h, fun _ => rfl, fun _ => rfl⟩
  | .block [] _ _ _ _ => cases one
  | .selfRef _ | .cascadeRcvr _ | .lit _ _ | .var _ _ | .assign _ _ _ | .send _ _ _ _ _
  | .cascade _ _ _ | .dynArray _ _ | .ret _ _ => cases one

/-! ## The walk of an expression -/

mutual

theorem walked_expr (e : Expr) (scope : Nat) (w : Walk) (inside : scope < w.builders.length) :
    Walked scope (outline (walkExpr scope false e w).1) w (walkExpr scope false e w).2 := by
  match e with
  | .selfRef _ | .cascadeRcvr _ | .lit _ _ =>
    simp only [walkExpr, outline]
    exact walked_done
  | .var name _ =>
    simp only [walkExpr, outline]
    exact walked_occ name false
  | .assign name value _ =>
    have walked := walked_expr value scope (w.addRef scope name) inside
    simp only [walkExpr, outline]
    refine ⟨⟨walked.numbered, trivial⟩, ?_, fun r => ?_⟩
    · simpa [Outline.folded, Outline.newBuilders, Walk.addRef] using walked.builders
    · rw [walked.refs]
      simp only [Walk.addRef, Outline.refs, List.mem_append]
      exact or_right_comm.trans or_assoc
  | .send receiver selector args isSuper _ =>
    simp only [walkExpr, outline]
    rw [sendShape_walk]
    cases found : sendShape isSuper selector receiver args with
    | none =>
      have first := walked_expr receiver scope w inside
      have second := walked_args args scope 0 _ (first.inside inside)
      simpa using first.seq second inside
    | some shape =>
      exact walked_inlined shape receiver args scope w inside (sendShape_fits found)
  | .cascade receiver segments _ =>
    have first := walked_expr receiver scope w inside
    have second := walked_body segments scope _ (first.inside inside)
    simp only [walkExpr, outline]
    exact first.seq second inside
  | .dynArray elems _ =>
    simp only [walkExpr, outline]
    exact walked_body elems scope w inside
  | .ret value _ =>
    simp only [walkExpr, outline]
    exact walked_expr value scope w inside
  | .block params temps body _ _ =>
    simp only [walkExpr, Bool.false_eq_true, if_false, outline]
    exact walked_real inside (walked_body body _ _ (by simp [Walk.addScope]))
termination_by sizeOf e

/-- A block that is dissolved. -/
theorem walked_block (e : Expr) (scope : Nat) (w : Walk) (inside : scope < w.builders.length)
    {argc : Nat} (block : blockArgc e = some argc) :
    Walked scope (outlineBody (walkExpr scope true e w).1) w (walkExpr scope true e w).2 := by
  match e with
  | .block params temps body _ _ =>
    simp only [walkExpr, if_true, outlineBody]
    exact walked_dissolved (walked_body body scope _ (by simpa [Walk.addNames] using inside))
  | .selfRef _ | .cascadeRcvr _ | .lit _ _ | .var _ _ | .assign _ _ _ | .send _ _ _ _ _
  | .cascade _ _ _ | .dynArray _ _ | .ret _ _ => cases block
termination_by sizeOf e

theorem walked_args (args : List Expr) (scope i : Nat) (w : Walk)
    (inside : scope < w.builders.length) :
    Walked scope (outlineAll (walkArgs scope [] i args w).1) w (walkArgs scope [] i args w).2 := by
  match args with
  | [] =>
    simp only [walkArgs, outlineAll]
    exact walked_done
  | a :: args =>
    have first := walked_expr a scope w inside
    have second := walked_args args scope (i + 1) _ (first.inside inside)
    simp only [walkArgs, outlineAll, List.contains_nil]
    exact first.seq second inside
termination_by sizeOf args

theorem walked_body (es : List Expr) (scope : Nat) (w : Walk) (inside : scope < w.builders.length) :
    Walked scope (outlineAll (walkBlockBody scope es w).1) w (walkBlockBody scope es w).2 := by
  match es with
  | [] =>
    simp only [walkBlockBody, outlineAll]
    exact walked_done
  | e :: es =>
    have first := walked_expr e scope w inside
    have second := walked_body es scope _ (first.inside inside)
    simp only [walkBlockBody, outlineAll]
    exact first.seq second inside
termination_by sizeOf es

theorem walked_inlined (shape : Shape) (receiver : Expr) (args : List Expr) (scope : Nat) (w : Walk)
    (inside : scope < w.builders.length) (fits : shape.Fits (blockArgc receiver) (argcs args)) :
    let r := walkExpr scope (shape.positions.contains .receiver) receiver w
    let as := walkArgs scope shape.positions 0 args r.2
    Walked scope (outlineInlined shape (outline r.1) (outlineBody r.1) as.1) w as.2 := by
  match args with
  | [] =>
    cases shape <;> simp [Shape.Fits, argcs] at fits
    case «repeat» =>
      have body := walked_block receiver scope w inside fits
      simpa [Shape.positions, walkArgs, outlineInlined] using body
  | [a] =>
    have value := walked_expr receiver scope w inside
    have arm := fun (block : blockArgc a ≠ none) =>
      let ⟨_, is⟩ := Option.ne_none_iff_exists'.mp block
      walked_block a scope _ (value.inside inside) is
    cases shape <;> simp [Shape.Fits, argcs] at fits
    case whileTrue | whileFalse =>
      have test := walked_block receiver scope w inside fits.1
      have body := walked_block a scope _ (test.inside inside) fits.2
      simpa [Shape.positions, walkArgs, outlineInlined] using test.seq body inside
    case timesRepeat =>
      have both := (value.seq (arm (by simp [fits])) inside).alike (alike_loop _ _)
      simpa [Shape.positions, walkArgs, outlineInlined] using both
    case ifNotNil =>
      have both := value.seq (arm (by rcases fits with fits | fits <;> simp [fits])) inside
      simpa [Shape.positions, walkArgs, outlineInlined] using both
    all_goals
      have both := value.seq (arm (by simp [fits])) inside
      simpa [Shape.positions, walkArgs, outlineInlined] using both
  | [a, b] =>
    have value := walked_expr receiver scope w inside
    cases shape <;> simp [Shape.Fits, argcs] at fits
    case toDo =>
      have limit := walked_expr a scope _ (value.inside inside)
      have body := walked_block b scope _ (limit.inside (value.inside inside)) fits
      have both := value.seq (limit.seq body (value.inside inside)) inside
      have counted := both.alike (alike_counted _ _ ((blockArgc_walk _ _ _ _).trans fits))
      simpa [Shape.positions, walkArgs, outlineInlined] using counted
    all_goals
      have isA : ∃ n, blockArgc a = some n := by
        first
          | exact ⟨_, fits.1⟩
          | (rcases fits with fits | fits <;> exact ⟨_, fits.1⟩)
      have isB : ∃ n, blockArgc b = some n := by
        first
          | exact ⟨_, fits.2⟩
          | (rcases fits with fits | fits <;> exact ⟨_, fits.2⟩)
      obtain ⟨_, isA⟩ := isA
      obtain ⟨_, isB⟩ := isB
      have first := walked_block a scope _ (value.inside inside) isA
      have second := walked_block b scope _ (first.inside (value.inside inside)) isB
      have arms := first.seq second (value.inside inside)
    case ifFalseIfTrue =>
      have both := value.seq (arms.alike (alike_arms _ _)) inside
      simpa [Shape.positions, walkArgs, outlineInlined] using both
    all_goals
      have both := value.seq arms inside
      simpa [Shape.positions, walkArgs, outlineInlined] using both
  | a :: b :: c :: rest =>
    cases shape <;> simp [Shape.Fits, argcs] at fits
termination_by sizeOf receiver + sizeOf args

end

end WinVm.Frontend
