import WinVm.Frontend.Balance

/-!
# The units of a compiled method are balanced

The code of a method and of each real block in it, at any nesting, has depths for its
labels, begins without operands, and ends with a return.

Result: `compiled_units_balanced`.
-/

namespace WinVm.Frontend

open Emit

/-! ## What the units built on the way are -/

/-- The units that the emission finishes are of the kind. -/
def Keeps (P : CodeUnit → Prop) (e : Emit) : Prop :=
  ∀ g xs g', e g = .ok (xs, g') → (∀ u ∈ g.units, P u) → ∀ u ∈ g'.units, P u

section

variable {P : CodeUnit → Prop} {e e' : Emit} {cx : Ctx} {site : Site}

theorem keeps_skip : Keeps P skip := by
  intro g xs g' ok all
  cases ok
  exact all

theorem keeps_op (i : Item) : Keeps P (op i) := by
  intro g xs g' ok all
  cases ok
  exact all

theorem keeps_fail {f : Fault} : Keeps P (fail f) := by
  intro g xs g' ok
  cases ok

theorem Keeps.append (first : Keeps P e) (second : Keeps P e') : Keeps P (e ++ e') := by
  intro g zs g' ok all
  obtain ⟨xs, ys, mid, okE, okE', -⟩ := Emit.append_ok ok
  exact second mid ys g' okE' (first g xs mid okE all)

/-- An item after the emission. -/
theorem Keeps.op (first : Keeps P e) (i : Item) : Keeps P (e ++ Emit.op i) :=
  first.append (keeps_op i)

theorem keeps_newLabel {e : Nat → Emit} (inner : ∀ l, Keeps P (e l)) :
    Keeps P (newLabel e) := fun g xs g' ok =>
  inner g.labels { g with labels := g.labels + 1 } xs g' ok

theorem keeps_newSlots {n : Nat} {e : Nat → Emit} (inner : ∀ slot, Keeps P (e slot)) :
    Keeps P (newSlots n e) := fun g xs g' ok =>
  inner g.nextHoistSlot { g with nextHoistSlot := g.nextHoistSlot + n } xs g' ok

theorem keeps_access (name : String) (span : Span) (isWrite : Bool) :
    Keeps P (emitAccess cx site name span isWrite) := by
  intro g xs g' ok all
  unfold emitAccess at ok
  split at ok
  · cases ok
  · cases ok
    exact all

theorem keeps_literal (l : Literal) : Keeps P (emitLiteral l) := by
  unfold emitLiteral
  split
  · split <;> exact keeps_op _
  all_goals exact keeps_op _

theorem keeps_explicitReturn (inBlock : Bool) : Keeps P (explicitReturn inBlock) := by
  cases inBlock <;> exact keeps_op _

/-- Two arms and a merge. -/
theorem keeps_arms {first second : Emit} (branch : Nat → Item) (value : Keeps P e)
    (keepsFirst : Keeps P first) (keepsSecond : Keeps P second) :
    Keeps P (e ++ newLabel fun l1 => newLabel fun l2 =>
      op (branch l1) ++ first ++ op (.jumpFwd l2) ++ op (.bind l1) ++ second ++ op (.bind l2)) :=
  value.append (keeps_newLabel fun l1 => keeps_newLabel fun _ =>
    ((((keeps_op (branch l1)).append keepsFirst).op _).op _ |>.append keepsSecond).op _)

theorem keeps_arm {first : Emit} (branch : Nat → Item) (value : Keeps P e)
    (keepsFirst : Keeps P first) :
    Keeps P (e ++ newLabel fun l1 => newLabel fun l2 =>
      op (branch l1) ++ first ++ op (.jumpFwd l2) ++ op (.bind l1) ++ op (.bind l2)) :=
  value.append (keeps_newLabel fun l1 => keeps_newLabel fun _ =>
    ((((keeps_op (branch l1)).append keepsFirst).op _).op _).op _)

theorem keeps_while (branch : Nat → Item) {test body : Emit} (tested : Keeps P test)
    (done : Keeps P body) :
    Keeps P (newLabel fun l0 => newLabel fun l2 =>
      op (.bind l0) ++ test ++ op (branch l2) ++ body ++ op .pop ++ op (.jumpBack l0) ++
        op (.bind l2) ++ op .pushNil) :=
  keeps_newLabel fun l0 => keeps_newLabel fun l2 =>
    (((((((keeps_op (.bind l0)).append tested).op (branch l2)).append done).op _).op _).op _).op _

theorem keeps_countedLoop (iSlot limSlot : Nat) {body : Emit} (done : Keeps P body) :
    Keeps P (countedLoop iSlot limSlot body) := by
  refine keeps_newLabel fun l0 => keeps_newLabel fun l2 => ?_
  have test : Keeps P (op (.bind l0) ++ op (.pushTemp iSlot) ++ op (.pushTemp limSlot) ++
      op (.send false "<=" 1) ++ op (.brFalseFwd l2)) :=
    ((((keeps_op _).op _).op _).op _).op _
  exact (((((((test.append done).op _).op _).op _).op _).op _).op _).op _

theorem keeps_nilTest (receiver : Keeps P e) : Keeps P (nilTest e) :=
  ((receiver.op _).op _).op _

theorem keeps_inlined (shape : Shape) (args : List Expr) {receiver receiverBody : Emit}
    (value : Keeps P receiver) (condition : Keeps P receiverBody)
    (arguments : ∀ x ∈ args, Keeps P (emitExpr cx site x))
    (dissolved : ∀ x ∈ args, Keeps P (emitDissolvedBody cx site x))
    (loops : ∀ x ∈ args, ∀ slot, Keeps P (emitLoopBody cx site slot x))
    (arms : ∀ x ∈ args, Keeps P (emitIfnotnilArm cx site x)) :
    Keeps P (emitInlined cx site shape receiver receiverBody args) := by
  match args with
  | [] =>
    rw [emitInlined.eq_def]
    cases shape with
    | «repeat» =>
      exact keeps_newLabel fun l0 => ((((keeps_op _).append condition).op _).op _).op _
    | _ => exact keeps_fail
  | [x] =>
    have block := dissolved x (by simp)
    rw [emitInlined.eq_def]
    cases shape with
    | ifTrue | and => exact keeps_arms .brFalseFwd value block (keeps_op _)
    | ifFalse | or => exact keeps_arms .brTrueFwd value block (keeps_op _)
    | whileTrue => exact keeps_while .brFalseFwd condition block
    | whileFalse => exact keeps_while .brTrueFwd condition block
    | timesRepeat =>
      refine (value.op _).append (keeps_newSlots fun limSlot => ?_)
      refine (keeps_op _).append (keeps_newSlots fun iSlot => ?_)
      exact ((keeps_op _).op _).append (keeps_countedLoop _ _ (loops x (by simp) 0))
    | ifNil =>
      have arm := keeps_arm .brFalseFwd (keeps_nilTest value) ((keeps_op .pop).append block)
      simp only [Emit.append_assoc] at arm ⊢
      exact arm
    | ifNotNil => exact keeps_arm .brTrueFwd (keeps_nilTest value) (arms x (by simp))
    | _ => exact keeps_fail
  | [x, y] =>
    have blockX := dissolved x (by simp)
    have blockY := dissolved y (by simp)
    rw [emitInlined.eq_def]
    cases shape with
    | ifTrueIfFalse => exact keeps_arms .brFalseFwd value blockX blockY
    | ifFalseIfTrue => exact keeps_arms .brFalseFwd value blockY blockX
    | ifNilIfNotNil =>
      have both := keeps_arms .brFalseFwd (keeps_nilTest value) ((keeps_op .pop).append blockX)
        (arms y (by simp))
      simp only [Emit.append_assoc] at both ⊢
      exact both
    | ifNotNilIfNil =>
      have both := keeps_arms .brTrueFwd (keeps_nilTest value) (arms x (by simp))
        ((keeps_op .pop).append blockY)
      simp only [Emit.append_assoc] at both ⊢
      exact both
    | toDo =>
      have limit := arguments x (by simp)
      refine (value.op _).append (keeps_newSlots fun iSlot => ?_)
      refine ((keeps_op _).append limit).append (keeps_newSlots fun limSlot => ?_)
      exact (keeps_op _).append (keeps_countedLoop _ _ (loops y (by simp) _))
    | _ => exact keeps_fail
  | x :: y :: z :: args =>
    rw [emitInlined]
    · exact keeps_fail
    all_goals simp

theorem keeps_statementDiscard (isBlock : Bool) (stmt : Expr) {operand whole : Emit}
    (value : Keeps P operand) (all : Keeps P whole) :
    Keeps P (emitStatementDiscard cx site isBlock stmt operand whole) := by
  refine (keeps_op _).append ?_
  cases stmt with
  | ret e span => exact value.append (keeps_explicitReturn isBlock)
  | assign name e span => exact value.append (keeps_access name span true)
  | _ => exact all.op _

/-- What ends a sequence of statements finishes no unit of another kind. -/
structure Ending.Keeps (P : CodeUnit → Prop) (ending : Ending) : Prop where
  empty : WinVm.Frontend.Keeps P ending.empty
  afterReturn : WinVm.Frontend.Keeps P ending.afterReturn
  afterValue : WinVm.Frontend.Keeps P ending.afterValue

theorem dissolved_keeps (inBlock : Bool) : (Ending.dissolved inBlock).Keeps P :=
  ⟨keeps_op _, keeps_explicitReturn inBlock, keeps_skip⟩

theorem block_keeps : Ending.block.Keeps P :=
  ⟨(keeps_op _).append (keeps_op _), keeps_op _, keeps_op _⟩

theorem doIt_keeps : Ending.doIt.Keeps P :=
  ⟨keeps_op _, keeps_op _, keeps_op _⟩

theorem keeps_lastStatement {ending : Ending} (ends : ending.Keeps P) (stmt : Expr)
    {operand whole : Emit} (value : Keeps P operand) (all : Keeps P whole) :
    Keeps P (emitLastStatement cx site ending stmt operand whole) := by
  cases stmt with
  | ret e span => exact value.append ends.afterReturn
  | assign name e span =>
    exact ((keeps_op _).append ((value.op .dup).append (keeps_access name span true))).append
      ends.afterValue
  | _ => exact ((keeps_op _).append all).append ends.afterValue

end

/-! ## Balanced units -/

def Item.isReturn : Item → Bool
  | .retTos | .retSelf | .blockReturnTos | .nlrTos => true
  | _ => false

/-- Depths that begin at 0, and a return at the end. -/
structure CodeUnit.Balanced (u : CodeUnit) : Prop where
  balanced : ∃ depth d, WinVm.Frontend.Balanced depth u.code 0 d
  ends : ∃ xs r, u.code = xs ++ [r] ∧ r.isReturn = true

/-- The emission ends with a return. -/
def Returns (e : Emit) : Prop :=
  ∀ g xs g', e g = .ok (xs, g') → ∃ ys r, xs = ys ++ [r] ∧ r.isReturn = true

section

variable {e e' : Emit} {cx : Ctx} {site : Site}

theorem returns_op {i : Item} (is : i.isReturn = true) : Returns (op i) := by
  intro g xs g' ok
  cases ok
  exact ⟨[], i, rfl, is⟩

theorem Returns.after (returns : Returns e') : Returns (e ++ e') := by
  intro g zs g' ok
  obtain ⟨xs, ys, mid, -, okE', rfl⟩ := Emit.append_ok ok
  obtain ⟨ys, r, rfl, is⟩ := returns mid ys g' okE'
  exact ⟨xs ++ ys, r, (List.append_assoc xs ys [r]).symm, is⟩

/-- A sequence of statements ends with a return if it does so in each of the three ways. -/
theorem returns_statements {ending : Ending} (empty : Returns ending.empty)
    (afterReturn : Returns ending.afterReturn) (afterValue : Returns ending.afterValue)
    (stmts : List Expr) : Returns (emitStatements cx site ending stmts) := by
  induction stmts with
  | nil =>
    rw [emitStatements]
    exact empty
  | cons stmt stmts ih =>
    cases stmts with
    | nil =>
      rw [emitStatements, emitLastStatement.eq_def]
      cases stmt with
      | ret value span => exact afterReturn.after
      | _ => exact afterValue.after
    | cons next stmts =>
      rw [emitStatements]
      · exact ih.after
      · simp

theorem returns_block (stmts : List Expr) : Returns (emitStatements cx site Ending.block stmts) :=
  returns_statements (returns_op rfl).after (returns_op rfl) (returns_op rfl) stmts

theorem returns_doIt (stmts : List Expr) : Returns (emitStatements cx site Ending.doIt stmts) :=
  returns_statements (returns_op rfl) (returns_op rfl) (returns_op rfl) stmts

theorem returns_methodBody (stmts : List Expr) : Returns (emitMethodBody cx site stmts) := by
  induction stmts with
  | nil => exact returns_op rfl
  | cons stmt stmts ih =>
    rw [emitMethodBody]
    exact ih.after

theorem block_leaves : Ending.block.Leaves 0 0 where
  empty _ :=
    (leaves_plain (i := .pushNil) rfl fun _ => rfl).append
      (leaves_plain (i := .blockReturnTos) rfl fun _ => Nat.le_refl 1)
  afterReturn _ := leaves_plain rfl fun _ => Nat.le_refl 1
  afterValue _ := leaves_plain rfl fun _ => Nat.le_refl 1

theorem doIt_leaves : Ending.doIt.Leaves 0 0 where
  empty _ := leaves_plain rfl fun _ => trivial
  afterReturn _ := leaves_plain rfl fun _ => Nat.le_refl 1
  afterValue _ := leaves_plain rfl fun _ => Nat.le_refl 1

theorem balanced_flatten {depth : Nat → Nat} {xss : List (List Item)} {d : Nat}
    (each : ∀ xs ∈ xss, Balanced depth xs d d) : Balanced depth xss.flatten d d := by
  induction xss with
  | nil => exact rfl
  | cons xs xss ih =>
    rw [List.flatten_cons]
    exact (each xs List.mem_cons_self).append (ih fun ys mem => each ys (List.mem_cons_of_mem _ mem))

/-- The prologue copies captured parameters to the Context. -/
theorem balanced_prologue (depth : Nat → Nat) (as8 : Nat → Nat) (info : ScopeInfo) :
    Balanced depth (emitPrologue as8 info) 0 0 := by
  unfold emitPrologue
  split
  · refine balanced_flatten fun xs mem => ?_
    obtain ⟨i, lt, rfl⟩ := List.mem_mapIdx.mp mem
    split
    · exact ⟨1, rfl, 0, rfl, rfl⟩
    · exact rfl
  · exact rfl

/-- The code of a unit: the prologue, and a body that ends with a return. -/
theorem unit_balanced {body : Emit} (leaves : Leaves [] body 0 0) (returns : Returns body)
    {g g' : Gen} {code : List Item} (ok : body g = .ok (code, g')) (as8 : Nat → Nat)
    (info : ScopeInfo) (u : CodeUnit) (is : u.code = emitPrologue as8 info ++ code) : u.Balanced := by
  obtain ⟨-, -, -, balanced⟩ := leaves g code g' ok (by simp)
  obtain ⟨depth, -, flows⟩ := balanced (fun _ => 0) (by simp)
  obtain ⟨xs, r, rfl, isReturn⟩ := returns g code g' ok
  refine ⟨⟨depth, 0, is ▸ (balanced_prologue depth as8 info).append flows⟩,
    emitPrologue as8 info ++ xs, r, ?_, isReturn⟩
  rw [is, List.append_assoc]

theorem keeps_blockLiteral (span : Span) (scopeId argc : Nat) {body : Emit}
    (inner : Keeps CodeUnit.Balanced body) (leaves : Leaves [] body 0 0) (returns : Returns body) :
    Keeps CodeUnit.Balanced (emitBlockLiteral cx span scopeId argc body) := by
  intro g xs g' ok all
  unfold emitBlockLiteral at ok
  split at ok
  · cases ok
  split at ok
  · cases ok
  split at ok
  · cases ok
  next _ info _ _ _ _ code g₁ emitted =>
  cases ok
  intro u mem
  rcases List.mem_append.mp mem with mem | mem
  · exact inner _ _ _ emitted all u mem
  · rw [List.mem_singleton.mp mem]
    exact unit_balanced leaves returns emitted cx.as8 info _ rfl

end

/-! ## Expressions -/

section

variable {cx : Ctx} (small : ∀ n < 256, cx.as8 n = n)

include small

mutual

theorem keeps_expr (e : Expr) (segment : Bool) (regular : e.regular segment = true) (site : Site) :
    Keeps CodeUnit.Balanced (emitExpr cx site e) := by
  match e with
  | .selfRef _ =>
    rw [emitExpr]
    exact keeps_op _
  | .cascadeRcvr _ =>
    rw [emitExpr]
    exact keeps_skip
  | .lit l _ =>
    rw [emitExpr]
    exact keeps_literal l
  | .var name span =>
    rw [emitExpr]
    exact keeps_access name span false
  | .assign name value span =>
    obtain ⟨-, regular⟩ : segment = false ∧ value.regular false = true := by
      simpa [Expr.regular] using regular
    rw [emitExpr]
    exact ((keeps_expr value false regular site).op _).append (keeps_access name span true)
  | .send receiver selector args isSuper _ =>
    obtain ⟨⟨regularR, -⟩, regularA⟩ : (receiver.regular segment = true ∧ args.length < 256) ∧
        regularAll false args = true := by
      simpa [Expr.regular] using regular
    have value := keeps_expr receiver segment regularR site
    rw [emitExpr]
    split
    · next shape _ =>
      exact keeps_inlined shape args value (keeps_dissolvedBody receiver segment regularR site)
        (fun x mem => keeps_expr x false (regular_mem regularA mem) site)
        (fun x mem => keeps_dissolvedBody x false (regular_mem regularA mem) site)
        (fun x mem slot => keeps_loopBody x false (regular_mem regularA mem) site slot)
        fun x mem => keeps_ifnotnilArm x false (regular_mem regularA mem) site
    · exact (value.append (keeps_args args regularA site)).op _
  | .cascade receiver segments _ =>
    obtain ⟨⟨-, regularR⟩, regularS⟩ : (segment = false ∧ receiver.regular false = true) ∧
        regularAll true segments = true := by
      simpa [Expr.regular] using regular
    rw [emitExpr]
    exact (keeps_expr receiver false regularR site).append (keeps_segments segments regularS site)
  | .dynArray elems _ =>
    obtain ⟨-, regular⟩ : segment = false ∧ regularAll false elems = true := by
      simpa [Expr.regular] using regular
    rw [emitExpr]
    exact (((keeps_op _).append (keeps_literal _)).op _).append (keeps_elems 0 elems regular site)
  | .block params temps body span scopeId =>
    have regular := regular_body regular
    rw [emitExpr]
    exact keeps_blockLiteral span scopeId params.length
      (keeps_statements body regular ⟨[], scopeId, true⟩ block_keeps)
      (leaves_statements small body regular ⟨[], scopeId, true⟩ [] block_leaves) (returns_block body)
  | .ret _ _ =>
    rw [emitExpr]
    exact keeps_fail
termination_by (sizeOf e, 1)

theorem keeps_args (args : List Expr) (regular : regularAll false args = true) (site : Site) :
    Keeps CodeUnit.Balanced (emitArgs cx site args) := by
  match args with
  | [] =>
    rw [emitArgs]
    exact keeps_skip
  | e :: args =>
    obtain ⟨regularE, regular⟩ := regularAll_cons.mp regular
    rw [emitArgs]
    exact (keeps_expr e false regularE site).append (keeps_args args regular site)
termination_by (sizeOf args, 0)

theorem keeps_segments (segments : List Expr) (regular : regularAll true segments = true)
    (site : Site) : Keeps CodeUnit.Balanced (emitSegments cx site segments) := by
  match segments with
  | [] =>
    rw [emitSegments]
    exact keeps_skip
  | [seg] =>
    rw [emitSegments]
    exact keeps_expr seg true (by simpa [regularAll] using regular) site
  | seg :: next :: segments =>
    obtain ⟨regularS, regular⟩ := regularAll_cons.mp regular
    rw [emitSegments]
    · exact (((keeps_op _).append (keeps_expr seg true regularS site)).op _).append
        (keeps_segments (next :: segments) regular site)
    · simp
termination_by (sizeOf segments, 0)

theorem keeps_elems (i : Nat) (elems : List Expr) (regular : regularAll false elems = true)
    (site : Site) : Keeps CodeUnit.Balanced (emitElems cx site i elems) := by
  match elems with
  | [] =>
    rw [emitElems]
    exact keeps_skip
  | el :: elems =>
    obtain ⟨regularE, regular⟩ := regularAll_cons.mp regular
    rw [emitElems]
    have value := keeps_expr el false regularE site
    exact (((((keeps_op _).append (keeps_literal _)).append value).op _).op _).append
      (keeps_elems (i + 1) elems regular site)
termination_by (sizeOf elems, 0)

theorem keeps_dissolvedBody (e : Expr) (segment : Bool) (regular : e.regular segment = true)
    (site : Site) : Keeps CodeUnit.Balanced (emitDissolvedBody cx site e) := by
  match e with
  | .block params temps body span scopeId =>
    rw [emitDissolvedBody]
    exact keeps_newSlots fun first =>
      keeps_statements body (regular_body regular) (site.push _) (dissolved_keeps _)
  | .selfRef _ | .cascadeRcvr _ | .lit _ _ | .var _ _ | .assign _ _ _ | .send _ _ _ _ _
  | .cascade _ _ _ | .dynArray _ _ | .ret _ _ => exact keeps_fail
termination_by (sizeOf e, 0)

theorem keeps_loopBody (e : Expr) (segment : Bool) (regular : e.regular segment = true)
    (site : Site) (slot : Nat) : Keeps CodeUnit.Balanced (emitLoopBody cx site slot e) := by
  match e with
  | .block [] temps body span scopeId =>
    rw [emitLoopBody]
    exact keeps_statements body (regular_body regular) site (dissolved_keeps _)
  | .block (loopVar :: params) temps body span scopeId =>
    rw [emitLoopBody]
    exact keeps_statements body (regular_body regular) (site.push _) (dissolved_keeps _)
  | .selfRef _ | .cascadeRcvr _ | .lit _ _ | .var _ _ | .assign _ _ _ | .send _ _ _ _ _
  | .cascade _ _ _ | .dynArray _ _ | .ret _ _ => exact keeps_fail
termination_by (sizeOf e, 0)

theorem keeps_ifnotnilArm (e : Expr) (segment : Bool) (regular : e.regular segment = true)
    (site : Site) : Keeps CodeUnit.Balanced (emitIfnotnilArm cx site e) := by
  match e with
  | .block [] temps body span scopeId =>
    rw [emitIfnotnilArm]
    exact (keeps_op _).append (keeps_newSlots fun first =>
      keeps_statements body (regular_body regular) (site.push _) (dissolved_keeps _))
  | .block (param :: params) temps body span scopeId =>
    rw [emitIfnotnilArm]
    exact keeps_newSlots fun first => (keeps_op _).append
      (keeps_statements body (regular_body regular) (site.push _) (dissolved_keeps _))
  | .selfRef _ | .cascadeRcvr _ | .lit _ _ | .var _ _ | .assign _ _ _ | .send _ _ _ _ _
  | .cascade _ _ _ | .dynArray _ _ | .ret _ _ => exact keeps_fail
termination_by (sizeOf e, 0)

theorem keeps_statements (stmts : List Expr) (regular : regularAll false stmts = true) (site : Site)
    {ending : Ending} (ends : ending.Keeps CodeUnit.Balanced) :
    Keeps CodeUnit.Balanced (emitStatements cx site ending stmts) := by
  match stmts with
  | [] =>
    rw [emitStatements]
    exact ends.empty
  | [last] =>
    have regular : last.regular false = true := by simpa [regularAll] using regular
    rw [emitStatements]
    exact keeps_lastStatement ends last (keeps_operand last regular site)
      (keeps_expr last false regular site)
  | stmt :: next :: stmts =>
    obtain ⟨regularS, regular⟩ := regularAll_cons.mp regular
    rw [emitStatements]
    · exact (keeps_statementDiscard _ stmt (keeps_operand stmt regularS site)
        (keeps_expr stmt false regularS site)).append
        (keeps_statements (next :: stmts) regular site ends)
    · simp
termination_by (sizeOf stmts, 0)

theorem keeps_operand (e : Expr) (regular : e.regular false = true) (site : Site) :
    Keeps CodeUnit.Balanced (emitOperand cx site e) := by
  match e with
  | .ret value _ =>
    rw [emitOperand]
    exact keeps_expr value false (by simpa [Expr.regular] using regular) site
  | .assign _ value _ =>
    rw [emitOperand]
    exact keeps_expr value false (by simpa [Expr.regular] using regular) site
  | .selfRef _ | .cascadeRcvr _ | .lit _ _ | .var _ _ | .send _ _ _ _ _
  | .cascade _ _ _ | .dynArray _ _ | .block _ _ _ _ _ => exact keeps_skip
termination_by (sizeOf e, 0)

end

/-! ## Methods -/

theorem keeps_methodBody (stmts : List Expr) (regular : regularAll false stmts = true) (site : Site) :
    Keeps CodeUnit.Balanced (emitMethodBody cx site stmts) := by
  induction stmts with
  | nil => exact keeps_op _
  | cons stmt stmts ih =>
    obtain ⟨regularS, regular⟩ := regularAll_cons.mp regular
    rw [emitMethodBody]
    exact (keeps_statementDiscard _ stmt (keeps_operand small stmt regularS site)
      (keeps_expr small stmt false regularS site)).append (ih regular)

theorem leaves_methodBody (stmts : List Expr) (regular : regularAll false stmts = true) (site : Site) :
    Leaves [] (emitMethodBody cx site stmts) 0 0 := by
  induction stmts with
  | nil => exact leaves_plain rfl fun _ => trivial
  | cons stmt stmts ih =>
    obtain ⟨regularS, regular⟩ := regularAll_cons.mp regular
    rw [emitMethodBody]
    exact (leaves_statementDiscard _ stmt (leaves_operand small stmt regularS site [] 0)
      (leaves_expr small stmt false regularS site [] 0)).append (ih regular)

/-- The body of a method or of a doIt. -/
theorem keeps_body (stmts : List Expr) (regular : regularAll false stmts = true) (site : Site)
    (kind : BodyKind) : Keeps CodeUnit.Balanced (emitBody cx site stmts kind) := by
  cases kind with
  | method => exact keeps_methodBody small stmts regular site
  | doIt => exact keeps_statements small stmts regular site doIt_keeps
  | block => exact keeps_statements small stmts regular site block_keeps

theorem leaves_bodyOf (stmts : List Expr) (regular : regularAll false stmts = true) (site : Site)
    (kind : BodyKind) : Leaves [] (emitBody cx site stmts kind) 0 0 := by
  cases kind with
  | method => exact leaves_methodBody small stmts regular site
  | doIt => exact leaves_statements small stmts regular site [] doIt_leaves
  | block => exact leaves_statements small stmts regular site [] block_leaves

end

theorem returns_body {cx : Ctx} (site : Site) (stmts : List Expr) (kind : BodyKind) :
    Returns (emitBody cx site stmts kind) := by
  cases kind with
  | method => exact returns_methodBody stmts
  | doIt => exact returns_doIt stmts
  | block => exact returns_block stmts

/-- Every unit of a method whose messages all have fewer than 256 arguments. -/
theorem compiled_units_balanced {as8 : Nat → Nat} (small : ∀ n < 256, as8 n = n) {h : Holder}
    {classSide topLevel : Bool} {m : MethodNode} {units : List CodeUnit} {globals : List String}
    (compiled : compileMethodInner as8 h classSide topLevel m = .ok (units, globals))
    (regular : regularAll false (analyze m).1.body = true) : ∀ u ∈ units, u.Balanced := by
  unfold compileMethodInner at compiled
  simp only at compiled
  split at compiled
  · cases compiled
  split at compiled
  · cases compiled
  split at compiled
  · cases compiled
  next code g emitted =>
  cases compiled
  intro u mem
  rcases List.mem_append.mp mem with mem | mem
  · exact keeps_body small _ regular _ _ _ _ _ emitted (by simp) u mem
  · rw [List.mem_singleton.mp mem]
    exact unit_balanced (leaves_bodyOf small _ regular _ _) (returns_body _ _ _) emitted as8 _ _ rfl

end WinVm.Frontend
