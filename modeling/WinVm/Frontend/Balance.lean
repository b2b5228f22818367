import WinVm.Frontend.Correctness

/-!
# Operand depths

Depths for the labels of some code give every place in it a depth: a jump meets the depth
of its label, and what follows a jump or a return may stand at any depth. The code of every
expression has such depths and ends one above where it began, so that it leaves exactly one
value, whatever runs it.

Results: `leaves_expr`, `expressions_leave_one`.
-/

namespace WinVm.Frontend

open Emit Lib

/-! ## Depths -/

/-- From the depth `d` the item may go on at `d'`. -/
def Item.Goes (depth : Nat → Nat) (d d' : Nat) : Item → Prop
  | .noteLine _ => d' = d
  | .pushSelf | .pushNil | .pushTrue | .pushFalse | .pushSmiI8 _ | .pushLiteral _ | .load _ _
  | .pushTemp _ | .pushClosure _ => d' = d + 1
  | .store _ _ | .storeTempPop _ | .storeCtxTempPop _ _ | .pop => d = d' + 1
  | .dup => 1 ≤ d ∧ d' = d + 1
  | .send _ _ argc => 1 ≤ d' ∧ d = d' + argc
  | .bind l => d = depth l ∧ d' = d
  | .jumpFwd l | .jumpBack l => d = depth l
  | .brTrueFwd l | .brFalseFwd l => d = d' + 1 ∧ d' = depth l
  | .retTos | .blockReturnTos | .nlrTos => 1 ≤ d
  | .retSelf => True

def Item.label? : Item → Option Nat
  | .bind l | .jumpFwd l | .jumpBack l | .brTrueFwd l | .brFalseFwd l => some l
  | _ => none

def Balanced (depth : Nat → Nat) : List Item → Nat → Nat → Prop
  | [], d, d' => d = d'
  | i :: is, d, d' => ∃ mid, i.Goes depth d mid ∧ Balanced depth is mid d'

section

variable {depth depth' : Nat → Nat} {d d' mid : Nat}

theorem Item.Goes.congr {i : Item} (same : ∀ l, i.label? = some l → depth' l = depth l)
    (goes : i.Goes depth d d') : i.Goes depth' d d' := by
  cases i <;> simp_all [Item.Goes, Item.label?]

theorem Balanced.congr {xs : List Item}
    (same : ∀ i ∈ xs, ∀ l, i.label? = some l → depth' l = depth l)
    (balanced : Balanced depth xs d d') : Balanced depth' xs d d' := by
  induction xs generalizing d with
  | nil => exact balanced
  | cons i is ih =>
    obtain ⟨mid, goes, rest⟩ := balanced
    exact ⟨mid, goes.congr (same i List.mem_cons_self),
      ih (fun j mem => same j (List.mem_cons_of_mem _ mem)) rest⟩

theorem Balanced.append {xs ys : List Item} (first : Balanced depth xs d mid)
    (second : Balanced depth ys mid d') : Balanced depth (xs ++ ys) d d' := by
  induction xs generalizing d with
  | nil =>
    obtain rfl : d = mid := first
    exact second
  | cons i is ih =>
    obtain ⟨next, goes, rest⟩ := first
    exact ⟨next, goes, ih rest⟩

end

/-! ## Emission -/

/-- The labels that some code mentions are bound in it or stand around it. -/
def Bound (around : List (Nat × Nat)) (xs : List Item) : Prop :=
  ∀ i ∈ xs, ∀ l, i.label? = some l → (∃ k, (l, k) ∈ around) ∨ .bind l ∈ xs

/-- The emitted code goes from `d` to `d'`, where the labels around it stand at the depths
in `around`. -/
def Leaves (around : List (Nat × Nat)) (e : Emit) (d d' : Nat) : Prop :=
  ∀ g xs g', e g = .ok (xs, g') → (∀ p ∈ around, p.1 < g.labels) →
    g.labels ≤ g'.labels ∧ (∀ i ∈ xs, ∀ l, i.label? = some l → l < g'.labels) ∧ Bound around xs ∧
    ∀ depth : Nat → Nat, (∀ p ∈ around, depth p.1 = p.2) →
      ∃ depth', (∀ l < g.labels, depth' l = depth l) ∧ Balanced depth' xs d d'

/-- The emitted code binds the label. -/
def Binds (e : Emit) (l : Nat) : Prop :=
  ∀ g xs g', e g = .ok (xs, g') → .bind l ∈ xs

theorem binds_op {l : Nat} : Binds (op (.bind l)) l := by
  rintro g xs g' ok
  cases ok
  simp

theorem Binds.left {e e' : Emit} {l : Nat} (binds : Binds e l) : Binds (e ++ e') l := by
  intro g zs g' ok
  obtain ⟨xs, ys, mid, okE, -, rfl⟩ := Emit.append_ok ok
  exact List.mem_append_left _ (binds g xs mid okE)

theorem Binds.right {e e' : Emit} {l : Nat} (binds : Binds e' l) : Binds (e ++ e') l := by
  intro g zs g' ok
  obtain ⟨xs, ys, mid, -, okE', rfl⟩ := Emit.append_ok ok
  exact List.mem_append_right _ (binds mid ys g' okE')

theorem binds_newLabel {e : Nat → Emit} {l : Nat} (binds : ∀ l', Binds (e l') l) :
    Binds (newLabel e) l := fun g xs g' ok =>
  binds g.labels { g with labels := g.labels + 1 } xs g' ok

section

variable {around : List (Nat × Nat)} {d d' mid : Nat} {e e' : Emit}

theorem leaves_skip : Leaves around skip d d := by
  intro g xs g' ok below
  cases ok
  exact ⟨Nat.le_refl _, by simp, by simp [Bound], fun depth _ => ⟨depth, fun _ _ => rfl, rfl⟩⟩

theorem leaves_fail {f : Fault} : Leaves around (fail f) d d' := by
  intro g xs g' ok
  cases ok

/-- An item whose label, if it has one, stands around it. -/
theorem leaves_op {i : Item} (known : ∀ l, i.label? = some l → ∃ k, (l, k) ∈ around)
    (goes : ∀ depth : Nat → Nat, (∀ p ∈ around, depth p.1 = p.2) → i.Goes depth d d') :
    Leaves around (op i) d d' := by
  intro g xs g' ok below
  cases ok
  refine ⟨Nat.le_refl _, fun j mem l is => ?_, fun j mem l is => ?_, fun depth agrees => ?_⟩
  · obtain rfl := List.mem_singleton.mp mem
    obtain ⟨k, mem⟩ := known l is
    exact below _ mem
  · obtain rfl := List.mem_singleton.mp mem
    exact .inl (known l is)
  · exact ⟨depth, fun _ _ => rfl, d', goes depth agrees, rfl⟩

/-- An item without a label. -/
theorem leaves_plain {i : Item} (plain : i.label? = none)
    (goes : ∀ depth : Nat → Nat, i.Goes depth d d') : Leaves around (op i) d d' :=
  leaves_op (fun l is => by rw [plain] at is; cases is) fun depth _ => goes depth

theorem Leaves.append (first : Leaves around e d mid) (second : Leaves around e' mid d') :
    Leaves around (e ++ e') d d' := by
  intro g zs g' ok below
  obtain ⟨xs, ys, middle, okE, okE', rfl⟩ := Emit.append_ok ok
  obtain ⟨upE, labelsE, boundE, balancedE⟩ := first g xs middle okE below
  have below' : ∀ p ∈ around, p.1 < middle.labels := fun p mem => (below p mem).trans_le upE
  obtain ⟨upE', labelsE', boundE', balancedE'⟩ := second middle ys g' okE' below'
  refine ⟨upE.trans upE', fun i mem l is => ?_, fun i mem l is => ?_, fun depth agrees => ?_⟩
  · rcases List.mem_append.mp mem with mem | mem
    · exact (labelsE i mem l is).trans_le upE'
    · exact labelsE' i mem l is
  · rcases List.mem_append.mp mem with mem | mem
    · exact (boundE i mem l is).imp id (List.mem_append_left _)
    · exact (boundE' i mem l is).imp id (List.mem_append_right _)
  · obtain ⟨depth₁, same₁, xsBalanced⟩ := balancedE depth agrees
    obtain ⟨depth₂, same₂, ysBalanced⟩ := balancedE' depth₁ fun p mem => by
      rw [same₁ p.1 (below p mem), agrees p mem]
    refine ⟨depth₂, fun l low => (same₂ l (low.trans_le upE)).trans (same₁ l low), ?_⟩
    exact Balanced.append (xsBalanced.congr fun i mem l is => same₂ l (labelsE i mem l is)) ysBalanced

/-- A new label stands at a depth of our choice. -/
theorem leaves_newLabel (k : Nat) {e : Nat → Emit} (binds : ∀ l, Binds (e l) l)
    (inner : ∀ l, Leaves ((l, k) :: around) (e l) d d') : Leaves around (newLabel e) d d' := by
  intro g xs g' ok below
  have below' : ∀ p ∈ (g.labels, k) :: around, p.1 < g.labels + 1 := by
    rintro p (_ | ⟨_, mem⟩)
    · exact Nat.lt_succ_self _
    · exact (below p mem).trans (Nat.lt_succ_self _)
  obtain ⟨up, labels, bound, balanced⟩ :=
    inner g.labels { g with labels := g.labels + 1 } xs g' ok below'
  refine ⟨(Nat.le_succ _).trans up, labels, fun i mem l is => ?_, fun depth agrees => ?_⟩
  · rcases bound i mem l is with ⟨k', mem⟩ | mem
    · rcases List.mem_cons.mp mem with new | mem
      · cases new
        exact .inr (binds g.labels { g with labels := g.labels + 1 } xs g' ok)
      · exact .inl ⟨k', mem⟩
    · exact .inr mem
  obtain ⟨depth', same, flows⟩ := balanced (Function.update depth g.labels k) fun p mem => by
    rcases List.mem_cons.mp mem with rfl | mem
    · exact Function.update_self ..
    · rw [Function.update_of_ne (below p mem).ne, agrees p mem]
  refine ⟨depth', fun l low => ?_, flows⟩
  rw [same l (low.trans (Nat.lt_succ_self _)), Function.update_of_ne low.ne]

theorem leaves_newSlots {n : Nat} {e : Nat → Emit} (inner : ∀ slot, Leaves around (e slot) d d') :
    Leaves around (newSlots n e) d d' := fun g xs g' ok below =>
  inner g.nextHoistSlot { g with nextHoistSlot := g.nextHoistSlot + n } xs g' ok below

theorem leaves_access (cx : Ctx) (site : Site) (name : String) (span : Span) (isWrite : Bool)
    (goes : if isWrite then d = d' + 1 else d' = d + 1) :
    Leaves around (emitAccess cx site name span isWrite) d d' := by
  intro g xs g' ok below
  unfold emitAccess at ok
  split at ok
  · cases ok
  next ref globals found =>
  cases ok
  cases isWrite with
  | true =>
    exact ⟨Nat.le_refl _, by simp [Item.label?], by simp [Bound, Item.label?], fun depth _ =>
      ⟨depth, fun _ _ => rfl, d', goes, rfl⟩⟩
  | false =>
    exact ⟨Nat.le_refl _, by simp [Item.label?], by simp [Bound, Item.label?], fun depth _ =>
      ⟨depth, fun _ _ => rfl, d', goes, rfl⟩⟩

theorem leaves_literal (l : Literal) : Leaves around (emitLiteral l) d (d + 1) := by
  unfold emitLiteral
  split
  · split <;> exact leaves_plain rfl fun _ => rfl
  all_goals exact leaves_plain rfl fun _ => rfl

theorem leaves_blockLiteral (cx : Ctx) (span : Span) (scopeId argc : Nat) (body : Emit) :
    Leaves around (emitBlockLiteral cx span scopeId argc body) d (d + 1) := by
  intro g xs g' ok below
  unfold emitBlockLiteral at ok
  split at ok
  · cases ok
  split at ok
  · cases ok
  split at ok
  · cases ok
  cases ok
  refine ⟨Nat.le_refl _, by simp [Item.label?], by simp [Bound, Item.label?], fun depth _ =>
    ⟨depth, fun _ _ => rfl, _, rfl, rfl⟩⟩

theorem leaves_explicitReturn (inBlock : Bool) : Leaves around (explicitReturn inBlock) (d + 1) d' := by
  cases inBlock <;> exact leaves_plain rfl fun _ => Nat.le_add_left 1 d

theorem leaves_bind {l : Nat} (mem : (l, d) ∈ around) : Leaves around (op (.bind l)) d d :=
  leaves_op (fun _ is => ⟨d, by cases is; exact mem⟩) fun _ agrees => ⟨(agrees _ mem).symm, rfl⟩

theorem leaves_jumpFwd {l : Nat} (mem : (l, d) ∈ around) : Leaves around (op (.jumpFwd l)) d d' :=
  leaves_op (fun _ is => ⟨d, by cases is; exact mem⟩) fun _ agrees => (agrees _ mem).symm

theorem leaves_jumpBack {l : Nat} (mem : (l, d) ∈ around) : Leaves around (op (.jumpBack l)) d d' :=
  leaves_op (fun _ is => ⟨d, by cases is; exact mem⟩) fun _ agrees => (agrees _ mem).symm

theorem leaves_branch {l : Nat} (jumpOn : Bool) (mem : (l, d) ∈ around) :
    Leaves around (op (branchItem jumpOn l)) (d + 1) d := by
  cases jumpOn <;>
  exact leaves_op (fun _ is => ⟨d, by cases is; exact mem⟩) fun _ agrees => ⟨rfl, (agrees _ mem).symm⟩

theorem leaves_pop : Leaves around (op .pop) (d + 1) d :=
  leaves_plain rfl fun _ => rfl

theorem leaves_dup : Leaves around (op .dup) (d + 1) (d + 2) :=
  leaves_plain rfl fun _ => ⟨Nat.le_add_left 1 d, rfl⟩

theorem leaves_send {isSuper : Bool} {selector : String} {argc : Nat} :
    Leaves around (op (.send isSuper selector argc)) (d + 1 + argc) (d + 1) :=
  leaves_plain rfl fun _ => ⟨Nat.le_add_left 1 d, rfl⟩

/-! ## Inlined constructs -/

/-- Two arms, each from the depth after the branch to the same depth. -/
theorem leaves_arms (jumpOn : Bool) {arm arm' : Emit} (receiver : Leaves around e d (mid + 1))
    (first : ∀ around, Leaves around arm mid d') (second : ∀ around, Leaves around arm' mid d') :
    Leaves around (e ++ newLabel fun l1 => newLabel fun l2 =>
      op (branchItem jumpOn l1) ++ arm ++ op (.jumpFwd l2) ++ op (.bind l1) ++ arm' ++
        op (.bind l2)) d d' := by
  refine receiver.append (leaves_newLabel mid (fun l1 => binds_newLabel fun l2 =>
    binds_op.right.left.left) fun l1 => leaves_newLabel d' (fun l2 => binds_op.right) fun l2 => ?_)
  refine (((((leaves_branch jumpOn ?_).append (first _)).append (leaves_jumpFwd ?_)).append
    (leaves_bind (d := mid) ?_)).append (second _)).append (leaves_bind ?_) <;> simp

/-- One arm: the branch jumps past it. -/
theorem leaves_arm (jumpOn : Bool) {arm : Emit} (receiver : Leaves around e d (mid + 1))
    (first : ∀ around, Leaves around arm mid mid) :
    Leaves around (e ++ newLabel fun l1 => newLabel fun l2 =>
      op (branchItem jumpOn l1) ++ arm ++ op (.jumpFwd l2) ++ op (.bind l1) ++ op (.bind l2))
      d mid := by
  refine receiver.append (leaves_newLabel mid (fun l1 => binds_newLabel fun l2 =>
    binds_op.right.left) fun l1 => leaves_newLabel mid (fun l2 => binds_op.right) fun l2 => ?_)
  refine ((((leaves_branch jumpOn ?_).append (first _)).append (leaves_jumpFwd ?_)).append
    (leaves_bind (d := mid) ?_)).append (leaves_bind ?_) <;> simp

theorem leaves_while (jumpOn : Bool) {test body : Emit}
    (tested : ∀ around, Leaves around test d (d + 1))
    (done : ∀ around, Leaves around body d (d + 1)) :
    Leaves around (newLabel fun l0 => newLabel fun l2 =>
      op (.bind l0) ++ test ++ op (branchItem jumpOn l2) ++ body ++ op .pop ++ op (.jumpBack l0) ++
        op (.bind l2) ++ op .pushNil) d (d + 1) := by
  refine leaves_newLabel d (fun l0 => binds_newLabel fun l2 =>
    binds_op.left.left.left.left.left.left.left) fun l0 =>
      leaves_newLabel d (fun l2 => binds_op.right.left) fun l2 => ?_
  refine (((((((leaves_bind ?_).append (tested _)).append (leaves_branch jumpOn ?_)).append
    (done _)).append leaves_pop).append (leaves_jumpBack ?_)).append (leaves_bind ?_)).append
    (leaves_plain rfl fun _ => rfl) <;> simp

theorem leaves_countedLoop (iSlot limSlot : Nat) {body : Emit}
    (done : ∀ around, Leaves around body d (d + 1)) :
    Leaves around (countedLoop iSlot limSlot body) d d := by
  refine leaves_newLabel d (fun l0 => binds_newLabel fun l2 =>
    binds_op.left.left.left.left.left.left.left.left.left.left.left.left) fun l0 =>
      leaves_newLabel d (fun l2 => binds_op.right) fun l2 => ?_
  have push : ∀ {around d slot}, Leaves around (op (.pushTemp slot)) d (d + 1) :=
    leaves_plain rfl fun _ => rfl
  have one : ∀ {around d}, Leaves around (op (.pushSmiI8 1)) d (d + 1) :=
    leaves_plain rfl fun _ => rfl
  have store : ∀ {around d slot}, Leaves around (op (.storeTempPop slot)) (d + 1) d :=
    leaves_plain rfl fun _ => rfl
  refine ((((((((((((leaves_bind ?_).append push).append push).append leaves_send).append
    (leaves_branch false ?_)).append (done _)).append leaves_pop).append push).append one).append
    leaves_send).append store).append (leaves_jumpBack ?_)).append (leaves_bind ?_) <;> simp

theorem leaves_nilTest (receiver : Leaves around e d (mid + 1)) :
    Leaves around (nilTest e) d (mid + 2) := by
  have nil : Leaves around (op .pushNil) (mid + 2) (mid + 3) := leaves_plain rfl fun _ => rfl
  exact ((receiver.append leaves_dup).append nil).append leaves_send

/-! ## Bodies -/

/-- The statements of a block, dissolved anywhere, leave one value. -/
def BodyLeaves (cx : Ctx) (e : Expr) : Prop :=
  ∀ params temps body span scopeId, e = .block params temps body span scopeId →
    ∀ site around d, Leaves around (emitStatements cx site (Ending.dissolved site.inBlock) body) d (d + 1)

variable {cx : Ctx} {site : Site} {x : Expr}

theorem BodyLeaves.dissolvedBody (body : BodyLeaves cx x) :
    Leaves around (emitDissolvedBody cx site x) d (d + 1) := by
  cases x with
  | block params temps stmts span scopeId =>
    rw [emitDissolvedBody]
    exact leaves_newSlots fun first => body _ _ _ _ _ rfl (site.push _) around d
  | _ => exact leaves_fail

theorem BodyLeaves.loopBody (body : BodyLeaves cx x) (iSlot : Nat) :
    Leaves around (emitLoopBody cx site iSlot x) d (d + 1) := by
  cases x with
  | block params temps stmts span scopeId =>
    cases params with
    | nil =>
      rw [emitLoopBody]
      exact body _ _ _ _ _ rfl site around d
    | cons loopVar params =>
      rw [emitLoopBody]
      exact body _ _ _ _ _ rfl (site.push _) around d
  | _ => exact leaves_fail

theorem BodyLeaves.ifnotnilArm (body : BodyLeaves cx x) :
    Leaves around (emitIfnotnilArm cx site x) (d + 1) (d + 1) := by
  cases x with
  | block params temps stmts span scopeId =>
    cases params with
    | nil =>
      rw [emitIfnotnilArm]
      exact leaves_pop.append (leaves_newSlots fun first => body _ _ _ _ _ rfl (site.push _) around d)
    | cons param params =>
      rw [emitIfnotnilArm]
      have store : ∀ slot, Leaves around (op (.storeTempPop slot)) (d + 1) d := fun slot =>
        leaves_plain rfl fun _ => rfl
      exact leaves_newSlots fun first =>
        (store _).append (body _ _ _ _ _ rfl (site.push _) around d)
  | _ => exact leaves_fail

/-- An inlined send leaves one value; `bare` says that a loop's condition is a block. -/
theorem leaves_inlined {start : Nat} (shape : Shape) (args : List Expr) {receiver receiverBody : Emit}
    (value : ∀ around, Leaves around receiver start (d + 1))
    (condition : ∀ around, Leaves around receiverBody d (d + 1))
    (bare : start = d ∨ receiverBody = fail .panic)
    (arguments : ∀ x ∈ args, ∀ around d, Leaves around (emitExpr cx site x) d (d + 1))
    (blocks : ∀ x ∈ args, BodyLeaves cx x) :
    Leaves around (emitInlined cx site shape receiver receiverBody args) start (d + 1) := by
  have nil : ∀ around, Leaves around (op .pushNil) d (d + 1) := fun _ =>
    leaves_plain rfl fun _ => rfl
  have store : ∀ {around d slot}, Leaves around (op (.storeTempPop slot)) (d + 1) d :=
    leaves_plain rfl fun _ => rfl
  match args with
  | [] =>
    rw [emitInlined.eq_def]
    cases shape with
    | «repeat» =>
      rcases bare with rfl | rfl
      · refine leaves_newLabel start (fun l0 => binds_op.left.left.left.left) fun l0 => ?_
        refine ((((leaves_bind ?_).append (condition _)).append leaves_pop).append
          (leaves_jumpBack ?_)).append (nil _) <;> simp
      · exact fun g xs g' ok => by cases ok
    | _ => exact leaves_fail
  | [x] =>
    have block := blocks x (by simp)
    rw [emitInlined.eq_def]
    cases shape with
    | ifTrue => exact leaves_arms false (value _) (fun _ => block.dissolvedBody) nil
    | ifFalse => exact leaves_arms true (value _) (fun _ => block.dissolvedBody) nil
    | and =>
      exact leaves_arms false (value _) (fun _ => block.dissolvedBody) fun _ =>
        leaves_plain rfl fun _ => rfl
    | or =>
      exact leaves_arms true (value _) (fun _ => block.dissolvedBody) fun _ =>
        leaves_plain rfl fun _ => rfl
    | whileTrue =>
      rcases bare with rfl | rfl
      · exact leaves_while false condition fun _ => block.dissolvedBody
      · exact fun g xs g' ok => by cases ok
    | whileFalse =>
      rcases bare with rfl | rfl
      · exact leaves_while true condition fun _ => block.dissolvedBody
      · exact fun g xs g' ok => by cases ok
    | timesRepeat =>
      have one : ∀ around, Leaves around (op (.pushSmiI8 1)) (d + 1) (d + 2) := fun _ =>
        leaves_plain rfl fun _ => rfl
      refine ((value _).append leaves_dup).append (leaves_newSlots fun limSlot => ?_)
      refine store.append (leaves_newSlots fun iSlot => ?_)
      exact ((one _).append store).append
        (leaves_countedLoop _ _ fun _ => block.loopBody 0)
    | ifNil =>
      have popped : ∀ around, Leaves around (op .pop ++ emitDissolvedBody cx site x) (d + 1) (d + 1) :=
        fun _ => leaves_pop.append block.dissolvedBody
      have arm := leaves_arm false (leaves_nilTest (value around)) popped
      simp only [Emit.append_assoc] at arm ⊢
      exact arm
    | ifNotNil =>
      exact leaves_arm true (leaves_nilTest (value around)) fun _ => block.ifnotnilArm
    | _ => exact leaves_fail
  | [x, y] =>
    have blockX := blocks x (by simp)
    have blockY := blocks y (by simp)
    rw [emitInlined.eq_def]
    cases shape with
    | ifTrueIfFalse =>
      exact leaves_arms false (value _) (fun _ => blockX.dissolvedBody) fun _ => blockY.dissolvedBody
    | ifFalseIfTrue =>
      exact leaves_arms false (value _) (fun _ => blockY.dissolvedBody) fun _ => blockX.dissolvedBody
    | ifNilIfNotNil =>
      have popped : ∀ around, Leaves around (op .pop ++ emitDissolvedBody cx site x) (d + 1) (d + 1) :=
        fun _ => leaves_pop.append blockX.dissolvedBody
      have bound : ∀ around, Leaves around (emitIfnotnilArm cx site y) (d + 1) (d + 1) :=
        fun _ => blockY.ifnotnilArm
      have arms := leaves_arms false (leaves_nilTest (value around)) popped bound
      simp only [Emit.append_assoc] at arms ⊢
      exact arms
    | ifNotNilIfNil =>
      have bound : ∀ around, Leaves around (emitIfnotnilArm cx site x) (d + 1) (d + 1) :=
        fun _ => blockX.ifnotnilArm
      have popped : ∀ around, Leaves around (op .pop ++ emitDissolvedBody cx site y) (d + 1) (d + 1) :=
        fun _ => leaves_pop.append blockY.dissolvedBody
      have arms := leaves_arms true (leaves_nilTest (value around)) bound popped
      simp only [Emit.append_assoc] at arms ⊢
      exact arms
    | toDo =>
      have limit := arguments x (by simp)
      refine ((value _).append leaves_dup).append (leaves_newSlots fun iSlot => ?_)
      refine (store.append (limit _ _)).append (leaves_newSlots fun limSlot => ?_)
      exact store.append (leaves_countedLoop _ _ fun _ => blockY.loopBody _)
    | _ => exact leaves_fail
  | x :: y :: z :: args =>
    rw [emitInlined]
    · exact leaves_fail
    all_goals simp

/-- How a sequence of statements ends, when it is to end at `d'`. -/
structure Ending.Leaves (ending : Ending) (d d' : Nat) : Prop where
  empty : ∀ around, WinVm.Frontend.Leaves around ending.empty d d'
  afterReturn : ∀ around, WinVm.Frontend.Leaves around ending.afterReturn (d + 1) d'
  afterValue : ∀ around, WinVm.Frontend.Leaves around ending.afterValue (d + 1) d'

theorem dissolved_leaves (inBlock : Bool) (d : Nat) : (Ending.dissolved inBlock).Leaves d (d + 1) where
  empty _ := leaves_plain rfl fun _ => rfl
  afterReturn _ := leaves_explicitReturn inBlock
  afterValue _ := leaves_skip

theorem leaves_statementDiscard (isBlock : Bool) (stmt : Expr) {operand whole : Emit}
    (value : (∃ e span, stmt = .ret e span) ∨ (∃ name e span, stmt = .assign name e span) →
      Leaves around operand d (d + 1))
    (all : Leaves around whole d (d + 1)) :
    Leaves around (emitStatementDiscard cx site isBlock stmt operand whole) d d := by
  have line : Leaves around (op (.noteLine stmt.span.line)) d d := leaves_plain rfl fun _ => rfl
  refine line.append ?_
  cases stmt with
  | ret e span => exact (value (.inl ⟨e, span, rfl⟩)).append (leaves_explicitReturn isBlock)
  | assign name e span =>
    exact (value (.inr ⟨name, e, span, rfl⟩)).append (leaves_access cx site name span true rfl)
  | _ => exact all.append leaves_pop

theorem leaves_lastStatement {ending : Ending} (ends : ending.Leaves d d') (stmt : Expr)
    {operand whole : Emit}
    (value : (∃ e span, stmt = .ret e span) ∨ (∃ name e span, stmt = .assign name e span) →
      Leaves around operand d (d + 1))
    (all : Leaves around whole d (d + 1)) :
    Leaves around (emitLastStatement cx site ending stmt operand whole) d d' := by
  have line : Leaves around (op (.noteLine stmt.span.line)) d d := leaves_plain rfl fun _ => rfl
  cases stmt with
  | ret e span => exact (value (.inl ⟨e, span, rfl⟩)).append (ends.afterReturn _)
  | assign name e span =>
    have store : Leaves around (emitStore cx site name span) (d + 2) (d + 1) :=
      leaves_access cx site name span true rfl
    have stored := ((value (.inr ⟨name, e, span, rfl⟩)).append leaves_dup).append store
    exact (line.append stored).append (ends.afterValue _)
  | _ => exact (line.append all).append (ends.afterValue _)

/-- The values an expression begins with: a segment of a cascade has its receiver. -/
def begun (segment : Bool) : Nat := if segment then 1 else 0

theorem bare_segment {e : Expr} {segment : Bool} (regular : e.regular segment = true) :
    begun segment = 0 ∨ emitDissolvedBody cx site e = fail .panic := by
  cases segment with
  | false => exact .inl rfl
  | true =>
    cases e with
    | block => simp [Expr.regular] at regular
    | _ => exact .inr rfl

end

section

variable {cx : Ctx} (small : ∀ n < 256, cx.as8 n = n)

include small

mutual

theorem leaves_expr (e : Expr) (segment : Bool) (regular : e.regular segment = true) (site : Site)
    (around : List (Nat × Nat)) (d : Nat) :
    Leaves around (emitExpr cx site e) (d + begun segment) (d + 1) := by
  match e with
  | .selfRef _ =>
    obtain rfl : segment = false := by simpa [Expr.regular] using regular
    rw [emitExpr]
    exact leaves_plain rfl fun _ => rfl
  | .cascadeRcvr _ =>
    obtain rfl : segment = true := by simpa [Expr.regular] using regular
    rw [emitExpr]
    exact leaves_skip
  | .lit l _ =>
    obtain rfl : segment = false := by simpa [Expr.regular] using regular
    rw [emitExpr]
    exact leaves_literal l
  | .var name span =>
    obtain rfl : segment = false := by simpa [Expr.regular] using regular
    rw [emitExpr]
    exact leaves_access cx site name span false rfl
  | .assign name value span =>
    obtain ⟨rfl, regular⟩ : segment = false ∧ value.regular false = true := by
      simpa [Expr.regular] using regular
    rw [emitExpr]
    exact ((leaves_expr value false regular site around d).append leaves_dup).append
      (leaves_access cx site name span true rfl)
  | .send receiver selector args isSuper _ =>
    obtain ⟨⟨regularR, few⟩, regularA⟩ : (receiver.regular segment = true ∧ args.length < 256) ∧
        regularAll false args = true := by
      simpa [Expr.regular] using regular
    have value := fun around => leaves_expr receiver segment regularR site around d
    rw [emitExpr]
    split
    · next shape _ =>
      have condition : BodyLeaves cx receiver := fun params temps body span scopeId is => by
        subst is
        exact leaves_body body (regular_body regularR)
      refine leaves_inlined shape args value (fun _ => condition.dissolvedBody) ?_
        (fun x mem => leaves_expr x false (regular_mem regularA mem) site)
        fun x mem params temps body span scopeId is =>
          have := List.sizeOf_lt_of_mem mem
          have := body_lt is
          leaves_body body (regular_body (is ▸ regular_mem regularA mem))
      exact (bare_segment regularR).imp (fun zero => by rw [zero]; rfl) id
    · rw [small _ few]
      exact ((value around).append (leaves_args args regularA site around (d + 1))).append leaves_send
  | .cascade receiver segments _ =>
    obtain ⟨⟨rfl, regularR⟩, regularS⟩ : (segment = false ∧ receiver.regular false = true) ∧
        regularAll true segments = true := by
      simpa [Expr.regular] using regular
    rw [emitExpr]
    exact (leaves_expr receiver false regularR site around d).append
      (leaves_segments segments regularS site around d)
  | .dynArray elems _ =>
    obtain ⟨rfl, regular⟩ : segment = false ∧ regularAll false elems = true := by
      simpa [Expr.regular] using regular
    have arrayClass : Leaves around (op (.pushLiteral .arrayClass)) d (d + 1) :=
      leaves_plain rfl fun _ => rfl
    rw [emitExpr]
    exact ((arrayClass.append (leaves_literal _)).append leaves_send).append
      (leaves_elems 0 elems regular site around d)
  | .block params temps body span scopeId =>
    obtain ⟨rfl, -⟩ : segment = false ∧ regularAll false body = true := by
      simpa [Expr.regular] using regular
    rw [emitExpr]
    exact leaves_blockLiteral cx span scopeId _ _
  | .ret _ _ =>
    rw [emitExpr]
    exact leaves_fail
termination_by (sizeOf e, 0)

theorem leaves_args (args : List Expr) (regular : regularAll false args = true) (site : Site)
    (around : List (Nat × Nat)) (d : Nat) :
    Leaves around (emitArgs cx site args) d (d + args.length) := by
  match args with
  | [] =>
    rw [emitArgs]
    exact leaves_skip
  | e :: args =>
    obtain ⟨regularE, regular⟩ := regularAll_cons.mp regular
    rw [emitArgs, List.length_cons, Nat.add_comm args.length 1, ← Nat.add_assoc]
    exact (leaves_expr e false regularE site around d).append
      (leaves_args args regular site around (d + 1))
termination_by (sizeOf args, 0)

theorem leaves_segments (segments : List Expr) (regular : regularAll true segments = true)
    (site : Site) (around : List (Nat × Nat)) (d : Nat) :
    Leaves around (emitSegments cx site segments) (d + 1) (d + 1) := by
  match segments with
  | [] =>
    rw [emitSegments]
    exact leaves_skip
  | [seg] =>
    rw [emitSegments]
    exact leaves_expr seg true (by simpa [regularAll] using regular) site around d
  | seg :: next :: segments =>
    obtain ⟨regularS, regular⟩ := regularAll_cons.mp regular
    rw [emitSegments]
    · exact ((leaves_dup.append (leaves_expr seg true regularS site around (d + 1))).append
        leaves_pop).append (leaves_segments (next :: segments) regular site around d)
    · simp
termination_by (sizeOf segments, 0)

theorem leaves_elems (i : Nat) (elems : List Expr) (regular : regularAll false elems = true)
    (site : Site) (around : List (Nat × Nat)) (d : Nat) :
    Leaves around (emitElems cx site i elems) (d + 1) (d + 1) := by
  match elems with
  | [] =>
    rw [emitElems]
    exact leaves_skip
  | el :: elems =>
    obtain ⟨regularE, regular⟩ := regularAll_cons.mp regular
    rw [emitElems]
    have value := leaves_expr el false regularE site around (d + 3)
    have put : Leaves around (op (.send false "at:put:" 2)) (d + 4) (d + 2) := leaves_send
    exact ((((leaves_dup.append (leaves_literal _)).append value).append put).append leaves_pop).append
      (leaves_elems (i + 1) elems regular site around d)
termination_by (sizeOf elems, 0)

theorem leaves_body (body : List Expr) (regular : regularAll false body = true) (site : Site)
    (around : List (Nat × Nat)) (d : Nat) :
    Leaves around (emitStatements cx site (Ending.dissolved site.inBlock) body) d (d + 1) :=
  leaves_statements body regular site around (dissolved_leaves site.inBlock d)
termination_by (sizeOf body, 1)

theorem leaves_statements (stmts : List Expr) (regular : regularAll false stmts = true) (site : Site)
    (around : List (Nat × Nat)) {ending : Ending} {d d' : Nat} (ends : ending.Leaves d d') :
    Leaves around (emitStatements cx site ending stmts) d d' := by
  match stmts with
  | [] =>
    rw [emitStatements]
    exact ends.empty around
  | [last] =>
    have regular : last.regular false = true := by simpa [regularAll] using regular
    rw [emitStatements]
    exact leaves_lastStatement ends last (leaves_operand last regular site around d)
      (leaves_expr last false regular site around d)
  | stmt :: next :: stmts =>
    obtain ⟨regularS, regular⟩ := regularAll_cons.mp regular
    rw [emitStatements]
    · exact (leaves_statementDiscard _ stmt (leaves_operand stmt regularS site around d)
        (leaves_expr stmt false regularS site around d)).append
        (leaves_statements (next :: stmts) regular site around ends)
    · simp
termination_by (sizeOf stmts, 0)

theorem leaves_operand (e : Expr) (regular : e.regular false = true) (site : Site)
    (around : List (Nat × Nat)) (d : Nat)
    (operand : (∃ value span, e = .ret value span) ∨ ∃ name value span, e = .assign name value span) :
    Leaves around (emitOperand cx site e) d (d + 1) := by
  match e with
  | .ret value _ =>
    rw [emitOperand]
    exact leaves_expr value false (by simpa [Expr.regular] using regular) site around d
  | .assign _ value _ =>
    rw [emitOperand]
    exact leaves_expr value false (by simpa [Expr.regular] using regular) site around d
  | .selfRef _ | .cascadeRcvr _ | .lit _ _ | .var _ _ | .send _ _ _ _ _
  | .cascade _ _ _ | .dynArray _ _ | .block _ _ _ _ _ => simp at operand
termination_by (sizeOf e, 0)

end

end

/-! ## Running balanced code -/

/-- The depth at every place of some code. -/
def Places (depth place : Nat → Nat) (code : List Item) : Prop :=
  ∀ (pc : Nat) (i : Item), code[pc]? = some i → i.Goes depth (place pc) (place (pc + 1))

theorem Balanced.places {depth : Nat → Nat} {xs : List Item} {d d' : Nat}
    (balanced : Balanced depth xs d d') :
    ∃ place, Places depth place xs ∧ place 0 = d ∧ place xs.length = d' := by
  induction xs generalizing d with
  | nil =>
    obtain rfl : d = d' := balanced
    exact ⟨fun _ => d, fun pc i is => (by simp at is), rfl, rfl⟩
  | cons i is ih =>
    obtain ⟨mid, goes, rest⟩ := balanced
    obtain ⟨place, each, first, last⟩ := ih rest
    refine ⟨fun pc => if pc = 0 then d else place (pc - 1), fun pc j is => ?_, rfl, last⟩
    cases pc with
    | zero =>
      cases is
      rw [← first] at goes
      exact goes
    | succ pc => exact each pc j is

section

variable {V W : Type} [DecidableEq V] {a : Activated V W} {code : List Item} {depth place : Nat → Nat}

/-- A label stands where it is bound. -/
theorem Places.label (places : Places depth place code) {l : Nat} (bound : .bind l ∈ code) :
    place (labelPos code l) = depth l := by
  have lt : labelPos code l < code.length :=
    List.findIdx_lt_length_of_exists ⟨_, bound, by simp [Item.binds]⟩
  obtain ⟨i, is⟩ : ∃ i, code[labelPos code l]? = some i := ⟨_, List.getElem?_eq_getElem lt⟩
  have found : Item.binds l i = true := by
    obtain ⟨_, rfl⟩ := List.getElem?_eq_some_iff.mp is
    exact List.findIdx_getElem
  cases i with
  | bind l' =>
    obtain rfl : l' = l := by simpa [Item.binds] using found
    exact (places _ _ is).1
  | _ => cases found

theorem write_operands {f f' : Frame V W} {v : V} {ref : VarRef} (written : a.write f v ref = some f') :
    f'.pc = f.pc ∧ f'.stack = f.stack := by
  cases ref with
  | captured depth k =>
    obtain ⟨cell, -, rfl⟩ := Option.map_eq_some_iff.mp written
    exact ⟨rfl, rfl⟩
  | «local» | instVar | global =>
    cases written
    exact ⟨rfl, rfl⟩

/-- A step keeps the operands at the depth of the place it reaches. -/
theorem machine_step (f : Frame V W) : (a.machine code).step f =
    match code[f.pc]? with
    | some i => a.exec code f i
    | none => ([], .stuck) := rfl

theorem step_operands (places : Places depth place code) (bound : Bound [] code) {f f' : Frame V W}
    {events : List (Event V)} (at_ : f.stack.length = place f.pc)
    (stepped : (a.machine code).step f = (events, .at f')) : f'.stack.length = place f'.pc := by
  rw [machine_step] at stepped
  cases is : code[f.pc]? with
  | none =>
    rw [is] at stepped
    cases stepped
  | some i =>
    rw [is] at stepped
    have goes := places f.pc i is
    have label : ∀ l, i.label? = some l → place (labelPos code l) = depth l := fun l isLabel =>
      places.label ((bound i (List.mem_of_getElem? is) l isLabel).resolve_left (by simp))
    obtain ⟨pc, stack, slots, w⟩ := f
    simp only at stepped at_ goes
    cases i with
    | noteLine | bind =>
      cases stepped
      simp_all [Item.Goes, Frame.next]
    | pushSelf | pushNil | pushTrue | pushFalse | pushSmiI8 | pushLiteral | pushTemp | pushClosure =>
      cases stepped
      simp_all [Item.Goes, Frame.next, Frame.push]
    | load name ref =>
      simp only [Activated.exec] at stepped
      split at stepped <;> cases stepped
      simp_all [Item.Goes, Frame.next, Frame.push]
    | store name ref =>
      cases stack with
      | nil => cases stepped
      | cons v stack =>
        simp only [Activated.exec] at stepped
        split at stepped
        · next f written =>
          cases stepped
          obtain ⟨isPc, isStack⟩ := write_operands written
          simp_all [Item.Goes, Frame.next]
        · cases stepped
    | storeTempPop | pop =>
      cases stack <;> cases stepped
      simp_all [Item.Goes, Frame.next]
    | storeCtxTempPop owner k =>
      cases stack with
      | nil => cases stepped
      | cons v stack =>
        simp only [Activated.exec] at stepped
        split at stepped
        · next f written =>
          cases stepped
          obtain ⟨isPc, isStack⟩ := write_operands written
          simp_all [Item.Goes, Frame.next]
        · cases stepped
    | dup =>
      cases stack <;> cases stepped
      simp_all [Item.Goes, Frame.next, Frame.push]
    | send isSuper selector argc =>
      simp only [Activated.exec] at stepped
      split at stepped
      · next receiver rest dropped =>
        have count := congrArg List.length dropped
        simp only [List.length_drop, List.length_cons] at count
        split at stepped
        · cases stepped
          simp only [Item.Goes, Frame.next, List.length_cons] at goes ⊢
          omega
        · cases stepped
      · cases stepped
    | jumpFwd l | jumpBack l =>
      cases stepped
      simp_all [Item.Goes, Frame.jump, Item.label?]
    | brTrueFwd l | brFalseFwd l =>
      cases stack with
      | nil => cases stepped
      | cons v stack =>
        simp only [Activated.exec, Activated.branch] at stepped
        have target := label l rfl
        split at stepped
        · cases stepped
          simp_all [Item.Goes, Frame.jump]
        · split at stepped
          · cases stepped
            simp_all [Item.Goes, Frame.next]
          · cases stepped
    | retTos | blockReturnTos | nlrTos => cases stack <;> cases stepped
    | retSelf => cases stepped

theorem run_operands (places : Places depth place code) (bound : Bound [] code) {n : Nat}
    {f f' : Frame V W} {events : List (Event V)} (at_ : f.stack.length = place f.pc)
    (ran : (a.machine code).run n f = (events, .at f')) : f'.stack.length = place f'.pc := by
  induction n generalizing f events with
  | zero =>
    cases ran
    exact at_
  | succ n ih =>
    rw [Machine.run] at ran
    split at ran
    · next first mid stepped =>
      simp only [Prod.mk.injEq] at ran
      exact ih (step_operands places bound at_ stepped) (Prod.ext rfl ran.2)
    · next last other => exact absurd ran (other _ _)

end

/-- The code of every expression, whatever runs it and from whatever operands, ends with one
value more. -/
def ExpressionsLeaveOne (V W : Type) [DecidableEq V] (cx : Ctx) : Prop :=
  ∀ (e : Expr) (site : Site) (g : Gen) (xs : List Item) (g' : Gen), e.regular false = true →
    emitExpr cx site e g = .ok (xs, g') →
    ∀ (a : Activated V W) (n : Nat) (stack : List V) (slots : Nat → V) (world : W)
      (events : List (Event V)) (f : Frame V W),
      (a.machine xs).run n ⟨0, stack, slots, world⟩ = (events, .at f) → f.pc = xs.length →
      f.stack.length = stack.length + 1

theorem expressions_leave_one {V W : Type} [DecidableEq V] {cx : Ctx}
    (small : ∀ n < 256, cx.as8 n = n) : ExpressionsLeaveOne V W cx := by
  intro e site g xs g' regular ok a n stack slots world events f ran done
  obtain ⟨-, -, bound, balanced⟩ := leaves_expr small e false regular site [] stack.length g xs g' ok
    (by simp)
  obtain ⟨depth, -, flows⟩ := balanced (fun _ => 0) (by simp)
  obtain ⟨place, places, first, last⟩ := flows.places
  have operands := run_operands places bound (f := ⟨0, stack, slots, world⟩) (by rw [first]; rfl) ran
  rw [operands, done, last]

end WinVm.Frontend
