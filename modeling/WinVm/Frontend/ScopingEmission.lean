import Mathlib
import WinVm.Frontend.Scoping

/-!
# Emission follows the outline

The accesses of a unit come in the order of the outline's occurrences, every one the
`resolve_var` of its occurrence under the blocks that are open there. `Emits` says this of
one piece of emission, and a rule for each way the pieces are put together carries it
through the inlined constructs.
-/

namespace WinVm.Frontend

open Emit

/-! ## Pieces -/

theorem Emit.append_ok {a b : Emit} {g g' : Gen} {zs : List Item}
    (ok : (a ++ b) g = .ok (zs, g')) :
    ∃ xs ys mid, a g = .ok (xs, mid) ∧ b mid = .ok (ys, g') ∧ zs = xs ++ ys := by
  change Emit.append a b g = _ at ok
  unfold Emit.append at ok
  split at ok
  · cases ok
  · next xs mid first =>
    split at ok
    · cases ok
    · next ys last second =>
      cases ok
      exact ⟨xs, ys, mid, first, second, rfl⟩

/-- The hoist stack of code generation, as the blocks that are open. -/
def HoistsOf (as8 : Nat → Nat) (hoist : List HoistScope) (u : UnitScope) : Prop :=
  ∀ name, (hoist.findSome? fun h => h.get name) = (u.hoistSlot name).map as8

structure Site.Follows (as8 : Nat → Nat) (site : Site) (u : UnitScope) : Prop where
  scopeId : site.scopeId = u.scope
  hoist : HoistsOf as8 site.hoist u

/-- The access is what `resolve_var` answers at the occurrence. -/
def Access.Resolves (cx : Ctx) (a : Access) (o : Occurrence) : Prop :=
  a.name = o.name ∧ a.isWrite = o.isWrite ∧
    ∃ u outer hoist globals globals' span, o.chain = u :: outer ∧ HoistsOf cx.as8 hoist u ∧
      cx.resolveVar hoist u.scope globals o.name span o.isWrite = .ok (a.ref, globals')

def CodeUnit.Follows (cx : Ctx) (unit : CodeUnit) (l : LexUnit) : Prop :=
  List.Forall₂ (Access.Resolves cx) (accesses unit.code) l.occurrences

/-- Emission `e` follows the outline `o`, in unit `u` with `base` variables before it. -/
def Emits (cx : Ctx) (u : UnitScope) (outer : List UnitScope) (base : Nat) (o : Outline)
    (e : Emit) : Prop :=
  ∀ g xs g', e g = .ok (xs, g') →
    g'.nextHoistSlot = g.nextHoistSlot + o.slots ∧
    List.Forall₂ (Access.Resolves cx) (accesses xs) (o.occurrences u outer base g.nextHoistSlot) ∧
    ∃ us, g'.units = g.units ++ us ∧
      List.Forall₂ (CodeUnit.Follows cx) us
        (o.units cx.capture.frameTemps u outer base g.nextHoistSlot)

variable {cx : Ctx} {u : UnitScope} {outer : List UnitScope} {base : Nat}

attribute [local simp] Outline.slots Outline.folded Outline.occurrences Outline.units

@[simp] theorem accesses_append (xs ys : List Item) :
    accesses (xs ++ ys) = accesses xs ++ accesses ys :=
  List.filterMap_append

theorem emits_skip : Emits cx u outer base .done skip := by
  rintro g xs g' ok
  cases ok
  exact ⟨rfl, .nil, [], by simp, .nil⟩

theorem emits_op {i : Item} (plain : i.access? = none) : Emits cx u outer base .done (op i) := by
  rintro g xs g' ok
  cases ok
  exact ⟨rfl, by simp [accesses, plain], [], by simp, .nil⟩

theorem emits_fail {o : Outline} {f : Fault} : Emits cx u outer base o (fail f) := by
  rintro g xs g' ok
  cases ok

theorem Emits.seq {a b : Outline} {e f : Emit} (first : Emits cx u outer base a e)
    (second : Emits cx u outer (base + a.folded.length) b f) :
    Emits cx u outer base (.seq a b) (e ++ f) := by
  rintro g zs g' ok
  obtain ⟨xs, ys, mid, okE, okF, rfl⟩ := Emit.append_ok ok
  obtain ⟨nextE, accE, usE, unitsE, followE⟩ := first g xs mid okE
  obtain ⟨nextF, accF, usF, unitsF, followF⟩ := second mid ys g' okF
  rw [nextE] at accF followF
  refine ⟨by rw [nextF, nextE]; simp [Nat.add_assoc], ?_,
    usE ++ usF, by rw [unitsF, unitsE, List.append_assoc], ?_⟩
  · rw [accesses_append]
    exact List.rel_append accE accF
  · exact List.rel_append followE followF

/-- Emission that only differs from another by an outline of the same content. -/
theorem Emits.congr {a b : Outline} {e : Emit} (emits : Emits cx u outer base a e)
    (slots : a.slots = b.slots)
    (occurrences : ∀ next, a.occurrences u outer base next = b.occurrences u outer base next)
    (units : ∀ first next, a.units first u outer base next = b.units first u outer base next) :
    Emits cx u outer base b e := by
  rintro g xs g' ok
  obtain ⟨next, acc, us, unitsE, follow⟩ := emits g xs g' ok
  rw [slots] at next
  rw [occurrences] at acc
  rw [units] at follow
  exact ⟨next, acc, us, unitsE, follow⟩

theorem Emits.andThen {o : Outline} {e f : Emit} (done : Emits cx u outer base .done e)
    (emits : Emits cx u outer base o f) : Emits cx u outer base o (e ++ f) := by
  have emits : Emits cx u outer (base + Outline.done.folded.length) o f := emits
  refine (done.seq emits).congr ?_ ?_ ?_
  · simp
  · simp
  · simp

theorem Emits.thenDone {o : Outline} {e f : Emit} (emits : Emits cx u outer base o e)
    (done : Emits cx u outer (base + o.folded.length) .done f) :
    Emits cx u outer base o (e ++ f) := by
  refine (emits.seq done).congr ?_ ?_ ?_
  · simp
  · simp
  · simp

theorem Emits.thenOp {o : Outline} {e : Emit} {i : Item} (emits : Emits cx u outer base o e)
    (plain : i.access? = none) : Emits cx u outer base o (e ++ op i) :=
  emits.thenDone (emits_op plain)

/-- The last of a sequence. -/
theorem Emits.last {o : Outline} {e : Emit} (emits : Emits cx u outer base o e) :
    Emits cx u outer base (.seq o .done) e := by
  refine emits.congr ?_ ?_ ?_
  · simp
  · simp
  · simp

theorem emits_newLabel {o : Outline} {k : Nat → Emit}
    (emits : ∀ l, Emits cx u outer base o (k l)) : Emits cx u outer base o (newLabel k) := by
  rintro g xs g' ok
  exact emits g.labels { g with labels := g.labels + 1 } xs g' ok

theorem emits_hidden {o : Outline} {k : Nat → Emit}
    (emits : ∀ slot, Emits cx u outer base o (k slot)) :
    Emits cx u outer base (.seq .hidden o) (newSlots 1 k) := by
  rintro g xs g' ok
  obtain ⟨next, acc, us, units, follow⟩ :=
    emits g.nextHoistSlot { g with nextHoistSlot := g.nextHoistSlot + 1 } xs g' ok
  refine ⟨?_, ?_, us, units, ?_⟩
  · rw [next]
    simp only [Outline.slots]
    omega
  · simpa [Outline.occurrences, Outline.folded, Outline.slots] using acc
  · simpa [Outline.units, Outline.folded, Outline.slots] using follow

theorem emits_arms {a b : Outline} {e f : Emit}
    (first : Emits cx u outer (base + a.folded.length) b e)
    (second : Emits cx u outer base a f) : Emits cx u outer base (.arms a b) (e ++ f) := by
  rintro g zs g' ok
  obtain ⟨xs, ys, mid, okE, okF, rfl⟩ := Emit.append_ok ok
  obtain ⟨nextE, accE, usE, unitsE, followE⟩ := first g xs mid okE
  obtain ⟨nextF, accF, usF, unitsF, followF⟩ := second mid ys g' okF
  rw [nextE] at accF followF
  refine ⟨by rw [nextF, nextE]; simp only [Outline.slots]; omega, ?_,
    usE ++ usF, by rw [unitsF, unitsE, List.append_assoc], ?_⟩
  · rw [accesses_append]
    exact List.rel_append accE accF
  · exact List.rel_append followE followF

/-- Arms, with the code that ends the construct. -/
theorem emits_armsThen {a b : Outline} {e f : Emit} {i : Item}
    (first : Emits cx u outer (base + a.folded.length) b e)
    (second : Emits cx u outer base a f) (plain : i.access? = none) :
    Emits cx u outer base (.arms a b) (e ++ f ++ op i) :=
  (emits_arms first second).thenOp plain

/-! ## Hoisting -/

theorem lookup_mapIdx_reverse {β : Type} (f : Nat → β) :
    ∀ (names : List String), names.Nodup → ∀ name,
      ((names.mapIdx fun i x => (x, f i)).reverse).lookup name =
        (names.mapIdx fun i x => (x, f i)).lookup name := by
  intro names distinct name
  induction names generalizing f with
  | nil => rfl
  | cons x xs ih =>
    obtain ⟨notMem, distinct⟩ := List.nodup_cons.mp distinct
    rw [List.mapIdx_cons, List.reverse_cons, List.lookup_append]
    rw [ih (fun i => f (i + 1)) distinct]
    have absent : (xs.mapIdx fun i y => (y, f (i + 1))).lookup x = none := by
      rw [List.lookup_eq_none_iff]
      rintro ⟨y, v⟩ mem
      simp only [List.mem_mapIdx, Prod.mk.injEq] at mem
      obtain ⟨i, lt, rfl, -⟩ := mem
      simp only [ne_eq, bne_iff_ne]
      rintro rfl
      exact notMem (List.getElem_mem lt)
    by_cases same : name = x
    · subst same
      simp [absent, List.lookup]
    · have differ : (name == x) = false := by simpa using same
      simp [List.lookup, differ, Option.or_none]

theorem lookup_mapIdx_map {β γ : Type} (g : β → γ) (f : Nat → β) (names : List String)
    (name : String) :
    (names.mapIdx fun i x => (x, g (f i))).lookup name =
      ((names.mapIdx fun i x => (x, f i)).lookup name).map g := by
  induction names generalizing f with
  | nil => rfl
  | cons x xs ih =>
    simp only [List.mapIdx_cons, List.lookup_cons]
    rw [ih fun i => f (i + 1)]
    cases name == x <;> rfl

/-- A hoist scope as it is pushed, beside the block that is opened. -/
theorem hoistNames_get (as8 : Nat → Nat) (first : Nat) {names : List String}
    (distinct : names.Nodup) (name : String) :
    (hoistNames as8 first names).get name =
      (((hoistedVars first names).lookup name).bind Storage.slot?).map as8 := by
  rw [HoistScope.get, hoistNames, lookup_mapIdx_reverse (fun i => as8 (first + i)) names distinct,
    lookup_mapIdx_map as8, hoistedVars, lookup_mapIdx_map Storage.hoisted]
  cases (names.mapIdx fun i x => (x, first + i)).lookup name <;> rfl

theorem Site.Follows.push {as8 : Nat → Nat} {site : Site} (follows : site.Follows as8 u)
    {h : HoistScope} {vars : List (String × Storage)}
    (entry : ∀ name, h.get name = ((vars.lookup name).bind Storage.slot?).map as8) :
    (site.push h).Follows as8 (u.enter vars) := by
  refine ⟨follows.scopeId, fun name => ?_⟩
  have rest := follows.hoist name
  simp only [Site.push, UnitScope.enter, UnitScope.hoistSlot, List.findSome?_cons] at rest ⊢
  rw [entry name]
  cases (vars.lookup name).bind Storage.slot? with
  | some slot => rfl
  | none => simpa [UnitScope.hoistSlot] using rest

theorem looseVars_noSlot (first : Nat) (names : List String) (name : String) :
    ((looseVars first names).lookup name).bind Storage.slot? = none := by
  rw [looseVars, lookup_mapIdx_map Storage.var]
  cases (names.mapIdx fun i x => (x, first + i)).lookup name <;> rfl

/-- Names that stay with the unit open a block that hoists nothing. -/
theorem Site.Follows.loose {as8 : Nat → Nat} {site : Site} (follows : site.Follows as8 u)
    (first : Nat) (names : List String) :
    site.Follows as8 (u.enter (looseVars first names)) := by
  refine ⟨follows.scopeId, fun name => ?_⟩
  rw [follows.hoist name]
  simp [UnitScope.enter, UnitScope.hoistSlot, looseVars_noSlot]

/-! ## Accesses, blocks and loops -/

theorem emits_access {site : Site} (follows : site.Follows cx.as8 u) (name : String) (span : Span)
    (isWrite : Bool) :
    Emits cx u outer base (.occ name isWrite) (emitAccess cx site name span isWrite) := by
  rintro g xs g' ok
  unfold emitAccess at ok
  split at ok
  · cases ok
  · next ref globals resolved =>
    cases ok
    rw [follows.scopeId] at resolved
    refine ⟨rfl, ?_, [], by simp, .nil⟩
    have access : accesses [if isWrite then Item.store name ref else .load name ref] =
        [⟨name, isWrite, ref⟩] := by
      cases isWrite <;> rfl
    rw [access]
    exact .cons ⟨rfl, rfl, u, outer, site.hoist, g.globals, globals, span, rfl, follows.hoist,
      resolved⟩ .nil

theorem emits_dissolved {names : List String} {body : Outline} {k : Nat → Emit}
    (emits : ∀ next, Emits cx (u.enter (hoistedVars next names)) outer (base + names.length) body
      (k next)) :
    Emits cx u outer base (.dissolved names body) (newSlots names.length k) := by
  rintro g xs g' ok
  obtain ⟨next, acc, us, units, follow⟩ := emits g.nextHoistSlot
    { g with nextHoistSlot := g.nextHoistSlot + names.length } xs g' ok
  refine ⟨?_, acc, us, units, follow⟩
  rw [next, Outline.slots, Nat.add_assoc]

theorem Emits.loose {names : List String} {body : Outline} {e : Emit}
    (emits : Emits cx (u.enter (looseVars base names)) outer (base + names.length) body e) :
    Emits cx u outer base (.loose names body) e :=
  emits

theorem emits_counted {loopVar : String} {temps : List String} {limit body : Outline}
    {pre : Nat → Emit} {loop : Nat → Nat → Emit}
    (emitsLimit : ∀ i, Emits cx u outer base limit (pre i))
    (emitsLoop : ∀ i lim, Emits cx
      (u.enter ((loopVar, .hoisted i) :: looseVars (base + limit.folded.length + 1) temps)) outer
      (base + limit.folded.length + 1 + temps.length) body (loop i lim)) :
    Emits cx u outer base (.counted loopVar temps limit body)
      (newSlots 1 fun i => pre i ++ newSlots 1 fun lim => loop i lim) := by
  rintro g zs g' ok
  obtain ⟨xs, ys, mid, okL, okB, rfl⟩ := Emit.append_ok ok
  obtain ⟨nextL, accL, usL, unitsL, followL⟩ := emitsLimit g.nextHoistSlot _ xs mid okL
  obtain ⟨nextB, accB, usB, unitsB, followB⟩ := emitsLoop g.nextHoistSlot mid.nextHoistSlot
    { mid with nextHoistSlot := mid.nextHoistSlot + 1 } ys g' okB
  have start : mid.nextHoistSlot + 1 = g.nextHoistSlot + (2 + limit.slots) := by
    rw [nextL]
    dsimp only
    omega
  dsimp only at accB followB nextB
  rw [start] at accB followB nextB
  refine ⟨by rw [nextB, Outline.slots]; omega, ?_, usL ++ usB, ?_, ?_⟩
  · rw [accesses_append]
    exact List.rel_append accL accB
  · rw [unitsB]
    simp [unitsL]
  · exact List.rel_append followL followB

theorem accesses_prologue (as8 : Nat → Nat) (info : ScopeInfo) :
    accesses (emitPrologue as8 info) = [] := by
  unfold emitPrologue
  split
  · rw [accesses, List.filterMap_flatten]
    refine List.flatten_eq_nil_iff.mpr fun items mem => ?_
    rw [List.mem_map] at mem
    obtain ⟨pieces, inPieces, rfl⟩ := mem
    rw [List.mem_mapIdx] at inPieces
    obtain ⟨i, lt, rfl⟩ := inPieces
    split <;> rfl
  · rfl

theorem emits_real {params temps : List String} {body : Outline} {span : Span} {scopeId : Nat}
    {e : Emit}
    (emits : Emits cx (Outline.realScope scopeId params temps body) (u :: outer)
      (params ++ temps).length body e) :
    Emits cx u outer base (.real scopeId params temps body)
      (emitBlockLiteral cx span scopeId params.length e) := by
  rintro g xs g' ok
  unfold emitBlockLiteral at ok
  split at ok
  · cases ok
  next info found =>
  split at ok
  · cases ok
  split at ok
  · cases ok
  next code inner okBody =>
  cases ok
  obtain ⟨-, acc, us, units, follow⟩ := emits _ code inner okBody
  have start : cx.capture.frameTemps scopeId = info.frameTempCount := by
    simp [CaptureInfo.frameTemps, found]
  rw [Outline.units, Outline.occurrences, start]
  refine ⟨rfl, .nil, us ++ [_], by rw [units, List.append_assoc], List.rel_append follow ?_⟩
  refine .cons ?_ .nil
  rw [CodeUnit.Follows, accesses_append, accesses_prologue, List.nil_append]
  exact acc

theorem emits_countedLoop {o : Outline} {iSlot limSlot : Nat} {body : Emit}
    (emits : Emits cx u outer base o body) :
    Emits cx u outer base o (countedLoop iSlot limSlot body) := by
  refine emits_newLabel fun l0 => emits_newLabel fun l2 => ?_
  have entry : Emits cx u outer base .done (op (.bind l0) ++ op (.pushTemp iSlot) ++
      op (.pushTemp limSlot) ++ op (.send false "<=" 1) ++ op (.brFalseFwd l2)) :=
    ((((emits_op rfl).thenOp rfl).thenOp rfl).thenOp rfl).thenOp rfl
  exact ((((((((entry.andThen emits).thenOp rfl).thenOp rfl).thenOp rfl).thenOp rfl).thenOp
    rfl).thenOp rfl).thenOp rfl)

theorem emits_nilTest {o : Outline} {receiver : Emit} (emits : Emits cx u outer base o receiver) :
    Emits cx u outer base o (nilTest receiver) :=
  ((emits.thenOp rfl).thenOp rfl).thenOp rfl

theorem emits_literal (l : Literal) : Emits cx u outer base .done (emitLiteral l) := by
  cases l with
  | int v =>
    rw [emitLiteral]
    split
    · exact emits_op (i := .pushSmiI8 v) rfl
    · exact emits_op (i := .pushLiteral (.value (.int v))) rfl
  | nil => exact emits_op (i := .pushNil) rfl
  | true => exact emits_op (i := .pushTrue) rfl
  | false => exact emits_op (i := .pushFalse) rfl
  | bigInt negative digits => exact emits_op (i := .pushLiteral (.value (.bigInt negative digits))) rfl
  | float bits => exact emits_op (i := .pushLiteral (.value (.float bits))) rfl
  | char c => exact emits_op (i := .pushLiteral (.value (.char c))) rfl
  | str s => exact emits_op (i := .pushLiteral (.value (.str s))) rfl
  | symbol s => exact emits_op (i := .pushLiteral (.value (.symbol s))) rfl
  | array items => exact emits_op (i := .pushLiteral (.value (.array items))) rfl
  | byteArray bytes => exact emits_op (i := .pushLiteral (.value (.byteArray bytes))) rfl

/-! ## Statements -/

/-- The outline of what `emitOperand` emits. -/
def operandOutline : Expr → Outline
  | .ret value _ => outline value
  | .assign _ value _ => outline value
  | _ => .done

theorem emits_explicitReturn (inBlock : Bool) :
    Emits cx u outer base .done (explicitReturn inBlock) := by
  cases inBlock
  · exact emits_op (i := .retTos) rfl
  · exact emits_op (i := .nlrTos) rfl

theorem emits_noteLine (line : BitVec 32) : Emits cx u outer base .done (op (.noteLine line)) :=
  emits_op rfl

theorem emits_statementDiscard {site : Site} (follows : site.Follows cx.as8 u) (isBlock : Bool)
    {stmt : Expr} {operand whole : Emit}
    (emitsOperand : Emits cx u outer base (operandOutline stmt) operand)
    (emitsWhole : Emits cx u outer base (outline stmt) whole) :
    Emits cx u outer base (outline stmt)
      (emitStatementDiscard cx site isBlock stmt operand whole) := by
  unfold emitStatementDiscard
  refine (emits_noteLine _).andThen ?_
  split
  · rw [outline]
    exact Emits.thenDone emitsOperand (emits_explicitReturn isBlock)
  · next name value span =>
    rw [outline]
    exact Emits.seq emitsOperand (emits_access follows name span true)
  · exact emitsWhole.thenOp rfl

theorem emits_statementValue {site : Site} (follows : site.Follows cx.as8 u) {stmt : Expr}
    {operand whole : Emit} (emitsOperand : Emits cx u outer base (operandOutline stmt) operand)
    (emitsWhole : Emits cx u outer base (outline stmt) whole) :
    Emits cx u outer base (outline stmt) (emitStatementValue cx site stmt operand whole) := by
  unfold emitStatementValue
  refine (emits_noteLine _).andThen ?_
  split
  · next name value span =>
    rw [outline]
    exact Emits.seq (Emits.thenOp emitsOperand rfl) (emits_access follows name span true)
  · exact emitsWhole

/-- The code of an ending touches no variable. -/
structure Ending.Silent (cx : Ctx) (u : UnitScope) (outer : List UnitScope) (e : Ending) :
    Prop where
  empty : ∀ base, Emits cx u outer base .done e.empty
  afterReturn : ∀ base, Emits cx u outer base .done e.afterReturn
  afterValue : ∀ base, Emits cx u outer base .done e.afterValue

theorem Ending.dissolved_silent (inBlock : Bool) : (Ending.dissolved inBlock).Silent cx u outer where
  empty _ := emits_op rfl
  afterReturn _ := emits_explicitReturn inBlock
  afterValue _ := emits_skip

theorem Ending.block_silent : Ending.block.Silent cx u outer where
  empty _ := (emits_op rfl).thenOp rfl
  afterReturn _ := emits_op rfl
  afterValue _ := emits_op rfl

theorem Ending.doIt_silent : Ending.doIt.Silent cx u outer where
  empty _ := emits_op rfl
  afterReturn _ := emits_op rfl
  afterValue _ := emits_op rfl

theorem emits_lastStatement {site : Site} (follows : site.Follows cx.as8 u) {ending : Ending}
    (silent : ending.Silent cx u outer) {stmt : Expr} {operand whole : Emit}
    (emitsOperand : Emits cx u outer base (operandOutline stmt) operand)
    (emitsWhole : Emits cx u outer base (outline stmt) whole) :
    Emits cx u outer base (outline stmt) (emitLastStatement cx site ending stmt operand whole) := by
  unfold emitLastStatement
  split
  · rw [outline]
    exact Emits.thenDone emitsOperand (silent.afterReturn _)
  · exact (emits_statementValue follows emitsOperand emitsWhole).thenDone (silent.afterValue _)

/-! ## Expressions -/

theorem block_of_argc {e : Expr} (one : blockArgc e = some 1) :
    ∃ loopVar params temps body span scopeId,
      e = .block (loopVar :: params) temps body span scopeId := by
  match e with
  | .block (loopVar :: params) temps body span scopeId =>
    exact ⟨loopVar, params, temps, body, span, scopeId, rfl⟩
  | .block [] _ _ _ _ => cases one
  | .selfRef _ | .cascadeRcvr _ | .lit _ _ | .var _ _ | .assign _ _ _ | .send _ _ _ _ _
  | .cascade _ _ _ | .dynArray _ _ | .ret _ _ => cases one

mutual

theorem emits_expr (e : Expr) : ∀ {u : UnitScope} {outer : List UnitScope} {base : Nat}
    {site : Site}, site.Follows cx.as8 u → (outline e).Distinct →
    Emits cx u outer base (outline e) (emitExpr cx site e) := by
  match e with
  | .selfRef _ =>
    intros
    rw [outline, emitExpr]
    exact emits_op rfl
  | .cascadeRcvr _ =>
    intros
    rw [outline, emitExpr]
    exact emits_skip
  | .lit l _ =>
    intros
    rw [outline, emitExpr]
    exact emits_literal l
  | .var name span =>
    intro u _ _ _ follows distinct
    rw [outline, emitExpr]
    exact emits_access follows name span false
  | .assign name value span =>
    intro u _ _ _ follows distinct
    rw [outline] at distinct
    rw [outline, emitExpr]
    exact ((emits_expr value follows distinct.1).thenOp rfl).seq
      (emits_access follows name span true)
  | .send receiver selector args isSuper _ =>
    intro u outer base site follows distinct
    rw [outline] at distinct
    rw [outline, emitExpr]
    cases shape : sendShape isSuper selector receiver args with
    | some s =>
      rw [shape] at distinct
      exact emits_inlined s args follows
        (emits_expr receiver follows)
        (emits_dissolvedBody receiver u outer base site follows)
        (sendShape_fits shape) distinct
    | none =>
      rw [shape] at distinct
      exact ((emits_expr receiver follows distinct.1).seq
        (emits_args args follows distinct.2)).thenOp rfl
  | .cascade receiver segments _ =>
    intro u _ _ _ follows distinct
    rw [outline] at distinct
    rw [outline, emitExpr]
    exact (emits_expr receiver follows distinct.1).seq (emits_segments segments follows distinct.2)
  | .dynArray elems _ =>
    intro u _ _ _ follows distinct
    rw [outline] at distinct
    rw [outline, emitExpr]
    exact ((((emits_op rfl).thenDone (emits_literal _)).thenOp rfl)).andThen
      (emits_elems 0 elems follows distinct)
  | .block params temps body span scopeId =>
    intro u _ _ _ follows distinct
    rw [outline] at distinct
    rw [outline, emitExpr]
    refine emits_real ?_
    refine emits_statements body ?_ Ending.block_silent distinct.2
    exact ⟨rfl, fun name => by simp [UnitScope.hoistSlot, Outline.realScope]⟩
  | .ret _ _ =>
    intros
    rw [emitExpr]
    exact emits_fail
termination_by sizeOf e

theorem emits_args (args : List Expr) : ∀ {u : UnitScope} {outer : List UnitScope} {base : Nat}
    {site : Site}, site.Follows cx.as8 u → (outlineAll args).Distinct →
    Emits cx u outer base (outlineAll args) (emitArgs cx site args) := by
  match args with
  | [] =>
    intros
    rw [outlineAll, emitArgs]
    exact emits_skip
  | a :: args =>
    intro u _ _ _ follows distinct
    rw [outlineAll] at distinct
    rw [outlineAll, emitArgs]
    exact (emits_expr a follows distinct.1).seq (emits_args args follows distinct.2)
termination_by sizeOf args

theorem emits_segments (segments : List Expr) : ∀ {u : UnitScope} {outer : List UnitScope}
    {base : Nat} {site : Site}, site.Follows cx.as8 u → (outlineAll segments).Distinct →
    Emits cx u outer base (outlineAll segments) (emitSegments cx site segments) := by
  match segments with
  | [] =>
    intros
    rw [outlineAll, emitSegments]
    exact emits_skip
  | [seg] =>
    intro u _ _ _ follows distinct
    rw [outlineAll] at distinct
    rw [outlineAll, outlineAll, emitSegments]
    exact (emits_expr seg follows distinct.1).last
  | seg :: next :: segments =>
    intro u _ _ _ follows distinct
    rw [outlineAll] at distinct
    rw [outlineAll, emitSegments]
    · exact (((emits_op rfl).andThen (emits_expr seg follows distinct.1)).thenOp
        rfl).seq (emits_segments (next :: segments) follows distinct.2)
    · simp
termination_by sizeOf segments

theorem emits_elems (i : Nat) (elems : List Expr) : ∀ {u : UnitScope} {outer : List UnitScope}
    {base : Nat} {site : Site}, site.Follows cx.as8 u → (outlineAll elems).Distinct →
    Emits cx u outer base (outlineAll elems) (emitElems cx site i elems) := by
  match elems with
  | [] =>
    intros
    rw [outlineAll, emitElems]
    exact emits_skip
  | el :: elems =>
    intro u _ _ _ follows distinct
    rw [outlineAll] at distinct
    rw [outlineAll, emitElems]
    exact (((((emits_op rfl).thenDone (emits_literal _)).andThen
      (emits_expr el follows distinct.1)).thenOp rfl).thenOp rfl).seq
      (emits_elems (i + 1) elems follows distinct.2)
termination_by sizeOf elems

theorem emits_inlined (shape : Shape) {receiver receiverBody : Emit} {ro rbo : Outline}
    (args : List Expr) : ∀ {u : UnitScope} {outer : List UnitScope} {base : Nat} {site : Site},
    site.Follows cx.as8 u → (ro.Distinct → Emits cx u outer base ro receiver) →
    (rbo.Distinct → Emits cx u outer base rbo receiverBody) → ∀ {receiverArgc : Option Nat},
    shape.Fits receiverArgc (argcs args) → (outlineInlined shape ro rbo args).Distinct →
    Emits cx u outer base (outlineInlined shape ro rbo args)
      (emitInlined cx site shape receiver receiverBody args) := by
  match args with
  | [] =>
    intro u _ _ _ follows emitsReceiver emitsBody receiverArgc fits distinct
    rw [outlineInlined] at distinct
    rw [outlineInlined, emitInlined.eq_def]
    cases shape with
    | «repeat» =>
      refine emits_newLabel fun l0 => ?_
      exact ((((emits_op rfl).andThen (emitsBody distinct)).thenOp rfl).thenOp rfl).thenOp rfl
    | _ => exact emits_fail
  | [a] =>
    intro u outer base site follows emitsReceiver emitsBody receiverArgc fits distinct
    rw [outlineInlined.eq_def] at distinct ⊢
    rw [emitInlined.eq_def]
    cases shape with
    | ifTrue | ifFalse | and | or =>
      have arm := emits_dissolvedBody a u outer (base + ro.folded.length) site follows distinct.2
      refine (emitsReceiver distinct.1).seq (emits_newLabel fun l1 => emits_newLabel fun l2 => ?_)
      exact (((((emits_op rfl).andThen arm).thenOp rfl).thenOp rfl).thenOp rfl).thenOp rfl
    | whileTrue | whileFalse =>
      have arm := emits_dissolvedBody a u outer (base + rbo.folded.length) site follows distinct.2
      refine emits_newLabel fun l0 => emits_newLabel fun l2 => ?_
      exact (((((((emits_op rfl).andThen (emitsBody distinct.1)).thenOp rfl).seq arm).thenOp
        rfl).thenOp rfl).thenOp rfl).thenOp rfl
    | timesRepeat =>
      have loop := fun i => emits_looseBody i a u outer (base + ro.folded.length) site follows
        (by simpa [Shape.Fits, argcs] using fits) distinct.2.2.2
      refine ((emitsReceiver distinct.1).thenOp rfl).seq (emits_hidden fun lim => ?_)
      refine (emits_op rfl).andThen (emits_hidden fun i => ?_)
      exact ((emits_op rfl).thenOp rfl).andThen (emits_countedLoop (loop _))
    | ifNil =>
      have arm := emits_dissolvedBody a u outer (base + ro.folded.length) site follows distinct.2
      refine (emits_nilTest (emitsReceiver distinct.1)).seq
        (emits_newLabel fun l1 => emits_newLabel fun l2 => ?_)
      exact (((((emits_op rfl).thenOp rfl).andThen arm).thenOp rfl).thenOp rfl).thenOp rfl
    | ifNotNil =>
      have arm := emits_ifnotnilArm a u outer (base + ro.folded.length) site follows distinct.2
      refine (emits_nilTest (emitsReceiver distinct.1)).seq
        (emits_newLabel fun l1 => emits_newLabel fun l2 => ?_)
      exact ((((emits_op rfl).andThen arm).thenOp rfl).thenOp rfl).thenOp rfl
    | _ => exact emits_fail
  | [a, b] =>
    intro u outer base site follows emitsReceiver emitsBody receiverArgc fits distinct
    rw [outlineInlined.eq_def] at distinct ⊢
    rw [emitInlined.eq_def]
    cases shape with
    | ifTrueIfFalse =>
      have first := emits_dissolvedBody a u outer (base + ro.folded.length) site follows
        distinct.2.1
      have second := emits_dissolvedBody b u outer
        (base + ro.folded.length + (outlineBody a).folded.length) site follows distinct.2.2
      refine (emitsReceiver distinct.1).seq (emits_newLabel fun l1 => emits_newLabel fun l2 => ?_)
      exact ((((((emits_op rfl).andThen first).thenOp rfl).thenOp rfl).seq second).thenOp rfl)
    | ifFalseIfTrue =>
      have second := emits_dissolvedBody a u outer (base + ro.folded.length) site follows
        distinct.2.1
      have first := emits_dissolvedBody b u outer
        (base + ro.folded.length + (outlineBody a).folded.length) site follows distinct.2.2
      refine (emitsReceiver distinct.1).seq (emits_newLabel fun l1 => emits_newLabel fun l2 => ?_)
      exact emits_armsThen ((((emits_op rfl).andThen first).thenOp rfl).thenOp rfl) second rfl
    | ifNilIfNotNil =>
      have first := emits_dissolvedBody a u outer (base + ro.folded.length) site follows
        distinct.2.1
      have second := emits_ifnotnilArm b u outer
        (base + ro.folded.length + (outlineBody a).folded.length) site follows distinct.2.2
      refine (emits_nilTest (emitsReceiver distinct.1)).seq
        (emits_newLabel fun l1 => emits_newLabel fun l2 => ?_)
      exact (((((((emits_op rfl).thenOp rfl).andThen first).thenOp rfl).thenOp rfl).seq
        second).thenOp rfl)
    | ifNotNilIfNil =>
      have first := emits_ifnotnilArm a u outer (base + ro.folded.length) site follows
        distinct.2.1
      have second := emits_dissolvedBody b u outer
        (base + ro.folded.length + (outlineBody a).folded.length) site follows distinct.2.2
      refine (emits_nilTest (emitsReceiver distinct.1)).seq
        (emits_newLabel fun l1 => emits_newLabel fun l2 => ?_)
      exact (((((((emits_op rfl).andThen first).thenOp rfl).thenOp rfl).thenOp rfl).seq
        second).thenOp rfl)
    | toDo =>
      obtain ⟨loopVar, params, temps, body, span, scopeId, rfl⟩ :=
        block_of_argc (by simpa [Shape.Fits, argcs] using fits)
      refine ((emitsReceiver distinct.1).thenOp rfl).seq (emits_counted
        (fun i => (emits_op rfl).andThen (emits_expr a follows distinct.2.2.1))
        fun i lim => (emits_op rfl).andThen (emits_countedLoop ?_))
      exact emits_counterBody _ rfl follows i _ distinct.2.2.2
    | _ => exact emits_fail
  | a :: b :: c :: args =>
    intros
    rw [emitInlined]
    · exact emits_fail
    all_goals simp
termination_by sizeOf args

theorem emits_dissolvedBody (e : Expr) : ∀ (u : UnitScope) (outer : List UnitScope) (base : Nat)
    (site : Site), site.Follows cx.as8 u → (outlineBody e).Distinct →
    Emits cx u outer base (outlineBody e) (emitDissolvedBody cx site e) := by
  intro u outer base site follows distinct
  match e with
  | .block params temps body _ _ =>
    rw [outlineBody] at distinct
    rw [outlineBody, emitDissolvedBody]
    refine emits_dissolved fun next => ?_
    exact emits_statements body
      (follows.push (hoistNames_get cx.as8 next distinct.1))
      (Ending.dissolved_silent site.inBlock) distinct.2
  | .selfRef _ | .cascadeRcvr _ | .lit _ _ | .var _ _ | .assign _ _ _ | .send _ _ _ _ _
  | .cascade _ _ _ | .dynArray _ _ | .ret _ _ =>
    exact emits_fail
termination_by sizeOf e

theorem emits_looseBody (i : Nat) (e : Expr) : ∀ (u : UnitScope) (outer : List UnitScope)
    (base : Nat) (site : Site), site.Follows cx.as8 u → blockArgc e = some 0 →
    (outlineLoose e).Distinct →
    Emits cx u outer base (outlineLoose e) (emitLoopBody cx site i e) := by
  match e with
  | .block [] temps body _ _ =>
    intro u _ base site follows plain distinct
    rw [outlineLoose] at distinct
    rw [outlineLoose, emitLoopBody]
    refine Emits.loose ?_
    exact emits_statements body (follows.loose base _)
      (Ending.dissolved_silent site.inBlock) distinct.2
  | .block (param :: params) _ _ _ _ =>
    intro u _ _ _ follows plain
    simp [blockArgc] at plain
  | .selfRef _ | .cascadeRcvr _ | .lit _ _ | .var _ _ | .assign _ _ _ | .send _ _ _ _ _
  | .cascade _ _ _ | .dynArray _ _ | .ret _ _ =>
    intro u _ _ _ follows plain distinct
    cases plain
termination_by sizeOf e

/-- The body of a counted loop, under its counter. -/
theorem emits_counterBody (e : Expr) : ∀ {loopVar : String} {params temps : List String}
    {body : List Expr} {span : Span} {scopeId : Nat},
    e = .block (loopVar :: params) temps body span scopeId → ∀ {u : UnitScope}
    {outer : List UnitScope} {base : Nat} {site : Site}, site.Follows cx.as8 u → ∀ (i first : Nat),
    (outlineAll body).Distinct →
    Emits cx (u.enter ((loopVar, .hoisted i) :: looseVars first (params ++ temps))) outer base
      (outlineAll body) (emitLoopBody cx site (cx.as8 i) e) := by
  intro loopVar params temps body span scopeId block u outer base site follows i first distinct
  match e, block with
  | .block (_ :: _) _ body _ _, rfl =>
    rw [emitLoopBody]
    refine emits_statements body (follows.push fun name => ?_)
      (Ending.dissolved_silent site.inBlock) distinct
    simp only [HoistScope.get, List.lookup_cons, List.lookup_nil]
    cases name == loopVar with
    | true => rfl
    | false => simp [looseVars_noSlot]
termination_by sizeOf e

theorem emits_ifnotnilArm (e : Expr) : ∀ (u : UnitScope) (outer : List UnitScope) (base : Nat)
    (site : Site), site.Follows cx.as8 u → (outlineBody e).Distinct →
    Emits cx u outer base (outlineBody e) (emitIfnotnilArm cx site e) := by
  match e with
  | .block [] temps body _ _ =>
    intro u _ _ site follows distinct
    rw [outlineBody] at distinct
    rw [outlineBody, emitIfnotnilArm]
    refine (emits_op rfl).andThen (emits_dissolved fun next => ?_)
    exact emits_statements body
      (follows.push (hoistNames_get cx.as8 next distinct.1))
      (Ending.dissolved_silent site.inBlock) distinct.2
  | .block (param :: params) temps body _ _ =>
    intro u _ _ site follows distinct
    rw [outlineBody] at distinct
    rw [outlineBody, emitIfnotnilArm]
    refine emits_dissolved fun next => (emits_op rfl).andThen ?_
    exact emits_statements body
      (follows.push (hoistNames_get cx.as8 next distinct.1))
      (Ending.dissolved_silent site.inBlock) distinct.2
  | .selfRef _ | .cascadeRcvr _ | .lit _ _ | .var _ _ | .assign _ _ _ | .send _ _ _ _ _
  | .cascade _ _ _ | .dynArray _ _ | .ret _ _ =>
    intros
    exact emits_fail
termination_by sizeOf e

theorem emits_operand (e : Expr) : ∀ {u : UnitScope} {outer : List UnitScope} {base : Nat}
    {site : Site}, site.Follows cx.as8 u → (outline e).Distinct →
    Emits cx u outer base (operandOutline e) (emitOperand cx site e) := by
  match e with
  | .ret value _ =>
    intro u _ _ _ follows distinct
    rw [outline] at distinct
    rw [operandOutline, emitOperand]
    exact emits_expr value follows distinct
  | .assign _ value _ =>
    intro u _ _ _ follows distinct
    rw [outline] at distinct
    rw [operandOutline, emitOperand]
    exact emits_expr value follows distinct.1
  | .selfRef _ | .cascadeRcvr _ | .lit _ _ | .var _ _ | .send _ _ _ _ _
  | .cascade _ _ _ | .dynArray _ _ | .block _ _ _ _ _ =>
    intros
    exact emits_skip
termination_by sizeOf e

theorem emits_statements (stmts : List Expr) : ∀ {u : UnitScope} {outer : List UnitScope}
    {base : Nat} {site : Site}, site.Follows cx.as8 u → ∀ {ending : Ending},
    ending.Silent cx u outer → (outlineAll stmts).Distinct →
    Emits cx u outer base (outlineAll stmts) (emitStatements cx site ending stmts) := by
  match stmts with
  | [] =>
    intro u _ base _ follows ending silent distinct
    rw [outlineAll, emitStatements]
    exact silent.empty base
  | [last] =>
    intro u _ _ _ follows ending silent distinct
    rw [outlineAll] at distinct
    rw [outlineAll, outlineAll, emitStatements]
    exact (emits_lastStatement follows silent
      (emits_operand last follows distinct.1) (emits_expr last follows distinct.1)).last
  | stmt :: next :: stmts =>
    intro u _ _ _ follows ending silent distinct
    rw [outlineAll] at distinct
    rw [outlineAll, emitStatements]
    · exact (emits_statementDiscard follows ending.inBlock
        (emits_operand stmt follows distinct.1) (emits_expr stmt follows distinct.1)).seq
        (emits_statements (next :: stmts) follows silent distinct.2)
    · simp
termination_by sizeOf stmts

end

/-! ## Methods -/

theorem emits_methodBody (stmts : List Expr) (base : Nat) {site : Site}
    (follows : site.Follows cx.as8 u) (distinct : (outlineAll stmts).Distinct) :
    Emits cx u outer base (outlineAll stmts) (emitMethodBody cx site stmts) := by
  induction stmts generalizing base with
  | nil =>
    rw [outlineAll, emitMethodBody]
    exact emits_op rfl
  | cons stmt stmts ih =>
    rw [outlineAll] at distinct
    rw [outlineAll, emitMethodBody]
    exact (emits_statementDiscard follows false
      (emits_operand stmt follows distinct.1) (emits_expr stmt follows distinct.1)).seq
      (ih _ distinct.2)

theorem emits_methodOrDoIt (stmts : List Expr) (base : Nat) {site : Site}
    (follows : site.Follows cx.as8 u) (distinct : (outlineAll stmts).Distinct) (topLevel : Bool) :
    Emits cx u outer base (outlineAll stmts)
      (emitBody cx site stmts (if topLevel then .doIt else .method)) := by
  cases topLevel
  · exact emits_methodBody stmts base follows distinct
  · exact emits_statements stmts follows Ending.doIt_silent distinct

/-- The context of a compilation. -/
def compileCtx (as8 : Nat → Nat) (h : Holder) (classSide topLevel : Bool) (m : MethodNode) : Ctx where
  as8 := as8
  instVarNames := if classSide then [] else h.instVarNames
  classVars := h.classVars
  classSide := classSide
  topLevel := topLevel
  capture := (analyze m).2

theorem analyze_params (m : MethodNode) :
    (analyze m).1.params = m.params ∧ (analyze m).1.temps = m.temps :=
  ⟨rfl, rfl⟩

/-- The units of compiled code are those of the method, access by access. -/
theorem compiled_follows {as8 : Nat → Nat} {h : Holder} {classSide topLevel : Bool}
    {m : MethodNode} {units : List CodeUnit} {globals : List String}
    (compiled : compileMethodInner as8 h classSide topLevel m = .ok (units, globals))
    (distinct : (analyze m).1.Distinct) :
    List.Forall₂ (CodeUnit.Follows (compileCtx as8 h classSide topLevel m)) units
      (lexUnits (analyze m).2.frameTemps (analyze m).1) := by
  unfold compileMethodInner at compiled
  dsimp only at compiled
  split at compiled
  · cases compiled
  next scope0 found =>
  split at compiled
  · cases compiled
  split at compiled
  · cases compiled
  next code g ok =>
  cases compiled
  have follows : Site.Follows as8 ⟨[], 0, false⟩
      (Outline.realScope 0 m.params m.temps (outlineAll (analyze m).1.body)) :=
    ⟨rfl, fun name => by simp [UnitScope.hoistSlot, Outline.realScope]⟩
  have frames : (analyze m).2.frameTemps 0 = scope0.frameTempCount := by
    simp [CaptureInfo.frameTemps, found]
  have emits : Emits (compileCtx as8 h classSide topLevel m)
      (Outline.realScope 0 m.params m.temps (outlineAll (analyze m).1.body)) []
      (m.params ++ m.temps).length (outlineAll (analyze m).1.body) _ :=
    emits_methodOrDoIt (analyze m).1.body _ follows distinct.2 topLevel
  obtain ⟨-, acc, us, unitsEq, follow⟩ := emits _ _ _ ok
  rw [unitsEq, List.nil_append, lexUnits, (analyze_params m).1, (analyze_params m).2, frames]
  refine List.rel_append follow (.cons ?_ .nil)
  rw [CodeUnit.Follows, accesses_append, accesses_prologue, List.nil_append]
  exact acc

end WinVm.Frontend
