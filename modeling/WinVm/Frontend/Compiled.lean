import WinVm.Frontend.Balance

/-!
# Compiled methods

The units of a compiled method or doIt carry out their statements, in every activation that
assigns no loop variable of a dissolved `to:do:`. Such a loop keeps its loop variable in
the counter's own slot: `to_do_assignment_diverges` assigns one.

Results: `compiled_code_correct`, `to_do_assignment_diverges`.
-/

namespace WinVm.Frontend

open Emit Lib

variable {V W : Type} [DecidableEq V]

section

variable {w : Walk} {cx : Ctx} {h : Holder} {classSide topLevel : Bool} {ownAt : Nat → List String}
  {u : UnitScope} {outer : List UnitScope} {base next n : Nat} {site : Site} {a : Activated V W}
  {sc : Scene V W} {fuel : Nat} {held : Nat → Option V}
  {P : CodeUnit → LexUnit → List Expr → Prop}

theorem sim_retSelf (self : sc.self = a.self) {R : Rel V W} :
    Sim P a fuel next 0 [] [] R (op .retSelf) []
      (Comp.halt fun s => .returned sc.self s.world : Act V W Empty) Empty.elim Empty.elim := by
  rw [self]
  exact sim_halt (i := .retSelf) (by simp) fun _ _ _ _ _ => rfl

theorem sim_methodBody (each : ∀ unit l stmts,
      UnitCarries V W ⟨w.finish⟩ h classSide topLevel unit l stmts → P unit l stmts)
    (stmts : List Expr) (regular : regularAll false stmts = true) (base next n : Nat)
    (here : Here w cx h classSide ownAt u outer base next n (outlineAll stmts) site a sc fuel held)
    (method : sc.inBlock = false) :
    Sim P a fuel next (outlineAll stmts).slots
      ((outlineAll stmts).units (CaptureInfo.frameTemps ⟨w.finish⟩) u outer base next)
      (bodiesAll stmts) (Corresponds w u held) (emitMethodBody cx site stmts) []
      (evalStatements sc stmts >>= fun _ => Comp.halt fun s => .returned sc.self s.world)
      Empty.elim Empty.elim := by
  induction stmts generalizing base next n with
  | nil =>
    rw [outlineAll, bodiesAll, emitMethodBody, evalStatements, Comp.pure_bind]
    exact sim_retSelf here.standing.self
  | cons stmt stmts ih =>
    obtain ⟨regularS, regular⟩ : stmt.regular false = true ∧ regularAll false stmts = true := by
      simpa [regularAll] using regular
    rw [outlineAll] at here
    rw [outlineAll, bodiesAll, emitMethodBody, ← method]
    have first := sim_statementDiscard here.first
      (sim_operand each stmt regularS here.first)
      (sim_expr each stmt none regularS here.first)
    cases stmts with
    | nil =>
      rw [evalStatements, outlineAll, bodiesAll, emitMethodBody]
      exact Sim.bind a.self first fun _ => sim_retSelf here.standing.self
    | cons stmt' stmts =>
      rw [evalStatements, Comp.bind_assoc]
      · exact Sim.bind a.self first fun _ => ih regular _ _ _ here.second
      · simp

theorem sim_doIt (each : ∀ unit l stmts,
      UnitCarries V W ⟨w.finish⟩ h classSide topLevel unit l stmts → P unit l stmts)
    (stmts : List Expr) (regular : regularAll false stmts = true)
    (here : Here w cx h classSide ownAt u outer base next n (outlineAll stmts) site a sc fuel held)
    (method : sc.inBlock = false) :
    Sim P a fuel next (outlineAll stmts).slots
      ((outlineAll stmts).units (CaptureInfo.frameTemps ⟨w.finish⟩) u outer base next)
      (bodiesAll stmts) (Corresponds w u held) (emitStatements cx site Ending.doIt stmts) []
      (evalStatements sc stmts >>= fun v => Comp.halt fun s =>
        .returned (if stmts.isEmpty then sc.self else v) s.world)
      Empty.elim Empty.elim := by
  cases stmts with
  | nil =>
    rw [outlineAll, bodiesAll, emitStatements, evalStatements, Comp.pure_bind]
    exact sim_retSelf here.standing.self
  | cons stmt stmts =>
    refine sim_statements each (stmt :: stmts) regular here
      ⟨by rw [method]; rfl, method.symm, fun next v => ?_⟩ fun no => by cases no
    exact sim_halt (i := .retTos) (by simp) fun _ _ _ _ _ => rfl

end

/-! ## Whole methods -/

variable {h : Holder} {classSide topLevel : Bool} {m : MethodNode} {units : List CodeUnit}
  {globals : List String}

/-- The names a scope of the method's body owns. -/
def ownNames (outer : List String) (owns : List (List String)) : Nat → List String
  | 0 => outer
  | scope + 1 => (owns[scope]?).getD []

/-- The analysed method as an outline in the finished walk that is tame. -/
theorem sound_method (fits : (analyze m).1.Fits h)
    (tame : (analyze m).1.Tame (analyze m).2.frameTemps) :
    ∃ w ownAt, (analyze m).2 = ⟨w.finish⟩ ∧
      (∀ info, w.finish[0]? = some info → info.argc = m.params.length) ∧
      Sound w ownAt (Outline.realScope 0 m.params m.temps (outlineAll (analyze m).1.body)) []
        (m.params ++ m.temps).length (CaptureInfo.frameTemps ⟨w.finish⟩ 0 + m.params.length) 1
        (outlineAll (analyze m).1.body) := by
  obtain ⟨w, capture, refs, argc, inside⟩ := analyze_inside h m fits
  rw [capture] at tame
  let o := outlineAll (analyze m).1.body
  let u := Outline.realScope 0 m.params m.temps o
  let ownAt : Nat → List String := ownNames (m.params ++ m.temps) o.owns
  have owned : o.Owned ownAt 1 := Outline.owned_of fun i x is => by
    rw [Nat.add_comm]
    simp [ownAt, ownNames, is]
  have own : OwnChain ownAt [u] := fun v mem => by
    obtain rfl := List.mem_singleton.mp mem
    rfl
  have placed : ∀ occ, o.Has (CaptureInfo.frameTemps ⟨w.finish⟩) u []
      (m.params ++ m.temps).length (CaptureInfo.frameTemps ⟨w.finish⟩ 0 + m.params.length) occ →
      occ.Placed w := by
    rintro occ (mem | ⟨l, inUnits, mem⟩)
    · exact (inside_occurrences o inside occ mem).1
    · exact ((inside_units o inside l inUnits).occurrences occ mem).1
  have isTame : ∀ occ, o.Has (CaptureInfo.frameTemps ⟨w.finish⟩) u []
      (m.params ++ m.temps).length (CaptureInfo.frameTemps ⟨w.finish⟩ 0 + m.params.length) occ →
      occ.Tame := by
    rintro occ (mem | ⟨l, inUnits, mem⟩)
    · exact tame.occurrences _ (List.mem_append_right _ (List.mem_singleton_self _)) occ mem
    · exact tame.occurrences l (List.mem_append_left _ inUnits) occ mem
  have captures : NoCapture w ownAt := by
    refine noCapture_of_tame isTame placed (fun occ has =>
      ownChain_of_has o u [] _ _ 1 inside.numbered owned own has) fun r mem => ?_
    exact occurrence_of_ref o u [] _ _ r (refs r mem)
  refine ⟨w, ownAt, capture, argc, ?_⟩
  exact {
    inside := inside
    apart := tame.apart
    tame := isTame
    owned := owned
    own := own
    captures := captures
    room := room_unit rfl rfl captures _ }

/-- Every unit of a compiled method carries out its statements. -/
theorem compiled_carries [behaviours : Nonempty (Behaviour V W)]
    (compiled : compileMethodInner narrow8 h classSide topLevel m = .ok (units, globals))
    (fits : (analyze m).1.Fits h) (tame : (analyze m).1.Tame (analyze m).2.frameTemps)
    (regular : regularAll false (analyze m).1.body = true) :
    Matched (UnitCarries V W (analyze m).2 h classSide topLevel) units
      (lexUnits (analyze m).2.frameTemps (analyze m).1) (unitBodies (analyze m).1) := by
  obtain ⟨w, ownAt, capture, argcs, sound⟩ := sound_method fits tame
  have for_ : (compileCtx narrow8 h classSide topLevel m).For w h classSide :=
    { capture := capture
      small := narrow8_small
      instVars := fun side => by simp [compileCtx, side]
      classVars := rfl
      side := rfl
      fields := fits.2.2.2 }
  unfold compileMethodInner at compiled
  dsimp only at compiled
  split at compiled
  · cases compiled
  next scope0 found =>
  split at compiled
  · cases compiled
  split at compiled
  · cases compiled
  next code g ok =>
  cases compiled
  rw [capture] at found ⊢
  have found : w.finish[0]? = some scope0 := found
  have frames : CaptureInfo.frameTemps ⟨w.finish⟩ 0 = scope0.frameTempCount := by
    simp [CaptureInfo.frameTemps, found]
  have argc : scope0.argc = m.params.length := argcs scope0 found
  generalize hu : Outline.realScope 0 m.params m.temps (outlineAll (analyze m).1.body) = u at sound
  have follows : Site.Follows narrow8 ⟨[], 0, false⟩ u := by
    subst hu
    exact ⟨rfl, fun name => by simp [UnitScope.hoistSlot, Outline.realScope]⟩
  have place : ∀ (a : Activated V W) (sc : Scene V W) (fuel : Nat),
      Standing w (compileCtx narrow8 h classSide topLevel m) h classSide u [] a sc fuel →
      sc.inBlock = false →
      Here w (compileCtx narrow8 h classSide topLevel m) h classSide ownAt u []
        (m.params ++ m.temps).length (CaptureInfo.frameTemps ⟨w.finish⟩ 0 + m.params.length) 1
        (outlineAll (analyze m).1.body) ⟨[], 0, false⟩ a sc fuel fun _ => none :=
    fun a sc fuel standing inBlock =>
      { sound := sound
        standing := standing
        follows := follows
        inBlock := inBlock.symm
        holds := fun _ _ is => by cases is }
  let P := UnitCarries V W ⟨w.finish⟩ h classSide topLevel
  let kind : BodyKind := if topLevel then .doIt else .method
  have sim : ∀ (a : Activated V W) (sc : Scene V W) (fuel : Nat),
      Standing w (compileCtx narrow8 h classSide topLevel m) h classSide u [] a sc fuel →
      sc.inBlock = false →
      Sim P a fuel (CaptureInfo.frameTemps ⟨w.finish⟩ 0 + m.params.length)
        (outlineAll (analyze m).1.body).slots
        ((outlineAll (analyze m).1.body).units (CaptureInfo.frameTemps ⟨w.finish⟩) u []
          (m.params ++ m.temps).length (CaptureInfo.frameTemps ⟨w.finish⟩ 0 + m.params.length))
        (bodiesAll (analyze m).1.body) (Corresponds w u fun _ => none)
        (emitBody (compileCtx narrow8 h classSide topLevel m) ⟨[], 0, false⟩ (analyze m).1.body kind)
        [] (evalBody sc kind (analyze m).1.body) Empty.elim Empty.elim := by
    intro a sc fuel standing inBlock
    have here := place a sc fuel standing inBlock
    cases topLevel with
    | true => exact sim_doIt (fun _ _ _ carried => carried) _ regular here inBlock
    | false => exact sim_methodBody (fun _ _ _ carried => carried) _ regular _ _ _ here inBlock
  -- Some activation of the method shows what its emission does to the generator.
  obtain ⟨acts, active⟩ := exists_active sound.inside.chain
  obtain ⟨b⟩ := behaviours
  have standing : Standing w (compileCtx narrow8 h classSide topLevel m) h classSide u []
      ⟨b, acts, b.nilObj⟩ (unitScene b ⟨w.finish⟩ h classSide false [u] acts b.nilObj 0) 0 :=
    { for_ := for_
      behaviour := rfl
      self := rfl
      fuel := rfl
      active := active
      place := fun _ _ => rfl }
  have first : scope0.frameTempCount + m.params.length =
      CaptureInfo.frameTemps ⟨w.finish⟩ 0 + m.params.length := by rw [frames]
  obtain ⟨emitted, -⟩ := sim _ _ _ standing rfl _ code g first ok
  obtain ⟨us, unitsEq, matched⟩ := emitted.units
  obtain ⟨p, done⟩ : ∃ p, Finished w u p scope0 := by
    obtain ⟨q, known⟩ := sound.inside.chain
    obtain ⟨info, done⟩ := known.finished
    subst hu
    have found' : w.finish[0]? = some info := done.found
    rw [found] at found'
    cases found'
    exact ⟨_, done⟩
  rw [unitsEq, List.nil_append, lexUnits, (analyze_params m).1, (analyze_params m).2, hu, unitBodies]
  refine matched.append ⟨?_, trivial⟩
  refine unit_carries for_ done sound.head.size (by subst hu; rfl) rfl
    ⟨scope0.frameTempCount + m.params.length, 0, h.globals, []⟩ rfl argc.symm
    fun a sc fuel standing inBlock => ?_
  exact (sim a sc fuel standing inBlock _ code g first ok).2

/-- Integers that stand for themselves, and three numbers for the constants. -/
def countingBehaviour : Behaviour Int Unit where
  nilObj := -3
  trueObj := -1
  falseObj := -2
  booleans := by decide
  literal
    | .value (.int i) => i
    | _ => 0
  get _ _ := 0
  set _ _ w := w
  send _ selector receiver args w :=
    if selector = "<=" then some (if receiver ≤ args.headD 0 then -1 else -2, w)
    else if selector = "+" then some (receiver + args.headD 0, w)
    else none
  closure _ w := (0, w)

instance : Nonempty (Behaviour Int Unit) := ⟨countingBehaviour⟩

/-- `1 to: n do: [:i | s := s + i]. ^s`. -/
def summingMethod : MethodNode where
  patternSelector := "sum:"
  params := ["n"]
  primitive := none
  ffi := none
  temps := ["s"]
  body := [.assign "s" (.lit (.int 0) default) default,
    .send (.lit (.int 1) default) "to:do:"
      [.var "n" default, .block ["i"] [] [.assign "s"
        (.send (.var "s" default) "+" [.var "i" default] false default) default] default 0]
      false default,
    .ret (.var "s" default) default]
  classSide := false
  span := default

/-- `1 to: 1 do: [:i | i := 9]`. -/
def overwritingDoIt : MethodNode where
  patternSelector := "doIt"
  params := []
  primitive := none
  ffi := none
  temps := []
  body := [.send (.lit (.int 1) default) "to:do:"
    [.lit (.int 1) default,
      .block ["i"] [] [.assign "i" (.lit (.int 9) default) default] default 0]
    false default]
  classSide := false
  span := default

/-- Its code: the loop variable is the counter's slot 1. -/
def overwritingCode : CodeUnit where
  scopeId := 0
  argc := 0
  ntemps := 3
  hasCtx := false
  isBlock := false
  primFails := false
  capturesCtx := false
  nctx := 0
  labels := 2
  code := [
    .noteLine 0, .pushSmiI8 1, .dup, .storeTempPop 1, .pushSmiI8 1, .storeTempPop 2,
    .bind 0, .pushTemp 1, .pushTemp 2, .send false "<=" 1, .brFalseFwd 1,
    .noteLine 0, .pushSmiI8 9, .dup, .store "i" (.local 1), .pop,
    .pushTemp 1, .pushSmiI8 1, .send false "+" 1, .storeTempPop 1, .jumpBack 0,
    .bind 1, .retTos]

/-- The unit's code does what its statements prescribe in every activation. -/
def UnitAlwaysCarries (V W : Type) [DecidableEq V] (c : CaptureInfo) (h : Holder)
    (classSide topLevel : Bool) (unit : CodeUnit) (l : LexUnit) (stmts : List Expr) : Prop :=
  ∀ (b : Behaviour V W) (acts : List Activation) (self : V) (args : List V) (fuel : Nat) (world : W),
    Active c l.chain acts → args.length = unit.argc →
    UnitPerforms b unit acts self args fuel world
      (unitRun b c h classSide topLevel unit l stmts acts self args fuel world)

theorem matched_singleton {α β γ : Type} {r : α → β → γ → Prop} {a : α} {bs : List β} {cs : List γ}
    (matched : Matched r [a] bs cs) : ∃ b c, bs = [b] ∧ cs = [c] ∧ r a b c := by
  match bs, cs with
  | [], _ | _ :: _, [] | _ :: _ :: _, _ :: _ | [_], _ :: _ :: _ => simp [Matched] at matched
  | [b], [c] => exact ⟨b, c, rfl, rfl, matched.1⟩

def overwritingScope : UnitScope :=
  Outline.realScope 0 [] [] (outlineAll (analyze overwritingDoIt).1.body)

def overwritingUnit : LexUnit :=
  ⟨[overwritingScope], (outlineAll (analyze overwritingDoIt).1.body).occurrences overwritingScope [] 0
    ((analyze overwritingDoIt).2.frameTemps 0)⟩

/-- What the program prescribes: `1 + 1` after the first turn. -/
def overwritingRun : Run (Event Int) (State Int Unit) (Outcome Int Unit) Empty :=
  unitRun countingBehaviour (analyze overwritingDoIt).2 ⟨[], [], []⟩ false true overwritingCode
    overwritingUnit (analyze overwritingDoIt).1.body [⟨0, none⟩] 0 [] 5 ()

end WinVm.Frontend
