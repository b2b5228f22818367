import WinVm.Frontend.Blocks

/-!
# Compiled code does what the program means

The induction over the program: the code of every expression, statement and block carries
out its meaning, whatever activation of its unit runs it. The code of a nested block
becomes a unit of its own, which does what the block means in every activation.

Results: `sim_expr`, `sim_statements`.
-/

namespace WinVm.Frontend

open Emit Lib

variable {V W : Type} [DecidableEq V]

/-! ## Units -/

/-- In every activation of the unit that assigns no loop variable of a dissolved `to:do:`,
its code does what its statements prescribe. -/
def UnitCarries (V W : Type) [DecidableEq V] (c : CaptureInfo) (h : Holder)
    (classSide topLevel : Bool) (unit : CodeUnit) (l : LexUnit) (stmts : List Expr) : Prop :=
  ∀ (b : Behaviour V W) (acts : List Activation) (self : V) (args : List V) (fuel : Nat) (world : W),
    Active c l.chain acts → args.length = unit.argc →
    (unitRun b c h classSide topLevel unit l stmts acts self args fuel world).flagged = false →
    UnitPerforms b unit acts self args fuel world
      (unitRun b c h classSide topLevel unit l stmts acts self args fuel world)

theorem mem_prologue {as8 : Nat → Nat} {info : ScopeInfo} {i : Item}
    (mem : i ∈ emitPrologue as8 info) :
    (∃ slot, i = .pushTemp slot) ∨ ∃ k, i = .storeCtxTempPop 0 k := by
  unfold emitPrologue at mem
  split at mem
  · rw [List.mem_flatten] at mem
    obtain ⟨items, inPieces, mem⟩ := mem
    obtain ⟨j, lt, rfl⟩ := List.mem_mapIdx.mp inPieces
    split at mem
    · rcases List.mem_cons.mp mem with rfl | mem
      · exact .inl ⟨_, rfl⟩
      · exact .inr ⟨_, List.mem_singleton.mp mem⟩
    · cases mem
  · cases mem

/-- The prologue from a parameter on. -/
def prologueFrom (as8 : Nat → Nat) (i : Nat) : List (String × VarSlot) → List Item
  | [] => []
  | v :: vars =>
    (if v.2.captured then
      [.pushTemp (as8 i), .storeCtxTempPop 0 (as8 (v.2.ctxSlot.getD 0))] else []) ++
      prologueFrom as8 (i + 1) vars

theorem prologueFrom_eq (as8 : Nat → Nat) (i : Nat) (vars : List (String × VarSlot)) :
    prologueFrom as8 i vars = (vars.mapIdx fun j v =>
      if v.2.captured then
        [Item.pushTemp (as8 (i + j)), .storeCtxTempPop 0 (as8 (v.2.ctxSlot.getD 0))]
      else []).flatten := by
  induction vars generalizing i with
  | nil => rfl
  | cons v vars ih =>
    rw [prologueFrom, ih, List.mapIdx_cons, List.flatten_cons]
    simp only [Nat.add_zero, Nat.add_assoc, Nat.add_comm 1]

/-- The prologue moves the parameters that nested blocks reach to their cells. -/
theorem prologueFrom_runs {as8 : Nat → Nat} (small : ∀ n < 256, as8 n = n) {a : Activated V W}
    {id : Nat} {enclosing : Option Context} {outer : List Activation}
    (acts : a.acts = ⟨id, some (.mk id enclosing)⟩ :: outer) (slots : Nat → V)
    (vars : List (String × VarSlot)) : ∀ (i : Nat) (args : List V) (world : W) (pre post code : List Item),
      vars.length = args.length → i + vars.length ≤ 256 → (∀ j v, args[j]? = some v → slots (i + j) = v) →
      (∀ v ∈ vars, v.2.captured = true → ∃ k, v.2.ctxSlot = some k ∧ k < 256) →
      code = pre ++ prologueFrom as8 i vars ++ post →
      ∃ k, (a.machine code).run k ⟨pre.length, [], slots, world⟩ =
        ([], .at ⟨(pre ++ prologueFrom as8 i vars).length, [], slots,
          bindShared a.behaviour ((vars.map fun v => v.2.cell id).zip args) world⟩) := by
  induction vars with
  | nil =>
    intros
    exact ⟨0, by simp [prologueFrom, Machine.run, bindShared]⟩
  | cons v vars ih =>
    intro i args world pre post code length fits holds placed is
    obtain ⟨arg, args, rfl⟩ : ∃ arg rest, args = arg :: rest := by
      cases args with
      | nil => simp at length
      | cons arg rest => exact ⟨arg, rest, rfl⟩
    simp only [List.length_cons] at length fits
    have rest := fun world pre code is => ih (i + 1) args world pre post code (by omega) (by omega)
      (fun j v at_ => by
        rw [Nat.add_assoc, Nat.add_comm 1 j]
        exact holds (j + 1) v at_) (fun v mem => placed v (List.mem_cons_of_mem _ mem)) is
    cases captured : v.2.captured with
    | false =>
      simp only [prologueFrom, captured, Bool.false_eq_true, if_false, List.nil_append] at is ⊢
      obtain ⟨k, ran⟩ := rest world pre code is
      refine ⟨k, ran.trans ?_⟩
      have free : bindShared a.behaviour (((v :: vars).map fun v => v.2.cell id).zip (arg :: args))
          world = bindShared a.behaviour ((vars.map fun v => v.2.cell id).zip args) world := by
        simp only [List.map_cons, List.zip_cons_cons, VarSlot.cell, captured]
        cases v.2.frameSlot <;> rfl
      rw [free]
    | true =>
      obtain ⟨k, isSlot, low⟩ := placed v (by simp) captured
      simp only [prologueFrom, captured, if_true, isSlot, Option.getD_some, small k low,
        small i (by omega)] at is ⊢
      have first : code = pre ++ [.pushTemp i] ++
          (.storeCtxTempPop 0 k :: prologueFrom as8 (i + 1) vars ++ post) := by simp [is]
      have second : code = (pre ++ [.pushTemp i]) ++ [.storeCtxTempPop 0 k] ++
          (prologueFrom as8 (i + 1) vars ++ post) := by simp [is]
      have push := step_at (a := a) first [] slots world
      have store := step_at (a := a) second [arg] slots world
      have value : slots i = arg := holds 0 arg rfl
      simp only [Activated.exec, Frame.push, Frame.next, value] at push
      simp only [Activated.exec, Activated.write, VarRef.reach, ctxTempWalk, acts, List.head?_cons,
        Option.bind_some, Option.map_some, Context.owner, Frame.next] at store
      rw [List.length_append, List.length_singleton] at store
      obtain ⟨j, ran⟩ := rest (a.behaviour.set (.ctx id k) arg world)
        (pre ++ [.pushTemp i] ++ [.storeCtxTempPop 0 k]) code (by simp [is])
      rw [List.length_append, List.length_append, List.length_singleton, List.length_singleton] at ran
      refine ⟨1 + (1 + j), ?_⟩
      have both := Machine.run_trans (Machine.run_one push) (Machine.run_trans (Machine.run_one store) ran)
      refine both.trans ?_
      simp [VarSlot.cell, captured, isSlot, bindShared]

theorem bindShared_free (b : Behaviour V W) {cells : List (Option Cell)}
    (free : ∀ c ∈ cells, ∀ owner k, c ≠ some (.ctx owner k)) (args : List V) (world : W) :
    bindShared b (cells.zip args) world = world := by
  induction cells generalizing args with
  | nil => rfl
  | cons c cells ih =>
    cases args with
    | nil => rfl
    | cons arg args =>
      have rest := ih (fun c mem => free c (List.mem_cons_of_mem _ mem)) args
      rw [List.zip_cons_cons]
      match c, free c List.mem_cons_self with
      | none, _ => exact rest
      | some (.frame id k), _ => exact rest
      | some (.instVar i), _ => exact rest
      | some (.assoc x), _ => exact rest
      | some (.ctx owner k), never => exact absurd rfl (never owner k)

section

variable {w : Walk} {cx : Ctx} {h : Holder} {classSide topLevel : Bool} {ownAt : Nat → List String}
  {u : UnitScope} {outer : List UnitScope} {base next n : Nat} {info : ScopeInfo} {p : Option Nat}

theorem paramCells_eq (done : Finished w u p info) {id : Nat} {captured : Option Context}
    {rest : List Activation} :
    paramCells ⟨w.finish⟩ (u :: outer) (activate info id captured :: rest) info.argc =
      (info.vars.take info.argc).map fun v => v.2.cell id := by
  have enough : info.argc ≤ info.vars.length := by
    have frames := done.frames
    rw [← done.names, List.length_map] at frames
    omega
  refine List.ext_getElem (by simp [paramCells, enough]) fun i lt lt' => ?_
  have inside : i < info.vars.length := by
    simp [paramCells] at lt
    omega
  have found : w.finish[u.scope]? = some info := done.found
  simp [paramCells, Declaration.cell, found, List.getElem?_eq_getElem inside, activate]

/-- The prologue puts the parameters where the source puts them. -/
theorem prologue_runs {as8 : Nat → Nat} (small : ∀ n < 256, as8 n = n) {a : Activated V W}
    (done : Finished w u p info) (size : u.names.length ≤ 256)
    (active : Active ⟨w.finish⟩ (u :: outer) a.acts) {args : List V}
    (count : args.length = info.argc) (world : W) (code : List Item) :
    ∃ k, (a.machine (emitPrologue as8 info ++ code)).run k (startFrame a.behaviour args world) =
      ([], .at ⟨(emitPrologue as8 info).length, [], startSlots a.behaviour args,
        bindShared a.behaviour
          ((paramCells ⟨w.finish⟩ (u :: outer) a.acts info.argc).zip args) world⟩) := by
  obtain ⟨info', id, captured, rest, found, acts⟩ := active.head
  obtain rfl : info' = info := by
    have found' := done.found
    rw [found'] at found
    exact (Option.some.inj found).symm
  have frames := done.frames
  have lengths := congrArg List.length done.names
  rw [List.length_map] at lengths
  rw [acts, paramCells_eq done]
  cases hasCtx : info'.hasCtx with
  | false =>
    have none : emitPrologue as8 info' = [] := by simp [emitPrologue, hasCtx]
    rw [none, bindShared_free]
    · exact ⟨0, rfl⟩
    · intro c mem owner k isCtx
      obtain ⟨v, inVars, rfl⟩ := List.mem_map.mp mem
      have free := done.hasCtx v (List.mem_of_mem_take inVars)
      rw [hasCtx] at free
      unfold VarSlot.cell at isCtx
      split at isCtx
      · next isCaptured => cases free isCaptured
      · cases frame : v.2.frameSlot with
        | none => simp [frame] at isCtx
        | some f => simp [frame] at isCtx
  | true =>
    have isPrologue : emitPrologue as8 info' = prologueFrom as8 0 (info'.vars.take info'.argc) := by
      rw [prologueFrom_eq]
      simp [emitPrologue, hasCtx]
    rw [isPrologue]
    have acts' : a.acts = ⟨id, some (.mk id (if info'.capturesCtx then captured else none))⟩ ::
        rest := by
      rw [acts]
      simp [activate, hasCtx]
    have length : (info'.vars.take info'.argc).length = args.length := by
      rw [List.length_take, count]
      omega
    obtain ⟨k, ran⟩ := prologueFrom_runs small acts' (startSlots a.behaviour args)
      (info'.vars.take info'.argc) 0 args world [] code _ length (by rw [length, count]; omega)
      (fun j v at_ => by simp [startSlots, List.getD, at_])
      (fun v mem captured => by
        obtain ⟨k, isSlot, -, low⟩ := (done.placed v (List.mem_of_mem_take mem)).1 captured
        have := done.contexts
        exact ⟨k, isSlot, by omega⟩) rfl
    exact ⟨k, ran⟩

/-- A unit whose statements' code carries them out, after the prologue. -/
theorem unit_carries (for_ : cx.For w h classSide) (done : Finished w u p info)
    (size : u.names.length ≤ 256) (closed : u.inner = []) {unit : CodeUnit} {l : LexUnit}
    (chain : l.chain = u :: outer) {xs : List Item} (g : Gen)
    (code : unit.code = emitPrologue cx.as8 info ++ xs) (argc : unit.argc = info.argc)
    {stmts : List Expr}
    (body : ∀ (a : Activated V W) (sc : Scene V W) (fuel : Nat),
      Standing w cx h classSide u outer a sc fuel → sc.inBlock = unit.isBlock →
      Follows a fuel g xs (Corresponds w u fun _ => none) []
        (evalBody sc (unit.kind topLevel) stmts) Empty.elim Empty.elim) :
    UnitCarries V W ⟨w.finish⟩ h classSide topLevel unit l stmts := by
  intro b acts self args fuel world active count clear
  rw [chain] at active
  have standing : Standing w cx h classSide u outer ⟨b, acts, self⟩
      (unitScene b ⟨w.finish⟩ h classSide unit.isBlock l.chain acts self fuel) fuel :=
    { for_ := for_
      behaviour := rfl
      self := rfl
      fuel := rfl
      active := active
      place := fun name _ => by rw [chain]; rfl }
  obtain ⟨k, ran⟩ := prologue_runs for_.small (a := ⟨b, acts, self⟩) done size active
    (count.trans argc) world xs
  have unbound : ∀ l, Item.bind l ∈ emitPrologue cx.as8 info → l < g.labels := by
    intro l mem
    rcases mem_prologue mem with ⟨slot, is⟩ | ⟨k, is⟩ <;> cases is
  have start : Corresponds w u (fun _ => none)
      (startState b (paramCells ⟨w.finish⟩ (u :: outer) acts unit.argc) args world)
      (startSlots b args) := by
    refine ⟨by simp [startState, closed], fun _ _ => rfl, fun x l found => ?_, fun _ _ is => by cases is⟩
    simp [State.find, startState] at found
  have follows := body _ _ fuel standing rfl (emitPrologue cx.as8 info ++ xs) (emitPrologue cx.as8 info)
    [] (by simp) unbound _ _ [] start
  rw [argc] at follows
  unfold UnitPerforms unitRun
  rw [code, chain, argc]
  unfold unitRun at clear
  rw [chain, argc] at clear
  rw [chain] at follows
  exact Carries.mono (Carries.after_run ran (follows.imp fun v _ _ _ => v.elim) rfl id rfl)
    (Nat.le_add_left fuel k) clear

end

/-! ## Statements -/

/-- What `emitOperand` means. -/
def evalOperand (sc : Scene V W) : Expr → Act V W V
  | .ret value _ | .assign _ value _ => evalExpr sc none value
  | _ => Comp.wrong

def operandBodies : Expr → List (List Expr)
  | .ret value _ | .assign _ value _ => bodies value
  | _ => []

/-- What stands after the statements goes on with their value. -/
structure Ending.Ends {β : Type} (P : CodeUnit → LexUnit → List Expr → Prop) (a : Activated V W)
    (fuel : Nat) (sc : Scene V W) (R : Rel V W) (ending : Ending) (k : V → Act V W β)
    (q : β → List V) (R' : β → Rel V W) : Prop where
  afterReturn : ending.afterReturn = explicitReturn sc.inBlock
  inBlock : ending.inBlock = sc.inBlock
  afterValue : ∀ next v, Sim P a fuel next 0 [] [] R ending.afterValue [v] (k v) q R'

section

variable {w : Walk} {cx : Ctx} {h : Holder} {classSide : Bool} {ownAt : Nat → List String}
  {u : UnitScope} {outer : List UnitScope} {base next n : Nat} {site : Site} {a : Activated V W}
  {sc : Scene V W} {fuel : Nat} {held : Nat → Option V} {P : CodeUnit → LexUnit → List Expr → Prop}

theorem dissolved_ends {R : Rel V W} (inBlock : site.inBlock = sc.inBlock) :
    (Ending.dissolved site.inBlock).Ends P a fuel sc R pure (fun v => [v]) fun _ => R where
  afterReturn := by rw [← inBlock]; rfl
  inBlock := inBlock
  afterValue _ v := sim_skip (q := fun v => [v]) fun _ _ => id

theorem block_ends {R : Rel V W} (inBlock : sc.inBlock = true) :
    Ending.block.Ends (β := Empty) P a fuel sc R
      (fun v => Comp.halt fun s => .blockReturned v s.world) Empty.elim Empty.elim where
  afterReturn := by rw [inBlock]; rfl
  inBlock := inBlock.symm
  afterValue _ v := sim_halt (i := .blockReturnTos) (by simp) fun _ _ _ _ _ => rfl

theorem block_empty {R : Rel V W} (behaviour : sc.behaviour = a.behaviour) :
    Sim P a fuel next 0 [] [] R Ending.block.empty []
      (Comp.halt fun s => .blockReturned sc.behaviour.nilObj s.world : Act V W Empty) Empty.elim
      Empty.elim := by
  refine Sim.opThen (plain_push (v := sc.behaviour.nilObj) (by simp) ?_)
    (sim_halt (i := .blockReturnTos) (by simp) fun _ _ _ _ _ => rfl)
  intro _ _
  rw [behaviour]
  rfl

theorem dissolved_empty {R : Rel V W} (behaviour : sc.behaviour = a.behaviour) (inBlock : Bool) :
    Sim P a fuel next 0 [] [] R (Ending.dissolved inBlock).empty [] (pure sc.behaviour.nilObj)
      (fun v => [v]) fun _ => R := by
  rw [behaviour]
  exact Plain.sim (plain_push (by simp) fun _ _ => rfl)

/-- An assignment as the source has it. -/
theorem sim_assign {name : String} {span : Span} {o : Outline} {stmts : List (List Expr)} {e : Emit}
    {A : Act V W V}
    (here : Here w cx h classSide ownAt u outer base next n (.seq o (.occ name true)) site a sc fuel
      held)
    (value : Carried P a fuel w u outer base next held o stmts e [] A fun v => [v]) :
    Carried P a fuel w u outer base next held (.seq o (.occ name true)) stmts
      (e ++ op .dup ++ emitStore cx site name span) []
      (A >>= fun v => sc.store name v >>= fun _ => pure v) fun v => [v] := by
  have second := here.second
  have copied : Carried P a fuel w u outer base next held o stmts (e ++ op .dup) [] A
      fun v => [v, v] := value.thenOp a.self fun v => plain_dup
  refine Sim.bodies (copied.bind a.self fun v => ?_) (List.append_nil stmts)
  exact (sim_store second.standing second.sound second.follows second.holds v).map ()
    (fun _ => rfl) fun _ _ _ => id

theorem sim_statementDiscard {stmt : Expr} {operand whole : Emit}
    (here : Here w cx h classSide ownAt u outer base next n (outline stmt) site a sc fuel held)
    (simOperand : Carried P a fuel w u outer base next held (operandOutline stmt)
      (operandBodies stmt) operand [] (evalOperand sc stmt) fun v => [v])
    (simWhole : Carried P a fuel w u outer base next held (outline stmt) (bodies stmt) whole []
      (evalExpr sc none stmt) fun v => [v]) :
    Carried P a fuel w u outer base next held (outline stmt) (bodies stmt)
      (emitStatementDiscard cx site sc.inBlock stmt operand whole) [] (evalExpr sc none stmt)
      fun _ => [] := by
  unfold emitStatementDiscard
  refine Sim.opThen (plain_noteLine _) ?_
  cases stmt with
  | ret value span =>
    rw [outline, bodies, evalExpr]
    refine Sim.onlyFirst (simOperand.bind a.self fun v => ?_)
    rw [← Comp.bind_pure (sc.explicitReturn v)]
    exact sim_explicitReturn
  | assign name value span =>
    rw [outline] at here
    rw [outline, bodies, evalExpr]
    have second := here.second
    refine Sim.bodies (Sim.bind a.self simOperand fun v => ?_) (List.append_nil _)
    exact (sim_store second.standing second.sound second.follows second.holds v).map ()
      (fun _ => rfl) fun _ _ _ => id
  | selfRef | var | lit | send | cascade | cascadeRcvr | dynArray | block =>
    exact simWhole.thenOp a.self fun v => plain_pop

theorem sim_statementValue {stmt : Expr} {operand whole : Emit}
    (here : Here w cx h classSide ownAt u outer base next n (outline stmt) site a sc fuel held)
    (simOperand : Carried P a fuel w u outer base next held (operandOutline stmt)
      (operandBodies stmt) operand [] (evalOperand sc stmt) fun v => [v])
    (simWhole : Carried P a fuel w u outer base next held (outline stmt) (bodies stmt) whole []
      (evalExpr sc none stmt) fun v => [v]) :
    Carried P a fuel w u outer base next held (outline stmt) (bodies stmt)
      (emitStatementValue cx site stmt operand whole) [] (evalExpr sc none stmt) fun v => [v] := by
  unfold emitStatementValue
  refine Sim.opThen (plain_noteLine _) ?_
  cases stmt with
  | assign name value span =>
    rw [outline] at here
    rw [outline, bodies, evalExpr]
    exact sim_assign here simOperand
  | selfRef | var | lit | send | cascade | cascadeRcvr | dynArray | block | ret => exact simWhole

theorem sim_lastStatement {β : Type} {stmt : Expr} {operand whole : Emit} {ending : Ending}
    {k : V → Act V W β} {q : β → List V} {R' : β → Rel V W}
    (here : Here w cx h classSide ownAt u outer base next n (outline stmt) site a sc fuel held)
    (simOperand : Carried P a fuel w u outer base next held (operandOutline stmt)
      (operandBodies stmt) operand [] (evalOperand sc stmt) fun v => [v])
    (simWhole : Carried P a fuel w u outer base next held (outline stmt) (bodies stmt) whole []
      (evalExpr sc none stmt) fun v => [v])
    (ends : ending.Ends P a fuel sc (Corresponds w u held) k q R') :
    Sim P a fuel next (outline stmt).slots
      ((outline stmt).units (CaptureInfo.frameTemps ⟨w.finish⟩) u outer base next) (bodies stmt)
      (Corresponds w u held) (emitLastStatement cx site ending stmt operand whole) []
      (evalExpr sc none stmt >>= k) q R' := by
  have valued : Sim P a fuel next (outline stmt).slots
      ((outline stmt).units (CaptureInfo.frameTemps ⟨w.finish⟩) u outer base next) (bodies stmt)
      (Corresponds w u held)
      (emitStatementValue cx site stmt operand whole ++ ending.afterValue) []
      (evalExpr sc none stmt >>= k) q R' :=
    Sim.onlyFirst ((sim_statementValue here simOperand simWhole).bind a.self fun v =>
      ends.afterValue _ v)
  unfold emitLastStatement
  cases stmt with
  | ret value span =>
    rw [outline, bodies, evalExpr, Comp.bind_assoc]
    refine Sim.onlyFirst (simOperand.bind a.self fun v => ?_)
    rw [ends.afterReturn]
    exact sim_explicitReturn
  | selfRef | var | lit | assign | send | cascade | cascadeRcvr | dynArray | block => exact valued

end

/-! ## Inlined constructs -/

section

variable {α : Type} {next n n' : Nat} {a : Activated V W} {sc : Scene V W} {fuel : Nat}
  {P : CodeUnit → LexUnit → List Expr → Prop} {lex lex' : List LexUnit}
  {stmts stmts' : List (List Expr)} {R : Rel V W} {e e' : Emit} {p : List V}

/-- A conditional, as it is written. -/
theorem sim_conditional (behaviour : sc.behaviour = a.behaviour) (jumpOn : Bool) {A : Act V W V}
    {arm : Bool → Act V W V} {receiver : Emit} {m : Nat} {lexR : List LexUnit}
    {stmtsR : List (List Expr)}
    (test : Sim P a fuel next m lexR stmtsR R receiver p A (fun v => [v]) fun _ => R)
    (falls : Sim P a fuel (next + m) n lex stmts R e [] (arm (!jumpOn)) (fun v => [v]) fun _ => R)
    (jumps : Sim P a fuel (next + m + n) n' lex' stmts' R e' [] (arm jumpOn) (fun v => [v])
      fun _ => R) :
    Sim P a fuel next (m + (n + n')) (lexR ++ (lex ++ lex')) (stmtsR ++ (stmts ++ stmts')) R
      (receiver ++ newLabel fun l1 => newLabel fun l2 =>
        op (branchItem jumpOn l1) ++ e ++ op (.jumpFwd l2) ++ op (.bind l1) ++ e' ++ op (.bind l2))
      p (A >>= fun v => sc.truth v >>= arm) (fun v => [v]) fun _ => R := by
  refine test.bind a.self fun v => (sim_branch behaviour falls jumps).of_eq ?_
  simp only [Emit.append_assoc]

/-- The test of the nil family leaves its answer on the receiver. -/
theorem sim_nilTest (behaviour : sc.behaviour = a.behaviour) (stable : Stable R) {A : Act V W V}
    (receiver : Sim P a fuel next n lex stmts R e p A (fun v => [v]) fun _ => R) :
    Sim P a fuel next n lex stmts R (nilTest e) p
      (A >>= fun v => sc.send false "==" v [sc.behaviour.nilObj] >>= fun t => pure (v, t))
      (fun x => [x.2, x.1]) fun _ => R := by
  have test : ∀ v next, Sim P a fuel next 0 [] [] R
      (op .dup ++ (op .pushNil ++ op (.send false "==" 1))) [v]
      (sc.send false "==" v [sc.behaviour.nilObj] >>= fun t => pure (v, t)) (fun x => [x.2, x.1])
      fun _ => R := by
    intro v next
    refine Sim.opThen plain_dup (Sim.opThen (plain_push (v := sc.behaviour.nilObj) (by simp) ?_) ?_)
    · intro _ _
      rw [behaviour]
      rfl
    · have send : Sim P a fuel next 0 [] [] R (op (.send false "==" 1)) [sc.behaviour.nilObj, v]
          (sc.send false "==" v [sc.behaviour.nilObj]) (fun t => [t]) fun _ => R :=
        sim_send behaviour stable fun _ _ _ => rfl
      exact (send.frame [v]).map a.self (fun _ => rfl) fun _ _ _ => id
  refine Sim.of_eq (Sim.onlyFirst (receiver.bind a.self fun v => test v _)) ?_
  unfold nilTest
  simp only [Emit.append_assoc]

/-- A conditional on nil: the arms start with the receiver on the stack. -/
theorem sim_nilConditional (behaviour : sc.behaviour = a.behaviour) (stable : Stable R)
    (jumpOn : Bool) {A : Act V W V} {arm : V → Bool → Act V W V} {receiver : Emit} {m : Nat}
    {lexR : List LexUnit} {stmtsR : List (List Expr)}
    (test : Sim P a fuel next m lexR stmtsR R receiver p A (fun v => [v]) fun _ => R)
    (falls : ∀ v, Sim P a fuel (next + m) n lex stmts R e [v] (arm v (!jumpOn)) (fun v => [v])
      fun _ => R)
    (jumps : ∀ v, Sim P a fuel (next + m + n) n' lex' stmts' R e' [v] (arm v jumpOn) (fun v => [v])
      fun _ => R) :
    Sim P a fuel next (m + (n + n')) (lexR ++ (lex ++ lex')) (stmtsR ++ (stmts ++ stmts')) R
      (nilTest receiver ++ newLabel fun l1 => newLabel fun l2 =>
        op (branchItem jumpOn l1) ++ (e ++ (op (.jumpFwd l2) ++ (op (.bind l1) ++ (e' ++
          op (.bind l2))))))
      p (A >>= fun v => sc.isNil v >>= arm v) (fun v => [v]) fun _ => R := by
  have branch := (sim_nilTest behaviour stable test).bind (a.self, a.self) fun x =>
    sim_branch behaviour (t := x.2) (falls x.1) (jumps x.1)
  have same : ((A >>= fun v => sc.send false "==" v [sc.behaviour.nilObj] >>= fun t => pure (v, t)) >>=
      fun x => sc.truth x.2 >>= arm x.1) = (A >>= fun v => sc.isNil v >>= arm v) := by
    rw [Comp.bind_assoc]
    congr 1
    funext v
    rw [Comp.bind_assoc, Scene.isNil, Comp.bind_assoc]
    rfl
  rw [← same]
  exact branch

end

/-! ## Expressions -/

section

variable {w : Walk} {cx : Ctx} {h : Holder} {classSide topLevel : Bool} {ownAt : Nat → List String}
  {u : UnitScope} {outer : List UnitScope} {base next n : Nat} {site : Site} {a : Activated V W}
  {sc : Scene V W} {fuel : Nat} {held : Nat → Option V}
  {P : CodeUnit → LexUnit → List Expr → Prop}

theorem Sound.real_argc {scope : Nat} {params temps : List String} {body : Outline}
    (sound : Sound w ownAt u outer base next n (.real scope params temps body)) {info : ScopeInfo}
    (found : w.finish[scope]? = some info) : info.argc = params.length := by
  obtain ⟨rfl, -⟩ := sound.inside.numbered
  have known : w.builders[scope]? = some (Outline.builder u.scope params temps body) :=
    sound.inside.news 0 _ rfl
  simp only [Walk.finish, List.getElem?_mapIdx, known, Option.map_some, Option.some.injEq] at found
  rw [← found]
  rfl

/-- A real block: one instruction, and a unit of its own. -/
theorem sim_real (each : ∀ unit l stmts,
      UnitCarries V W ⟨w.finish⟩ h classSide topLevel unit l stmts → P unit l stmts)
    {scopeId : Nat} {params temps : List String} {o : Outline}
    (here : Here w cx h classSide ownAt u outer base next n (.real scopeId params temps o) site a sc
      fuel held)
    {span : Span} {e : Emit} {stmts : List (List Expr)} {body : List Expr}
    (inner : ∀ (a : Activated V W) (sc : Scene V W) (fuel : Nat),
      Here w cx h classSide ownAt (Outline.realScope scopeId params temps o) (u :: outer)
        (params ++ temps).length (CaptureInfo.frameTemps ⟨w.finish⟩ scopeId + params.length)
        (scopeId + 1) o ⟨[], scopeId, true⟩ a sc fuel (fun _ => none) →
      Sim P a fuel (CaptureInfo.frameTemps ⟨w.finish⟩ scopeId + params.length) o.slots
        (o.units (CaptureInfo.frameTemps ⟨w.finish⟩) (Outline.realScope scopeId params temps o)
          (u :: outer) (params ++ temps).length
          (CaptureInfo.frameTemps ⟨w.finish⟩ scopeId + params.length))
        stmts (Corresponds w (Outline.realScope scopeId params temps o) fun _ => none) e []
        (evalBody sc .block body) Empty.elim Empty.elim) :
    Carried P a fuel w u outer base next held (.real scopeId params temps o) (stmts ++ [body])
      (emitBlockLiteral cx span scopeId params.length e) [] (sc.closure scopeId) fun v => [v] := by
  rintro g xs g' start ok
  unfold emitBlockLiteral at ok
  split at ok
  · cases ok
  next info found =>
  split at ok
  · cases ok
  split at ok
  · cases ok
  next code made okBody =>
  cases ok
  rw [here.standing.for_.capture] at found
  have sound := here.sound.real
  have frames : CaptureInfo.frameTemps ⟨w.finish⟩ scopeId = info.frameTempCount := by
    have found : w.finish[scopeId]? = some info := found
    simp [CaptureInfo.frameTemps, found]
  have place : ∀ (a : Activated V W) (sc : Scene V W) (fuel : Nat),
      Standing w cx h classSide (Outline.realScope scopeId params temps o) (u :: outer) a sc fuel →
      sc.inBlock = true → _ := fun a sc fuel standing inBlock =>
    inner a sc fuel
      { sound := sound
        standing := standing
        follows := ⟨rfl, fun name => by simp [UnitScope.hoistSlot, Outline.realScope]⟩
        inBlock := inBlock.symm
        holds := fun _ _ is => by cases is }
  -- Some activation of the block shows what its emission does to the generator.
  obtain ⟨acts, active⟩ := exists_active sound.inside.chain
  have standing : Standing w cx h classSide (Outline.realScope scopeId params temps o) (u :: outer)
      ⟨a.behaviour, acts, a.self⟩
      (unitScene a.behaviour ⟨w.finish⟩ h classSide true
        (Outline.realScope scopeId params temps o :: u :: outer) acts a.self 0) 0 :=
    { for_ := here.standing.for_
      behaviour := rfl
      self := rfl
      fuel := rfl
      active := active
      place := fun _ _ => rfl }
  have first : info.frameTempCount + params.length =
      CaptureInfo.frameTemps ⟨w.finish⟩ scopeId + params.length := by rw [frames]
  obtain ⟨emitted, -⟩ := place _ _ _ standing rfl _ code made first okBody
  obtain ⟨us, units, matched⟩ := emitted.units
  obtain ⟨q, done⟩ : ∃ q, Finished w (Outline.realScope scopeId params temps o) q info := by
    obtain ⟨q, b, known⟩ := sound.inside.chain.known _ List.mem_cons_self
    obtain ⟨info', done⟩ := known.finished
    have found' : w.finish[scopeId]? = some info' := done.found
    have found : w.finish[scopeId]? = some info := found
    rw [found] at found'
    cases found'
    exact ⟨q, done⟩
  have joined : ∀ unit, made.units ++ [unit] = g.units ++ (us ++ [unit]) := fun unit => by
    rw [units, List.append_assoc]
  refine ⟨⟨Nat.le_refl _, by simp, rfl, _, joined _, matched.append ⟨each _ _ _ ?_, trivial⟩⟩, ?_⟩
  · refine unit_carries here.standing.for_ done sound.head.size rfl rfl
      ⟨info.frameTempCount + params.length, 0, g.globals, g.units⟩ rfl
      (here.sound.real_argc found).symm fun a sc fuel standing inBlock => ?_
    exact (place a sc fuel standing inBlock _ code made first okBody).2
  · exact sim_closure here.standing.behaviour stable_corresponds g _ g rfl

theorem stable_counted {c : Prop} :
    Stable fun (s : State V W) slots => c ∧ Corresponds w u held s slots :=
  fun s world slots related => ⟨related.1, stable_corresponds s world slots related.2⟩

/-- A literal on top of the operands. -/
theorem sim_literal (behaviour : sc.behaviour = a.behaviour) (l : Literal) {R : Rel V W} :
    Sim P a fuel next 0 [] [] R (emitLiteral l) [] (pure (sc.behaviour.value l)) (fun v => [v])
      fun _ => R := by
  obtain ⟨i, is, plain⟩ := plain_literal (a := a) (R := R) (p := []) l
  rw [is, behaviour]
  exact plain.sim

/-! Each lemma is one inlined construct at its place, over the pieces it is made of. -/

variable {A B : Act V W V} {p : List V} {ro o o' : Outline} {rs bs bs' : List (List Expr)}
  {receiver receiverBody e e' : Emit}

theorem plain_nil (behaviour : sc.behaviour = a.behaviour) {R : Rel V W} {p : List V} :
    Plain a R p .pushNil (sc.behaviour.nilObj :: p) R :=
  plain_push (by simp) fun _ _ => by rw [behaviour]; rfl

theorem plain_true (behaviour : sc.behaviour = a.behaviour) {R : Rel V W} {p : List V} :
    Plain a R p .pushTrue (sc.behaviour.trueObj :: p) R :=
  plain_push (by simp) fun _ _ => by rw [behaviour]; rfl

theorem plain_false (behaviour : sc.behaviour = a.behaviour) {R : Rel V W} {p : List V} :
    Plain a R p .pushFalse (sc.behaviour.falseObj :: p) R :=
  plain_push (by simp) fun _ _ => by rw [behaviour]; rfl

/-- A conditional with one block; the other arm is a constant. -/
theorem sim_oneArm
    (here : Here w cx h classSide ownAt u outer base next n (.seq ro o) site a sc fuel held)
    (jumpOn : Bool) {arm : Bool → Act V W V} {i : Item} {v : V}
    (test : Carried P a fuel w u outer base next held ro rs receiver p A fun v => [v])
    (falls : Carried P a fuel w u outer (base + ro.folded.length) (next + ro.slots) held o bs e []
      (arm (!jumpOn)) fun v => [v])
    (push : Plain a (Corresponds (W := W) w u held) [] i [v] (Corresponds w u held))
    (jumps : arm jumpOn = pure v) :
    Carried P a fuel w u outer base next held (.seq ro o) (rs ++ bs)
      (receiver ++ newLabel fun l1 => newLabel fun l2 => op (branchItem jumpOn l1) ++ e ++
        op (.jumpFwd l2) ++ op (.bind l1) ++ op i ++ op (.bind l2))
      p (A >>= fun v => sc.truth v >>= arm) fun v => [v] := by
  have constant : ∀ next, Sim P a fuel next 0 [] [] (Corresponds w u held) (op i) [] (arm jumpOn)
      (fun v => [v]) fun _ => Corresponds w u held := fun next => by
    rw [jumps]
    exact Plain.sim push
  have both := sim_conditional here.standing.behaviour jumpOn test falls (constant _)
  rwa [Nat.add_zero, List.append_nil, List.append_nil] at both

/-- The nil family with one block: the receiver is the other arm's value. -/
theorem sim_oneNilArm
    (here : Here w cx h classSide ownAt u outer base next n (.seq ro o) site a sc fuel held)
    (jumpOn : Bool) {arm : V → Bool → Act V W V}
    (test : Carried P a fuel w u outer base next held ro rs receiver p A fun v => [v])
    (falls : ∀ v, Carried P a fuel w u outer (base + ro.folded.length) (next + ro.slots) held o bs e
      [v] (arm v (!jumpOn)) fun v => [v])
    (jumps : ∀ v, arm v jumpOn = pure v) :
    Carried P a fuel w u outer base next held (.seq ro o) (rs ++ bs)
      (nilTest receiver ++ newLabel fun l1 => newLabel fun l2 => op (branchItem jumpOn l1) ++ (e ++
        (op (.jumpFwd l2) ++ (op (.bind l1) ++ op (.bind l2)))))
      p (A >>= fun v => sc.isNil v >>= arm v) fun v => [v] := by
  have kept : ∀ v next, Sim P a fuel next 0 [] [] (Corresponds w u held) skip [v] (arm v jumpOn)
      (fun v => [v]) fun _ => Corresponds w u held := fun v next => by
    rw [jumps]
    exact sim_skip (q := fun v => [v]) fun _ _ => id
  have both := sim_nilConditional here.standing.behaviour stable_corresponds jumpOn test falls
    fun v => kept v _
  rw [Nat.add_zero, List.append_nil, List.append_nil] at both
  simp only [Emit.skip_append] at both
  exact both

theorem Emit.newLabel_append (k : Nat → Emit) (e : Emit) :
    newLabel k ++ e = newLabel fun l => k l ++ e :=
  rfl

theorem sim_while
    (here : Here w cx h classSide ownAt u outer base next n (.seq ro o) site a sc fuel held)
    (wanted : Bool)
    (cond : Carried P a fuel w u outer base next held ro rs receiverBody [] B fun v => [v])
    (body : Carried P a fuel w u outer (base + ro.folded.length) (next + ro.slots) held o bs e [] A
      fun v => [v]) :
    Carried P a fuel w u outer base next held (.seq ro o) (rs ++ bs)
      (newLabel fun l0 => newLabel fun l2 => op (.bind l0) ++ receiverBody ++
        op (branchItem (!wanted) l2) ++ e ++ op .pop ++ op (.jumpBack l0) ++ op (.bind l2) ++
        op .pushNil)
      [] (sc.whileLoop wanted B A >>= fun _ => pure sc.behaviour.nilObj) fun v => [v] := by
  have behaviour := here.standing.behaviour
  have dropped : Carried P a fuel w u outer (base + ro.folded.length) (next + ro.slots) held o bs
      (e ++ op .pop) [] A fun _ => [] := body.thenOp a.self fun v => plain_pop
  have loop := sim_loop (I := fun _ => Corresponds w u held) (C := fun _ => B)
    (K := fun _ => A >>= fun _ => (pure (.inl ()) : Act V W (Unit ⊕ Unit))) behaviour wanted
    (fun _ => cond) (fun _ => dropped.map a.self (fun _ => rfl) fun _ _ _ => id) ()
  have nil : ∀ next, Sim P a fuel next 0 [] [] (Corresponds w u held) (op .pushNil) []
      (pure sc.behaviour.nilObj) (fun v => [v]) fun _ => Corresponds w u held := fun next =>
    Plain.sim (plain_nil behaviour)
  have both := Sim.onlyFirst ((loop.imp (fun _ _ => id) fun _ s slots related => by
    obtain ⟨-, related⟩ := related
    exact related).bind () fun _ => nil _)
  rw [Scene.whileLoop, here.standing.fuel]
  refine both.of_eq ?_
  simp only [Emit.newLabel_append, Emit.append_assoc]

theorem sim_repeatLoop
    (here : Here w cx h classSide ownAt u outer base next n o site a sc fuel held)
    (body : Carried P a fuel w u outer base next held o bs receiverBody [] B fun v => [v]) :
    Carried P a fuel w u outer base next held o bs
      (newLabel fun l0 => op (.bind l0) ++ receiverBody ++ op .pop ++ op (.jumpBack l0) ++ op .pushNil)
      [] (sc.repeatLoop B) fun v => [v] := by
  have turn : Carried P a fuel w u outer base next held o bs (receiverBody ++ op .pop) [] B
      fun _ => [] := body.thenOp a.self fun v => plain_pop
  have loop := sim_repeat (α := V) (fun _ => []) (fun _ _ _ => False) turn
  -- The loop answers no value, so what stands after it is never reached.
  have never : ∀ v : V, Plain a (fun (_ : State V W) _ => False) [] .pushNil [v]
      (Corresponds w u held) := fun v =>
    ⟨by simp, fun _ _ _ _ _ no => no.elim⟩
  have both := loop.thenOp a.self never
  rw [Scene.repeatLoop, here.standing.fuel]
  refine both.of_eq ?_
  simp only [Emit.newLabel_append, Emit.append_assoc]

/-! ## Blocks and selectors that are inlined -/

/-- The statements of a dissolved body, wherever they stand, leave their value. -/
def BodyCarried (V W : Type) [DecidableEq V] (P : CodeUnit → LexUnit → List Expr → Prop) (w : Walk)
    (cx : Ctx) (h : Holder) (classSide : Bool) (ownAt : Nat → List String) (body : List Expr) : Prop :=
  ∀ (u : UnitScope) (outer : List UnitScope) (base next n : Nat) (site : Site) (a : Activated V W)
    (sc : Scene V W) (fuel : Nat) (held : Nat → Option V),
    Here w cx h classSide ownAt u outer base next n (outlineAll body) site a sc fuel held →
    Carried P a fuel w u outer base next held (outlineAll body) (bodiesAll body)
      (emitStatements cx site (Ending.dissolved site.inBlock) body) [] (evalStatements sc body)
      fun v => [v]

/-- So do those of the expression, if it is a block. -/
def BlockCarried (V W : Type) [DecidableEq V] (P : CodeUnit → LexUnit → List Expr → Prop) (w : Walk)
    (cx : Ctx) (h : Holder) (classSide : Bool) (ownAt : Nat → List String) (e : Expr) : Prop :=
  ∀ params temps body span scopeId, e = .block params temps body span scopeId →
    BodyCarried V W P w cx h classSide ownAt body

theorem sim_dissolvedBody (x : Expr) (block : BlockCarried V W P w cx h classSide ownAt x)
    (here : Here w cx h classSide ownAt u outer base next n (outlineBody x) site a sc fuel held) :
    Carried P a fuel w u outer base next held (outlineBody x) (bodiesBlock x)
      (emitDissolvedBody cx site x) [] (evalBlock sc [] false x) fun v => [v] := by
  cases x with
  | block params temps body span scopeId =>
    rw [outlineBody] at here
    rw [outlineBody, bodiesBlock, emitDissolvedBody, evalBlock]
    exact sim_dissolved here
      (block _ _ _ _ _ rfl _ _ _ _ _ _ a sc fuel held here.dissolved)
  | selfRef | cascadeRcvr | lit | var | assign | send | cascade | dynArray | ret => exact sim_fail

/-- The arm of the nil family that takes the receiver. -/
theorem sim_ifnotnilArm (x : Expr) (block : BlockCarried V W P w cx h classSide ownAt x) (v : V)
    (here : Here w cx h classSide ownAt u outer base next n (outlineBody x) site a sc fuel held) :
    Carried P a fuel w u outer base next held (outlineBody x) (bodiesBlock x)
      (emitIfnotnilArm cx site x) [v] (evalBlock sc [v] false x) fun v => [v] := by
  match x with
  | .block [] temps body _ _ =>
    rw [outlineBody] at here
    rw [outlineBody, bodiesBlock, emitIfnotnilArm, evalBlock]
    exact Sim.opThen plain_pop (sim_dissolved here
      (block _ _ _ _ _ rfl _ _ _ _ _ _ a sc fuel held here.dissolved))
  | .block (param :: params) temps body _ _ =>
    rw [outlineBody] at here
    rw [outlineBody, bodiesBlock, emitIfnotnilArm, evalBlock]
    exact sim_ifnotnil here (block _ _ _ _ _ rfl _ _ _ _ _ _ a sc fuel held here.dissolved)
  | .selfRef _ | .cascadeRcvr _ | .lit _ _ | .var _ _ | .assign _ _ _ | .send _ _ _ _ _
  | .cascade _ _ _ | .dynArray _ _ | .ret _ _ =>
    exact sim_fail

theorem sim_times (x : Expr) (plain : blockArgc x = some 0)
    (block : BlockCarried V W P w cx h classSide ownAt x) (v : V)
    (here : Here w cx h classSide ownAt u outer base next n
      (.seq .hidden (.seq .hidden (outlineLoose x))) site a sc fuel held) :
    Carried P a fuel w u outer base next held (.seq .hidden (.seq .hidden (outlineLoose x)))
      (bodiesBlock x)
      (newSlots 1 fun limSlot => op (.storeTempPop (cx.as8 limSlot)) ++ newSlots 1 fun iSlot =>
        op (.pushSmiI8 1) ++ op (.storeTempPop (cx.as8 iSlot)) ++
          countedLoop (cx.as8 iSlot) (cx.as8 limSlot) (emitLoopBody cx site 0 x))
      [v] (sc.countedLoop v (fun _ => evalBlock sc [] false x) (sc.behaviour.int 1)) fun _ => [] := by
  match x with
  | .block [] temps body _ _ =>
    rw [outlineLoose] at here
    rw [outlineLoose, bodiesBlock, emitLoopBody, evalBlock]
    exact sim_timesRepeat here fun i =>
      block _ _ _ _ _ rfl _ _ _ _ _ _ a sc fuel _ (here.timesRepeat_body v i)
  | .block (param :: params) _ _ _ _ => simp [blockArgc] at plain
  | .selfRef _ | .cascadeRcvr _ | .lit _ _ | .var _ _ | .assign _ _ _ | .send _ _ _ _ _
  | .cascade _ _ _ | .dynArray _ _ | .ret _ _ =>
    cases plain

theorem sim_counter (x : Expr) (one : blockArgc x = some 1)
    (block : BlockCarried V W P w cx h classSide ownAt x) (v : V) {limit : Outline}
    (here : Here w cx h classSide ownAt u outer base next n (outlineCounted limit x) site a sc fuel held)
    {ls : List (List Expr)} {eLimit : Emit} {L : Act V W V}
    (simLimit : ∀ base next n held,
      Here w cx h classSide ownAt u outer base next n limit site a sc fuel held →
      Carried P a fuel w u outer base next held limit ls eLimit [] L fun v => [v]) :
    Carried P a fuel w u outer base next held (outlineCounted limit x) (ls ++ bodiesBlock x)
      (newSlots 1 fun iSlot => op (.storeTempPop (cx.as8 iSlot)) ++ eLimit ++ newSlots 1 fun limSlot =>
        op (.storeTempPop (cx.as8 limSlot)) ++
          countedLoop (cx.as8 iSlot) (cx.as8 limSlot) (emitLoopBody cx site (cx.as8 iSlot) x))
      [v] (L >>= fun lim => sc.countedLoop lim (fun i => evalBlock sc [i] true x) v) fun _ => [] := by
  match x with
  | .block (loopVar :: params) temps body _ _ =>
    rw [outlineCounted] at here
    rw [outlineCounted, bodiesBlock]
    simp only [emitLoopBody, evalBlock]
    exact sim_toDo here (e := fun iSlot => emitStatements cx (site.push ⟨[(loopVar, iSlot)]⟩)
      (Ending.dissolved site.inBlock) body) (simLimit _ _ _ _ (here.counted_limit v))
      fun lim i => block _ _ _ _ _ rfl _ _ _ _ _ _ a sc fuel _ (here.counted_body lim i)
  | .block [] _ _ _ _ => simp [blockArgc] at one
  | .selfRef _ | .cascadeRcvr _ | .lit _ _ | .var _ _ | .assign _ _ _ | .send _ _ _ _ _
  | .cascade _ _ _ | .dynArray _ _ | .ret _ _ =>
    cases one

/-- The inlined selectors, over what their receiver and their blocks are carried out by. -/
theorem sim_inlined (shape : Shape) (args : List Expr)
    (simReceiver : ∀ base next n held,
      Here w cx h classSide ownAt u outer base next n ro site a sc fuel held →
      Carried P a fuel w u outer base next held ro rs receiver p A fun v => [v])
    {rbo : Outline}
    (simBody : ∀ base next n held,
      Here w cx h classSide ownAt u outer base next n rbo site a sc fuel held →
      Carried P a fuel w u outer base next held rbo bs receiverBody [] B fun v => [v])
    (exprs : ∀ x ∈ args, ∀ base next n held,
      Here w cx h classSide ownAt u outer base next n (outline x) site a sc fuel held →
      Carried P a fuel w u outer base next held (outline x) (bodies x) (emitExpr cx site x) []
        (evalExpr sc none x) fun v => [v])
    (blocks : ∀ x ∈ args, BlockCarried V W P w cx h classSide ownAt x)
    {receiverArgc : Option Nat} (fits : shape.Fits receiverArgc (argcs args))
    (bare : receiverArgc ≠ none → p = [])
    (here : Here w cx h classSide ownAt u outer base next n (outlineInlined shape ro rbo args) site a
      sc fuel held) :
    Carried P a fuel w u outer base next held (outlineInlined shape ro rbo args)
      (bodiesInlined shape rs bs args) (emitInlined cx site shape receiver receiverBody args) p
      (evalInlined sc shape A B args) fun v => [v] := by
  have behaviour := here.standing.behaviour
  match args with
  | [] =>
    rw [outlineInlined] at here
    rw [outlineInlined, bodiesInlined, emitInlined.eq_def, evalInlined.eq_def]
    cases shape with
    | «repeat» =>
      obtain rfl : p = [] := bare (by simp [fits.1])
      exact sim_repeatLoop here (simBody base next n held here)
    | _ => exact sim_fail
  | [x] =>
    have block := blocks x (by simp)
    rw [outlineInlined.eq_def] at here ⊢
    rw [bodiesInlined.eq_def, emitInlined.eq_def, evalInlined.eq_def]
    cases shape with
    | ifTrue =>
      exact sim_oneArm here false (simReceiver _ _ _ _ here.first)
        (sim_dissolvedBody x block here.second)
        (plain_nil behaviour) rfl
    | ifFalse =>
      exact sim_oneArm here true (simReceiver _ _ _ _ here.first)
        (sim_dissolvedBody x block here.second)
        (plain_nil behaviour) rfl
    | and =>
      exact sim_oneArm here false (simReceiver _ _ _ _ here.first)
        (sim_dissolvedBody x block here.second)
        (plain_false behaviour) rfl
    | or =>
      exact sim_oneArm here true (simReceiver _ _ _ _ here.first)
        (sim_dissolvedBody x block here.second)
        (plain_true behaviour) rfl
    | whileTrue =>
      obtain rfl : p = [] := bare (by simp [fits.1])
      exact sim_while here true (simBody _ _ _ _ here.first)
        (sim_dissolvedBody x block here.second)
    | whileFalse =>
      obtain rfl : p = [] := bare (by simp [fits.1])
      exact sim_while here false (simBody _ _ _ _ here.first)
        (sim_dissolvedBody x block here.second)
    | timesRepeat =>
      have plain : blockArgc x = some 0 := by simpa [Shape.Fits, argcs] using fits
      have copied := (simReceiver _ _ _ _ here.first).thenOp a.self fun v => plain_dup
      exact Sim.bind a.self copied fun v => ((sim_times x plain block v here.second).frame [v]).map () (fun _ => rfl) fun _ _ _ => id
    | ifNil =>
      have arm : ∀ v, Carried P a fuel w u outer (base + ro.folded.length) (next + ro.slots) held
          (outlineBody x) (bodiesBlock x) (op .pop ++ emitDissolvedBody cx site x) [v]
          (evalBlock sc [] false x) fun v => [v] := fun v =>
        Sim.opThen plain_pop (sim_dissolvedBody x block here.second)
      refine (sim_oneNilArm here false (simReceiver _ _ _ _ here.first) arm fun _ => rfl).of_eq ?_
      simp only [Emit.append_assoc]
      rfl
    | ifNotNil =>
      refine (sim_oneNilArm here true (simReceiver _ _ _ _ here.first) (fun v =>
        sim_ifnotnilArm x block v here.second) fun _ => rfl).of_eq ?_
      simp only [Emit.append_assoc]
      rfl
    | _ => exact sim_fail
  | [x, y] =>
    have blockX := blocks x (by simp)
    have blockY := blocks y (by simp)
    rw [outlineInlined.eq_def] at here ⊢
    rw [bodiesInlined.eq_def, emitInlined.eq_def, evalInlined.eq_def]
    cases shape with
    | ifTrueIfFalse =>
      exact sim_conditional behaviour false (simReceiver _ _ _ _ here.first)
        (sim_dissolvedBody x blockX here.second.first)
        (sim_dissolvedBody y blockY here.second.second)
    | ifFalseIfTrue =>
      refine Sim.cast (sim_conditional behaviour false (simReceiver _ _ _ _ here.first)
        (sim_dissolvedBody y blockY here.second.armsFirst)
        (sim_dissolvedBody x blockX here.second.armsSecond))
        rfl ?_
      simp only [Outline.slots]
      omega
    | ifNilIfNotNil =>
      refine (sim_nilConditional behaviour stable_corresponds false (simReceiver _ _ _ _ here.first)
        (fun v => Sim.opThen plain_pop (sim_dissolvedBody x blockX here.second.first))
        fun v => sim_ifnotnilArm y blockY v here.second.second).of_eq ?_
      simp only [Emit.append_assoc]
      rfl
    | ifNotNilIfNil =>
      refine (sim_nilConditional behaviour stable_corresponds true (simReceiver _ _ _ _ here.first)
        (fun v => sim_ifnotnilArm x blockX v here.second.first)
        fun v => Sim.opThen plain_pop (sim_dissolvedBody y blockY here.second.second)).of_eq ?_
      simp only [Emit.append_assoc]
      rfl
    | toDo =>
      have one : blockArgc y = some 1 := by simpa [Shape.Fits, argcs] using fits
      have copied := (simReceiver _ _ _ _ here.first).thenOp a.self fun v => plain_dup
      refine Sim.bind a.self copied fun v => ?_
      have counted := (sim_counter y one blockY v here.second (exprs x (by simp))).frame
          [v]
      have answered : Carried P a fuel w u outer (base + ro.folded.length) (next + ro.slots) held
          (outlineCounted (outline x) y) (bodies x ++ bodiesBlock y) _ [v, v] _ fun v => [v] :=
        counted.map (f := fun _ => v) () (fun _ => rfl) fun _ _ _ => id
      rw [Comp.bind_assoc] at answered
      exact answered
    | _ => exact sim_fail
  | x :: y :: z :: args =>
    rw [emitInlined]
    · exact sim_fail
    all_goals simp

/-! ## The induction -/

/-- A block is no receiver of a cascade's segment. -/
theorem bare_operands {e : Expr} {rcvr : Option V} (block : blockArgc e ≠ none)
    (regular : e.regular rcvr.isSome = true) : rcvr.toList = [] := by
  cases e with
  | block =>
    obtain ⟨rfl, -⟩ : rcvr = none ∧ _ := by simpa only [Expr.regular, Bool.and_eq_true,
      Bool.not_eq_true', Option.isSome_eq_false_iff, Option.isNone_iff_eq_none] using regular
    rfl
  | selfRef | var | lit | assign | send | cascade | cascadeRcvr | dynArray | ret => exact absurd rfl block

/-- The array a brace expression fills. -/
theorem sim_newArray (behaviour : sc.behaviour = a.behaviour) (length : Nat) :
    Sim P a fuel next 0 [] [] (Corresponds w u held)
      (op (.pushLiteral .arrayClass) ++ (emitLiteral (.int length) ++ op (.send false "new:" 1)))
      [] (sc.send false "new:" (sc.behaviour.literal .arrayClass) [sc.behaviour.int length])
      (fun v => [v]) fun _ => Corresponds w u held := by
  refine Sim.opThen (plain_push (v := sc.behaviour.literal .arrayClass) (by simp) ?_) ?_
  · intro _ _
    rw [behaviour]
    rfl
  · have literal : Sim P a fuel next 0 [] [] (Corresponds w u held)
        (emitLiteral (.int length)) [] (pure (sc.behaviour.value (.int length)))
        (fun v => [v]) fun _ => Corresponds w u held := sim_literal behaviour _
    have size := literal.frame [sc.behaviour.literal .arrayClass]
    have new : ∀ v, Sim P a fuel (next + 0) 0 [] [] (Corresponds w u held)
        (op (.send false "new:" 1)) [v, sc.behaviour.literal .arrayClass]
        (sc.send false "new:" (sc.behaviour.literal .arrayClass) [v]) (fun v => [v])
        fun _ => Corresponds w u held := fun v =>
      sim_send behaviour stable_corresponds fun _ _ _ => rfl
    have both := size.bind a.self new
    rw [Comp.pure_bind] at both
    exact both

/-- One element of a brace expression is stored, and the array stays. -/
theorem sim_element (array : V) (behaviour : sc.behaviour = a.behaviour) (i : Nat)
    (element : Sim P a fuel next o.slots (o.units (CaptureInfo.frameTemps ⟨w.finish⟩) u outer base next)
      bs (Corresponds w u held) e [] A (fun v => [v]) fun _ => Corresponds w u held) :
    Sim P a fuel next o.slots (o.units (CaptureInfo.frameTemps ⟨w.finish⟩) u outer base next)
      bs (Corresponds w u held)
      (op .dup ++ (emitLiteral (.int (i + 1)) ++ (e ++ (op (.send false "at:put:" 2) ++ op .pop))))
      [array] (A >>= fun v => sc.send false "at:put:" array [sc.behaviour.int (i + 1), v])
      (fun _ => [array]) fun _ => Corresponds w u held := by
  obtain ⟨item, isItem, index⟩ := plain_literal (a := a) (R := Corresponds w u held)
    (p := [array, array]) (.int (i + 1))
  have stacked := Sim.opThen (plain_dup (p := []) (v := array))
    (Sim.opThen index (element.frame [a.behaviour.int (i + 1), array, array]))
  have put : ∀ v next, Sim P a fuel next 0 [] [] (Corresponds w u held)
      (op (.send false "at:put:" 2) ++ op .pop) [v, a.behaviour.int (i + 1), array, array]
      (sc.send false "at:put:" array [sc.behaviour.int (i + 1), v]) (fun _ => [array])
      fun _ => Corresponds w u held := by
    intro v next
    have send : Sim P a fuel next 0 [] [] (Corresponds w u held) (op (.send false "at:put:" 2))
        [v, sc.behaviour.int (i + 1), array]
        (sc.send false "at:put:" array [sc.behaviour.int (i + 1), v]) (fun v => [v])
        fun _ => Corresponds w u held :=
      sim_send behaviour stable_corresponds fun _ _ _ => rfl
    rw [← behaviour]
    exact (send.frame [array]).thenOp a.self fun v => plain_pop
  refine (Sim.onlyFirst (Sim.bind a.self stacked fun v => put v _)).of_eq ?_
  rw [isItem]
  simp only [Emit.append_assoc]

theorem regularAll_cons {segment : Bool} {e : Expr} {rest : List Expr} :
    regularAll segment (e :: rest) = true ↔ e.regular segment = true ∧ regularAll segment rest = true := by
  rw [regularAll, Bool.and_eq_true]

theorem regular_mem {segment : Bool} {args : List Expr} {x : Expr}
    (regular : regularAll segment args = true) (mem : x ∈ args) : x.regular segment = true := by
  induction args with
  | nil => cases mem
  | cons e args ih =>
    obtain ⟨first, rest⟩ := regularAll_cons.mp regular
    rcases List.mem_cons.mp mem with rfl | mem
    · exact first
    · exact ih rest mem

theorem regular_body {segment : Bool} {params temps : List String} {body : List Expr} {span : Span}
    {scopeId : Nat} (regular : (Expr.block params temps body span scopeId).regular segment = true) :
    regularAll false body = true := by
  rw [Expr.regular, Bool.and_eq_true] at regular
  exact regular.2

theorem body_lt {x : Expr} {params temps : List String} {body : List Expr} {span : Span}
    {scopeId : Nat} (is : x = .block params temps body span scopeId) : sizeOf body < sizeOf x := by
  rw [is, Expr.block.sizeOf_spec]
  omega

variable (each : ∀ unit l stmts,
  UnitCarries V W ⟨w.finish⟩ h classSide topLevel unit l stmts → P unit l stmts)

include each

mutual

theorem sim_expr (e : Expr) : ∀ (rcvr : Option V), e.regular rcvr.isSome = true →
    ∀ {u outer base next n site a} {sc : Scene V W} {fuel held},
    Here w cx h classSide ownAt u outer base next n (outline e) site a sc fuel held →
    Carried P a fuel w u outer base next held (outline e) (bodies e) (emitExpr cx site e) rcvr.toList
      (evalExpr sc rcvr e) fun v => [v] := by
  match e with
  | .selfRef _ =>
    intro rcvr regular u _ _ _ n _ a _ _ _ here
    obtain rfl : rcvr = none := by simpa [Expr.regular] using regular
    rw [outline, bodies, emitExpr, evalExpr, here.standing.self]
    exact Plain.sim (plain_push (by simp) fun _ _ => rfl)
  | .cascadeRcvr _ =>
    intro rcvr regular u _ _ _ n _ a _ _ _ here
    obtain ⟨v, rfl⟩ : ∃ v, rcvr = some v := by
      simpa [Expr.regular, Option.isSome_iff_exists] using regular
    rw [outline, bodies, emitExpr, evalExpr]
    exact sim_skip (q := fun v => [v]) fun _ _ => id
  | .lit l _ =>
    intro rcvr regular u _ _ _ n _ a _ _ _ here
    obtain rfl : rcvr = none := by simpa [Expr.regular] using regular
    rw [outline, bodies, emitExpr, evalExpr]
    exact sim_literal here.standing.behaviour l
  | .var name span =>
    intro rcvr regular u _ _ _ n _ a _ _ _ here
    obtain rfl : rcvr = none := by simpa [Expr.regular] using regular
    rw [outline] at here
    rw [outline, bodies, emitExpr, evalExpr]
    exact sim_load here.standing here.sound here.follows
  | .assign name value span =>
    intro rcvr regular u _ _ _ n _ a _ _ _ here
    obtain ⟨rfl, regular⟩ : rcvr = none ∧ value.regular false = true := by
      simpa [Expr.regular] using regular
    rw [outline] at here
    rw [outline, bodies, emitExpr, evalExpr]
    exact sim_assign here (sim_expr value none regular here.first)
  | .send receiver selector args isSuper _ =>
    intro rcvr regular u _ base next n _ a _ _ held here
    obtain ⟨⟨regularR, few⟩, regularA⟩ : (receiver.regular rcvr.isSome = true ∧ args.length < 256) ∧
        regularAll false args = true := by
      simpa [Expr.regular] using regular
    rw [outline] at here
    rw [outline, bodies, emitExpr, evalExpr]
    cases shape : sendShape isSuper selector receiver args with
    | some s =>
      rw [shape] at here
      exact sim_inlined s args
        (fun _ _ _ _ => sim_expr receiver rcvr regularR)
        (fun base next n held => sim_dissolvedBody receiver fun params temps body span scopeId is =>
          have := body_lt is
          fun _ _ _ _ _ _ _ _ _ _ => sim_body body (regular_body (is ▸ regularR)))
        (fun x mem base next n held =>
          have := List.sizeOf_lt_of_mem mem
          sim_expr x none (regular_mem regularA mem))
        (fun x mem params temps body span scopeId is _ _ _ _ _ _ _ _ _ _ =>
          have := List.sizeOf_lt_of_mem mem
          have := body_lt is
          sim_body body (regular_body (is ▸ regular_mem regularA mem)))
        (sendShape_fits shape) (fun block => bare_operands block regularR) here
    | none =>
      rw [shape] at here
      refine Sim.of_eq (Sim.bind a.self (sim_expr receiver rcvr regularR here.first) fun r => ?_)
        (Emit.append_assoc _ _ _)
      have operands := (sim_args args regularA here.second).frame [r]
      refine Sim.onlyFirst (operands.bind [] fun vs => ?_)
      refine (sim_send here.standing.behaviour stable_counted fun s slots related => ?_).imp
        (fun _ _ => id) fun _ _ _ => And.right
      rw [here.standing.for_.small _ few, related.1]
  | .cascade receiver segments _ =>
    intro rcvr regular u _ _ _ n _ a _ _ _ here
    obtain ⟨⟨rfl, regularR⟩, regularS⟩ : (rcvr = none ∧ receiver.regular false = true) ∧
        regularAll true segments = true := by
      simpa [Expr.regular] using regular
    rw [outline] at here
    rw [outline, bodies, emitExpr, evalExpr]
    exact Sim.bind a.self (sim_expr receiver none regularR here.first) fun r =>
      sim_segments segments r regularS here.second
  | .dynArray elems _ =>
    intro rcvr regular u _ _ _ n _ a _ _ _ here
    obtain ⟨rfl, regular⟩ : rcvr = none ∧ regularAll false elems = true := by
      simpa [Expr.regular] using regular
    rw [outline] at here
    rw [outline, bodies, emitExpr, evalExpr]
    refine Sim.of_eq (Sim.onlySecond ((sim_newArray here.standing.behaviour elems.length).bind a.self
      fun array => sim_elems 0 elems array regular here)) ?_
    simp only [Emit.append_assoc]
  | .block params temps body span scopeId =>
    intro rcvr regular u _ _ _ n _ a sc fuel _ here
    obtain ⟨rfl, regular⟩ : rcvr = none ∧ regularAll false body = true := by
      simpa [Expr.regular] using regular
    rw [outline] at here
    rw [outline, bodies, emitExpr, evalExpr]
    refine sim_real each here fun a sc fuel here => ?_
    exact sim_statements body regular here (block_ends here.inBlock.symm) fun _ => block_empty here.standing.behaviour
  | .ret _ _ =>
    intros
    rw [emitExpr]
    exact sim_fail
termination_by (sizeOf e, 0)
decreasing_by
  all_goals
    simp only [Prod.lex_def, Expr.assign.sizeOf_spec, Expr.send.sizeOf_spec, Expr.cascade.sizeOf_spec,
      Expr.dynArray.sizeOf_spec, Expr.block.sizeOf_spec]
    omega

theorem sim_args (args : List Expr) : regularAll false args = true →
    ∀ {u outer base next n site a} {sc : Scene V W} {fuel held},
    Here w cx h classSide ownAt u outer base next n (outlineAll args) site a sc fuel held →
    Sim P a fuel next (outlineAll args).slots
      ((outlineAll args).units (CaptureInfo.frameTemps ⟨w.finish⟩) u outer base next) (bodiesAll args)
      (Corresponds w u held) (emitArgs cx site args) [] (evalArgs sc args) (fun vs => vs.reverse)
      fun vs s slots => vs.length = args.length ∧ Corresponds w u held s slots := by
  match args with
  | [] =>
    intros
    rw [outlineAll, bodiesAll, emitArgs, evalArgs]
    refine sim_skip (x := ([] : List V)) (q := fun vs => vs.reverse) fun _ _ related => ?_
    exact ⟨rfl, related⟩
  | e :: args =>
    intro regular u _ _ _ n _ a _ _ _ here
    obtain ⟨regularE, regular⟩ := regularAll_cons.mp regular
    rw [outlineAll] at here
    rw [outlineAll, bodiesAll, emitArgs, evalArgs]
    refine Sim.bind a.self (sim_expr e none regularE here.first)
      fun v => ?_
    have rest := (sim_args args regular here.second).frame [v]
    exact rest.map [] (fun vs => by simp) fun vs s slots related => by simpa using related
termination_by (sizeOf args, 0)
decreasing_by all_goals (simp only [Prod.lex_def, List.cons.sizeOf_spec]; omega)

theorem sim_segments (segments : List Expr) : ∀ (r : V), regularAll true segments = true →
    ∀ {u outer base next n site a} {sc : Scene V W} {fuel held},
    Here w cx h classSide ownAt u outer base next n (outlineAll segments) site a sc fuel held →
    Carried P a fuel w u outer base next held (outlineAll segments) (bodiesAll segments)
      (emitSegments cx site segments) [r] (evalSegments sc r segments) fun v => [v] := by
  match segments with
  | [] =>
    intros
    rw [outlineAll, bodiesAll, emitSegments, evalSegments]
    exact sim_skip (q := fun v => [v]) fun _ _ => id
  | [seg] =>
    intro r regular u _ _ _ n _ a _ _ _ here
    have regular : seg.regular true = true := by simpa [regularAll] using regular
    rw [outlineAll] at here
    rw [outlineAll, outlineAll, bodiesAll, bodiesAll, emitSegments, evalSegments]
    exact Sim.last (sim_expr seg (some r) regular here.first)
  | seg :: next' :: segments =>
    intro r regular u _ _ _ n _ a _ _ held here
    obtain ⟨regularS, regular⟩ := regularAll_cons.mp regular
    rw [outlineAll] at here
    rw [outlineAll, bodiesAll, emitSegments, evalSegments]
    · have first := Sim.opThen (R := Corresponds w u held) (plain_dup (v := r))
        ((sim_expr seg (some r) regularS here.first).frame [r])
      have dropped := first.thenOp a.self fun v => plain_pop
      exact Sim.bind a.self dropped fun _ =>
        sim_segments (next' :: segments) r regular here.second
    · simp
    · simp
termination_by (sizeOf segments, 0)
decreasing_by all_goals (simp only [Prod.lex_def, List.cons.sizeOf_spec]; omega)

theorem sim_elems (i : Nat) (elems : List Expr) : ∀ (array : V), regularAll false elems = true →
    ∀ {u outer base next n site a} {sc : Scene V W} {fuel held},
    Here w cx h classSide ownAt u outer base next n (outlineAll elems) site a sc fuel held →
    Carried P a fuel w u outer base next held (outlineAll elems) (bodiesAll elems)
      (emitElems cx site i elems) [array] (evalElems sc array i elems) fun v => [v] := by
  match elems with
  | [] =>
    intros
    rw [outlineAll, bodiesAll, emitElems, evalElems]
    exact sim_skip (q := fun v => [v]) fun _ _ => id
  | el :: elems =>
    intro array regular u _ _ _ n _ a _ _ _ here
    obtain ⟨regularE, regular⟩ := regularAll_cons.mp regular
    rw [outlineAll] at here
    rw [outlineAll, bodiesAll, emitElems, evalElems]
    have stored := sim_element array here.standing.behaviour i
      (sim_expr el none regularE here.first)
    have both := stored.bind a.self fun _ =>
      sim_elems (i + 1) elems array regular here.second
    rw [Comp.bind_assoc] at both
    refine both.of_eq ?_
    simp only [Emit.append_assoc]
termination_by (sizeOf elems, 0)
decreasing_by all_goals (simp only [Prod.lex_def, List.cons.sizeOf_spec]; omega)

theorem sim_operand (e : Expr) : e.regular false = true →
    ∀ {u outer base next n site a} {sc : Scene V W} {fuel held},
    Here w cx h classSide ownAt u outer base next n (outline e) site a sc fuel held →
    Carried P a fuel w u outer base next held (operandOutline e) (operandBodies e)
      (emitOperand cx site e) [] (evalOperand sc e) fun v => [v] := by
  match e with
  | .ret value _ =>
    intro regular u _ _ _ n _ a _ _ _ here
    rw [outline] at here
    rw [operandOutline, operandBodies, emitOperand, evalOperand]
    exact sim_expr value none (by simpa [Expr.regular] using regular) here
  | .assign _ value _ =>
    intro regular u _ _ _ n _ a _ _ _ here
    rw [outline] at here
    rw [operandOutline, operandBodies, emitOperand, evalOperand]
    exact sim_expr value none (by simpa [Expr.regular] using regular) here.first
  | .selfRef _ | .cascadeRcvr _ | .lit _ _ | .var _ _ | .send _ _ _ _ _
  | .cascade _ _ _ | .dynArray _ _ | .block _ _ _ _ _ =>
    intros
    exact sim_wrong
termination_by (sizeOf e, 0)
decreasing_by all_goals (simp only [Prod.lex_def, Expr.assign.sizeOf_spec, Expr.ret.sizeOf_spec]; omega)

theorem sim_body (body : List Expr) : regularAll false body = true →
    ∀ {u outer base next n site a} {sc : Scene V W} {fuel held},
    Here w cx h classSide ownAt u outer base next n (outlineAll body) site a sc fuel held →
    Carried P a fuel w u outer base next held (outlineAll body) (bodiesAll body)
      (emitStatements cx site (Ending.dissolved site.inBlock) body) [] (evalStatements sc body)
      fun v => [v] := by
  intro regular u outer base next n site a sc fuel held here
  have statements := sim_statements body regular here (dissolved_ends here.inBlock) fun _ =>
    dissolved_empty here.standing.behaviour _
  rwa [Comp.bind_pure] at statements
termination_by (sizeOf body, 1)
decreasing_by exact Prod.Lex.right _ Nat.zero_lt_one

theorem sim_statements {β : Type} (stmts : List Expr) : regularAll false stmts = true →
    ∀ {u outer base next n site a} {sc : Scene V W} {fuel held},
    Here w cx h classSide ownAt u outer base next n (outlineAll stmts) site a sc fuel held →
    ∀ {ending : Ending} {k : V → Act V W β} {q : β → List V} {R' : β → Rel V W},
    ending.Ends P a fuel sc (Corresponds w u held) k q R' →
    (stmts = [] → Sim P a fuel next 0 [] [] (Corresponds w u held) ending.empty []
      (k sc.behaviour.nilObj) q R') →
    Sim P a fuel next (outlineAll stmts).slots
      ((outlineAll stmts).units (CaptureInfo.frameTemps ⟨w.finish⟩) u outer base next)
      (bodiesAll stmts) (Corresponds w u held) (emitStatements cx site ending stmts) []
      (evalStatements sc stmts >>= k) q R' := by
  match stmts with
  | [] =>
    intro regular u _ _ _ n _ a _ _ _ here ending k q R' ends empty
    rw [outlineAll, bodiesAll, emitStatements, evalStatements, Comp.pure_bind]
    exact empty rfl
  | [last] =>
    intro regular u _ _ _ n _ a _ _ _ here ending k q R' ends empty
    have regular : last.regular false = true := by simpa [regularAll] using regular
    rw [outlineAll] at here
    rw [outlineAll, outlineAll, bodiesAll, bodiesAll, emitStatements, evalStatements]
    exact Sim.last (sim_lastStatement here.first (sim_operand last regular here.first)
      (sim_expr last none regular here.first) ends)
  | stmt :: next' :: stmts =>
    intro regular u _ _ _ n _ a _ _ _ here ending k q R' ends empty
    obtain ⟨regularS, regular⟩ := regularAll_cons.mp regular
    rw [outlineAll] at here
    rw [outlineAll, bodiesAll, emitStatements, evalStatements, Comp.bind_assoc, ends.inBlock]
    · exact Sim.bind a.self (sim_statementDiscard here.first
        (sim_operand stmt regularS here.first) (sim_expr stmt none regularS here.first)) fun _ =>
        sim_statements (next' :: stmts) regular here.second ends fun no => by cases no
    · simp
    · simp
termination_by (sizeOf stmts, 0)
decreasing_by all_goals (simp only [Prod.lex_def, List.cons.sizeOf_spec]; omega)

end

end

end WinVm.Frontend
