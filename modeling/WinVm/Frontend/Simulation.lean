import WinVm.Frontend.ScopingEmission
import WinVm.Frontend.Semantics

/-!
# Emitted code carries out the source computation

`Sim` says of a piece of emission that its code, wherever it stands in a unit, carries out
a source computation: from operands on the stack to a value's operands, with everything
below them untouched. There is a rule for each way the pieces are put together; a branch
and a loop are the two that jump.

Results: `Sim.bind`, `sim_branch`, `sim_loop`, `sim_repeat`.
-/

namespace WinVm.Frontend

open Emit Lib

variable {V W : Type}

/-! ## Matching lists -/

theorem Matched.append {α β γ : Type} {r : α → β → γ → Prop} {as as' : List α} {bs bs' : List β}
    {cs cs' : List γ} (first : Matched r as bs cs) (second : Matched r as' bs' cs') :
    Matched r (as ++ as') (bs ++ bs') (cs ++ cs') := by
  induction as generalizing bs cs with
  | nil =>
    match bs, cs, first with
    | [], [], _ => exact second
  | cons a as ih =>
    match bs, cs, first with
    | b :: bs, c :: cs, first => exact ⟨first.1, ih first.2⟩

/-! ## Labels -/

theorem findIdx_label {l : Nat} {before after : List Item} (unbound : Item.bind l ∉ before) :
    labelPos (before ++ .bind l :: after) l = before.length := by
  unfold labelPos
  induction before with
  | nil => simp [List.findIdx_cons, Item.binds]
  | cons i before ih =>
    rw [List.mem_cons, not_or] at unbound
    have other : Item.binds l i = false := by
      cases i with
      | bind l' =>
        rw [Item.binds, beq_eq_false_iff_ne]
        rintro rfl
        exact unbound.1 rfl
      | _ => rfl
    rw [List.cons_append, List.findIdx_cons, other]
    simp [ih unbound.2]

theorem length_snoc {α : Type} (xs : List α) (x : α) : (xs ++ [x]).length = xs.length + 1 := by
  simp

theorem labelPos_eq {l : Nat} {code before after : List Item}
    (is : code = before ++ [.bind l] ++ after) (unbound : Item.bind l ∉ before) :
    labelPos code l = before.length := by
  rw [is, List.append_assoc]
  exact findIdx_label unbound

/-! ## Simulation -/

/-- How the source state and the frame's slots correspond. -/
abbrev Rel (V W : Type) : Type := State V W → (Nat → V) → Prop

/-- What emission does to the generator: labels are fresh, `n` slots are taken, and the
units finished are as `P` asks. -/
structure Emitted (P : CodeUnit → LexUnit → List Expr → Prop) (n : Nat) (lex : List LexUnit)
    (stmts : List (List Expr)) (g g' : Gen) (xs : List Item) : Prop where
  labels : g.labels ≤ g'.labels
  binds : ∀ l, Item.bind l ∈ xs → g.labels ≤ l ∧ l < g'.labels
  slots : g'.nextHoistSlot = g.nextHoistSlot + n
  units : ∃ us, g'.units = g.units ++ us ∧ Matched P us lex stmts

variable [DecidableEq V]

/-- From the operands `p`, the code `xs` between `pre` and what follows carries out the
computation, and leaves the operands `q` of its value. -/
def Follows {α : Type} (a : Activated V W) (fuel : Nat) (g : Gen) (xs : List Item) (R : Rel V W)
    (p : List V) (A : Act V W α) (q : α → List V) (R' : α → Rel V W) : Prop :=
  ∀ code pre post, code = pre ++ xs ++ post → (∀ l, Item.bind l ∈ pre → l < g.labels) →
    ∀ s slots rest, R s slots →
      Carries (a.machine code) fuel ⟨pre.length, p ++ rest, slots, s.world⟩ (A s)
        fun v s' f => f.pc = pre.length + xs.length ∧ f.stack = q v ++ rest ∧
          f.world = s'.world ∧ R' v s' f.slots

/-- Emission whose first slot is `next`. -/
def Sim {α : Type} (P : CodeUnit → LexUnit → List Expr → Prop) (a : Activated V W) (fuel next n : Nat)
    (lex : List LexUnit) (stmts : List (List Expr)) (R : Rel V W) (e : Emit) (p : List V)
    (A : Act V W α) (q : α → List V) (R' : α → Rel V W) : Prop :=
  ∀ g xs g', g.nextHoistSlot = next → e g = .ok (xs, g') →
    Emitted P n lex stmts g g' xs ∧ Follows a fuel g xs R p A q R'

section

variable {α β : Type} {P : CodeUnit → LexUnit → List Expr → Prop} {a : Activated V W}
  {fuel next n n' : Nat} {lex lex' : List LexUnit} {stmts stmts' : List (List Expr)}
  {R : Rel V W} {p : List V} {e e' : Emit}

theorem emitted_nil {g : Gen} {xs : List Item} (plain : ∀ l, Item.bind l ∉ xs) :
    Emitted P 0 [] [] g g xs :=
  ⟨Nat.le_refl _, fun l mem => absurd mem (plain l), rfl, [], by simp, trivial⟩

theorem Emitted.append {g mid g' : Gen} {xs ys : List Item} (first : Emitted P n lex stmts g mid xs)
    (second : Emitted P n' lex' stmts' mid g' ys) :
    Emitted P (n + n') (lex ++ lex') (stmts ++ stmts') g g' (xs ++ ys) where
  labels := Nat.le_trans first.labels second.labels
  binds l mem := by
    rcases List.mem_append.mp mem with mem | mem
    · have := first.binds l mem
      exact ⟨this.1, Nat.lt_of_lt_of_le this.2 second.labels⟩
    · have := second.binds l mem
      exact ⟨Nat.le_trans first.labels this.1, this.2⟩
  slots := by rw [second.slots, first.slots, Nat.add_assoc]
  units := by
    obtain ⟨us, units, matched⟩ := first.units
    obtain ⟨us', units', matched'⟩ := second.units
    exact ⟨us ++ us', by rw [units', units, List.append_assoc], matched.append matched'⟩

theorem Sim.bind {A : Act V W α} {q : α → List V} {R' : α → Rel V W} {f : α → Act V W β}
    {r : β → List V} {R'' : β → Rel V W} (some : α)
    (first : Sim P a fuel next n lex stmts R e p A q R')
    (second : ∀ v, Sim P a fuel (next + n) n' lex' stmts' (R' v) e' (q v) (f v) r R'') :
    Sim P a fuel next (n + n') (lex ++ lex') (stmts ++ stmts') R (e ++ e') p (A >>= f) r R'' := by
  rintro g zs g' start ok
  obtain ⟨xs, ys, mid, okE, okE', rfl⟩ := Emit.append_ok ok
  obtain ⟨emitted, follows⟩ := first g xs mid start okE
  have start' : mid.nextHoistSlot = next + n := by rw [emitted.slots, start]
  refine ⟨emitted.append (second some mid ys g' start' okE').1, ?_⟩
  intro code pre post is fresh s slots rest related
  have isFirst : code = pre ++ xs ++ (ys ++ post) := by simp [is]
  refine Carries.bind (follows code pre _ isFirst fresh s slots rest related) ?_
  rintro v s' ⟨pc, stack, slots', world⟩ ⟨atEnd, onStack, inWorld, related'⟩
  dsimp only at atEnd onStack inWorld related'
  subst atEnd onStack inWorld
  have isSecond : code = (pre ++ xs) ++ ys ++ post := by simp [is]
  have fresh' : ∀ l, Item.bind l ∈ pre ++ xs → l < mid.labels := by
    intro l mem
    rcases List.mem_append.mp mem with mem | mem
    · exact Nat.lt_of_lt_of_le (fresh l mem) emitted.labels
    · exact (emitted.binds l mem).2
  have runs := (second v mid ys g' start' okE').2 code _ post isSecond fresh' s' slots' rest related'
  rw [List.length_append] at runs
  refine runs.imp fun b s'' f here => ?_
  rw [List.length_append, ← Nat.add_assoc]
  exact here

theorem Sim.imp {A : Act V W α} {q : α → List V} {R₀ : Rel V W} {R' R'' : α → Rel V W}
    (sim : Sim P a fuel next n lex stmts R e p A q R') (before : ∀ s slots, R₀ s slots → R s slots)
    (after : ∀ v s slots, R' v s slots → R'' v s slots) :
    Sim P a fuel next n lex stmts R₀ e p A q R'' := by
  intro g xs g' start ok
  obtain ⟨emitted, follows⟩ := sim g xs g' start ok
  refine ⟨emitted, fun code pre post is fresh s slots rest related => ?_⟩
  exact (follows code pre post is fresh s slots rest (before s slots related)).imp
    fun v s' f here => ⟨here.1, here.2.1, here.2.2.1, after v s' f.slots here.2.2.2⟩

theorem sim_skip {x : α} {q : α → List V} {R' : α → Rel V W}
    (imp : ∀ s slots, R s slots → R' x s slots) :
    Sim P a fuel next 0 [] [] R skip (q x) (pure x) q R' := by
  rintro g xs g' - ok
  cases ok
  refine ⟨emitted_nil (by simp), fun code pre post is fresh s slots rest related => ?_⟩
  exact Carries.pure ⟨rfl, rfl, rfl, imp s slots related⟩

theorem sim_fail {A : Act V W α} {q : α → List V} {R' : α → Rel V W} {f : Fault} :
    Sim P a fuel next n lex stmts R (fail f) p A q R' := by
  rintro g xs g' - ok
  cases ok

/-- Emission has no other code. -/
theorem Sim.of_eq {A : Act V W α} {q : α → List V} {R' : α → Rel V W}
    (sim : Sim P a fuel next n lex stmts R e p A q R') (same : e' = e) :
    Sim P a fuel next n lex stmts R e' p A q R' :=
  same ▸ sim

theorem Sim.cast {next' m : Nat} {A : Act V W α} {q : α → List V} {R' : α → Rel V W}
    (sim : Sim P a fuel next n lex stmts R e p A q R') (start : next = next') (slots : n = m) :
    Sim P a fuel next' m lex stmts R e p A q R' := by
  subst start slots
  exact sim

theorem Sim.bodies {stmts' : List (List Expr)} {A : Act V W α} {q : α → List V} {R' : α → Rel V W}
    (sim : Sim P a fuel next n lex stmts R e p A q R') (same : stmts = stmts') :
    Sim P a fuel next n lex stmts' R e p A q R' :=
  same ▸ sim

theorem Emit.skip_append (e : Emit) : skip ++ e = e := by
  funext g
  change Emit.append skip e g = e g
  unfold Emit.append skip
  dsimp only
  cases e g with
  | error f => rfl
  | ok out => rfl

theorem Emit.append_skip (e : Emit) : e ++ skip = e := by
  funext g
  change Emit.append e skip g = e g
  unfold Emit.append skip
  cases e g with
  | error f => rfl
  | ok out => simp

/-- A second part that takes no slot and finishes no unit. -/
theorem Sim.onlyFirst {A : Act V W α} {q : α → List V} {R' : α → Rel V W}
    (sim : Sim P a fuel next (n + 0) (lex ++ []) (stmts ++ []) R e p A q R') :
    Sim P a fuel next n lex stmts R e p A q R' := by
  rwa [Nat.add_zero, List.append_nil, List.append_nil] at sim

/-- The last of a sequence. -/
theorem Sim.last {A : Act V W α} {q : α → List V} {R' : α → Rel V W}
    (sim : Sim P a fuel next n lex stmts R e p A q R') :
    Sim P a fuel next (n + 0) (lex ++ []) (stmts ++ []) R e p A q R' := by
  rwa [Nat.add_zero, List.append_nil, List.append_nil]

theorem Sim.onlySecond {A : Act V W α} {q : α → List V} {R' : α → Rel V W}
    (sim : Sim P a fuel next (0 + n) ([] ++ lex) ([] ++ stmts) R e p A q R') :
    Sim P a fuel next n lex stmts R e p A q R' := by
  rwa [Nat.zero_add] at sim

theorem Sim.map {A : Act V W α} {q : α → List V} {R' : α → Rel V W} {f : α → β} {r : β → List V}
    {R'' : β → Rel V W} (some : α) (sim : Sim P a fuel next n lex stmts R e p A q R')
    (operands : ∀ v, r (f v) = q v) (imp : ∀ v s slots, R' v s slots → R'' (f v) s slots) :
    Sim P a fuel next n lex stmts R e p (A >>= fun v => pure (f v)) r R'' := by
  have both : Sim P a fuel next (n + 0) (lex ++ []) (stmts ++ []) R (e ++ skip) p
      (A >>= fun v => pure (f v)) r R'' :=
    sim.bind some fun v => operands v ▸ sim_skip (imp v)
  exact both.onlyFirst.of_eq (Emit.append_skip e).symm

/-- Operands below those of a computation stay where they are. -/
theorem Sim.frame {A : Act V W α} {q : α → List V} {R' : α → Rel V W}
    (sim : Sim P a fuel next n lex stmts R e p A q R') (below : List V) :
    Sim P a fuel next n lex stmts R e (p ++ below) A (fun v => q v ++ below) R' := by
  intro g xs g' start ok
  obtain ⟨emitted, follows⟩ := sim g xs g' start ok
  refine ⟨emitted, fun code pre post is fresh s slots rest related => ?_⟩
  have runs := follows code pre post is fresh s slots (below ++ rest) related
  simp only [← List.append_assoc] at runs
  exact runs

theorem sim_wrong {q : α → List V} {R' : α → Rel V W} :
    Sim P a fuel next 0 [] [] R skip p (Comp.wrong : Act V W α) q R' := by
  rintro g xs g' - ok
  cases ok
  exact ⟨emitted_nil (by simp), fun _ _ _ _ _ _ _ _ _ => carries_wrong⟩

/-! ## Single instructions -/

theorem step_at {code pre post : List Item} {i : Item} (is : code = pre ++ [i] ++ post)
    (stack : List V) (slots : Nat → V) (w : W) :
    (a.machine code).step ⟨pre.length, stack, slots, w⟩ =
      a.exec code ⟨pre.length, stack, slots, w⟩ i := by
  have found : code[pre.length]? = some i := by simp [is]
  simp [Activated.machine, found]

/-- An instruction that only moves operands and slots. -/
structure Plain (a : Activated V W) (R : Rel V W) (p : List V) (i : Item) (q : List V)
    (R' : Rel V W) : Prop where
  unbound : ∀ l, i ≠ .bind l
  exec : ∀ code s pc slots rest, R s slots → ∃ slots',
    a.exec code ⟨pc, p ++ rest, slots, s.world⟩ i = ([], .at ⟨pc + 1, q ++ rest, slots', s.world⟩) ∧
      R' s slots'

theorem Plain.sim {i : Item} {x : α} {q : α → List V} {R' : α → Rel V W}
    (plain : Plain a R p i (q x) (R' x)) :
    Sim P a fuel next 0 [] [] R (op i) p (pure x) q R' := by
  rintro g xs g' - ok
  cases ok
  refine ⟨emitted_nil fun l => ?_, fun code pre post is fresh s slots rest related => ?_⟩
  · rw [List.mem_singleton]
    exact fun same => plain.unbound l same.symm
  · obtain ⟨slots', one, related'⟩ := plain.exec code s pre.length slots rest related
    exact Carries.step ((step_at is _ _ _).trans one) (Carries.pure ⟨rfl, rfl, rfl, related'⟩)

theorem Sim.opThen {i : Item} {A : Act V W α} {p' : List V} {R₁ : Rel V W} {q : α → List V}
    {R' : α → Rel V W} (plain : Plain a R p i p' R₁)
    (sim : Sim P a fuel next n lex stmts R₁ e p' A q R') :
    Sim P a fuel next n lex stmts R (op i ++ e) p A q R' := by
  have first : Sim P a fuel next 0 [] [] R (op i) p (pure ()) (fun _ => p') fun _ => R₁ := plain.sim
  have both : Sim P a fuel next (0 + n) ([] ++ lex) ([] ++ stmts) R (op i ++ e) p
      (pure () >>= fun _ => A) q R' := first.bind () fun _ => sim
  rwa [Comp.pure_bind, Nat.zero_add, List.nil_append, List.nil_append] at both

theorem Sim.thenOp {i : Item} {A : Act V W α} {q r : α → List V} {R' R'' : α → Rel V W} (some : α)
    (sim : Sim P a fuel next n lex stmts R e p A q R')
    (plain : ∀ v, Plain a (R' v) (q v) i (r v) (R'' v)) :
    Sim P a fuel next n lex stmts R (e ++ op i) p A r R'' := by
  have both : Sim P a fuel next (n + 0) (lex ++ []) (stmts ++ []) R (e ++ op i) p (A >>= pure) r R'' :=
    sim.bind some fun v => (plain v).sim
  rwa [Comp.bind_pure, Nat.add_zero, List.append_nil, List.append_nil] at both

theorem plain_push {i : Item} {v : V} (unbound : ∀ l, i ≠ .bind l)
    (push : ∀ code f, a.exec code f i = ([], .at (f.push v))) : Plain a R p i (v :: p) R where
  unbound := unbound
  exec code s pc slots rest related := ⟨slots, by rw [push]; rfl, related⟩

theorem plain_noteLine (line : BitVec 32) : Plain a R p (.noteLine line) p R where
  unbound := by simp
  exec code s pc slots rest related := ⟨slots, rfl, related⟩

theorem plain_pop {v : V} : Plain a R (v :: p) .pop p R where
  unbound := by simp
  exec code s pc slots rest related := ⟨slots, rfl, related⟩

theorem plain_dup {v : V} : Plain a R (v :: p) .dup (v :: v :: p) R where
  unbound := by simp
  exec code s pc slots rest related := ⟨slots, rfl, related⟩

theorem plain_pushTemp {slot : Nat} {v : V} (holds : ∀ s slots, R s slots → slots slot = v) :
    Plain a R p (.pushTemp slot) (v :: p) R where
  unbound := by simp
  exec code s pc slots rest related := ⟨slots, by
    rw [← holds s slots related]
    rfl, related⟩

theorem plain_storeTempPop {slot : Nat} {v : V} {R' : Rel V W}
    (keeps : ∀ s slots, R s slots → R' s (Function.update slots slot v)) :
    Plain a R (v :: p) (.storeTempPop slot) p R' where
  unbound := by simp
  exec code s pc slots rest related := ⟨_, rfl, keeps s slots related⟩

theorem plain_literal (l : Literal) :
    ∃ i, emitLiteral l = op i ∧ Plain a R p i (a.behaviour.value l :: p) R := by
  cases l with
  | int v =>
    rw [emitLiteral]
    split
    · exact ⟨.pushSmiI8 v, rfl, plain_push (by simp) fun _ _ => rfl⟩
    · exact ⟨.pushLiteral (.value (.int v)), rfl, plain_push (by simp) fun _ _ => rfl⟩
  | nil => exact ⟨.pushNil, rfl, plain_push (by simp) fun _ _ => rfl⟩
  | true => exact ⟨.pushTrue, rfl, plain_push (by simp) fun _ _ => rfl⟩
  | false => exact ⟨.pushFalse, rfl, plain_push (by simp) fun _ _ => rfl⟩
  | bigInt | float | char | str | symbol | array | byteArray =>
    exact ⟨.pushLiteral (.value _), rfl, plain_push (by simp) fun _ _ => rfl⟩

/-! ## Sends, closures and returns -/

/-- The relation does not look at the world. -/
def Stable (R : Rel V W) : Prop :=
  ∀ s w slots, R s slots → R { s with world := w } slots

theorem sim_send {sc : Scene V W} (behaviour : sc.behaviour = a.behaviour) (stable : Stable R)
    {isSuper : Bool} {selector : String} {receiver : V} {args : List V} {argc : Nat}
    (count : ∀ s slots, R s slots → argc = args.length) :
    Sim P a fuel next 0 [] [] R (op (.send isSuper selector argc)) (args.reverse ++ [receiver])
      (sc.send isSuper selector receiver args) (fun v => [v]) fun _ => R := by
  rintro g xs g' - ok
  cases ok
  refine ⟨emitted_nil (by simp), fun code pre post is fresh s slots rest related clear => ?_⟩
  have count := count s slots related
  have step := step_at (a := a) is (args.reverse ++ [receiver] ++ rest) slots s.world
  have dropped : (args.reverse ++ [receiver] ++ rest).drop argc = receiver :: rest := by
    simp [count]
  have taken : ((args.reverse ++ [receiver] ++ rest).take argc).reverse = args := by
    simp [count]
  rw [Activated.exec] at step
  simp only [dropped, taken] at step
  change Performs _ _ _ (Comp.bind (Comp.emit _) _ s) _
  simp only [Comp.bind, Comp.emit, bind, Comp.get]
  rw [behaviour]
  cases answer : a.behaviour.send isSuper selector receiver args s.world with
  | some out =>
    rw [answer] at step
    refine ⟨1, _, Machine.run_one step, ?_⟩
    exact ⟨rfl, rfl, rfl, stable s out.2 slots related⟩
  | none =>
    rw [answer] at step
    exact ⟨1, Machine.run_one_halt step⟩

theorem sim_closure {sc : Scene V W} (behaviour : sc.behaviour = a.behaviour) (stable : Stable R)
    {scopeId : Nat} : ∀ g xs g', op (.pushClosure scopeId) g = .ok (xs, g') →
      Follows a fuel g xs R p (sc.closure scopeId) (fun v => v :: p) fun _ => R := by
  rintro g xs g' ok
  cases ok
  intro code pre post is fresh s slots rest related clear
  have step := step_at (a := a) is (p ++ rest) slots s.world
  rw [Activated.exec] at step
  simp only [Scene.closure, bind, Comp.bind, Comp.get, Comp.emit, Comp.modify, pure, Comp.pure]
  rw [behaviour]
  refine ⟨1, _, Machine.run_one step, ?_⟩
  exact ⟨rfl, rfl, rfl, stable s _ slots related⟩

/-- An instruction that ends the activation. -/
theorem sim_halt {i : Item} {h : State V W → Outcome V W} {q : α → List V} {R' : α → Rel V W}
    (unbound : ∀ l, i ≠ .bind l)
    (exec : ∀ code s pc slots rest,
      a.exec code ⟨pc, p ++ rest, slots, s.world⟩ i = ([], .halt (h s))) :
    Sim P a fuel next 0 [] [] R (op i) p (Comp.halt h) q R' := by
  rintro g xs g' - ok
  cases ok
  refine ⟨emitted_nil fun l => ?_, fun code pre post is fresh s slots rest related clear => ?_⟩
  · rw [List.mem_singleton]
    exact fun same => unbound l same.symm
  · exact ⟨1, Machine.run_one_halt ((step_at is _ _ _).trans (exec code s _ slots rest))⟩

/-- What follows a return does not run. -/
theorem sim_explicitReturn {sc : Scene V W} {v : V} {k : V → Act V W α} {q : α → List V}
    {R' : α → Rel V W} :
    Sim P a fuel next 0 [] [] R (explicitReturn sc.inBlock) (v :: p) (sc.explicitReturn v >>= k) q
      R' := by
  have halts : (sc.explicitReturn v >>= k) = Comp.halt fun s =>
      if sc.inBlock then .nonLocal v s.world else .returned v s.world := rfl
  rw [halts]
  cases sc.inBlock with
  | true => exact sim_halt (i := .nlrTos) (by simp) fun _ _ _ _ _ => rfl
  | false => exact sim_halt (i := .retTos) (by simp) fun _ _ _ _ _ => rfl

/-! ## Slots and scopes -/

theorem sim_newSlots {A : Act V W α} {q : α → List V} {R' : α → Rel V W} {k : Nat → Emit} {m : Nat}
    (sim : Sim P a fuel (next + m) n lex stmts R (k next) p A q R') :
    Sim P a fuel next (m + n) lex stmts R (newSlots m k) p A q R' := by
  rintro g xs g' start ok
  unfold newSlots at ok
  rw [start] at ok
  obtain ⟨emitted, follows⟩ := sim { g with nextHoistSlot := next + m } xs g' rfl ok
  refine ⟨{ emitted with slots := ?_ }, follows⟩
  rw [emitted.slots, start]
  exact Nat.add_assoc next m n

theorem sim_within {A : Act V W V} {vars : List (String × Local V)} {q : V → List V} {R₁ : Rel V W}
    {R₁' R' : V → Rel V W}
    (sim : Sim P a fuel next n lex stmts R₁ e p A q R₁')
    (enter : ∀ s slots, R s slots → R₁ (s.push vars) slots)
    (leave : ∀ v s slots, R₁' v s slots → R' v s.pop slots) :
    Sim P a fuel next n lex stmts R e p (within vars A) q R' := by
  rintro g xs g' start ok
  obtain ⟨emitted, follows⟩ := sim g xs g' start ok
  refine ⟨emitted, fun code pre post is fresh s slots rest related => ?_⟩
  have inner := follows code pre post is fresh (s.push vars) slots rest (enter s slots related)
  refine Carries.within inner ?_
  rintro v s' f ⟨atEnd, onStack, inWorld, related'⟩
  exact ⟨atEnd, onStack, inWorld, leave v s' f.slots related'⟩

/-! ## Jumps -/

theorem Emit.append_assoc (x y z : Emit) : x ++ y ++ z = x ++ (y ++ z) := by
  funext g
  change Emit.append (Emit.append x y) z g = Emit.append x (Emit.append y z) g
  unfold Emit.append
  cases x g with
  | error f => rfl
  | ok first =>
    obtain ⟨xs, g⟩ := first
    dsimp only
    cases y g with
    | error f => rfl
    | ok second =>
      obtain ⟨ys, g⟩ := second
      dsimp only
      cases z g with
      | error f => rfl
      | ok third => simp

theorem Emit.op_append_ok {i : Item} {e : Emit} {g g' : Gen} {zs : List Item}
    (ok : (op i ++ e) g = .ok (zs, g')) : ∃ ys, e g = .ok (ys, g') ∧ zs = i :: ys := by
  obtain ⟨xs, ys, mid, one, rest, rfl⟩ := Emit.append_ok ok
  cases one
  exact ⟨ys, rest, rfl⟩

def branchItem (jumpOn : Bool) (l : Nat) : Item :=
  if jumpOn then .brTrueFwd l else .brFalseFwd l

theorem branchItem_ne_bind (jumpOn : Bool) (l l' : Nat) : branchItem jumpOn l ≠ .bind l' := by
  cases jumpOn <;> simp [branchItem]

def Behaviour.ofBool (b : Behaviour V W) : Bool → V
  | true => b.trueObj
  | false => b.falseObj

theorem exec_branch {code : List Item} {jumpOn b : Bool} {l pc : Nat} {rest : List V}
    {slots : Nat → V} {w : W} :
    a.exec code ⟨pc, a.behaviour.ofBool b :: rest, slots, w⟩ (branchItem jumpOn l) =
      ([], .at ⟨if b = jumpOn then labelPos code l else pc + 1, rest, slots, w⟩) := by
  have differ := a.behaviour.booleans
  cases jumpOn <;> cases b <;>
    simp [branchItem, Activated.exec, Activated.branch, Behaviour.ofBool, differ, differ.symm,
      Frame.jump, Frame.next]

theorem carries_truth {sc : Scene V W} (behaviour : sc.behaviour = a.behaviour) {code : List Item}
    {c : Frame V W} {t : V} {s : State V W} {arm : Bool → Act V W β}
    {after : β → State V W → Frame V W → Prop}
    (each : ∀ b, t = a.behaviour.ofBool b → Carries (a.machine code) fuel c (arm b s) after) :
    Carries (a.machine code) fuel c ((sc.truth t >>= arm) s) after := by
  unfold Scene.truth
  rw [behaviour]
  split
  · next isTrue =>
    rw [Comp.pure_bind]
    exact each true isTrue
  · split
    · next isFalse =>
      rw [Comp.pure_bind]
      exact each false isFalse
    · have never : Carries (a.machine code) fuel c ((Comp.wrong : Act V W Bool) s)
          fun _ _ _ => False := carries_wrong
      exact never.bind fun _ _ _ here => here.elim

/-- The code of a branch over two arms. -/
theorem branch_ok {jumpOn : Bool} {g g' : Gen} {zs : List Item}
    (ok : newLabel (fun l1 => newLabel fun l2 => op (branchItem jumpOn l1) ++ (e ++
      (op (.jumpFwd l2) ++ (op (.bind l1) ++ (e' ++ op (.bind l2)))))) g = .ok (zs, g')) :
    ∃ xs ys mid, e { g with labels := g.labels + 2 } = .ok (xs, mid) ∧ e' mid = .ok (ys, g') ∧
      zs = branchItem jumpOn g.labels :: (xs ++ .jumpFwd (g.labels + 1) :: .bind g.labels ::
        (ys ++ [.bind (g.labels + 1)])) := by
  obtain ⟨zs₁, ok₁, rfl⟩ := Emit.op_append_ok ok
  obtain ⟨xs, zs₂, mid, okE, ok₂, rfl⟩ := Emit.append_ok ok₁
  obtain ⟨zs₃, ok₃, rfl⟩ := Emit.op_append_ok ok₂
  obtain ⟨zs₄, ok₄, rfl⟩ := Emit.op_append_ok ok₃
  obtain ⟨ys, zs₅, last, okE', ok₅, rfl⟩ := Emit.append_ok ok₄
  cases ok₅
  exact ⟨xs, ys, mid, okE, okE', rfl⟩

/-- A branch over two arms: the first is the one it falls into. -/
theorem sim_branch {sc : Scene V W} (behaviour : sc.behaviour = a.behaviour) {jumpOn : Bool} {t : V}
    {arm : Bool → Act V W β} {q : β → List V} {R' : β → Rel V W}
    (falls : Sim P a fuel next n lex stmts R e p (arm (!jumpOn)) q R')
    (jumps : Sim P a fuel (next + n) n' lex' stmts' R e' p (arm jumpOn) q R') :
    Sim P a fuel next (n + n') (lex ++ lex') (stmts ++ stmts') R
      (newLabel fun l1 => newLabel fun l2 => op (branchItem jumpOn l1) ++ (e ++ (op (.jumpFwd l2) ++
        (op (.bind l1) ++ (e' ++ op (.bind l2))))))
      (t :: p) (sc.truth t >>= arm) q R' := by
  rintro g zs g' start ok
  obtain ⟨xs, ys, mid, okE, okE', rfl⟩ := branch_ok ok
  obtain ⟨emitted, follows⟩ := falls { g with labels := g.labels + 2 } xs mid start okE
  have start' : mid.nextHoistSlot = next + n := by rw [emitted.slots]; exact congrArg (· + n) start
  obtain ⟨emitted', follows'⟩ := jumps mid ys g' start' okE'
  have labels : g.labels + 2 ≤ mid.labels := emitted.labels
  refine ⟨⟨?_, ?_, ?_, ?_⟩, ?_⟩
  · have := emitted'.labels
    omega
  · intro l mem
    have labels' := emitted'.labels
    simp only [List.mem_cons, List.mem_append, List.not_mem_nil, or_false, Item.bind.injEq,
      reduceCtorEq, false_or] at mem
    rcases mem with is | mem | rfl | mem | rfl
    · exact absurd is.symm (branchItem_ne_bind _ _ _)
    · have : g.labels + 2 ≤ l ∧ l < mid.labels := emitted.binds l mem
      omega
    · omega
    · have := emitted'.binds l mem
      omega
    · omega
  · rw [emitted'.slots, start', ← start, Nat.add_assoc]
  · exact (emitted.append emitted').units
  intro code pre post is fresh s slots rest related
  refine carries_truth behaviour fun b isBool => ?_
  subst isBool
  have isBr : code = pre ++ [branchItem jumpOn g.labels] ++
      (xs ++ .jumpFwd (g.labels + 1) :: .bind g.labels :: (ys ++ .bind (g.labels + 1) :: post)) := by
    simp [is]
  have isX : code = (pre ++ [branchItem jumpOn g.labels]) ++ xs ++
      (.jumpFwd (g.labels + 1) :: .bind g.labels :: (ys ++ .bind (g.labels + 1) :: post)) := by
    simp [is]
  have isJump : code = (pre ++ [branchItem jumpOn g.labels] ++ xs) ++ [.jumpFwd (g.labels + 1)] ++
      (.bind g.labels :: (ys ++ .bind (g.labels + 1) :: post)) := by
    simp [is]
  have isL1 : code = (pre ++ [branchItem jumpOn g.labels] ++ xs ++ [.jumpFwd (g.labels + 1)]) ++
      [.bind g.labels] ++ (ys ++ .bind (g.labels + 1) :: post) := by
    simp [is]
  have isY : code = (pre ++ [branchItem jumpOn g.labels] ++ xs ++ [.jumpFwd (g.labels + 1)] ++
      [.bind g.labels]) ++ ys ++ (.bind (g.labels + 1) :: post) := by
    simp [is]
  have isL2 : code = (pre ++ [branchItem jumpOn g.labels] ++ xs ++ [.jumpFwd (g.labels + 1)] ++
      [.bind g.labels] ++ ys) ++ [.bind (g.labels + 1)] ++ post := by
    simp [is]
  have low : ∀ l, Item.bind l ∈ pre ++ [branchItem jumpOn g.labels] → l < g.labels := by
    intro l mem
    rcases List.mem_append.mp mem with mem | mem
    · exact fresh l mem
    · exact absurd (List.mem_singleton.mp mem).symm (branchItem_ne_bind _ _ _)
  have lowX : ∀ l, Item.bind l ∈ pre ++ [branchItem jumpOn g.labels] ++ xs ++
      [.jumpFwd (g.labels + 1)] → l < g.labels ∨ g.labels + 2 ≤ l ∧ l < mid.labels := by
    intro l mem
    rw [List.mem_append, List.mem_append] at mem
    rcases mem with (mem | mem) | mem
    · exact .inl (low l mem)
    · exact .inr (emitted.binds l mem)
    · simp at mem
  have lowY : ∀ l, Item.bind l ∈ pre ++ [branchItem jumpOn g.labels] ++ xs ++
      [.jumpFwd (g.labels + 1)] ++ [.bind g.labels] ++ ys → l ≠ g.labels + 1 := by
    intro l mem
    rw [List.mem_append, List.mem_append] at mem
    rcases mem with (mem | mem) | mem
    · have := lowX l mem
      omega
    · have := Item.bind.inj (List.mem_singleton.mp mem)
      omega
    · have := emitted'.binds l mem
      omega
  have posL1 : labelPos code g.labels = _ := labelPos_eq isL1 fun mem => by
    have := lowX _ mem
    omega
  have posL2 : labelPos code (g.labels + 1) = _ := labelPos_eq isL2 fun mem => lowY _ mem rfl
  have exit : ∀ v s' f, f.pc = (pre ++ [branchItem jumpOn g.labels] ++ xs ++
      [Item.jumpFwd (g.labels + 1)] ++ [Item.bind g.labels] ++ ys).length → f.stack = q v ++ rest →
      f.world = s'.world → R' v s' f.slots → ∃ f', (a.machine code).run 1 f = ([], .at f') ∧
      f'.pc = pre.length + (branchItem jumpOn g.labels :: (xs ++ Item.jumpFwd (g.labels + 1) ::
        Item.bind g.labels :: (ys ++ [Item.bind (g.labels + 1)]))).length ∧
      f'.stack = q v ++ rest ∧ f'.world = s'.world ∧ R' v s' f'.slots := by
    rintro v s' ⟨pc, stack, slots', world⟩ atEnd onStack inWorld related'
    dsimp only at atEnd onStack inWorld related'
    subst atEnd onStack inWorld
    refine ⟨Frame.next ⟨_, q v ++ rest, slots', s'.world⟩, Machine.run_one (step_at isL2 _ _ _), ?_, rfl,
      rfl, related'⟩
    simp [Frame.next]
    omega
  by_cases same : b = jumpOn
  · subst same
    have one := step_at (a := a) isBr (a.behaviour.ofBool b :: p ++ rest) slots s.world
    rw [List.cons_append, exec_branch, if_pos rfl, posL1] at one
    have two := step_at (a := a) isL1 (p ++ rest) slots s.world
    refine Carries.step one (Carries.step two ?_)
    have runs := follows' code _ _ isY (fun l mem => ?_) s slots rest related
    · rw [length_snoc _ (Item.bind g.labels)] at runs
      refine Carries.finish runs ?_
      rintro v s' f ⟨atEnd, onStack, inWorld, related'⟩
      obtain ⟨f', ran, rest⟩ := exit v s' f (by simp [atEnd]; omega) onStack inWorld related'
      exact ⟨1, f', ran, rest⟩
    · rcases List.mem_append.mp mem with mem | mem
      · have := lowX l mem
        omega
      · have := Item.bind.inj (List.mem_singleton.mp mem)
        omega
  · obtain rfl : b = !jumpOn := by cases b <;> cases jumpOn <;> simp_all
    have one := step_at (a := a) isBr (a.behaviour.ofBool (!jumpOn) :: p ++ rest) slots s.world
    rw [List.cons_append, exec_branch, if_neg same] at one
    refine Carries.step one ?_
    have runs := follows code _ _ isX (fun l mem => ?_) s slots rest related
    · rw [List.length_append] at runs
      refine Carries.finish runs ?_
      rintro v s' ⟨pc, stack, slots', world⟩ ⟨atEnd, onStack, inWorld, related'⟩
      dsimp only at atEnd onStack inWorld related'
      subst atEnd onStack inWorld
      have jump := step_at (a := a) isJump (q v ++ rest) slots' s'.world
      simp only [Activated.exec, Frame.jump, posL2] at jump
      rw [List.length_append, List.length_append] at jump
      obtain ⟨f', ran, rest⟩ := exit v s' ⟨_, q v ++ rest, slots', s'.world⟩ rfl rfl rfl related'
      have both := Machine.run_trans (Machine.run_one jump) ran
      exact ⟨1 + 1, f', both, rest⟩
    · have := low l mem
      change l < g.labels + 2
      omega

/-- The code of a loop. -/
theorem loop_ok {jumpOn : Bool} {g g' : Gen} {zs : List Item}
    (ok : newLabel (fun l0 => newLabel fun l2 => op (.bind l0) ++ (e ++ (op (branchItem jumpOn l2) ++
      (e' ++ (op (.jumpBack l0) ++ op (.bind l2)))))) g = .ok (zs, g')) :
    ∃ xs ys mid, e { g with labels := g.labels + 2 } = .ok (xs, mid) ∧ e' mid = .ok (ys, g') ∧
      zs = .bind g.labels :: (xs ++ branchItem jumpOn (g.labels + 1) ::
        (ys ++ [.jumpBack g.labels, .bind (g.labels + 1)])) := by
  obtain ⟨zs₁, ok₁, rfl⟩ := Emit.op_append_ok ok
  obtain ⟨xs, zs₂, mid, okE, ok₂, rfl⟩ := Emit.append_ok ok₁
  obtain ⟨zs₃, ok₃, rfl⟩ := Emit.op_append_ok ok₂
  obtain ⟨ys, zs₄, last, okE', ok₄, rfl⟩ := Emit.append_ok ok₃
  obtain ⟨zs₅, ok₅, rfl⟩ := Emit.op_append_ok ok₄
  cases ok₅
  exact ⟨xs, ys, mid, okE, okE', rfl⟩

/-- A loop whose condition and body keep an invariant; the body goes on from another index. -/
theorem sim_loop {sc : Scene V W} (behaviour : sc.behaviour = a.behaviour) (wanted : Bool)
    {I : β → Rel V W} {C : β → Act V W V} {K : β → Act V W (β ⊕ Unit)}
    (cond : ∀ b, Sim P a fuel next n lex stmts (I b) e [] (C b) (fun t => [t]) fun _ => I b)
    (body : ∀ b, Sim P a fuel (next + n) n' lex' stmts' (I b) e' [] (K b) (fun _ => []) fun
      | .inl b => I b
      | .inr _ => fun _ _ => False) (first : β) :
    Sim P a fuel next (n + n') (lex ++ lex') (stmts ++ stmts') (I first)
      (newLabel fun l0 => newLabel fun l2 => op (.bind l0) ++ (e ++ (op (branchItem (!wanted) l2) ++
        (e' ++ (op (.jumpBack l0) ++ op (.bind l2)))))) []
      (Comp.loop (fun b => C b >>= fun t => sc.truth t >>= fun c =>
        if c = wanted then K b else pure (.inr ())) fuel first)
      (fun _ => []) fun _ s slots => ∃ b, I b s slots := by
  rintro g zs g' start ok
  obtain ⟨xs, ys, mid, okE, okE', rfl⟩ := loop_ok ok
  obtain ⟨emitted, -⟩ := cond first { g with labels := g.labels + 2 } xs mid start okE
  have start' : mid.nextHoistSlot = next + n := by rw [emitted.slots]; exact congrArg (· + n) start
  obtain ⟨emitted', -⟩ := body first mid ys g' start' okE'
  have labels : g.labels + 2 ≤ mid.labels := emitted.labels
  have inX : ∀ l, Item.bind l ∈ xs → g.labels + 2 ≤ l ∧ l < mid.labels := emitted.binds
  refine ⟨⟨?_, ?_, ?_, ?_⟩, ?_⟩
  · have := emitted'.labels
    omega
  · intro l mem
    have labels' := emitted'.labels
    simp only [List.mem_cons, List.mem_append, List.not_mem_nil, or_false, Item.bind.injEq,
      reduceCtorEq, false_or] at mem
    rcases mem with rfl | mem | is | mem | rfl
    · omega
    · have := inX l mem
      omega
    · exact absurd is.symm (branchItem_ne_bind _ _ _)
    · have := emitted'.binds l mem
      omega
    · omega
  · rw [emitted'.slots, start', ← start, Nat.add_assoc]
  · exact (emitted.append emitted').units
  intro code pre post is fresh s slots rest related
  have isL0 : code = pre ++ [.bind g.labels] ++ (xs ++ branchItem (!wanted) (g.labels + 1) ::
      (ys ++ .jumpBack g.labels :: .bind (g.labels + 1) :: post)) := by
    simp [is]
  have isX : code = (pre ++ [.bind g.labels]) ++ xs ++ (branchItem (!wanted) (g.labels + 1) ::
      (ys ++ .jumpBack g.labels :: .bind (g.labels + 1) :: post)) := by
    simp [is]
  have isBr : code = (pre ++ [.bind g.labels] ++ xs) ++ [branchItem (!wanted) (g.labels + 1)] ++
      (ys ++ .jumpBack g.labels :: .bind (g.labels + 1) :: post) := by
    simp [is]
  have isY : code = (pre ++ [.bind g.labels] ++ xs ++ [branchItem (!wanted) (g.labels + 1)]) ++ ys ++
      (.jumpBack g.labels :: .bind (g.labels + 1) :: post) := by
    simp [is]
  have isBack : code = (pre ++ [.bind g.labels] ++ xs ++ [branchItem (!wanted) (g.labels + 1)] ++
      ys) ++ [.jumpBack g.labels] ++ (.bind (g.labels + 1) :: post) := by
    simp [is]
  have isL2 : code = (pre ++ [.bind g.labels] ++ xs ++ [branchItem (!wanted) (g.labels + 1)] ++
      ys ++ [.jumpBack g.labels]) ++ [.bind (g.labels + 1)] ++ post := by
    simp [is]
  have lowX : ∀ l, Item.bind l ∈ pre ++ [.bind g.labels] → l < g.labels + 1 := by
    intro l mem
    rcases List.mem_append.mp mem with mem | mem
    · exact Nat.lt_succ_of_lt (fresh l mem)
    · have := Item.bind.inj (List.mem_singleton.mp mem)
      omega
  have lowY : ∀ l, Item.bind l ∈ pre ++ [.bind g.labels] ++ xs ++
      [branchItem (!wanted) (g.labels + 1)] → l < g.labels + 1 ∨ g.labels + 2 ≤ l ∧ l < mid.labels := by
    intro l mem
    rw [List.mem_append, List.mem_append] at mem
    rcases mem with (mem | mem) | mem
    · exact .inl (lowX l mem)
    · exact .inr (inX l mem)
    · exact absurd (List.mem_singleton.mp mem).symm (branchItem_ne_bind _ _ _)
  have lowL2 : Item.bind (g.labels + 1) ∉ pre ++ [.bind g.labels] ++ xs ++
      [branchItem (!wanted) (g.labels + 1)] ++ ys ++ [.jumpBack g.labels] := by
    intro mem
    rw [List.mem_append, List.mem_append] at mem
    rcases mem with (mem | mem) | mem
    · have := lowY _ mem
      omega
    · have := emitted'.binds _ mem
      omega
    · simp at mem
  have posL0 : labelPos code g.labels = _ := labelPos_eq isL0 fun mem => by
    have := fresh _ mem
    omega
  have posL2 : labelPos code (g.labels + 1) = _ := labelPos_eq isL2 lowL2
  refine Carries.loop (fun b s f => f.pc = pre.length ∧ f.stack = rest ∧ f.world = s.world ∧
    I b s f.slots) ?_ fuel (Nat.le_refl _) first s _ ⟨rfl, rfl, rfl, related⟩
  rintro b s ⟨pc, stack, slots, world⟩ ⟨atStart, onStack, inWorld, related⟩
  dsimp only at atStart onStack inWorld related
  subst atStart onStack inWorld
  refine ⟨_, step_at isL0 _ _ _, ?_⟩
  obtain ⟨-, followsC⟩ := cond b { g with labels := g.labels + 2 } xs mid start okE
  have runC := followsC code _ _ isX (fun l mem => Nat.lt_trans (lowX l mem) (Nat.lt_succ_self _))
    s slots stack related
  rw [length_snoc] at runC
  refine Carries.bind runC ?_
  rintro t s ⟨pc, stack', slots, world⟩ ⟨atBr, onStack, inWorld, related⟩
  dsimp only at atBr onStack inWorld related
  subst atBr onStack inWorld
  refine carries_truth behaviour fun c isBool => ?_
  subst isBool
  have one := step_at (a := a) isBr (a.behaviour.ofBool c :: stack) slots s.world
  rw [exec_branch, posL2, List.length_append, List.length_append] at one
  by_cases same : c = wanted
  · subst same
    rw [if_neg (by simp)] at one
    rw [if_pos rfl]
    refine Carries.step one ?_
    obtain ⟨-, followsK⟩ := body b mid ys g' start' okE'
    have runK := followsK code _ _ isY (fun l mem => by have := lowY l mem; omega) s slots stack
      related
    rw [length_snoc, List.length_append, length_snoc] at runK
    refine Carries.finish runK ?_
    rintro r s' ⟨pc, stack', slots', world⟩ ⟨atEnd, onStack, inWorld, related'⟩
    dsimp only at atEnd onStack inWorld related'
    subst atEnd onStack inWorld
    cases r with
    | inr u => exact related'.elim
    | inl b' =>
      have back := step_at (a := a) isBack (stack') slots' s'.world
      simp only [Activated.exec, Frame.jump, posL0] at back
      rw [List.length_append, List.length_append, List.length_append, List.length_append] at back
      exact ⟨1, ⟨pre.length, stack', slots', s'.world⟩, Machine.run_one back, rfl, rfl, rfl, related'⟩
  · obtain rfl : c = !wanted := by cases c <;> cases wanted <;> simp_all
    rw [if_pos rfl] at one
    rw [if_neg same]
    refine Carries.step one ?_
    refine Carries.step (step_at isL2 _ _ _) (Carries.pure ⟨?_, rfl, rfl, b, related⟩)
    simp [Frame.next]
    omega

/-- A loop without a condition, which ends only by leaving the activation. -/
theorem sim_repeat {I : Rel V W} {K : Act V W V} (q : α → List V) (R' : α → Rel V W)
    (body : Sim P a fuel next n lex stmts I e [] K (fun _ => []) fun _ => I) :
    Sim P a fuel next n lex stmts I
      (newLabel fun l0 => op (.bind l0) ++ (e ++ op (.jumpBack l0))) []
      (Comp.loop (fun (_ : Unit) => K >>= fun _ => (pure (.inl ()) : Act V W (Unit ⊕ α))) fuel ())
      q R' := by
  rintro g zs g' start ok
  obtain ⟨zs₁, ok₁, rfl⟩ := Emit.op_append_ok ok
  obtain ⟨xs, zs₂, mid, okE, ok₂, rfl⟩ := Emit.append_ok ok₁
  cases ok₂
  obtain ⟨emitted, follows⟩ := body { g with labels := g.labels + 1 } xs g' start okE
  have labels : g.labels + 1 ≤ g'.labels := emitted.labels
  refine ⟨⟨Nat.le_of_succ_le labels, ?_, ?_, emitted.units⟩, ?_⟩
  · intro l mem
    simp only [List.mem_cons, List.mem_append, List.not_mem_nil, or_false, Item.bind.injEq,
      reduceCtorEq] at mem
    rcases mem with rfl | mem
    · omega
    · have : g.labels + 1 ≤ l ∧ l < g'.labels := emitted.binds l mem
      omega
  · exact emitted.slots
  intro code pre post is fresh s slots rest related
  have isL0 : code = pre ++ [.bind g.labels] ++ (xs ++ .jumpBack g.labels :: post) := by simp [is]
  have isX : code = (pre ++ [.bind g.labels]) ++ xs ++ (.jumpBack g.labels :: post) := by simp [is]
  have isBack : code = (pre ++ [.bind g.labels] ++ xs) ++ [.jumpBack g.labels] ++ post := by
    simp [is]
  have posL0 : labelPos code g.labels = _ := labelPos_eq isL0 fun mem => by
    have := fresh _ mem
    omega
  refine Carries.loop (fun _ s f => f.pc = pre.length ∧ f.stack = rest ∧ f.world = s.world ∧
    I s f.slots) ?_ fuel (Nat.le_refl _) () s _ ⟨rfl, rfl, rfl, related⟩
  rintro - s ⟨pc, stack, slots, world⟩ ⟨atStart, onStack, inWorld, related⟩
  dsimp only at atStart onStack inWorld related
  subst atStart onStack inWorld
  refine ⟨_, step_at isL0 _ _ _, ?_⟩
  have run := follows code _ _ isX (fun l mem => ?_) s slots stack related
  · rw [length_snoc] at run
    refine Carries.bind run ?_
    rintro v s' ⟨pc, stack', slots', world⟩ ⟨atEnd, onStack, inWorld, related'⟩
    dsimp only at atEnd onStack inWorld related'
    subst atEnd onStack inWorld
    have back := step_at (a := a) isBack (stack') slots' s'.world
    simp only [Activated.exec, Frame.jump, posL0] at back
    rw [List.length_append, List.length_append] at back
    have here : (a.machine code).step _ = ([], .at ⟨pre.length, stack', slots', s'.world⟩) := back
    exact Carries.step here (Carries.pure ⟨rfl, rfl, rfl, related'⟩)
  · change l < g.labels + 1
    rcases List.mem_append.mp mem with mem | mem
    · exact Nat.lt_succ_of_lt (fresh l mem)
    · have := Item.bind.inj (List.mem_singleton.mp mem)
      omega

end

end WinVm.Frontend
