import Mathlib.Tactic.Common

/-!
# Traced computations and the machines that carry them out

A `Comp` is a computation over a state that emits events, and may end for good, run out
of fuel or have no meaning. A `Machine` is a deterministic step function that emits the
same events. `Carries` says that a machine does what a computation prescribes: it is used
backwards, with one rule for each way a computation is put together.

Results: `Carries.bind`, `Carries.loop`.
-/

namespace WinVm.Lib

/-! ## Computations -/

/-- How a computation ends: with a value, for good, out of fuel, or without a meaning. -/
inductive End (S H α : Type) where
  | value (a : α) (s : S)
  | halted (h : H)
  | timeout
  | wrong

/-- The events, whether a step was flagged on the way, and the end. -/
structure Run (E S H α : Type) where
  events : List E
  flagged : Bool
  result : End S H α

def Comp (E S H α : Type) : Type := S → Run E S H α

namespace Comp

variable {E S H α β γ : Type}

def pure (a : α) : Comp E S H α := fun s => ⟨[], false, .value a s⟩

def bind (x : Comp E S H α) (f : α → Comp E S H β) : Comp E S H β := fun s =>
  let first := x s
  match first.result with
  | .value a s =>
    let second := f a s
    ⟨first.events ++ second.events, first.flagged || second.flagged, second.result⟩
  | .halted h => ⟨first.events, first.flagged, .halted h⟩
  | .timeout => ⟨first.events, first.flagged, .timeout⟩
  | .wrong => ⟨first.events, first.flagged, .wrong⟩

instance : Monad (Comp E S H) where
  pure := pure
  bind := bind

def wrong : Comp E S H α := fun _ => ⟨[], false, .wrong⟩

def timeout : Comp E S H α := fun _ => ⟨[], false, .timeout⟩

def halt (h : S → H) : Comp E S H α := fun s => ⟨[], false, .halted (h s)⟩

def emit (e : E) : Comp E S H Unit := fun s => ⟨[e], false, .value () s⟩

def flag : Comp E S H Unit := fun s => ⟨[], true, .value () s⟩

def get (f : S → α) : Comp E S H α := fun s => ⟨[], false, .value (f s) s⟩

def modify (f : S → S) : Comp E S H Unit := fun s => ⟨[], false, .value () (f s)⟩

/-- The state changes for the computation, and changes back when it answers a value. -/
def within (enter leave : S → S) (x : Comp E S H α) : Comp E S H α := fun s =>
  let inner := x (enter s)
  match inner.result with
  | .value a s => { inner with result := .value a (leave s) }
  | _ => inner

/-- Iterate until the body answers a result, at most so many times. -/
def loop (body : β → Comp E S H (β ⊕ α)) : Nat → β → Comp E S H α
  | 0, _ => timeout
  | n + 1, b => do
    match ← body b with
    | .inl b => loop body n b
    | .inr a => pure a

theorem loop_succ (body : β → Comp E S H (β ⊕ α)) (n : Nat) (b : β) :
    loop body (n + 1) b = (body b >>= fun
      | .inl b => loop body n b
      | .inr a => pure a) :=
  rfl

theorem pure_bind (a : α) (f : α → Comp E S H β) : (Pure.pure a >>= f) = f a := by
  funext s
  change bind (pure a) f s = f a s
  simp [bind, pure]

theorem bind_assoc (x : Comp E S H α) (f : α → Comp E S H β) (g : β → Comp E S H γ) :
    (x >>= f >>= g) = (x >>= fun a => f a >>= g) := by
  funext s
  change bind (bind x f) g s = bind x (fun a => bind (f a) g) s
  simp only [bind]
  cases (x s).result with
  | value a s =>
    dsimp only
    cases (f a s).result <;> simp [Bool.or_assoc]
  | halted h => rfl
  | timeout => rfl
  | wrong => rfl

theorem get_bind (f : S → α) (k : α → Comp E S H β) (s : S) : (get f >>= k) s = k (f s) s := by
  change bind (get f) k s = _
  simp [bind, get]

theorem modify_bind (f : S → S) (k : Unit → Comp E S H β) (s : S) :
    (modify f >>= k) s = k () (f s) := by
  change bind (modify f) k s = _
  simp [bind, modify]

theorem bind_pure (x : Comp E S H α) : (x >>= Pure.pure) = x := by
  funext s
  change bind x pure s = x s
  simp only [bind, pure]
  generalize x s = r
  obtain ⟨events, flagged, result⟩ := r
  cases result <;> simp

end Comp

/-! ## Machines -/

inductive Next (C H : Type) where
  | at (c : C)
  | halt (h : H)
  | stuck

structure Machine (E C H : Type) where
  step : C → List E × Next C H

namespace Machine

variable {E C H : Type} (m : Machine E C H)

/-- At most so many steps, with the events on the way. -/
def run : Nat → C → List E × Next C H
  | 0, c => ([], .at c)
  | k + 1, c =>
    match m.step c with
    | (first, .at c) =>
      let (rest, last) := run k c
      (first ++ rest, last)
    | last => last

variable {m}

theorem run_trans {j k : Nat} {c c' : C} {first rest : List E} {last : Next C H}
    (one : m.run j c = (first, .at c')) (other : m.run k c' = (rest, last)) :
    m.run (j + k) c = (first ++ rest, last) := by
  induction j generalizing c first with
  | zero =>
    cases one
    simpa using other
  | succ j ih =>
    rw [Nat.succ_add, run]
    rw [run] at one
    revert one
    generalize m.step c = out
    obtain ⟨events, next⟩ := out
    cases next with
    | «at» mid =>
      dsimp only
      intro one
      cases inner : m.run j mid with
      | mk evs last' =>
        rw [inner] at one
        cases one
        rw [ih inner]
        simp
    | halt h => intro one; cases one
    | stuck => intro one; cases one

theorem run_one {c c' : C} {events : List E} (one : m.step c = (events, .at c')) :
    m.run 1 c = (events, .at c') := by
  simp [run, one]

theorem run_one_halt {c : C} {h : H} {events : List E} (one : m.step c = (events, .halt h)) :
    m.run 1 c = (events, .halt h) := by
  simp [run, one]

/-- A machine that has halted stays so. -/
theorem run_halt {j k : Nat} {c : C} {events : List E} {h : H}
    (halted : m.run j c = (events, .halt h)) (more : j ≤ k) : m.run k c = (events, .halt h) := by
  induction j generalizing c events k with
  | zero => cases halted
  | succ j ih =>
    obtain ⟨k, rfl⟩ : ∃ k', k = k' + 1 := ⟨k - 1, by omega⟩
    rw [run] at halted ⊢
    revert halted
    generalize m.step c = out
    obtain ⟨evs, next⟩ := out
    cases next with
    | «at» mid =>
      dsimp only
      intro halted
      cases inner : m.run j mid with
      | mk evs' last =>
        rw [inner] at halted
        cases halted
        rw [ih inner (Nat.le_of_succ_le_succ more)]
    | halt h => exact id
    | stuck => exact id

end Machine

/-! ## Carrying out a computation -/

section

variable {E S C H α β : Type}

/-- From `c` the machine does what the run prescribes: the same events and the same end,
a value in a configuration that `after` allows. A run that is out of fuel prescribes the
events up to there, in at least `fuel` steps; one without a meaning prescribes nothing. -/
def Performs (m : Machine E C H) (fuel : Nat) (c : C) (r : Run E S H α)
    (after : α → S → C → Prop) : Prop :=
  match r.result with
  | .value a s => ∃ k c', m.run k c = (r.events, .at c') ∧ after a s c'
  | .halted h => ∃ k, m.run k c = (r.events, .halt h)
  | .timeout => ∃ k c', fuel ≤ k ∧ m.run k c = (r.events, .at c')
  | .wrong => True

/-- The same of a run without a flagged step. -/
def Carries (m : Machine E C H) (fuel : Nat) (c : C) (r : Run E S H α)
    (after : α → S → C → Prop) : Prop :=
  r.flagged = false → Performs m fuel c r after

variable {m : Machine E C H} {fuel : Nat} {c : C} {s : S}

theorem Carries.imp {r : Run E S H α} {after after' : α → S → C → Prop}
    (carries : Carries m fuel c r after) (imp : ∀ a s c, after a s c → after' a s c) :
    Carries m fuel c r after' := by
  intro clear
  have carries := carries clear
  unfold Performs at carries ⊢
  revert carries
  cases r.result with
  | value a s =>
    rintro ⟨k, c', ran, here⟩
    exact ⟨k, c', ran, imp a s c' here⟩
  | halted h => exact id
  | timeout => exact id
  | wrong => exact id

theorem Carries.pure {a : α} {after : α → S → C → Prop} (here : after a s c) :
    Carries m fuel c ((Pure.pure a : Comp E S H α) s) after :=
  fun _ => ⟨0, c, rfl, here⟩

theorem carries_wrong {after : α → S → C → Prop} :
    Carries m fuel c ((Comp.wrong : Comp E S H α) s) after :=
  fun _ => trivial

theorem Carries.mono {r : Run E S H α} {after : α → S → C → Prop} {fuel' : Nat}
    (carries : Carries m fuel c r after) (less : fuel' ≤ fuel) : Carries m fuel' c r after := by
  intro clear
  have carries := carries clear
  unfold Performs at carries ⊢
  revert carries
  cases r.result with
  | value a s => exact id
  | halted h => exact id
  | timeout =>
    rintro ⟨k, c', enough, ran⟩
    exact ⟨k, c', Nat.le_trans less enough, ran⟩
  | wrong => exact id

/-- Steps that emit what a computation begins with. -/
theorem Carries.after_run {r r' : Run E S H α} {after : α → S → C → Prop} {k : Nat} {c' : C}
    {events : List E} (ran : m.run k c = (events, .at c')) (carries : Carries m fuel c' r after)
    (same : r'.result = r.result) (flagged : r'.flagged = false → r.flagged = false)
    (trace : r'.events = events ++ r.events) : Carries m (k + fuel) c r' after := by
  intro clear
  have carries := carries (flagged clear)
  unfold Performs at carries ⊢
  rw [same, trace]
  revert carries
  cases r.result with
  | value a s =>
    rintro ⟨j, last, rest, here⟩
    exact ⟨k + j, last, Machine.run_trans ran rest, here⟩
  | halted h =>
    rintro ⟨j, rest⟩
    exact ⟨k + j, Machine.run_trans ran rest⟩
  | timeout =>
    rintro ⟨j, last, enough, rest⟩
    exact ⟨k + j, last, Nat.add_le_add_left enough k, Machine.run_trans ran rest⟩
  | wrong => exact id

/-- A silent step of the machine, which counts. -/
theorem Carries.step_count {r : Run E S H α} {after : α → S → C → Prop} {c' : C}
    (one : m.step c = ([], .at c')) (carries : Carries m fuel c' r after) :
    Carries m (1 + fuel) c r after :=
  Carries.after_run (Machine.run_one one) carries rfl id rfl

theorem Carries.step {r : Run E S H α} {after : α → S → C → Prop} {c' : C}
    (one : m.step c = ([], .at c')) (carries : Carries m fuel c' r after) :
    Carries m fuel c r after :=
  (carries.step_count one).mono (Nat.le_add_left fuel 1)

/-- A step that emits an event. -/
theorem Carries.emit {k : Unit → Comp E S H α} {after : α → S → C → Prop} {c' : C} {e : E}
    (one : m.step c = ([e], .at c')) (carries : Carries m fuel c' (k () s) after) :
    Carries m fuel c ((Comp.emit e >>= k) s) after := by
  have rest : Carries m (1 + fuel) c ((Comp.emit e >>= k) s) after :=
    Carries.after_run (Machine.run_one one) carries rfl
      (fun clear => by simpa [bind, Comp.bind, Comp.emit] using clear) rfl
  exact rest.mono (Nat.le_add_left fuel 1)

theorem Carries.modify {after : Unit → S → C → Prop} {f : S → S} (here : after () (f s) c) :
    Carries m fuel c ((Comp.modify f : Comp E S H Unit) s) after :=
  fun _ => ⟨0, c, rfl, here⟩

theorem Carries.get {after : α → S → C → Prop} {f : S → α} (here : after (f s) s c) :
    Carries m fuel c ((Comp.get f : Comp E S H α) s) after :=
  fun _ => ⟨0, c, rfl, here⟩

theorem Carries.bind {x : Comp E S H α} {f : α → Comp E S H β} {mid : α → S → C → Prop}
    {after : β → S → C → Prop} (first : Carries m fuel c (x s) mid)
    (second : ∀ a s c, mid a s c → Carries m fuel c (f a s) after) :
    Carries m fuel c ((x >>= f) s) after := by
  change Carries m fuel c (Comp.bind x f s) after
  unfold Comp.bind
  dsimp only
  unfold Carries Performs at first
  cases result : (x s).result with
  | value a s' =>
    rw [result] at first
    intro clear
    rw [Bool.or_eq_false_iff] at clear
    obtain ⟨k, c', ran, here⟩ := first clear.1
    have rest : Carries m (k + fuel) c ⟨(x s).events ++ (f a s').events,
        (x s).flagged || (f a s').flagged, (f a s').result⟩ after :=
      Carries.after_run ran (second a s' c' here) rfl (fun _ => clear.2) rfl
    exact rest.mono (Nat.le_add_left fuel k) (by simp [clear.1, clear.2])
  | halted h =>
    rw [result] at first
    exact first
  | timeout =>
    rw [result] at first
    exact first
  | wrong => exact fun _ => trivial

/-- Silent steps after the value. -/
theorem Carries.finish {x : Comp E S H α} {mid after : α → S → C → Prop}
    (carries : Carries m fuel c (x s) mid)
    (last : ∀ a s c, mid a s c → ∃ k c', m.run k c = ([], .at c') ∧ after a s c') :
    Carries m fuel c (x s) after := by
  have both : Carries m fuel c ((x >>= Pure.pure) s) after := by
    refine carries.bind fun a s c here => ?_
    obtain ⟨k, c', ran, there⟩ := last a s c here
    exact (Carries.after_run ran (Carries.pure there) rfl id rfl).mono (Nat.le_add_left fuel k)
  rwa [Comp.bind_pure] at both

theorem Carries.within {x : Comp E S H α} {enter leave : S → S} {inner after : α → S → C → Prop}
    (carries : Carries m fuel c (x (enter s)) inner)
    (imp : ∀ a s c, inner a s c → after a (leave s) c) :
    Carries m fuel c (x.within enter leave s) after := by
  unfold Comp.within
  dsimp only
  unfold Carries Performs at carries
  cases result : (x (enter s)).result with
  | value a s' =>
    rw [result] at carries
    intro clear
    obtain ⟨k, c', ran, here⟩ := carries clear
    exact ⟨k, c', ran, imp a s' c' here⟩
  | halted h =>
    intro clear
    have carries := carries clear
    unfold Performs
    dsimp only
    rw [result] at carries ⊢
    exact carries
  | timeout =>
    intro clear
    have carries := carries clear
    unfold Performs
    dsimp only
    rw [result] at carries ⊢
    exact carries
  | wrong =>
    intro clear
    unfold Performs
    dsimp only
    rw [result]
    trivial

/-- A loop with an invariant. Every turn begins with a silent step, so a loop that is out
of fuel has made as many steps as it had turns. -/
theorem Carries.loop {body : β → Comp E S H (β ⊕ α)} {after : α → S → C → Prop}
    (inv : β → S → C → Prop)
    (turn : ∀ b s c, inv b s c → ∃ c', m.step c = ([], .at c') ∧
      Carries m fuel c' (body b s) fun r s c => match r with
        | .inl b => inv b s c
        | .inr a => after a s c) :
    ∀ n ≤ fuel, ∀ b s c, inv b s c → Carries m n c (Comp.loop body n b s) after := by
  intro n
  induction n with
  | zero =>
    intro _ b s c _ _
    exact ⟨0, c, Nat.le_refl 0, rfl⟩
  | succ n ih =>
    intro enough b s c here
    obtain ⟨c', one, carries⟩ := turn b s c here
    rw [Comp.loop_succ, Nat.add_comm]
    refine Carries.step_count one ?_
    refine Carries.bind (carries.mono (Nat.le_of_succ_le enough)) ?_
    intro r s c here
    cases r with
    | inl b => exact ih (Nat.le_of_succ_le enough) b s c here
    | inr a => exact Carries.pure here

end

end WinVm.Lib
