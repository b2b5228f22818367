import Mathlib.Logic.Basic

/-!
# Runs of a partial step function

A machine is a step function into `Except`. `Yields` says that a computation ends in a state
with a property, unless it ends in an error that is excused; `Reach` says the same of a
number of steps. Both are used backwards: to show that a state reaches `P`, it is enough
that its successor does.
-/

namespace WinVm.Lib

variable {α β ε σ : Type}

/-- The computation ends with a value in `Q`, or in an excused error. -/
def Yields (excused : ε → Prop) (Q : α → Prop) : Except ε α → Prop
  | .ok a => Q a
  | .error e => excused e

variable {excused : ε → Prop} {Q : α → Prop} {R : β → Prop}

@[simp] theorem yields_ok {a : α} : Yields excused Q (.ok a) ↔ Q a := Iff.rfl

@[simp] theorem yields_error {e : ε} : Yields excused Q (.error e) ↔ excused e := Iff.rfl

theorem Yields.imp {Q' : α → Prop} {x : Except ε α} (h : Yields excused Q x)
    (himp : ∀ a, Q a → Q' a) : Yields excused Q' x := by
  cases x with
  | ok a => exact himp a h
  | error e => exact h

/-- Sequencing: what the first computation yields is all the second one sees. -/
theorem Yields.bind {x : Except ε α} {f : α → Except ε β} (h : Yields excused Q x)
    (hf : ∀ a, Q a → Yields excused R (f a)) : Yields excused R (x >>= f) := by
  cases x with
  | ok a => exact hf a h
  | error e => exact h

/-- From a state, the machine gets to a state in `P`, or stops in an excused error. -/
inductive Reach (step : σ → Except ε σ) (excused : ε → Prop) (P : σ → Prop) : σ → Prop
  | here {s : σ} (h : P s) : Reach step excused P s
  | step {s : σ} {s' : σ} (h : step s = .ok s') (rest : Reach step excused P s') :
      Reach step excused P s
  | stop {s : σ} {e : ε} (h : step s = .error e) (excuse : excused e) : Reach step excused P s

variable {step : σ → Except ε σ} {P P' : σ → Prop} {s : σ}

/-- One step, backwards. -/
theorem Reach.of_yields (h : Yields excused (Reach step excused P) (step s)) :
    Reach step excused P s := by
  cases hs : step s with
  | ok s' =>
    rw [hs] at h
    exact .step hs h
  | error e =>
    rw [hs] at h
    exact .stop hs h

end WinVm.Lib
