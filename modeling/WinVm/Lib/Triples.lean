import WinVm.Lib.Traced

/-!
# Postconditions of traced computations

`Meets` says what a run may do: which events it emits, how it may end for good, whether it may
have no meaning, and what holds of the value it answers. A run that meets its limits never times
out.

Results: `Meets.bind`, `Meets.attempt`.
-/

namespace WinVm.Lib

/-- What is allowed of a run, besides the value it answers. -/
structure Limits (E H : Type) where
  event : E → Prop
  halt : H → Prop
  wrong : Prop

variable {E S H α β : Type}

/-- The run stays within the limits, and a value it answers satisfies the postcondition. -/
def Meets (lim : Limits E H) (r : Run E S H α) (post : α → S → Prop) : Prop :=
  (∀ e ∈ r.events, lim.event e) ∧
    match r.result with
    | .value a s => post a s
    | .halted h => lim.halt h
    | .timeout => False
    | .wrong => lim.wrong

/-- The first computation that answers something decides. -/
def Comp.attempt (x : Comp E S H (Option α)) (otherwise : Comp E S H α) : Comp E S H α := do
  match ← x with
  | some a => pure a
  | none => otherwise

/-- The postcondition of a computation that answers something, or nothing. -/
def Answers (post : α → S → Prop) (nothing : S → Prop) : Option α → S → Prop
  | some a, s => post a s
  | none, s => nothing s

namespace Meets

variable {lim : Limits E H} {s : S}

theorem imp {r : Run E S H α} {post post' : α → S → Prop} (h : Meets lim r post)
    (himp : ∀ a s, post a s → post' a s) : Meets lim r post' := by
  obtain ⟨hevents, hresult⟩ := h
  refine ⟨hevents, ?_⟩
  revert hresult
  cases r.result with
  | value a s => exact himp a s
  | halted h => exact id
  | timeout => exact id
  | wrong => exact id

theorem pure {a : α} {post : α → S → Prop} (h : post a s) :
    Meets lim ((Pure.pure a : Comp E S H α) s) post :=
  ⟨fun e he => absurd he List.not_mem_nil, h⟩

theorem modify {f : S → S} {post : Unit → S → Prop} (h : post () (f s)) :
    Meets lim ((Comp.modify f : Comp E S H Unit) s) post :=
  ⟨fun e he => absurd he List.not_mem_nil, h⟩

theorem emit {e : E} {post : Unit → S → Prop} (he : lim.event e) (h : post () s) :
    Meets lim ((Comp.emit e : Comp E S H Unit) s) post := by
  refine ⟨fun e' he' => ?_, h⟩
  rw [List.mem_singleton.mp he']
  exact he

theorem halt {f : S → H} {post : α → S → Prop} (h : lim.halt (f s)) :
    Meets lim ((Comp.halt f : Comp E S H α) s) post :=
  ⟨fun e he => absurd he List.not_mem_nil, h⟩

theorem wrong {post : α → S → Prop} (h : lim.wrong) :
    Meets lim ((Comp.wrong : Comp E S H α) s) post :=
  ⟨fun e he => absurd he List.not_mem_nil, h⟩

/-- Sequencing: the second computation starts from what the first one leaves. -/
theorem bind {x : Comp E S H α} {f : α → Comp E S H β} {mid : α → S → Prop}
    {post : β → S → Prop} (first : Meets lim (x s) mid)
    (second : ∀ a s, mid a s → Meets lim (f a s) post) : Meets lim ((x >>= f) s) post := by
  change Meets lim (Comp.bind x f s) post
  obtain ⟨hevents, hresult⟩ := first
  unfold Comp.bind
  dsimp only
  cases result : (x s).result with
  | value a s' =>
    rw [result] at hresult
    obtain ⟨hevents', hresult'⟩ := second a s' hresult
    refine ⟨fun e he => ?_, hresult'⟩
    exact (List.mem_append.mp he).elim (hevents e) (hevents' e)
  | halted h =>
    rw [result] at hresult
    exact ⟨hevents, hresult⟩
  | timeout =>
    rw [result] at hresult
    exact hresult.elim
  | wrong =>
    rw [result] at hresult
    exact ⟨hevents, hresult⟩

theorem get_bind {f : S → α} {k : α → Comp E S H β} {post : β → S → Prop}
    (h : Meets lim (k (f s) s) post) : Meets lim ((Comp.get f >>= k) s) post := by
  rwa [Comp.get_bind]

theorem modify_bind {f : S → S} {k : Unit → Comp E S H β} {post : β → S → Prop}
    (h : Meets lim (k () (f s)) post) : Meets lim ((Comp.modify f >>= k) s) post := by
  rwa [Comp.modify_bind]

theorem emit_bind {e : E} {k : Unit → Comp E S H β} {post : β → S → Prop} (he : lim.event e)
    (h : Meets lim (k () s) post) : Meets lim ((Comp.emit e >>= k) s) post := by
  have first : Meets lim ((Comp.emit e : Comp E S H Unit) s) fun _ s' => s' = s := emit he rfl
  exact first.bind fun _ _ heq => heq ▸ h

theorem attempt {x : Comp E S H (Option α)} {otherwise : Comp E S H α} {mid : S → Prop}
    {post : α → S → Prop}
    (first : Meets lim (x s) (Answers post mid))
    (second : ∀ s, mid s → Meets lim (otherwise s) post) :
    Meets lim (Comp.attempt x otherwise s) post := by
  refine first.bind fun r s h => ?_
  cases r with
  | some a => exact pure h
  | none => exact second s h

/-- What the run answers, if it does. -/
theorem value {r : Run E S H α} {post : α → S → Prop} (h : Meets lim r post) {a : α} {s : S}
    (hr : r.result = .value a s) : post a s := by
  obtain ⟨-, hresult⟩ := h
  rw [hr] at hresult
  exact hresult

theorem halted {r : Run E S H α} {post : α → S → Prop} (h : Meets lim r post) {e : H}
    (hr : r.result = .halted e) : lim.halt e := by
  obtain ⟨-, hresult⟩ := h
  rw [hr] at hresult
  exact hresult

theorem ends_wrong {r : Run E S H α} {post : α → S → Prop} (h : Meets lim r post)
    (hr : r.result = .wrong) : lim.wrong := by
  obtain ⟨-, hresult⟩ := h
  rw [hr] at hresult
  exact hresult

theorem not_timeout {r : Run E S H α} {post : α → S → Prop} (h : Meets lim r post) :
    r.result ≠ .timeout := by
  intro hr
  obtain ⟨-, hresult⟩ := h
  rw [hr] at hresult
  exact hresult

end Meets

end WinVm.Lib
