import WinVm.Lib.Tiling

/-!
# Checks

A `Check` passes with a value, fails with a report, or has no meaning where the code it models
panics. `walkBlocks` checks consecutive blocks, each as long as a check of it says.

Results: `Check.forM_passes_iff`, `Check.forM_fails`; `walkBlocks_eq` and `walkBlocks_tiles`, a walk
visits the blocks of a tiling.
-/

namespace WinVm.Lib

abbrev Check (ε α : Type) := ExceptT ε Option α

namespace Check

variable {ε α β : Type}

def Passes (x : Check ε α) (a : α) : Prop := x = ExceptT.mk (some (.ok a))

def Fails (x : Check ε α) (e : ε) : Prop := x = ExceptT.mk (some (.error e))

/-- What the code expects to be there. -/
def expect (x : Option α) : Check ε α := ExceptT.lift x

/-- A guard that reports. -/
def reject (p : Prop) [Decidable p] (e : ε) : Check ε Unit := if p then throw e else pure ()

theorem passes_pure (a : α) : (pure a : Check ε α).Passes a := rfl

theorem Passes.bind {x : Check ε α} {a : α} (h : x.Passes a) (f : α → Check ε β) :
    x >>= f = f a := by
  rw [h]
  rfl

theorem Fails.bind {x : Check ε α} {e : ε} (h : x.Fails e) (f : α → Check ε β) :
    (x >>= f).Fails e := by
  rw [h]
  rfl

theorem passes_inj {x : Check ε α} {a b : α} (h : x.Passes a) (h' : x.Passes b) : a = b :=
  Except.ok.inj (Option.some.inj (h.symm.trans h'))

theorem bind_passes_iff {x : Check ε α} {f : α → Check ε β} {b : β} :
    (x >>= f).Passes b ↔ ∃ a, x.Passes a ∧ (f a).Passes b := by
  constructor
  · intro h
    cases hx : x.run with
    | none =>
      rw [show x = ExceptT.mk none from hx] at h
      cases h
    | some r =>
      cases r with
      | error e =>
        rw [show x = ExceptT.mk (some (.error e)) from hx] at h
        cases h
      | ok a =>
        have passes : x.Passes a := hx
        exact ⟨a, passes, passes.bind f ▸ h⟩
  · rintro ⟨a, first, second⟩
    rw [first.bind]
    exact second

theorem pure_passes_iff {a b : α} : (pure a : Check ε α).Passes b ↔ a = b :=
  ⟨fun h => passes_inj (passes_pure a) h, fun h => h ▸ passes_pure a⟩

theorem expect_passes_iff {x : Option α} {a : α} : (expect x : Check ε α).Passes a ↔ x = some a := by
  cases x with
  | none =>
    constructor
    · intro h
      cases h
    · intro h
      cases h
  | some b =>
    constructor
    · intro h
      exact congrArg some (passes_inj (rfl : (expect (some b) : Check ε α).Passes b) h)
    · rintro ⟨⟩
      exact rfl

theorem reject_passes_iff {p : Prop} [Decidable p] {e : ε} : (reject p e).Passes () ↔ ¬ p := by
  unfold reject
  split
  · rename_i hp
    refine ⟨fun h => ?_, fun h => absurd hp h⟩
    cases h
  · rename_i hp
    exact ⟨fun _ => hp, fun _ => passes_pure ()⟩

theorem reject_fails {p : Prop} [Decidable p] (e : ε) (h : p) : (reject p e).Fails e := if_pos h

/-! ## Loops -/

theorem forM_passes_iff {l : List α} {f : α → Check ε Unit} :
    (l.forM f).Passes () ↔ ∀ a ∈ l, (f a).Passes () := by
  induction l with
  | nil => exact ⟨fun _ _ mem => absurd mem List.not_mem_nil, fun _ => passes_pure ()⟩
  | cons a l ih =>
    show (f a >>= fun _ => l.forM f).Passes () ↔ _
    rw [bind_passes_iff, List.forall_mem_cons, ← ih]
    exact ⟨fun h => h.elim fun _ both => both, fun h => ⟨(), h⟩⟩

/-- The first element that is reported ends the loop. -/
theorem forM_fails {l l' : List α} {a : α} {f : α → Check ε Unit} {e : ε}
    (before : ∀ b ∈ l, (f b).Passes ()) (fails : (f a).Fails e) : ((l ++ a :: l').forM f).Fails e := by
  induction l with
  | nil => exact fails.bind _
  | cons b l ih =>
    show (f b >>= fun _ => (l ++ a :: l').forM f).Fails e
    rw [(before b List.mem_cons_self).bind]
    exact ih fun c mem => before c (List.mem_cons_of_mem _ mem)

theorem forM_append (l l' : List α) (f : α → Check ε Unit) :
    (l ++ l').forM f = l.forM f >>= fun _ => l'.forM f := by
  induction l with
  | nil => rfl
  | cons a l ih =>
    show (f a >>= fun _ => (l ++ l').forM f) = (f a >>= fun _ => l.forM f) >>= _
    rw [ih, bind_assoc]

theorem forM_map (l : List α) (g : α → β) (f : β → Check ε Unit) :
    (l.map g).forM f = l.forM fun a => f (g a) := by
  induction l with
  | nil => rfl
  | cons a l ih =>
    show (f (g a) >>= fun _ => (l.map g).forM f) = _
    rw [ih]
    rfl

end Check

/-! ## Walks -/

section Walk

variable {ε : Type} (size : Nat → Check ε Nat) (visit : Nat → Check ε Unit) (top : Nat)

/-- From one block to the next until `top` is reached or passed, with the end and the number of
blocks; as much fuel as there are addresses is enough. -/
def walkBlocks : Nat → Nat → Check ε (Nat × Nat)
  | 0, addr => pure (addr, 0)
  | fuel + 1, addr =>
    if addr < top then do
      let words ← size addr
      visit addr
      let r ← walkBlocks fuel (addr + words)
      pure (r.1, r.2 + 1)
    else pure (addr, 0)

variable {size visit top} {sz : Nat → Nat} {fuel addr : Nat} {l : List Nat}

/-- A walk over blocks whose sizes check. -/
theorem walkBlocks_eq (tiles : Tiles sz addr top l) (sizes : ∀ a ∈ l, (size a).Passes (sz a))
    (enough : top ≤ addr + fuel) :
    walkBlocks size visit top fuel addr = l.forM visit >>= fun _ => pure (top, l.length) := by
  induction fuel generalizing addr l with
  | zero =>
    cases tiles with
    | nil => rfl
    | cons positive rest =>
      have := rest.le
      omega
  | succ fuel ih =>
    unfold walkBlocks
    cases tiles with
    | nil =>
      rw [if_neg (Nat.lt_irrefl _)]
      rfl
    | @cons _ _ l positive rest =>
      have le := rest.le
      rw [if_pos (by omega), (sizes addr List.mem_cons_self).bind,
        ih rest (fun a mem => sizes a (List.mem_cons_of_mem _ mem)) (by omega)]
      show _ = (visit addr >>= fun _ => l.forM visit) >>= _
      simp only [bind_assoc, pure_bind, List.length_cons]

/-- A walk that ends where it should has found a tiling. -/
theorem walkBlocks_tiles (agrees : ∀ a n, (size a).Passes n → n = sz a ∧ 0 < n)
    (enough : top ≤ addr + fuel) {n : Nat}
    (passes : (walkBlocks size visit top fuel addr).Passes (top, n)) :
    ∃ l, Tiles sz addr top l ∧ ∀ a ∈ l, (size a).Passes (sz a) := by
  induction fuel generalizing addr n with
  | zero =>
    obtain rfl : addr = top := congrArg Prod.fst (Check.pure_passes_iff.mp passes)
    exact ⟨[], .nil addr, fun _ mem => absurd mem List.not_mem_nil⟩
  | succ fuel ih =>
    unfold walkBlocks at passes
    split at passes
    · obtain ⟨words, sized, rest⟩ := Check.bind_passes_iff.mp passes
      obtain ⟨-, -, rest⟩ := Check.bind_passes_iff.mp rest
      obtain ⟨r, walked, ended⟩ := Check.bind_passes_iff.mp rest
      obtain ⟨rfl, positive⟩ := agrees addr words sized
      have last : r.1 = top := congrArg Prod.fst (Check.pure_passes_iff.mp ended)
      rw [show r = (top, r.2) from Prod.ext last rfl] at walked
      obtain ⟨l, tiles, sizes⟩ := ih (by omega) walked
      refine ⟨addr :: l, .cons positive tiles, fun a mem => ?_⟩
      rcases List.mem_cons.mp mem with rfl | mem
      · exact sized
      · exact sizes a mem
    · obtain rfl : addr = top := congrArg Prod.fst (Check.pure_passes_iff.mp passes)
      exact ⟨[], .nil addr, fun _ mem => absurd mem List.not_mem_nil⟩

end Walk

end WinVm.Lib
