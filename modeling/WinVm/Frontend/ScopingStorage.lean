import Mathlib.Data.Finset.Basic
import Mathlib.Data.Fintype.EquivFin
import Mathlib.Data.List.Pairwise
import WinVm.Frontend.Scoping

/-!
# Storage and resolution

A finished scope gives its variables distinct cells, below the slots that code generation
hoists to. On the chain of the units around an occurrence, `resolve` stops at the innermost
unit that has the name, and the access it answers reaches that unit's variable: the
capture marks and the relayed Contexts are just those the walk of the Context chain needs.
-/

namespace WinVm.Frontend

/-! ## The slots of a scope -/

/-- How many of the variables from `i` on take a fresh frame slot. -/
def fresh (argc : Nat) : Nat → List (String × Bool) → Nat
  | _, [] => 0
  | i, (_, captured) :: rest =>
    (if i < argc ∨ captured then 0 else 1) + fresh argc (i + 1) rest

theorem fresh_eq (argc i : Nat) (l : List (String × Bool)) :
    fresh argc i l = ((l.map (·.2)).drop (argc - i)).count false := by
  induction l generalizing i with
  | nil => simp [fresh]
  | cons v rest ih =>
    obtain ⟨name, captured⟩ := v
    rw [fresh, ih]
    by_cases param : i < argc
    · have step : argc - i = (argc - (i + 1)) + 1 := by omega
      rw [step]
      simp [param]
    · have none : argc - i = 0 ∧ argc - (i + 1) = 0 := by omega
      rw [none.1, none.2]
      cases captured <;> simp [param, Nat.add_comm]

theorem assignSlots_get? (argc i nf nc : Nat) (l : List (String × Bool)) (j : Nat) :
    ((assignSlots argc i nf nc l)[j]?.map fun v => (v.1, v.2.captured)) = l[j]? := by
  induction l generalizing i nf nc j with
  | nil => rfl
  | cons v rest ih =>
    cases j with
    | zero => rfl
    | succ j => simpa [assignSlots] using ih _ _ _ j

/-- A captured variable has a Context slot from `nc` on, another a parameter's place or a
frame slot from `nf` on. -/
def VarSlot.Placed (slot : VarSlot) (argc i nf nc fresh caps : Nat) : Prop :=
  (slot.captured = true → ∃ k, slot.ctxSlot = some k ∧ nc ≤ k ∧ k < nc + caps) ∧
  (slot.captured = false → ∃ f, slot.frameSlot = some f ∧
    (i ≤ f ∧ f < argc ∨ nf ≤ f ∧ f < nf + fresh))

theorem assignSlots_placed (argc : Nat) (l : List (String × Bool)) :
    ∀ i nf nc, ∀ v ∈ assignSlots argc i nf nc l,
      v.2.Placed argc i nf nc (fresh argc i l) ((l.map (·.2)).count true) := by
  induction l with
  | nil => simp [assignSlots]
  | cons v rest ih =>
    obtain ⟨name, captured⟩ := v
    intro i nf nc v mem
    rcases List.mem_cons.mp mem with rfl | mem
    · refine ⟨?_, ?_⟩
      · rintro rfl
        exact ⟨nc, rfl, by simp⟩
      · rintro rfl
        by_cases param : i < argc
        · exact ⟨i, by simp [param], .inl ⟨Nat.le_refl i, param⟩⟩
        · exact ⟨nf, by simp [param], .inr (by simp only [fresh, param]; simp <;> omega)⟩
    · obtain ⟨ctx, frame⟩ := ih _ _ _ v mem
      refine ⟨fun isCaptured => ?_, fun notCaptured => ?_⟩
      · obtain ⟨k, is, low, high⟩ := ctx isCaptured
        refine ⟨k, is, ?_, ?_⟩
        · cases captured <;> simp at low <;> omega
        · cases captured <;> simp at high ⊢ <;> omega
      · obtain ⟨f, is, place⟩ := frame notCaptured
        refine ⟨f, is, ?_⟩
        simp only [fresh]
        by_cases fixed : i < argc ∨ captured = true
        · rw [if_pos fixed] at place ⊢
          omega
        · rw [if_neg fixed] at place ⊢
          omega

/-- The cells of two variables differ. -/
def VarSlot.Apart (a b : VarSlot) : Prop :=
  (a.captured = true → b.captured = true → a.ctxSlot ≠ b.ctxSlot) ∧
  (a.captured = false → b.captured = false → a.frameSlot ≠ b.frameSlot)

theorem assignSlots_apart (argc : Nat) (l : List (String × Bool)) :
    ∀ i nf nc, argc ≤ nf → (assignSlots argc i nf nc l).Pairwise fun a b => a.2.Apart b.2 := by
  induction l with
  | nil => simp [assignSlots]
  | cons v rest ih =>
    obtain ⟨name, captured⟩ := v
    intro i nf nc above
    refine List.Pairwise.cons (fun w mem => ?_) (ih _ _ _ (by split <;> omega))
    obtain ⟨ctx, frame⟩ := assignSlots_placed argc rest _ _ _ w mem
    refine ⟨?_, ?_⟩
    · rintro rfl isCaptured same
      obtain ⟨k, is, low, -⟩ := ctx isCaptured
      rw [is] at same
      simp at same low
      omega
    · rintro rfl notCaptured same
      obtain ⟨f, is, place⟩ := frame notCaptured
      rw [is] at same
      by_cases param : i < argc
      · simp [param] at same place
        omega
      · simp [param] at same place
        omega

theorem VarSlot.cell_ne {a b : VarSlot} (apart : a.Apart b) {id : Nat}
    (some : a.cell id ≠ none) : a.cell id ≠ b.cell id := by
  unfold VarSlot.cell at some ⊢
  cases ha : a.captured <;> cases hb : b.captured <;> simp only [ha] at some ⊢ <;> intro same
  · refine apart.2 ha hb ?_
    cases fa : a.frameSlot <;> cases fb : b.frameSlot <;> simp_all
  · cases fa : a.frameSlot <;> cases fb : b.ctxSlot <;> simp_all
  · cases fa : a.ctxSlot <;> cases fb : b.frameSlot <;> simp_all
  · refine apart.1 ha hb ?_
    cases fa : a.ctxSlot <;> cases fb : b.ctxSlot <;> simp_all

/-! ## Finished scopes -/

/-- The scope of a unit is in the walk, with the unit's variables. -/
structure Scoped (w : Walk) (u : UnitScope) (outer : Option Nat) (b : ScopeBuilder) : Prop where
  found : w.builders[u.scope]? = some b
  parent : b.parent = outer
  isMethod : b.isMethod = outer.isNone
  names : b.names = u.names
  captured : b.captured = u.names.map fun _ => false
  argc : b.argc ≤ u.names.length

/-- What the analysis answers for a unit. -/
structure Finished (w : Walk) (u : UnitScope) (outer : Option Nat) (info : ScopeInfo) : Prop where
  found : w.finish[u.scope]? = some info
  parent : info.parent = outer
  names : info.vars.map (·.1) = u.names
  captured : ∀ i v, info.vars[i]? = some v → v.2.captured = w.isCaptured u.scope i
  hasCtx : ∀ v ∈ info.vars, v.2.captured = true → info.hasCtx = true
  relays : info.capturesCtx = (outer.isSome && w.needsChain u.scope)
  placed : ∀ v ∈ info.vars,
    v.2.Placed info.argc 0 info.argc 0 info.frameTempCount info.nctx
  apart : info.vars.Pairwise fun a b => a.2.Apart b.2
  frames : info.argc + info.frameTempCount ≤ u.names.length
  contexts : info.nctx ≤ u.names.length

theorem Scoped.finished {w : Walk} {u : UnitScope} {outer : Option Nat} {b : ScopeBuilder}
    (known : Scoped w u outer b) : ∃ info, Finished w u outer info := by
  let marks := b.captured.mapIdx fun i c => c || w.isCaptured u.scope i
  have marksGet : ∀ i, i < u.names.length → marks[i]? = some (w.isCaptured u.scope i) := by
    intro i inside
    simp [marks, known.captured, inside]
  have marksLength : marks.length = u.names.length := by
    simp [marks, known.captured]
  let info := finalizeScope { b with captured := marks } (!b.isMethod && w.needsChain u.scope)
  have sameLength : marks.length = b.names.length := by rw [marksLength, known.names]
  have zipSnd : ((b.names.zip marks).map (·.2)) = marks := List.map_snd_zip (Nat.le_of_eq sameLength)
  have varsAre : info.vars = assignSlots b.argc 0 b.argc 0 (b.names.zip marks) := rfl
  have placed : ∀ v ∈ info.vars, v.2.Placed info.argc 0 info.argc 0 info.frameTempCount info.nctx := by
    intro v mem
    have placed := assignSlots_placed b.argc (b.names.zip marks) 0 b.argc 0 v (varsAre ▸ mem)
    rw [fresh_eq, zipSnd] at placed
    exact placed
  have zipGet : ∀ (i : Nat) (v : String × VarSlot), info.vars[i]? = some v →
      (b.names.zip marks)[i]? = some (v.1, v.2.captured) := by
    intro i v is
    have get := assignSlots_get? b.argc 0 b.argc 0 (b.names.zip marks) i
    rw [← varsAre, is] at get
    exact get.symm
  refine ⟨info, ?_, known.parent, ?_, ?_, ?_, ?_, placed, ?_, ?_, ?_⟩
  · simp [Walk.finish, known.found, info, marks]
  · refine List.ext_getElem? fun i => ?_
    have get := congrArg (Option.map Prod.fst)
      (assignSlots_get? b.argc 0 b.argc 0 (b.names.zip marks) i)
    rw [← varsAre] at get
    rw [List.getElem?_map, ← known.names]
    have zipFst : ((b.names.zip marks).map (·.1)) = b.names := List.map_fst_zip (Nat.le_of_eq sameLength.symm)
    calc (info.vars[i]?).map (·.1) = ((b.names.zip marks)[i]?).map (·.1) := by
          rw [← get]
          cases info.vars[i]? <;> rfl
      _ = b.names[i]? := by rw [← List.getElem?_map, zipFst]
  · intro i v is
    have pair := zipGet i v is
    rw [List.getElem?_zip_eq_some] at pair
    have inside : i < u.names.length := by
      rw [← marksLength]
      exact (List.getElem?_eq_some_iff.mp pair.2).1
    rw [marksGet i inside] at pair
    exact (Option.some.inj pair.2).symm
  · intro v mem captured
    obtain ⟨i, inside, is⟩ := List.getElem_of_mem mem
    have pair := zipGet i v (by rw [List.getElem?_eq_getElem inside, is])
    rw [List.getElem?_zip_eq_some, captured] at pair
    have positive : 0 < marks.count true :=
      List.count_pos_iff.mpr (List.mem_of_getElem? pair.2)
    exact decide_eq_true positive
  · change (!b.isMethod && w.needsChain u.scope) = _
    rw [known.isMethod]
    cases outer <;> rfl
  · exact assignSlots_apart b.argc _ 0 b.argc 0 (Nat.le_refl _)
  · change b.argc + (marks.drop b.argc).count false ≤ _
    have few : (marks.drop b.argc).count false ≤ (marks.drop b.argc).length := List.count_le_length
    rw [List.length_drop, marksLength] at few
    have := known.argc
    omega
  · change marks.count true ≤ _
    rw [← marksLength]
    exact List.count_le_length

/-! ## The chain of the units -/

/-- The units of a chain are scopes of the walk, each the parent of the one before. -/
def ChainOf (w : Walk) : List UnitScope → Prop
  | [] => False
  | [u] => ∃ b, Scoped w u none b
  | u :: v :: outer => (∃ b, Scoped w u (some v.scope) b) ∧ v.scope < u.scope ∧ ChainOf w (v :: outer)

variable {w : Walk}

theorem chainFrom_eq {u : UnitScope} {outer : List UnitScope} (chain : ChainOf w (u :: outer))
    {parent : Nat → Option Nat}
    (parents : ∀ v p b, Scoped w v p b → parent v.scope = p) :
    ∀ fuel, u.scope < fuel → chainFrom parent fuel u.scope = (u :: outer).map UnitScope.scope := by
  induction outer generalizing u with
  | nil =>
    intro fuel enough
    obtain ⟨b, known⟩ := chain
    obtain ⟨fuel, rfl⟩ := Nat.exists_eq_add_of_lt (Nat.zero_lt_of_lt enough)
    simp [chainFrom, parents u none b known]
  | cons v outer ih =>
    intro fuel enough
    obtain ⟨⟨b, known⟩, lower, rest⟩ := chain
    obtain ⟨fuel, rfl⟩ := Nat.exists_eq_add_of_lt (Nat.zero_lt_of_lt enough)
    have tail := ih rest (0 + fuel) (by omega)
    simp only [chainFrom, parents u _ b known, tail, List.map_cons]

theorem Scoped.parent_eq {u : UnitScope} {p : Option Nat} {b : ScopeBuilder}
    (known : Scoped w u p b) : w.parent u.scope = p := by
  simp [Walk.parent, known.found, known.parent]

theorem Scoped.names_eq {u : UnitScope} {p : Option Nat} {b : ScopeBuilder}
    (known : Scoped w u p b) : w.names u.scope = u.names := by
  simp [Walk.names, known.found, known.names]

theorem Scoped.finished_parent {u : UnitScope} {p : Option Nat} {b : ScopeBuilder}
    (known : Scoped w u p b) : CaptureInfo.parent ⟨w.finish⟩ u.scope = p := by
  obtain ⟨info, done⟩ := known.finished
  simp [CaptureInfo.parent, done.found, done.parent]

theorem ChainOf.staticChain {u : UnitScope} {outer : List UnitScope}
    (chain : ChainOf w (u :: outer)) :
    staticChain w.parent u.scope = (u :: outer).map UnitScope.scope :=
  chainFrom_eq chain (fun _ _ _ known => known.parent_eq) _ (Nat.lt_succ_self _)

theorem ChainOf.finishedChain {u : UnitScope} {outer : List UnitScope}
    (chain : ChainOf w (u :: outer)) :
    Frontend.staticChain (CaptureInfo.parent ⟨w.finish⟩) u.scope =
      (u :: outer).map UnitScope.scope :=
  chainFrom_eq chain (fun _ _ _ known => known.finished_parent) _ (Nat.lt_succ_self _)

theorem ChainOf.known {chain : List UnitScope} (ok : ChainOf w chain) :
    ∀ u ∈ chain, ∃ p b, Scoped w u p b := by
  induction chain with
  | nil => simp
  | cons u outer ih =>
    intro x mem
    cases outer with
    | nil =>
      obtain ⟨b, known⟩ := ok
      obtain rfl := List.mem_singleton.mp mem
      exact ⟨none, b, known⟩
    | cons v outer =>
      obtain ⟨⟨b, known⟩, -, rest⟩ := ok
      rcases List.mem_cons.mp mem with rfl | mem
      · exact ⟨_, b, known⟩
      · exact ih rest x mem

theorem ChainOf.tail {u v : UnitScope} {outer : List UnitScope} (ok : ChainOf w (u :: v :: outer)) :
    ChainOf w (v :: outer) :=
  ok.2.2

/-- Scope ids fall along the chain. -/
theorem ChainOf.lower {u : UnitScope} {outer : List UnitScope} (ok : ChainOf w (u :: outer)) :
    ∀ v ∈ outer, v.scope < u.scope := by
  induction outer generalizing u with
  | nil => simp
  | cons v outer ih =>
    intro x mem
    rcases List.mem_cons.mp mem with rfl | mem
    · exact ok.2.1
    · exact Nat.lt_trans (ih ok.tail x mem) ok.2.1

/-- The chain up to a unit is what stands before it. -/
theorem ChainOf.takeWhile {pre post : List UnitScope} {t : UnitScope}
    (ok : ChainOf w (pre ++ t :: post)) :
    ((pre ++ t :: post).map UnitScope.scope).takeWhile (fun s => s ≠ t.scope) =
      pre.map UnitScope.scope := by
  induction pre with
  | nil => simp
  | cons u pre ih =>
    have differ : u.scope ≠ t.scope := by
      have := ok.lower t (by simp)
      omega
    have rest : ChainOf w (pre ++ t :: post) := by
      cases pre with
      | nil => exact ok.tail
      | cons v pre => exact ok.tail
    simp only [List.cons_append, List.map_cons, List.takeWhile_cons]
    rw [ih rest]
    simp [differ]

/-! ## Resolution -/

theorem contains_names {u : UnitScope} {p : Option Nat} {b : ScopeBuilder} (known : Scoped w u p b)
    (name : String) : (w.names u.scope).contains name = decide (name ∈ u.names) := by
  rw [known.names_eq]
  simp

theorem find_var {u : UnitScope} {p : Option Nat} {info : ScopeInfo}
    (done : Finished w u p info) (name : String) :
    CaptureInfo.find ⟨w.finish⟩ u.scope name =
      if name ∈ u.names then (info.vars[u.names.idxOf name]?).map (·.2) else none := by
  have general : ∀ (vars : List (String × VarSlot)),
      (vars.find? fun v => v.1 = name) =
        if name ∈ vars.map (·.1) then vars[(vars.map (·.1)).idxOf name]? else none := by
    intro vars
    induction vars with
    | nil => rfl
    | cons v vars ih =>
      by_cases same : v.1 = name
      · simp [same]
      · have back : ¬ name = v.1 := fun h => same h.symm
        simp only [List.find?_cons, same, decide_false, ih, List.map_cons, List.mem_cons, back,
          false_or, List.idxOf_cons_ne _ same, List.getElem?_cons_succ]
  simp only [CaptureInfo.find, done.found, Option.bind_some, ScopeInfo.find, general, done.names]
  split <;> rfl

section

variable {u t : UnitScope} {chain pre post : List UnitScope} {name : String}

theorem findSome?_chain {β : Type} (f : Nat → Option β) (b : β)
    (before : ∀ v ∈ pre, f v.scope = none) (here : f t.scope = some b) :
    ((pre ++ t :: post).map UnitScope.scope).findSome? f = some b := by
  rw [List.map_append, List.findSome?_append, List.findSome?_eq_none_iff.mpr, Option.none_or]
  · simp [here]
  · intro s mem
    obtain ⟨v, inPre, rfl⟩ := List.mem_map.mp mem
    exact before v inPre

/-- A name that the chain has is resolved at the innermost unit that has it. -/
theorem resolve_at (as8 : Nat → Nat) (split : u :: chain = pre ++ t :: post)
    (ok : ChainOf w (u :: chain)) (before : ∀ v ∈ pre, name ∉ v.names) (here : name ∈ t.names)
    {p : Option Nat} {info : ScopeInfo} (done : Finished w t p info) :
    ∃ v, info.vars[t.names.idxOf name]? = some v ∧
      CaptureInfo.resolve as8 ⟨w.finish⟩ u.scope name =
        some (v.2.resolved as8 (pre.countP fun v => CaptureInfo.hasCtx ⟨w.finish⟩ v.scope)) := by
  have length : t.names.idxOf name < info.vars.length := by
    have := congrArg List.length done.names
    rw [List.length_map] at this
    rw [this]
    exact List.idxOf_lt_length_of_mem here
  refine ⟨info.vars[t.names.idxOf name], List.getElem?_eq_getElem length, ?_⟩
  have depth : CaptureInfo.depthTo ⟨w.finish⟩ u.scope t.scope =
      pre.countP fun v => CaptureInfo.hasCtx ⟨w.finish⟩ v.scope := by
    rw [CaptureInfo.depthTo, ok.finishedChain, split, ChainOf.takeWhile (split ▸ ok),
      List.countP_map]
    rfl
  rw [CaptureInfo.resolve, ok.finishedChain, split]
  refine findSome?_chain _ _ (fun v inPre => ?_) ?_
  · obtain ⟨q, b, known⟩ := ok.known v (by rw [split]; simp [inPre])
    obtain ⟨info', done'⟩ := known.finished
    simp [find_var done', before v inPre]
  · rw [find_var done, if_pos here, List.getElem?_eq_getElem length, depth]
    rfl

theorem resolve_none (as8 : Nat → Nat) (ok : ChainOf w (u :: chain))
    (absent : ∀ v ∈ u :: chain, name ∉ v.names) :
    CaptureInfo.resolve as8 ⟨w.finish⟩ u.scope name = none := by
  rw [CaptureInfo.resolve, ok.finishedChain, List.findSome?_eq_none_iff]
  intro s mem
  obtain ⟨v, inChain, rfl⟩ := List.mem_map.mp mem
  obtain ⟨q, b, known⟩ := ok.known v inChain
  obtain ⟨info, done⟩ := known.finished
  simp [find_var done, absent v inChain]

theorem findDefiningScope_at (split : u :: chain = pre ++ t :: post) (ok : ChainOf w (u :: chain))
    (before : ∀ v ∈ pre, name ∉ v.names) (here : name ∈ t.names) :
    w.findDefiningScope u.scope name = some t.scope := by
  have found : ∀ v ∈ u :: chain, (w.names v.scope).contains name = decide (name ∈ v.names) := by
    intro v mem
    obtain ⟨q, b, known⟩ := ok.known v mem
    exact contains_names known name
  rw [Walk.findDefiningScope, ok.staticChain, split, List.map_append, List.find?_append,
    List.find?_eq_none.mpr, Option.none_or]
  · rw [List.map_cons, List.find?_cons, found t (by rw [split]; simp)]
    simp [here]
  · intro s mem
    obtain ⟨v, inPre, rfl⟩ := List.mem_map.mp mem
    rw [found v (by rw [split]; simp [inPre])]
    simp [before v inPre]

/-- A reference that crosses units captures its variable, and every unit on the way relays
a Context. -/
theorem crossing (split : u :: chain = pre ++ t :: post) (ok : ChainOf w (u :: chain))
    (before : ∀ v ∈ pre, name ∉ v.names) (here : name ∈ t.names)
    (referenced : (u.scope, name) ∈ w.refs) (outside : pre ≠ []) :
    w.isCaptured t.scope (t.names.idxOf name) = true ∧ ∀ v ∈ pre, w.needsChain v.scope = true := by
  have defining := findDefiningScope_at split ok before here
  obtain ⟨head, pre', rfl⟩ := List.exists_cons_of_ne_nil outside
  obtain ⟨rfl, rest⟩ : u = head ∧ chain = pre' ++ t :: post := by simpa using split
  have differ : t.scope ≠ u.scope := by
    have := ok.lower t (by simp [rest])
    omega
  obtain ⟨q, b, known⟩ := ok.known t (by simp [rest])
  have relays : w.relays (u.scope, name) = (u :: pre').map UnitScope.scope := by
    rw [Walk.relays, defining]
    dsimp only
    rw [ok.staticChain, split, ChainOf.takeWhile (split ▸ ok)]
  constructor
  · rw [Walk.isCaptured, List.any_eq_true]
    refine ⟨_, referenced, ?_⟩
    simp [Walk.mark, defining, differ, known.names_eq]
  · intro v mem
    rw [Walk.needsChain, List.any_eq_true]
    refine ⟨_, referenced, ?_⟩
    rw [relays, List.contains_iff_mem]
    exact List.mem_map.mpr ⟨v, mem, rfl⟩

end

/-! ## Running -/

section

variable {c : CaptureInfo} {chain : List UnitScope} {acts : List Activation}

theorem Active.length_eq (active : Active c chain acts) : acts.length = chain.length := by
  induction active with
  | method => rfl
  | block id found made fresh ih => simpa using ih

theorem Active.ids_nodup (active : Active c chain acts) : (acts.map Activation.id).Nodup := by
  induction active with
  | method => simp
  | block id found made fresh ih => exact List.nodup_cons.mpr ⟨fresh, ih⟩

theorem Active.head {t : UnitScope} (active : Active c (t :: chain) acts) :
    ∃ info id captured rest, c.scopes[t.scope]? = some info ∧
      acts = activate info id captured :: rest := by
  cases active with
  | method id found => exact ⟨_, id, none, [], found, rfl⟩
  | block id found made fresh => exact ⟨_, id, _, _, found, rfl⟩

theorem Active.uncons {t : UnitScope} (active : Active c (t :: chain) acts) (inner : chain ≠ []) :
    ∃ info id creator rest, c.scopes[t.scope]? = some info ∧ Active c chain (creator :: rest) ∧
      acts = activate info id creator.context :: creator :: rest := by
  cases active with
  | method id found => exact absurd rfl inner
  | block id found made fresh => exact ⟨_, id, _, _, found, made, rfl⟩

/-- Every chain of the walk can be activated. -/
theorem exists_active {w : Walk} {chain : List UnitScope} (ok : ChainOf w chain) :
    ∃ acts, Active ⟨w.finish⟩ chain acts := by
  induction chain with
  | nil => exact ok.elim
  | cons u outer ih =>
    cases outer with
    | nil =>
      obtain ⟨b, known⟩ := ok
      obtain ⟨info, done⟩ := known.finished
      exact ⟨_, .method 0 done.found⟩
    | cons v outer =>
      obtain ⟨⟨b, known⟩, -, rest⟩ := ok
      obtain ⟨info, done⟩ := known.finished
      obtain ⟨acts, made⟩ := ih rest
      obtain ⟨id, fresh⟩ := Infinite.exists_notMem_finset (acts.map Activation.id).toFinset
      match acts, made with
      | creator :: others, made =>
        exact ⟨_, .block id done.found made (by simpa using fresh)⟩

variable {w : Walk} {u t : UnitScope} {pre post : List UnitScope} {name : String}

/-- Over units that relay their Context, the walk of the units that have one ends at the
Context of the unit it is meant for. -/
theorem ctxTempWalk_at (active : Active ⟨w.finish⟩ (pre ++ t :: post) acts)
    (ok : ChainOf w (pre ++ t :: post)) (relays : ∀ v ∈ pre, w.needsChain v.scope = true)
    (has : CaptureInfo.hasCtx ⟨w.finish⟩ t.scope = true) :
    ∃ a context, acts[pre.length]? = some a ∧ context.owner = a.id ∧
      ctxTempWalk (pre.countP fun v => CaptureInfo.hasCtx ⟨w.finish⟩ v.scope)
        (acts.head?.bind Activation.context) = some context := by
  induction pre generalizing acts with
  | nil =>
    obtain ⟨info, id, captured, rest, found, rfl⟩ := active.head
    have own : info.hasCtx = true := by
      simpa [CaptureInfo.hasCtx, found] using has
    refine ⟨_, .mk id (if info.capturesCtx then captured else none), rfl, rfl, ?_⟩
    simp [ctxTempWalk, activate, own]
  | cons v pre ih =>
    have inner : pre ++ t :: post ≠ [] := by simp
    obtain ⟨info, id, creator, rest, found, made, rfl⟩ := Active.uncons active inner
    have rest_ok : ChainOf w (pre ++ t :: post) := by
      cases pre with
      | nil => exact ok.tail
      | cons x pre => exact ok.tail
    obtain ⟨a, context, at_, owner, walk⟩ := ih made rest_ok fun x mem => relays x (by simp [mem])
    obtain ⟨q, b, known⟩ := ok.known v (by simp)
    obtain ⟨info', done⟩ := known.finished
    obtain rfl : info' = info := by
      rw [done.found] at found
      exact Option.some.inj found
    have isBlock : q.isSome = true := by
      cases pre with
      | nil =>
        obtain ⟨⟨b', known'⟩, -⟩ := ok
        rw [← known.parent_eq, known'.parent_eq]
        rfl
      | cons x pre =>
        obtain ⟨⟨b', known'⟩, -⟩ := ok
        rw [← known.parent_eq, known'.parent_eq]
        rfl
    have captures : info'.capturesCtx = true := by
      rw [done.relays, isBlock, relays v (by simp)]
      rfl
    refine ⟨a, context, by simpa using at_, owner, ?_⟩
    rw [List.head?_cons, Option.bind_some] at walk
    rw [List.countP_cons, List.head?_cons, Option.bind_some]
    have own : CaptureInfo.hasCtx ⟨w.finish⟩ v.scope = info'.hasCtx := by
      simp [CaptureInfo.hasCtx, found]
    rw [own]
    cases has' : info'.hasCtx with
    | true => simpa [activate, captures, has', ctxTempWalk, Context.homeHint] using walk
    | false => simpa [activate, captures, has'] using walk

/-- The access that resolution answers reaches the variable it resolves to, in its
activation. -/
theorem reach_at {as8 : Nat → Nat} (small : ∀ n < 256, as8 n = n) {outer : List UnitScope}
    (split : u :: outer = pre ++ t :: post) (active : Active ⟨w.finish⟩ (u :: outer) acts)
    (ok : ChainOf w (u :: outer)) (before : ∀ v ∈ pre, name ∉ v.names) (here : name ∈ t.names)
    (referenced : (u.scope, name) ∈ w.refs) {p : Option Nat} {info : ScopeInfo}
    (done : Finished w t p info) (depth : pre.length < 256) (size : t.names.length ≤ 256) :
    ∃ v a r, info.vars[t.names.idxOf name]? = some v ∧ acts[pre.length]? = some a ∧
      CaptureInfo.resolve as8 ⟨w.finish⟩ u.scope name = some r ∧
      (r.varRef as8).reach acts = v.2.cell a.id ∧ v.2.cell a.id ≠ none := by
  obtain ⟨v, isVar, resolved⟩ := resolve_at as8 split ok before here done
  have mem : v ∈ info.vars := List.mem_of_getElem? isVar
  have placed := done.placed v mem
  have mark := done.captured _ v isVar
  have cross := crossing split ok before here referenced
  cases captured : v.2.captured with
  | true =>
    obtain ⟨k, slot, -, high⟩ := placed.1 captured
    have has : CaptureInfo.hasCtx ⟨w.finish⟩ t.scope = true := by
      simpa [CaptureInfo.hasCtx, done.found] using done.hasCtx v mem captured
    have relays : ∀ x ∈ pre, w.needsChain x.scope = true := fun x inPre =>
      (cross (List.ne_nil_of_mem inPre)).2 x inPre
    obtain ⟨a, context, at_, owner, walk⟩ :=
      ctxTempWalk_at (split ▸ active) (split ▸ ok) relays has
    refine ⟨v, a, _, isVar, at_, resolved, ?_, by simp [VarSlot.cell, captured, slot]⟩
    have few : (pre.countP fun v => CaptureInfo.hasCtx ⟨w.finish⟩ v.scope) < 256 :=
      Nat.lt_of_le_of_lt List.countP_le_length depth
    have low : k < 256 := by
      have := done.contexts
      omega
    simp only [VarSlot.resolved, captured, if_true, Resolved.varRef, VarRef.reach, small _ few,
      slot, Option.getD_some, small k low, walk, Option.map_some, owner, VarSlot.cell]
  | false =>
    have inside : pre = [] := by
      by_contra outside
      rw [captured] at mark
      rw [(cross outside).1] at mark
      cases mark
    subst inside
    obtain ⟨rfl, rfl⟩ : u = t ∧ outer = post := by simpa using split
    obtain ⟨info', id, captured', rest, found, rfl⟩ := active.head
    obtain ⟨f, slot, place⟩ := placed.2 captured
    have low : f < 256 := by
      have := done.frames
      omega
    refine ⟨v, _, _, isVar, rfl, resolved, ?_, by simp [VarSlot.cell, captured, slot]⟩
    simp [VarSlot.resolved, captured, slot, Resolved.varRef, VarRef.reach, small f low,
      VarSlot.cell]

end

end WinVm.Frontend
