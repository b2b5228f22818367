import WinVm.Frontend.Simulation
import WinVm.Frontend.Tame

/-!
# The variables of a running unit

`Corresponds` relates a source state to the slots of the frame that runs the unit's code: a
local that has been assigned is in its slot, and so is every variable of the unit that no
other unit reaches; the counters and limits of the loops that run are in theirs. A load
and a store by code generation do what the source computation does, and keep the relation.

Results: `sim_load`, `sim_store`.
-/

namespace WinVm.Frontend

open Emit Lib

variable {V W : Type}

/-! ## The relation -/

/-- `held` are the slots of code generation's own, with what they hold. -/
structure Corresponds (w : Walk) (u : UnitScope) (held : Nat → Option V) (s : State V W)
    (slots : Nat → V) : Prop where
  names : s.scopes.map (List.map Prod.fst) = u.inner.map (List.map Prod.fst)
  own : ∀ k, u.OwnSlot w k → s.frame k = slots k
  locals : ∀ x l, s.find x = some l → ∃ k, u.Kept w x k ∧ (∀ v, l.value = some v → slots k = v) ∧
    (l.counter = false → held k = none)
  held : ∀ k v, held k = some v → slots k = v

/-- The slots of code generation's own stand above the unit's variables. -/
def Holds (w : Walk) (u : UnitScope) (next : Nat) (held : Nat → Option V) : Prop :=
  ∀ k v, held k = some v → k < next ∧
    ∀ info, w.finish[u.scope]? = some info → info.argc + info.frameTempCount ≤ k

theorem Holds.later {w : Walk} {u : UnitScope} {next next' : Nat} {held : Nat → Option V}
    (holds : Holds w u next held) (later : next ≤ next') : Holds w u next' held := fun k v is =>
  ⟨Nat.lt_of_lt_of_le (holds k v is).1 later, (holds k v is).2⟩

theorem Holds.enter {w : Walk} {u : UnitScope} {next : Nat} {held : Nat → Option V}
    (holds : Holds w u next held) (vars : List (String × Storage)) :
    Holds w (u.enter vars) next held :=
  holds

theorem stable_corresponds {w : Walk} {u : UnitScope} {held : Nat → Option V} :
    Stable (Corresponds (W := W) w u held) := fun _ _ _ related =>
  ⟨related.names, related.own, related.locals, related.held⟩

theorem lookup_isSome_iff {β : Type} (vars : List (String × β)) (x : String) :
    (vars.lookup x).isSome = true ↔ x ∈ vars.map Prod.fst := by
  rw [Option.isSome_iff_ne_none, ne_eq, List.lookup_eq_none_iff, List.mem_map]
  push_neg
  constructor
  · rintro ⟨v, mem, same⟩
    exact ⟨v, mem, by simpa using Eq.symm (by simpa using same)⟩
  · rintro ⟨v, mem, rfl⟩
    exact ⟨v, mem, by simp⟩

/-- A name has a local just when a dissolved block that is open declares it. -/
theorem Corresponds.find_isSome {w : Walk} {u : UnitScope} {held : Nat → Option V} {s : State V W}
    {slots : Nat → V} (related : Corresponds w u held s slots) (x : String) :
    (s.find x).isSome = true ↔ x ∈ u.mine := by
  have mine : u.mine = (s.scopes.map (List.map Prod.fst)).flatten := by
    rw [related.names, UnitScope.mine, List.flatMap_def]
  rw [mine, State.find, List.findSome?_isSome_iff]
  simp only [lookup_isSome_iff, List.mem_flatten, List.mem_map]
  grind

/-! ## Assignment -/

theorem lookup_assigned (name x : String) (v : V) (vars : List (String × Local V)) :
    (vars.map fun y => if y.1 = name then (y.1, { y.2 with value := some v }) else y).lookup x =
      if x = name then (vars.lookup name).map fun l => { l with value := some v }
      else vars.lookup x := by
  induction vars with
  | nil => simp
  | cons y vars ih =>
    obtain ⟨y, l⟩ := y
    by_cases isName : y = name
    · subst isName
      by_cases same : x = y
      · simp [same]
      · have differ : (x == y) = false := by simpa using same
        simp only [List.map_cons, if_pos, List.lookup_cons, differ, ih, if_neg same]
    · have other : (name == y) = false := by simpa using fun h => isName h.symm
      simp only [List.map_cons, if_neg isName, List.lookup_cons, ih, other]
      by_cases same : x = y
      · subst same
        simp [isName]
      · have differ : (x == y) = false := by simpa using same
        simp [differ]

theorem find_assign (name x : String) (v : V) (s : State V W) :
    (s.assign name v).find x =
      if x = name then (s.find name).map fun l => { l with value := some v } else s.find x := by
  unfold State.find State.assign
  dsimp only
  induction s.scopes with
  | nil => simp [State.assignIn]
  | cons vars scopes ih =>
    rw [State.assignIn]
    split
    · next has =>
      obtain ⟨l, found⟩ := Option.isSome_iff_exists.mp has
      rw [List.findSome?_cons, lookup_assigned, List.findSome?_cons, List.findSome?_cons, found]
      by_cases same : x = name
      · simp [same]
      · simp [same]
    · next hasNot =>
      rw [Bool.not_eq_true, Option.isSome_eq_false_iff, Option.isNone_iff_eq_none] at hasNot
      rw [List.findSome?_cons, ih, List.findSome?_cons, List.findSome?_cons, hasNot]
      by_cases same : x = name
      · subst same
        rw [hasNot]
      · rw [if_neg same, if_neg same]

theorem names_assignIn (name : String) (v : V) (scopes : List (List (String × Local V))) :
    (State.assignIn name v scopes).map (List.map Prod.fst) = scopes.map (List.map Prod.fst) := by
  induction scopes with
  | nil => rfl
  | cons vars scopes ih =>
    rw [State.assignIn]
    split
    · simp only [List.map_cons, List.map_map]
      congr 1
      refine List.map_congr_left fun y _ => ?_
      simp only [Function.comp_apply]
      split <;> rfl
    · rw [List.map_cons, ih, List.map_cons]

/-! ## Which access a name gets -/

section

variable {w : Walk} {cx : Ctx} {h : Holder} {classSide : Bool} {ownAt : Nat → List String}
  {u : UnitScope} {outer : List UnitScope} {base next n : Nat} {acts : List Activation}

theorem isLocal_iff {name : String} {isWrite : Bool} :
    (⟨u :: outer, name, isWrite⟩ : Occurrence).isLocal = true ↔ name ∈ u.mine := by
  refine ⟨fun is => ?_, mine_local?⟩
  obtain ⟨storage, found⟩ := Option.isSome_iff_exists.mp is
  exact local?_mem found

/-- A tame name that is no local meets no defect. -/
theorem tame_clean {o : Occurrence} (placed : o.Placed w) (other : o.isLocal = false)
    (tame : o.Tame) : o.Clean := by
  have tame : o.TameAt o.declaration := by
    rcases tame with isLocal | tame
    · rw [other] at isLocal
      cases isLocal
    · exact tame
  unfold Occurrence.Clean
  cases declaration : o.declaration with
  | none =>
    rw [declaration] at tame
    exact tame
  | some d =>
    obtain ⟨level, storage⟩ := d
    obtain ⟨x, atLevel, declares⟩ := lexical_some declaration
    rw [declaration] at tame
    obtain ⟨way, owned⟩ := tame
    dsimp only at atLevel declares way owned
    have noLocal : x.inner.findSome? (fun vars => vars.lookup o.name) = none := owned x atLevel
    unfold UnitScope.declares at declares
    rw [noLocal] at declares
    dsimp only at declares
    split at declares
    · next own =>
      cases declares
      refine ⟨fun v isHead => ?_, way, fun y atY => ?_⟩
      · refine local?_hoistSlot ?_
        unfold Occurrence.isLocal at other
        rw [isHead] at other
        simpa using other
      · rw [atLevel] at atY
        cases atY
        obtain ⟨more, names⟩ := (placed.valid x (List.mem_of_getElem? atLevel)).own
        rw [← names, List.idxOf_append_of_mem own]
    · cases declares

theorem Sound.placed {name : String} {isWrite : Bool}
    (sound : Sound w ownAt u outer base next n (.occ name isWrite)) :
    (⟨u :: outer, name, isWrite⟩ : Occurrence).Placed w where
  chain := sound.inside.chain
  valid := sound.inside.valid
  referenced := by
    rintro v ⟨⟩
    exact sound.inside.refs _ (by simp [Outline.refs])
  depth := sound.inside.depth

theorem Sound.tame_occ {name : String} {isWrite : Bool}
    (sound : Sound w ownAt u outer base next n (.occ name isWrite)) :
    (⟨u :: outer, name, isWrite⟩ : Occurrence).Tame :=
  sound.tame _ (.inl (by simp [Outline.occurrences]))

theorem Sound.finished {o : Outline} (sound : Sound w ownAt u outer base next n o) :
    ∃ p info, Finished w u p info := by
  obtain ⟨p, b, known⟩ := sound.inside.chain.known u (by simp)
  obtain ⟨info, done⟩ := known.finished
  exact ⟨p, info, done⟩

theorem Sound.head {o : Outline} (sound : Sound w ownAt u outer base next n o) : u.Valid w :=
  sound.inside.valid u (by simp)

/-- The access to a local. -/
theorem local_ref (for_ : cx.For w h classSide) {name : String} {isWrite : Bool}
    (sound : Sound w ownAt u outer base next n (.occ name isWrite)) {site : Site}
    (follows : site.Follows cx.as8 u) (mem : name ∈ u.mine) {globals globals' : List String}
    {span : Span} {ref : VarRef}
    (ok : cx.resolveVar site.hoist site.scopeId globals name span isWrite = .ok (ref, globals')) :
    ∃ k, u.Kept w name k ∧ ref = .local k := by
  obtain ⟨p, info, done⟩ := sound.finished
  obtain ⟨k, kept⟩ := exists_kept sound.head sound.room done mem
  refine ⟨k, kept, ?_⟩
  unfold Ctx.resolveVar at ok
  rw [follows.scopeId, follows.hoist name] at ok
  cases hoisted : u.hoistSlot name with
  | some slot =>
    obtain rfl := kept_unique (.inl hoisted) kept
    rw [hoisted] at ok
    simp only [Option.map_some, Except.ok.injEq, Prod.mk.injEq] at ok
    rw [← ok.1, for_.small _ (hoistSlot_above sound.head done hoisted).2]
  | none =>
    obtain ⟨v, is, free, frame, low⟩ := kept_loose sound.head sound.room done mem kept hoisted
    have split : u :: outer = [] ++ u :: outer := rfl
    obtain ⟨v', is', resolved⟩ := resolve_at cx.as8 split sound.inside.chain (by simp)
      (mine_names sound.head mem) done
    rw [is] at is'
    cases is'
    rw [hoisted, Option.map_none] at ok
    dsimp only at ok
    rw [for_.capture, resolved] at ok
    simp only [VarSlot.resolved, free, Bool.false_eq_true, if_false, frame, Option.getD_some,
      Resolved.varRef, Except.ok.injEq, Prod.mk.injEq] at ok
    have small : k < 256 := by
      have := done.frames
      have := sound.head.size
      omega
    rw [← ok.1, for_.small k small]

/-- The cell of a name depends on the units around only. -/
theorem declaration_cell_congr {c : CaptureInfo} {chain chain' : List UnitScope}
    (same : chain.map UnitScope.scope = chain'.map UnitScope.scope) (d : Declaration) :
    d.cell c chain acts = d.cell c chain' acts := by
  unfold Declaration.cell
  congr 1
  funext a
  split
  · rfl
  · have at_ : (chain[d.level]?).map UnitScope.scope = (chain'[d.level]?).map UnitScope.scope := by
      rw [← List.getElem?_map, ← List.getElem?_map, same]
    cases one : chain[d.level]? <;> cases other : chain'[d.level]? <;> simp_all

theorem local?_enter {vars : List (String × Storage)} {name : String}
    (none : (u.enter vars).local? name = none) : u.local? name = Option.none := by
  unfold UnitScope.local? UnitScope.enter at none
  rw [List.findSome?_cons] at none
  split at none
  · cases none
  · exact none

/-- An open block that does not declare a name does not change its cell. -/
theorem cell_enter {c : CaptureInfo} {vars : List (String × Storage)} {name : String}
    {isWrite : Bool} (none : (u.enter vars).local? name = none) :
    (⟨u.enter vars :: outer, name, isWrite⟩ : Occurrence).cell c h classSide acts =
      (⟨u :: outer, name, isWrite⟩ : Occurrence).cell c h classSide acts := by
  have declares : (u.enter vars).declares name = u.declares name := by
    have bare := local?_enter none
    unfold UnitScope.local? at none bare
    unfold UnitScope.declares
    rw [none, bare]
    rfl
  have lexical_same : lexical name (u.enter vars :: outer) = lexical name (u :: outer) := by
    unfold lexical
    rw [declares]
  unfold Occurrence.cell Occurrence.declaration
  dsimp only
  rw [lexical_same]
  cases lexical name (u :: outer) with
  | none => rfl
  | some d =>
    have same : (u.enter vars :: outer).map UnitScope.scope = (u :: outer).map UnitScope.scope := rfl
    exact declaration_cell_congr same d

end

/-! ## Units that run -/

/-- The unit runs in `a`, and `sc` means its statements. -/
structure Standing (w : Walk) (cx : Ctx) (h : Holder) (classSide : Bool) (u : UnitScope)
    (outer : List UnitScope) (a : Activated V W) (sc : Scene V W) (fuel : Nat) : Prop where
  for_ : cx.For w h classSide
  behaviour : sc.behaviour = a.behaviour
  self : sc.self = a.self
  fuel : sc.fuel = fuel
  active : Active ⟨w.finish⟩ (u :: outer) a.acts
  place : ∀ name, u.local? name = none → sc.place name =
    (⟨u :: outer, name, false⟩ : Occurrence).cell ⟨w.finish⟩ h classSide a.acts

theorem Standing.enter {w : Walk} {cx : Ctx} {h : Holder} {classSide : Bool} {u : UnitScope}
    {outer : List UnitScope} {a : Activated V W} {sc : Scene V W} {fuel : Nat}
    (standing : Standing w cx h classSide u outer a sc fuel) (vars : List (String × Storage)) :
    Standing w cx h classSide (u.enter vars) outer a sc fuel :=
  { standing with
    active := standing.active.congr rfl
    place := fun name none => by
      rw [standing.place name (local?_enter none), cell_enter none] }

section

variable {w : Walk} {cx : Ctx} {h : Holder} {classSide : Bool} {ownAt : Nat → List String}
  {u : UnitScope} {outer : List UnitScope} {base next n : Nat} {a : Activated V W} {sc : Scene V W}
  {fuel : Nat} {site : Site} {name : String}

/-- The access to another name, and its cell: a slot of the frame that is the unit's own, or
a cell outside the frame. -/
theorem outer_ref (standing : Standing w cx h classSide u outer a sc fuel) {isWrite : Bool}
    (sound : Sound w ownAt u outer base next n (.occ name isWrite))
    (follows : site.Follows cx.as8 u) (other : name ∉ u.mine) {globals globals' : List String}
    {span : Span} {ref : VarRef}
    (ok : cx.resolveVar site.hoist site.scopeId globals name span isWrite = .ok (ref, globals')) :
    ∃ cell, sc.place name = some cell ∧
      ((∃ id k, ref = .local k ∧ cell = .frame id k ∧ u.OwnSlot w k) ∨
        ref.reach a.acts = some cell ∧ (∀ id k, cell ≠ .frame id k) ∧ ∀ k, ref ≠ .local k) := by
  have placed := sound.placed
  have notLocal : (⟨u :: outer, name, isWrite⟩ : Occurrence).isLocal = false := by
    rw [← Bool.not_eq_true, isLocal_iff]
    exact other
  have clean := tame_clean placed notLocal sound.tame_occ
  rw [follows.scopeId] at ok
  have preserves := (Access.preserves_iff (a := ⟨name, isWrite, ref⟩) standing.for_ placed
    standing.active ⟨rfl, rfl, u, outer, site.hoist, globals, globals', span, rfl, follows.hoist,
      ok⟩).mpr clean
  obtain ⟨-, -, same, reached⟩ := preserves
  dsimp only at same reached
  have noLocal : u.local? name = none := by
    cases found : u.local? name with
    | none => rfl
    | some storage => exact absurd (local?_mem found) other
  have place : sc.place name = ref.reach a.acts := by
    rw [standing.place name noLocal, same]
    rfl
  obtain ⟨cell, isCell⟩ := Option.ne_none_iff_exists'.mp reached
  refine ⟨cell, place.trans isCell, ?_⟩
  cases ref with
  | captured depth k =>
    refine .inr ⟨isCell, ?_, by simp⟩
    rw [VarRef.reach, Option.map_eq_some_iff] at isCell
    obtain ⟨c, -, rfl⟩ := isCell
    simp
  | instVar i =>
    cases isCell
    exact .inr ⟨rfl, by simp, by simp⟩
  | global g =>
    cases isCell
    exact .inr ⟨rfl, by simp, by simp⟩
  | «local» k =>
    left
    obtain ⟨info, id, captured, rest, found, acts⟩ := standing.active.head
    rw [acts] at isCell
    cases isCell
    refine ⟨_, k, rfl, rfl, ?_⟩
    have cell : (⟨u :: outer, name, isWrite⟩ : Occurrence).cell ⟨w.finish⟩ h classSide a.acts =
        some (.frame id k) := by
      rw [← same, acts]
      rfl
    unfold Occurrence.cell at cell
    cases declaration : (⟨u :: outer, name, isWrite⟩ : Occurrence).declaration with
    | none =>
      rw [declaration] at cell
      exact absurd (Option.some.inj cell) (outerCell_ne _ _ _ _ _).1
    | some d =>
      rw [declaration] at cell
      have clean := clean
      unfold Occurrence.Clean at clean
      rw [declaration] at clean
      obtain ⟨level, storage⟩ := d
      obtain ⟨x, atLevel, declares⟩ := lexical_some declaration
      dsimp only at atLevel declares cell
      have actLevel : level < a.acts.length := by
        rw [standing.active.length_eq]
        exact (List.getElem?_eq_some_iff.mp atLevel).1
      have atActs := List.getElem?_eq_getElem actLevel
      have headActs : a.acts[0]? = some (activate info id captured) := by simp [acts]
      cases storage with
      | hoisted slot =>
        obtain rfl : level = 0 := clean
        obtain rfl : u = x := by simpa using atLevel
        have := hoistSlot_mine (hoistSlot_of_declares declares)
        exact absurd this other
      | var i =>
        obtain ⟨q, b, known⟩ := placed.chain.known x (List.mem_of_getElem? atLevel)
        obtain ⟨info', done⟩ := known.finished
        rw [cell_var atLevel atActs done] at cell
        obtain ⟨v, isVar, cell⟩ := Option.bind_eq_some_iff.mp cell
        rcases VarSlot.cell_cases (by rw [cell]; simp) with ⟨k', is, -⟩ | ⟨f, is, free, frame⟩
        · rw [cell] at is
          cases is
        · rw [cell] at is
          cases is
          have zero : level = 0 := standing.active.same_level atActs headActs rfl
          subst zero
          obtain rfl : u = x := by simpa using atLevel
          have owned : name ∈ u.own ∧ i = u.own.idxOf name := by
            unfold UnitScope.declares at declares
            unfold UnitScope.local? at noLocal
            rw [noLocal] at declares
            dsimp only at declares
            split at declares
            · next own =>
              cases declares
              exact ⟨own, rfl⟩
            · cases declares
          refine ⟨info', i, v, done.found, ?_, isVar, free, frame⟩
          rw [owned.2]
          exact List.idxOf_lt_length_of_mem owned.1

variable {P : CodeUnit → LexUnit → List Expr → Prop} {held : Nat → Option V} {p : List V}
  {span : Span}

/-- An access is one instruction, and finishes no unit. -/
theorem access_emitted {isWrite : Bool} {g g' : Gen} {xs : List Item}
    (ok : emitAccess cx site name span isWrite g = .ok (xs, g')) :
    ∃ ref globals, cx.resolveVar site.hoist site.scopeId g.globals name span isWrite =
        .ok (ref, globals) ∧
      xs = [if isWrite then .store name ref else .load name ref] ∧
      Emitted P 0 [] [] g g' xs := by
  unfold emitAccess at ok
  split at ok
  · cases ok
  · next ref globals resolved =>
    cases ok
    refine ⟨ref, globals, resolved, rfl, Nat.le_refl _, fun l mem => ?_, rfl, [], by simp, trivial⟩
    cases isWrite <;> simp at mem

variable [DecidableEq V]

theorem sim_load (standing : Standing w cx h classSide u outer a sc fuel)
    (sound : Sound w ownAt u outer base next n (.occ name false))
    (follows : site.Follows cx.as8 u) :
    Sim P a fuel next 0 [] [] (Corresponds w u held) (emitLoad cx site name span) p (sc.load name)
      (fun v => v :: p) fun _ => Corresponds w u held := by
  rintro g xs g' - ok
  obtain ⟨ref, globals, resolved, rfl, emitted⟩ := access_emitted ok
  refine ⟨emitted, fun code pre post is fresh s slots rest related => ?_⟩
  rw [if_neg (by simp)] at is
  have step := step_at (a := a) is (p ++ rest) slots s.world
  simp only [Activated.exec] at step
  unfold Scene.load
  rw [Comp.get_bind]
  by_cases mem : name ∈ u.mine
  · obtain ⟨k, kept, rfl⟩ := local_ref standing.for_ sound follows mem resolved
    obtain ⟨l, isLocal⟩ := Option.isSome_iff_exists.mp ((related.find_isSome name).mpr mem)
    obtain ⟨k', kept', value, -⟩ := related.locals name l isLocal
    obtain rfl := kept_unique kept kept'
    obtain ⟨lv, counter⟩ := l
    rw [isLocal]
    cases lv with
    | none => exact carries_wrong
    | some v =>
      simp only [Activated.read] at step
      rw [value v rfl] at step
      exact Carries.step step (Carries.pure ⟨rfl, rfl, rfl, related⟩)
  · have none : s.find name = none := by
      rw [← Option.not_isSome_iff_eq_none, related.find_isSome]
      exact mem
    rw [none]
    dsimp only
    obtain ⟨cell, place, reads⟩ := outer_ref standing sound follows mem resolved
    rw [place]
    have value : a.read ⟨pre.length, p ++ rest, slots, s.world⟩ ref =
        some (State.read sc.behaviour s cell) := by
      rcases reads with ⟨id, k, rfl, rfl, own⟩ | ⟨reach, shared, notLocal⟩
      · simp only [Activated.read, State.read, related.own k own]
      · have same : State.read sc.behaviour s cell = a.behaviour.get cell s.world := by
          rw [standing.behaviour]
          cases cell with
          | frame id k => exact absurd rfl (shared id k)
          | ctx | instVar | assoc => rfl
        rw [same]
        cases ref with
        | «local» k => exact absurd rfl (notLocal k)
        | captured | instVar | global => simp [Activated.read, reach]
    rw [value] at step
    exact Carries.step step (Carries.get ⟨rfl, rfl, rfl, related⟩)

/-- The relation after a local is assigned. -/
theorem Corresponds.assign {s : State V W} {slots : Nat → V} {k : Nat} {l : Local V}
    {o : Outline} (related : Corresponds w u held s slots)
    (sound : Sound w ownAt u outer base next n o) (isLocal : s.find name = some l)
    (kept : u.Kept w name k) (free : held k = none) (v : V) :
    Corresponds w u held (s.assign name v) (Function.update slots k v) := by
  obtain ⟨q, info, done⟩ := sound.finished
  have mem : name ∈ u.mine := (related.find_isSome name).mp (by simp [isLocal])
  refine ⟨(names_assignIn name v s.scopes).trans related.names, fun j own => ?_, ?_, ?_⟩
  · have differ : j ≠ k := by
      rintro rfl
      exact kept_not_own sound.head sound.room done mem kept own
    rw [Function.update_of_ne differ]
    exact related.own j own
  · intro x l' found
    rw [find_assign] at found
    by_cases same : x = name
    · subst same
      rw [if_pos rfl, isLocal] at found
      cases found
      obtain ⟨k', kept', -, counter⟩ := related.locals x l isLocal
      obtain rfl := kept_unique kept kept'
      refine ⟨k, kept, ?_, counter⟩
      rintro v' ⟨⟩
      exact Function.update_self k v slots
    · rw [if_neg same] at found
      obtain ⟨j, keptX, value, counter⟩ := related.locals x l' found
      have memX : x ∈ u.mine := (related.find_isSome x).mp (by simp [found])
      have differ : j ≠ k := by
        rintro rfl
        exact same (kept_apart sound.head sound.room done memX mem keptX kept)
      refine ⟨j, keptX, fun v' is => ?_, counter⟩
      rw [Function.update_of_ne differ]
      exact value v' is
  · intro j v' holds
    have differ : j ≠ k := by
      rintro rfl
      rw [free] at holds
      cases holds
    rw [Function.update_of_ne differ]
    exact related.held j v' holds

/-- The relation after a variable of the unit's own is assigned. -/
theorem Corresponds.assignOwn {s : State V W} {slots : Nat → V} {k : Nat} {o : Outline}
    (related : Corresponds w u held s slots) (sound : Sound w ownAt u outer base next n o)
    (holds : Holds w u next held) (own : u.OwnSlot w k) (v : V) :
    Corresponds w u held { s with frame := Function.update s.frame k v }
      (Function.update slots k v) := by
  obtain ⟨q, info, done⟩ := sound.finished
  refine ⟨related.names, fun j ownJ => ?_, fun x l found => ?_, fun j v' is => ?_⟩
  · by_cases same : j = k
    · subst same
      simp
    · dsimp only
      rw [Function.update_of_ne same, Function.update_of_ne same]
      exact related.own j ownJ
  · obtain ⟨j, kept, value, counter⟩ := related.locals x l found
    have mem : x ∈ u.mine := (related.find_isSome x).mp (by simp only [State.find] at found ⊢; simp [found])
    have differ : j ≠ k := by
      rintro rfl
      exact kept_not_own sound.head sound.room done mem kept own
    refine ⟨j, kept, fun v' is => ?_, counter⟩
    rw [Function.update_of_ne differ]
    exact value v' is
  · have high := (holds j v' is).2 info done.found
    have low := ownSlot_low done own
    have differ : j ≠ k := by omega
    rw [Function.update_of_ne differ]
    exact related.held j v' is

theorem sim_store (standing : Standing w cx h classSide u outer a sc fuel)
    (sound : Sound w ownAt u outer base next n (.occ name true))
    (follows : site.Follows cx.as8 u) (holds : Holds w u next held) (v : V) :
    Sim P a fuel next 0 [] [] (Corresponds w u held) (emitStore cx site name span) (v :: p)
      (sc.store name v) (fun _ => p) fun _ => Corresponds w u held := by
  rintro g xs g' - ok
  obtain ⟨ref, globals, resolved, rfl, emitted⟩ := access_emitted ok
  refine ⟨emitted, fun code pre post is fresh s slots rest related => ?_⟩
  rw [if_pos rfl] at is
  have step := step_at (a := a) is (v :: p ++ rest) slots s.world
  rw [List.cons_append] at step ⊢
  simp only [Activated.exec] at step
  unfold Scene.store
  rw [Comp.get_bind]
  by_cases mem : name ∈ u.mine
  · obtain ⟨k, kept, rfl⟩ := local_ref standing.for_ sound follows mem resolved
    obtain ⟨l, isLocal⟩ := Option.isSome_iff_exists.mp ((related.find_isSome name).mpr mem)
    obtain ⟨k', kept', -, free⟩ := related.locals name l isLocal
    obtain rfl := kept_unique kept kept'
    rw [isLocal]
    dsimp only
    cases counter : l.counter with
    | true =>
      intro clear
      simp [bind, Comp.bind, Comp.flag] at clear
    | false =>
      have free := free counter
      simp only [Bool.false_eq_true, if_false]
      refine Carries.emit step (Carries.modify ⟨rfl, rfl, rfl, ?_⟩)
      exact related.assign sound isLocal kept free v
  · have none : s.find name = none := by
      rw [← Option.not_isSome_iff_eq_none, related.find_isSome]
      exact mem
    rw [none]
    dsimp only
    obtain ⟨cell, place, writes⟩ := outer_ref standing sound follows mem resolved
    rw [place]
    dsimp only
    rcases writes with ⟨id, k, rfl, rfl, own⟩ | ⟨reach, shared, notLocal⟩
    · refine Carries.emit step (Carries.modify ⟨rfl, rfl, rfl, ?_⟩)
      exact related.assignOwn sound holds own v
    · have written : a.write ⟨pre.length, p ++ rest, slots, s.world⟩ v ref = some
          ⟨pre.length, p ++ rest, slots, a.behaviour.set cell v s.world⟩ := by
        cases ref with
        | «local» k => exact absurd rfl (notLocal k)
        | captured | instVar | global => simp [Activated.write, reach]
      rw [written] at step
      have same : State.write sc.behaviour cell v s =
          { s with world := a.behaviour.set cell v s.world } := by
        rw [standing.behaviour]
        cases cell with
        | frame id k => exact absurd rfl (shared id k)
        | ctx | instVar | assoc => rfl
      refine Carries.emit step (Carries.modify ?_)
      rw [same]
      exact ⟨rfl, rfl, rfl, stable_corresponds s _ slots related⟩

end

end WinVm.Frontend
