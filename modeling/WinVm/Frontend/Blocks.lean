import WinVm.Frontend.Accesses

/-!
# Blocks that open, and slots of code generation's own

`Here` is an outline at a place of a unit that runs, `Carried` says that the code emitted
there carries out a computation. A dissolved block opens with its locals unassigned, or
with its parameter bound to a value; a counted loop keeps its counter and its limit in two
slots above all others.

Results: `sim_dissolved`, `sim_ifnotnil`, `sim_countedLoop`.
-/

namespace WinVm.Frontend

open Emit Lib

variable {V W : Type}

/-! ## The relation when blocks open and close -/

section

variable {w : Walk} {ownAt : Nat → List String} {u : UnitScope} {outer : List UnitScope}
  {base next next' n : Nat} {o : Outline} {held held' : Nat → Option V} {s : State V W} {slots : Nat → V}
  {k : Nat} {vars : List (String × Storage)} {locals : List (String × Local V)} {x : String}

theorem Sound.kept_below (sound : Sound w ownAt u outer base next n o) (mem : x ∈ u.mine)
    (kept : u.Kept w x k) : k < next := by
  cases hoisted : u.hoistSlot x with
  | some j =>
    obtain rfl := kept_unique (.inl hoisted) kept
    exact sound.room.below x j hoisted
  | none =>
    obtain ⟨q, info, done⟩ := sound.finished
    obtain ⟨v, -, -, -, low⟩ := kept_loose sound.head sound.room done mem kept hoisted
    exact Nat.lt_of_lt_of_le low (sound.inside.above info done.found)

theorem Sound.own_below (sound : Sound w ownAt u outer base next n o) (own : u.OwnSlot w k) :
    k < next := by
  obtain ⟨q, info, done⟩ := sound.finished
  exact Nat.lt_of_lt_of_le (ownSlot_low done own) (sound.inside.above info done.found)

/-- A slot above those in use gets a value. -/
theorem Corresponds.hold (related : Corresponds w u held s slots)
    (sound : Sound w ownAt u outer base next n o) (above : next ≤ k) (v : V) :
    Corresponds w u (Function.update held k (some v)) s (Function.update slots k v) where
  names := related.names
  own j own := by
    have := sound.own_below own
    rw [Function.update_of_ne (by omega)]
    exact related.own j own
  locals x l found := by
    obtain ⟨j, kept, value, free⟩ := related.locals x l found
    have := sound.kept_below ((related.find_isSome x).mp (by simp [found])) kept
    refine ⟨j, kept, fun v' is => ?_, fun counter => ?_⟩
    · rw [Function.update_of_ne (by omega)]
      exact value v' is
    · rw [Function.update_of_ne (by omega)]
      exact free counter
  held j v' is := by
    by_cases same : j = k
    · subst same
      rw [Function.update_self] at is ⊢
      exact Option.some.inj is
    · rw [Function.update_of_ne same] at is ⊢
      exact related.held j v' is

/-- A slot that is not in use any more. -/
theorem Corresponds.release (related : Corresponds w u held' s slots)
    (less : ∀ k v, held k = some v → held' k = some v) : Corresponds w u held s slots where
  names := related.names
  own := related.own
  locals x l found := by
    obtain ⟨j, kept, value, free⟩ := related.locals x l found
    refine ⟨j, kept, value, fun counter => ?_⟩
    rw [Option.eq_none_iff_forall_ne_some]
    intro v is
    rw [less j v is] at free
    cases free counter
  held j v is := related.held j v (less j v is)

theorem Holds.hold (holds : Holds w u next held) (sound : Sound w ownAt u outer base next n o)
    (above : next ≤ k) (v : V) : Holds w u (k + 1) (Function.update held k (some v)) := by
  intro j v' is
  by_cases same : j = k
  · subst same
    exact ⟨Nat.lt_succ_self j, fun info found =>
      Nat.le_trans (sound.inside.above info found) above⟩
  · rw [Function.update_of_ne same] at is
    have := (holds j v' is).1
    exact ⟨by omega, (holds j v' is).2⟩

theorem Holds.above_none (holds : Holds w u next held) (above : next ≤ k) : held k = none := by
  rw [Option.eq_none_iff_forall_ne_some]
  intro v is
  have := (holds k v is).1
  omega

theorem Holds.less (holds : Holds w u next held) (above : next ≤ k) (v : V) :
    ∀ j v', held j = some v' → Function.update held k (some v) j = some v' := by
  intro j v' is
  have := (holds j v' is).1
  rw [Function.update_of_ne (by omega)]
  exact is

/-- A slot above those in use is no one's. -/
theorem Corresponds.poke (related : Corresponds w u held s slots)
    (sound : Sound w ownAt u outer base next n o) (holds : Holds w u next held) (above : next ≤ k)
    (v : V) : Corresponds w u held s (Function.update slots k v) :=
  (related.hold sound above v).release (holds.less above v)

theorem Corresponds.enter (related : Corresponds w u held s slots)
    (sound : Sound w ownAt (u.enter vars) outer base next n o)
    (names : locals.map Prod.fst = vars.map Prod.fst)
    (each : ∀ x l k, locals.lookup x = some l → x ∈ vars.map Prod.fst →
      (u.enter vars).Kept w x k →
      (∀ v, l.value = some v → slots k = v) ∧ (l.counter = false → held k = none)) :
    Corresponds w (u.enter vars) held (s.push locals) slots where
  names := by
    rw [State.push, UnitScope.enter, List.map_cons, List.map_cons, names, related.names]
  own := related.own
  locals x l found := by
    obtain ⟨q, info, done⟩ := sound.finished
    rw [State.find, State.push, List.findSome?_cons] at found
    split at found
    · next l' here =>
      cases found
      have declared : x ∈ vars.map Prod.fst := by
        rw [← names, ← lookup_isSome_iff, here]
        rfl
      have mem : x ∈ (u.enter vars).mine := by
        rw [mine_enter]
        exact List.mem_append_left _ declared
      obtain ⟨k, kept⟩ := exists_kept sound.head sound.room done mem
      exact ⟨k, kept, each x l k here declared kept⟩
    · next absent =>
      obtain ⟨k, kept, rest⟩ := related.locals x l found
      refine ⟨k, ?_, rest⟩
      have outside : vars.lookup x = none := by
        rw [← Option.not_isSome_iff_eq_none, lookup_isSome_iff, ← names, ← lookup_isSome_iff, absent]
        simp
      have same : (u.enter vars).hoistSlot x = u.hoistSlot x := by
        rw [hoistSlot_enter, outside]
        rfl
      unfold UnitScope.Kept
      rw [same]
      exact kept
  held := related.held

theorem Corresponds.leave (related : Corresponds w (u.enter vars) held s slots)
    (sound : Sound w ownAt (u.enter vars) outer base next n o) :
    Corresponds w u held s.pop slots where
  names := by
    have names := congrArg List.tail related.names
    rw [← List.map_tail] at names
    exact names
  own := related.own
  locals x l found := by
    have nodup := sound.room.nodup
    rw [mine_enter, List.nodup_append] at nodup
    obtain ⟨head, rest, scopes, names⟩ : ∃ head rest, s.scopes = head :: rest ∧
        head.map Prod.fst = vars.map Prod.fst := by
      have names := related.names
      rw [UnitScope.enter, List.map_cons] at names
      cases is : s.scopes with
      | nil =>
        rw [is] at names
        cases names
      | cons head rest =>
        rw [is, List.map_cons] at names
        exact ⟨head, rest, rfl, (List.cons.inj names).1⟩
    have popped : s.pop.scopes = rest := by simp [State.pop, scopes]
    have tail : rest.map (List.map Prod.fst) = u.inner.map (List.map Prod.fst) := by
      have names := related.names
      rw [scopes, UnitScope.enter, List.map_cons, List.map_cons] at names
      exact (List.cons.inj names).2
    have mem : x ∈ u.mine := by
      have mine : u.mine = (rest.map (List.map Prod.fst)).flatten := by
        rw [tail, UnitScope.mine, List.flatMap_def]
      rw [State.find, popped] at found
      obtain ⟨vars', inRest, inVars⟩ := List.exists_of_findSome?_eq_some found
      rw [mine, List.mem_flatten]
      exact ⟨_, List.mem_map_of_mem inRest, (lookup_isSome_iff vars' x).mp (by simp [inVars])⟩
    have outside : x ∉ vars.map Prod.fst := fun here => nodup.2.2 x here x mem rfl
    have full : s.find x = some l := by
      have absent : head.lookup x = none := by
        rw [← Option.not_isSome_iff_eq_none, lookup_isSome_iff, names]
        exact outside
      rw [State.find, popped] at found
      rw [State.find, scopes, List.findSome?_cons, absent]
      exact found
    obtain ⟨k, kept, facts⟩ := related.locals x l full
    refine ⟨k, ?_, facts⟩
    have noSlot : vars.lookup x = none := by
      rw [← Option.not_isSome_iff_eq_none, lookup_isSome_iff]
      exact outside
    have same : (u.enter vars).hoistSlot x = u.hoistSlot x := by
      rw [hoistSlot_enter, noSlot]
      rfl
    unfold UnitScope.Kept at kept
    rw [same] at kept
    exact kept
  held := related.held

/-- A local of the block that opens has a slot that is not in use: one of its own above
those, or one of the unit's variables. -/
theorem Holds.entered_none (holds : Holds w u next held)
    (sound : Sound w ownAt (u.enter vars) outer base next' n o) (declared : x ∈ vars.map Prod.fst)
    (kept : (u.enter vars).Kept w x k)
    (above : ∀ slot, (vars.lookup x).bind Storage.slot? = some slot → next ≤ slot) :
    held k = none := by
  obtain ⟨q, info, done⟩ := sound.finished
  have mem : x ∈ (u.enter vars).mine := by
    rw [mine_enter]
    exact List.mem_append_left _ declared
  cases hoisted : (u.enter vars).hoistSlot x with
  | none =>
    obtain ⟨v, -, -, -, low⟩ := kept_loose sound.head sound.room done mem kept hoisted
    rw [Option.eq_none_iff_forall_ne_some]
    intro v is
    have := (holds k v is).2 info done.found
    omega
  | some slot =>
    obtain rfl := kept_unique (.inl hoisted) kept
    rw [hoistSlot_enter] at hoisted
    split at hoisted
    · next here =>
      cases hoisted
      exact holds.above_none (above _ here)
    · have nodup := sound.room.nodup
      rw [mine_enter, List.nodup_append] at nodup
      exact absurd rfl (nodup.2.2 x declared x (hoistSlot_mine hoisted))

end

/-! ## The locals of an activation -/

section

variable {params temps : List String} {args : List V} {counter : Bool}

theorem opened_names : (opened params temps args counter).map Prod.fst = params ++ temps := by
  unfold opened
  rw [List.map_append, List.map_map]
  congr 1
  · refine List.ext_getElem? fun i => ?_
    simp [Option.map_map, Function.comp_def]
  · simp [Function.comp_def]

theorem opened_lookup {x : String} {l : Local V}
    (found : (opened params temps args counter).lookup x = some l) :
    (∃ i : Nat, params[i]? = some x ∧ l = ⟨args[i]?, counter⟩) ∨ x ∈ temps ∧ l = ⟨none, false⟩ := by
  have mem := mem_of_lookup found
  unfold opened at mem
  rcases List.mem_append.mp mem with mem | mem
  · obtain ⟨i, lt, same⟩ := List.mem_mapIdx.mp mem
    cases same
    exact .inl ⟨i, by simp [lt], rfl⟩
  · obtain ⟨t, inTemps, same⟩ := List.mem_map.mp mem
    cases same
    exact .inr ⟨inTemps, rfl⟩

/-- Without arguments the locals are unassigned. -/
theorem opened_unassigned {x : String} {l : Local V}
    (found : (opened params temps ([] : List V) false).lookup x = some l) : l = ⟨none, false⟩ := by
  rcases opened_lookup found with ⟨i, -, rfl⟩ | ⟨-, rfl⟩ <;> rfl

end

/-! ## Places -/

/-- An outline at a place of a unit that runs. -/
structure Here (w : Walk) (cx : Ctx) (h : Holder) (classSide : Bool) (ownAt : Nat → List String)
    (u : UnitScope) (outer : List UnitScope) (base next n : Nat) (o : Outline) (site : Site)
    (a : Activated V W) (sc : Scene V W) (fuel : Nat) (held : Nat → Option V) : Prop where
  sound : Sound w ownAt u outer base next n o
  standing : Standing w cx h classSide u outer a sc fuel
  follows : site.Follows cx.as8 u
  inBlock : site.inBlock = sc.inBlock
  holds : Holds w u next held

/-- The code emitted at the place of an outline carries out the computation. -/
abbrev Carried [DecidableEq V] {α : Type} (P : CodeUnit → LexUnit → List Expr → Prop)
    (a : Activated V W) (fuel : Nat) (w : Walk) (u : UnitScope) (outer : List UnitScope)
    (base next : Nat) (held : Nat → Option V) (o : Outline) (stmts : List (List Expr)) (e : Emit)
    (p : List V) (A : Act V W α) (q : α → List V) : Prop :=
  Sim P a fuel next o.slots (o.units (CaptureInfo.frameTemps ⟨w.finish⟩) u outer base next) stmts
    (Corresponds w u held) e p A q fun _ => Corresponds w u held

section

variable {w : Walk} {cx : Ctx} {h : Holder} {classSide : Bool} {ownAt : Nat → List String}
  {u : UnitScope} {outer : List UnitScope} {base next n : Nat} {x y body limit : Outline}
  {site : Site} {a : Activated V W} {sc : Scene V W} {fuel : Nat} {held : Nat → Option V}

theorem Here.first (here : Here w cx h classSide ownAt u outer base next n (.seq x y) site a sc fuel
    held) : Here w cx h classSide ownAt u outer base next n x site a sc fuel held :=
  { here with sound := here.sound.first }

theorem Here.second (here : Here w cx h classSide ownAt u outer base next n (.seq x y) site a sc fuel
    held) : Here w cx h classSide ownAt u outer (base + x.folded.length) (next + x.slots)
      (n + x.reals) y site a sc fuel held :=
  { here with
    sound := here.sound.second
    holds := here.holds.later (Nat.le_add_right _ _) }

theorem Here.armsFirst (here : Here w cx h classSide ownAt u outer base next n (.arms x y) site a sc
    fuel held) : Here w cx h classSide ownAt u outer (base + x.folded.length) next (n + x.reals) y
      site a sc fuel held :=
  { here with sound := here.sound.armsFirst }

theorem Here.armsSecond (here : Here w cx h classSide ownAt u outer base next n (.arms x y) site a sc
    fuel held) : Here w cx h classSide ownAt u outer base (next + y.slots) n x site a sc fuel held :=
  { here with
    sound := here.sound.armsSecond
    holds := here.holds.later (Nat.le_add_right _ _) }

theorem Here.dissolved {names : List String}
    (here : Here w cx h classSide ownAt u outer base next n (.dissolved names body) site a sc fuel
      held) :
    Here w cx h classSide ownAt (u.enter (hoistedVars next names)) outer (base + names.length)
      (next + names.length) n body (site.push (hoistNames cx.as8 next names)) a sc fuel held where
  sound := here.sound.dissolved
  standing := here.standing.enter _
  follows := here.follows.push (hoistNames_get cx.as8 next
    (List.nodup_append.mp here.sound.apart.1).1)
  inBlock := here.inBlock
  holds := (here.holds.later (Nat.le_add_right _ _)).enter _

theorem Here.loose {names : List String}
    (here : Here w cx h classSide ownAt u outer base next n (.loose names body) site a sc fuel
      held) :
    Here w cx h classSide ownAt (u.enter (looseVars base names)) outer (base + names.length) next n
      body site a sc fuel held where
  sound := here.sound.loose
  standing := here.standing.enter _
  follows := here.follows.loose base names
  inBlock := here.inBlock
  holds := here.holds.enter _

variable [DecidableEq V] {P : CodeUnit → LexUnit → List Expr → Prop} {stmts : List (List Expr)}
  {A : Act V W V}

/-- A dissolved block that is activated without arguments. -/
theorem sim_dissolved {params temps : List String}
    (here : Here w cx h classSide ownAt u outer base next n (.dissolved (params ++ temps) body) site
      a sc fuel held) {e : Nat → Emit}
    (sim : Carried P a fuel w (u.enter (hoistedVars next (params ++ temps))) outer
      (base + (params ++ temps).length) (next + (params ++ temps).length) held body stmts (e next) []
      A fun v => [v]) :
    Carried P a fuel w u outer base next held (.dissolved (params ++ temps) body) stmts
      (newSlots (params ++ temps).length e) [] (within (opened params temps [] false) A)
      fun v => [v] := by
  have inner := here.dissolved.sound
  refine sim_newSlots (sim_within sim (fun s slots related => ?_) fun v s slots related =>
    related.leave inner)
  refine related.enter inner ?_ fun x l k found declared kept => ?_
  · rw [opened_names, hoistedVars_names]
  · obtain rfl := opened_unassigned found
    refine ⟨by simp, fun _ => here.holds.entered_none inner declared kept fun slot is => ?_⟩
    obtain ⟨i, -, rfl⟩ := hoistedVars_slot is
    exact Nat.le_add_right _ _

/-- A dissolved block that hoists nothing, activated without arguments. -/
theorem sim_loose {params temps : List String}
    (here : Here w cx h classSide ownAt u outer base next n (.loose (params ++ temps) body) site a sc
      fuel held) {e : Emit}
    (sim : Carried P a fuel w (u.enter (looseVars base (params ++ temps))) outer
      (base + (params ++ temps).length) next held body stmts e [] A fun v => [v]) :
    Carried P a fuel w u outer base next held (.loose (params ++ temps) body) stmts e []
      (within (opened params temps [] false) A) fun v => [v] := by
  have inner := here.loose.sound
  refine sim_within sim (fun s slots related => ?_) fun v s slots related => related.leave inner
  refine related.enter inner ?_ fun x l k found declared kept => ?_
  · rw [opened_names, looseVars_names]
  · obtain rfl := opened_unassigned found
    refine ⟨by simp, fun _ => here.holds.entered_none inner declared kept fun slot is => ?_⟩
    rw [looseVars_noSlot] at is
    cases is

/-- The receiver that is not nil becomes the block's parameter. -/
theorem sim_ifnotnil {param : String} {params temps : List String}
    (here : Here w cx h classSide ownAt u outer base next n
      (.dissolved (param :: params ++ temps) body) site a sc fuel held) {e : Nat → Emit} {v : V}
    (sim : Carried P a fuel w (u.enter (hoistedVars next (param :: params ++ temps))) outer
      (base + (param :: params ++ temps).length) (next + (param :: params ++ temps).length) held body
      stmts (e next) [] A fun v => [v]) :
    Carried P a fuel w u outer base next held (.dissolved (param :: params ++ temps) body) stmts
      (newSlots (param :: params ++ temps).length fun first =>
        op (.storeTempPop
          (((hoistNames cx.as8 first (param :: params ++ temps)).get param).getD 0)) ++ e first)
      [v] (within (opened (param :: params) temps [v] false) A) fun v => [v] := by
  have inner := here.dissolved.sound
  have low : next < 256 := by
    have := here.sound.inside.slots
    simp only [Outline.slots, List.length_cons, List.length_append] at this
    omega
  have own : ((hoistedVars next (param :: params ++ temps)).lookup param).bind Storage.slot? =
      some next := by
    simp [hoistedVars, Storage.slot?]
  have slot : ((hoistNames cx.as8 next (param :: params ++ temps)).get param).getD 0 = next := by
    rw [hoistNames_get _ _ (List.nodup_append.mp here.sound.apart.1).1, own, Option.map_some,
      Option.getD_some, here.standing.for_.small next low]
  let R : Rel V W := fun t slots => ∃ s, t = State.push
    (opened (param :: params) temps [v] false) s ∧ Corresponds w u held s slots
  suffices bound : Plain a R [v] (.storeTempPop next) []
      (Corresponds w (u.enter (hoistedVars next (param :: params ++ temps))) held) by
    refine sim_newSlots ?_
    rw [slot]
    exact sim_within (Sim.opThen bound sim) (fun s slots related => ⟨s, rfl, related⟩)
      fun v s slots related => related.leave inner
  refine plain_storeTempPop ?_
  rintro t slots ⟨s, rfl, related⟩
  have poked := related.poke here.sound here.holds (Nat.le_refl next) v
  refine poked.enter inner ?_ fun x l k found declared kept => ?_
  · rw [opened_names, hoistedVars_names]
  · have free : held k = none := here.holds.entered_none inner declared kept fun slot is => by
      obtain ⟨i, -, rfl⟩ := hoistedVars_slot is
      exact Nat.le_add_right _ _
    rcases opened_lookup found with ⟨i, isParam, rfl⟩ | ⟨-, rfl⟩
    · refine ⟨fun v' is => ?_, fun _ => free⟩
      cases i with
      | succ i => cases is
      | zero =>
        cases is
        cases isParam
        have hoisted : (u.enter (hoistedVars next (param :: params ++ temps))).hoistSlot param =
            some next := by
          rw [hoistSlot_enter, own]
        obtain rfl := kept_unique (.inl hoisted) kept
        exact Function.update_self _ _ _
    · exact ⟨by simp, fun _ => free⟩

/-! ## Counted loops -/

/-- The counter and the limit of a loop are in their slots. -/
def counting (held : Nat → Option V) (iSlot limSlot : Nat) (limit i : V) : Nat → Option V :=
  Function.update (Function.update held iSlot (some i)) limSlot (some limit)

theorem countedLoop_eq (iSlot limSlot : Nat) (e : Emit) :
    countedLoop iSlot limSlot e = newLabel fun l0 => newLabel fun l2 => op (.bind l0) ++
      ((op (.pushTemp iSlot) ++ (op (.pushTemp limSlot) ++ op (.send false "<=" 1))) ++
        (op (branchItem (!true) l2) ++
          ((e ++ (op .pop ++ (op (.pushTemp iSlot) ++ (op (.pushSmiI8 1) ++
            (op (.send false "+" 1) ++ op (.storeTempPop iSlot)))))) ++
              (op (.jumpBack l0) ++ op (.bind l2))))) := by
  unfold countedLoop
  simp only [Emit.append_assoc]
  rfl

/-- The loop, over a body that keeps the counter and the limit. -/
theorem sim_countedLoop {o : Outline} {m nextB : Nat} {lex : List LexUnit}
    (sound : Sound w ownAt u outer base next n o) (behaviour : sc.behaviour = a.behaviour)
    (bound : sc.fuel = fuel) {iSlot limSlot : Nat} (above : next ≤ iSlot) (apart : iSlot ≠ limSlot)
    {e : Emit} {limit : V} {B : V → Act V W V}
    (body : ∀ i, Sim P a fuel nextB m lex stmts
      (Corresponds w u (counting held iSlot limSlot limit i)) e [] (B i) (fun v => [v])
      fun _ => Corresponds w u (counting held iSlot limSlot limit i)) (first : V) :
    Sim P a fuel nextB m lex stmts (Corresponds w u (counting held iSlot limSlot limit first))
      (countedLoop iSlot limSlot e) [] (sc.countedLoop limit B first) (fun _ => [])
      fun _ s slots => ∃ i, Corresponds w u (counting held iSlot limSlot limit i) s slots := by
  have counter : ∀ i (s : State V W) slots,
      Corresponds w u (counting held iSlot limSlot limit i) s slots → slots iSlot = i := by
    intro i s slots related
    refine related.held iSlot i ?_
    rw [counting, Function.update_of_ne apart, Function.update_self]
  have bounded : ∀ i (s : State V W) slots,
      Corresponds w u (counting held iSlot limSlot limit i) s slots → slots limSlot = limit := by
    intro i s slots related
    refine related.held limSlot limit ?_
    rw [counting, Function.update_self]
  have again : ∀ i i' (s : State V W) slots, Corresponds w u (counting held iSlot limSlot limit i) s slots →
      Corresponds w u (counting held iSlot limSlot limit i') s (Function.update slots iSlot i') := by
    intro i i' s slots related
    have held' := related.hold sound above i'
    unfold counting at held' ⊢
    rwa [Function.update_comm apart.symm, Function.update_idem] at held'
  rw [countedLoop_eq, Scene.countedLoop, bound]
  refine Sim.onlySecond (sim_loop behaviour true (I := fun i =>
    Corresponds w u (counting held iSlot limSlot limit i))
    (C := fun i => sc.send false "<=" i [limit]) (fun i => ?_) (fun i => ?_) first)
  · refine Sim.opThen (plain_pushTemp (counter i)) (Sim.opThen (plain_pushTemp (bounded i)) ?_)
    exact sim_send behaviour stable_corresponds fun _ _ _ => rfl
  · refine Sim.onlyFirst ((body i).bind a.self fun v => ?_)
    refine Sim.opThen plain_pop (Sim.opThen (plain_pushTemp (counter i)) ?_)
    refine Sim.opThen (plain_push (v := a.behaviour.int 1) (by simp) fun _ _ => rfl) ?_
    rw [← behaviour]
    have send : Sim P a fuel (nextB + m) 0 [] []
        (Corresponds w u (counting held iSlot limSlot limit i)) (op (.send false "+" 1))
        [sc.behaviour.int 1, i] (sc.send false "+" i [sc.behaviour.int 1]) (fun v => [v])
        fun _ => Corresponds w u (counting held iSlot limSlot limit i) :=
      sim_send behaviour stable_corresponds fun _ _ _ => rfl
    exact Sim.onlyFirst (send.bind a.self fun i' => Plain.sim (plain_storeTempPop (again i i')))

omit [DecidableEq V] in
theorem counting_less (holds : Holds w u next held) {iSlot limSlot : Nat} (aboveI : next ≤ iSlot)
    (aboveLim : next ≤ limSlot) (limit i : V) :
    ∀ k v, held k = some v → counting held iSlot limSlot limit i k = some v := by
  intro k v is
  have := (holds k v is).1
  rw [counting, Function.update_of_ne (by omega), Function.update_of_ne (by omega)]
  exact is

theorem Here.counting_holds {o : Outline}
    (here : Here w cx h classSide ownAt u outer base next n o site a sc fuel held)
    {iSlot limSlot next' : Nat} (limit i : V) (belowI : iSlot < next') (belowLim : limSlot < next')
    (aboveI : next ≤ iSlot) (aboveLim : next ≤ limSlot) :
    Holds w u next' (counting held iSlot limSlot limit i) := by
  intro k v is
  have above := fun info found => here.sound.inside.above info found
  unfold counting at is
  by_cases isLim : k = limSlot
  · subst isLim
    exact ⟨belowLim, fun info found => Nat.le_trans (above info found) aboveLim⟩
  rw [Function.update_of_ne isLim] at is
  by_cases isI : k = iSlot
  · subst isI
    exact ⟨belowI, fun info found => Nat.le_trans (above info found) aboveI⟩
  rw [Function.update_of_ne isI] at is
  have := (here.holds k v is).1
  exact ⟨by omega, (here.holds k v is).2⟩

theorem Here.timesRepeat_body {names : List String}
    (here : Here w cx h classSide ownAt u outer base next n
      (.seq .hidden (.seq .hidden (.loose names body))) site a sc fuel held) (v i : V) :
    Here w cx h classSide ownAt (u.enter (looseVars base names)) outer (base + names.length)
      (next + 1 + 1) n body site a sc fuel (counting held (next + 1) next v i) := by
  have third : Here w cx h classSide ownAt u outer base (next + 1 + 1) n (.loose names body) site a sc
      fuel held := here.second.second
  have holds : Holds w u (next + 1 + 1) (counting held (next + 1) next v i) :=
    here.counting_holds v i (by omega) (by omega) (by omega) (by omega)
  have counted : Here w cx h classSide ownAt u outer base (next + 1 + 1) n (.loose names body) site a
      sc fuel (counting held (next + 1) next v i) := { third with holds := holds }
  exact counted.loose

/-- `timesRepeat:` from its count on: the limit is the count, the counter starts at one. -/
theorem sim_timesRepeat {params temps : List String}
    (here : Here w cx h classSide ownAt u outer base next n
      (.seq .hidden (.seq .hidden (.loose (params ++ temps) body))) site a sc fuel held)
    {e : Emit} {v : V}
    (sim : ∀ i, Carried P a fuel w (u.enter (looseVars base (params ++ temps))) outer
      (base + (params ++ temps).length) (next + 1 + 1) (counting held (next + 1) next v i) body stmts
      e [] A fun v => [v]) :
    Carried P a fuel w u outer base next held
      (.seq .hidden (.seq .hidden (.loose (params ++ temps) body))) stmts
      (newSlots 1 fun limSlot => op (.storeTempPop (cx.as8 limSlot)) ++ newSlots 1 fun iSlot =>
        op (.pushSmiI8 1) ++ op (.storeTempPop (cx.as8 iSlot)) ++
          countedLoop (cx.as8 iSlot) (cx.as8 limSlot) e)
      [v] (sc.countedLoop v (fun _ => within (opened params temps [] false) A)
        (sc.behaviour.int 1)) fun _ => [] := by
  have low : next + 1 < 256 := by
    have := here.sound.inside.slots
    simp only [Outline.slots] at this
    omega
  have third : Here w cx h classSide ownAt u outer base (next + 1 + 1) n
      (.loose (params ++ temps) body) site a sc fuel held := here.second.second
  have turn : ∀ i, Carried P a fuel w u outer base (next + 1 + 1) (counting held (next + 1) next v i)
      (.loose (params ++ temps) body) stmts e [] (within (opened params temps [] false) A)
      fun v => [v] := fun i => sim_loose
    { third with holds := here.counting_holds v i (by omega) (by omega) (by omega) (by omega) } (sim i)
  have loop := sim_countedLoop here.sound here.standing.behaviour here.standing.fuel (by omega)
    (by omega) turn (sc.behaviour.int 1)
  have smallLim : cx.as8 next = next := here.standing.for_.small next (by omega)
  have smallI : cx.as8 (next + 1) = next + 1 := here.standing.for_.small (next + 1) low
  have storeLim : Plain a (Corresponds (W := W) w u held) [v] (.storeTempPop next) []
      (Corresponds w u (Function.update held next (some v))) :=
    plain_storeTempPop fun s slots related => related.hold here.sound (Nat.le_refl next) v
  have storeI : Plain a (Corresponds (W := W) w u (Function.update held next (some v)))
      [sc.behaviour.int 1] (.storeTempPop (next + 1)) []
      (Corresponds w u (counting held (next + 1) next v (sc.behaviour.int 1))) := by
    refine plain_storeTempPop fun s slots related => ?_
    rw [counting, Function.update_comm (by omega)]
    exact related.hold here.sound (Nat.le_add_right next 1) _
  have pushOne : Plain a (Corresponds (W := W) w u (Function.update held next (some v))) []
      (.pushSmiI8 1) [sc.behaviour.int 1] (Corresponds w u (Function.update held next (some v))) :=
    plain_push (by simp) fun _ _ => by rw [here.standing.behaviour]; rfl
  have done := loop.imp (fun _ _ => id) (fun _ s slots related => by
    obtain ⟨i, related⟩ := related
    exact related.release (counting_less here.holds (by omega) (Nat.le_refl next) v i))
  refine Sim.cast (n := 1 + (1 + body.slots)) (sim_newSlots ?_) rfl rfl
  rw [smallLim]
  refine Sim.opThen storeLim (sim_newSlots ?_)
  rw [smallI, Emit.append_assoc]
  exact Sim.opThen pushOne (Sim.opThen storeI done)

theorem Here.counted_body {loopVar : String} {temps : List String}
    (here : Here w cx h classSide ownAt u outer base next n (.counted loopVar temps limit body) site a
      sc fuel held) (lim i : V) :
    Here w cx h classSide ownAt
      (u.enter ((loopVar, .hoisted next) :: looseVars (base + limit.folded.length + 1) temps)) outer
      (base + limit.folded.length + 1 + temps.length) (next + (2 + limit.slots)) (n + limit.reals)
      body (site.push ⟨[(loopVar, cx.as8 next)]⟩) a sc fuel
      (counting held next (next + 1 + limit.slots) lim i) where
  sound := here.sound.counted_body
  standing := here.standing.enter _
  follows := here.follows.push fun name => by
    simp only [HoistScope.get, List.lookup_cons, List.lookup_nil]
    cases name == loopVar with
    | true => rfl
    | false => simp [looseVars_noSlot]
  inBlock := here.inBlock
  holds := (here.counting_holds lim i (by omega) (by omega) (Nat.le_refl next) (by omega)).enter _

theorem Here.counted_limit {loopVar : String} {temps : List String}
    (here : Here w cx h classSide ownAt u outer base next n (.counted loopVar temps limit body) site a
      sc fuel held) (i : V) :
    Here w cx h classSide ownAt u outer base (next + 1) n limit site a sc fuel
      (Function.update held next (some i)) :=
  { here with
    sound := here.sound.counted_limit
    holds := here.holds.hold here.sound (Nat.le_refl next) i }

/-- The block of `to:do:` opens: its loop variable is the counter. -/
theorem Corresponds.enter_counted {loopVar : String} {params temps : List String} {s : State V W}
    {slots : Nat → V} {lim i : V}
    (here : Here w cx h classSide ownAt u outer base next n
      (.counted loopVar (params ++ temps) limit body) site a sc fuel held)
    (related : Corresponds w u (counting held next (next + 1 + limit.slots) lim i) s slots) :
    Corresponds w (u.enter ((loopVar, .hoisted next) ::
        looseVars (base + limit.folded.length + 1) (params ++ temps)))
      (counting held next (next + 1 + limit.slots) lim i)
      (s.push (opened (loopVar :: params) temps [i] true)) slots := by
  have inner := here.sound.counted_body
  have apart : loopVar ∉ params ++ temps := by
    have nodup := here.sound.apart.2.1
    rw [List.cons_append, List.nodup_cons, List.mem_append] at nodup
    exact fun mem => nodup.1 (.inl mem)
  refine related.enter inner ?_ fun x l k found declared kept => ?_
  · rw [opened_names, List.map_cons, looseVars_names]
    rfl
  · rcases opened_lookup found with ⟨j, isParam, rfl⟩ | ⟨isTemp, rfl⟩
    · refine ⟨fun v' is => ?_, fun counter => by cases counter⟩
      cases j with
      | succ j => cases is
      | zero =>
        cases is
        cases isParam
        have hoisted : (u.enter ((loopVar, Storage.hoisted next) ::
            looseVars (base + limit.folded.length + 1) (params ++ temps))).hoistSlot loopVar =
            some next := by
          rw [hoistSlot_enter, List.lookup_cons]
          simp [Storage.slot?]
        obtain rfl := kept_unique (.inl hoisted) kept
        refine related.held next _ ?_
        rw [counting, Function.update_of_ne (by omega), Function.update_self]
    · have holds : Holds w u (next + (2 + limit.slots))
          (counting held next (next + 1 + limit.slots) lim i) :=
        here.counting_holds lim i (by omega) (by omega) (Nat.le_refl next) (by omega)
      refine ⟨by simp, fun _ => holds.entered_none inner declared kept fun slot is => ?_⟩
      obtain ⟨rfl, -⟩ := counted_slot is
      exact absurd (List.mem_append_right _ isTemp) apart

/-- A counted loop from its limit on. -/
theorem sim_limitLoop {o : Outline} {m : Nat} {lex : List LexUnit}
    (here : Here w cx h classSide ownAt u outer base next n o site a sc fuel held)
    {iSlot limSlot : Nat} (above : next ≤ iSlot) (aboveLim : next ≤ limSlot)
    (apart : iSlot ≠ limSlot) (small : limSlot < 256) {e : Emit} {lim : V} {B : V → Act V W V}
    (turn : ∀ i, Sim P a fuel (limSlot + 1) m lex stmts
      (Corresponds w u (counting held iSlot limSlot lim i)) e [] (B i) (fun v => [v])
      fun _ => Corresponds w u (counting held iSlot limSlot lim i)) (first : V) :
    Sim P a fuel limSlot (1 + m) lex stmts
      (Corresponds w u (Function.update held iSlot (some first)))
      (newSlots 1 fun limSlot =>
        op (.storeTempPop (cx.as8 limSlot)) ++ countedLoop iSlot (cx.as8 limSlot) e)
      [lim] (sc.countedLoop lim B first) (fun _ => []) fun _ => Corresponds w u held := by
  have loop := sim_countedLoop here.sound here.standing.behaviour here.standing.fuel above apart turn
    first
  refine sim_newSlots ?_
  rw [here.standing.for_.small limSlot small]
  refine Sim.opThen (plain_storeTempPop ?_) (loop.imp (fun _ _ => id) ?_)
  · intro s slots related
    exact related.hold here.sound aboveLim lim
  · rintro - s slots ⟨i, related⟩
    exact related.release (counting_less here.holds above aboveLim lim i)

/-- `to:do:` from its first value on. -/
theorem sim_toDo {loopVar : String} {params temps : List String}
    (here : Here w cx h classSide ownAt u outer base next n
      (.counted loopVar (params ++ temps) limit body) site a sc fuel held)
    {stmts' : List (List Expr)} {eLimit : Emit} {e : Nat → Emit} {L : Act V W V} {first : V}
    (simLimit : Carried P a fuel w u outer base (next + 1) (Function.update held next (some first))
      limit stmts eLimit [] L fun v => [v])
    (sim : ∀ lim i, Carried P a fuel w
      (u.enter ((loopVar, .hoisted next) ::
        looseVars (base + limit.folded.length + 1) (params ++ temps))) outer
      (base + limit.folded.length + 1 + (params ++ temps).length) (next + (2 + limit.slots))
      (counting held next (next + 1 + limit.slots) lim i) body stmts' (e (cx.as8 next)) [] A
      fun v => [v]) :
    Carried P a fuel w u outer base next held (.counted loopVar (params ++ temps) limit body)
      (stmts ++ stmts')
      (newSlots 1 fun iSlot => op (.storeTempPop (cx.as8 iSlot)) ++ eLimit ++ newSlots 1 fun limSlot =>
        op (.storeTempPop (cx.as8 limSlot)) ++
          countedLoop (cx.as8 iSlot) (cx.as8 limSlot) (e (cx.as8 iSlot)))
      [first] (L >>= fun lim =>
        sc.countedLoop lim (fun i => within (opened (loopVar :: params) temps [i] true) A) first)
      fun _ => [] := by
  have fits := here.sound.inside.slots
  simp only [Outline.slots] at fits
  have small : cx.as8 next = next := here.standing.for_.small next (by omega)
  have inner := here.sound.counted_body
  have turn := fun lim i => (sim_within (sim lim i)
    (fun s slots related => Corresponds.enter_counted here related)
    fun v s slots related => related.leave inner).cast
      (show _ = next + 1 + limit.slots + 1 by omega) rfl
  have after := fun lim => sim_limitLoop here (Nat.le_refl next)
    (show next ≤ next + 1 + limit.slots by omega) (by omega) (by omega) (turn lim) first
  have store : Plain a (Corresponds (W := W) w u held) [first] (.storeTempPop next) []
      (Corresponds w u (Function.update held next (some first))) :=
    plain_storeTempPop fun s slots related => related.hold here.sound (Nat.le_refl next) first
  refine (sim_newSlots (Sim.of_eq (Sim.opThen store (simLimit.bind a.self after)) ?_)).cast rfl ?_
  · rw [Emit.append_assoc, small]
  · simp only [Outline.slots]
    omega

end

end WinVm.Frontend
