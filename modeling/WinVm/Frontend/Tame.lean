import WinVm.Frontend.ScopingTruth

/-!
# Tame methods

The methods whose dissolved blocks keep their locals to themselves: a local is used in its
own unit only, and has the name of nothing else around. `Tame` says this of an occurrence,
`Apart` of the blocks. Every variable of such a method has a place of its own: a local of a
dissolved block is kept in a frame slot that no other variable shares, even where code
generation leaves it to capture analysis, because no capture marks it.
-/

namespace WinVm.Frontend

/-! ## Conditions on the program -/

/-- The local of a dissolved block of the unit that the name is. -/
def UnitScope.local? (u : UnitScope) (name : String) : Option Storage :=
  u.inner.findSome? fun vars => vars.lookup name

def Occurrence.isLocal (o : Occurrence) : Bool :=
  (o.chain.head?.bind fun u => u.local? o.name).isSome

/-- An enclosing unit declares the name itself, and no unit on the way has a dissolved block
with such a local; or no unit has the name at all. -/
def Occurrence.TameAt (o : Occurrence) : Option Declaration → Prop
  | some d =>
    (∀ u ∈ o.chain.take d.level, o.name ∉ u.names) ∧ ∀ u ∈ o.chain[d.level]?, u.local? o.name = none
  | none => ∀ u ∈ o.chain, o.name ∉ u.names

/-- A name is a local of a dissolved block around it in its own unit, or the name of no
dissolved block's local. -/
def Occurrence.Tame (o : Occurrence) : Prop :=
  o.isLocal = true ∨ o.TameAt o.declaration

instance (o : Occurrence) : ∀ d, Decidable (o.TameAt d)
  | some d => inferInstanceAs (Decidable (
    (∀ u ∈ o.chain.take d.level, o.name ∉ u.names) ∧
      ∀ u ∈ o.chain[d.level]?, u.local? o.name = none))
  | none => inferInstanceAs (Decidable (∀ u ∈ o.chain, o.name ∉ u.names))

instance (o : Occurrence) : Decidable o.Tame :=
  inferInstanceAs (Decidable (_ ∨ _))

namespace Outline

/-- No dissolved block declares a name twice, a name of a dissolved block around it in the
unit, or a name of the unit's own. -/
def Apart (own : List String) : List String → Outline → Prop
  | _, done | _, occ _ _ | _, hidden => True
  | mine, seq a b | mine, arms a b => a.Apart own mine ∧ b.Apart own mine
  | mine, dissolved names body | mine, loose names body =>
    (names ++ mine).Nodup ∧ (∀ x ∈ names, x ∉ own) ∧ body.Apart own (names ++ mine)
  | mine, counted loopVar temps limit body =>
    limit.Apart own mine ∧ (loopVar :: temps ++ mine).Nodup ∧ (∀ x ∈ loopVar :: temps, x ∉ own) ∧
      body.Apart own (loopVar :: temps ++ mine)
  | _, real _ params temps body => body.Apart (params ++ temps) []

instance decidableApart (own : List String) : ∀ (mine : List String) (o : Outline),
    Decidable (o.Apart own mine)
  | _, done | _, occ _ _ | _, hidden => inferInstanceAs (Decidable True)
  | mine, seq a b | mine, arms a b =>
    have := decidableApart own mine a
    have := decidableApart own mine b
    inferInstanceAs (Decidable (a.Apart own mine ∧ b.Apart own mine))
  | mine, dissolved names body | mine, loose names body =>
    have := decidableApart own (names ++ mine) body
    inferInstanceAs (Decidable ((names ++ mine).Nodup ∧ (∀ x ∈ names, x ∉ own) ∧
      body.Apart own (names ++ mine)))
  | mine, counted loopVar temps limit body =>
    have := decidableApart own mine limit
    have := decidableApart own (loopVar :: temps ++ mine) body
    inferInstanceAs (Decidable (limit.Apart own mine ∧ (loopVar :: temps ++ mine).Nodup ∧
      (∀ x ∈ loopVar :: temps, x ∉ own) ∧ body.Apart own (loopVar :: temps ++ mine)))
  | _, real _ params temps body =>
    have := decidableApart (params ++ temps) [] body
    inferInstanceAs (Decidable (body.Apart (params ++ temps) []))

end Outline

/-- The dissolved blocks of the method keep their locals to themselves. -/
structure MethodNode.Tame (frameTemps : Nat → Nat) (m : MethodNode) : Prop where
  apart : (outlineAll m.body).Apart (m.params ++ m.temps) []
  occurrences : ∀ l ∈ lexUnits frameTemps m, ∀ o ∈ l.occurrences, o.Tame

/-! ## Which unit owns what -/

namespace Outline

/-- The names that the real blocks declare, in the order of their numbers. -/
def owns : Outline → List (List String)
  | done | occ _ _ | hidden => []
  | seq a b | arms a b => a.owns ++ b.owns
  | dissolved _ body | loose _ body => body.owns
  | counted _ _ limit body => limit.owns ++ body.owns
  | real _ params temps body => (params ++ temps) :: body.owns

theorem length_owns (o : Outline) : o.owns.length = o.reals := by
  induction o with
  | done | occ | hidden => rfl
  | seq a b iha ihb | arms a b iha ihb => simp [owns, reals, iha, ihb]
  | dissolved names body ih | loose names body ih => simp [owns, reals, ih]
  | counted loopVar temps limit body ihl ihb => simp [owns, reals, ihl, ihb]
  | real block params temps body ih => simp [owns, reals, ih, Nat.add_comm]

/-- `ownAt` answers what the real blocks declare, numbered from `n` on. -/
def Owned (ownAt : Nat → List String) (n : Nat) : Outline → Prop
  | done | occ _ _ | hidden => True
  | seq a b | arms a b => a.Owned ownAt n ∧ b.Owned ownAt (n + a.reals)
  | dissolved _ body | loose _ body => body.Owned ownAt n
  | counted _ _ limit body => limit.Owned ownAt n ∧ body.Owned ownAt (n + limit.reals)
  | real _ params temps body => ownAt n = params ++ temps ∧ body.Owned ownAt (n + 1)

theorem owned_of {ownAt : Nat → List String} {o : Outline} {n : Nat}
    (is : ∀ i x, o.owns[i]? = some x → ownAt (n + i) = x) : o.Owned ownAt n := by
  have split : ∀ {a b : Outline} {n : Nat},
      (∀ i x, (a.owns ++ b.owns)[i]? = some x → ownAt (n + i) = x) →
      (∀ i x, a.owns[i]? = some x → ownAt (n + i) = x) ∧
        ∀ i x, b.owns[i]? = some x → ownAt (n + a.reals + i) = x := by
    intro a b n is
    refine ⟨fun i x at_ => is i x ?_, fun i x at_ => ?_⟩
    · rw [List.getElem?_append_left (List.getElem?_eq_some_iff.mp at_).1, at_]
    · rw [Nat.add_assoc]
      refine is _ x ?_
      rw [List.getElem?_append_right (by rw [length_owns]; omega), length_owns,
        Nat.add_sub_cancel_left, at_]
  induction o generalizing n with
  | done | occ | hidden => trivial
  | seq a b iha ihb | arms a b iha ihb => exact ⟨iha (split is).1, ihb (split is).2⟩
  | dissolved names body ih | loose names body ih => exact ih is
  | counted loopVar temps limit body ihl ihb => exact ⟨ihl (split is).1, ihb (split is).2⟩
  | real block params temps body ih =>
    refine ⟨is 0 _ rfl, ih fun i x at_ => ?_⟩
    rw [Nat.add_assoc, Nat.add_comm 1 i]
    exact is (i + 1) x (by simpa [owns] using at_)

end Outline

/-- The units of a chain own what `ownAt` says. -/
def OwnChain (ownAt : Nat → List String) (chain : List UnitScope) : Prop :=
  ∀ v ∈ chain, v.own = ownAt v.scope

theorem OwnChain.enter {ownAt : Nat → List String} {u : UnitScope} {outer : List UnitScope}
    {vars : List (String × Storage)} (own : OwnChain ownAt (u :: outer)) :
    OwnChain ownAt (u.enter vars :: outer) := by
  intro v mem
  rcases List.mem_cons.mp mem with rfl | mem
  · exact own u (by simp)
  · exact own v (by simp [mem])

/-- The occurrences of an outline, and of the units in it. -/
def Outline.Has (frameTemps : Nat → Nat) (o : Outline) (u : UnitScope) (outer : List UnitScope)
    (base next : Nat) (occ : Occurrence) : Prop :=
  occ ∈ o.occurrences u outer base next ∨
    ∃ l ∈ o.units frameTemps u outer base next, occ ∈ l.occurrences

section

variable {frameTemps : Nat → Nat} {u : UnitScope} {outer : List UnitScope} {base next : Nat}
  {occ : Occurrence} {a b body limit : Outline}

theorem has_seq : (Outline.seq a b).Has frameTemps u outer base next occ ↔
    a.Has frameTemps u outer base next occ ∨
      b.Has frameTemps u outer (base + a.folded.length) (next + a.slots) occ := by
  simp only [Outline.Has, Outline.occurrences, Outline.units, List.mem_append]
  grind

theorem has_arms : (Outline.arms a b).Has frameTemps u outer base next occ ↔
    a.Has frameTemps u outer base (next + b.slots) occ ∨
      b.Has frameTemps u outer (base + a.folded.length) next occ := by
  simp only [Outline.Has, Outline.occurrences, Outline.units, List.mem_append]
  grind

theorem has_counted {loopVar : String} {temps : List String} :
    (Outline.counted loopVar temps limit body).Has frameTemps u outer base next occ ↔
      limit.Has frameTemps u outer base (next + 1) occ ∨
        body.Has frameTemps
          (u.enter ((loopVar, .hoisted next) :: looseVars (base + limit.folded.length + 1) temps))
          outer (base + limit.folded.length + 1 + temps.length) (next + (2 + limit.slots)) occ := by
  simp only [Outline.Has, Outline.occurrences, Outline.units, List.mem_append]
  grind

theorem has_real {scope : Nat} {params temps : List String} :
    (Outline.real scope params temps body).Has frameTemps u outer base next occ ↔
      body.Has frameTemps (Outline.realScope scope params temps body) (u :: outer)
        (params ++ temps).length (frameTemps scope + params.length) occ := by
  simp only [Outline.Has, Outline.occurrences, Outline.units, List.mem_append, List.not_mem_nil,
    false_or, List.mem_singleton]
  grind

end

/-- The chains of the occurrences of an outline, and of the units in it. -/
theorem ownChain_of_has {ownAt : Nat → List String} {frameTemps : Nat → Nat} {occ : Occurrence}
    (o : Outline) : ∀ (u : UnitScope) (outer : List UnitScope) (base next n : Nat), o.Numbered n →
      o.Owned ownAt n → OwnChain ownAt (u :: outer) → o.Has frameTemps u outer base next occ →
      OwnChain ownAt occ.chain := by
  induction o with
  | done | hidden => simp [Outline.Has, Outline.occurrences, Outline.units]
  | occ name isWrite =>
    intro u outer base next n _ _ own has
    obtain rfl : occ = ⟨u :: outer, name, isWrite⟩ := by
      simpa [Outline.Has, Outline.occurrences, Outline.units] using has
    exact own
  | seq a b iha ihb =>
    intro u outer base next n numbered owned own has
    rcases has_seq.mp has with has | has
    · exact iha u outer base next n numbered.1 owned.1 own has
    · exact ihb u outer _ _ _ numbered.2 owned.2 own has
  | arms a b iha ihb =>
    intro u outer base next n numbered owned own has
    rcases has_arms.mp has with has | has
    · exact iha u outer base _ n numbered.1 owned.1 own has
    · exact ihb u outer _ next _ numbered.2 owned.2 own has
  | dissolved names body ih =>
    intro u outer base next n numbered owned own
    exact ih _ outer _ _ n numbered owned own.enter
  | loose names body ih =>
    intro u outer base next n numbered owned own
    exact ih _ outer _ _ n numbered owned own.enter
  | counted loopVar temps limit body ihl ihb =>
    intro u outer base next n numbered owned own has
    rcases has_counted.mp has with has | has
    · exact ihl u outer base _ n numbered.1 owned.1 own has
    · exact ihb _ outer _ _ _ numbered.2 owned.2 own.enter has
  | real scope params temps body ih =>
    intro u outer base next n numbered owned own has
    obtain ⟨rfl, numbered⟩ := numbered
    refine ih _ (u :: outer) _ _ _ numbered owned.2 ?_ (has_real.mp has)
    intro v mem
    rcases List.mem_cons.mp mem with rfl | mem
    · exact owned.1.symm
    · exact own v mem

/-- Every reference of the walk is an occurrence. -/
theorem occurrence_of_ref {frameTemps : Nat → Nat} (o : Outline) :
    ∀ (u : UnitScope) (outer : List UnitScope) (base next : Nat), ∀ r ∈ o.refs u.scope,
      ∃ occ, o.Has frameTemps u outer base next occ ∧ occ.name = r.2 ∧
        ∃ v rest, occ.chain = v :: rest ∧ v.scope = r.1 := by
  induction o with
  | done | hidden => simp [Outline.refs]
  | occ name isWrite =>
    intro u outer base next r mem
    obtain rfl : r = (u.scope, name) := by simpa [Outline.refs] using mem
    exact ⟨⟨u :: outer, name, isWrite⟩, .inl (by simp [Outline.occurrences]), rfl, u, outer, rfl, rfl⟩
  | seq a b iha ihb =>
    intro u outer base next r mem
    rcases List.mem_append.mp mem with mem | mem
    · obtain ⟨occ, has, is⟩ := iha u outer base next r mem
      exact ⟨occ, has_seq.mpr (.inl has), is⟩
    · obtain ⟨occ, has, is⟩ := ihb u outer (base + a.folded.length) (next + a.slots) r mem
      exact ⟨occ, has_seq.mpr (.inr has), is⟩
  | arms a b iha ihb =>
    intro u outer base next r mem
    rcases List.mem_append.mp mem with mem | mem
    · obtain ⟨occ, has, is⟩ := iha u outer base (next + b.slots) r mem
      exact ⟨occ, has_arms.mpr (.inl has), is⟩
    · obtain ⟨occ, has, is⟩ := ihb u outer (base + a.folded.length) next r mem
      exact ⟨occ, has_arms.mpr (.inr has), is⟩
  | dissolved names body ih =>
    intro u outer base next r mem
    exact ih (u.enter (hoistedVars next names)) outer (base + names.length) (next + names.length) r mem
  | loose names body ih =>
    intro u outer base next r mem
    exact ih (u.enter (looseVars base names)) outer (base + names.length) next r mem
  | counted loopVar temps limit body ihl ihb =>
    intro u outer base next r mem
    rcases List.mem_append.mp mem with mem | mem
    · obtain ⟨occ, has, is⟩ := ihl u outer base (next + 1) r mem
      exact ⟨occ, has_counted.mpr (.inl has), is⟩
    · obtain ⟨occ, has, is⟩ := ihb (u.enter ((loopVar, .hoisted next) ::
        looseVars (base + limit.folded.length + 1) temps)) outer
        (base + limit.folded.length + 1 + temps.length) (next + (2 + limit.slots)) r mem
      exact ⟨occ, has_counted.mpr (.inr has), is⟩
  | real scope params temps body ih =>
    intro u outer base next r mem
    obtain ⟨occ, has, is⟩ := ih (Outline.realScope scope params temps body) (u :: outer)
      (params ++ temps).length (frameTemps scope + params.length) r mem
    exact ⟨occ, has_real.mpr has, is⟩

/-! ## No capture of a local -/

/-- A capture marks a variable that its unit declares itself. -/
def NoCapture (w : Walk) (ownAt : Nat → List String) : Prop :=
  ∀ scope j, (ownAt scope).length ≤ j → w.isCaptured scope j = false

theorem findDefiningScope_none {w : Walk} {u : UnitScope} {outer : List UnitScope} {name : String}
    (ok : ChainOf w (u :: outer)) (absent : ∀ v ∈ u :: outer, name ∉ v.names) :
    w.findDefiningScope u.scope name = none := by
  rw [Walk.findDefiningScope, ok.staticChain, List.find?_eq_none]
  intro s mem
  obtain ⟨v, inChain, rfl⟩ := List.mem_map.mp mem
  obtain ⟨q, b, known⟩ := ok.known v inChain
  rw [contains_names known]
  simp [absent v inChain]

/-- A tame name that is no local is declared by the first unit that has it, itself. -/
theorem tame_declared {w : Walk} {o : Occurrence} (placed : o.Placed w)
    (tame : o.TameAt o.declaration) {pre post : List UnitScope} {t : UnitScope}
    (split : o.chain = pre ++ t :: post) (before : ∀ v ∈ pre, o.name ∉ v.names)
    (here : o.name ∈ t.names) :
    o.declaration = some ⟨pre.length, .var (t.own.idxOf o.name)⟩ ∧ o.name ∈ t.own := by
  have inT : t ∈ o.chain := by simp [split]
  cases declaration : o.declaration with
  | none =>
    rw [declaration] at tame
    exact absurd here (tame t inT)
  | some d =>
    obtain ⟨level, storage⟩ := d
    obtain ⟨x, atLevel, declares⟩ := lexical_some declaration
    rw [declaration] at tame
    obtain ⟨way, owned⟩ := tame
    dsimp only at atLevel declares way owned
    have inX : x ∈ o.chain := List.mem_of_getElem? atLevel
    have inNames := ((placed.valid x inX).declares declares).1
    have level_eq : level = pre.length := by
      rcases Nat.lt_trichotomy level pre.length with lt | same | lt
      · refine absurd inNames (before x ?_)
        rw [split, List.getElem?_append_left lt] at atLevel
        exact List.mem_of_getElem? atLevel
      · exact same
      · refine absurd here (way t ?_)
        rw [split, List.mem_take_iff_getElem]
        exact ⟨pre.length, by simp; omega, by simp⟩
    subst level_eq
    obtain rfl : x = t := by
      rw [split, List.getElem?_append_right (Nat.le_refl _)] at atLevel
      simpa using atLevel.symm
    have noLocal : x.inner.findSome? (fun vars => vars.lookup o.name) = none := owned x atLevel
    unfold UnitScope.declares at declares
    rw [noLocal] at declares
    dsimp only at declares
    split at declares
    · next own =>
      cases declares
      exact ⟨rfl, own⟩
    · cases declares

theorem noCapture_of_tame {w : Walk} {ownAt : Nat → List String} {all : Occurrence → Prop}
    (tame : ∀ occ, all occ → occ.Tame) (placed : ∀ occ, all occ → occ.Placed w)
    (own : ∀ occ, all occ → OwnChain ownAt occ.chain)
    (refs : ∀ r ∈ w.refs, ∃ occ, all occ ∧ occ.name = r.2 ∧
      ∃ v rest, occ.chain = v :: rest ∧ v.scope = r.1) : NoCapture w ownAt := by
  intro scope j beyond
  by_contra captured
  rw [Bool.not_eq_false, Walk.isCaptured, List.any_eq_true] at captured
  obtain ⟨⟨s, name⟩, mem, marks⟩ := captured
  rw [decide_eq_true_eq] at marks
  obtain ⟨occ, isOcc, rfl, v, rest, chain, rfl⟩ := refs _ mem
  have placed := placed occ isOcc
  have ok := placed.chain
  rw [chain] at ok
  by_cases has : ∃ u ∈ occ.chain, occ.name ∈ u.names
  · obtain ⟨pre, t, post, split, before, here⟩ := exists_first has
    rw [chain] at split
    obtain ⟨q, b, known⟩ := ok.known t (by rw [split]; simp)
    unfold Walk.mark at marks
    rw [findDefiningScope_at split ok before here] at marks
    dsimp only at marks
    rw [known.names_eq] at marks
    split at marks
    · next other =>
      cases marks
      have outside : pre ≠ [] := by
        rintro rfl
        obtain ⟨rfl, -⟩ : v = t ∧ rest = post := by simpa using split
        exact other rfl
      obtain ⟨head, pre', rfl⟩ := List.exists_cons_of_ne_nil outside
      obtain rfl : v = head := by simpa using (List.cons.inj split).1
      have mineT := own occ isOcc t (by rw [chain, split]; simp)
      rcases tame occ isOcc with isLocal | tame
      · have opened : (v.local? occ.name).isSome = true := by
          simpa [Occurrence.isLocal, chain] using isLocal
        obtain ⟨storage, found⟩ := Option.isSome_iff_exists.mp opened
        have declares : v.declares occ.name = some storage := by
          unfold UnitScope.local? at found
          simp [UnitScope.declares, found]
        have valid := placed.valid v (by rw [chain]; simp)
        exact before v (by simp) (valid.declares declares).1
      · obtain ⟨-, inOwn⟩ := tame_declared placed tame (by rw [chain]; exact split) before here
        have valid := placed.valid t (by rw [chain, split]; simp)
        obtain ⟨more, names⟩ := valid.own
        rw [← mineT, ← names, List.idxOf_append_of_mem inOwn] at beyond
        have := List.idxOf_lt_length_of_mem inOwn
        omega
    · cases marks
  · have absent : ∀ u ∈ v :: rest, occ.name ∉ u.names := fun u mem here =>
      has ⟨u, by rw [chain]; exact mem, here⟩
    rw [Walk.mark, findDefiningScope_none ok absent] at marks
    cases marks

/-! ## The place of a local -/

/-- The names of the open dissolved blocks. -/
def UnitScope.mine (u : UnitScope) : List String :=
  u.inner.flatMap fun vars => vars.map Prod.fst

/-- The frame slot of a local: the hoisted one, or that of the unit's first variable of the
name. -/
def UnitScope.Kept (w : Walk) (u : UnitScope) (name : String) (slot : Nat) : Prop :=
  u.hoistSlot name = some slot ∨ u.hoistSlot name = none ∧ ∃ info v,
    w.finish[u.scope]? = some info ∧ info.vars[u.names.idxOf name]? = some v ∧
      v.2.frameSlot = some slot

/-- The frame slot of a variable that the unit declares itself. -/
def UnitScope.OwnSlot (w : Walk) (u : UnitScope) (slot : Nat) : Prop :=
  ∃ info i v, w.finish[u.scope]? = some info ∧ i < u.own.length ∧ info.vars[i]? = some v ∧
    v.2.captured = false ∧ v.2.frameSlot = some slot

/-- The locals of the open dissolved blocks have slots of their own, below `next`. -/
structure Room (w : Walk) (u : UnitScope) (next : Nat) : Prop where
  nodup : u.mine.Nodup
  others : ∀ x ∈ u.mine, x ∉ u.own
  below : ∀ x slot, u.hoistSlot x = some slot → slot < next
  apart : ∀ x y slot, u.hoistSlot x = some slot → u.hoistSlot y = some slot → x = y
  free : ∀ j, u.own.length ≤ j → w.isCaptured u.scope j = false

section

variable {w : Walk} {u : UnitScope} {next : Nat} {p : Option Nat} {info : ScopeInfo}
  {x y : String} {j k : Nat}

theorem local?_mem {storage : Storage} (found : u.local? x = some storage) : x ∈ u.mine := by
  obtain ⟨vars, mem, inVars⟩ := List.exists_of_findSome?_eq_some found
  exact List.mem_flatMap.mpr ⟨vars, mem, List.mem_map.mpr ⟨_, mem_of_lookup inVars, rfl⟩⟩

theorem mine_local? (mem : x ∈ u.mine) : (u.local? x).isSome = true := by
  obtain ⟨vars, inInner, inVars⟩ := List.mem_flatMap.mp mem
  obtain ⟨v, isVar, rfl⟩ := List.mem_map.mp inVars
  rw [UnitScope.local?, List.findSome?_isSome_iff]
  refine ⟨vars, inInner, ?_⟩
  rw [Option.isSome_iff_ne_none, ne_eq, List.lookup_eq_none_iff]
  exact fun none => absurd (none v isVar) (by simp)

theorem local?_hoistSlot (none : u.local? x = none) : u.hoistSlot x = Option.none := by
  rw [UnitScope.local?, List.findSome?_eq_none_iff] at none
  rw [UnitScope.hoistSlot, List.findSome?_eq_none_iff]
  intro vars mem
  rw [none vars mem]
  rfl

theorem hoistSlot_mine (hoisted : u.hoistSlot x = some k) : x ∈ u.mine := by
  obtain ⟨vars, mem, inVars⟩ := mem_of_hoistSlot hoisted
  exact List.mem_flatMap.mpr ⟨vars, mem, List.mem_map.mpr ⟨_, inVars, rfl⟩⟩

theorem mine_names (valid : u.Valid w) (mem : x ∈ u.mine) : x ∈ u.names := by
  obtain ⟨vars, inInner, inVars⟩ := List.mem_flatMap.mp mem
  obtain ⟨v, isVar, rfl⟩ := List.mem_map.mp inVars
  exact valid.named vars inInner v isVar

theorem hoistSlot_above (valid : u.Valid w) (done : Finished w u p info)
    (hoisted : u.hoistSlot x = some k) : info.argc + info.frameTempCount ≤ k ∧ k < 256 := by
  obtain ⟨vars, mem, inVars⟩ := mem_of_hoistSlot hoisted
  obtain ⟨low, above⟩ := valid.hoisted vars mem x k inVars
  exact ⟨above info done.found, low⟩

/-- A name that the unit does not declare itself has an index beyond its own. -/
theorem own_le_idxOf (valid : u.Valid w) (other : x ∉ u.own) :
    u.own.length ≤ u.names.idxOf x := by
  obtain ⟨more, names⟩ := valid.own
  rw [← names, List.idxOf_append_of_notMem other]
  exact Nat.le_add_right _ _

/-- The variable that capture analysis has for a local. -/
theorem mine_var (valid : u.Valid w) (room : Room w u next) (done : Finished w u p info)
    (mem : x ∈ u.mine) : ∃ v slot, info.vars[u.names.idxOf x]? = some v ∧ v.2.captured = false ∧
      v.2.frameSlot = some slot ∧ slot < info.argc + info.frameTempCount := by
  have inside : u.names.idxOf x < info.vars.length := by
    have lengths := congrArg List.length done.names
    rw [List.length_map] at lengths
    rw [lengths]
    exact List.idxOf_lt_length_of_mem (mine_names valid mem)
  have is := List.getElem?_eq_getElem inside
  have uncaptured : (info.vars[u.names.idxOf x]).2.captured = false := by
    rw [done.captured _ _ is]
    exact room.free _ (own_le_idxOf valid (room.others x mem))
  obtain ⟨slot, frame, place⟩ := (done.placed _ (List.mem_of_getElem? is)).2 uncaptured
  exact ⟨_, slot, is, uncaptured, frame, by omega⟩

theorem exists_kept (valid : u.Valid w) (room : Room w u next) (done : Finished w u p info)
    (mem : x ∈ u.mine) : ∃ slot, u.Kept w x slot := by
  cases hoisted : u.hoistSlot x with
  | some slot => exact ⟨slot, .inl hoisted⟩
  | none =>
    obtain ⟨v, slot, is, -, frame, -⟩ := mine_var valid room done mem
    exact ⟨slot, .inr ⟨hoisted, info, v, done.found, is, frame⟩⟩

theorem kept_unique (one : u.Kept w x j) (other : u.Kept w x k) : j = k := by
  rcases one with one | ⟨none, info, v, found, is, frame⟩
  · rcases other with other | ⟨none, -⟩
    · rw [one] at other
      exact Option.some.inj other
    · rw [one] at none
      cases none
  · rcases other with other | ⟨-, info', v', found', is', frame'⟩
    · rw [none] at other
      cases other
    · rw [found] at found'
      cases found'
      rw [is] at is'
      cases is'
      rw [frame] at frame'
      exact Option.some.inj frame'

/-- The slot of a local that is not hoisted is one of the unit's variables. -/
theorem kept_loose (valid : u.Valid w) (room : Room w u next) (done : Finished w u p info)
    (mem : x ∈ u.mine) (kept : u.Kept w x k) (free : u.hoistSlot x = none) :
    ∃ v, info.vars[u.names.idxOf x]? = some v ∧ v.2.captured = false ∧ v.2.frameSlot = some k ∧
      k < info.argc + info.frameTempCount := by
  obtain ⟨v, slot, is, uncaptured, frame, low⟩ := mine_var valid room done mem
  obtain rfl := kept_unique (.inr ⟨free, info, v, done.found, is, frame⟩) kept
  exact ⟨v, is, uncaptured, frame, low⟩

theorem kept_apart (valid : u.Valid w) (room : Room w u next) (done : Finished w u p info)
    (memX : x ∈ u.mine) (memY : y ∈ u.mine) (keptX : u.Kept w x k) (keptY : u.Kept w y k) :
    x = y := by
  cases hoistX : u.hoistSlot x with
  | some j =>
    obtain rfl := kept_unique (.inl hoistX) keptX
    cases hoistY : u.hoistSlot y with
    | some i =>
      obtain rfl := kept_unique (.inl hoistY) keptY
      exact room.apart x y i hoistX hoistY
    | none =>
      obtain ⟨v, -, -, -, low⟩ := kept_loose valid room done memY keptY hoistY
      have := (hoistSlot_above valid done hoistX).1
      omega
  | none =>
    obtain ⟨v, isX, freeX, frameX, low⟩ := kept_loose valid room done memX keptX hoistX
    cases hoistY : u.hoistSlot y with
    | some i =>
      obtain rfl := kept_unique (.inl hoistY) keptY
      have := (hoistSlot_above valid done hoistY).1
      omega
    | none =>
      obtain ⟨v', isY, freeY, frameY, -⟩ := kept_loose valid room done memY keptY hoistY
      by_contra differ
      have indices : u.names.idxOf x ≠ u.names.idxOf y := fun same =>
        differ ((List.idxOf_inj (mine_names valid memX)).mp same)
      refine (pairwise_apart done.apart isX isY indices).2 freeX freeY ?_
      rw [frameX, frameY]

theorem kept_not_own (valid : u.Valid w) (room : Room w u next) (done : Finished w u p info)
    (mem : x ∈ u.mine) (kept : u.Kept w x k) : ¬ u.OwnSlot w k := by
  rintro ⟨info', i, v, found, own, is, free, frame⟩
  obtain rfl : info = info' := by
    have := done.found
    rw [found] at this
    exact (Option.some.inj this).symm
  obtain ⟨slot, isSlot, place⟩ := (done.placed v (List.mem_of_getElem? is)).2 free
  rw [frame] at isSlot
  cases isSlot
  cases hoisted : u.hoistSlot x with
  | some j =>
    obtain rfl := kept_unique (.inl hoisted) kept
    have := (hoistSlot_above valid done hoisted).1
    omega
  | none =>
    obtain ⟨v', is', free', frame', -⟩ := kept_loose valid room done mem kept hoisted
    have beyond := own_le_idxOf valid (room.others x mem)
    refine (pairwise_apart done.apart is is' (by omega)).2 free free' ?_
    rw [frame, frame']

theorem ownSlot_low (done : Finished w u p info) (own : u.OwnSlot w k) :
    k < info.argc + info.frameTempCount := by
  obtain ⟨info', i, v, found, -, is, free, frame⟩ := own
  obtain rfl : info = info' := by
    have := done.found
    rw [found] at this
    exact (Option.some.inj this).symm
  obtain ⟨slot, isSlot, place⟩ := (done.placed v (List.mem_of_getElem? is)).2 free
  rw [frame] at isSlot
  cases isSlot
  omega

/-! ## Opening a block -/

theorem Room.later (room : Room w u next) {next' : Nat} (later : next ≤ next') : Room w u next' :=
  { room with below := fun x slot hoisted => Nat.lt_of_lt_of_le (room.below x slot hoisted) later }

theorem mine_enter (vars : List (String × Storage)) :
    (u.enter vars).mine = vars.map Prod.fst ++ u.mine := by
  simp [UnitScope.mine, UnitScope.enter]

theorem hoistSlot_enter (vars : List (String × Storage)) (x : String) :
    (u.enter vars).hoistSlot x =
      (match (vars.lookup x).bind Storage.slot? with
        | some slot => some slot
        | none => u.hoistSlot x) := by
  simp only [UnitScope.hoistSlot, UnitScope.enter, List.findSome?_cons]
  cases (vars.lookup x).bind Storage.slot? <;> rfl

/-- A block that opens, with names of its own and slots from `next` on. -/
theorem Room.enter (room : Room w u next) {vars : List (String × Storage)} {next' : Nat}
    (later : next ≤ next') (nodup : (vars.map Prod.fst ++ u.mine).Nodup)
    (others : ∀ x ∈ vars.map Prod.fst, x ∉ u.own)
    (slots : ∀ x slot, (vars.lookup x).bind Storage.slot? = some slot → next ≤ slot ∧ slot < next')
    (apart : ∀ x y slot, (vars.lookup x).bind Storage.slot? = some slot →
      (vars.lookup y).bind Storage.slot? = some slot → x = y) : Room w (u.enter vars) next' where
  nodup := by rw [mine_enter]; exact nodup
  others x mem := by
    rw [mine_enter, List.mem_append] at mem
    rcases mem with mem | mem
    · exact others x mem
    · exact room.others x mem
  below x slot hoisted := by
    rw [hoistSlot_enter] at hoisted
    split at hoisted
    · next here =>
      cases hoisted
      exact (slots x slot here).2
    · exact Nat.lt_of_lt_of_le (room.below x slot hoisted) later
  apart x y slot hoistX hoistY := by
    rw [hoistSlot_enter] at hoistX hoistY
    split at hoistX
    · next hereX =>
      cases hoistX
      have low := (slots x slot hereX).1
      split at hoistY
      · next hereY =>
        cases hoistY
        exact apart x y slot hereX hereY
      · have := room.below y slot hoistY
        omega
    · split at hoistY
      · next hereY =>
        cases hoistY
        have := (slots y slot hereY).1
        have := room.below x slot hoistX
        omega
      · exact room.apart x y slot hoistX hoistY
  free := room.free

end

theorem hoistedVars_names (first : Nat) (names : List String) :
    (hoistedVars first names).map Prod.fst = names := by
  refine List.ext_getElem? fun i => ?_
  simp [hoistedVars, Option.map_map, Function.comp_def]

theorem looseVars_names (first : Nat) (names : List String) :
    (looseVars first names).map Prod.fst = names := by
  refine List.ext_getElem? fun i => ?_
  simp [looseVars, Option.map_map, Function.comp_def]

/-- The slot that a block hoists a name to, by the name's place. -/
theorem hoistedVars_slot {first slot : Nat} {names : List String} {x : String}
    (is : ((hoistedVars first names).lookup x).bind Storage.slot? = some slot) :
    ∃ i, names[i]? = some x ∧ slot = first + i := by
  rw [Option.bind_eq_some_iff] at is
  obtain ⟨storage, found, isSlot⟩ := is
  obtain ⟨i, inside, same⟩ := List.mem_mapIdx.mp (mem_of_lookup found)
  cases same
  cases isSlot
  exact ⟨i, by simp [inside], rfl⟩

section

variable {w : Walk} {u : UnitScope} {next : Nat}

theorem Room.dissolved (room : Room w u next) {names : List String}
    (nodup : (names ++ u.mine).Nodup) (others : ∀ x ∈ names, x ∉ u.own) :
    Room w (u.enter (hoistedVars next names)) (next + names.length) := by
  refine room.enter (Nat.le_add_right _ _) ?_ ?_ ?_ ?_
  · rw [hoistedVars_names]
    exact nodup
  · rw [hoistedVars_names]
    exact others
  · intro x slot is
    obtain ⟨i, here, rfl⟩ := hoistedVars_slot is
    have := (List.getElem?_eq_some_iff.mp here).1
    omega
  · intro x y slot isX isY
    obtain ⟨i, hereX, rfl⟩ := hoistedVars_slot isX
    obtain ⟨j, hereY, same⟩ := hoistedVars_slot isY
    obtain rfl : i = j := by omega
    rw [hereX] at hereY
    exact Option.some.inj hereY

theorem Room.loose (room : Room w u next) {names : List String} (first : Nat)
    (nodup : (names ++ u.mine).Nodup) (others : ∀ x ∈ names, x ∉ u.own) :
    Room w (u.enter (looseVars first names)) next := by
  refine room.enter (Nat.le_refl _) ?_ ?_ ?_ ?_
  · rw [looseVars_names]
    exact nodup
  · rw [looseVars_names]
    exact others
  · intro x slot is
    rw [looseVars_noSlot] at is
    cases is
  · intro x y slot is
    rw [looseVars_noSlot] at is
    cases is

theorem counted_slot {loopVar x : String} {slot first : Nat} {temps : List String}
    (is : (((loopVar, Storage.hoisted next) :: looseVars first temps).lookup x).bind
      Storage.slot? = some slot) : x = loopVar ∧ slot = next := by
  rw [List.lookup_cons] at is
  split at is
  · next same =>
    cases is
    exact ⟨by simpa using same, rfl⟩
  · rw [looseVars_noSlot] at is
    cases is

theorem Room.counted (room : Room w u next) {loopVar : String} {temps : List String}
    (first : Nat) {next' : Nat} (later : next < next')
    (nodup : (loopVar :: temps ++ u.mine).Nodup) (others : ∀ x ∈ loopVar :: temps, x ∉ u.own) :
    Room w (u.enter ((loopVar, .hoisted next) :: looseVars first temps)) next' := by
  have names : ((loopVar, Storage.hoisted next) :: looseVars first temps).map Prod.fst =
      loopVar :: temps := by
    rw [List.map_cons, looseVars_names]
  refine room.enter (Nat.le_of_lt later) (by rw [names]; exact nodup) (by rw [names]; exact others)
    ?_ ?_
  · intro x slot is
    obtain ⟨-, rfl⟩ := counted_slot is
    exact ⟨Nat.le_refl _, later⟩
  · intro x y slot isX isY
    rw [(counted_slot isX).1, (counted_slot isY).1]

end

/-! ## Tame outlines -/

/-- A tame outline in its unit. -/
structure Sound (w : Walk) (ownAt : Nat → List String) (u : UnitScope) (outer : List UnitScope)
    (base next n : Nat) (o : Outline) : Prop where
  inside : Inside w u outer base next n o
  apart : o.Apart u.own u.mine
  tame : ∀ occ, o.Has (CaptureInfo.frameTemps ⟨w.finish⟩) u outer base next occ → occ.Tame
  owned : o.Owned ownAt n
  own : OwnChain ownAt (u :: outer)
  captures : NoCapture w ownAt
  room : Room w u next

section

variable {w : Walk} {ownAt : Nat → List String} {u : UnitScope} {outer : List UnitScope}
  {base next n : Nat} {a b body limit : Outline}

theorem Sound.first (sound : Sound w ownAt u outer base next n (.seq a b)) :
    Sound w ownAt u outer base next n a where
  inside := sound.inside.first
  apart := sound.apart.1
  tame occ has := sound.tame occ (has_seq.mpr (.inl has))
  owned := sound.owned.1
  own := sound.own
  captures := sound.captures
  room := sound.room

theorem Sound.second (sound : Sound w ownAt u outer base next n (.seq a b)) :
    Sound w ownAt u outer (base + a.folded.length) (next + a.slots) (n + a.reals) b where
  inside := sound.inside.second
  apart := sound.apart.2
  tame occ has := sound.tame occ (has_seq.mpr (.inr has))
  owned := sound.owned.2
  own := sound.own
  captures := sound.captures
  room := sound.room.later (Nat.le_add_right _ _)

/-- The arm that is emitted first is written last. -/
theorem Sound.armsFirst (sound : Sound w ownAt u outer base next n (.arms a b)) :
    Sound w ownAt u outer (base + a.folded.length) next (n + a.reals) b where
  inside := by
    have seq : Inside w u outer base next n (.seq a b) := { sound.inside with }
    have slots := seq.slots
    simp only [Outline.slots] at slots
    exact { seq.second with above := sound.inside.above, slots := by omega }
  apart := sound.apart.2
  tame occ has := sound.tame occ (has_arms.mpr (.inr has))
  owned := sound.owned.2
  own := sound.own
  captures := sound.captures
  room := sound.room

theorem Sound.armsSecond (sound : Sound w ownAt u outer base next n (.arms a b)) :
    Sound w ownAt u outer base (next + b.slots) n a where
  inside := by
    have seq : Inside w u outer base next n (.seq a b) := { sound.inside with }
    have slots := seq.slots
    simp only [Outline.slots] at slots
    exact seq.first.later (Nat.le_add_right _ _) (by omega)
  apart := sound.apart.1
  tame occ has := sound.tame occ (has_arms.mpr (.inl has))
  owned := sound.owned.1
  own := sound.own
  captures := sound.captures
  room := sound.room.later (Nat.le_add_right _ _)

theorem Sound.dissolved {names : List String}
    (sound : Sound w ownAt u outer base next n (.dissolved names body)) :
    Sound w ownAt (u.enter (hoistedVars next names)) outer (base + names.length)
      (next + names.length) n body where
  inside := sound.inside.dissolved
  apart := by
    rw [mine_enter, hoistedVars_names]
    exact sound.apart.2.2
  tame := sound.tame
  owned := sound.owned
  own := sound.own.enter
  captures := sound.captures
  room := sound.room.dissolved sound.apart.1 sound.apart.2.1

theorem Sound.loose {names : List String}
    (sound : Sound w ownAt u outer base next n (.loose names body)) :
    Sound w ownAt (u.enter (looseVars base names)) outer (base + names.length) next n body where
  inside := sound.inside.loose
  apart := by
    rw [mine_enter, looseVars_names]
    exact sound.apart.2.2
  tame := sound.tame
  owned := sound.owned
  own := sound.own.enter
  captures := sound.captures
  room := sound.room.loose base sound.apart.1 sound.apart.2.1

theorem Sound.counted_limit {loopVar : String} {temps : List String}
    (sound : Sound w ownAt u outer base next n (.counted loopVar temps limit body)) :
    Sound w ownAt u outer base (next + 1) n limit where
  inside := sound.inside.counted_seq.first
  apart := sound.apart.1
  tame occ has := sound.tame occ (has_counted.mpr (.inl has))
  owned := sound.owned.1
  own := sound.own
  captures := sound.captures
  room := sound.room.later (Nat.le_add_right _ _)

theorem Sound.counted_body {loopVar : String} {temps : List String}
    (sound : Sound w ownAt u outer base next n (.counted loopVar temps limit body)) :
    Sound w ownAt
      (u.enter ((loopVar, .hoisted next) :: looseVars (base + limit.folded.length + 1) temps)) outer
      (base + limit.folded.length + 1 + temps.length) (next + (2 + limit.slots)) (n + limit.reals)
      body where
  inside := sound.inside.counted_body
  apart := by
    rw [mine_enter, List.map_cons, looseVars_names]
    exact sound.apart.2.2.2
  tame occ has := sound.tame occ (has_counted.mpr (.inr has))
  owned := sound.owned.2
  own := sound.own.enter
  captures := sound.captures
  room := sound.room.counted _ (by omega) sound.apart.2.1 sound.apart.2.2.1

/-- The room of a unit in which no dissolved block is open. -/
theorem room_unit {v : UnitScope} (closed : v.inner = []) (own : v.own = ownAt v.scope)
    (captures : NoCapture w ownAt) (next : Nat) : Room w v next where
  nodup := by simp [UnitScope.mine, closed]
  others := by simp [UnitScope.mine, closed]
  below := by simp [UnitScope.hoistSlot, closed]
  apart := by simp [UnitScope.hoistSlot, closed]
  free j beyond := captures v.scope j (own ▸ beyond)

theorem Sound.real {scope : Nat} {params temps : List String}
    (sound : Sound w ownAt u outer base next n (.real scope params temps body)) :
    Sound w ownAt (Outline.realScope scope params temps body) (u :: outer) (params ++ temps).length
      (CaptureInfo.frameTemps ⟨w.finish⟩ scope + params.length) (scope + 1) body := by
  obtain ⟨rfl, numbered⟩ := sound.inside.numbered
  have own : OwnChain ownAt (Outline.realScope scope params temps body :: u :: outer) := by
    intro v mem
    rcases List.mem_cons.mp mem with rfl | mem
    · exact sound.owned.1.symm
    · exact sound.own v mem
  exact {
    inside := sound.inside.real
    apart := sound.apart
    tame := fun occ has => sound.tame occ (has_real.mpr has)
    owned := sound.owned.2
    own := own
    captures := sound.captures
    room := room_unit rfl (own _ (by simp)) sound.captures _ }

end

end WinVm.Frontend
