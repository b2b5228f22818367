import WinVm.Compiler.Assembled

/-!
# Leaders and terminators

The leaders of a method are collected in one pass and the terminators of its blocks in
another; what ties the two is that the bci behind a control instruction is a leader, so
that such an instruction is the last of its block (`Stretch.control`).

Results:

* `Assembled.findLeaders`: the leaders that are below the end of the code;
* `lastInstr_eq`, `stepBlock_eq`: reading a block and stepping through it meet the same
  last instruction;
* `terminatorOf_spec`: the terminator found names the block where that instruction leads.
-/

namespace WinVm.Compiler

open WinVm.Bytecode WinVm.Lib

/-! ## Leaders -/

theorem mem_insertLeader {x y : Nat} {xs : List Nat} :
    y ∈ insertLeader x xs ↔ y = x ∨ y ∈ xs := by
  induction xs with
  | nil => simp [insertLeader]
  | cons z zs ih =>
    unfold insertLeader
    by_cases hlt : x < z
    · rw [if_pos hlt, List.mem_cons]
    · rw [if_neg hlt]
      by_cases heq : x = z
      · rw [if_pos heq, List.mem_cons, heq]
        exact ⟨Or.inr, fun h => h.elim Or.inl id⟩
      · rw [if_neg heq, List.mem_cons, ih, List.mem_cons]
        exact or_left_comm

theorem pairwise_insertLeader {x : Nat} {xs : List Nat} (h : xs.Pairwise (· < ·)) :
    (insertLeader x xs).Pairwise (· < ·) := by
  induction h with
  | nil => exact List.pairwise_singleton _ _
  | @cons z zs hz hzs ih =>
    unfold insertLeader
    by_cases hlt : x < z
    · rw [if_pos hlt]
      refine List.Pairwise.cons (fun y hy => ?_) (List.Pairwise.cons hz hzs)
      rcases List.mem_cons.mp hy with rfl | hy
      · exact hlt
      · exact hlt.trans (hz y hy)
    · rw [if_neg hlt]
      by_cases heq : x = z
      · rw [if_pos heq]
        exact List.Pairwise.cons hz hzs
      · rw [if_neg heq]
        refine List.Pairwise.cons (fun y hy => ?_) ih
        rcases mem_insertLeader.mp hy with rfl | hy
        · exact lt_of_le_of_ne (Nat.not_lt.mp hlt) (Ne.symm heq)
        · exact hz y hy

theorem insertLeaders_spec (xs : List Nat) {leaders : List Nat} (h : leaders.Pairwise (· < ·)) :
    (insertLeaders xs leaders).Pairwise (· < ·) ∧
      ∀ y, y ∈ insertLeaders xs leaders ↔ y ∈ xs ∨ y ∈ leaders := by
  induction xs generalizing leaders with
  | nil => exact ⟨h, fun y => by simp [insertLeaders]⟩
  | cons x xs ih =>
    obtain ⟨hsorted, hmem⟩ := ih (pairwise_insertLeader (x := x) h)
    refine ⟨hsorted, fun y => ?_⟩
    rw [List.mem_cons, or_assoc, or_left_comm, ← mem_insertLeader]
    exact hmem y

/-- The instruction at `bci` makes `x` a leader. -/
def Leads (code : List Byte) (bci x : Nat) : Prop :=
  ∃ instr next xs, decodeAt code bci = some (instr, next) ∧ leadersOf instr next = some xs ∧
    x ∈ xs

variable {code : List Byte} {bcis : List Nat}

/-- The pass over the instructions from `bci` on adds what each of them leads to. -/
theorem leadersWalk_spec {bci : Nat} {rest : List Nat}
    (htiles : Tiles (instrWidth code) bci code.length rest)
    (hrest : ∀ b ∈ rest, ∃ instr, decodeAt code b = some (instr, b + instrWidth code b) ∧
      (leadersOf instr (b + instrWidth code b)).isSome)
    {fuel : Nat} (hfuel : code.length ≤ bci + fuel) {leaders : List Nat}
    (hsorted : leaders.Pairwise (· < ·)) :
    ∃ leaders', leadersWalk code fuel bci leaders = some leaders' ∧
      leaders'.Pairwise (· < ·) ∧
      ∀ x, x ∈ leaders' ↔ x ∈ leaders ∨ ∃ b ∈ rest, Leads code b x := by
  induction rest generalizing bci fuel leaders with
  | nil =>
    cases htiles
    have hlt := Nat.lt_irrefl code.length
    refine ⟨leaders, ?_, hsorted, fun x => by simp⟩
    cases fuel with
    | zero => rw [leadersWalk, if_neg hlt]
    | succ fuel => rw [leadersWalk, if_neg hlt]
  | cons b rest ih =>
    cases htiles with
    | cons hpos htiles =>
      have hlt : b < code.length := by
        have := htiles.le
        omega
      obtain ⟨fuel, rfl⟩ : ∃ n, fuel = n + 1 := ⟨fuel - 1, by omega⟩
      obtain ⟨instr, hdecode, hsome⟩ := hrest b List.mem_cons_self
      obtain ⟨xs, hxs⟩ := Option.isSome_iff_exists.mp hsome
      obtain ⟨hsorted', hmem⟩ := insertLeaders_spec xs hsorted
      have hfuel' : code.length ≤ b + instrWidth code b + fuel := by omega
      obtain ⟨leaders', hwalk, hsorted'', hmem'⟩ :=
        ih htiles (fun b hb => hrest b (List.mem_cons_of_mem _ hb)) hfuel' hsorted'
      refine ⟨leaders', ?_, hsorted'', fun x => ?_⟩
      · rw [leadersWalk, if_pos hlt]
        simp only [hdecode, hxs]
        exact hwalk
      · have hhead : Leads code b x ↔ x ∈ xs := by
          constructor
          · rintro ⟨instr', next', xs', hdecode', hxs', hx⟩
            rw [hdecode] at hdecode'
            obtain ⟨rfl, rfl⟩ := Prod.mk.inj (Option.some.inj hdecode')
            rw [hxs] at hxs'
            cases hxs'
            exact hx
          · exact fun hx => ⟨instr, _, xs, hdecode, hxs, hx⟩
        rw [hmem', hmem, List.exists_mem_cons_iff, hhead]
        exact or_assoc.trans or_left_comm

/-- An instruction that does not make the bci behind it a leader goes there. -/
theorem instrSuccessor_of_leadersOf {instr : Instr} {next : Nat} {xs : List Nat}
    (h : leadersOf instr next = some xs) (hnext : next ∉ xs) (outcome : Bool) :
    instrSuccessor outcome next instr = some next := by
  cases instr with
  | jumpFwd d | brTrueFwd d | brFalseFwd d =>
    cases h
    simp at hnext
  | jumpBack d =>
    unfold leadersOf at h
    by_cases hlt : next < d.toNat
    · simp [hlt] at h
    · simp only [hlt, if_false, Option.some.injEq] at h
      subst h
      simp at hnext
  | returnTos | returnSelf | blockReturnTos | nlrTos =>
    cases h
    simp at hnext
  | _ => rfl

theorem leadersOf_jumpBack {d : BitVec 16} {next : Nat} (h : d.toNat ≤ next) :
    leadersOf (.jumpBack d) next = some [next - d.toNat, next] := by
  unfold leadersOf
  exact if_neg (Nat.not_lt.mpr h)

theorem leadersOf_isSome {instr : Instr} {next : Nat}
    (h : ∀ d, instr = .jumpBack d → d.toNat ≤ next) : (leadersOf instr next).isSome = true := by
  cases instr with
  | jumpBack d =>
    rw [leadersOf_jumpBack (h d rfl), Option.isSome_some]
  | _ => rfl

/-- Everything a leader can be. -/
theorem eq_of_mem_leadersOf {instr : Instr} {next x : Nat} {xs : List Nat}
    (h : leadersOf instr next = some xs) (hx : x ∈ xs) :
    x = next ∨ fwdTarget next instr = some x ∨
      ∃ d, instr = .jumpBack d ∧ d.toNat ≤ next ∧ x = next - d.toNat := by
  cases instr with
  | jumpFwd d | brTrueFwd d | brFalseFwd d =>
    rw [← Option.some.inj h] at hx
    rcases List.mem_cons.mp hx with rfl | hx
    · exact Or.inr (Or.inl rfl)
    · exact Or.inl (List.mem_singleton.mp hx)
  | jumpBack d =>
    unfold leadersOf at h
    by_cases hlt : next < d.toNat
    · simp [hlt] at h
    · simp only [hlt, if_false, Option.some.injEq] at h
      subst h
      rcases List.mem_cons.mp hx with rfl | hx
      · exact Or.inr (Or.inr ⟨d, rfl, Nat.not_lt.mp hlt, rfl⟩)
      · exact Or.inl (List.mem_singleton.mp hx)
  | returnTos | returnSelf | blockReturnTos | nlrTos =>
    cases h
    exact Or.inl (List.mem_singleton.mp hx)
  | _ =>
    cases h
    cases hx

/-- The starts of the blocks: instructions, in ascending order, and all the leaders that are. -/
structure Starts (code : List Byte) (bcis starts : List Nat) : Prop where
  sorted : starts.Pairwise (· < ·)
  zero : 0 ∈ starts
  sub : ∀ s ∈ starts, s ∈ bcis
  leads : ∀ b ∈ bcis, ∀ x, Leads code b x → x ∈ starts ∨ x = code.length

theorem Assembled.next_eq (h : Assembled code bcis) {b : Nat} (hb : b ∈ bcis) {instr : Instr}
    {next : Nat} (hdecode : decodeAt code b = some (instr, next)) :
    next = b + instrWidth code b := by
  obtain ⟨instr', hdecode'⟩ := h.decodes b hb
  rw [hdecode] at hdecode'
  exact (Prod.mk.inj (Option.some.inj hdecode')).2

/-- Behind an instruction stands the next one, or the end of the code. -/
theorem Assembled.next_mem (h : Assembled code bcis) {b : Nat} (hb : b ∈ bcis) {instr : Instr}
    {next : Nat} (hdecode : decodeAt code b = some (instr, next)) :
    next ∈ bcis ∨ next = code.length := by
  obtain ⟨before, after, rfl, -, h2⟩ := h.tiles.from_block hb
  rw [h.next_eq hb hdecode]
  cases h2 with
  | cons hpos h2 =>
    generalize b + instrWidth code b = next' at h2 ⊢
    generalize code.length = stop at h2 ⊢
    cases h2 with
    | nil => exact Or.inr rfl
    | cons => exact Or.inl (by simp)

theorem Assembled.leads_mem (h : Assembled code bcis) {b x : Nat} (hb : b ∈ bcis)
    (hx : Leads code b x) : x ∈ bcis ∨ x = code.length := by
  obtain ⟨instr, next, xs, hdecode, hxs, hmem⟩ := hx
  rcases eq_of_mem_leadersOf hxs hmem with rfl | htarget | ⟨d, rfl, -, rfl⟩
  · exact h.next_mem hb hdecode
  · exact h.fwd b hb instr next x hdecode htarget
  · exact Or.inl (h.back b hb d next hdecode).2

theorem Assembled.findLeaders (h : Assembled code bcis) :
    ∃ leaders, Compiler.findLeaders code = some leaders ∧
      Starts code bcis (leaders.filter fun bci => decide (bci < code.length)) := by
  obtain ⟨leaders, hwalk, hsorted, hmem⟩ := leadersWalk_spec h.tiles (fun b hb => by
      obtain ⟨instr, hdecode⟩ := h.decodes b hb
      refine ⟨instr, hdecode, leadersOf_isSome fun d hd => ?_⟩
      subst hd
      exact (h.back b hb d _ hdecode).1)
    (Nat.le_of_eq (Nat.zero_add _).symm) (List.pairwise_singleton _ 0)
  have hzero : 0 ∈ bcis := by
    obtain ⟨x, hx, hx0, -⟩ := h.tiles.cover (Nat.le_refl 0) h.nonempty
    rwa [Nat.le_zero.mp hx0] at hx
  have hbound : ∀ s ∈ bcis, s < code.length := by
    intro s hs
    have := h.tiles.bounds hs
    omega
  refine ⟨leaders, hwalk, hsorted.filter _, ?_, ?_, ?_⟩
  · exact List.mem_filter.mpr ⟨(hmem 0).mpr (Or.inl List.mem_cons_self), by simpa using h.nonempty⟩
  · intro s hs
    obtain ⟨hs, hlt⟩ := List.mem_filter.mp hs
    have hlt := of_decide_eq_true hlt
    rcases (hmem s).mp hs with hs | ⟨b, hb, hs⟩
    · rwa [List.mem_singleton.mp hs]
    · exact (h.leads_mem hb hs).resolve_right (Nat.ne_of_lt hlt)
  · intro b hb x hx
    rcases h.leads_mem hb hx with hmem' | heq
    · exact Or.inl (List.mem_filter.mpr
        ⟨(hmem x).mpr (Or.inr ⟨b, hb, hx⟩), decide_eq_true (hbound x hmem')⟩)
    · exact Or.inr heq

/-! ## One block -/

/-- A stretch of code between two neighbouring starts, or from the last start to the end. -/
structure Stretch (code : List Byte) (bcis starts : List Nat) (start stop : Nat)
    (seg : List Nat) : Prop where
  tiles : Tiles (instrWidth code) start stop seg
  mem : ∀ b, b ∈ seg ↔ b ∈ bcis ∧ start ≤ b ∧ b < stop
  lt : start < stop
  inside : ∀ x, x ∈ starts ∨ x = code.length → start < x → stop ≤ x
  stop_mem : stop ∈ starts ∨ stop = code.length

theorem Starts.stretch {starts before rest : List Nat} {start : Nat}
    (h : Assembled code bcis) (hs : Starts code bcis starts)
    (heq : starts = before ++ start :: rest) :
    ∃ seg, Stretch code bcis starts start (rest.head?.getD code.length) seg := by
  have hsorted := hs.sorted
  rw [heq] at hsorted
  obtain ⟨-, htail, hcross⟩ := List.pairwise_append.mp hsorted
  obtain ⟨hgt, hrest⟩ := List.pairwise_cons.mp htail
  have hstart : start ∈ bcis := hs.sub start (by rw [heq]; simp)
  have hlen : ∀ s ∈ bcis, s < code.length := by
    intro s hs
    have := h.tiles.bounds hs
    omega
  cases rest with
  | nil =>
    have hlt := hlen start hstart
    obtain ⟨seg, htiles, hmem⟩ := h.tiles.between hstart (Or.inr rfl) hlt.le
    refine ⟨seg, htiles, hmem, hlt, ?_, Or.inr rfl⟩
    rintro x (hx | rfl) hsx
    · rw [heq] at hx
      rcases List.mem_append.mp hx with hx | hx
      · have := hcross x hx start List.mem_cons_self
        omega
      · rw [List.mem_singleton.mp hx] at hsx
        exact absurd hsx (Nat.lt_irrefl _)
    · exact Nat.le_refl _
  | cons stop rest =>
    have hstop : stop ∈ starts := by
      rw [heq]
      simp
    have hlt := hgt stop List.mem_cons_self
    obtain ⟨seg, htiles, hmem⟩ := h.tiles.between hstart (Or.inl (hs.sub stop hstop)) hlt.le
    refine ⟨seg, htiles, hmem, hlt, ?_, Or.inl hstop⟩
    rintro x (hx | rfl) hsx
    · rw [heq] at hx
      rcases List.mem_append.mp hx with hx | hx
      · have := hcross x hx start List.mem_cons_self
        omega
      · rcases List.mem_cons.mp hx with rfl | hx
        · exact absurd hsx (Nat.lt_irrefl _)
        · rcases List.mem_cons.mp hx with rfl | hx
          · exact Nat.le_refl _
          · exact ((List.pairwise_cons.mp hrest).1 x hx).le
    · exact (hlen stop (hs.sub stop hstop)).le

variable {starts seg : List Nat} {start stop : Nat}

/-- The bci behind a control instruction is a leader, so the instruction ends its block. -/
theorem Stretch.control (h : Assembled code bcis) (hs : Starts code bcis starts)
    (hseg : Stretch code bcis starts start stop seg) {b : Nat} (hb : b ∈ seg) {instr : Instr}
    {next : Nat} (hdecode : decodeAt code b = some (instr, next)) {xs : List Nat}
    (hxs : leadersOf instr next = some xs) (hnext : next ∈ xs) : next = stop := by
  have hbounds := hseg.tiles.bounds hb
  have hwidth := h.next_eq ((hseg.mem b).mp hb).1 hdecode
  have hlead := hs.leads b ((hseg.mem b).mp hb).1 next ⟨instr, next, xs, hdecode, hxs, hnext⟩
  have := hseg.inside next hlead (by omega)
  omega

/-- Every other instruction of the block leaves control to the next one. -/
theorem Stretch.plain (h : Assembled code bcis) (hs : Starts code bcis starts)
    (hseg : Stretch code bcis starts start stop seg) {b : Nat} (hb : b ∈ seg) {instr : Instr}
    {next : Nat} (hdecode : decodeAt code b = some (instr, next)) (hne : next ≠ stop)
    (outcome : Bool) : instrSuccessor outcome next instr = some next := by
  have hbci := ((hseg.mem b).mp hb).1
  obtain ⟨xs, hxs⟩ := Option.isSome_iff_exists.mp
    (leadersOf_isSome fun d hd => (h.back b hbci d next (hd ▸ hdecode)).1)
  refine instrSuccessor_of_leadersOf hxs (fun hnext => hne ?_) outcome
  exact hseg.control h hs hb hdecode hxs hnext

theorem lastInstr_eq {a last : Nat} {instr : Instr} (htiles : Tiles (instrWidth code) a stop seg)
    (hdec : ∀ b ∈ seg, ∃ i, decodeAt code b = some (i, b + instrWidth code b))
    (hlast : seg.getLast? = some last) (hdecode : decodeAt code last = some (instr, stop))
    {fuel : Nat} (hfuel : stop ≤ a + fuel) (acc : Option (Instr × Nat)) :
    lastInstr code stop fuel a acc = some (some (instr, stop)) := by
  induction htiles generalizing fuel acc with
  | nil => cases hlast
  | @cons a stop seg hpos htiles ih =>
    have hle := htiles.le
    obtain ⟨fuel, rfl⟩ : ∃ n, fuel = n + 1 := ⟨fuel - 1, by omega⟩
    have hlt : a < stop := by omega
    obtain ⟨i, hi⟩ := hdec a List.mem_cons_self
    rw [lastInstr, if_pos hlt]
    simp only [hi]
    cases seg with
    | nil =>
      rw [List.getLast?_singleton] at hlast
      cases hlast
      rw [hi] at hdecode
      obtain ⟨rfl, hnext⟩ := Prod.mk.inj (Option.some.inj hdecode)
      rw [hnext]
      cases fuel with
      | zero => rw [lastInstr, if_neg (Nat.lt_irrefl stop)]
      | succ fuel => rw [lastInstr, if_neg (Nat.lt_irrefl stop)]
    | cons b seg =>
      rw [List.getLast?_cons_cons] at hlast
      exact ih (fun b hb => hdec b (List.mem_cons_of_mem _ hb)) hlast hdecode (by omega) _

theorem stepBlock_eq {a last : Nat} {instr : Instr} (outcome : Bool)
    (htiles : Tiles (instrWidth code) a stop seg)
    (hdec : ∀ b ∈ seg, ∃ i, decodeAt code b = some (i, b + instrWidth code b) ∧
      (b + instrWidth code b ≠ stop →
        instrSuccessor outcome (b + instrWidth code b) i = some (b + instrWidth code b)))
    (hlast : seg.getLast? = some last) (hdecode : decodeAt code last = some (instr, stop))
    {fuel : Nat} (hfuel : stop ≤ a + fuel) :
    stepBlock code outcome stop fuel a = some (seg, instrSuccessor outcome stop instr) := by
  induction htiles generalizing fuel with
  | nil => cases hlast
  | @cons a stop seg hpos htiles ih =>
    have hle := htiles.le
    obtain ⟨fuel, rfl⟩ : ∃ n, fuel = n + 1 := ⟨fuel - 1, by omega⟩
    obtain ⟨i, hi, hplain⟩ := hdec a List.mem_cons_self
    rw [stepBlock]
    simp only [hi]
    cases seg with
    | nil =>
      rw [List.getLast?_singleton] at hlast
      cases hlast
      rw [hi] at hdecode
      obtain ⟨rfl, hnext⟩ := Prod.mk.inj (Option.some.inj hdecode)
      rw [if_pos hnext, hnext]
    | cons b seg =>
      rw [List.getLast?_cons_cons] at hlast
      have hne : a + instrWidth code a ≠ stop := by
        have := htiles.bounds List.mem_cons_self
        omega
      rw [if_neg hne, hplain hne]
      simp only
      rw [ih (fun b hb => hdec b (List.mem_cons_of_mem _ hb)) hlast hdecode (by omega)]
      rfl

/-! ## Terminators -/

theorem indexOf_of_mem {x : Nat} (h : x ∈ starts) :
    ∃ j, indexOf starts x = some j ∧ starts[j]? = some x := by
  cases hj : indexOf starts x with
  | none =>
    have := List.findIdx?_eq_none_iff.mp hj x h
    simp at this
  | some j =>
    obtain ⟨hlt, hx, -⟩ := List.findIdx?_eq_some_iff_getElem.mp hj
    refine ⟨j, rfl, ?_⟩
    rw [List.getElem?_eq_getElem hlt, of_decide_eq_true hx]

theorem indexOf_of_not_mem {x : Nat} (h : x ∉ starts) : indexOf starts x = none := by
  refine List.findIdx?_eq_none_iff.mpr fun y hy => decide_eq_false ?_
  rintro rfl
  exact h hy

/-- The block named, if any, starts where control goes. -/
def NamesBlock (starts : List Nat) : Option BlockIndex → Option Nat → Prop
  | none, dest => dest = none
  | some j, dest => ∃ x, starts[j]? = some x ∧ dest = some x

/-- A terminator of the block that ends at `stop` with `instr`. -/
structure Terminates (starts : List Nat) (stop : Nat) (instr : Instr) (t : Terminator) : Prop where
  names : ∀ outcome, NamesBlock starts (t.successor outcome) (instrSuccessor outcome stop instr)
  back : ∀ j, t.backTarget = some j ↔
    ∃ d, instr = .jumpBack d ∧ starts[j]? = some (stop - d.toNat)

/-- No terminator is found exactly if the block ends with a forward jump to where no block
starts. -/
theorem terminatorOf_spec (debug : Bool) {i : BlockIndex} {instr : Instr}
    (hnodup : starts.Nodup)
    (hback : ∀ d, instr = .jumpBack d → d.toNat ≤ stop ∧ stop - d.toNat ∈ starts)
    (hnext : ∀ outcome, instrSuccessor outcome stop instr ≠ none → starts[i + 1]? = some stop) :
    (terminatorOf debug starts i stop (some (instr, stop)) = none ∧
      ∃ target, fwdTarget stop instr = some target ∧ target ∉ starts) ∨
    ∃ t, terminatorOf debug starts i stop (some (instr, stop)) = some t ∧
      (∀ target, fwdTarget stop instr = some target → target ∈ starts) ∧
      Terminates starts stop instr t := by
  have hfwd : ∀ {d : BitVec 16}, stop + d.toNat ∈ starts → ∀ target,
      some (stop + d.toNat) = some target → target ∈ starts := by
    intro d hd target heq
    rwa [← Option.some.inj heq]
  have hnoback : ∀ {t : Terminator}, t.backTarget = none → (∀ d, instr ≠ .jumpBack d) →
      ∀ j, t.backTarget = some j ↔ ∃ d, instr = .jumpBack d ∧ starts[j]? = some (stop - d.toNat) := by
    intro t ht hne j
    rw [ht]
    constructor
    · intro heq
      cases heq
    · rintro ⟨d, heq, -⟩
      exact absurd heq (hne d)
  have hmem : ∀ outcome, instrSuccessor outcome stop instr ≠ none → stop ∈ starts :=
    fun outcome h => List.mem_of_getElem? (hnext outcome h)
  cases instr with
  | jumpFwd d =>
    have hdef : terminatorOf debug starts i stop (some (.jumpFwd d, stop)) =
        (indexOf starts (stop + d.toNat)).map (.jump · false) := rfl
    by_cases htarget : stop + d.toNat ∈ starts
    · obtain ⟨j, hj, hget⟩ := indexOf_of_mem htarget
      refine Or.inr ⟨.jump j false, by rw [hdef, hj, Option.map_some], hfwd htarget, ?_, ?_⟩
      · exact fun outcome => ⟨_, hget, rfl⟩
      · exact hnoback rfl fun d' heq => by cases heq
    · refine Or.inl ⟨by rw [hdef, indexOf_of_not_mem htarget, Option.map_none], ?_⟩
      exact ⟨_, rfl, htarget⟩
  | jumpBack d =>
    obtain ⟨hle, htarget⟩ := hback d rfl
    obtain ⟨j, hj, hget⟩ := indexOf_of_mem htarget
    have hdef : terminatorOf debug starts i stop (some (.jumpBack d, stop)) =
        if stop < d.toNat then none
        else (indexOf starts (stop - d.toNat)).map (.jump · true) := rfl
    refine Or.inr ⟨.jump j true, ?_, fun target heq => (by cases heq), ?_, ?_⟩
    · rw [hdef, if_neg (Nat.not_lt.mpr hle), hj, Option.map_some]
    · exact fun outcome => ⟨_, hget, rfl⟩
    · intro j'
      constructor
      · intro heq
        cases heq
        exact ⟨d, rfl, hget⟩
      · rintro ⟨d', heq, hget'⟩
        cases heq
        have hlt := (List.getElem?_eq_some_iff.mp hget).1
        exact congrArg some ((List.getElem?_inj hlt hnodup).mp (hget.trans hget'.symm))
  | brTrueFwd d =>
    obtain ⟨k, hk, hgetk⟩ := indexOf_of_mem (hmem false (Option.some_ne_none _))
    have hdef : terminatorOf debug starts i stop (some (.brTrueFwd d, stop)) =
        (indexOf starts (stop + d.toNat)).bind fun ifTrue =>
          (indexOf starts stop).bind fun ifFalse => some (.branch ifTrue ifFalse) := rfl
    by_cases htarget : stop + d.toNat ∈ starts
    · obtain ⟨j, hj, hget⟩ := indexOf_of_mem htarget
      refine Or.inr ⟨.branch j k, by rw [hdef, hj, hk]; rfl, hfwd htarget, ?_, ?_⟩
      · intro outcome
        cases outcome with
        | true => exact ⟨_, hget, rfl⟩
        | false => exact ⟨_, hgetk, rfl⟩
      · exact hnoback rfl fun d' heq => by cases heq
    · refine Or.inl ⟨by rw [hdef, indexOf_of_not_mem htarget]; rfl, ?_⟩
      exact ⟨_, rfl, htarget⟩
  | brFalseFwd d =>
    obtain ⟨k, hk, hgetk⟩ := indexOf_of_mem (hmem true (Option.some_ne_none _))
    have hdef : terminatorOf debug starts i stop (some (.brFalseFwd d, stop)) =
        (indexOf starts stop).bind fun ifTrue =>
          (indexOf starts (stop + d.toNat)).bind fun ifFalse => some (.branch ifTrue ifFalse) := rfl
    by_cases htarget : stop + d.toNat ∈ starts
    · obtain ⟨j, hj, hget⟩ := indexOf_of_mem htarget
      refine Or.inr ⟨.branch k j, by rw [hdef, hj, hk]; rfl, hfwd htarget, ?_, ?_⟩
      · intro outcome
        cases outcome with
        | true => exact ⟨_, hgetk, rfl⟩
        | false => exact ⟨_, hget, rfl⟩
      · exact hnoback rfl fun d' heq => by cases heq
    · refine Or.inl ⟨by rw [hdef, hk, indexOf_of_not_mem htarget]; rfl, ?_⟩
      exact ⟨_, rfl, htarget⟩
  | returnTos | returnSelf | blockReturnTos | nlrTos =>
    refine Or.inr ⟨.ret, rfl, fun target heq => (by cases heq), fun _ => rfl, ?_⟩
    exact hnoback rfl fun d' heq => by cases heq
  | _ =>
    -- the block ends exactly at the next leader, as the debug assertion says
    have hassert : (debug && decide (stop ≠ stop)) = false := by simp
    refine Or.inr ⟨.fallthrough (i + 1), if_neg (by rw [hassert]; exact Bool.false_ne_true),
      fun target heq => (by cases heq), fun outcome => ?_, ?_⟩
    · exact ⟨stop, hnext outcome (Option.some_ne_none _), rfl⟩
    · exact hnoback rfl fun d' heq => by cases heq

end WinVm.Compiler
