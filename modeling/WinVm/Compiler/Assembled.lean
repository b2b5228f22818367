import WinVm.Bytecode.BuilderRoundTrip
import WinVm.Compiler.Decode
import WinVm.Lib.Tiling

/-!
# Finished code, as the compiler reads it

The code of a finished method is tiled by its instructions, the last of them is a return,
and every jump goes to an instruction, or to the end of the code: a label may be bound
behind the last instruction.

Result: `assembled_of_finish`, which reads this off the items of the assembler session.
-/

namespace WinVm.Compiler

open WinVm.Bytecode WinVm.Lib

/-! ## Assembled code -/

/-- The width of the instruction at `bci`. -/
def instrWidth (code : List Byte) (bci : Nat) : Nat :=
  match decodeAt code bci with
  | some (_, next) => next - bci
  | none => 0

/-- Code as the assembler leaves it, with the bcis of its instructions. -/
structure Assembled (code : List Byte) (bcis : List Nat) : Prop where
  tiles : Tiles (instrWidth code) 0 code.length bcis
  decodes : ∀ bci ∈ bcis, ∃ instr, decodeAt code bci = some (instr, bci + instrWidth code bci)
  hasInstr : ∀ bci instr next, HasInstr code bci instr next ↔
    bci ∈ bcis ∧ decodeAt code bci = some (instr, next)
  nonempty : 0 < code.length
  ends : ∀ bci ∈ bcis, ∀ instr, decodeAt code bci = some (instr, code.length) →
    ∀ outcome, instrSuccessor outcome code.length instr = none
  fwd : ∀ bci ∈ bcis, ∀ instr next target, decodeAt code bci = some (instr, next) →
    fwdTarget next instr = some target → target ∈ bcis ∨ target = code.length
  back : ∀ bci ∈ bcis, ∀ d next, decodeAt code bci = some (.jumpBack d, next) →
    d.toNat ≤ next ∧ next - d.toNat ∈ bcis

/-- A `jump_back` is three bytes long. -/
theorem decodeAt_jumpBack {code : List Byte} {pos next : Nat} {d : BitVec 16}
    (h : decodeAt code pos = some (.jumpBack d, next)) : next = pos + 3 := by
  obtain ⟨op, pos1, hop, hargs⟩ := ByteReader.andThen_eq_some h
  obtain ⟨rfl, -⟩ := ByteReader.nextByte_eq_some hop
  have hu16 : ∀ f : BitVec 16 → Instr, readU16Then f code (pos + 1) = some (.jumpBack d, next) →
      next = pos + 3 := by
    intro f hf
    obtain ⟨v, pos2, hv, hret⟩ := ByteReader.andThen_eq_some hf
    obtain ⟨lo, pos3, hlo, hrest⟩ := ByteReader.andThen_eq_some hv
    obtain ⟨hi, pos4, hhi, hfin⟩ := ByteReader.andThen_eq_some hrest
    obtain ⟨rfl, -⟩ := ByteReader.nextByte_eq_some hlo
    obtain ⟨rfl, -⟩ := ByteReader.nextByte_eq_some hhi
    injection hret with heq
    cases hfin
    exact (congrArg Prod.snd heq).symm
  have hu8 : ∀ f : Byte → Instr, (∀ x d, f x ≠ .jumpBack d) →
      readU8Then f code (pos + 1) = some (.jumpBack d, next) → next = pos + 3 := by
    intro f hne hf
    obtain ⟨v, pos2, hv, hret⟩ := ByteReader.andThen_eq_some hf
    injection hret with heq
    exact absurd (congrArg Prod.fst heq) (hne v d)
  have htwo : ∀ f : Byte → Byte → Instr, (∀ x y d, f x y ≠ .jumpBack d) →
      readTwoThen f code (pos + 1) = some (.jumpBack d, next) → next = pos + 3 := by
    intro f hne hf
    obtain ⟨v, pos2, hv, hrest⟩ := ByteReader.andThen_eq_some hf
    obtain ⟨w, pos3, hw, hret⟩ := ByteReader.andThen_eq_some hrest
    injection hret with heq
    exact absurd (congrArg Prod.fst heq) (hne v w d)
  have hpure : ∀ i : Instr, i ≠ .jumpBack d → (pure i : ByteReader Instr) code (pos + 1) = some (.jumpBack d, next) →
      next = pos + 3 := by
    intro i hne hf
    injection hf with heq
    exact absurd (congrArg Prod.fst heq) hne
  unfold decodeOperands at hargs
  split at hargs
  all_goals first
    | exact hu16 _ hargs
    | exact hu8 _ (by intro x d heq; cases heq) hargs
    | exact htwo _ (by intro x y d heq; cases heq) hargs
    | exact hpure _ (by intro heq; cases heq) hargs
    | cases hargs
/-- Items stand where the layout puts them. -/
theorem decodeAt_layout (labels : List LabelState) {items : List Item}
    (hread : ∀ it ∈ items, it.Readable) (pre : List Byte) {pos : Nat} {it : Item}
    (hmem : (pos, it) ∈ layout pre.length items) :
    decodeAt (pre ++ encodeAll labels (layout pre.length items)) pos =
      some (it.instr labels pos, pos + it.width) := by
  induction items generalizing pre with
  | nil => cases hmem
  | cons x items ih =>
    obtain ⟨-, hreads⟩ := (hread x List.mem_cons_self).reads labels pre.length
    simp only [layout, encodeAll, List.flatMap_cons]
    cases hmem with
    | head =>
      rw [hreads pre, Item.encode_length]
    | tail _ hmem =>
      have h := ih (fun y hy => hread y (List.mem_cons_of_mem _ hy))
        (pre ++ x.encode labels pre.length) (by
          rw [List.length_append, Item.encode_length]
          exact hmem)
      rw [List.length_append, Item.encode_length, List.append_assoc] at h
      exact h

theorem tiles_layout {size : Nat → Nat} {items : List Item} {a : Nat}
    (hread : ∀ it ∈ items, it.Readable)
    (hsize : ∀ pos it, (pos, it) ∈ layout a items → size pos = it.width) :
    Tiles size a (a + Bytecode.size items) ((layout a items).map Prod.fst) := by
  induction items generalizing a with
  | nil => exact .nil _
  | cons x items ih =>
    have hx := hsize a x List.mem_cons_self
    have hpos := (hread x List.mem_cons_self).width_pos
    have h := ih (a := a + x.width) (fun y hy => hread y (List.mem_cons_of_mem _ hy))
      fun pos it hm => hsize pos it (List.mem_cons_of_mem _ hm)
    simp only [layout, List.map_cons]
    refine .cons (by omega) ?_
    rw [hx]
    simp only [Bytecode.size, List.map_cons, List.sum_cons] at h ⊢
    rwa [← Nat.add_assoc]

/-- What `finish` checked of the instruction stream. -/
theorem finish_endsInReturn {debug : Bool} {b : Builder} {ρ : Equiv.Perm Addr} {nil sel : Oop}
    {argc ntemps : Nat} {m : CompiledMethod}
    (h : b.finish debug ρ nil sel argc ntemps = some m) :
    b.code ≠ [] ∧ ∃ instrs, decodeAll b.code = some instrs ∧ Builder.endsInReturn instrs = true := by
  unfold Builder.finish at h
  split at h; · cases h
  split at h; · cases h
  split at h; · cases h
  split at h; · cases h
  split at h; · cases h
  rename_i hempty
  split at h; · cases h
  rename_i instrs hdecode
  split at h
  · rename_i hret
    refine ⟨?_, instrs, hdecode, hret⟩
    rintro heq
    rw [heq] at hempty
    exact hempty rfl
  · cases h

theorem endsInReturn_eq {instrs : List (Nat × Instr)} (h : Builder.endsInReturn instrs = true) :
    ∃ x, instrs.getLast? = some x ∧ ∀ outcome next, instrSuccessor outcome next x.2 = none := by
  unfold Builder.endsInReturn at h
  cases hlast : instrs.getLast? with
  | none => simp [hlast] at h
  | some x =>
    obtain ⟨bci, i⟩ := x
    refine ⟨(bci, i), rfl, ?_⟩
    rw [hlast] at h
    cases i <;> first | exact fun _ _ => rfl | cases h

/-- A record of what was emitted names jumps as jumps. -/
def PlainEmitted : Emitted → Prop
  | .plain i => (∀ next, fwdTarget next i = none) ∧ ∀ d, i ≠ .jumpBack d
  | _ => True

/-- Only the jump calls emit jumps. -/
theorem plainEmitted_call (b : Builder) {t : Record} (c : Call)
    (h : ∀ e ∈ t.emitted, PlainEmitted e) : ∀ e ∈ (t.call b c).emitted, PlainEmitted e := by
  have hemit : ∀ e', PlainEmitted e' → ∀ e ∈ (t.emit e').emitted, PlainEmitted e := by
    intro e' he' e he
    rcases List.mem_append.mp he with he | he
    · exact h e he
    · rw [List.mem_singleton.mp he]
      exact he'
  have hplain : ∀ i, (∀ next, fwdTarget next i = none) → (∀ d, i ≠ .jumpBack d) →
      ∀ e ∈ (t.emit (.plain i)).emitted, PlainEmitted e :=
    fun i h1 h2 => hemit _ ⟨h1, h2⟩
  cases c with
  | noteLine | addSend | internBlockLiteral | newLabel | bind => exact h
  | pushLiteral | pushGlobal | storeGlobalPop | send | sendSuper | pushClosure | jumpFwd
  | brTrueFwd | brFalseFwd | jumpBack => exact hemit _ trivial
  | collect ρ =>
    intro e he
    obtain ⟨e', he', rfl⟩ := List.mem_map.mp he
    have := h e' he'
    cases e' <;> exact this
  | _ => exact hplain _ (fun _ => rfl) (fun _ heq => by cases heq)

theorem plainEmitted_run {debug : Bool} {s s' : Session} {cs : List Call}
    (h : ∀ e ∈ s.record.emitted, PlainEmitted e) (hrun : s.run debug cs = some s') :
    ∀ e ∈ s'.record.emitted, PlainEmitted e := by
  induction cs generalizing s with
  | nil =>
    cases hrun
    exact h
  | cons c cs ih =>
    obtain ⟨s1, hcall, hrest⟩ := Option.bind_eq_some_iff.mp hrun
    obtain ⟨b, -, rfl⟩ := Option.map_eq_some_iff.mp hcall
    exact ih (plainEmitted_call s.builder c h) hrest

/-- A label's jump goes where the label was bound. -/
theorem fwd_of_matches {b : Builder} {e : Emitted} {pos : Nat} {it : Item}
    (hm : Matches b e (pos, it)) (he : PlainEmitted e)
    (hall : ∀ (l : Label) (ss : List Nat), b.labels[l]? ≠ some (.unbound ss)) {target : Nat}
    (h : fwdTarget (pos + it.width) (it.instr b.labels pos) = some target) :
    ∃ l : Label, b.labels[l]? = some (LabelState.bound target) := by
  obtain ⟨hshape, -, -⟩ := hm
  cases hshape with
  | plain i bytes pos =>
    rw [Item.instr, he.1] at h
    cases h
  | pushLiteral | pushGlobal | storeGlobalPop | pushClosure | send | jumpBack => cases h
  | @fwd l pos kind hl hfit =>
    have hbound : ∃ t, b.labels[l]? = some (LabelState.bound t) := by
      rw [List.getElem?_eq_getElem hl]
      cases hst : b.labels[l] with
      | bound t => exact ⟨t, rfl⟩
      | unbound ss => exact absurd (by rw [List.getElem?_eq_getElem hl, hst]) (hall l ss)
    obtain ⟨t, ht⟩ := hbound
    obtain ⟨hle, hlt⟩ := hfit t ht
    have hdist : (distanceOf b.labels (pos + 3) l).toNat = t - (pos + 3) := by
      rw [distanceOf_bound ht, BitVec.toNat_ofNat, Nat.mod_eq_of_lt hlt]
    have htarget : pos + 3 + (distanceOf b.labels (pos + 3) l).toNat = target := by
      cases kind with
      | jump | brTrue | brFalse => exact Option.some.inj h
    exact ⟨l, by rw [ht, ← htarget, hdist, Nat.add_sub_cancel' hle]⟩

theorem back_of_matches {b : Builder} {e : Emitted} {pos : Nat} {it : Item}
    (hm : Matches b e (pos, it)) (he : PlainEmitted e) {d : BitVec 16}
    (h : it.instr b.labels pos = .jumpBack d) :
    d.toNat ≤ pos + 3 ∧ ∃ l : Label, b.labels[l]? = some (LabelState.bound (pos + 3 - d.toNat)) := by
  obtain ⟨hshape, -, -⟩ := hm
  cases hshape with
  | plain i bytes pos => exact absurd h (he.2 d)
  | pushLiteral | pushGlobal | storeGlobalPop | pushClosure | send => cases h
  | fwd kind => cases kind <;> cases h
  | @jumpBack l pos d target bytes hl hd =>
    cases h
    exact ⟨by omega, l, by rw [hl, show pos + 3 - d.toNat = target by omega]⟩

/-- The code of a builder that `finish` accepts. -/
theorem assembled_of_inv {b : Builder} {t : Record} {items : List Item} (h : Inv b t items)
    (hplain : ∀ e ∈ t.emitted, PlainEmitted e)
    (hall : ∀ (l : Label) (ss : List Nat), b.labels[l]? ≠ some (.unbound ss))
    (hne : b.code ≠ []) {instrs : List (Nat × Instr)} (hdec : decodeAll b.code = some instrs)
    (hret : Builder.endsInReturn instrs = true) :
    Assembled b.code ((layout 0 items).map Prod.fst) := by
  have hmatch : ∀ pos it, (pos, it) ∈ layout 0 items →
      ∃ e ∈ t.emitted, Matches b e (pos, it) :=
    fun pos it hx => exists_of_forall₂_mem h.matched hx
  have hread : ∀ it ∈ items, it.Readable := by
    intro it hit
    obtain ⟨pos, hx⟩ := exists_layout_mem 0 hit
    obtain ⟨e, -, hm⟩ := hmatch pos it hx
    exact hm.readable
  have hat : ∀ pos it, (pos, it) ∈ layout 0 items →
      decodeAt b.code pos = some (it.instr b.labels pos, pos + it.width) := by
    intro pos it hx
    have := decodeAt_layout b.labels hread [] hx
    rwa [List.nil_append, List.length_nil, ← h.code_eq] at this
  have hwidth : ∀ pos it, (pos, it) ∈ layout 0 items → instrWidth b.code pos = it.width := by
    intro pos it hx
    rw [instrWidth, hat pos it hx]
    exact Nat.add_sub_cancel_left pos it.width
  have hlen : b.code.length = size items := by
    rw [h.code_eq, encodeAll_length]
  have htiles : Tiles (instrWidth b.code) 0 b.code.length ((layout 0 items).map Prod.fst) := by
    have := tiles_layout hread hwidth
    rwa [Nat.zero_add, ← hlen] at this
  have hinstrs : instrs = (layout 0 items).map fun x => (x.1, x.2.instr b.labels x.1) := by
    have := decodeAll_encode b.labels items hread
    rw [← h.code_eq, hdec] at this
    exact Option.some.inj this
  -- the only instruction that ends with the code is the return `finish` looked at
  have hends : ∀ bci ∈ (layout 0 items).map Prod.fst, ∀ instr,
      decodeAt b.code bci = some (instr, b.code.length) →
      ∀ outcome, instrSuccessor outcome b.code.length instr = none := by
    intro bci hbci instr hdecode outcome
    obtain ⟨x, hlast, hx⟩ := endsInReturn_eq hret
    rw [hinstrs, List.getLast?_map] at hlast
    obtain ⟨⟨p, it⟩, hp, rfl⟩ := Option.map_eq_some_iff.mp hlast
    have hmem : (p, it) ∈ layout 0 items := List.mem_of_getLast? hp
    have hpend : p + instrWidth b.code p = b.code.length :=
      htiles.last_end (by rw [List.getLast?_map, hp, Option.map_some])
    obtain ⟨⟨q, it'⟩, hq, rfl⟩ := List.mem_map.mp hbci
    have hdq := hat q it' hq
    rw [hdecode] at hdq
    obtain ⟨-, hqlen⟩ := Prod.mk.inj (Option.some.inj hdq)
    have hqend : q + instrWidth b.code q = b.code.length := by
      rw [hwidth q it' hq]
      exact hqlen.symm
    have hpq : q = p := htiles.eq_of_end hbci (List.mem_map_of_mem hmem) hqend hpend
    subst hpq
    have hdp := hat q it hmem
    rw [hdecode] at hdp
    obtain ⟨rfl, -⟩ := Prod.mk.inj (Option.some.inj hdp)
    exact hx outcome _
  refine {
    tiles := htiles
    nonempty := List.length_pos_iff.mpr hne
    ends := hends
    decodes := ?_, hasInstr := ?_, fwd := ?_, back := ?_ }
  · intro bci hbci
    obtain ⟨⟨pos, it⟩, hx, rfl⟩ := List.mem_map.mp hbci
    exact ⟨_, by rw [hat pos it hx, hwidth pos it hx]⟩
  · intro bci instr next
    constructor
    · rintro ⟨instrs', hdec', hmem, hdecode⟩
      rw [hdec] at hdec'
      cases hdec'
      rw [hinstrs] at hmem
      obtain ⟨x, hx, heq⟩ := List.mem_map.mp hmem
      exact ⟨List.mem_map.mpr ⟨x, hx, congrArg Prod.fst heq⟩, hdecode⟩
    · rintro ⟨hbci, hdecode⟩
      obtain ⟨⟨pos, it⟩, hx, rfl⟩ := List.mem_map.mp hbci
      refine ⟨instrs, hdec, ?_, hdecode⟩
      have hpos := hat pos it hx
      rw [hdecode] at hpos
      obtain ⟨rfl, -⟩ := Prod.mk.inj (Option.some.inj hpos)
      rw [hinstrs]
      exact List.mem_map.mpr ⟨(pos, it), hx, rfl⟩
  · intro bci hbci instr next target hdecode htarget
    obtain ⟨⟨pos, it⟩, hx, rfl⟩ := List.mem_map.mp hbci
    obtain ⟨e, he, hm⟩ := hmatch pos it hx
    have hpos := hat pos it hx
    rw [hdecode] at hpos
    obtain ⟨rfl, rfl⟩ := Prod.mk.inj (Option.some.inj hpos)
    obtain ⟨l, hl⟩ := fwd_of_matches hm (hplain e he) hall htarget
    exact h.boundary l target hl
  · intro bci hbci d next hdecode
    obtain ⟨⟨pos, it⟩, hx, rfl⟩ := List.mem_map.mp hbci
    obtain ⟨e, he, hm⟩ := hmatch pos it hx
    have hnext : next = pos + 3 := decodeAt_jumpBack hdecode
    have hpos := hat pos it hx
    rw [hdecode] at hpos
    obtain ⟨hinstr, hwid⟩ := Prod.mk.inj (Option.some.inj hpos)
    obtain ⟨hle, l, hl⟩ := back_of_matches hm (hplain e he) hinstr.symm
    subst hnext
    refine ⟨hle, (h.boundary l _ hl).resolve_right fun heq => ?_⟩
    -- a jump back to the end of the code would itself be the last instruction
    have hend : pos + 3 = b.code.length := by
      have := layout_end_le hx
      omega
    rw [hend] at hdecode
    have := hends pos hbci _ hdecode true
    cases this

theorem assembled_of_finish {debug : Bool} {calls : List Call} {s : Session}
    {ρ : Equiv.Perm Addr} {nil selector : Oop} {argc ntemps : Nat} {m : CompiledMethod}
    (hrun : Session.new.run debug calls = some s)
    (hfinish : s.builder.finish debug ρ nil selector argc ntemps = some m) :
    ∃ bcis, Assembled m.code bcis := by
  obtain ⟨items, hinv, -⟩ := Inv.run (s := Session.new) Inv.new hrun
  obtain ⟨hall, hcode, -, -⟩ := finish_eq_some hfinish
  obtain ⟨hne, instrs, hdec, hret⟩ := finish_endsInReturn hfinish
  have hplain := plainEmitted_run (s := Session.new) (fun e he => by cases he) hrun
  rw [hcode]
  exact ⟨_, assembled_of_inv hinv hplain hall hne hdec hret⟩

end WinVm.Compiler
