import WinVm.Compiler.EntryDepths
import WinVm.Frontend.BalancedUnits

/-!
# Units in the assembler

The calls that emit the code of a unit on a bytecode builder. Between them the front end
makes labels, interns the method of a nested block, and may run a collection.

If the code of a unit has depths for its labels, every bci of the finished method has one:
each call extends the depths of the bcis so far by the depth behind its instruction.

Results:

* `compiled_depths_exact`: what the compiler computes of the depths of a method or block of
  the front end is exact, if each message has fewer than 256 arguments;
* `compiled_depths_inexact`: with 256 arguments the count is truncated, and the depths at a
  merge differ.
-/

namespace WinVm.Frontend

open WinVm.Bytecode WinVm.Compiler

/-! ## The calls of a unit -/

/-- The call emits the item; a literal, an association or a selector may stand anywhere. -/
def Item.isCall : Item → Call → Bool
  | .noteLine line, .noteLine line' => line' == line
  | .pushSelf, .pushSelf | .pushNil, .pushNil | .pushTrue, .pushTrue | .pushFalse, .pushFalse => true
  | .pushSmiI8 v, .pushSmiI8 x => x.toInt == v
  | .pushLiteral _, .pushLiteral _ => true
  | .load _ (.local slot), .pushTemp t => t.toNat == slot
  | .load _ (.captured depth k), .pushCtxTemp d i => d.toNat == depth && i.toNat == k
  | .load _ (.instVar i), .pushInstvar x => x.toNat == i
  | .load _ (.global _), .pushGlobal _ => true
  | .store _ (.local slot), .storeTempPop t => t.toNat == slot
  | .store _ (.captured depth k), .storeCtxTempPop d i => d.toNat == depth && i.toNat == k
  | .store _ (.instVar i), .storeInstvarPop x => x.toNat == i
  | .store _ (.global _), .storeGlobalPop _ => true
  | .pushTemp slot, .pushTemp t => t.toNat == slot
  | .storeTempPop slot, .storeTempPop t => t.toNat == slot
  | .storeCtxTempPop depth k, .storeCtxTempPop d i => d.toNat == depth && i.toNat == k
  | .pop, .pop | .dup, .dup => true
  | .send false _ argc, .send _ n => n.toNat == argc
  | .send true _ argc, .sendSuper _ n => n.toNat == argc
  | .bind l, .bind l' => l' == l
  | .jumpFwd l, .jumpFwd l' => l' == l
  | .brTrueFwd l, .brTrueFwd l' => l' == l
  | .brFalseFwd l, .brFalseFwd l' => l' == l
  | .jumpBack l, .jumpBack l' => l' == l
  | .pushClosure _, .pushClosure _ _ => true
  | .retTos, .retTos | .retSelf, .retSelf | .blockReturnTos, .blockReturnTos
  | .nlrTos, .nlrTos => true
  | _, _ => false

/-- The call emits nothing and binds nothing. -/
def silent : Call → Bool
  | .newLabel | .internBlockLiteral _ | .collect _ => true
  | _ => false

/-- The calls emit the items, one after the other. -/
def assembles : List Item → List Call → Bool
  | items, [] => items.isEmpty
  | items, c :: calls =>
    if silent c then assembles items calls
    else
      match items with
      | [] => false
      | i :: items => i.isCall c && assembles items calls

/-! ## Depths of what is emitted -/

/-- From the depth `d` the instruction may go on at `d'`. -/
def EmittedGoes (depth : Nat → Nat) (d d' : Nat) : Bytecode.Emitted → Prop
  | .plain .dup => 1 ≤ d ∧ d' = d + 1
  | .plain .returnTos | .plain .blockReturnTos | .plain .nlrTos => 1 ≤ d
  | .plain .returnSelf => True
  | .plain i => (pushes i = true ∧ d' = d + 1) ∨ (pops i = true ∧ d = d' + 1)
  | .pushLiteral _ | .pushGlobal _ | .pushClosure _ _ => d' = d + 1
  | .storeGlobalPop _ => d = d' + 1
  | .send _ _ argc => 1 ≤ d' ∧ d = d' + argc.toNat
  | .fwd .jump l => d = depth l
  | .fwd .brTrue l | .fwd .brFalse l => d = d' + 1 ∧ d' = depth l
  | .jumpBack l => d = depth l

section

variable {depth : Nat → Nat} {d d' : Nat}

theorem EmittedGoes.move {e : Bytecode.Emitted} (ρ : Equiv.Perm Addr) :
    EmittedGoes depth d d' (e.move ρ) ↔ EmittedGoes depth d d' e := by
  cases e with
  | fwd kind l => exact Iff.rfl
  | plain i => exact Iff.rfl
  | _ => exact Iff.rfl

/-- What the call for an item does to the record. -/
inductive Does (depth : Nat → Nat) (d d' : Nat) (i : Item) (c : Call) : Prop
  | line (same : d' = d) (no : i.isReturn = false) (quiet : ∀ b t, Record.call t b c = t)
  | bind (l : Label) (is : c = .bind l) (at_ : d = depth l) (same : d' = d)
      (no : i.isReturn = false)
  | emit (emits : ∀ b t, ∃ e, Record.call t b c = t.emit e ∧ EmittedGoes depth d d' e)

theorem does_of_isCall {i : Item} {c : Call} (is : i.isCall c = true) (goes : i.Goes depth d d') :
    Does depth d d' i c := by
  cases i with
  | noteLine line => cases c <;> first | exact .line goes rfl fun _ _ => rfl | cases is
  | bind l =>
    cases c <;> try cases is
    obtain rfl := eq_of_beq is
    exact .bind _ rfl goes.1 goes.2 rfl
  | load name ref =>
    cases ref with
    | global assoc => cases c <;> first | exact .emit fun _ _ => ⟨_, rfl, goes⟩ | cases is
    | _ => cases c <;> first | exact .emit fun _ _ => ⟨_, rfl, .inl ⟨rfl, goes⟩⟩ | cases is
  | store name ref =>
    cases ref with
    | global assoc => cases c <;> first | exact .emit fun _ _ => ⟨_, rfl, goes⟩ | cases is
    | _ => cases c <;> first | exact .emit fun _ _ => ⟨_, rfl, .inr ⟨rfl, goes⟩⟩ | cases is
  | send isSuper selector argc =>
    cases isSuper <;> cases c <;> try cases is
    all_goals
      obtain rfl := eq_of_beq is
      exact .emit fun _ _ => ⟨_, rfl, goes⟩
  | jumpFwd l | brTrueFwd l | brFalseFwd l | jumpBack l =>
    cases c <;> try cases is
    obtain rfl := eq_of_beq is
    exact .emit fun _ _ => ⟨_, rfl, goes⟩
  | pushSelf | pushNil | pushTrue | pushFalse | pushSmiI8 | pushTemp =>
    cases c <;> first | exact .emit fun _ _ => ⟨_, rfl, .inl ⟨rfl, goes⟩⟩ | cases is
  | storeTempPop | storeCtxTempPop | pop =>
    cases c <;> first | exact .emit fun _ _ => ⟨_, rfl, .inr ⟨rfl, goes⟩⟩ | cases is
  | pushLiteral | pushClosure | dup | retTos | retSelf | blockReturnTos | nlrTos =>
    cases c <;> first | exact .emit fun _ _ => ⟨_, rfl, goes⟩ | cases is

end

/-! ## Sessions -/

/-- A return is the last of the items, if there is one. -/
def Returning (rest : List Item) : Prop :=
  ∀ i, rest.getLast? = some i → i.isReturn = true

/-- A session before the rest of the items, with the depths `D` of the bcis so far; `d` is
the depth behind them. Behind the last item no label is bound. -/
structure Tracked (depth : Nat → Nat) (rest : List Item) (s : Session)
    (items : List Bytecode.Item) (D : Nat → Nat) (d : Nat) : Prop where
  inv : Inv s.builder s.record items
  goes : List.Forall₂ (fun e x => EmittedGoes depth (D x.1) (D (x.1 + x.2.width)) e)
    s.record.emitted (layout 0 items)
  entry : D 0 = 0
  here : D (size items) = d
  bound : ∀ l target, s.record.boundAt l = some target → D target = depth l
  closed : rest = [] → ∀ l target, s.record.boundAt l = some target → target < size items

section

variable {debug : Bool} {depth D : Nat → Nat} {d d' : Nat} {rest : List Item} {i : Item} {c : Call}
  {s s' : Session} {items : List Bytecode.Item}

theorem Tracked.new (depth : Nat → Nat) {rest : List Item} (some : rest ≠ []) :
    Tracked depth rest Session.new [] (fun _ => 0) 0 where
  inv := Inv.new
  goes := .nil
  entry := rfl
  here := rfl
  bound l target at_ := by cases at_
  closed empty := absurd empty some

/-- How many items a call adds. -/
theorem emitted_length {b : Builder} {t : Record} (inv : Inv b t items) :
    t.emitted.length = items.length := by
  have length : ∀ (pos : Nat) (items : List Bytecode.Item), (layout pos items).length = items.length := by
    intro pos items
    induction items generalizing pos with
    | nil => rfl
    | cons it items ih => exact congrArg Nat.succ (ih _)
  rw [inv.matched.length_eq, length]

theorem Tracked.here_eq (tracked : Tracked depth rest s items D d) :
    s.builder.here = size items := by
  show s.builder.code.length = size items
  rw [tracked.inv.code_eq, encodeAll_length]

/-- A label is bound at a bci, or behind the last instruction. -/
theorem Tracked.bound_le (tracked : Tracked depth rest s items D d) {l target : Nat}
    (at_ : s.record.boundAt l = some target) : target ≤ size items := by
  rcases tracked.inv.boundary l target ((tracked.inv.boundAt_iff l target).mp at_) with mem | here
  · obtain ⟨⟨pos, it⟩, inside, rfl⟩ := List.mem_map.mp mem
    have := layout_end_le inside
    omega
  · exact (here.trans tracked.here_eq).le

/-- A call that emits nothing. -/
theorem Tracked.quiet (tracked : Tracked depth rest s items D d) (called : s.call debug c = some s')
    {ρ : Equiv.Perm Addr} (emitted : s'.record.emitted = s.record.emitted.map (Bytecode.Emitted.move ρ)) :
    Inv s'.builder s'.record items ∧
      List.Forall₂ (fun e x => EmittedGoes depth (D x.1) (D (x.1 + x.2.width)) e)
        s'.record.emitted (layout 0 items) := by
  obtain ⟨more, inv, -⟩ := tracked.inv.call called
  have none_ : more = [] := by
    have before := emitted_length tracked.inv
    have after := emitted_length inv
    rw [emitted, List.length_map, List.length_append, before] at after
    exact List.length_eq_zero_iff.mp (by omega)
  subst none_
  rw [List.append_nil] at inv
  refine ⟨inv, ?_⟩
  rw [emitted, List.forall₂_map_left_iff]
  exact tracked.goes.imp fun e x => (EmittedGoes.move ρ).mpr

theorem Tracked.silent (tracked : Tracked depth rest s items D d) (is : silent c = true)
    (called : s.call debug c = some s') : Tracked depth rest s' items D d := by
  obtain ⟨b', -, rfl⟩ := Option.map_eq_some_iff.mp called
  have same : (s.record.call s.builder c).boundAt = s.record.boundAt ∧
      ∃ ρ, (s.record.call s.builder c).emitted = s.record.emitted.map (Bytecode.Emitted.move ρ) := by
    cases c with
    | newLabel | internBlockLiteral => exact ⟨rfl, Equiv.refl _, by simp [Record.call]⟩
    | collect ρ => exact ⟨rfl, ρ, rfl⟩
    | _ => cases is
  obtain ⟨bound, ρ, emitted⟩ := same
  obtain ⟨inv, goes⟩ := tracked.quiet called emitted
  exact ⟨inv, goes, tracked.entry, tracked.here, fun l target at_ => tracked.bound l target (bound ▸ at_),
    fun empty l target at_ => tracked.closed empty l target (bound ▸ at_)⟩

/-- One instruction more. -/
theorem Tracked.emit (tracked : Tracked depth (i :: rest) s items D d)
    (called : s.call debug c = some s') {e : Bytecode.Emitted} (emits : s'.record = s.record.emit e)
    (goes : EmittedGoes depth d d' e) :
    ∃ it, Tracked depth rest s' (items ++ [it])
      (Function.update D (size items + it.width) d') d' := by
  obtain ⟨more, inv, -⟩ := tracked.inv.call called
  obtain ⟨it, rfl⟩ : ∃ it, more = [it] := by
    have before := emitted_length tracked.inv
    have after := emitted_length inv
    rw [emits, Record.emit, List.length_append, List.length_append, before] at after
    exact List.length_eq_one_iff.mp (by simpa using after.symm)
  have layout_eq : layout 0 (items ++ [it]) = layout 0 items ++ [(size items, it)] := by
    rw [layout_append, Nat.zero_add]
  have size_eq : size (items ++ [it]) = size items + it.width := by
    simp [size]
  have matched := inv.matched
  rw [emits, Record.emit, layout_eq] at matched
  have wide : 0 < it.width := (forall₂_snoc.mp matched).2.readable.width_pos
  have old : ∀ pos, pos ≤ size items → Function.update D (size items + it.width) d' pos = D pos :=
    fun pos le => Function.update_of_ne (by omega) _ _
  have last : Function.update D (size items + it.width) d' (size items + it.width) = d' :=
    Function.update_self ..
  have bounds : s'.record.boundAt = s.record.boundAt := by rw [emits]; rfl
  refine ⟨it, inv, ?_, ?_, ?_, fun l target at_ => ?_, fun _ l target at_ => ?_⟩
  · rw [emits, Record.emit, layout_eq]
    refine forall₂_snoc.mpr ⟨forall₂_of_mem tracked.goes fun e' x mem goes' => ?_, ?_⟩
    · have := layout_end_le mem
      rw [Nat.zero_add] at this
      rw [old _ (by omega), old _ this]
      exact goes'
    · rw [old _ (Nat.le_refl _), last, tracked.here]
      exact goes
  · rw [old 0 (Nat.zero_le _), tracked.entry]
  · rw [size_eq, last]
  · rw [bounds] at at_
    rw [old _ (tracked.bound_le at_), tracked.bound l target at_]
  · rw [bounds] at at_
    rw [size_eq]
    exact (tracked.bound_le at_).trans_lt (by omega)

/-- One item. -/
theorem Tracked.step (tracked : Tracked depth (i :: rest) s items D d) (is : i.isCall c = true)
    (goes : i.Goes depth d d') (returning : Returning (i :: rest)) (called : s.call debug c = some s') :
    ∃ items' D', Tracked depth rest s' items' D' d' := by
  have later : i.isReturn = false → rest ≠ [] := by
    rintro no rfl
    exact absurd (returning i rfl) (by rw [no]; exact Bool.false_ne_true)
  have does := does_of_isCall is goes
  obtain ⟨b', built, rfl⟩ := Option.map_eq_some_iff.mp called
  cases does with
  | line same no quiet =>
    subst same
    have record := quiet s.builder s.record
    obtain ⟨inv, goes⟩ := tracked.quiet (ρ := Equiv.refl _) called (by simp [record])
    refine ⟨items, D, inv, goes, tracked.entry, tracked.here, fun l target at_ => ?_,
      fun empty => absurd empty (later no)⟩
    simp only [record] at at_
    exact tracked.bound l target at_
  | bind l is at_ same no =>
    subst is same
    obtain ⟨inv, goes⟩ := tracked.quiet (ρ := Equiv.refl _) called (by simp [Record.call])
    refine ⟨items, D, inv, goes, tracked.entry, tracked.here, fun l' target bound => ?_,
      fun empty => absurd empty (later no)⟩
    simp only [Record.call] at bound
    by_cases eq : l' = l
    · subst eq
      rw [Function.update_self] at bound
      cases bound
      rw [tracked.here_eq, tracked.here, at_]
    · rw [Function.update_of_ne eq] at bound
      exact tracked.bound l' target bound
  | emit emits =>
    obtain ⟨e, record, goes⟩ := emits s.builder s.record
    obtain ⟨it, tracked'⟩ := tracked.emit called record goes
    exact ⟨_, _, tracked'⟩

theorem Returning.tail (returning : Returning (i :: rest)) : Returning rest := by
  intro j last
  cases rest with
  | nil => cases last
  | cons k rest => exact returning j (by rw [List.getLast?_cons_cons]; exact last)

/-- A whole session. -/
theorem Tracked.run {calls : List Call} {dEnd : Nat} (tracked : Tracked depth rest s items D d)
    (balanced : Balanced depth rest d dEnd) (returning : Returning rest)
    (assembled : assembles rest calls = true) (ran : s.run debug calls = some s') :
    ∃ items' D', Tracked depth [] s' items' D' dEnd := by
  induction calls generalizing s rest items D d with
  | nil =>
    cases ran
    obtain rfl := List.isEmpty_iff.mp assembled
    obtain rfl : d = dEnd := balanced
    exact ⟨items, D, tracked⟩
  | cons c calls ih =>
    obtain ⟨mid, called, ran⟩ := Option.bind_eq_some_iff.mp ran
    unfold assembles at assembled
    split at assembled
    · next quiet => exact ih (tracked.silent quiet called) balanced returning assembled ran
    · cases rest with
      | nil => cases assembled
      | cons i rest =>
        obtain ⟨next, goes, balanced⟩ := balanced
        obtain ⟨is, assembled⟩ := Bool.and_eq_true_iff.mp assembled
        obtain ⟨items', D', tracked⟩ := tracked.step is goes returning called
        exact ih tracked balanced returning.tail assembled ran

/-! ## Finished methods -/

section

variable {m : CompiledMethod} {pos next : Nat} {instr : Instr} {delta : Int}

/-- An instruction that goes on behind itself, if it goes on. -/
theorem moves_on (finds : operandsOf m instr ≤ D pos) (known : instrStackDelta m instr = some delta)
    (behind : (D next : Int) = D pos + delta)
    (leads : ∀ outcome, instrSuccessor outcome next instr = some next) : Moves m D pos instr next where
  finds := finds
  moves := ⟨delta, known, behind ▸ Int.natCast_nonneg _, fun outcome target leads' => by
    rw [leads] at leads'
    cases leads'
    exact behind⟩

/-- An instruction that ends the activation. -/
theorem moves_return (finds : operandsOf m instr ≤ D pos)
    (known : instrStackDelta m instr = some delta) (enough : 0 ≤ (D pos : Int) + delta)
    (ends : ∀ outcome, instrSuccessor outcome next instr = none) : Moves m D pos instr next where
  finds := finds
  moves := ⟨delta, known, enough, fun outcome target leads => by
    rw [ends] at leads
    cases leads⟩

theorem moves_plain (goes : EmittedGoes depth (D pos) (D next) (.plain instr)) :
    Moves m D pos instr next := by
  cases instr with
  | dup => exact moves_on goes.1 rfl (by rw [goes.2]; rfl) fun _ => rfl
  | returnTos | blockReturnTos | nlrTos =>
    have one : 1 ≤ D pos := goes
    exact moves_return one rfl (by omega) fun _ => rfl
  | returnSelf => exact moves_return (Nat.zero_le _) rfl (by omega) fun _ => rfl
  | _ =>
    rcases goes with ⟨kind, eq⟩ | ⟨kind, eq⟩
    · first
        | cases kind; done
        | exact moves_on (Nat.zero_le _) rfl (by rw [eq]; rfl) fun _ => rfl
    · first
        | cases kind; done
        | exact moves_on (eq ▸ Nat.succ_pos _) rfl (by omega) fun _ => rfl

theorem moves_send {ic : BitVec 16} {isSuper : Bool} {sel : Oop} {argc : Nat}
    (site : m.icSite ic.toNat = some (sel, (argc : Int))) (one : 1 ≤ D next)
    (eq : D pos = D next + argc) : Moves m D pos (.send ic isSuper) next := by
  have known : instrStackDelta m (.send ic isSuper) = some (-(argc : Int)) := by
    show (m.icSite ic.toNat).map (fun site => -site.2) = _
    rw [site, Option.map_some]
  have finds : operandsOf m (.send ic isSuper) = argc + 1 := by
    show ((m.icSite ic.toNat).map fun site => site.2.toNat + 1).getD 0 = argc + 1
    rw [site, Option.map_some, Option.getD_some, Int.toNat_natCast]
  exact moves_on (by omega) known (by omega) fun _ => rfl

theorem moves_jumpFwd {d : BitVec 16} (to_ : D (next + d.toNat) = D pos) :
    Moves m D pos (.jumpFwd d) next where
  finds := Nat.zero_le _
  moves := ⟨0, rfl, by omega, fun outcome target leads => by
    cases leads
    rw [to_, add_zero]⟩

theorem moves_jumpBack {d : BitVec 16} (to_ : D (next - d.toNat) = D pos) :
    Moves m D pos (.jumpBack d) next where
  finds := Nat.zero_le _
  moves := ⟨0, rfl, by omega, fun outcome target leads => by
    cases leads
    rw [to_, add_zero]⟩

theorem moves_branch {d : BitVec 16} (kind : instr = .brTrueFwd d ∨ instr = .brFalseFwd d)
    (behind : D pos = D next + 1) (to_ : D (next + d.toNat) = D next) :
    Moves m D pos instr next := by
  have known : instrStackDelta m instr = some (-1) := by
    rcases kind with rfl | rfl <;> rfl
  have finds : operandsOf m instr ≤ D pos := by
    rcases kind with rfl | rfl <;> exact behind ▸ Nat.succ_pos _
  have leads : ∀ outcome target, instrSuccessor outcome next instr = some target →
      target = next ∨ target = next + d.toNat := by
    rintro outcome target leads
    rcases kind with rfl | rfl <;> cases leads <;> cases outcome <;> simp
  refine ⟨finds, -1, known, by omega, fun outcome target is => ?_⟩
  rcases leads outcome target is with rfl | rfl <;> omega

end

/-- The instruction of an item moves the depth as the code does. A literal operand may be
wrong. -/
theorem moves_of_names {m : CompiledMethod} {b : Builder} {boundAt : Label → Option Nat}
    {e : Bytecode.Emitted} {pos next : Nat} {it : Bytecode.Item}
    (shape : Bytecode.Shape b e (pos, it))
    (names : literalRef e it = none → m.Names boundAt e (pos, it.instr b.labels pos))
    (bound : ∀ l target, boundAt l = some target → D target = depth l)
    (goes : EmittedGoes depth (D pos) (D next) e)
    (at_ : decodeAt m.code pos = some (it.instr b.labels pos, next)) (width : next = pos + it.width) :
    Moves m D pos (it.instr b.labels pos) next := by
  cases shape with
  | plain i bytes pos => exact moves_plain goes
  | pushLiteral | pushGlobal | pushClosure =>
    have eq : D next = D pos + 1 := goes
    exact moves_on (Nat.zero_le _) rfl (by rw [eq]; rfl) fun _ => rfl
  | storeGlobalPop =>
    have eq : D pos = D next + 1 := goes
    exact moves_on (eq ▸ Nat.succ_pos _) rfl (by omega) fun _ => rfl
  | send => exact moves_send (names rfl).2 goes.1 goes.2
  | @fwd l pos kind low fits =>
    subst width
    cases kind with
    | jump => exact moves_jumpFwd ((bound l _ (names rfl)).trans goes.symm)
    | brTrue => exact moves_branch (.inl rfl) goes.1 ((bound l _ (names rfl)).trans goes.2.symm)
    | brFalse => exact moves_branch (.inr rfl) goes.1 ((bound l _ (names rfl)).trans goes.2.symm)
  | @jumpBack l pos d target bytes bound_ length =>
    obtain rfl := decodeAt_jumpBack at_
    exact moves_jumpBack ((bound l _ (names rfl).2).trans goes.symm)

/-- The collections that `finish` may run. -/
theorem Tracked.collect (tracked : Tracked depth rest s items D d) (ρ : Equiv.Perm Addr) :
    Tracked depth rest ⟨s.builder.collect ρ, s.record.move ρ⟩ items D d :=
  @Tracked.silent false _ _ _ _ (.collect ρ) _ _ _ tracked rfl rfl

variable {b : Builder} {t : Record}

/-- Every item stands at its bci. -/
theorem decodeAt_item (inv : Inv b t items) {pos : Nat} {it : Bytecode.Item}
    (mem : (pos, it) ∈ layout 0 items) :
    decodeAt b.code pos = some (it.instr b.labels pos, pos + it.width) := by
  have readable : ∀ it ∈ items, it.Readable := by
    intro it mem
    obtain ⟨pos, inLayout⟩ := exists_layout_mem 0 mem
    obtain ⟨e, -, matched⟩ := exists_of_forall₂_mem inv.matched inLayout
    exact matched.readable
  have at_ := decodeAt_layout b.labels readable [] mem
  rwa [List.nil_append, List.length_nil, ← inv.code_eq] at at_

theorem exists_of_forall₂_both {α β : Type} {R S : α → β → Prop} {as : List α} {bs : List β} {b : β}
    (first : List.Forall₂ R as bs) (second : List.Forall₂ S as bs) (mem : b ∈ bs) :
    ∃ a ∈ as, R a b ∧ S a b := by
  obtain ⟨i, at_⟩ := List.mem_iff_getElem?.mp mem
  have inside : i < as.length := first.length_eq ▸ (List.getElem?_eq_some_iff.mp at_).1
  have atA := List.getElem?_eq_getElem inside
  exact ⟨as[i], List.getElem_mem inside, forall₂_getElem? first atA at_,
    forall₂_getElem? second atA at_⟩

/-- A finished method has depths, and no jump to its end. -/
theorem Tracked.finished (tracked : Tracked depth [] ⟨b, t⟩ items D d)
    (plain : ∀ e ∈ t.emitted, PlainEmitted e)
    (bound : ∀ (l : Label) (ss : List Nat), b.labels[l]? ≠ some (.unbound ss))
    {m : CompiledMethod} {nil : Oop} (code_eq : m.code = b.code)
    (literals_eq : m.literals = b.literals) (ics_eq : m.ics = b.icSites.flatMap (Builder.icWords nil))
    (assembled : Assembled m.code ((layout 0 items).map Prod.fst)) :
    ¬ TargetsEnd m.code ∧ Depths m ((layout 0 items).map Prod.fst) D := by
  have inv : Inv b t items := tracked.inv
  have matches_ : ∀ pos it, (pos, it) ∈ layout 0 items → ∃ e ∈ t.emitted, Matches b e (pos, it) ∧
      EmittedGoes depth (D pos) (D (pos + it.width)) e := by
    intro pos it mem
    exact exists_of_forall₂_both inv.matched tracked.goes mem
  refine ⟨?_, tracked.entry, ?_⟩
  · rintro ⟨bci, instr, next, is, target⟩
    obtain ⟨mem, decoded⟩ := (assembled.hasInstr _ _ _).mp is
    obtain ⟨⟨pos, it⟩, inside, rfl⟩ := List.mem_map.mp mem
    obtain ⟨e, memE, matched, -⟩ := matches_ pos it inside
    have at_ := decodeAt_item inv inside
    rw [← code_eq, decoded] at at_
    cases at_
    obtain ⟨l, isBound⟩ := fwd_of_matches matched (plain e memE) bound target
    have inside := tracked.closed rfl l _ ((inv.boundAt_iff l _).mpr isBound)
    rw [code_eq, inv.code_eq, encodeAll_length] at inside
    exact Nat.lt_irrefl _ inside
  · intro bci mem instr next decoded
    obtain ⟨⟨pos, it⟩, inside, rfl⟩ := List.mem_map.mp mem
    obtain ⟨e, -, matched, goes⟩ := matches_ pos it inside
    have at_ := decodeAt_item inv inside
    rw [← code_eq, decoded] at at_
    cases at_
    refine moves_of_names matched.shape (fun none_ => ?_) tracked.bound goes decoded rfl
    refine (matched.names_iff bound inv.boundAt_iff literals_eq ics_eq).mpr ?_
    intro k o is
    rw [none_] at is
    cases is

end

/-- A unit whose code has depths for its labels, assembled by any calls that emit it. -/
theorem assembled_depths {unit : CodeUnit} (flows : unit.Balanced) {debug : Bool}
    {calls : List Call} (emit : assembles unit.code calls = true) {s : Session}
    (ran : Session.new.run debug calls = some s) {ρ : Equiv.Perm Addr} {nil selector : Oop}
    {argc ntemps : Nat} {m : CompiledMethod}
    (finished : s.builder.finish debug ρ nil selector argc ntemps = some m) :
    ∃ bcis D, Assembled m.code bcis ∧ ¬ TargetsEnd m.code ∧ Depths m bcis D := by
  obtain ⟨⟨depth, dEnd, balanced⟩, xs, r, code, isReturn⟩ := flows
  have returning : Returning unit.code := by
    intro i last
    rw [code, List.getLast?_concat] at last
    cases last
    exact isReturn
  obtain ⟨items, D, tracked⟩ :=
    (Tracked.new depth (by rw [code]; simp)).run balanced returning emit ran
  obtain ⟨bound, code_eq, literals_eq, ics_eq⟩ := finish_eq_some finished
  obtain ⟨nonempty, instrs, decoded, returns⟩ := finish_endsInReturn finished
  have plain : ∀ e ∈ s.record.emitted, PlainEmitted e :=
    plainEmitted_run (s := Session.new) (fun e mem => by cases mem) ran
  have assembled : Assembled m.code ((layout 0 items).map Prod.fst) :=
    code_eq ▸ assembled_of_inv tracked.inv plain bound nonempty decoded returns
  have moved : ∀ e ∈ (s.record.move ρ).emitted, PlainEmitted e := plainEmitted_call s.builder (.collect ρ) plain
  exact ⟨_, D, assembled, (tracked.collect ρ).finished moved bound code_eq literals_eq ics_eq assembled⟩

/-! ## Compiled methods -/

/-- Every unit of a method is assembled to a method whose depths are exact. -/
def CompilesExact (h : Holder) (classSide topLevel : Bool) (m : MethodNode) : Prop :=
  ∀ units globals, compileMethodInner narrow8 h classSide topLevel m = .ok (units, globals) →
    ∀ unit ∈ units, ∀ (debug : Bool) (calls : List Call) (s : Session) (ρ : Equiv.Perm Addr)
      (nil selector : Oop) (method : CompiledMethod), assembles unit.code calls = true →
      Session.new.run debug calls = some s →
      s.builder.finish debug ρ nil selector unit.argc unit.ntemps = some method →
      DepthsExact debug method

/-- A method is compiled to exact depths if each of its messages has fewer than 256 arguments. -/
theorem compiled_depths_exact (h : Holder) (classSide topLevel : Bool) (m : MethodNode)
    (regular : regularAll false (analyze m).1.body = true) :
    CompilesExact h classSide topLevel m := by
  intro units globals compiled unit mem debug calls s ρ nil selector method emit ran finished
  have balanced := compiled_units_balanced narrow8_small compiled regular unit mem
  obtain ⟨bcis, D, assembled, inside, depths⟩ := assembled_depths balanced emit ran finished
  exact depths.exact debug assembled inside

/-- `m [ self ifTrue: [ self k: self ] ]`, with `n` parts of the keyword message. -/
def branching (n : Nat) : MethodNode where
  patternSelector := "m"
  params := []
  primitive := none
  ffi := none
  temps := []
  body := [.send (.selfRef default) "ifTrue:"
    [.block [] [] [.send (.selfRef default) (String.join (List.replicate n "k:"))
      (List.replicate n (.selfRef default)) false default] default 0] false default]
  classSide := false
  span := default

theorem branching_depths_exact : CompilesExact ⟨[], [], []⟩ false false (branching 1) :=
  compiled_depths_exact _ _ _ _ (by decide +kernel)

/-- The calls for its code. -/
def branchingCalls (n : Nat) : List Call :=
  [.newLabel, .newLabel, .noteLine 0, .pushSelf, .brFalseFwd 0, .noteLine 0] ++
    List.replicate (n + 1) .pushSelf ++
    [.send (.mem 8) (BitVec.ofNat 8 n), .jumpFwd 1, .bind 0, .pushNil, .bind 1, .pop, .retSelf]

/-- The code of a method is emitted by the calls, and the depths of what they build fail. -/
def failsDepths (m : MethodNode) (calls : List Call) : Bool :=
  match compileMethodInner narrow8 ⟨[], [], []⟩ false false m with
  | .error _ => false
  | .ok (units, _) => units.any fun unit => assembles unit.code calls &&
    (Session.new.run true calls).any fun s =>
      (s.builder.finish true (Equiv.refl _) (.mem 0) (.mem 16) unit.argc unit.ntemps).any fun method =>
        (decode true method.code).any fun cfg => (computeEntryDepths true method cfg).isNone

theorem not_exact_of_fails {m : MethodNode} {calls : List Call} (fails : failsDepths m calls = true) :
    ¬ CompilesExact ⟨[], [], []⟩ false false m := by
  intro exact
  unfold failsDepths at fails
  split at fails
  · cases fails
  next units globals compiled =>
  obtain ⟨unit, mem, fails⟩ := List.any_eq_true.mp fails
  obtain ⟨emit, fails⟩ := Bool.and_eq_true_iff.mp fails
  obtain ⟨s, ran, fails⟩ := (Option.any_eq_true _ _).mp fails
  obtain ⟨method, finished, fails⟩ := (Option.any_eq_true _ _).mp fails
  obtain ⟨cfg, decoded, fails⟩ := (Option.any_eq_true _ _).mp fails
  obtain ⟨cfg', depths, maxDepth, decoded', computed, -⟩ :=
    exact units globals compiled unit mem true calls s _ _ _ method emit ran finished
  rw [decoded] at decoded'
  cases decoded'
  rw [computed] at fails
  cases fails

/-- 256 arguments: the count is truncated to 0, the arguments stay on the stack, and the
depths at the merge differ. -/
theorem compiled_depths_inexact :
    ¬ ∀ (h : Holder) (classSide topLevel : Bool) (m : MethodNode),
      CompilesExact h classSide topLevel m := fun exact =>
  @not_exact_of_fails (branching 256) (branchingCalls 256) (by decide +kernel) (exact _ _ _ _)

end WinVm.Frontend
