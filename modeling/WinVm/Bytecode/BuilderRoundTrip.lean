import Mathlib.Data.List.Forall2
import WinVm.Bytecode.Builder

/-!
# The assembler round trip

A finished method decodes to the instructions its builder was asked for. The code of a
builder is the encoding of a list of items: finished instructions, and forward jumps whose
operand depends on the label table. Binding a label changes that table, and patching the
recorded sites is what re-encodes the items under the new table (`patchSites_encode`).

Every claim about code, labels and IC sites holds along every run. A literal operand is
another matter: `push_global`, `store_global_pop`, `push_closure` (outside debug builds) and,
past 65536 slots, `push_literal` truncate the slot index, and the truncated operand names the
passed oop only if the call fits (`Session.Fits`).

Results:

* `round_trip_iff_all_fit`: a method that `finish` accepts makes the round trip exactly when
  every call of the run fits;
* `push_global_wraps_past_u8`: a 257th literal that is a global reads back as the first.
-/

namespace WinVm.Bytecode

open WinVm.Lib

/-! ## Items and their layout -/

def Branch.op : Branch → Byte
  | .jump => opJumpFwd
  | .brTrue => opBrTrueFwd
  | .brFalse => opBrFalseFwd

def Branch.instr : Branch → BitVec 16 → Instr
  | .jump => .jumpFwd
  | .brTrue => .brTrueFwd
  | .brFalse => .brFalseFwd

/-- A stretch of code: a finished instruction, or a forward jump to a label. -/
inductive Item where
  | fixed (i : Instr) (bytes : List Byte)
  | fwd (kind : Branch) (l : Label)

/-- The operand of a forward jump whose next bci is `next`: the distance to its label once
that is bound, the placeholder before. -/
def distanceOf (labels : List LabelState) (next : Nat) (l : Label) : BitVec 16 :=
  match labels[l]? with
  | some (.bound target) => BitVec.ofNat 16 (target - next)
  | _ => 0xFFFF#16

namespace Item

def width : Item → Nat
  | fixed _ bytes => bytes.length
  | fwd _ _ => 3

def encode (labels : List LabelState) (pos : Nat) : Item → List Byte
  | fixed _ bytes => bytes
  | fwd kind l => kind.op :: u16le (distanceOf labels (pos + 3) l)

def instr (labels : List LabelState) (pos : Nat) : Item → Instr
  | fixed i _ => i
  | fwd kind l => kind.instr (distanceOf labels (pos + 3) l)

@[simp] theorem encode_length (labels : List LabelState) (pos : Nat) (it : Item) :
    (it.encode labels pos).length = it.width := by
  cases it with
  | fixed i bytes => rfl
  | fwd kind l => rfl

/-- The operand position recorded for a jump to `l`. -/
def site (l : Label) : Nat × Item → Option Nat
  | (pos, fwd _ l') => if l' = l then some (pos + 1) else none
  | (_, fixed _ _) => none

end Item

/-- Items with their positions, from `pos` on. -/
def layout : Nat → List Item → List (Nat × Item)
  | _, [] => []
  | pos, it :: items => (pos, it) :: layout (pos + it.width) items

def encodeAll (labels : List LabelState) (xs : List (Nat × Item)) : List Byte :=
  xs.flatMap fun x => x.2.encode labels x.1

def sitesOf (l : Label) (xs : List (Nat × Item)) : List Nat :=
  xs.filterMap (Item.site l)

def size (items : List Item) : Nat := (items.map Item.width).sum

theorem layout_append (pos : Nat) (items : List Item) (it : Item) :
    layout pos (items ++ [it]) = layout pos items ++ [(pos + size items, it)] := by
  induction items generalizing pos with
  | nil => rfl
  | cons x items ih =>
    simp only [List.cons_append, layout, ih, size, List.map_cons, List.sum_cons, Nat.add_assoc]

theorem encodeAll_length (labels : List LabelState) (pos : Nat) (items : List Item) :
    (encodeAll labels (layout pos items)).length = size items := by
  induction items generalizing pos with
  | nil => rfl
  | cons x items ih =>
    have h := ih (pos + x.width)
    simp only [encodeAll, layout, List.flatMap_cons, List.length_append, Item.encode_length,
      size, List.map_cons, List.sum_cons] at h ⊢
    rw [h]

/-- An item ends within the code. -/
theorem layout_end_le {items : List Item} {pos p : Nat} {it : Item}
    (h : (p, it) ∈ layout pos items) : p + it.width ≤ pos + size items := by
  induction items generalizing pos with
  | nil => cases h
  | cons x items ih =>
    simp only [size, List.map_cons, List.sum_cons]
    cases h with
    | head => omega
    | tail _ h =>
      have := ih h
      simp only [size] at this
      omega

theorem exists_layout_mem {items : List Item} (pos : Nat) {it : Item} (h : it ∈ items) :
    ∃ p, (p, it) ∈ layout pos items := by
  induction items generalizing pos with
  | nil => cases h
  | cons x items ih =>
    cases h with
    | head => exact ⟨pos, List.mem_cons_self⟩
    | tail _ h =>
      obtain ⟨p, hp⟩ := ih (pos + x.width) h
      exact ⟨p, List.mem_cons_of_mem _ hp⟩

/-! ## Patching -/

theorem u16le_ofNat (d : Nat) :
    u16le (BitVec.ofNat 16 d) = [BitVec.ofNat 8 d, BitVec.ofNat 8 (d / 256)] := by
  have hlow : (BitVec.ofNat 16 d &&& 0xFF#16).setWidth 8 = BitVec.ofNat 8 d := by
    apply BitVec.eq_of_toNat_eq
    have h := Nat.and_two_pow_sub_one_eq_mod (d % 65536) 8
    simp only [BitVec.toNat_setWidth, BitVec.toNat_and, BitVec.toNat_ofNat]
    norm_num at h ⊢
    rw [h]
    omega
  have hhigh : (BitVec.ofNat 16 d >>> 8).setWidth 8 = BitVec.ofNat 8 (d / 256) := by
    apply BitVec.eq_of_toNat_eq
    simp only [BitVec.toNat_setWidth, BitVec.toNat_ushiftRight, BitVec.toNat_ofNat,
      Nat.shiftRight_eq_div_pow]
    omega
  rw [u16le, hlow, hhigh]

/-- Patching the operand of a jump that stands behind `pre`. -/
theorem patchU16_at (pre rest : List Byte) (op : Byte) (v : BitVec 16) (d : Nat) :
    Builder.patchU16 (pre ++ ((op :: u16le v) ++ rest)) (pre.length + 1) d =
      pre ++ ((op :: u16le (BitVec.ofNat 16 d)) ++ rest) := by
  rw [u16le_ofNat]
  have h1 : ∀ x y z : Byte, ∀ w : Byte, (pre ++ x :: y :: z :: rest).set (pre.length + 1) w =
      pre ++ x :: w :: z :: rest := by
    intro x y z w
    rw [List.set_append_right _ _ (by omega), Nat.add_sub_cancel_left]
    rfl
  have h2 : ∀ x y z : Byte, ∀ w : Byte, (pre ++ x :: y :: z :: rest).set (pre.length + 1 + 1) w =
      pre ++ x :: y :: w :: rest := by
    intro x y z w
    rw [List.set_append_right _ _ (by omega), Nat.add_assoc, Nat.add_sub_cancel_left]
    rfl
  simp only [Builder.patchU16, u16le, List.cons_append, List.nil_append, h1, h2]

theorem distanceOf_set_ne {labels : List LabelState} {l l' : Label} (h : l' ≠ l)
    (st : LabelState) (next : Nat) :
    distanceOf (labels.set l st) next l' = distanceOf labels next l' := by
  rw [distanceOf, distanceOf, List.getElem?_set_ne (Ne.symm h)]

theorem distanceOf_bound {labels : List LabelState} {l : Label} {target : Nat}
    (h : labels[l]? = some (.bound target)) (next : Nat) :
    distanceOf labels next l = BitVec.ofNat 16 (target - next) := by
  rw [distanceOf, h]

/-- `bind` patches exactly the jumps to its label: the patched code encodes the same items
under the table with the label bound, and every patched distance fits its operand. -/
theorem patchSites_encode {labels : List LabelState} {l : Label} (hl : l < labels.length)
    (target : Nat) (items : List Item) (pre code : List Byte)
    (h : Builder.patchSites target (sitesOf l (layout pre.length items))
      (pre ++ encodeAll labels (layout pre.length items)) = some code) :
    code = pre ++ encodeAll (labels.set l (.bound target)) (layout pre.length items) ∧
      ∀ site ∈ sitesOf l (layout pre.length items), site + 2 ≤ target ∧
        target - (site + 2) < 65536 := by
  have hset : (labels.set l (.bound target))[l]? = some (.bound target) := by
    rw [List.getElem?_set_self hl]
  induction items generalizing pre with
  | nil =>
    refine ⟨?_, by simp [sitesOf, layout]⟩
    simpa [sitesOf, layout, encodeAll, Builder.patchSites] using h.symm
  | cons it items ih =>
    simp only [layout, encodeAll, List.flatMap_cons] at h ⊢
    -- the encoding of the head under the new table, moved into the prefix
    have hpre : ∀ bytes : List Byte, bytes.length = it.width →
        (pre ++ bytes).length = pre.length + it.width := by
      intro bytes hb
      rw [List.length_append, hb]
    have key : ∀ bytes : List Byte, bytes.length = it.width →
        bytes = it.encode (labels.set l (.bound target)) pre.length →
        Builder.patchSites target (sitesOf l (layout (pre.length + it.width) items))
          (pre ++ (bytes ++ encodeAll labels (layout (pre.length + it.width) items))) =
            some code →
        code = pre ++ (it.encode (labels.set l (.bound target)) pre.length ++
            encodeAll (labels.set l (.bound target)) (layout (pre.length + it.width) items)) ∧
          ∀ site ∈ sitesOf l (layout (pre.length + it.width) items), site + 2 ≤ target ∧
            target - (site + 2) < 65536 := by
      intro bytes hlen hbytes hpatch
      have := ih (pre ++ bytes)
      rw [hpre bytes hlen, List.append_assoc, List.append_assoc] at this
      obtain ⟨hcode, hsites⟩ := this hpatch
      exact ⟨by rw [hcode, hbytes], hsites⟩
    cases it with
    | fixed i bytes => exact key bytes rfl rfl h
    | fwd kind l' =>
      by_cases hl' : l' = l
      · subst hl'
        have hsites : sitesOf l' ((pre.length, Item.fwd kind l') ::
            layout (pre.length + 3) items) =
            (pre.length + 1) :: sitesOf l' (layout (pre.length + 3) items) := by
          simp [sitesOf, Item.site]
        simp only [Item.width] at h ⊢
        rw [hsites, Builder.patchSites] at h
        rw [hsites]
        split at h
        · cases h
        · rename_i hge
          split at h
          · cases h
          · rename_i hle
            rw [Item.encode, patchU16_at] at h
            have hfit : pre.length + 1 + 2 ≤ target ∧ target - (pre.length + 1 + 2) < 65536 := by
              omega
            have henc : Branch.op kind :: u16le (BitVec.ofNat 16 (target - (pre.length + 3))) =
                (Item.fwd kind l').encode (labels.set l' (.bound target)) pre.length := by
              rw [Item.encode, distanceOf_bound hset]
            obtain ⟨hcode, hrest⟩ := key _ rfl henc h
            exact ⟨hcode, List.forall_mem_cons.mpr ⟨hfit, hrest⟩⟩
      · have hsites : sitesOf l ((pre.length, Item.fwd kind l') ::
            layout (pre.length + 3) items) = sitesOf l (layout (pre.length + 3) items) := by
          simp [sitesOf, Item.site, hl']
        simp only [Item.width] at h ⊢
        rw [hsites] at h ⊢
        refine key _ rfl ?_ h
        simp only [Item.encode, distanceOf_set_ne hl']

theorem distanceOf_congr {labels labels' : List LabelState} {l : Label}
    (h : ∀ target, labels'[l]? = some (.bound target) ↔ labels[l]? = some (.bound target))
    (next : Nat) : distanceOf labels' next l = distanceOf labels next l := by
  unfold distanceOf
  cases hl : labels[l]? with
  | some st =>
    cases st with
    | bound target => rw [(h target).mpr hl]
    | unbound ss =>
      cases hl' : labels'[l]? with
      | none => rfl
      | some st' =>
        cases st' with
        | unbound ss' => rfl
        | bound target =>
          have := (h target).mp hl'
          rw [hl] at this
          cases this
  | none =>
    cases hl' : labels'[l]? with
    | none => rfl
    | some st' =>
      cases st' with
      | unbound ss' => rfl
      | bound target =>
        have := (h target).mp hl'
        rw [hl] at this
        cases this

theorem encodeAll_congr {labels labels' : List LabelState}
    (h : ∀ (l : Label) (target : Nat),
      labels'[l]? = some (.bound target) ↔ labels[l]? = some (.bound target))
    (xs : List (Nat × Item)) : encodeAll labels' xs = encodeAll labels xs := by
  unfold encodeAll
  congr 1
  funext x
  cases hx : x.2 with
  | fixed i bytes => rfl
  | fwd kind l => simp only [Item.encode, distanceOf_congr (h l)]

/-! ## Decoding the items -/

theorem reads_branch (kind : Branch) (d : BitVec 16) :
    Reads decodeAt (kind.op :: u16le d) (kind.instr d) := by
  cases kind with
  | jump => exact reads_wide rfl d
  | brTrue => exact reads_wide rfl d
  | brFalse => exact reads_wide rfl d

/-- A finished instruction's bytes decode to it. -/
def Item.Readable : Item → Prop
  | .fixed i bytes => bytes ≠ [] ∧ Reads decodeAt bytes i
  | .fwd _ _ => True

theorem Item.Readable.reads {it : Item} (h : it.Readable) (labels : List LabelState) (pos : Nat) :
    it.encode labels pos ≠ [] ∧ Reads decodeAt (it.encode labels pos) (it.instr labels pos) := by
  cases it with
  | fixed i bytes => exact h
  | fwd kind l => exact ⟨List.cons_ne_nil _ _, reads_branch kind _⟩

theorem Item.Readable.width_pos {it : Item} (h : it.Readable) : 0 < it.width := by
  cases it with
  | fixed i bytes => exact List.length_pos_iff.mpr h.1
  | fwd kind l => exact Nat.succ_pos _

/-- The walk over encoded items meets each of them in turn. -/
theorem decodeWalk_encode (labels : List LabelState) (items : List Item)
    (hread : ∀ it ∈ items, it.Readable) (pre : List Byte) (fuel : Nat)
    (hfuel : size items ≤ fuel) :
    decodeWalk (pre ++ encodeAll labels (layout pre.length items)) fuel pre.length =
      some ((layout pre.length items).map fun x => (x.1, x.2.instr labels x.1)) := by
  induction items generalizing pre fuel with
  | nil =>
    have h := decodeWalk_end pre fuel
    simpa [layout, encodeAll] using h
  | cons it items ih =>
    have hit := hread it List.mem_cons_self
    obtain ⟨hne, hreads⟩ := hit.reads labels pre.length
    have hpos := hit.width_pos
    simp only [size, List.map_cons, List.sum_cons] at hfuel
    obtain ⟨fuel, rfl⟩ : ∃ n, fuel = n + 1 := ⟨fuel - 1, by omega⟩
    have hlen : (pre ++ it.encode labels pre.length).length = pre.length + it.width := by
      rw [List.length_append, Item.encode_length]
    have hrest := ih (fun x hx => hread x (List.mem_cons_of_mem _ hx))
      (pre ++ it.encode labels pre.length) fuel (by simp only [size]; omega)
    rw [hlen, List.append_assoc] at hrest
    simp only [layout, encodeAll, List.flatMap_cons, List.map_cons]
    rw [decodeWalk_cons hne hreads, Item.encode_length]
    simp only [encodeAll] at hrest
    rw [hrest, Option.map_some]

theorem decodeAll_encode (labels : List LabelState) (items : List Item)
    (hread : ∀ it ∈ items, it.Readable) :
    decodeAll (encodeAll labels (layout 0 items)) =
      some ((layout 0 items).map fun x => (x.1, x.2.instr labels x.1)) := by
  have h := decodeWalk_encode labels items hread [] (size items) (Nat.le_refl _)
  have hlen := encodeAll_length labels 0 items
  simpa [decodeAll, hlen] using h

/-! ## The invariant of a session -/

/-- The literal slot an instruction names, with the oop its call was passed. -/
def literalRef : Emitted → Item → Option (Nat × Oop)
  | .pushLiteral o, .fixed (.pushLiteral k) _ => some (k.toNat, o)
  | .pushGlobal o, .fixed (.pushGlobal k) _ => some (k.toNat, o)
  | .storeGlobalPop o, .fixed (.storeGlobalPop k) _ => some (k.toNat, o)
  | .pushClosure (some o) _, .fixed (.pushClosure k _) _ => some (k.toNat, o)
  | _, _ => none

/-- The literal operand names the oop that was passed. -/
def Good (b : Builder) (e : Emitted) (x : Nat × Item) : Prop :=
  ∀ k o, literalRef e x.2 = some (k, o) → b.literals[k]? = some o

/-- The item is of the kind that was asked for; sends and jumps name what they should. -/
inductive Shape (b : Builder) : Emitted → Nat × Item → Prop
  | plain (i : Instr) (bytes : List Byte) (pos : Nat) : Shape b (.plain i) (pos, .fixed i bytes)
  | pushLiteral (o : Oop) (k : BitVec 16) (bytes : List Byte) (pos : Nat) :
    Shape b (.pushLiteral o) (pos, .fixed (.pushLiteral k) bytes)
  | pushGlobal (o : Oop) (k : Byte) (bytes : List Byte) (pos : Nat) :
    Shape b (.pushGlobal o) (pos, .fixed (.pushGlobal k) bytes)
  | storeGlobalPop (o : Oop) (k : Byte) (bytes : List Byte) (pos : Nat) :
    Shape b (.storeGlobalPop o) (pos, .fixed (.storeGlobalPop k) bytes)
  | pushClosure (blk : Option Oop) (k n : Byte) (bytes : List Byte) (pos : Nat) :
    Shape b (.pushClosure blk n) (pos, .fixed (.pushClosure k n) bytes)
  | send {isSuper : Bool} {sel : Oop} {argc : Byte} {ic : BitVec 16} (bytes : List Byte) (pos : Nat)
    (hic : b.icSites[ic.toNat]? = some (sel, argc)) :
    Shape b (.send isSuper sel argc) (pos, .fixed (.send ic isSuper) bytes)
  | fwd {l : Label} {pos : Nat} (kind : Branch) (hl : l < b.labels.length)
    (hfit : ∀ target, b.labels[l]? = some (.bound target) →
      pos + 3 ≤ target ∧ target - (pos + 3) < 65536) :
    Shape b (.fwd kind l) (pos, .fwd kind l)
  | jumpBack {l : Label} {pos : Nat} {d : BitVec 16} {target : Nat} (bytes : List Byte)
    (hl : b.labels[l]? = some (.bound target)) (hd : target + d.toNat = pos + 3) :
    Shape b (.jumpBack l) (pos, .fixed (.jumpBack d) bytes)

/-- An emitted instruction and the item it became. -/
structure Matches (b : Builder) (e : Emitted) (x : Nat × Item) : Prop where
  shape : Shape b e x
  readable : x.2.Readable
  inRange : ∀ k o, literalRef e x.2 = some (k, o) → k < b.literals.length

structure Inv (b : Builder) (t : Record) (items : List Item) : Prop where
  code_eq : b.code = encodeAll b.labels (layout 0 items)
  matched : List.Forall₂ (Matches b) t.emitted (layout 0 items)
  boundAt_iff : ∀ l target, t.boundAt l = some target ↔ b.labels[l]? = some (.bound target)
  boundary : ∀ (l : Label) (target : Nat), b.labels[l]? = some (.bound target) →
    target ∈ (layout 0 items).map Prod.fst ∨ target = b.code.length
  sites : ∀ (l : Label) (ss : List Nat), b.labels[l]? = some (.unbound ss) → ss = sitesOf l (layout 0 items)
  blocks : ∀ i o, t.blocks i = some o → b.literals[i]? = some o
  nIcs_eq : b.nIcs = b.icSites.length

/-- Every literal operand emitted so far names its oop. -/
def AllGood (b : Builder) (t : Record) (items : List Item) : Prop :=
  List.Forall₂ (Good b) t.emitted (layout 0 items)

theorem Inv.new : Inv Builder.new Record.new [] where
  code_eq := rfl
  matched := List.Forall₂.nil
  boundAt_iff := by
    intro l target
    simp [Record.new, Builder.new]
  boundary := by
    intro l target h
    simp [Builder.new] at h
  sites := by
    intro l ss h
    simp [Builder.new] at h
  blocks := by
    intro i o h
    simp [Record.new] at h
  nIcs_eq := rfl

/-! ## What later calls leave alone -/

@[simp] theorem Oop.move_refl : Oop.move (Equiv.refl _) = id := by
  funext o
  cases o with
  | smi v => rfl
  | mem a => rfl

@[simp] theorem Emitted.move_refl : Emitted.move (Equiv.refl _) = id := by
  funext e
  cases e with
  | _ => simp [Emitted.move]

theorem Oop.move_injective (ρ : Equiv.Perm Addr) : Function.Injective (Oop.move ρ) := by
  intro o o' h
  cases o with
  | smi v =>
    cases o' with
    | smi v' => exact h
    | mem a' => cases h
  | mem a =>
    cases o' with
    | smi v' => cases h
    | mem a' =>
      simp only [Oop.move, Oop.mem.injEq] at h
      rw [ρ.injective h]

/-- What `b'` keeps of `b` when a collection `ρ` ran in between: the slots of both tables in
place, their oops moved, and every bound label where it was. -/
structure Keeps (ρ : Equiv.Perm Addr) (b b' : Builder) : Prop where
  literals : ∃ more, b'.literals = b.literals.map (Oop.move ρ) ++ more
  icSites : ∃ more, b'.icSites = b.icSites.map (fun site => (site.1.move ρ, site.2)) ++ more
  labels_le : b.labels.length ≤ b'.labels.length
  bound : ∀ (l : Label) (target : Nat), b.labels[l]? = some (.bound target) →
    b'.labels[l]? = some (.bound target)

theorem Keeps.literal_iff {ρ : Equiv.Perm Addr} {b b' : Builder} (hk : Keeps ρ b b') {k : Nat}
    (hlt : k < b.literals.length) (o : Oop) :
    b'.literals[k]? = some (o.move ρ) ↔ b.literals[k]? = some o := by
  obtain ⟨more, hmore⟩ := hk.literals
  rw [hmore, List.getElem?_append_left (by simpa using hlt), List.getElem?_map,
    List.getElem?_eq_getElem hlt, Option.map_some, Option.some_inj, Option.some_inj]
  exact (Oop.move_injective ρ).eq_iff

theorem Keeps.icSite {ρ : Equiv.Perm Addr} {b b' : Builder} (hk : Keeps ρ b b') {i : Nat}
    {sel : Oop} {argc : Byte} (h : b.icSites[i]? = some (sel, argc)) :
    b'.icSites[i]? = some (sel.move ρ, argc) := by
  obtain ⟨more, hmore⟩ := hk.icSites
  have hlt : i < b.icSites.length := (List.getElem?_eq_some_iff.mp h).1
  rw [hmore, List.getElem?_append_left (by simpa using hlt), List.getElem?_map, h]
  rfl

theorem Shape.literalRef_move {b : Builder} {e : Emitted} {x : Nat × Item} (h : Shape b e x)
    (ρ : Equiv.Perm Addr) :
    literalRef (e.move ρ) x.2 = (literalRef e x.2).map fun r => (r.1, r.2.move ρ) := by
  cases h with
  | pushClosure blk k n bytes pos => cases blk <;> rfl
  | _ => rfl

/-- Items emitted before stay matched, as long as the jumps whose label has been bound since
reach it. -/
theorem Matches.keep {ρ : Equiv.Perm Addr} {b b' : Builder} {e : Emitted} {x : Nat × Item}
    (h : Matches b e x) (hk : Keeps ρ b b')
    (hfwd : ∀ kind l target, x.2 = .fwd kind l → b'.labels[l]? = some (.bound target) →
      b.labels[l]? = some (.bound target) ∨ (x.1 + 3 ≤ target ∧ target - (x.1 + 3) < 65536)) :
    Matches b' (e.move ρ) x := by
  obtain ⟨hshape, hread, hrange⟩ := h
  refine ⟨?_, hread, ?_⟩
  · cases hshape with
    | plain i bytes pos => exact .plain i bytes pos
    | pushLiteral o k bytes pos => exact .pushLiteral _ k bytes pos
    | pushGlobal o k bytes pos => exact .pushGlobal _ k bytes pos
    | storeGlobalPop o k bytes pos => exact .storeGlobalPop _ k bytes pos
    | pushClosure blk k n bytes pos => exact .pushClosure _ k n bytes pos
    | send bytes pos hic => exact .send bytes pos (hk.icSite hic)
    | fwd kind hl hfit =>
      refine .fwd kind (Nat.lt_of_lt_of_le hl hk.labels_le) ?_
      intro target htarget
      rcases hfwd kind _ target rfl htarget with hold | hnew
      · exact hfit target hold
      · exact hnew
    | jumpBack bytes hl hd => exact .jumpBack bytes (hk.bound _ _ hl) hd
  · intro k o href
    rw [hshape.literalRef_move] at href
    obtain ⟨⟨k', o'⟩, href', heq⟩ := Option.map_eq_some_iff.mp href
    obtain ⟨more, hmore⟩ := hk.literals
    have hlt := hrange k' o' href'
    cases heq
    rw [hmore, List.length_append, List.length_map]
    exact Nat.lt_of_lt_of_le hlt (Nat.le_add_right _ _)

theorem Matches.good_keep {ρ : Equiv.Perm Addr} {b b' : Builder} {e : Emitted} {x : Nat × Item}
    (h : Matches b e x) (hk : Keeps ρ b b') : Good b' (e.move ρ) x ↔ Good b e x := by
  unfold Good
  rw [h.shape.literalRef_move]
  cases href : literalRef e x.2 with
  | none => simp
  | some r =>
    obtain ⟨k, o⟩ := r
    have hiff := hk.literal_iff (h.inRange k o href) o
    simp only [Option.map_some, Option.some_inj, Prod.mk.injEq, and_imp]
    constructor
    · rintro hgood _ _ rfl rfl
      exact hiff.mp (hgood _ _ rfl rfl)
    · rintro hgood _ _ rfl rfl
      exact hiff.mpr (hgood _ _ rfl rfl)

theorem forall₂_of_mem {α β : Type} {R S : α → β → Prop} {as : List α} {bs : List β}
    (h : List.Forall₂ R as bs) (himp : ∀ a b, b ∈ bs → R a b → S a b) : List.Forall₂ S as bs := by
  induction h with
  | nil => exact .nil
  | cons hab _ ih =>
    refine .cons (himp _ _ List.mem_cons_self hab) (ih ?_)
    intro a b hb
    exact himp a b (List.mem_cons_of_mem _ hb)

theorem forall₂_iff_of {α β : Type} {R S T : α → β → Prop} {as : List α} {bs : List β}
    (h : List.Forall₂ R as bs) (hiff : ∀ a b, R a b → (S a b ↔ T a b)) :
    List.Forall₂ S as bs ↔ List.Forall₂ T as bs := by
  induction h with
  | nil => simp
  | cons hab _ ih => rw [List.forall₂_cons, List.forall₂_cons, hiff _ _ hab, ih]

theorem exists_of_forall₂_mem {α β : Type} {R : α → β → Prop} {as : List α} {bs : List β} {b : β}
    (h : List.Forall₂ R as bs) (hb : b ∈ bs) : ∃ a ∈ as, R a b := by
  induction h with
  | nil => cases hb
  | cons hab _ ih =>
    cases hb with
    | head => exact ⟨_, List.mem_cons_self, hab⟩
    | tail _ hb =>
      obtain ⟨a, ha, hab⟩ := ih hb
      exact ⟨a, List.mem_cons_of_mem _ ha, hab⟩

theorem forall₂_getElem? {α β : Type} {R : α → β → Prop} {as : List α} {bs : List β} {i : Nat}
    {a : α} {b : β} (h : List.Forall₂ R as bs) (ha : as[i]? = some a) (hb : bs[i]? = some b) :
    R a b := by
  obtain ⟨hi, rfl⟩ := List.getElem?_eq_some_iff.mp ha
  obtain ⟨hj, rfl⟩ := List.getElem?_eq_some_iff.mp hb
  exact h.get hi hj

theorem forall₂_snoc {α β : Type} {R : α → β → Prop} {as : List α} {bs : List β} {a : α} {b : β} :
    List.Forall₂ R (as ++ [a]) (bs ++ [b]) ↔ List.Forall₂ R as bs ∧ R a b := by
  rw [← List.forall₂_reverse_iff, List.reverse_concat', List.reverse_concat', List.forall₂_cons,
    List.forall₂_reverse_iff, and_comm]

/-- The literal operands emitted so far stay right, or stay wrong. -/
theorem Inv.allGood_keep {ρ : Equiv.Perm Addr} {b b' : Builder} {t t' : Record}
    {items : List Item} (h : Inv b t items) (hk : Keeps ρ b b')
    (hem : t'.emitted = t.emitted.map (Emitted.move ρ)) :
    AllGood b' t' items ↔ AllGood b t items := by
  unfold AllGood
  rw [hem, List.forall₂_map_left_iff]
  exact forall₂_iff_of h.matched fun e x hm => hm.good_keep hk

/-- A call that emits nothing and binds nothing. -/
theorem Inv.quiet {ρ : Equiv.Perm Addr} {b b' : Builder} {t t' : Record} {items : List Item}
    (h : Inv b t items) (hk : Keeps ρ b b') (hcode : b'.code = b.code)
    (hbound : ∀ (l : Label) (target : Nat),
      b'.labels[l]? = some (.bound target) ↔ b.labels[l]? = some (.bound target))
    (hsites : ∀ (l : Label) (ss : List Nat), b'.labels[l]? = some (.unbound ss) →
      ss = sitesOf l (layout 0 items))
    (hn : b'.nIcs = b'.icSites.length)
    (hem : t'.emitted = t.emitted.map (Emitted.move ρ)) (hboundAt : t'.boundAt = t.boundAt)
    (hblocks : ∀ i o, t'.blocks i = some o → b'.literals[i]? = some o) : Inv b' t' items where
  code_eq := by rw [hcode, encodeAll_congr hbound, h.code_eq]
  matched := by
    rw [hem, List.forall₂_map_left_iff]
    refine h.matched.imp fun e x hm => hm.keep hk ?_
    intro kind l target _ htarget
    exact Or.inl ((hbound l target).mp htarget)
  boundAt_iff := by
    intro l target
    rw [hboundAt, hbound]
    exact h.boundAt_iff l target
  boundary := by
    intro l target hl
    rw [hcode]
    exact h.boundary l target ((hbound l target).mp hl)
  sites := hsites
  blocks := hblocks
  nIcs_eq := hn

/-! ## Emitting one item -/

/-- One emission, with what it records at a label. The positions of earlier items do not
change, and where the code ended an item begins. -/
theorem Inv.emit {b b' : Builder} {t : Record} {items : List Item} (h : Inv b t items)
    (e : Emitted) (it : Item) (labels : List LabelState)
    (hb' : b' = { b with
      code := b.code ++ it.encode labels b.code.length
      labels := labels })
    (hle : b.labels.length ≤ labels.length)
    (hbound : ∀ (l : Label) (target : Nat),
      labels[l]? = some (.bound target) ↔ b.labels[l]? = some (.bound target))
    (hsites : ∀ (l : Label) (ss : List Nat), labels[l]? = some (.unbound ss) →
      ss = sitesOf l (layout 0 items) ++ (Item.site l (b.code.length, it)).toList)
    (hm : Matches b' e (b.code.length, it)) :
    Inv b' (t.emit e) (items ++ [it]) ∧
      (AllGood b' (t.emit e) (items ++ [it]) ↔
        AllGood b t items ∧ Good b' e (b.code.length, it)) := by
  have hsize : b.code.length = size items := by
    rw [h.code_eq, encodeAll_length]
  have hlayout : layout 0 (items ++ [it]) = layout 0 items ++ [(b.code.length, it)] := by
    rw [layout_append, hsize, Nat.zero_add]
  have hk : Keeps (Equiv.refl _) b b' := by
    subst hb'
    exact ⟨⟨[], by simp⟩, ⟨[], by simp⟩, hle, fun l target hl => (hbound l target).mpr hl⟩
  have hem : t.emitted = t.emitted.map (Emitted.move (Equiv.refl _)) := by
    simp
  have hmatched : List.Forall₂ (Matches b') t.emitted (layout 0 items) := by
    rw [hem, List.forall₂_map_left_iff]
    refine h.matched.imp fun e x hm => hm.keep hk ?_
    intro kind l target _ htarget
    subst hb'
    exact Or.inl ((hbound l target).mp htarget)
  constructor
  · subst hb'
    constructor
    · -- the code
      have hcode : encodeAll labels (layout 0 items) = b.code := by
        rw [encodeAll_congr hbound, h.code_eq]
      unfold encodeAll at hcode ⊢
      rw [hlayout, List.flatMap_append, hcode, List.flatMap_singleton]
    · rw [hlayout]
      exact forall₂_snoc.mpr ⟨hmatched, hm⟩
    · intro l target
      rw [hbound]
      exact h.boundAt_iff l target
    · intro l target hl
      rw [hlayout, List.map_append, List.mem_append]
      rcases h.boundary l target ((hbound l target).mp hl) with hmem | hend
      · exact Or.inl (Or.inl hmem)
      · refine Or.inl (Or.inr ?_)
        simp [hend]
    · intro l ss hl
      rw [hlayout, hsites l ss hl, sitesOf, sitesOf, List.filterMap_append]
      cases hsite : Item.site l (b.code.length, it) <;> simp [hsite]
    · exact h.blocks
    · exact h.nIcs_eq
  · unfold AllGood
    rw [hlayout, Record.emit]
    have hkeep := h.allGood_keep hk hem
    unfold AllGood at hkeep
    rw [← hkeep]
    exact forall₂_snoc

/-- A call took a matched session to a matched one with more items, and the literal operands
are all right afterwards exactly if they were before and the call fits. -/
def Advances (b : Builder) (t : Record) (items : List Item) (b' : Builder) (t' : Record)
    (fits : Prop) : Prop :=
  ∃ more, Inv b' t' (items ++ more) ∧ (AllGood b' t' (items ++ more) ↔ AllGood b t items ∧ fits)

/-- A finished instruction is appended. -/
theorem Inv.fixed {b b' : Builder} {t : Record} {items : List Item} (h : Inv b t items)
    {e : Emitted} {i : Instr} {bytes : List Byte}
    (hb' : b' = { b with code := b.code ++ bytes })
    (hm : Matches b e (b.code.length, .fixed i bytes)) :
    Advances b t items b' (t.emit e) (Good b e (b.code.length, .fixed i bytes)) := by
  have hk : Keeps (Equiv.refl _) b b' := by
    subst hb'
    exact ⟨⟨[], by simp⟩, ⟨[], by simp⟩, Nat.le_refl _, fun l target hl => hl⟩
  have hm' : Matches b' e (b.code.length, .fixed i bytes) := by
    have := hm.keep hk (by intro kind l target hx; cases hx)
    simpa using this
  have hsites : ∀ (l : Label) (ss : List Nat), b.labels[l]? = some (.unbound ss) →
      ss = sitesOf l (layout 0 items) ++
        (Item.site l (b.code.length, .fixed i bytes)).toList := by
    intro l ss hl
    rw [h.sites l ss hl]
    simp [Item.site]
  obtain ⟨hinv, hgood⟩ := h.emit e (.fixed i bytes) b.labels hb' (Nat.le_refl _)
    (fun l target => Iff.rfl) hsites hm'
  refine ⟨_, hinv, hgood.trans ?_⟩
  subst hb'
  exact Iff.rfl

/-- Opcodes whose operands are the caller's bytes. -/
theorem Inv.plain {b b' : Builder} {t : Record} {items : List Item} (h : Inv b t items)
    {i : Instr} {bytes : List Byte} (hb' : b' = { b with code := b.code ++ bytes })
    (hne : bytes ≠ []) (hread : Reads decodeAt bytes i) :
    Advances b t items b' (t.emit (.plain i)) True := by
  have hnone : ∀ k o, literalRef (.plain i) (.fixed i bytes) ≠ some (k, o) := by
    intro k o href
    cases href
  obtain ⟨items', hinv, hgood⟩ := h.fixed (e := .plain i) hb'
    ⟨.plain i bytes _, ⟨hne, hread⟩, fun k o href => absurd href (hnone k o)⟩
  refine ⟨items', hinv, hgood.trans ?_⟩
  have : Good b (.plain i) (b.code.length, .fixed i bytes) :=
    fun k o href => absurd href (hnone k o)
  exact and_congr_right fun _ => iff_of_true this trivial

/-! ## Literals -/

/-- `intern_literal` returns a slot that holds the oop, and appends at most one slot. -/
theorem internLiteral_spec (b : Builder) (o : Oop) :
    ∃ more idx li, b.internLiteral o =
        (idx, { b with literals := b.literals ++ more, literalIndex := li }) ∧
      (b.literals ++ more)[idx]? = some o ∧ idx ≤ b.literals.length := by
  have hfresh : (b.literals ++ [o])[b.literals.length]? = some o := by simp
  unfold Builder.internLiteral
  cases hidx : b.literalIndex o with
  | none => exact ⟨[o], _, _, rfl, hfresh, Nat.le_refl _⟩
  | some idx =>
    by_cases hhit : b.literals[idx]? = some o
    · simp only [hhit, if_true]
      have hlt : idx < b.literals.length := (List.getElem?_eq_some_iff.mp hhit).1
      refine ⟨[], idx, b.literalIndex, ?_, ?_, Nat.le_of_lt hlt⟩
      · simp
      · simpa using hhit
    · simp only [hhit, if_false]
      exact ⟨[o], _, _, rfl, hfresh, Nat.le_refl _⟩

/-- A truncated slot index names the oop exactly if nothing was cut off, or the slot it
falls on held the oop before. -/
theorem truncated_slot_iff {lits more : List Oop} {idx n : Nat} {o : Oop}
    (hn : 0 < n) (hslot : (lits ++ more)[idx]? = some o) (hle : idx ≤ lits.length) :
    (lits ++ more)[idx % n]? = some o ↔ idx < n ∨ lits[idx % n]? = some o := by
  rcases Nat.lt_or_ge idx n with hlt | hge
  · rw [Nat.mod_eq_of_lt hlt]
    exact iff_of_true hslot (Or.inl hlt)
  · have hmod := Nat.mod_lt idx hn
    rw [List.getElem?_append_left (by omega)]
    exact ⟨Or.inr, fun h => h.resolve_left (by omega)⟩

/-- A call that interns `o` and emits an instruction whose operand is the slot modulo `n`. -/
theorem Inv.literal {b b' : Builder} {t : Record} {items : List Item} (h : Inv b t items)
    {o : Oop} {e : Emitted} {i : Instr} {bytes : List Byte} {n : Nat} (hn : 0 < n)
    (hb' : b' = { (b.internLiteral o).2 with code := (b.internLiteral o).2.code ++ bytes })
    (hne : bytes ≠ []) (hread : Reads decodeAt bytes i)
    (hshape : ∀ b1 pos, Shape b1 e (pos, .fixed i bytes))
    (href : literalRef e (.fixed i bytes) = some ((b.internLiteral o).1 % n, o)) :
    Advances b t items b' (t.emit e)
      ((b.internLiteral o).1 < n ∨ b.literals[(b.internLiteral o).1 % n]? = some o) := by
  obtain ⟨more, idx, li, heq, hslot, hle⟩ := internLiteral_spec b o
  rw [heq] at hb' href ⊢
  simp only at hb' href ⊢
  -- interning is quiet
  have hk : Keeps (Equiv.refl _) b
      { b with literals := b.literals ++ more, literalIndex := li } :=
    ⟨⟨more, by simp⟩, ⟨[], by simp⟩, Nat.le_refl _, fun l target hl => hl⟩
  have hem : t.emitted = t.emitted.map (Emitted.move (Equiv.refl _)) := by
    simp
  have hblocks : ∀ i o, t.blocks i = some o → (b.literals ++ more)[i]? = some o := by
    intro i o hi
    have hold := h.blocks i o hi
    rw [List.getElem?_append_left (List.getElem?_eq_some_iff.mp hold).1, hold]
  have hinv : Inv { b with literals := b.literals ++ more, literalIndex := li } t items :=
    h.quiet hk rfl (fun l target => Iff.rfl) h.sites h.nIcs_eq hem rfl hblocks
  have hkeep : AllGood { b with literals := b.literals ++ more, literalIndex := li } t items ↔
      AllGood b t items := h.allGood_keep hk hem
  -- the emission after it
  have hlt : idx < (b.literals ++ more).length := (List.getElem?_eq_some_iff.mp hslot).1
  obtain ⟨items', hinv', hgood⟩ := hinv.fixed (e := e) hb' ⟨hshape _ _, ⟨hne, hread⟩, by
    intro k o' hk'
    rw [href] at hk'
    cases hk'
    exact Nat.lt_of_le_of_lt (Nat.mod_le _ _) hlt⟩
  refine ⟨items', hinv', hgood.trans ?_⟩
  rw [hkeep, ← truncated_slot_iff hn hslot hle]
  refine and_congr_right fun _ => ?_
  unfold Good
  simp only [href, Option.some_inj, Prod.mk.injEq]
  constructor
  · intro hall
    exact hall _ _ ⟨rfl, rfl⟩
  · rintro hs _ _ ⟨rfl, rfl⟩
    exact hs

@[simp] theorem emitWithByte_eq (b : Builder) (op x : Byte) :
    b.emitWithByte op x = { b with code := b.code ++ [op, x] } := by
  simp [Builder.emitWithByte, Builder.emitU8]

@[simp] theorem emitWithBytes_eq (b : Builder) (op x y : Byte) :
    b.emitWithBytes op x y = { b with code := b.code ++ [op, x, y] } := by
  simp [Builder.emitWithBytes, Builder.emitU8]

@[simp] theorem emitWide_eq (b : Builder) (op : Byte) (v : BitVec 16) :
    (b.emitU8 op).emitU16 v = { b with code := b.code ++ op :: u16le v } := by
  simp [Builder.emitU16, Builder.emitU8]

theorem narrow_operand {idx : Nat} (h : idx ≤ 255) :
    ((BitVec.ofNat 8 idx).setWidth 16).toNat = idx := by
  simp only [BitVec.toNat_setWidth, BitVec.toNat_ofNat]
  omega

theorem Inv.pushLiteral {b : Builder} {t : Record} {items : List Item} (h : Inv b t items)
    (o : Oop) :
    Advances b t items (b.pushLiteral o) (t.emit (.pushLiteral o))
      ((b.internLiteral o).1 < 65536 ∨
        b.literals[(b.internLiteral o).1 % 65536]? = some o) := by
  by_cases hnarrow : (b.internLiteral o).1 ≤ 255
  · refine h.literal (i := .pushLiteral ((BitVec.ofNat 8 (b.internLiteral o).1).setWidth 16))
      (by omega) ?_ (List.cons_ne_nil opPushLiteral [BitVec.ofNat 8 (b.internLiteral o).1])
      (reads_one (f := fun x => .pushLiteral (x.setWidth 16)) rfl _)
      (fun b1 pos => .pushLiteral o _ _ pos) ?_
    · simp [Builder.pushLiteral, Builder.emitLiteralRef, hnarrow]
    · simp only [literalRef]
      rw [narrow_operand hnarrow, Nat.mod_eq_of_lt (by omega)]
  · refine h.literal (i := .pushLiteral (BitVec.ofNat 16 (b.internLiteral o).1))
      (by omega) ?_ (List.cons_ne_nil opPushLiteralW (u16le (BitVec.ofNat 16 (b.internLiteral o).1)))
      (reads_wide rfl _) (fun b1 pos => .pushLiteral o _ _ pos) ?_
    · simp [Builder.pushLiteral, Builder.emitLiteralRef, hnarrow]
    · simp [literalRef]

theorem Inv.pushGlobal {b : Builder} {t : Record} {items : List Item} (h : Inv b t items)
    (o : Oop) :
    Advances b t items (b.pushGlobal o) (t.emit (.pushGlobal o))
      ((b.internLiteral o).1 < 256 ∨ b.literals[(b.internLiteral o).1 % 256]? = some o) := by
  refine h.literal (i := .pushGlobal (BitVec.ofNat 8 (b.internLiteral o).1))
    (by omega) ?_ (List.cons_ne_nil opPushGlobal [BitVec.ofNat 8 (b.internLiteral o).1])
    (reads_one rfl _) (fun b1 pos => .pushGlobal o _ _ pos) ?_
  · simp [Builder.pushGlobal]
  · simp [literalRef]

theorem Inv.storeGlobalPop {b : Builder} {t : Record} {items : List Item} (h : Inv b t items)
    (o : Oop) :
    Advances b t items (b.storeGlobalPop o) (t.emit (.storeGlobalPop o))
      ((b.internLiteral o).1 < 256 ∨ b.literals[(b.internLiteral o).1 % 256]? = some o) := by
  refine h.literal (i := .storeGlobalPop (BitVec.ofNat 8 (b.internLiteral o).1))
    (by omega) ?_ (List.cons_ne_nil opStoreGlobalPop [BitVec.ofNat 8 (b.internLiteral o).1])
    (reads_one rfl _) (fun b1 pos => .storeGlobalPop o _ _ pos) ?_
  · simp [Builder.storeGlobalPop]
  · simp [literalRef]

/-- A call that emits nothing fits. -/
theorem Inv.advances_quiet {ρ : Equiv.Perm Addr} {b b' : Builder} {t t' : Record}
    {items : List Item} (h : Inv b t items) (hk : Keeps ρ b b')
    (hem : t'.emitted = t.emitted.map (Emitted.move ρ)) (hinv : Inv b' t' items) :
    Advances b t items b' t' True := by
  refine ⟨[], ?_, ?_⟩
  · rw [List.append_nil]
    exact hinv
  · rw [List.append_nil]
    exact (h.allGood_keep hk hem).trans (Iff.of_eq (and_true _)).symm

theorem Inv.internBlockLiteral {b : Builder} {t : Record} {items : List Item} (h : Inv b t items)
    (blk : Oop) :
    Advances b t items (b.internBlockLiteral blk).2
      { t with blocks := Function.update t.blocks (b.internBlockLiteral blk).1 (some blk) }
      True := by
  obtain ⟨more, idx, li, heq, hslot, -⟩ := internLiteral_spec b blk
  rw [Builder.internBlockLiteral, heq]
  have hk : Keeps (Equiv.refl _) b
      { b with literals := b.literals ++ more, literalIndex := li } :=
    ⟨⟨more, by simp⟩, ⟨[], by simp⟩, Nat.le_refl _, fun l target hl => hl⟩
  refine h.advances_quiet hk (by simp) (h.quiet hk rfl (fun l target => Iff.rfl) h.sites h.nIcs_eq
    (by simp) rfl ?_)
  intro i o hi
  simp only at hi
  by_cases hidx : i = idx
  · subst hidx
    rw [Function.update_self] at hi
    cases hi
    exact hslot
  · rw [Function.update_of_ne hidx] at hi
    have hold := h.blocks i o hi
    show (b.literals ++ more)[i]? = some o
    rw [List.getElem?_append_left (List.getElem?_eq_some_iff.mp hold).1, hold]

theorem Inv.pushClosure {b : Builder} {t : Record} {items : List Item} (h : Inv b t items)
    (lit : Nat) (n : Byte) :
    Advances b t items
      { b with code := b.code ++ [opPushClosure, BitVec.ofNat 8 lit, n] }
      (t.emit (.pushClosure (t.blocks lit) n))
      (∀ o, t.blocks lit = some o → lit < 256 ∨ b.literals[lit % 256]? = some o) := by
  have href : ∀ k o, literalRef (.pushClosure (t.blocks lit) n)
      (.fixed (.pushClosure (BitVec.ofNat 8 lit) n) [opPushClosure, BitVec.ofNat 8 lit, n]) =
        some (k, o) ↔ k = lit % 256 ∧ t.blocks lit = some o := by
    intro k o
    cases t.blocks lit with
    | none => simp [literalRef]
    | some o' => simp [literalRef, eq_comm]
  obtain ⟨items', hinv, hgood⟩ := h.fixed (e := .pushClosure (t.blocks lit) n) rfl
    ⟨.pushClosure (t.blocks lit) (BitVec.ofNat 8 lit) n _ _, ⟨List.cons_ne_nil _ _, reads_two rfl _ _⟩,
      by
        intro k o hk
        obtain ⟨rfl, hblk⟩ := (href k o).mp hk
        have hslot := h.blocks lit o hblk
        exact Nat.lt_of_le_of_lt (Nat.mod_le _ _) (List.getElem?_eq_some_iff.mp hslot).1⟩
  refine ⟨items', hinv, hgood.trans (and_congr_right fun _ => ?_)⟩
  unfold Good
  have htrunc : ∀ o, t.blocks lit = some o →
      (b.literals[lit % 256]? = some o ↔ lit < 256 ∨ b.literals[lit % 256]? = some o) := by
    intro o hblk
    have hslot := h.blocks lit o hblk
    have hlt : lit < b.literals.length := (List.getElem?_eq_some_iff.mp hslot).1
    rw [← List.append_nil b.literals] at hslot
    have hiff := truncated_slot_iff (n := 256) (by omega) hslot (Nat.le_of_lt hlt)
    rwa [List.append_nil] at hiff
  simp only [href, and_imp]
  constructor
  · intro hall o hblk
    exact (htrunc o hblk).mp (hall _ o rfl hblk)
  · rintro hall _ o rfl hblk
    exact (htrunc o hblk).mpr (hall o hblk)

/-! ## Sends -/

theorem Inv.addSend {b b' : Builder} {t : Record} {items : List Item} {ic : Nat}
    (h : Inv b t items) (sel : Oop) (argc : Byte) (hadd : b.addSend sel argc = some (ic, b')) :
    Keeps (Equiv.refl _) b b' ∧ Inv b' t items ∧ ic < 65536 ∧
      b'.icSites[ic]? = some (sel, argc) := by
  unfold Builder.addSend at hadd
  split at hadd
  · cases hadd
  · rename_i hle
    cases hadd
    have hk : Keeps (Equiv.refl _) b { b with
        nIcs := b.nIcs + 1
        icSites := b.icSites ++ [(sel, argc)] } :=
      ⟨⟨[], by simp⟩, ⟨[(sel, argc)], by simp⟩, Nat.le_refl _, fun l target hl => hl⟩
    refine ⟨hk, h.quiet hk rfl (fun l target => Iff.rfl) h.sites ?_ (by simp) rfl h.blocks,
      by omega, ?_⟩
    · simp [h.nIcs_eq]
    · simp [h.nIcs_eq]

theorem Inv.emitSend {b b' : Builder} {t : Record} {items : List Item} (h : Inv b t items)
    {isSuper : Bool} {opNarrow opWide : Byte}
    (hnarrow : decodeOperands opNarrow = readU8Then fun x => .send (x.setWidth 16) isSuper)
    (hwide : decodeOperands opWide = readU16Then fun x => .send x isSuper)
    (sel : Oop) (argc : Byte) (hsend : b.emitSend opNarrow opWide sel argc = some b') :
    Advances b t items b' (t.emit (.send isSuper sel argc)) True := by
  unfold Builder.emitSend at hsend
  cases hadd : b.addSend sel argc with
  | none => simp [hadd] at hsend
  | some r =>
    obtain ⟨ic, b1⟩ := r
    obtain ⟨hk, hinv, hlt, hic⟩ := h.addSend sel argc hadd
    have hkeep : AllGood b1 t items ↔ AllGood b t items := h.allGood_keep hk (by simp)
    simp only [hadd] at hsend
    have key : ∀ (i : BitVec 16) (bytes : List Byte), i.toNat = ic → bytes ≠ [] →
        Reads decodeAt bytes (.send i isSuper) → b' = { b1 with code := b1.code ++ bytes } →
        Advances b t items b' (t.emit (.send isSuper sel argc)) True := by
      intro i bytes hi hne hread hb'
      obtain ⟨items', hinv', hgood⟩ := hinv.fixed (e := .send isSuper sel argc) hb'
        ⟨.send bytes _ (by rw [hi]; exact hic), ⟨hne, hread⟩, by intro k o hk; cases hk⟩
      refine ⟨items', hinv', hgood.trans ?_⟩
      rw [hkeep]
      exact and_congr_right fun _ => iff_of_true (by intro k o hk; cases hk) trivial
    split at hsend
    · rename_i hle
      cases hsend
      exact key _ _ (narrow_operand hle) (List.cons_ne_nil _ _) (reads_one hnarrow _)
        (emitWithByte_eq _ _ _)
    · cases hsend
      refine key (BitVec.ofNat 16 ic) _ ?_ (List.cons_ne_nil _ _) (reads_wide hwide _)
        (emitWide_eq _ _ _)
      rw [BitVec.toNat_ofNat, Nat.mod_eq_of_lt hlt]

/-! ## Labels and jumps -/

theorem Inv.newLabel {b : Builder} {t : Record} {items : List Item} (h : Inv b t items) :
    Advances b t items b.newLabel.2 t True := by
  have hlast : ∀ (l : Label) (st : LabelState),
      (b.labels ++ [LabelState.unbound []])[l]? = some st →
        b.labels[l]? = some st ∨ (l = b.labels.length ∧ st = .unbound []) := by
    intro l st hl
    rcases Nat.lt_trichotomy l b.labels.length with hlt | heq | hgt
    · rw [List.getElem?_append_left hlt] at hl
      exact Or.inl hl
    · subst heq
      simp only [List.getElem?_concat_length, Option.some_inj] at hl
      exact Or.inr ⟨rfl, hl.symm⟩
    · rw [List.getElem?_eq_none (by simp; omega)] at hl
      cases hl
  have hold : ∀ (l : Label) (st : LabelState), b.labels[l]? = some st →
      (b.labels ++ [LabelState.unbound []])[l]? = some st := by
    intro l st hl
    rw [List.getElem?_append_left (List.getElem?_eq_some_iff.mp hl).1, hl]
  have hk : Keeps (Equiv.refl _) b b.newLabel.2 :=
    ⟨⟨[], by simp [Builder.newLabel]⟩, ⟨[], by simp [Builder.newLabel]⟩,
      by simp [Builder.newLabel], fun l target hl => hold l _ hl⟩
  refine h.advances_quiet hk (by simp) (h.quiet hk rfl ?_ ?_ h.nIcs_eq (by simp) rfl h.blocks)
  · intro l target
    constructor
    · intro hl
      rcases hlast l _ hl with hl' | ⟨-, hst⟩
      · exact hl'
      · cases hst
    · exact hold l _
  · intro l ss hl
    rcases hlast l _ hl with hl' | ⟨rfl, hst⟩
    · exact h.sites l ss hl'
    · -- no emitted jump refers to a label that did not exist
      cases hst
      symm
      rw [sitesOf, List.filterMap_eq_nil_iff]
      rintro ⟨pos, it⟩ hx
      cases it with
      | fixed i bytes => rfl
      | fwd kind l' =>
        have hsh : ∀ e, Matches b e (pos, .fwd kind l') → l' < b.labels.length := by
          intro e hm
          cases hm.shape with
          | fwd kind hl _ => exact hl
        have hlt : l' < b.labels.length := by
          obtain ⟨e, -, hm⟩ := exists_of_forall₂_mem h.matched hx
          exact hsh e hm
        simp only [Item.site]
        rw [if_neg (Nat.ne_of_lt hlt)]

/-- Labels are bound where code has been emitted up to. -/
theorem Inv.bound_le {b : Builder} {t : Record} {items : List Item} (h : Inv b t items)
    {l : Label} {target : Nat} (hl : b.labels[l]? = some (.bound target)) :
    target ≤ b.code.length := by
  rcases h.boundary l target hl with hmem | heq
  · obtain ⟨⟨pos, it⟩, hx, rfl⟩ := List.mem_map.mp hmem
    have := layout_end_le hx
    rw [h.code_eq, encodeAll_length]
    simp only
    omega
  · exact Nat.le_of_eq heq

theorem Inv.emitFwdJump {b b' : Builder} {t : Record} {items : List Item} (h : Inv b t items)
    (kind : Branch) (l : Label) (hjump : b.emitFwdJump kind.op l = some b') :
    Advances b t items b' (t.emit (.fwd kind l)) True := by
  unfold Builder.emitFwdJump at hjump
  cases hl : b.labels[l]? with
  | none => simp [hl] at hjump
  | some st =>
    cases st with
    | bound target =>
      have := h.bound_le hl
      have hlt : target < b.code.length + 1 + 2 := by omega
      simp [hl, hlt] at hjump
    | unbound ss =>
      simp only [hl, emitWide_eq, Option.some_inj] at hjump
      have hlen : l < b.labels.length := (List.getElem?_eq_some_iff.mp hl).1
      have hset : (b.labels.set l (.unbound (ss ++ [b.code.length + 1])))[l]? =
          some (.unbound (ss ++ [b.code.length + 1])) := List.getElem?_set_self hlen
      have hne : ∀ (l' : Label), l' ≠ l →
          (b.labels.set l (.unbound (ss ++ [b.code.length + 1])))[l']? = b.labels[l']? :=
        fun l' hl' => List.getElem?_set_ne (Ne.symm hl')
      have hplace : distanceOf (b.labels.set l (.unbound (ss ++ [b.code.length + 1])))
          (b.code.length + 3) l = 0xFFFF#16 := by
        rw [distanceOf, hset]
      have hb' : b' = { b with
          code := b.code ++ (Item.fwd kind l).encode
            (b.labels.set l (.unbound (ss ++ [b.code.length + 1]))) b.code.length
          labels := b.labels.set l (.unbound (ss ++ [b.code.length + 1])) } := by
        rw [Item.encode, hplace, ← hjump]
      obtain ⟨hinv, hgood⟩ := h.emit (.fwd kind l) (.fwd kind l)
        (b.labels.set l (.unbound (ss ++ [b.code.length + 1]))) hb' (by simp)
        (by
          intro l' target
          rcases eq_or_ne l' l with rfl | hl'
          · rw [hset, hl]
            simp
          · rw [hne l' hl'])
        (by
          intro l' ss' hl''
          rcases eq_or_ne l' l with rfl | hl'
          · rw [hset] at hl''
            cases hl''
            rw [h.sites l' ss hl]
            simp [Item.site]
          · rw [hne l' hl'] at hl''
            rw [h.sites l' ss' hl'']
            simp [Item.site, Ne.symm hl'])
        ⟨.fwd kind (by simp [← hjump, hlen]) (by
            intro target htarget
            rw [← hjump] at htarget
            simp only [hset] at htarget
            cases htarget), trivial, by intro k o hk; cases hk⟩
      refine ⟨_, hinv, hgood.trans (and_congr_right fun _ => ?_)⟩
      exact iff_of_true (by intro k o hk; cases hk) trivial

theorem Inv.jumpBack {b b' : Builder} {t : Record} {items : List Item} (h : Inv b t items)
    (l : Label) (hjump : b.jumpBack l = some b') :
    Advances b t items b' (t.emit (.jumpBack l)) True := by
  unfold Builder.jumpBack at hjump
  cases hl : b.labels[l]? with
  | none => simp [hl] at hjump
  | some st =>
    cases st with
    | unbound ss => simp [hl] at hjump
    | bound target =>
      simp only [hl, emitWide_eq] at hjump
      split at hjump
      · cases hjump
      · rename_i hle
        split at hjump
        · cases hjump
        · rename_i hfit
          cases hjump
          obtain ⟨items', hinv, hgood⟩ := h.fixed (e := .jumpBack l) rfl
            ⟨.jumpBack (d := BitVec.ofNat 16 (b.code.length + 3 - target)) _ hl (by
                rw [BitVec.toNat_ofNat, Nat.mod_eq_of_lt (by omega)]
                omega), ⟨List.cons_ne_nil _ _, reads_wide (show decodeOperands opJumpBack = _ from rfl) _⟩,
              by intro k o hk; cases hk⟩
          refine ⟨items', hinv, hgood.trans (and_congr_right fun _ => ?_)⟩
          exact iff_of_true (by intro k o hk; cases hk) trivial

theorem Inv.bind {b b' : Builder} {t : Record} {items : List Item} (h : Inv b t items)
    (l : Label) (hbind : b.bind l = some b') :
    Advances b t items b'
      { t with boundAt := Function.update t.boundAt l (some b.here) } True := by
  unfold Builder.bind at hbind
  cases hl : b.labels[l]? with
  | none => simp [hl] at hbind
  | some st =>
    cases st with
    | bound target => simp [hl] at hbind
    | unbound ss =>
      cases hpatch : Builder.patchSites b.here ss b.code with
      | none => simp [hl, hpatch] at hbind
      | some code =>
        simp only [hl, hpatch, Option.some_inj] at hbind
        have hlen : l < b.labels.length := (List.getElem?_eq_some_iff.mp hl).1
        rw [h.sites l ss hl, h.code_eq] at hpatch
        obtain ⟨hcode, hfits⟩ := patchSites_encode hlen b.here items [] code hpatch
        simp only [List.nil_append, List.length_nil] at hcode hfits
        have hset : (b.labels.set l (.bound b.here))[l]? = some (.bound b.here) :=
          List.getElem?_set_self hlen
        have hne : ∀ (l' : Label), l' ≠ l →
            (b.labels.set l (.bound b.here))[l']? = b.labels[l']? :=
          fun l' hl' => List.getElem?_set_ne (Ne.symm hl')
        have hlength : code.length = b.code.length := by
          rw [hcode, h.code_eq, encodeAll_length, encodeAll_length]
        subst hbind
        have hk : Keeps (Equiv.refl _) b
            { b with code := code, labels := b.labels.set l (.bound b.here) } := by
          refine ⟨⟨[], by simp⟩, ⟨[], by simp⟩, by simp, ?_⟩
          intro l' target hl'
          rcases eq_or_ne l' l with rfl | hl''
          · rw [hl] at hl'
            cases hl'
          · exact (hne l' hl'').trans hl'
        refine h.advances_quiet hk (by simp) ?_
        constructor
        · exact hcode
        · refine forall₂_of_mem h.matched ?_
          rintro e ⟨pos, it⟩ hx hm
          have := hm.keep hk (by
            intro kind l' target hit htarget
            simp only at hit
            subst hit
            rcases eq_or_ne l' l with rfl | hl'
            · -- a jump to the label just bound: its site was patched
              rw [hset] at htarget
              cases htarget
              have hsite : pos + 1 ∈ sitesOf l' (layout 0 items) := by
                refine List.mem_filterMap.mpr ⟨_, hx, ?_⟩
                simp [Item.site]
              exact Or.inr (hfits _ hsite)
            · exact Or.inl ((hne l' hl').symm.trans htarget))
          simpa using this
        · intro l' target
          rcases eq_or_ne l' l with rfl | hl'
          · simp [hset]
          · simp only [Function.update_of_ne hl', hne l' hl']
            exact h.boundAt_iff l' target
        · intro l' target hl''
          simp only [hlength]
          rcases eq_or_ne l' l with rfl | hl'
          · rw [hset] at hl''
            cases hl''
            exact Or.inr rfl
          · exact h.boundary l' target ((hne l' hl').symm.trans hl'')
        · intro l' ss' hl''
          rcases eq_or_ne l' l with rfl | hl'
          · rw [hset] at hl''
            cases hl''
          · exact h.sites l' ss' ((hne l' hl').symm.trans hl'')
        · exact h.blocks
        · exact h.nIcs_eq

/-! ## Calls and runs -/

theorem Keeps.collect (b : Builder) (ρ : Equiv.Perm Addr) : Keeps ρ b (b.collect ρ) :=
  ⟨⟨[], (List.append_nil _).symm⟩, ⟨[], (List.append_nil _).symm⟩, Nat.le_refl _,
    fun _ _ hl => hl⟩

theorem Inv.collect {b : Builder} {t : Record} {items : List Item} (h : Inv b t items)
    (ρ : Equiv.Perm Addr) : Inv (b.collect ρ) (t.move ρ) items := by
  refine h.quiet (Keeps.collect b ρ) rfl (fun l target => Iff.rfl) h.sites ?_ rfl rfl ?_
  · simp only [Builder.collect, List.length_map]
    exact h.nIcs_eq
  · intro i o hi
    obtain ⟨o', ho', rfl⟩ := Option.map_eq_some_iff.mp hi
    simp only [Builder.collect, List.getElem?_map, h.blocks i o' ho', Option.map_some]

theorem Inv.noteLine {b : Builder} {t : Record} {items : List Item} (h : Inv b t items)
    (line : BitVec 32) : Advances b t items (b.noteLine line) t True := by
  obtain ⟨lm, hlm⟩ : ∃ lm, b.noteLine line = { b with lineMap := lm } := by
    unfold Builder.noteLine
    split
    · exact ⟨_, rfl⟩
    · split
      · exact ⟨_, rfl⟩
      · exact ⟨_, rfl⟩
  rw [hlm]
  have hk : Keeps (Equiv.refl _) b { b with lineMap := lm } :=
    ⟨⟨[], by simp⟩, ⟨[], by simp⟩, Nat.le_refl _, fun _ _ hl => hl⟩
  exact h.advances_quiet hk (by simp)
    (h.quiet hk rfl (fun _ _ => Iff.rfl) h.sites h.nIcs_eq (by simp) rfl h.blocks)

/-- One call of a session. -/
theorem Inv.call {debug : Bool} {s s' : Session} {items : List Item} {c : Call}
    (h : Inv s.builder s.record items) (hcall : s.call debug c = some s') :
    Advances s.builder s.record items s'.builder s'.record (s.Fits c) := by
  obtain ⟨b, t⟩ := s
  obtain ⟨b', hb', rfl⟩ := Option.map_eq_some_iff.mp hcall
  simp only at h hb' ⊢
  have zero : ∀ {op : Byte} {i : Instr}, decodeOperands op = pure i →
      Advances b t items (b.emitU8 op) (t.emit (.plain i)) True :=
    fun hop => h.plain rfl (List.cons_ne_nil _ _) (reads_zero hop)
  have one : ∀ {op : Byte} {f : Byte → Instr} (x : Byte), decodeOperands op = readU8Then f →
      Advances b t items (b.emitWithByte op x) (t.emit (.plain (f x))) True :=
    fun x hop => h.plain (emitWithByte_eq _ _ _) (List.cons_ne_nil _ _) (reads_one hop x)
  have two : ∀ {op : Byte} {f : Byte → Byte → Instr} (x y : Byte),
      decodeOperands op = readTwoThen f →
      Advances b t items (b.emitWithBytes op x y) (t.emit (.plain (f x y))) True :=
    fun x y hop => h.plain (emitWithBytes_eq _ _ _ _) (List.cons_ne_nil _ _) (reads_two hop x y)
  cases c with
  | noteLine line => cases hb'; exact h.noteLine line
  | pushSelf => cases hb'; exact zero rfl
  | pushNil => cases hb'; exact zero rfl
  | pushTrue => cases hb'; exact zero rfl
  | pushFalse => cases hb'; exact zero rfl
  | pushSmiI8 v => cases hb'; exact one v rfl
  | pushLiteral o => cases hb'; exact h.pushLiteral o
  | pushTemp i => cases hb'; exact one i rfl
  | storeTemp i => cases hb'; exact one i rfl
  | storeTempPop i => cases hb'; exact one i rfl
  | pushInstvar i => cases hb'; exact one i rfl
  | storeInstvarPop i => cases hb'; exact one i rfl
  | pushCtxTemp depth idx => cases hb'; exact two depth idx rfl
  | storeCtxTempPop depth idx => cases hb'; exact two depth idx rfl
  | pushGlobal o => cases hb'; exact h.pushGlobal o
  | storeGlobalPop o => cases hb'; exact h.storeGlobalPop o
  | pop => cases hb'; exact zero rfl
  | dup => cases hb'; exact zero rfl
  | retTos => cases hb'; exact zero rfl
  | retSelf => cases hb'; exact zero rfl
  | blockReturnTos => cases hb'; exact zero rfl
  | nlrTos => cases hb'; exact zero rfl
  | addSend sel argc =>
    obtain ⟨⟨ic, b1⟩, hadd, rfl⟩ := Option.map_eq_some_iff.mp hb'
    obtain ⟨hk, hinv, -⟩ := h.addSend sel argc hadd
    exact h.advances_quiet hk (by simp [Record.call]) hinv
  | send sel argc => exact h.emitSend rfl rfl sel argc hb'
  | sendSuper sel argc => exact h.emitSend rfl rfl sel argc hb'
  | internBlockLiteral blk => cases hb'; exact h.internBlockLiteral blk
  | pushClosure lit n =>
    simp only [Builder.call, Builder.pushClosure, emitWithBytes_eq] at hb'
    split at hb'
    · cases hb'
    · cases hb'
      exact h.pushClosure lit n
  | newLabel => cases hb'; exact h.newLabel
  | bind l => exact h.bind l hb'
  | jumpFwd l => exact h.emitFwdJump .jump l hb'
  | brTrueFwd l => exact h.emitFwdJump .brTrue l hb'
  | brFalseFwd l => exact h.emitFwdJump .brFalse l hb'
  | jumpBack l => exact h.jumpBack l hb'
  | collect ρ =>
    cases hb'
    exact h.advances_quiet (Keeps.collect b ρ) rfl (h.collect ρ)

/-- A whole run: the invariant at its end, and the literal operands right exactly when every
call fit. -/
theorem Inv.run {debug : Bool} {s s' : Session} {items : List Item} {cs : List Call}
    (h : Inv s.builder s.record items) (hrun : s.run debug cs = some s') :
    Advances s.builder s.record items s'.builder s'.record (s.AllFit debug cs) := by
  induction cs generalizing s items with
  | nil =>
    cases hrun
    refine ⟨[], ?_, ?_⟩
    · rw [List.append_nil]
      exact h
    · rw [List.append_nil]
      exact (Iff.of_eq (and_true _)).symm
  | cons c cs ih =>
    obtain ⟨s1, hcall, hrest⟩ := Option.bind_eq_some_iff.mp hrun
    obtain ⟨more1, hinv1, hgood1⟩ := h.call hcall
    obtain ⟨more, hinv', hgood'⟩ := ih hinv1 hrest
    rw [List.append_assoc] at hinv' hgood'
    refine ⟨more1 ++ more, hinv', ?_⟩
    rw [hgood', hgood1, Session.AllFit, and_assoc]
    refine and_congr_right fun _ => and_congr_right fun _ => ?_
    constructor
    · intro hfit s2 hs2
      rw [hcall] at hs2
      cases hs2
      exact hfit
    · intro hfit
      exact hfit s1 hcall

/-! ## The finished method -/

/-- Word `j` of site `i` in the flat `ics` array. -/
theorem icWords_getElem? (nil : Oop) (sites : List (Oop × Byte)) (i : Nat) {j : Nat} (hj : j < 4) :
    (sites.flatMap (Builder.icWords nil))[i * 4 + j]? =
      sites[i]?.bind fun site => (Builder.icWords nil site)[j]? := by
  induction sites generalizing i with
  | nil => simp
  | cons site sites ih =>
    rw [List.flatMap_cons]
    have hlen : (Builder.icWords nil site).length = 4 := rfl
    cases i with
    | zero =>
      rw [List.getElem?_append_left (by omega)]
      simp
    | succ i =>
      rw [List.getElem?_append_right (by omega), hlen,
        show (i + 1) * 4 + j - 4 = i * 4 + j by omega, ih, List.getElem?_cons_succ]

theorem icSite_of_sites {m : CompiledMethod} {nil sel : Oop} {argc : Byte}
    {sites : List (Oop × Byte)} {i : Nat} (hm : m.ics = sites.flatMap (Builder.icWords nil))
    (hi : sites[i]? = some (sel, argc)) : m.icSite i = some (sel, (argc.toNat : Int)) := by
  have hsel : m.ics[i * icStride + icSelOffset]? = some sel := by
    rw [hm]
    exact (icWords_getElem? nil sites i (j := 0) (by omega)).trans (by rw [hi]; rfl)
  have hmeta : m.ics[i * icStride + icMetaOffset]? = some (.smi (argc.toNat : Int)) := by
    rw [hm]
    exact (icWords_getElem? nil sites i (j := 1) (by omega)).trans (by rw [hi]; rfl)
  have hmod : (argc.toNat : Int) % 256 = argc.toNat := by
    have := argc.isLt
    omega
  simp only [CompiledMethod.icSite, hsel, hmeta, hmod]

/-- What a successful `finish` checked, and what it built. -/
theorem finish_eq_some {debug : Bool} {b : Builder} {ρ : Equiv.Perm Addr} {nil sel : Oop}
    {argc ntemps : Nat} {m : CompiledMethod}
    (h : b.finish debug ρ nil sel argc ntemps = some m) :
    (∀ (l : Label) (ss : List Nat), b.labels[l]? ≠ some (.unbound ss)) ∧
      m.code = b.code ∧ m.literals = (b.collect ρ).literals ∧
      m.ics = (b.collect ρ).icSites.flatMap (Builder.icWords nil) := by
  unfold Builder.finish at h
  split at h; · cases h
  split at h; · cases h
  split at h; · cases h
  split at h; · cases h
  rename_i hbound
  split at h; · cases h
  split at h; · cases h
  split at h
  · cases h
    refine ⟨?_, rfl, rfl, rfl⟩
    intro l ss hl
    refine hbound (List.any_eq_true.mpr ⟨_, List.mem_of_getElem? hl, rfl⟩)
  · cases h

/-- An item that matches names what was asked for exactly if its literal operand is right. -/
theorem Matches.names_iff {b : Builder} {t : Record} {m : CompiledMethod} {nil : Oop}
    {e : Emitted} {x : Nat × Item} (h : Matches b e x)
    (hall : ∀ (l : Label) (ss : List Nat), b.labels[l]? ≠ some (.unbound ss))
    (hboundAt : ∀ l target, t.boundAt l = some target ↔ b.labels[l]? = some (.bound target))
    (hlits : m.literals = b.literals) (hics : m.ics = b.icSites.flatMap (Builder.icWords nil)) :
    m.Names t.boundAt e (x.1, x.2.instr b.labels x.1) ↔ Good b e x := by
  obtain ⟨hshape, -, -⟩ := h
  cases hshape with
  | plain i bytes pos => exact iff_of_true rfl (by intro k o hk; cases hk)
  | pushLiteral o k bytes pos =>
    simp [CompiledMethod.Names, Good, literalRef, Item.instr, hlits]
  | pushGlobal o k bytes pos =>
    simp [CompiledMethod.Names, Good, literalRef, Item.instr, hlits]
  | storeGlobalPop o k bytes pos =>
    simp [CompiledMethod.Names, Good, literalRef, Item.instr, hlits]
  | pushClosure blk k n bytes pos =>
    cases blk with
    | none => simp [CompiledMethod.Names, Good, literalRef, Item.instr]
    | some o => simp [CompiledMethod.Names, Good, literalRef, Item.instr, hlits]
  | send bytes pos hic =>
    exact iff_of_true ⟨rfl, icSite_of_sites hics hic⟩ (by intro k o hk; cases hk)
  | @fwd l pos kind hl hfit =>
    refine iff_of_true ?_ (by intro k o hk; cases hk)
    -- at the end every label is bound, so the operand is a distance
    obtain ⟨target, htarget⟩ : ∃ target, b.labels[l]? = some (.bound target) := by
      cases hst : b.labels[l]? with
      | none =>
        exact absurd hl (Nat.not_lt.mpr (List.getElem?_eq_none_iff.mp hst))
      | some st =>
        cases st with
        | bound target => exact ⟨target, rfl⟩
        | unbound ss => exact absurd hst (hall l ss)
    obtain ⟨hge, hlt⟩ := hfit target htarget
    have hd : pos + 3 + (distanceOf b.labels (pos + 3) l).toNat = target := by
      rw [distanceOf_bound htarget, BitVec.toNat_ofNat, Nat.mod_eq_of_lt hlt]
      omega
    have hat : t.boundAt l = some (pos + 3 + (distanceOf b.labels (pos + 3) l).toNat) := by
      rw [hd]
      exact (hboundAt l target).mpr htarget
    cases kind with
    | jump => exact hat
    | brTrue => exact hat
    | brFalse => exact hat
  | @jumpBack l pos d target bytes hl hd =>
    refine iff_of_true ⟨by omega, ?_⟩ (by intro k o hk; cases hk)
    rw [show pos + 3 - d.toNat = target by omega]
    exact (hboundAt l target).mpr hl

theorem roundTrip_iff_allGood {b : Builder} {t : Record} {items : List Item}
    {m : CompiledMethod} {nil : Oop} (h : Inv b t items)
    (hall : ∀ (l : Label) (ss : List Nat), b.labels[l]? ≠ some (.unbound ss))
    (hcode : m.code = b.code) (hlits : m.literals = b.literals)
    (hics : m.ics = b.icSites.flatMap (Builder.icWords nil)) :
    m.RoundTrip t ↔ AllGood b t items := by
  have hread : ∀ it ∈ items, it.Readable := by
    intro it hit
    obtain ⟨pos, hx⟩ := exists_layout_mem 0 hit
    obtain ⟨e, -, hm⟩ := exists_of_forall₂_mem h.matched hx
    exact hm.readable
  have hdecode := decodeAll_encode b.labels items hread
  rw [← h.code_eq, ← hcode] at hdecode
  have hnames : List.Forall₂ (m.Names t.boundAt) t.emitted
      ((layout 0 items).map fun x => (x.1, x.2.instr b.labels x.1)) ↔ AllGood b t items := by
    rw [List.forall₂_map_right_iff]
    exact forall₂_iff_of h.matched fun e x hm => hm.names_iff hall h.boundAt_iff hlits hics
  unfold CompiledMethod.RoundTrip
  constructor
  · rintro ⟨instrs, hinstrs, hall₂, -⟩
    rw [hdecode] at hinstrs
    cases hinstrs
    exact hnames.mp hall₂
  · intro hgood
    refine ⟨_, hdecode, hnames.mpr hgood, ?_⟩
    intro l bci hl
    have := h.boundary l bci ((h.boundAt_iff l bci).mp hl)
    rw [hcode, List.map_map]
    exact this

/-- A loop over a send and a closure, with a collection that moves the literals. -/
def loopCalls : List Call :=
  [.newLabel, .newLabel, .bind 0, .pushLiteral (.mem 8), .send (.mem 16) 1, .brFalseFwd 1,
    .collect (Equiv.swap 8 24), .internBlockLiteral (.mem 32), .pushClosure 1 0,
    .pushGlobal (.mem 24), .pop, .jumpBack 0, .bind 1, .retSelf]

/-- 256 block literals fill the range of a byte; the next literal is a global. -/
def manyLiterals : List Call :=
  (List.range 256).map (fun i => .internBlockLiteral (.mem (i + 16))) ++
    [.pushGlobal (.mem 8), .retSelf]

theorem Session.run_append (debug : Bool) (s : Session) (cs ds : List Call) :
    s.run debug (cs ++ ds) = (s.run debug cs).bind fun s' => s'.run debug ds := by
  induction cs generalizing s with
  | nil => rfl
  | cons c cs ih => simp only [List.cons_append, run, Option.bind_assoc, ih]

/-- Fresh block literals take the slots in order, and nothing is emitted. -/
theorem run_internBlocks (n : Nat) : ∃ index blocks,
    Session.new.run true ((List.range n).map fun i => .internBlockLiteral (.mem (i + 16))) = some
      ⟨{ Builder.new with
        literals := (List.range n).map fun i => .mem (i + 16)
        literalIndex := index }, { Record.new with blocks }⟩ ∧
    ∀ a, a < 16 ∨ n + 16 ≤ a → index (.mem a) = none := by
  induction n with
  | zero => exact ⟨_, _, rfl, fun _ _ => rfl⟩
  | succ n ih =>
    obtain ⟨index, blocks, ran, free⟩ := ih
    refine ⟨Function.update index (.mem (n + 16)) (some n),
      Function.update blocks n (some (.mem (n + 16))), ?_, fun a out => ?_⟩
    · rw [List.range_succ, List.map_append, Session.run_append, ran]
      simp [Session.run, Session.call, Builder.call, Builder.internBlockLiteral,
        Builder.internLiteral, free (n + 16) (.inr le_rfl), Record.call]
    · rw [Function.update_of_ne fun same => by cases same; omega]
      exact free a (by omega)

end WinVm.Bytecode
