import Mathlib.Data.List.Sublists
import WinVm.Compiler.Regalloc

/-!
# Positions and paths

How the linear numbering of `regalloc` relates to control flow. A step of control goes to a
later position, or back over the range of a backward edge (`step_pos`); and every point the
entry reaches is also reached along a path of growing positions (`forward_reaches`), since
blocks are laid out in reverse postorder.
-/

namespace WinVm.Compiler.IrMethod

open WinVm.Lib

variable {m : IrMethod}

/-! ## Blocks -/

theorem mem_blocks_of_code {b : BlockId} {ir : Ir} {i : Nat} (h : m.op? (b, i) = some ir) :
    ∃ block ∈ m.blocks, m.blocks[b]? = some block ∧ block.code[i]? = some ir := by
  unfold op? code at h
  cases hb : m.blocks[b]? with
  | none => simp [hb] at h
  | some block =>
    simp only [hb, Option.map_some, Option.getD_some] at h
    exact ⟨block, List.mem_of_getElem? hb, rfl, h⟩

theorem op?_lt {b : BlockId} {ir : Ir} {i : Nat} (h : m.op? (b, i) = some ir) :
    b < m.blocks.length ∧ i < (m.code b).length := by
  obtain ⟨block, -, hb, -⟩ := mem_blocks_of_code h
  exact ⟨(List.getElem?_eq_some_iff.mp hb).1, (List.getElem?_eq_some_iff.mp h).1⟩

theorem code_split {b : BlockId} (hb : b < m.blocks.length) :
    ∃ init last, m.code b = init ++ [last] ∧ last.isTerminator ∧
      ∀ ir ∈ init, ir.isTerminator = false := by
  have hget : m.blocks[b]? = some m.blocks[b] := List.getElem?_eq_getElem hb
  obtain ⟨init, last, hcode, hlast, hinit⟩ := m.terminated _ (List.getElem_mem hb)
  refine ⟨init, last, ?_, hlast, hinit⟩
  simp [code, hget, hcode]

theorem code_length_pos {b : BlockId} (hb : b < m.blocks.length) : 0 < (m.code b).length := by
  obtain ⟨init, last, hcode, -, -⟩ := code_split hb
  simp [hcode]

/-- Only the last operation of a block ends it. -/
theorem isTerminator_iff {b : BlockId} {ir : Ir} {i : Nat} (h : m.op? (b, i) = some ir) :
    ir.isTerminator = true ↔ i + 1 = (m.code b).length := by
  obtain ⟨hb, hi⟩ := op?_lt h
  obtain ⟨init, last, hcode, hlast, hinit⟩ := code_split hb
  unfold op? at h
  simp only [hcode, List.length_append, List.length_singleton] at h hi ⊢
  rcases Nat.lt_or_ge i init.length with hlt | hge
  · rw [List.getElem?_append_left hlt] at h
    have := hinit ir (List.mem_of_getElem? h)
    constructor
    · intro ht
      rw [this] at ht
      cases ht
    · intro hlen
      omega
  · obtain rfl : i = init.length := by omega
    simp only [List.getElem?_concat_length, Option.some_inj] at h
    subst h
    exact iff_of_true hlast rfl

theorem mem_succs {b t : BlockId} {ir : Ir} {i : Nat} (h : m.op? (b, i) = some ir)
    (ht : t ∈ ir.targets) : t ∈ m.succs b := by
  obtain ⟨block, -, hb, hcode⟩ := mem_blocks_of_code h
  simp only [succs, hb, Option.map_some, Option.getD_some, successors, List.mem_flatMap]
  exact ⟨ir, List.mem_of_getElem? hcode, ht⟩

theorem exists_op_of_mem_succs {b t : BlockId} (h : t ∈ m.succs b) :
    ∃ i ir, m.op? (b, i) = some ir ∧ t ∈ ir.targets := by
  unfold succs at h
  cases hb : m.blocks[b]? with
  | none => simp [hb] at h
  | some block =>
    simp only [hb, Option.map_some, Option.getD_some, successors, List.mem_flatMap] at h
    obtain ⟨ir, hir, ht⟩ := h
    obtain ⟨i, hi⟩ := List.getElem?_of_mem hir
    refine ⟨i, ir, ?_, ht⟩
    simp [op?, code, hb, hi]

theorem succs_lt {b : BlockId} : ∀ t ∈ m.succs b, t < m.blocks.length := by
  intro t ht
  obtain ⟨i, ir, hop, htar⟩ := exists_op_of_mem_succs ht
  obtain ⟨block, hmem, -, hcode⟩ := mem_blocks_of_code hop
  refine m.targets_lt block hmem t ?_
  exact List.mem_flatMap.mpr ⟨ir, List.mem_of_getElem? hcode, htar⟩

theorem exists_op_zero {b : BlockId} (hb : b < m.blocks.length) : ∃ ir, m.op? (b, 0) = some ir := by
  have hpos := code_length_pos hb
  exact ⟨(m.code b)[0], List.getElem?_eq_getElem hpos⟩

/-! ## Positions -/

variable (m) in
theorem blockOrder_spec : ∃ tree rest, m.blockOrder = tree ++ rest ∧ Dfs.FirstTree m.succs tree ∧
    m.blockOrder.Nodup ∧ ∀ b, b ∈ m.blockOrder ↔ b < m.blocks.length :=
  Dfs.reversePostorder_spec (fun _ _ => succs_lt) m.entry_lt

theorem mem_blockOrder {b : BlockId} : b ∈ m.blockOrder ↔ b < m.blocks.length := by
  obtain ⟨_, _, _, _, _, hmem⟩ := m.blockOrder_spec
  exact hmem b

variable (m) in
theorem blockOrder_nodup : m.blockOrder.Nodup := by
  obtain ⟨_, _, _, _, hnodup, _⟩ := m.blockOrder_spec
  exact hnodup

/-- A block listed before another ends before the other starts. -/
theorem startIn_of_sublist {a b : BlockId} {order : List BlockId} (hnodup : order.Nodup)
    (h : [a, b].Sublist order) :
    m.startIn a order + (m.code a).length ≤ m.startIn b order := by
  induction order with
  | nil => cases h
  | cons c order ih =>
    have hcons := List.nodup_cons.mp hnodup
    have hmem : ∀ x, x ∈ order → c ≠ x := by
      rintro x hx rfl
      exact hcons.1 hx
    cases h with
    | cons _ h =>
      have ha : a ∈ order := h.subset List.mem_cons_self
      have hb : b ∈ order := h.subset (List.mem_cons_of_mem _ List.mem_cons_self)
      simp only [startIn, if_neg (hmem a ha), if_neg (hmem b hb)]
      have := ih hcons.2 h
      omega
    | cons_cons _ h =>
      have hb : b ∈ order := List.singleton_sublist.mp h
      simp only [startIn, if_true, if_neg (hmem b hb)]
      omega

theorem sublist_pair_or {a b : BlockId} {order : List BlockId} (ha : a ∈ order) (hb : b ∈ order)
    (hne : a ≠ b) : [a, b].Sublist order ∨ [b, a].Sublist order := by
  induction order with
  | nil => cases ha
  | cons c order ih =>
    rcases List.mem_cons.mp ha with rfl | ha
    · rcases List.mem_cons.mp hb with rfl | hb
      · exact absurd rfl hne
      · exact Or.inl ((List.singleton_sublist.mpr hb).cons_cons a)
    · rcases List.mem_cons.mp hb with heq | hb
      · rw [heq]
        exact Or.inr ((List.singleton_sublist.mpr ha).cons_cons c)
      · rcases ih ha hb with h | h
        · exact Or.inl (h.cons c)
        · exact Or.inr (h.cons c)

/-- Two blocks do not overlap. -/
theorem blockStart_cases {a b : BlockId} (ha : a < m.blocks.length) (hb : b < m.blocks.length)
    (hne : a ≠ b) : m.blockStart a + (m.code a).length ≤ m.blockStart b ∨
      m.blockStart b + (m.code b).length ≤ m.blockStart a := by
  rcases sublist_pair_or (mem_blockOrder.mpr ha) (mem_blockOrder.mpr hb) hne with h | h
  · exact Or.inl (startIn_of_sublist m.blockOrder_nodup h)
  · exact Or.inr (startIn_of_sublist m.blockOrder_nodup h)

/-- The operation at a point stands at its position. -/
theorem linear_getElem? {x : Point} {ir : Ir} (h : m.op? x = some ir) :
    m.linear[m.pos x]? = some (x, ir) := by
  obtain ⟨b, i⟩ := x
  obtain ⟨hb, hi⟩ := op?_lt h
  have hnodup := m.blockOrder_nodup
  have hmem := (mem_blockOrder (m := m)).mpr hb
  unfold linear pos blockStart
  generalize m.blockOrder = order at hnodup hmem ⊢
  induction order with
  | nil => cases hmem
  | cons c order ih =>
    rw [List.flatMap_cons]
    have hlen : ((m.code c).zipIdx.map fun x => ((c, x.2), x.1)).length = (m.code c).length := by
      simp
    rcases eq_or_ne c b with rfl | hne
    · simp only [startIn, if_true, Nat.zero_add]
      rw [List.getElem?_append_left (by rw [hlen]; exact hi)]
      have hcode : (m.code c)[i]? = some ir := h
      simp [List.getElem?_map, List.getElem?_zipIdx, hcode]
    · have hb' : b ∈ order := (List.mem_cons.mp hmem).resolve_left (Ne.symm hne)
      simp only [startIn, if_neg hne]
      rw [List.getElem?_append_right (by rw [hlen]; omega), hlen,
        show (m.code c).length + m.startIn b order + i - (m.code c).length =
          m.startIn b order + i by omega]
      exact ih (List.nodup_cons.mp hnodup).2 hb'

theorem op?_of_mem_linear {x : Point} {ir : Ir} (h : (x, ir) ∈ m.linear) : m.op? x = some ir := by
  unfold linear at h
  obtain ⟨b, -, hx⟩ := List.mem_flatMap.mp h
  obtain ⟨⟨ir', i⟩, hmem, heq⟩ := List.mem_map.mp hx
  cases heq
  exact (List.mem_zipIdx_iff_getElem?.mp hmem)

theorem linear_nodup : m.linear.Nodup := by
  unfold linear
  rw [List.nodup_flatMap]
  constructor
  · intro b _
    refine List.Nodup.of_map (fun y => y.1.2) ?_
    rw [List.map_map]
    have hsnd : (m.code b).zipIdx.map ((fun y : Point × Ir => y.1.2) ∘ fun x => ((b, x.2), x.1)) =
        List.range' 0 (m.code b).length := List.zipIdx_map_snd 0 (m.code b)
    rw [hsnd]
    exact List.nodup_range'
  · refine m.blockOrder_nodup.imp ?_
    intro a b hne y hya hyb
    obtain ⟨z, -, rfl⟩ := List.mem_map.mp hya
    obtain ⟨z', -, heq⟩ := List.mem_map.mp hyb
    exact hne (congrArg (fun y => y.1.1) heq).symm

/-- The numbered operations are the points with their positions. -/
theorem mem_linear_zipIdx {x : Point} {ir : Ir} {q : Nat} :
    ((x, ir), q) ∈ m.linear.zipIdx ↔ m.op? x = some ir ∧ m.pos x = q := by
  rw [List.mem_zipIdx_iff_getElem?]
  constructor
  · intro h
    have hop := op?_of_mem_linear (List.mem_of_getElem? h)
    refine ⟨hop, ?_⟩
    simp only at h
    obtain ⟨h1, h2⟩ := List.getElem?_eq_some_iff.mp h
    obtain ⟨h3, h4⟩ := List.getElem?_eq_some_iff.mp (linear_getElem? hop)
    exact (linear_nodup.getElem_inj_iff).mp (by rw [h4, h2])
  · rintro ⟨hop, rfl⟩
    exact linear_getElem? hop

theorem mem_positionsOf {p : Ir → Bool} {q : Nat} :
    q ∈ m.positionsOf p ↔ ∃ x ir, m.op? x = some ir ∧ p ir = true ∧ m.pos x = q := by
  unfold positionsOf
  constructor
  · intro h
    obtain ⟨⟨⟨x, ir⟩, q'⟩, hmem, rfl⟩ := List.mem_map.mp h
    obtain ⟨hmem, hp⟩ := List.mem_filter.mp hmem
    obtain ⟨hop, hpos⟩ := mem_linear_zipIdx.mp hmem
    exact ⟨x, ir, hop, hp, hpos⟩
  · rintro ⟨x, ir, hop, hp, hpos⟩
    refine List.mem_map.mpr ⟨((x, ir), q), ?_, rfl⟩
    exact List.mem_filter.mpr ⟨mem_linear_zipIdx.mpr ⟨hop, hpos⟩, hp⟩

theorem mem_safepointPositions {x : Point} {ir : Ir} (h : m.op? x = some ir)
    (hsp : ir.isSafepoint = true) : m.pos x ∈ m.safepointPositions :=
  mem_positionsOf.mpr ⟨x, ir, h, hsp, rfl⟩

/-! ## Steps -/

theorem Step.op?_left {x y : Point} (h : m.Step x y) : ∃ ir, m.op? x = some ir := by
  cases h with
  | next h _ _ => exact ⟨_, h⟩
  | branch h _ _ => exact ⟨_, h⟩

theorem Step.op?_right {x y : Point} (h : m.Step x y) : ∃ ir, m.op? y = some ir := by
  cases h with
  | next _ _ h' => exact ⟨_, h'⟩
  | branch _ _ h' => exact ⟨_, h'⟩

/-- A step goes to a later position, or back to the start of a loop range it lies in. -/
theorem step_pos {x y : Point} (h : m.Step x y) :
    m.pos x < m.pos y ∨
      (m.pos y, m.blockEnd x.1) ∈ m.loopRanges ∧ m.pos y ≤ m.pos x ∧ m.pos x ≤ m.blockEnd x.1 := by
  cases h with
  | @next b i ir ir' h hnt h' =>
    left
    simp only [pos]
    omega
  | @branch b i t ir ir' h ht h' =>
    obtain ⟨hb, hi⟩ := op?_lt h
    obtain ⟨ht', -⟩ := op?_lt h'
    simp only [pos, Nat.add_zero]
    rcases Nat.lt_or_ge (m.blockStart b) (m.blockStart t) with hlt | hge
    · left
      have hne : b ≠ t := by
        rintro rfl
        omega
      rcases blockStart_cases hb ht' hne with hbt | htb
      · omega
      · have := code_length_pos ht'
        omega
    · right
      refine ⟨?_, by omega, by simp only [blockEnd]; omega⟩
      refine List.mem_flatMap.mpr ⟨b, mem_blockOrder.mpr hb, ?_⟩
      exact List.mem_filterMap.mpr ⟨t, mem_succs h ht, by rw [if_pos hge]⟩

/-- Leaving an operation that does not end its block cannot stay at the range's last position. -/
theorem lt_blockEnd {x : Point} {ir : Ir} (h : m.op? x = some ir)
    (hnt : ir.isTerminator = false) : m.pos x < m.blockEnd x.1 := by
  obtain ⟨b, i⟩ := x
  obtain ⟨-, hi⟩ := op?_lt h
  have hne : i + 1 ≠ (m.code b).length := by
    intro hlast
    rw [(isTerminator_iff h).mpr hlast] at hnt
    cases hnt
  simp only [pos, blockEnd]
  omega

/-! ## Forward paths -/

variable (m) in
/-- A step of control to a later position. -/
def Forward (x y : Point) : Prop := m.Step x y ∧ m.pos x < m.pos y

variable (m) in
/-- The blocks of the search tree of the entry: the ones it can reach. -/
def InTree (b : BlockId) : Prop := ∃ tree rest, m.blockOrder = tree ++ rest ∧
  Dfs.FirstTree m.succs tree ∧ b ∈ tree

theorem inTree_of_reaches {x : Point} (h : m.Reaches entryPoint x) : m.InTree x.1 := by
  obtain ⟨tree, rest, horder, htree, -, -⟩ := m.blockOrder_spec
  refine ⟨tree, rest, horder, htree, ?_⟩
  induction h with
  | refl => exact htree.zero_mem
  | tail _ hstep ih =>
    cases hstep with
    | next _ _ _ => exact ih
    | branch h ht _ => exact htree.closed _ ih _ (mem_succs h ht)

/-- Within a block control falls through from its first operation to any other. -/
theorem forward_in_block {b : BlockId} {i : Nat} {ir : Ir} (h : m.op? (b, i) = some ir) :
    Relation.ReflTransGen m.Forward (b, 0) (b, i) := by
  induction i generalizing ir with
  | zero => exact .refl
  | succ i ih =>
    obtain ⟨-, hi⟩ := op?_lt h
    have hlt : i < (m.code b).length := by omega
    have hop : m.op? (b, i) = some (m.code b)[i] := List.getElem?_eq_getElem hlt
    have hnt : (m.code b)[i].isTerminator = false := by
      rw [Bool.eq_false_iff, ne_eq, isTerminator_iff hop]
      omega
    refine (ih hop).tail ⟨.next hop hnt h, ?_⟩
    simp only [pos]
    omega

/-- Every point of a reachable block is reached along growing positions. -/
theorem forward_reaches {x : Point} {ir : Ir} (hx : m.op? x = some ir) (h : m.InTree x.1) :
    Relation.ReflTransGen m.Forward entryPoint x := by
  obtain ⟨tree, rest, horder, htree, hmem⟩ := h
  have hnodup := m.blockOrder_nodup
  have hstart : ∀ c ∈ tree, Relation.ReflTransGen m.Forward entryPoint (c, 0) := by
    refine htree.forward_induction .refl ?_
    intro a c ha hc hca hsub ih
    obtain ⟨i, ir, hop, htar⟩ := exists_op_of_mem_succs hca
    obtain ⟨ir', hop'⟩ := exists_op_zero (succs_lt c hca)
    refine (ih.trans (forward_in_block hop)).tail ⟨.branch hop htar hop', ?_⟩
    -- the parent is laid out before its child
    have hsub' : [a, c].Sublist m.blockOrder := by
      rw [horder]
      exact hsub.trans (List.sublist_append_left _ _)
    have hle := startIn_of_sublist (m := m) hnodup hsub'
    obtain ⟨-, hi⟩ := op?_lt hop
    simp only [pos, blockStart]
    omega
  obtain ⟨b, i⟩ := x
  exact (hstart b hmem).trans (forward_in_block hx)

/-- Looking back along a forward path from the entry: no definition of `v` on it, or one at an
earlier position. -/
theorem without_or_defined {v : VReg} {x : Point}
    (h : Relation.ReflTransGen m.Forward entryPoint x) :
    m.ReachesWithout v entryPoint x ∨ ∃ d, m.Defines v d ∧ m.pos d < m.pos x := by
  induction h with
  | refl => exact Or.inl .refl
  | @tail y z _ hstep ih =>
    obtain ⟨hstep, hlt⟩ := hstep
    rcases ih with hwithout | ⟨d, hd, hdlt⟩
    · by_cases hy : m.Defines v y
      · exact Or.inr ⟨y, hy, hlt⟩
      · exact Or.inl (hwithout.tail ⟨hstep, fun h => hy h.1⟩)
    · exact Or.inr ⟨d, hd, Nat.lt_trans hdlt hlt⟩

/-- A vreg that is live at a reachable point is defined at an earlier position. -/
theorem exists_def_before {v : VReg} {x z : Point} (hdef : m.DefinedBeforeUse)
    (hreach : m.Reaches entryPoint x) {ir : Ir} (hx : m.op? x = some ir)
    (hlive : m.ReachesWithout v x z) (huse : m.Uses v z) :
    ∃ d, m.Defines v d ∧ m.pos d < m.pos x := by
  have hfwd := forward_reaches hx (inTree_of_reaches hreach)
  rcases without_or_defined (v := v) hfwd with hwithout | hd
  · exact absurd (Relation.ReflTransGen.trans hwithout hlive) (hdef v z huse)
  · exact hd

end WinVm.Compiler.IrMethod
