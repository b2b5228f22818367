import Mathlib.Data.List.Nodup
import Mathlib.Data.List.Perm.Subperm
import Mathlib.Logic.Relation

/-!
# Reverse postorder of a depth-first search

A depth-first search over the nodes below `n` of a successor function, and the order that
lists every search tree in reverse postorder, trees in the order of their roots. What a
client needs of that order is small and is what `reversePostorder_spec` says: the nodes of
the first tree come first and are closed under successors, node 0 leads, and every other
node of that tree has a predecessor that stands before it. The last fact is the induction
rule `FirstTree.forward_induction`: a property that passes along edges towards later nodes
holds of every node reachable from node 0.
-/

namespace WinVm.Lib.Dfs

variable (succ : Nat → List Nat)

/-- Visit `b`: mark it, visit its successors, then append it to the postorder. The state is
the list of marked nodes and the postorder so far; `fuel` bounds the depth. -/
def visit : Nat → Nat → List Nat × List Nat → List Nat × List Nat
  | 0, _, st => st
  | fuel + 1, b, st =>
    if b ∈ st.1 then st
    else
      let st' := (succ b).foldl (fun st s => visit fuel s st) (b :: st.1, st.2)
      (st'.1, st'.2 ++ [b])

/-- One tree after another, each reversed on its own. -/
def visitRoots (n : Nat) (acc : List Nat × List Nat) (b : Nat) : List Nat × List Nat :=
  if b ∈ acc.1 then acc
  else
    let st := visit succ (n + 1) b (acc.1, [])
    (st.1, acc.2 ++ st.2.reverse)

def reversePostorder (n : Nat) : List Nat :=
  ((List.range n).foldl (visitRoots succ n) ([], [])).2

/-! ## One visit -/

variable {succ} {n : Nat}

/-- The marked nodes are distinct nodes of the graph. -/
structure Marked (n : Nat) (visited : List Nat) : Prop where
  nodup : visited.Nodup
  lt : ∀ c ∈ visited, c < n

theorem Marked.length_le {visited : List Nat} (h : Marked n visited) : visited.length ≤ n := by
  have hsub : visited ⊆ List.range n := fun c hc => List.mem_range.mpr (h.lt c hc)
  have := (h.nodup.subperm hsub).length_le
  rwa [List.length_range] at this

/-- What visiting the `roots` did to the state: a segment `seg` was appended to the postorder,
of new nodes only; their successors are all marked, and each of them is a root or has a
predecessor later in the segment. -/
structure Visits (succ : Nat → List Nat) (n : Nat) (roots : List Nat)
    (st st' : List Nat × List Nat) (seg : List Nat) : Prop where
  post : st'.2 = st.2 ++ seg
  marked : Marked n st'.1
  mem : ∀ c, c ∈ st'.1 ↔ c ∈ st.1 ∨ c ∈ seg
  length_le : st.1.length ≤ st'.1.length
  nodup : seg.Nodup
  fresh : ∀ c ∈ seg, c ∉ st.1
  closed : ∀ c ∈ seg, ∀ s ∈ succ c, s ∈ st'.1
  tree : ∀ c ∈ seg, c ∈ roots ∨ ∃ a ∈ seg, c ∈ succ a ∧ [c, a].Sublist seg
  visited : ∀ r ∈ roots, r ∈ st'.1

theorem Visits.nil {st : List Nat × List Nat} (h : Marked n st.1) :
    Visits succ n [] st st [] where
  post := (List.append_nil _).symm
  marked := h
  mem := by simp
  length_le := Nat.le_refl _
  nodup := List.nodup_nil
  fresh := by simp
  closed := by simp
  tree := by simp
  visited := by simp

/-- A node that is marked already. -/
theorem Visits.skip {st : List Nat × List Nat} {b : Nat} (h : Marked n st.1) (hb : b ∈ st.1) :
    Visits succ n [b] st st [] :=
  { Visits.nil h with
    tree := by simp
    visited := by
      intro r hr
      rw [List.mem_singleton] at hr
      exact hr ▸ hb }

theorem Visits.cons {st st1 st2 : List Nat × List Nat} {seg1 seg2 : List Nat} {s : Nat}
    {ss : List Nat} (h1 : Visits succ n [s] st st1 seg1) (h2 : Visits succ n ss st1 st2 seg2) :
    Visits succ n (s :: ss) st st2 (seg1 ++ seg2) where
  post := by rw [h2.post, h1.post, List.append_assoc]
  marked := h2.marked
  mem := by
    intro c
    rw [h2.mem, h1.mem, List.mem_append, or_assoc]
  length_le := Nat.le_trans h1.length_le h2.length_le
  nodup := by
    refine h1.nodup.append h2.nodup ?_
    intro c hc1 hc2
    exact h2.fresh c hc2 ((h1.mem c).mpr (Or.inr hc1))
  fresh := by
    intro c hc
    rcases List.mem_append.mp hc with hc1 | hc2
    · exact h1.fresh c hc1
    · intro hst
      exact h2.fresh c hc2 ((h1.mem c).mpr (Or.inl hst))
  closed := by
    intro c hc x hx
    rcases List.mem_append.mp hc with hc1 | hc2
    · exact (h2.mem x).mpr (Or.inl (h1.closed c hc1 x hx))
    · exact h2.closed c hc2 x hx
  tree := by
    intro c hc
    rcases List.mem_append.mp hc with hc1 | hc2
    · rcases h1.tree c hc1 with hroot | ⟨a, ha, hca, hsub⟩
      · exact Or.inl (List.mem_cons.mpr (Or.inl (List.mem_singleton.mp hroot)))
      · exact Or.inr ⟨a, List.mem_append_left _ ha, hca, hsub.trans (List.sublist_append_left _ _)⟩
    · rcases h2.tree c hc2 with hroot | ⟨a, ha, hca, hsub⟩
      · exact Or.inl (List.mem_cons_of_mem _ hroot)
      · exact Or.inr ⟨a, List.mem_append_right _ ha, hca,
          hsub.trans (List.sublist_append_right _ _)⟩
  visited := by
    intro r hr
    rcases List.mem_cons.mp hr with rfl | hr
    · exact (h2.mem r).mpr (Or.inl (h1.visited r (List.mem_singleton_self r)))
    · exact h2.visited r hr

/-- Finishing `b` after its successors. -/
theorem Visits.finish {st st' : List Nat × List Nat} {seg : List Nat} {b : Nat}
    (hb : b ∉ st.1) (h : Visits succ n (succ b) (b :: st.1, st.2) st' seg) :
    Visits succ n [b] st (st'.1, st'.2 ++ [b]) (seg ++ [b]) where
  post := by
    have := h.post
    simp only at this ⊢
    rw [this, List.append_assoc]
  marked := h.marked
  mem := by
    intro c
    rw [h.mem]
    simp only [List.mem_cons, List.mem_append, List.not_mem_nil, or_false]
    tauto
  length_le := by
    have := h.length_le
    simp only [List.length_cons] at this
    exact Nat.le_of_succ_le this
  nodup := by
    refine h.nodup.append (List.nodup_singleton b) ?_
    intro c hc hcb
    rw [List.mem_singleton] at hcb
    exact h.fresh c hc (hcb ▸ List.mem_cons_self)
  fresh := by
    intro c hc
    rcases List.mem_append.mp hc with hc | hc
    · exact fun hst => h.fresh c hc (List.mem_cons_of_mem _ hst)
    · rw [List.mem_singleton] at hc
      exact hc ▸ hb
  closed := by
    intro c hc s hs
    rcases List.mem_append.mp hc with hc | hc
    · exact h.closed c hc s hs
    · rw [List.mem_singleton] at hc
      subst hc
      exact h.visited s hs
  tree := by
    intro c hc
    rcases List.mem_append.mp hc with hc | hc
    · refine Or.inr ?_
      rcases h.tree c hc with hroot | ⟨a, ha, hca, hsub⟩
      · refine ⟨b, List.mem_append_right _ (List.mem_singleton_self b), hroot, ?_⟩
        exact (List.singleton_sublist.mpr hc).append (List.Sublist.refl [b])
      · exact ⟨a, List.mem_append_left _ ha, hca, hsub.trans (List.sublist_append_left _ _)⟩
    · exact Or.inl hc
  visited := by
    intro r hr
    rw [List.mem_singleton] at hr
    subst hr
    exact (h.mem r).mpr (Or.inl List.mem_cons_self)

/-- `fuel` never runs out: every level of the recursion has marked another node. -/
theorem visit_visits (hsucc : ∀ b < n, ∀ s ∈ succ b, s < n) :
    ∀ (fuel b : Nat) (st : List Nat × List Nat), b < n → Marked n st.1 →
      n < fuel + st.1.length → ∃ seg, Visits succ n [b] st (visit succ fuel b st) seg := by
  intro fuel
  induction fuel with
  | zero =>
    intro b st _ hst hfuel
    have := hst.length_le
    omega
  | succ fuel ih =>
    intro b st hb hst hfuel
    -- the successors, from a state in which one more node is marked
    have hfold : ∀ (ss : List Nat) (st : List Nat × List Nat), (∀ s ∈ ss, s < n) →
        Marked n st.1 → n < fuel + st.1.length →
        ∃ seg, Visits succ n ss st (ss.foldl (fun st s => visit succ fuel s st) st) seg := by
      intro ss
      induction ss with
      | nil =>
        intro st _ hst _
        exact ⟨[], Visits.nil hst⟩
      | cons s ss ihss =>
        intro st hss hst hfuel
        obtain ⟨seg1, h1⟩ := ih s st (hss s List.mem_cons_self) hst hfuel
        have hle := h1.length_le
        obtain ⟨seg2, h2⟩ := ihss (visit succ fuel s st)
          (fun x hx => hss x (List.mem_cons_of_mem _ hx)) h1.marked (by omega)
        exact ⟨seg1 ++ seg2, h1.cons h2⟩
    unfold visit
    by_cases hmem : b ∈ st.1
    · rw [if_pos hmem]
      exact ⟨[], Visits.skip hst hmem⟩
    · rw [if_neg hmem]
      have hmark : Marked n (b :: st.1) := by
        refine ⟨List.nodup_cons.mpr ⟨hmem, hst.nodup⟩, ?_⟩
        intro c hc
        rcases List.mem_cons.mp hc with rfl | hc
        · exact hb
        · exact hst.lt c hc
      obtain ⟨seg, h⟩ := hfold (succ b) (b :: st.1, st.2) (hsucc b hb) hmark
        (by simp only [List.length_cons]; omega)
      exact ⟨seg ++ [b], Visits.finish hmem h⟩

/-! ## All trees -/

/-- After the roots below `k`: the order lists exactly the marked nodes. -/
structure Ordered (succ : Nat → List Nat) (n k : Nat) (acc : List Nat × List Nat) : Prop where
  marked : Marked n acc.1
  mem : ∀ c, c ∈ acc.2 ↔ c ∈ acc.1
  nodup : acc.2.Nodup
  roots : ∀ r < k, r ∈ acc.1

theorem Ordered.step (hsucc : ∀ b < n, ∀ s ∈ succ b, s < n) {k : Nat}
    {acc : List Nat × List Nat} (h : Ordered succ n k acc) (hk : k < n) :
    Ordered succ n (k + 1) (visitRoots succ n acc k) ∧
      ∃ rest, (visitRoots succ n acc k).2 = acc.2 ++ rest := by
  unfold visitRoots
  by_cases hmem : k ∈ acc.1
  · rw [if_pos hmem]
    refine ⟨⟨h.marked, h.mem, h.nodup, ?_⟩, [], (List.append_nil _).symm⟩
    intro r hr
    rcases Nat.lt_succ_iff_lt_or_eq.mp hr with hr | rfl
    · exact h.roots r hr
    · exact hmem
  · rw [if_neg hmem]
    obtain ⟨seg, hv⟩ := visit_visits hsucc (n + 1) k (acc.1, []) hk h.marked
      (by simp only; omega)
    have hpost := hv.post
    simp only [List.nil_append] at hpost ⊢
    refine ⟨⟨hv.marked, ?_, ?_, ?_⟩, _, rfl⟩
    · intro c
      rw [List.mem_append, hpost, List.mem_reverse, h.mem, hv.mem]
    · rw [hpost]
      refine h.nodup.append (List.nodup_reverse.mpr hv.nodup) ?_
      intro c hc hc'
      exact hv.fresh c (List.mem_reverse.mp hc') ((h.mem c).mp hc)
    · intro r hr
      rcases Nat.lt_succ_iff_lt_or_eq.mp hr with hr | rfl
      · exact (hv.mem r).mpr (Or.inl (h.roots r hr))
      · exact hv.visited r (List.mem_singleton_self r)

theorem ordered_foldl (hsucc : ∀ b < n, ∀ s ∈ succ b, s < n) (m k : Nat)
    (acc : List Nat × List Nat) (h : Ordered succ n k acc) (hkm : k + m = n) :
    Ordered succ n n ((List.range' k m).foldl (visitRoots succ n) acc) ∧
      ∃ rest, ((List.range' k m).foldl (visitRoots succ n) acc).2 = acc.2 ++ rest := by
  induction m generalizing k acc with
  | zero =>
    obtain rfl : k = n := by omega
    exact ⟨h, [], (List.append_nil _).symm⟩
  | succ m ih =>
    obtain ⟨hstep, rest1, hrest1⟩ := h.step hsucc (by omega)
    obtain ⟨hall, rest2, hrest2⟩ := ih (k + 1) _ hstep (by omega)
    rw [List.range'_succ, List.foldl_cons]
    refine ⟨hall, rest1 ++ rest2, ?_⟩
    rw [hrest2, hrest1, List.append_assoc]

/-- The tree of node 0, as a list in reverse postorder. -/
structure FirstTree (succ : Nat → List Nat) (tree : List Nat) : Prop where
  nodup : tree.Nodup
  head : tree.head? = some 0
  closed : ∀ c ∈ tree, ∀ s ∈ succ c, s ∈ tree
  parent : ∀ c ∈ tree, c = 0 ∨ ∃ a ∈ tree, c ∈ succ a ∧ [a, c].Sublist tree

theorem Visits.firstTree {st' : List Nat × List Nat} {seg : List Nat}
    (h : Visits succ n [0] ([], []) st' seg) (hlast : ∃ seg', seg = seg' ++ [0]) :
    FirstTree succ seg.reverse where
  nodup := List.nodup_reverse.mpr h.nodup
  head := by
    obtain ⟨seg', rfl⟩ := hlast
    simp
  closed := by
    intro c hc s hs
    have := h.closed c (List.mem_reverse.mp hc) s hs
    rw [h.mem] at this
    exact List.mem_reverse.mpr (this.resolve_left (by simp))
  parent := by
    intro c hc
    rcases h.tree c (List.mem_reverse.mp hc) with hroot | ⟨a, ha, hca, hsub⟩
    · exact Or.inl (List.mem_singleton.mp hroot)
    · exact Or.inr ⟨a, List.mem_reverse.mpr ha, hca, List.reverse_sublist.mpr hsub⟩

theorem visitRoots_zero (hsucc : ∀ b < n, ∀ s ∈ succ b, s < n) (hn : 0 < n) :
    ∃ tree, FirstTree succ tree ∧ (visitRoots succ n ([], []) 0).2 = tree := by
  have hmark : Marked n ([] : List Nat) := ⟨List.nodup_nil, by simp⟩
  obtain ⟨seg, hv⟩ := visit_visits hsucc (n + 1) 0 ([], []) hn hmark (by simp)
  have hlast : ∃ seg', seg = seg' ++ [0] := by
    have hpost := hv.post
    rw [visit, if_neg List.not_mem_nil] at hpost
    exact ⟨_, hpost.symm⟩
  have hpost := hv.post
  rw [List.nil_append] at hpost
  refine ⟨seg.reverse, hv.firstTree hlast, ?_⟩
  rw [visitRoots, if_neg List.not_mem_nil]
  simp only [List.nil_append, hpost]

/-- The order lists every node once, and starts with the tree of node 0. -/
theorem reversePostorder_spec (hsucc : ∀ b < n, ∀ s ∈ succ b, s < n) (hn : 0 < n) :
    ∃ tree rest, reversePostorder succ n = tree ++ rest ∧ FirstTree succ tree ∧
      (reversePostorder succ n).Nodup ∧ ∀ b, b ∈ reversePostorder succ n ↔ b < n := by
  obtain ⟨tree, htree, hzero⟩ := visitRoots_zero hsucc hn
  have hinit : Ordered succ n 0 ([], []) :=
    ⟨⟨List.nodup_nil, by simp⟩, by simp, List.nodup_nil, by simp⟩
  obtain ⟨hone, -⟩ := hinit.step hsucc hn
  obtain ⟨hall, rest, hrest⟩ := ordered_foldl hsucc (n - 1) 1 _ hone (by omega)
  have horder : reversePostorder succ n =
      ((List.range' 1 (n - 1)).foldl (visitRoots succ n) (visitRoots succ n ([], []) 0)).2 := by
    obtain ⟨m, rfl⟩ : ∃ m, n = m + 1 := ⟨n - 1, by omega⟩
    rw [reversePostorder, List.range_eq_range', List.range'_succ, List.foldl_cons]
    rfl
  rw [horder]
  refine ⟨tree, rest, by rw [hrest, hzero], htree, hall.nodup, ?_⟩
  intro b
  rw [hall.mem]
  exact ⟨hall.marked.lt b, hall.roots b⟩

/-! ## Using the first tree -/

namespace FirstTree

variable {tree : List Nat}

theorem zero_mem (h : FirstTree succ tree) : 0 ∈ tree :=
  List.mem_of_mem_head? (by rw [h.head]; rfl)

/-- What holds of node 0 and passes along edges to later nodes holds of the whole tree. -/
theorem forward_induction (h : FirstTree succ tree) {P : Nat → Prop} (hzero : P 0)
    (hedge : ∀ a c, a ∈ tree → c ∈ tree → c ∈ succ a → [a, c].Sublist tree → P a → P c) :
    ∀ c ∈ tree, P c := by
  suffices hidx : ∀ k c, tree.idxOf c = k → c ∈ tree → P c from fun c hc => hidx _ c rfl hc
  intro k
  induction k using Nat.strongRecOn with
  | ind k ih =>
    intro c hk hc
    rcases h.parent c hc with rfl | ⟨a, ha, hca, hsub⟩
    · exact hzero
    · refine hedge a c ha hc hca hsub (ih (tree.idxOf a) ?_ a rfl ha)
      -- a node before `c` has a smaller index
      obtain ⟨l1, l2, hsplit, h1, h2⟩ := List.cons_sublist_iff.mp hsub
      rw [List.singleton_sublist] at h2
      have hne : c ∉ l1 := by
        intro hcl
        have hnd := h.nodup
        rw [hsplit] at hnd
        exact (List.disjoint_of_nodup_append hnd) hcl h2
      rw [← hk, hsplit, List.idxOf_append_of_mem h1, List.idxOf_append_of_notMem hne]
      have := List.idxOf_lt_length_of_mem h1
      omega

end FirstTree

end WinVm.Lib.Dfs
