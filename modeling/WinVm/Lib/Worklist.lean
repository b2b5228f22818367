import Mathlib.Data.List.Nodup
import Mathlib.Data.List.Perm.Subperm
import WinVm.Lib.Graph

/-!
# Marking from a worklist

Nodes are marked when they are pushed, so each is pushed once. A popped node's successors are
pushed one after the other. With one step for each node the stack runs empty, and then the
marked nodes are those that can be reached from the roots.

Results: `Worklist.run_marks`.
-/

namespace WinVm.Lib

/-- What has been marked, and which of it is still to be scanned. -/
structure Worklist (α : Type*) where
  marked : List α
  stack : List α

namespace Worklist

variable {α : Type*} [DecidableEq α]

def empty : Worklist α := ⟨[], []⟩

def push (w : Worklist α) (b : α) : Worklist α :=
  if b ∈ w.marked then w else ⟨b :: w.marked, b :: w.stack⟩

def pushAll (w : Worklist α) (bs : List α) : Worklist α := bs.foldl push w

/-- Scan the popped nodes, at most so many. -/
def run (succ : α → List α) : Nat → Worklist α → Option (Worklist α)
  | 0, _ => none
  | n + 1, w =>
    match w.stack with
    | [] => some w
    | a :: rest => run succ n (pushAll { w with stack := rest } (succ a))

/-! ## Pushing -/

theorem pushAll_cons (w : Worklist α) (b : α) (bs : List α) :
    w.pushAll (b :: bs) = (w.push b).pushAll bs := rfl

/-- A push marks the node, keeps what was marked, and stacks what it marks. -/
theorem push_marked (w : Worklist α) (b : α) : ∃ l, (w.push b).marked = l ++ w.marked ∧
    (w.push b).stack = l ++ w.stack ∧ (∀ x ∈ l, x = b) ∧ b ∈ (w.push b).marked ∧
    ((l ++ w.marked).Nodup ↔ w.marked.Nodup) := by
  unfold push
  by_cases h : b ∈ w.marked
  · rw [if_pos h]
    exact ⟨[], rfl, rfl, fun x hx => absurd hx List.not_mem_nil, h, Iff.rfl⟩
  · rw [if_neg h]
    refine ⟨[b], rfl, rfl, fun x hx => List.mem_singleton.mp hx, List.mem_cons_self, ?_⟩
    rw [List.singleton_append, List.nodup_cons]
    exact ⟨fun hn => hn.2, fun hn => ⟨h, hn⟩⟩

theorem pushAll_marked (w : Worklist α) (bs : List α) : ∃ l, (w.pushAll bs).marked = l ++ w.marked ∧
    (w.pushAll bs).stack = l ++ w.stack ∧ (∀ x ∈ l, x ∈ bs) ∧
    (∀ b ∈ bs, b ∈ (w.pushAll bs).marked) ∧ ((l ++ w.marked).Nodup ↔ w.marked.Nodup) := by
  induction bs generalizing w with
  | nil => exact ⟨[], rfl, rfl, fun x hx => hx, fun b hb => absurd hb List.not_mem_nil, Iff.rfl⟩
  | cons b bs ih =>
    obtain ⟨l1, hm1, hs1, hl1, hb1, hn1⟩ := w.push_marked b
    obtain ⟨l2, hm2, hs2, hl2, hb2, hn2⟩ := ih (w.push b)
    rw [pushAll_cons]
    refine ⟨l2 ++ l1, ?_, ?_, ?_, ?_, ?_⟩
    · rw [hm2, hm1, List.append_assoc]
    · rw [hs2, hs1, List.append_assoc]
    · intro x hx
      rcases List.mem_append.mp hx with hx | hx
      · exact List.mem_cons_of_mem _ (hl2 x hx)
      · exact hl1 x hx ▸ List.mem_cons_self
    · intro x hx
      rcases List.mem_cons.mp hx with rfl | hx
      · rw [hm2]
        exact List.mem_append_right _ hb1
      · exact hb2 x hx
    · rw [List.append_assoc, ← hm1, hn2, hm1, hn1]

/-! ## Running -/

variable {g : Rooted α} {succ : α → List α} {nodes : List α} {w : Worklist α}

/-- What holds between two steps. -/
structure Inv (g : Rooted α) (succ : α → List α) (w : Worklist α) : Prop where
  stacked : ∀ a ∈ w.stack, a ∈ w.marked
  nodup : w.marked.Nodup
  reachable : ∀ a ∈ w.marked, g.Reachable a
  scanned : ∀ a ∈ w.marked, a ∉ w.stack → ∀ b ∈ succ a, b ∈ w.marked

theorem Inv.empty : Inv g succ Worklist.empty :=
  ⟨fun _ h => h, List.nodup_nil, fun _ h => absurd h List.not_mem_nil,
    fun _ h => absurd h List.not_mem_nil⟩

/-- Pushing reachable nodes keeps the invariant. -/
theorem Inv.pushAll (h : Inv g succ w) {bs : List α} (hbs : ∀ b ∈ bs, g.Reachable b) :
    Inv g succ (w.pushAll bs) := by
  obtain ⟨l, hm, hs, hl, -, hn⟩ := w.pushAll_marked bs
  refine ⟨?_, ?_, ?_, ?_⟩
  · intro a ha
    rw [hm]
    rw [hs] at ha
    exact (List.mem_append.mp ha).elim (fun ha => List.mem_append_left _ ha)
      fun ha => List.mem_append_right _ (h.stacked a ha)
  · rw [hm, hn]
    exact h.nodup
  · intro a ha
    rw [hm] at ha
    exact (List.mem_append.mp ha).elim (fun ha => hbs a (hl a ha)) (h.reachable a)
  · intro a ha hna b hb
    rw [hm] at ha ⊢
    rw [hs] at hna
    rcases List.mem_append.mp ha with ha | ha
    · exact absurd (List.mem_append_left _ ha) hna
    · exact List.mem_append_right _
        (h.scanned a ha (fun hmem => hna (List.mem_append_right _ hmem)) b hb)

/-- Scanning the topmost node keeps the invariant. -/
theorem Inv.scan (hsucc : ∀ a, g.Reachable a → ∀ b, b ∈ succ a ↔ g.edge a b) {a : α} {rest : List α}
    (h : Inv g succ w) (hw : w.stack = a :: rest) :
    Inv g succ (Worklist.pushAll { w with stack := rest } (succ a)) := by
  have ha : a ∈ w.marked := h.stacked a (hw ▸ List.mem_cons_self)
  obtain ⟨l, hm, hs, hl, hall, hn⟩ := Worklist.pushAll_marked { w with stack := rest } (succ a)
  refine ⟨?_, ?_, ?_, ?_⟩
  · intro x hx
    rw [hm]
    rw [hs] at hx
    exact (List.mem_append.mp hx).elim (fun hx => List.mem_append_left _ hx)
      fun hx => List.mem_append_right _ (h.stacked x (hw ▸ List.mem_cons_of_mem _ hx))
  · rw [hm, hn]
    exact h.nodup
  · intro x hx
    rw [hm] at hx
    rcases List.mem_append.mp hx with hx | hx
    · exact .edge (h.reachable a ha) ((hsucc a (h.reachable a ha) x).mp (hl x hx))
    · exact h.reachable x hx
  · intro x hx hnx b hb
    by_cases hxa : x = a
    · subst hxa
      exact hall b hb
    · rw [hm] at hx ⊢
      rw [hs] at hnx
      rcases List.mem_append.mp hx with hx | hx
      · exact absurd (List.mem_append_left _ hx) hnx
      · refine List.mem_append_right _ (h.scanned x hx (fun hmem => ?_) b hb)
        rw [hw] at hmem
        rcases List.mem_cons.mp hmem with heq | hmem
        · exact hxa heq
        · exact hnx (List.mem_append_right _ hmem)

/-- With enough steps the stack runs empty. -/
theorem Inv.run (hsucc : ∀ a, g.Reachable a → ∀ b, b ∈ succ a ↔ g.edge a b)
    (hnodes : ∀ a, g.Reachable a → a ∈ nodes)
    {n : Nat} (h : Inv g succ w) (hn : nodes.length + w.stack.length < w.marked.length + n) :
    ∃ w', w.run succ n = some w' ∧ Inv g succ w' ∧ w'.stack = [] ∧
      ∀ a ∈ w.marked, a ∈ w'.marked := by
  induction n generalizing w with
  | zero =>
    have hle := (h.nodup.subperm fun a ha => hnodes a (h.reachable a ha)).length_le
    omega
  | succ n ih =>
    unfold Worklist.run
    cases hw : w.stack with
    | nil => exact ⟨w, rfl, h, hw, fun _ ha => ha⟩
    | cons a rest =>
      obtain ⟨l, hm, hs, -, -, -⟩ := Worklist.pushAll_marked { w with stack := rest } (succ a)
      obtain ⟨w', hrun, hinv, hnil, hsub⟩ := ih (h.scan hsucc hw) (by
        rw [hm, hs, List.length_append, List.length_append]
        rw [hw, List.length_cons] at hn
        change nodes.length + (l.length + rest.length) < l.length + w.marked.length + n
        omega)
      refine ⟨w', hrun, hinv, hnil, fun x hx => hsub x ?_⟩
      rw [hm]
      exact List.mem_append_right _ hx

/-- The marked nodes are the reachable ones. -/
theorem run_marks {roots : List α} {n : Nat} (hroots : ∀ a, a ∈ roots ↔ g.root a)
    (hsucc : ∀ a, g.Reachable a → ∀ b, b ∈ succ a ↔ g.edge a b)
    (hnodes : ∀ a, g.Reachable a → a ∈ nodes) (hn : nodes.length < n) : ∃ w, (Worklist.empty.pushAll roots).run succ n = some w ∧
      w.marked.Nodup ∧ ∀ a, a ∈ w.marked ↔ g.Reachable a := by
  have hinv : Inv g succ (Worklist.empty.pushAll roots) :=
    Inv.empty.pushAll fun b hb => .root ((hroots b).mp hb)
  obtain ⟨l, hm, hs, -, hall, -⟩ := Worklist.empty.pushAll_marked roots
  obtain ⟨w, hrun, hinv', hnil, hsub⟩ := hinv.run hsucc hnodes (n := n) (by
    rw [hm, hs, List.length_append, List.length_append]
    change nodes.length + (l.length + 0) < l.length + 0 + n
    omega)
  refine ⟨w, hrun, hinv'.nodup, fun a => ⟨hinv'.reachable a, fun ha => ?_⟩⟩
  refine ha.closed (P := (· ∈ w.marked)) (fun b hb => hsub b (hall b ((hroots b).mpr hb))) ?_
  intro b c hb hbc
  exact hinv'.scanned b hb (hnil ▸ List.not_mem_nil) c
    ((hsucc b (hinv'.reachable b hb) c).mpr hbc)

end Worklist

end WinVm.Lib
