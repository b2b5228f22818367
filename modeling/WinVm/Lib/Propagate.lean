import Mathlib.Data.List.Basic

/-!
# Propagating labels along the edges of a graph

A node gets its label when an edge first brings it one, and is scanned once. An edge to a
node that has a label must bring the same label. A labelling that agrees with all edges is
what such a run finds: no edge disagrees, the run ends within one step for each node, and
the labelled nodes are closed under successors.

Results: `Propagation.run_labels`.
-/

namespace WinVm.Lib

/-- The labels so far, the labelled nodes still to be scanned, and what the scans gathered. -/
structure Propagation (L A : Type) where
  labels : List (Option L)
  worklist : List Nat
  gathered : A

namespace Propagation

variable {L A : Type} [DecidableEq L]

def record (s : Propagation L A) (b : Nat) (l : L) : Option (Propagation L A) :=
  match s.labels[b]? with
  | none => none
  | some (some l') => if l' = l then some s else none
  | some none => some { s with labels := s.labels.set b (some l), worklist := b :: s.worklist }

def recordAll (s : Propagation L A) : List (Nat × L) → Option (Propagation L A)
  | [] => some s
  | (b, l) :: edges => (s.record b l).bind fun s => s.recordAll edges

/-- Scan the node listed last, at most so often. -/
def run (visit : Nat → L → A → Option (A × List (Nat × L))) :
    Nat → Propagation L A → Option (Propagation L A)
  | 0, _ => none
  | n + 1, s =>
    match s.worklist with
    | [] => some s
    | b :: rest =>
      match s.labels[b]? with
      | some (some l) =>
        match visit b l s.gathered with
        | none => none
        | some (a, edges) =>
          ({ s with worklist := rest, gathered := a }.recordAll edges).bind (run visit n)
      | _ => none

/-- The run from one labelled node. -/
def start (size : Nat) (b : Nat) (l : L) (a : A) : Propagation L A :=
  ⟨(List.replicate size none).set b (some l), [b], a⟩

/-- The nodes that are listed or have no label yet. -/
def todo (s : Propagation L A) : Nat := s.worklist.length + s.labels.countP Option.isNone

/-! ## Recording edges -/

/-- `s'` has the labels of `s` and those it lists in addition, which agree with `D`. -/
structure Extends (D : Nat → L) (s s' : Propagation L A) : Prop where
  length : s'.labels.length = s.labels.length
  gathered : s'.gathered = s.gathered
  todo : s'.todo = s.todo
  kept : ∀ (b : Nat) (l : L), s.labels[b]? = some (some l) → s'.labels[b]? = some (some l)
  fresh : ∀ (b : Nat) (l : L), s'.labels[b]? = some (some l) →
    s.labels[b]? = some (some l) ∨ (b ∈ s'.worklist ∧ l = D b)
  listed : ∀ b ∈ s.worklist, b ∈ s'.worklist
  labelled : ∀ b ∈ s'.worklist, b ∈ s.worklist ∨ s'.labels[b]? = some (some (D b))

variable {D : Nat → L} {s s' s'' : Propagation L A}

omit [DecidableEq L] in
theorem Extends.refl (s : Propagation L A) : Extends D s s where
  length := rfl
  gathered := rfl
  todo := rfl
  kept _ _ at_ := at_
  fresh _ _ at_ := .inl at_
  listed _ mem := mem
  labelled _ mem := .inl mem

omit [DecidableEq L] in
theorem Extends.trans (first : Extends D s s') (second : Extends D s' s'') : Extends D s s'' where
  length := second.length.trans first.length
  gathered := second.gathered.trans first.gathered
  todo := second.todo.trans first.todo
  kept b l at_ := second.kept b l (first.kept b l at_)
  fresh b l at_ := by
    rcases second.fresh b l at_ with at_ | new
    · exact (first.fresh b l at_).imp id fun ⟨mem, is⟩ => ⟨second.listed b mem, is⟩
    · exact .inr new
  listed b mem := second.listed b (first.listed b mem)
  labelled b mem := by
    rcases second.labelled b mem with mem | at_
    · exact (first.labelled b mem).imp id (second.kept b _)
    · exact .inr at_

theorem record_spec {b : Nat} (inside : b < s.labels.length)
    (agrees : ∀ l, s.labels[b]? = some (some l) → l = D b) :
    ∃ s', s.record b (D b) = some s' ∧ Extends D s s' ∧ s'.labels[b]? = some (some (D b)) := by
  unfold record
  obtain ⟨o, at_⟩ : ∃ o, s.labels[b]? = some o := ⟨_, List.getElem?_eq_getElem inside⟩
  cases o with
  | some l =>
    obtain rfl := agrees l at_
    refine ⟨s, ?_, Extends.refl s, at_⟩
    rw [at_]
    exact if_pos rfl
  | none =>
    have elem : s.labels[b] = none := by
      rw [List.getElem?_eq_getElem inside] at at_
      exact Option.some.inj at_
    have own : (s.labels.set b (some (D b)))[b]? = some (some (D b)) := List.getElem?_set_self inside
    have other : ∀ c, c ≠ b → (s.labels.set b (some (D b)))[c]? = s.labels[c]? :=
      fun c ne => List.getElem?_set_ne (Ne.symm ne)
    rw [at_]
    refine ⟨_, rfl, ?_, own⟩
    constructor
    · exact List.length_set
    · rfl
    · have one : 0 < s.labels.countP Option.isNone :=
        List.countP_pos_iff.mpr ⟨none, elem ▸ List.getElem_mem inside, rfl⟩
      show (s.worklist.length + 1) + (s.labels.set b (some (D b))).countP Option.isNone = s.todo
      rw [List.countP_set inside, elem, todo]
      show s.worklist.length + 1 + (s.labels.countP Option.isNone - 1 + 0) = _
      omega
    · intro c l lab
      rcases eq_or_ne c b with rfl | ne
      · rw [at_] at lab
        cases lab
      · exact (other c ne).trans lab
    · intro c l lab
      rcases eq_or_ne c b with rfl | ne
      · rw [own] at lab
        exact .inr ⟨List.mem_cons_self, (Option.some.inj (Option.some.inj lab)).symm⟩
      · exact .inl ((other c ne).symm.trans lab)
    · exact fun c mem => List.mem_cons_of_mem _ mem
    · intro c mem
      rcases List.mem_cons.mp mem with rfl | mem
      · exact .inr own
      · exact .inl mem

theorem recordAll_spec (cs : List Nat) (inside : ∀ c ∈ cs, c < s.labels.length)
    (agrees : ∀ (b : Nat) (l : L), s.labels[b]? = some (some l) → l = D b) :
    ∃ s', s.recordAll (cs.map fun c => (c, D c)) = some s' ∧ Extends D s s' ∧
      ∀ c ∈ cs, s'.labels[c]? = some (some (D c)) := by
  induction cs generalizing s with
  | nil => exact ⟨s, rfl, Extends.refl s, fun c mem => by cases mem⟩
  | cons c cs ih =>
    obtain ⟨s₁, recorded, first, at_⟩ := record_spec (inside c List.mem_cons_self) (agrees c)
    obtain ⟨s₂, recordedAll, second, all⟩ := ih (s := s₁)
      (fun d mem => by
        rw [first.length]
        exact inside d (List.mem_cons_of_mem _ mem))
      (fun b l lab => (first.fresh b l lab).elim (agrees b l) And.right)
    refine ⟨s₂, ?_, first.trans second, fun d mem => ?_⟩
    · rw [List.map_cons, recordAll, recorded]
      exact recordedAll
    · rcases List.mem_cons.mp mem with rfl | mem
      · exact second.kept _ _ at_
      · exact all d mem

/-! ## Running -/

/-- A scan of a node at its label succeeds and brings its successors their labels. What `seen`
says of a node once it is scanned holds from then on. -/
structure Agrees (visit : Nat → L → A → Option (A × List (Nat × L))) (D : Nat → L)
    (succ : Nat → List Nat) (seen : Nat → A → Prop) (size : Nat) : Prop where
  visits : ∀ b < size, ∀ a, ∃ a', visit b (D b) a = some (a', (succ b).map fun c => (c, D c)) ∧
    seen b a' ∧ ∀ c, seen c a → seen c a'
  inside : ∀ b < size, ∀ c ∈ succ b, c < size

/-- What holds between two scans. -/
structure Inv (D : Nat → L) (succ : Nat → List Nat) (seen : Nat → A → Prop) (size : Nat)
    (s : Propagation L A) : Prop where
  length : s.labels.length = size
  agrees : ∀ (b : Nat) (l : L), s.labels[b]? = some (some l) → l = D b
  listed : ∀ b ∈ s.worklist, s.labels[b]? = some (some (D b))
  scanned : ∀ (b : Nat) (l : L), s.labels[b]? = some (some l) → b ∈ s.worklist ∨
    (seen b s.gathered ∧ ∀ c ∈ succ b, s.labels[c]? = some (some (D c)))

variable {visit : Nat → L → A → Option (A × List (Nat × L))} {succ : Nat → List Nat}
  {seen : Nat → A → Prop} {size : Nat}

/-- One scan. -/
theorem Inv.scan (agrees : Agrees visit D succ seen size) (inv : Inv D succ seen size s) {b : Nat}
    {rest : List Nat} (list : s.worklist = b :: rest) :
    ∃ a s', visit b (D b) s.gathered = some (a, (succ b).map fun c => (c, D c)) ∧
      ({ s with worklist := rest, gathered := a }.recordAll ((succ b).map fun c => (c, D c)) =
        some s') ∧
      Inv D succ seen size s' ∧ s'.todo + 1 = s.todo ∧
      ∀ (c : Nat) (l : L), s.labels[c]? = some (some l) → s'.labels[c]? = some (some l) := by
  have lab := inv.listed b (list ▸ List.mem_cons_self)
  have inside : b < size := inv.length ▸ (List.getElem?_eq_some_iff.mp lab).1
  obtain ⟨a, visited, seenB, later⟩ := agrees.visits b inside s.gathered
  obtain ⟨s', recorded, ext, succs⟩ :=
    recordAll_spec (s := { s with worklist := rest, gathered := a }) (succ b)
      (fun c mem => inv.length.symm ▸ agrees.inside b inside c mem) inv.agrees
  have gathered : s'.gathered = a := ext.gathered
  refine ⟨a, s', visited, recorded, ?_, ?_, ext.kept⟩
  · refine ⟨ext.length.trans inv.length, fun c l at_ => ?_, fun c mem => ?_, fun c l at_ => ?_⟩
    · exact (ext.fresh c l at_).elim (inv.agrees c l) And.right
    · rcases ext.labelled c mem with mem | at_
      · exact ext.kept _ _ (inv.listed c (list ▸ List.mem_cons_of_mem _ mem))
      · exact at_
    · rcases ext.fresh c l at_ with old | ⟨mem, -⟩
      · rcases inv.scanned c l old with mem | ⟨seenC, succsC⟩
        · rcases List.mem_cons.mp (list ▸ mem) with rfl | mem
          · exact .inr ⟨gathered ▸ seenB, succs⟩
          · exact .inl (ext.listed c mem)
        · exact .inr ⟨gathered ▸ later c seenC, fun d mem => ext.kept _ _ (succsC d mem)⟩
      · exact .inl mem
  · have len : s.worklist.length = rest.length + 1 := by rw [list, List.length_cons]
    rw [ext.todo, todo, todo, len]
    show rest.length + s.labels.countP Option.isNone + 1 = _
    omega

/-- With a step for each node that is listed or unlabelled the run ends. -/
theorem Inv.run (agrees : Agrees visit D succ seen size) (inv : Inv D succ seen size s) {n : Nat}
    (enough : s.todo < n) :
    ∃ s', s.run visit n = some s' ∧ Inv D succ seen size s' ∧ s'.worklist = [] ∧
      ∀ (c : Nat) (l : L), s.labels[c]? = some (some l) → s'.labels[c]? = some (some l) := by
  induction n generalizing s with
  | zero => exact absurd enough (Nat.not_lt_zero _)
  | succ n ih =>
    rw [Propagation.run]
    cases list : s.worklist with
    | nil => exact ⟨s, rfl, inv, list, fun c l at_ => at_⟩
    | cons b rest =>
      obtain ⟨a, s₁, visited, recorded, inv₁, todo₁, kept₁⟩ := inv.scan agrees list
      obtain ⟨s₂, ran, inv₂, done, kept₂⟩ := ih inv₁ (by omega)
      refine ⟨s₂, ?_, inv₂, done, fun c l at_ => kept₂ c l (kept₁ c l at_)⟩
      simp only [inv.listed b (list ▸ List.mem_cons_self), visited, recorded, Option.bind_some]
      exact ran

/-- The run from one node ends, agrees with the labelling, and its labelled nodes have been
scanned and are closed under successors. -/
theorem run_labels (agrees : Agrees visit D succ seen size) {b : Nat} (inside : b < size) (a : A) :
    ∃ s', (start size b (D b) a).run visit (size + 1) = some s' ∧ s'.labels.length = size ∧
      (∀ (c : Nat) (l : L), s'.labels[c]? = some (some l) → l = D c ∧ seen c s'.gathered ∧
        ∀ d ∈ succ c, s'.labels[d]? = some (some (D d))) ∧
      s'.labels[b]? = some (some (D b)) := by
  have length : (List.replicate size (none : Option L)).length = size := List.length_replicate
  have own : (start size b (D b) a).labels[b]? = some (some (D b)) :=
    List.getElem?_set_self (length.symm ▸ inside)
  have only : ∀ (c : Nat) (l : L), (start size b (D b) a).labels[c]? = some (some l) → c = b ∧ l = D c := by
    intro c l at_
    rcases eq_or_ne c b with rfl | ne
    · rw [own] at at_
      exact ⟨rfl, (Option.some.inj (Option.some.inj at_)).symm⟩
    · have at_ : (List.replicate size (none : Option L))[c]? = some (some l) :=
        (List.getElem?_set_ne (Ne.symm ne)).symm.trans at_
      rw [List.getElem?_replicate] at at_
      split at at_ <;> cases at_
  have inv : Inv D succ seen size (start size b (D b) a) := by
    refine ⟨List.length_set.trans length, fun c l at_ => (only c l at_).2, fun c mem => ?_,
      fun c l at_ => .inl ?_⟩
    · rw [List.mem_singleton.mp mem]
      exact own
    · rw [(only c l at_).1]
      exact List.mem_singleton_self b
  have enough : (start size b (D b) a).todo < size + 1 := by
    have unlabelled : ((List.replicate size (none : Option L)).set b (some (D b))).countP
        Option.isNone = size - 1 := by
      rw [List.countP_set (length.symm ▸ inside)]
      simp [List.countP_replicate]
    show 1 + ((List.replicate size (none : Option L)).set b (some (D b))).countP Option.isNone < _
    omega
  obtain ⟨s', ran, inv', done, kept⟩ := inv.run agrees enough
  refine ⟨s', ran, inv'.length, fun c l at_ => ?_, kept b _ own⟩
  obtain ⟨seenC, succsC⟩ := (inv'.scanned c l at_).resolve_left (by simp [done])
  exact ⟨inv'.agrees c l at_, seenC, succsC⟩

end Propagation

end WinVm.Lib
