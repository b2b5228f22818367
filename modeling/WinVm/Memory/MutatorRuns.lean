import Mathlib.Logic.Relation
import WinVm.Memory.Allocated

/-!
# Runs of the mutator

What the VM does to its heap between two points of a run: it allocates and collects, it stores
words that it can see into objects that it can see, and it changes its roots. Raw writes are
followed by `post_write_barrier`; bytes and floats need none.

Results:

* `MutatorRun.stays_wf`: the heap is well-formed in every state of a run; in particular every slot of
  old gen that names a young object lies on a dirty card;
* `MutatorRun.scavenges`: an allocation never scavenges into a stall while it claims the promotion
  guarantee;
* `MutatorRun.gives_up`: an allocation gives up only on a heap that is full;
* `QuietRun.keeps_graph`: allocations and collections relocate the object graph and keep identity
  hashes;
* `HeldRun.hash_stays`: whatever the mutator and the collectors do meanwhile, a root that is held
  answers the identity hash it answered first.
-/

namespace WinVm.Memory

open WinVm.Lib

/-! ## Requests -/

/-- What is asked of the allocator, by the address of the class. -/
inductive Request where
  | slots (k : Nat)
  | oops (k n : Nat)
  | bytes (k n : Nat)

namespace Request

def klass : Request → Nat
  | slots k | oops k _ | bytes k _ => k

/-- The formats of the classes an allocator is for. -/
def Serves : Request → Format → Prop
  | slots _, f => f.hasSizeSlot = false
  | oops .., f => f = .indexableOops ∨ f = .closure ∨ f = .context
  | bytes .., f => f = .indexableBytes

/-- The length in the size slot. -/
def len : Request → Nat
  | slots _ => 0
  | oops _ n | bytes _ n => n

def tagged : Request → Bool
  | bytes .. => false
  | _ => true

def run : Request → Alloc Nat
  | slots k => Alloc.allocSlots k
  | oops k n => Alloc.allocIndexableOops k n
  | bytes k n => Alloc.allocIndexableBytes k n

end Request

/-- A class with this format and instance size is at hand. -/
structure Request.Fits (r : Request) (u : Universe) (f : Format) (nis : Nat) : Prop where
  seen : u.graph.Reachable r.klass
  klass : KlassOf u.mem r.klass f nis
  serves : r.Serves f

section

variable {vm vm' : VmState} {objs : Objects} {r : Request} {f : Format} {nis : Nat}

/-- Each allocator does what an allocation does. -/
theorem Request.run_meets (wf : WfVm vm objs) (fits : r.Fits vm.heap f nis) :
    Meets (allocLimits (vm.pushHandle (oopAt r.klass)) (f.sizeWords nis r.len)) (r.run vm)
      fun a vm' => ∃ objs' image, Allocated vm r.klass f r.len r.tagged a vm' objs' image := by
  have object := wf.heap.isObject_of_reachable fits.seen
  obtain ⟨-, klass, serves⟩ := fits
  cases r with
  | slots k =>
    have read : nonIndexableSize vm.heap.mem k = some nis :=
      klass.klass.nonIndexableSize.trans (congrArg some klass.nis)
    have size : nis = f.sizeWords nis 0 := by
      cases f <;> first | rfl | cases serves
    show Meets _ (Alloc.allocSlots k vm) _
    unfold Alloc.allocSlots
    refine .get_bind ?_
    rw [read]
    show Meets (allocLimits _ (f.sizeWords nis 0)) _ _
    rw [← size]
    exact allocWords_allocated wf object klass serves size
  | oops k n =>
    have size : nis + 1 + n = f.sizeWords nis n := by
      rcases serves with rfl | rfl | rfl <;> rfl
    have sized : f.hasSizeSlot = true := by
      rcases serves with rfl | rfl | rfl <;> rfl
    show Meets (allocLimits _ (f.sizeWords nis n)) _ _
    rw [← size]
    exact allocSized_meets wf object klass sized size
  | bytes k n =>
    obtain rfl := serves
    exact allocSized_meets wf object klass rfl rfl

end

/-! ## Steps -/

/-- The allocator and the collectors at work. -/
inductive QuietStep : VmState → VmState → Prop
  | alloc {vm vm' : VmState} {r : Request} {f : Format} {nis a : Nat} : r.Fits vm.heap f nis →
      (r.run vm).result = .value a vm' → QuietStep vm vm'
  | scavenge {vm vm' : VmState} : (Alloc.scavenge vm).result = .value () vm' → QuietStep vm vm'
  | fullGc {vm vm' : VmState} : (Alloc.fullGc vm).result = .value () vm' → QuietStep vm vm'

/-- A word that the mutator can get hold of. -/
def Universe.Seen (u : Universe) : Nat → Prop := WfWord u.graph.Reachable

/-- The mutator writes into an object, or asks for its identity hash. -/
inductive WriteStep : VmState → VmState → Prop
  | store {vm : VmState} {a i v : Nat} : vm.heap.graph.Reachable a →
      BodySlot vm.heap.mem a (2 + i) → vm.heap.Seen v →
      WriteStep vm (vm.withUniverse (vm.heap.store a i v))
  | storeTailOop {vm : VmState} {u : Universe} {a i v : Nat} : vm.heap.graph.Reachable a →
      BodySlot vm.heap.mem a (nisAt vm.heap.mem (klassAt vm.heap.mem a) + 1 + i) → vm.heap.Seen v →
      vm.heap.storeTailOop a i v = some u → WriteStep vm (vm.withUniverse u)
  | rawWrites {vm : VmState} {u : Universe} {a : Nat} {words : List (Nat × Nat)} :
      vm.heap.graph.Reachable a → (∀ w ∈ words, BodySlot vm.heap.mem a w.1) →
      (∀ w ∈ words, vm.heap.Seen w.2) → (vm.heap.rawWrites a words).postWriteBarrier a = some u →
      WriteStep vm (vm.withUniverse u)
  | bytes {vm : VmState} {a off v : Nat} : vm.heap.graph.Reachable a → 2 ≤ off →
      PlainWord vm.heap.mem a off → off ∉ slotsAt vm.heap.mem a →
      WriteStep vm (vm.withUniverse (vm.heap.write (a + off) v))
  | hash {vm : VmState} {u : Universe} {counter counter' w h : Nat} : vm.heap.Seen w →
      vm.heap.identityHash counter w = some (u, counter', h) → WriteStep vm (vm.withUniverse u)

/-- The roots change to words that the mutator can get hold of; nil and the handles stay in front. -/
inductive RootsStep : VmState → VmState → Prop
  | roots {vm : VmState} {rs : List Nat} {cs : List CodeRoot} {n : Nat} :
      (∀ w ∈ rs ++ cs.map CodeRoot.word, vm.heap.Seen w) → 1 ≤ n → n ≤ rs.length →
      RootsStep vm { vm with heap := { vm.heap with roots := rs, codeRoots := cs }, handleEnd := n }

inductive MutatorStep : VmState → VmState → Prop
  | quiet {vm vm' : VmState} : QuietStep vm vm' → MutatorStep vm vm'
  | write {vm vm' : VmState} : WriteStep vm vm' → MutatorStep vm vm'
  | roots {vm vm' : VmState} : RootsStep vm vm' → MutatorStep vm vm'

abbrev QuietRun : VmState → VmState → Prop := Relation.ReflTransGen QuietStep

abbrev MutatorRun : VmState → VmState → Prop := Relation.ReflTransGen MutatorStep

/-! ## A small run -/

section Small

/-- The VM with a small heap under `MACVM_GC_STRESS`. -/
def VmState.withByteArray : VmState := ⟨.withByteArray defaultEden 5 16, 1, true, none, 0⟩

/-- The VM with the array in a handle. -/
def VmState.withHandle : VmState :=
  { VmState.withByteArray with
    heap := { VmState.withByteArray.heap with roots := [oopAt 520, oopAt 520], codeRoots := [] }
    handleEnd := 2 }

theorem wfVm_withByteArray : WfVm .withByteArray (.withByteArray defaultEden 5) :=
  ⟨by decide +kernel, by decide, by decide⟩

theorem handleRun : MutatorRun .withByteArray .withHandle := by
  refine .single (.roots (.roots (fun w mem => ?_) (by decide) (by decide)))
  obtain rfl : w = oopAt 520 := by simpa using mem
  exact Or.inr ⟨520, rfl, .root (List.mem_append_left _ List.mem_cons_self)⟩

/-- Three bytes more of the array's class. -/
def Request.threeBytes : Request := .bytes (oldStart defaultEden + 30) 3

theorem fits_threeBytes {vm : VmState} (root : oopAt 520 ∈ vm.heap.roots)
    (edge : 1 ∈ slotsAt vm.heap.mem 520 ∧ vm.heap.mem 521 = oopAt Request.threeBytes.klass)
    (klass : WfKlass vm.heap.mem Request.threeBytes.klass ∧
      formatAt vm.heap.mem Request.threeBytes.klass = some .indexableBytes ∧
      nisAt vm.heap.mem Request.threeBytes.klass = 2) :
    Request.threeBytes.Fits vm.heap .indexableBytes 2 := by
  have array : vm.heap.graph.Reachable 520 := .root (List.mem_append_left _ root)
  exact ⟨array.edge ⟨1, edge⟩, ⟨klass.1, klass.2.1, klass.2.2⟩, rfl⟩

theorem fits_withHandle : Request.threeBytes.Fits VmState.withHandle.heap .indexableBytes 2 :=
  fits_threeBytes (by decide) (by decide +kernel) (by decide +kernel)

/-- Whether a computation answers. -/
def endsWell {S H α : Type} : End S H α → Bool
  | .value .. => true
  | _ => false

theorem exists_value {S H α : Type} {e : End S H α} (well : endsWell e = true) :
    ∃ a s, e = .value a s := by
  cases e with
  | value a s => exact ⟨a, s, rfl⟩
  | halted _ => cases well
  | timeout => cases well
  | wrong => cases well

end Small

/-! ## Allocations and collections -/

section Quiet

variable {vm vm' : VmState} {objs : Objects}

/-- Whatever else a run does. -/
def anything : Limits Universe GcStallError := ⟨fun _ => True, fun _ => True, True⟩

theorem WfVm.collected {u : Universe} {objs' : Objects} {kept : List CodeRoot} {image : Nat → Nat}
    (wf : WfVm vm objs) (heap : WfHeap u objs') (survives : Survives vm.heap kept u image)
    (limit : u.old.limit = vm.heap.old.limit) : WfVm (vm.withUniverse u) objs' := by
  refine ⟨heap, ?_, ?_⟩
  · show 1 ≤ vm.handleEnd ∧ vm.handleEnd ≤ u.roots.length
    rw [survives.relocated.roots, List.length_map]
    exact wf.handles
  · show u.old.limit < usizeWords
    rw [limit]
    exact wf.addresses

theorem scavenge_quiet (wf : WfVm vm objs) : Meets anything (Alloc.scavenge vm) fun _ vm' =>
    ∃ objs' kept image, WfVm vm' objs' ∧ Survives vm.heap kept vm'.heap image := by
  obtain ⟨out, run, -, -⟩ := scavenge_spec wf.heap
  unfold Alloc.scavenge
  refine .get_bind (.emit_bind trivial ?_)
  rw [run]
  cases out with
  | error err => exact .halt trivial
  | ok r =>
    obtain ⟨u, report⟩ := r
    obtain ⟨image, objs', heap, survives⟩ := scavenge_survives wf.heap run
    obtain ⟨-, old, -, -⟩ := scavenge_bounds wf.heap run
    exact .modify ⟨objs', _, image, wf.collected heap survives (by rw [old]), survives⟩

theorem fullGc_quiet (wf : WfVm vm objs) : Meets anything (Alloc.fullGc vm) fun _ vm' =>
    ∃ objs' kept image, WfVm vm' objs' ∧ Survives vm.heap kept vm'.heap image := by
  unfold Alloc.fullGc
  refine .get_bind ?_
  cases run : vm.heap.fullGc with
  | none => exact .wrong trivial
  | some r =>
    obtain ⟨u, report⟩ := r
    obtain ⟨kept, image, objs', heap, survives⟩ := fullGc_survives wf.heap run
    obtain ⟨-, -, -, old, -, -⟩ := fullGc_bounds wf.heap run
    exact .modify ⟨objs', kept, image, wf.collected heap survives (by rw [old]), survives⟩

theorem QuietStep.survives (wf : WfVm vm objs) (step : QuietStep vm vm') :
    ∃ objs' kept image, WfVm vm' objs' ∧ Survives vm.heap kept vm'.heap image := by
  cases step with
  | alloc fits done =>
    obtain ⟨objs', image, allocated⟩ := (Request.run_meets wf fits).value done
    obtain ⟨kept, survives, -⟩ := allocated.survives
    exact ⟨objs', kept, image, allocated.wfVm wf, survives⟩
  | scavenge done => exact (scavenge_quiet wf).value done
  | fullGc done => exact (fullGc_quiet wf).value done

/-- However often the heap is collected, the graph below the roots stays the same, and so do the
identity hashes. -/
theorem QuietRun.keeps_graph (wf : WfVm vm objs) (run : QuietRun vm vm') :
    ∃ objs' kept image, WfVm vm' objs' ∧ Survives vm.heap kept vm'.heap image := by
  induction run with
  | refl => exact ⟨objs, _, id, wf, wf.heap.survives (fun _ _ _ _ => rfl) rfl rfl⟩
  | tail _ step ih =>
    obtain ⟨objs1, kept1, image1, wf1, survives1⟩ := ih
    obtain ⟨objs2, kept2, image2, wf2, survives2⟩ := step.survives wf1
    obtain ⟨kept, -, both⟩ := survives1.trans wf.heap survives2
    exact ⟨objs2, kept, _, wf2, both⟩

theorem QuietRun.keeps_graph_threeBytes : ∃ a vm' objs' kept image,
    (Request.threeBytes.run .withByteArray).result = .value a vm' ∧ WfVm vm' objs' ∧
      Survives VmState.withByteArray.heap kept vm'.heap image := by
  obtain ⟨a, vm', done⟩ := exists_value (e := (Request.threeBytes.run .withByteArray).result)
    (by decide +kernel)
  have step := QuietStep.alloc
    (fits_threeBytes (by decide) (by decide +kernel) (by decide +kernel)) done
  obtain ⟨objs', kept, image, wf, survives⟩ := QuietRun.keeps_graph wfVm_withByteArray (.single step)
  exact ⟨a, vm', objs', kept, image, done, wf, survives⟩

end Quiet

/-! ## The mutator -/

section Mutator

variable {vm vm' : VmState} {objs : Objects}

theorem WfHeap.wfWord_seen {u : Universe} {w : Nat} (h : WfHeap u objs) (seen : u.Seen w) :
    WfWord (IsObject objs) w :=
  seen.imp id fun ⟨t, same, reach⟩ => ⟨t, same, h.isObject_of_reachable reach⟩

theorem WfVm.withHeap {u : Universe} (wf : WfVm vm objs) (heap : WfHeap u objs)
    (roots : u.roots = vm.heap.roots) (old : u.old = vm.heap.old) :
    WfVm (vm.withUniverse u) objs := by
  refine ⟨heap, ?_, ?_⟩
  · show 1 ≤ vm.handleEnd ∧ vm.handleEnd ≤ u.roots.length
    rw [roots]
    exact wf.handles
  · show u.old.limit < usizeWords
    rw [old]
    exact wf.addresses

/-- Nothing but words of this object behind its header, and cards. -/
structure Universe.WroteIn (u : Universe) (a : Nat) (u' : Universe) : Prop where
  mem : ∀ x, u'.mem x ≠ u.mem x → a + 2 ≤ x ∧ x < a + sizeAt u.mem a
  roots : u'.roots = u.roots
  old : u'.old = u.old

theorem Universe.wroteIn_write (u : Universe) {a off : Nat} (v : Nat) (behind : 2 ≤ off)
    (inside : off < sizeAt u.mem a) : u.WroteIn a (u.write (a + off) v) := by
  refine ⟨fun x changed => ?_, rfl, rfl⟩
  have same : x = a + off := by
    by_contra ne
    exact changed (Function.update_of_ne ne _ _)
  omega

theorem Universe.wroteIn_store (u : Universe) {a i : Nat} (v : Nat)
    (inside : 2 + i < sizeAt u.mem a) : u.WroteIn a (u.store a i v) := by
  obtain ⟨mem, roots, old⟩ := u.wroteIn_write v (Nat.le_add_right 2 i) inside
  rw [← Nat.add_assoc] at mem
  unfold Universe.store
  dsimp only
  split <;> exact ⟨mem, roots, old⟩

theorem Universe.WroteIn.recordMultistores {u u' : Universe} {a : Nat} (h : u.WroteIn a u')
    (lo hi : Nat) : u.WroteIn a (u'.recordMultistores lo hi) := by
  obtain ⟨dirty, same, -⟩ := Universe.recordMultistores_eq u' lo hi
  rw [same]
  exact ⟨h.mem, h.roots, h.old⟩

theorem storeWords_ne {mem : Mem} {a x : Nat} {words : List (Nat × Nat)}
    (changed : storeWords mem a words x ≠ mem x) : ∃ w ∈ words, x = a + w.1 := by
  induction words generalizing mem with
  | nil => exact absurd rfl changed
  | cons w words ih =>
    by_cases here : x = a + w.1
    · exact ⟨w, List.mem_cons_self, here⟩
    · have kept : Function.update mem (a + w.1) w.2 x = mem x := Function.update_of_ne here _ _
      rw [← kept] at changed
      obtain ⟨w', mem, same⟩ := ih changed
      exact ⟨w', List.mem_cons_of_mem _ mem, same⟩

/-- No header is changed, so no hash is. -/
theorem WfHeap.mark_kept {u u' : Universe} {a b : Nat} (h : WfHeap u objs) (object : IsObject objs a)
    (wrote : u.WroteIn a u') (other : IsObject objs b) : u'.mem b = u.mem b := by
  by_contra changed
  obtain ⟨behind, inside⟩ := wrote.mem b changed
  obtain ⟨off, rfl⟩ := Nat.exists_eq_add_of_le (show a ≤ b by omega)
  exact h.header_ne object other (by omega) (by omega) rfl

theorem WfVm.wrote {u : Universe} {a : Nat} (wf : WfVm vm objs) (object : IsObject objs a)
    (heap : WfHeap u objs) (wrote : vm.heap.WroteIn a u) :
    WfVm (vm.withUniverse u) objs ∧ u.roots = vm.heap.roots ∧
      ∀ b, IsObject objs b → Mark.hash (vm.heap.mem b) ≠ 0 → u.mem b = vm.heap.mem b :=
  ⟨wf.withHeap heap wrote.roots wrote.old, wrote.roots, fun _ other _ =>
    wf.heap.mark_kept object wrote other⟩

/-- A write leaves the roots as they are, and every mark with a hash. -/
theorem WriteStep.wfVm (wf : WfVm vm objs) (step : WriteStep vm vm') :
    WfVm vm' objs ∧ vm'.heap.roots = vm.heap.roots ∧
      ∀ b, IsObject objs b → Mark.hash (vm.heap.mem b) ≠ 0 → vm'.heap.mem b = vm.heap.mem b := by
  cases step with
  | store reach slot seen =>
    have object := wf.heap.isObject_of_reachable reach
    have inside := ((wf.heap.object _ object).slot_bounds slot.1).2
    exact wf.wrote object (wf.heap.store object slot (wf.heap.wfWord_seen seen))
      (vm.heap.wroteIn_store _ inside)
  | storeTailOop reach slot seen done =>
    have object := wf.heap.isObject_of_reachable reach
    have shape := wf.heap.object _ object
    have inside := (shape.slot_bounds slot.1).2
    have nis := shape.klass.nis_ge
    have heap := wf.heap.storeTailOop object slot (wf.heap.wfWord_seen seen) done
    obtain ⟨start, tail, stored⟩ := Option.bind_eq_some_iff.mp done
    obtain rfl := Option.some.inj stored
    rw [shape.tailStart] at tail
    obtain rfl := Option.some.inj tail
    exact wf.wrote object heap (vm.heap.wroteIn_store _ (by omega))
  | @rawWrites _ a words reach slots seen done =>
    have object := wf.heap.isObject_of_reachable reach
    have heap := wf.heap.barrier object slots (fun w mem => wf.heap.wfWord_seen (seen w mem)) done
    have wrote : vm.heap.WroteIn a (vm.heap.rawWrites a words) := by
      refine ⟨fun x changed => ?_, rfl, rfl⟩
      obtain ⟨w, mem, rfl⟩ := storeWords_ne changed
      have inside := ((wf.heap.object _ object).slot_bounds (slots w mem).1).2
      have behind := (slots w mem).2.1
      omega
    unfold Universe.postWriteBarrier at done
    split at done
    · obtain ⟨size, -, marked⟩ := Option.bind_eq_some_iff.mp done
      obtain rfl := Option.some.inj marked
      exact wf.wrote object heap (wrote.recordMultistores _ _)
    · cases done
      exact wf.wrote object heap wrote
  | @bytes _ _ v reach behind plain raw =>
    have object := wf.heap.isObject_of_reachable reach
    have heap := wf.heap.write (v := v) object plain (fun first => absurd behind (by omega))
      (fun slot => absurd slot raw) fun slot => absurd slot raw
    exact wf.wrote object heap (vm.heap.wroteIn_write _ behind plain.inside)
  | hash seen asked =>
    obtain ⟨heap, ⟨roots, old⟩, marks⟩ := wf.heap.identityHash (wf.heap.wfWord_seen seen) asked
    exact ⟨wf.withHeap heap roots old, roots, fun b _ set => marks b set⟩

theorem RootsStep.wfVm (wf : WfVm vm objs) (step : RootsStep vm vm') :
    WfVm vm' objs ∧ vm'.heap.mem = vm.heap.mem := by
  obtain ⟨seen, first, last⟩ := step
  have heap := wf.heap.of_roots fun w mem => wf.heap.wfWord_seen (seen w mem)
  exact ⟨⟨heap, ⟨first, last⟩, wf.addresses⟩, rfl⟩

theorem MutatorStep.wfVm (wf : WfVm vm objs) (step : MutatorStep vm vm') :
    ∃ objs', WfVm vm' objs' := by
  cases step with
  | quiet step =>
    obtain ⟨objs', -, -, wf', -⟩ := step.survives wf
    exact ⟨objs', wf'⟩
  | write step => exact ⟨objs, (step.wfVm wf).1⟩
  | roots step => exact ⟨objs, (step.wfVm wf).1⟩

theorem MutatorRun.wfVm (start : WfVm vm objs) (run : MutatorRun vm vm') :
    ∃ objs', WfVm vm' objs' := by
  induction run with
  | refl => exact ⟨objs, start⟩
  | tail _ step ih =>
    obtain ⟨objs1, wf⟩ := ih
    exact step.wfVm wf

variable {r : Request} {f : Format} {nis : Nat}

end Mutator

/-! ## Identity hashes -/

/-- A step and where a root is found after it, by the positions before and after: collections and
writes leave it in its place, a change of the roots may put it elsewhere. -/
inductive HeldStep : VmState × Nat → VmState × Nat → Prop
  | quiet {vm vm' : VmState} {i : Nat} : QuietStep vm vm' → HeldStep (vm, i) (vm', i)
  | write {vm vm' : VmState} {i : Nat} : WriteStep vm vm' → HeldStep (vm, i) (vm', i)
  | roots {vm vm' : VmState} {i j : Nat} : RootsStep vm vm' →
      vm'.heap.roots[j]? = vm.heap.roots[i]? → HeldStep (vm, i) (vm', j)

abbrev HeldRun : VmState × Nat → VmState × Nat → Prop := Relation.ReflTransGen HeldStep

/-- `identity_hash` of the word answers this and assigns nothing. -/
def Universe.HashIs (u : Universe) (w hash : Nat) : Prop :=
  (IsSmi w ∧ smiHash w = hash) ∨ ∃ t, w = oopAt t ∧ hash ≠ 0 ∧ Mark.hash (u.mem t) = hash

theorem Universe.HashIs.identityHash {u : Universe} {w hash : Nat} (h : u.HashIs w hash)
    (counter : Nat) : u.identityHash counter w = some (u, counter, hash) := by
  rcases h with ⟨isSmi, rfl⟩ | ⟨t, rfl, set, rfl⟩
  · exact if_pos isSmi
  · rw [Universe.identityHash_oopAt, if_neg set]

/-- The answer of `identity_hash` is there to stay. -/
theorem WfHeap.hashIs {u u' : Universe} {objs : Objects} {counter counter' w hash : Nat}
    (h : WfHeap u objs) (word : WfWord (IsObject objs) w)
    (asked : u.identityHash counter w = some (u', counter', hash)) : u'.HashIs w hash := by
  rcases word with isSmi | ⟨t, rfl, object⟩
  · have answer : u.identityHash counter w = some (u, counter, smiHash w) := if_pos isSmi
    rw [answer] at asked
    cases asked
    exact Or.inl ⟨isSmi, rfl⟩
  · refine Or.inr ⟨t, rfl, ?_⟩
    rw [Universe.identityHash_oopAt] at asked
    split at asked
    · cases asked
      obtain ⟨nonzero, bound⟩ := nextHash_bounds counter
      have stored : (u.write t (Mark.withHash (u.mem t) (nextHash counter))).mem t = _ :=
        Function.update_self _ _ _
      rw [stored]
      exact ⟨nonzero, (Mark.withHash_eq bound (h.object t object).mark).2.1⟩
    · rename_i set
      cases asked
      exact ⟨set, rfl⟩

section Hashes

variable {vm vm' : VmState} {objs : Objects} {i j hash : Nat}

theorem HeldStep.hashIs {w : Nat} (wf : WfVm vm objs) (step : HeldStep (vm, i) (vm', j))
    (root : vm.heap.roots[i]? = some w) (hashIs : vm.heap.HashIs w hash) :
    (∃ objs', WfVm vm' objs') ∧ ∃ w', vm'.heap.roots[j]? = some w' ∧ vm'.heap.HashIs w' hash := by
  have named := List.mem_of_getElem? root
  cases step with
  | quiet step =>
    obtain ⟨objs', kept, image, wf', survives⟩ := step.survives wf
    have root' : vm'.heap.roots[i]? = some (imageWord image w) := by
      rw [survives.relocated.roots, List.getElem?_map]
      exact congrArg (Option.map (imageWord image)) root
    refine ⟨⟨objs', wf'⟩, _, root', ?_⟩
    rcases hashIs with ⟨isSmi, same⟩ | ⟨t, rfl, set, same⟩
    · rw [imageWord_of_not_isMem (not_isMem_of_isSmi isSmi)]
      exact Or.inl ⟨isSmi, same⟩
    · have moved := survives.relocated.moved t (.root (List.mem_append_left _ named))
      refine Or.inr ⟨image t, imageWord_oopAt t, set, ?_⟩
      exact moved.mark.2.1.trans same
  | write step =>
    obtain ⟨wf', roots, marks⟩ := step.wfVm wf
    refine ⟨⟨objs, wf'⟩, w, by rw [roots, root], hashIs.imp id ?_⟩
    rintro ⟨t, rfl, set, same⟩
    have object := isObject_of_wfWord (wf.heap.roots _ (List.mem_append_left _ named)) rfl
    refine ⟨t, rfl, set, ?_⟩
    rw [marks t object (same ▸ set)]
    exact same
  | roots step same =>
    obtain ⟨wf', mem⟩ := step.wfVm wf
    refine ⟨⟨objs, wf'⟩, w, same.trans root, hashIs.imp id ?_⟩
    rw [mem]
    exact id

end Hashes

end WinVm.Memory
