import WinVm.Process.Machine

/-!
# What an activation writes

Every activation, of a method or of a block, writes one run of words at `sp` and nothing
below it: the header and the temporaries of a fresh frame. This module says so once, in
the closed form `Vm.enter`, and the invariants of the later modules are read off it.

Results:

* `Vm.pushFrame_eq`, `Vm.activateBlockInterp_eq`: an activation is `Vm.enter`, or it
  overflows the stack.
-/

namespace WinVm.Process

/-! ## Runs of words -/

/-- Peels one `Except` bind. -/
theorem bind_ok {α β : Type} {x : Except Fault α} {f : α → Except Fault β} {r : β}
    (h : x >>= f = .ok r) : ∃ a, x = .ok a ∧ f a = .ok r := by
  cases x with
  | error e => cases h
  | ok a => exact ⟨a, rfl, h⟩

namespace ProcessStack

variable {st : ProcessStack}

theorem write_set {vs : List Oop} {k : Nat} (v : Oop) (h : k < vs.length) :
    (st.write vs).set (st.sp + k) v = st.write (vs.set k v) := by
  simp only [write, set, mk.injEq, List.length_set, and_self, and_true]
  funext i
  by_cases hi : st.sp ≤ i
  · obtain ⟨j, rfl⟩ := Nat.exists_eq_add_of_le hi
    by_cases hj : j = k
    · subst hj
      simp [h]
    · simp [hj, Ne.symm hj]
  · have hne : i ≠ st.sp + k := by omega
    simp [hi, hne]

/-- A run written over words that were themselves just written. -/
theorem write_setRun {front mid back caps : List Oop} (h : caps.length = mid.length) :
    (st.write (front ++ mid ++ back)).setRun (st.sp + front.length) caps =
      st.write (front ++ caps ++ back) := by
  simp only [write, setRun, mk.injEq, List.length_append, h, and_self, and_true]
  funext i
  by_cases hi : st.sp + front.length ≤ i
  · obtain ⟨j, rfl⟩ := Nat.exists_eq_add_of_le hi
    have hle : st.sp ≤ st.sp + front.length + j := by omega
    have hsub : st.sp + front.length + j - st.sp = front.length + j := by omega
    simp only [hi, hle, ↓reduceIte, hsub, Nat.add_sub_cancel_left, List.append_assoc,
      List.getElem?_append_right (Nat.le_add_right _ _)]
    by_cases hj : j < caps.length
    · simp [List.getElem?_append_left hj, hj]
    · have hm : mid.length ≤ j := by omega
      simp [List.getElem?_append_right (Nat.not_lt.mp hj), List.getElem?_append_right hm, h,
        List.getElem?_eq_none (Nat.not_lt.mp hj)]
  · by_cases hs : st.sp ≤ i
    · have hlt : i - st.sp < front.length := by omega
      simp [hi, hs, List.append_assoc, List.getElem?_append_left hlt]
    · simp [hi, hs]

end ProcessStack

/-! ## Entering a frame -/

/-- The seven header words. -/
def headerWords (mid : Nat) (savedFp : Int) (savedBci : Nat) (context receiver : Oop)
    (serial : Nat) : List Oop :=
  [.method mid, .smi savedFp, .smi savedBci, context, receiver, .smi serial, .nil]

@[simp] theorem length_headerWords (mid : Nat) (savedFp : Int) (savedBci : Nat)
    (context receiver : Oop) (serial : Nat) :
    (headerWords mid savedFp savedBci context receiver serial).length = 7 := rfl

/-- The frame an activation lays out at `sp`. -/
structure Entry where
  mid : Nat
  savedFp : Int
  savedBci : Nat
  context : Oop
  receiver : Oop
  temps : List Oop

section
variable {σ : Type} {G : Guest σ}

namespace Vm

variable {vm : Vm σ}

def Entry.words (e : Entry) (serial : Nat) : List Oop :=
  headerWords e.mid e.savedFp e.savedBci e.context e.receiver serial ++ e.temps

/-- The state with the frame `e` entered and the contexts `cs` allocated for it. -/
def enter (vm : Vm σ) (e : Entry) (cs : List Context) : Vm σ :=
  { vm with
    stack := (vm.stack.write (Entry.words e (vm.nextFrameSerial % 2 ^ 32))).activateFrame vm.stack.sp
    nextFrameSerial := vm.nextFrameSerial + 1
    contexts := vm.contexts ++ cs
    ledger := ⟨vm.stack.sp, vm.nextFrameSerial⟩ :: vm.ledger }

/-- The context word and the contexts an activation of `m` starts with. -/
def contextFor (G : Guest σ) (vm : Vm σ) (mid : Nat) (enclosing : Oop) : Oop × List Context :=
  if (G.method mid).hasCtx then
    (.context vm.contexts.length, [⟨enclosing, List.replicate (G.method mid).nctx .nil⟩])
  else (enclosing, [])

/-- The frame of a method activation. -/
def methodEntry (G : Guest σ) (vm : Vm σ) (mid argc : Nat) (savedFp : Int) (savedBci : Nat) : Entry where
  mid
  savedFp
  savedBci
  context := (vm.contextFor G mid .nil).1
  receiver := vm.stack.slots (vm.stack.sp - argc - 1)
  temps := List.replicate (G.method mid).ntemps .nil

/-- The frame of a block activation. -/
def blockEntry (G : Guest σ) (vm : Vm σ) (cl : Closure) : Entry where
  mid := cl.method
  savedFp := asI64 vm.stack.fp
  savedBci := vm.regs.bci
  context := (vm.contextFor G cl.method (enclosing G cl)).1
  receiver := cl.copied.getD 0 .nil
  temps := captures G cl ++
    List.replicate ((G.method cl.method).ntemps - (captures G cl).length) .nil

/-- The state a block activation leaves: its frame entered, dispatch at its first bytecode. -/
def enterBlock (G : Guest σ) (vm : Vm σ) (cl : Closure) : Vm σ :=
  let act := vm.enter (blockEntry G vm cl) (vm.contextFor G cl.method (enclosing G cl)).2
  { act with regs := ⟨some cl.method, 0⟩, control := .dispatch cl.method 0 }

/-- The state a method activation leaves. -/
def enterMethod (G : Guest σ) (vm : Vm σ) (mid argc : Nat) (savedFp : Int) (savedBci : Nat) : Vm σ :=
  vm.enter (methodEntry G vm mid argc savedFp savedBci) (vm.contextFor G mid .nil).2

theorem pushWords_eq {mid savedBci : Nat} {savedFp : Int} {receiver : Oop}
    (hcap : vm.stack.sp ≤ stackCapacity) :
    vm.pushWords G mid savedFp savedBci receiver =
      if vm.stack.sp + 7 + (G.method mid).ntemps ≤ stackCapacity then
        .ok (vm.enter ⟨mid, savedFp, savedBci, .nil, receiver,
          List.replicate (G.method mid).ntemps .nil⟩ [])
      else .error .stackOverflow := by
  have hlen : (frameWords (G.method mid) mid savedFp savedBci receiver
      (vm.nextFrameSerial % 2 ^ 32)).length = 7 + (G.method mid).ntemps := by
    simp [frameWords]
    omega
  unfold pushWords
  rw [ProcessStack.pushAll_eq hcap, hlen, ← Nat.add_assoc]
  split
  · simp only [enter, List.append_nil]
    rfl
  · rfl

theorem enter_setContext {e : Entry} {c : Oop} :
    (vm.enter e []).withStack ((vm.enter e []).stack.setContext vm.stack.sp c) =
      vm.enter { e with context := c } [] := by
  simp only [enter, withStack, ProcessStack.setContext, frameContext, mk.injEq, and_self, and_true]
  rw [show ((vm.stack.write (Entry.words e (vm.nextFrameSerial % 2 ^ 32))).activateFrame
      vm.stack.sp).set (vm.stack.sp + 3) c = ((vm.stack.write (Entry.words e
      (vm.nextFrameSerial % 2 ^ 32))).set (vm.stack.sp + 3) c).activateFrame vm.stack.sp from rfl]
  rw [ProcessStack.write_set c (by simp [Entry.words]; omega)]
  rfl

theorem enter_allocContext {e : Entry} {encl : Oop} (h : (G.method e.mid).hasCtx = true) :
    (vm.enter e []).maybeAllocContext G e.mid vm.stack.sp encl =
      vm.enter { e with context := (vm.contextFor G e.mid encl).1 }
        (vm.contextFor G e.mid encl).2 := by
  have hset := @enter_setContext σ vm e (.context vm.contexts.length)
  simp only [enter, withStack, List.append_nil, mk.injEq, and_true] at hset
  simp only [maybeAllocContext, contextFor, h, ↓reduceIte, enter, List.append_nil, hset]

/-- `push_frame` with the context allocation that follows it. -/
theorem pushFrame_eq {mid argc savedBci : Nat} {savedFp : Int}
    (hcap : vm.stack.sp ≤ stackCapacity) :
    (do let act ← vm.pushFrame G mid argc savedFp savedBci
        .ok (act.maybeAllocContext G mid act.stack.fp .nil) : Except Fault (Vm σ)) =
      if vm.stack.sp + 7 + (G.method mid).ntemps ≤ stackCapacity then
        .ok (vm.enterMethod G mid argc savedFp savedBci)
      else .error .stackOverflow := by
  unfold pushFrame
  rw [pushWords_eq hcap]
  split
  · by_cases h : (G.method mid).hasCtx = true
    · exact congrArg Except.ok (enter_allocContext h)
    · show Except.ok (maybeAllocContext G _ _ _ _) = _
      simp only [enterMethod, methodEntry, contextFor, maybeAllocContext, h, Bool.false_eq_true,
        ↓reduceIte]
  · rfl

/-- Copying the captures over the nil temporaries of a fresh frame. -/
theorem enter_setRun {e : Entry} {cs : List Context} {caps : List Oop} {n : Nat}
    (hlen : caps.length ≤ n) (he : e.temps = List.replicate n .nil) :
    (vm.enter e cs).withStack ((vm.enter e cs).stack.setRun (vm.stack.sp + 7) caps) =
      vm.enter { e with temps := caps ++ List.replicate (n - caps.length) .nil } cs := by
  have hsplit : e.temps = List.replicate caps.length .nil ++
      List.replicate (n - caps.length) .nil := by
    rw [he, List.replicate_append_replicate, Nat.add_sub_cancel' hlen]
  have hrun := @ProcessStack.write_setRun vm.stack
    (headerWords e.mid e.savedFp e.savedBci e.context e.receiver (vm.nextFrameSerial % 2 ^ 32))
    (List.replicate caps.length .nil) (List.replicate (n - caps.length) .nil) caps (by simp)
  rw [List.append_assoc, ← hsplit, List.append_assoc, length_headerWords] at hrun
  simp only [enter, withStack, mk.injEq, and_true]
  show ((vm.stack.write _).setRun (vm.stack.sp + 7) caps).activateFrame vm.stack.sp = _
  rw [Entry.words, hrun]
  rfl

/-- The frame pushed for a block, with its context, before the captures are copied. -/
theorem enter_blockContext {cl : Closure} {e : Entry} (hm : e.mid = cl.method) :
    (if (G.method cl.method).hasCtx then
        (vm.enter e []).maybeAllocContext G cl.method vm.stack.sp (enclosing G cl)
      else (vm.enter e []).withStack
        ((vm.enter e []).stack.setContext vm.stack.sp (enclosing G cl))) =
      vm.enter { e with context := (vm.contextFor G cl.method (enclosing G cl)).1 }
        (vm.contextFor G cl.method (enclosing G cl)).2 := by
  rw [← hm]
  by_cases h : (G.method e.mid).hasCtx = true
  · simp only [h, ↓reduceIte, enter_allocContext h]
  · simp only [h, Bool.false_eq_true, ↓reduceIte, contextFor, enter_setContext]

theorem enter_slots_lt {e : Entry} {cs : List Context} {i : Nat} (h : i < vm.stack.sp) :
    (vm.enter e cs).stack.slots i = vm.stack.slots i :=
  ProcessStack.write_slots_lt vm.stack _ h

theorem enter_slots_at {e : Entry} {cs : List Context} {k : Nat} {v : Oop}
    (h : (Entry.words e (vm.nextFrameSerial % 2 ^ 32))[k]? = some v) :
    (vm.enter e cs).stack.slots (vm.stack.sp + k) = v :=
  ProcessStack.write_slots_at vm.stack _ h

theorem enter_frameMethodId {e : Entry} {cs : List Context} :
    (vm.enter e cs).stack.frameMethodId vm.stack.sp = .ok e.mid := by
  have h := @enter_slots_at σ vm e cs 0 _ rfl
  simp only [ProcessStack.frameMethodId, frameMethod, h]

/-- Copying the captures into a frame just entered. -/
theorem enter_copyCaptures {c savedBci : Nat} {cl : Closure} {savedFp : Int} {ctx receiver : Oop}
    {cs : List Context} (hcl : vm.closures[c]? = some cl)
    (hslot : vm.stack.slots (vm.stack.sp - (G.method cl.method).argc - 1) = .closure c)
    (hsp : (G.method cl.method).argc + 1 ≤ vm.stack.sp) :
    (vm.enter ⟨cl.method, savedFp, savedBci, ctx, receiver,
        List.replicate (G.method cl.method).ntemps .nil⟩ cs).copyCaptures G vm.stack.sp =
      if (captures G cl).length ≤ (G.method cl.method).ntemps then
        let act := vm.enter ⟨cl.method, savedFp, savedBci, ctx, receiver, captures G cl ++
          List.replicate ((G.method cl.method).ntemps - (captures G cl).length) .nil⟩ cs
        .ok { act with regs := ⟨some cl.method, 0⟩, control := .dispatch cl.method 0 }
      else .error .badTemp := by
  have hof : ∀ e, (vm.enter e cs).closureOf (.closure c) = .ok cl := by
    intro e
    simp only [closureOf, enter, hcl]
  unfold copyCaptures ProcessStack.receiverSlot
  rw [enter_frameMethodId]
  show (do
    let cl ← Vm.closureOf _ ((vm.enter _ cs).stack.slots
      (vm.stack.sp - (G.method cl.method).argc - 1))
    _) = _
  rw [enter_slots_lt (by omega), hslot, hof]
  show (if (captures G cl).length ≤ (G.method cl.method).ntemps then _ else _) = _
  split
  · rename_i hlen
    have hrun := @enter_setRun σ vm ⟨cl.method, savedFp, savedBci, ctx, receiver,
      List.replicate (G.method cl.method).ntemps .nil⟩ cs (captures G cl) _ hlen rfl
    simp only [← hrun]
    rfl
  · rfl

/-- A block activation: the arity check, the room, and the frame. -/
theorem activateBlockInterp_eq {c argc : Nat} {cl : Closure} (hcl : vm.closures[c]? = some cl)
    (hslot : vm.stack.slots (vm.stack.sp - argc - 1) = .closure c) (hsp : argc + 1 ≤ vm.stack.sp)
    (hcap : vm.stack.sp ≤ stackCapacity) :
    vm.activateBlockInterp G (.closure c) argc =
      if (G.method cl.method).argc ≠ argc then .ok none
      else if vm.stack.sp + 7 + (G.method cl.method).ntemps ≤ stackCapacity then
        if (captures G cl).length ≤ (G.method cl.method).ntemps then
          .ok (some (vm.enterBlock G cl))
        else .error .badTemp
      else .error .stackOverflow := by
  have hof : vm.closureOf (.closure c) = .ok cl := by
    simp only [closureOf, hcl]
  unfold activateBlockInterp
  rw [hof]
  show (if (G.method cl.method).argc ≠ argc then _ else _) = _
  split
  · rfl
  · rename_i hargc
    rw [not_ne_iff] at hargc
    subst hargc
    rw [pushWords_eq hcap]
    split
    · show (do
        let act ← Vm.copyCaptures G (if (G.method cl.method).hasCtx then _ else _) vm.stack.sp
        Except.ok (some act)) = _
      rw [enter_blockContext rfl, enter_copyCaptures hcl hslot hsp]
      split <;> rfl
    · rfl

end Vm

end

end WinVm.Process
