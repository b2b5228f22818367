import WinVm.Bytecode.Counters
import WinVm.Debugger.NeverMissed

/-!
# What breakpoints and pins leave behind

The debugger's two tables over the counters words themselves: `set_breakpoint`,
`clear_breakpoint`, `pin_method` and `unpin_method`, between the invocation and loop counters and the
compiles that are rejected. Each row of either table remembers whether it was the one that kept its
method from being compiled.

`Ledger` is a ghost: what stands on a method, whether the method could be compiled before the first
of it, and whether a compile of it has been rejected since. `Kept` says what the flags owe to the
ledger. They lose it when a whole-word write strikes a method with a breakpoint, when the row that
goes last is not the one that was set first, and when two methods share a hash.

Results:

* `kept_step_iff`: a step from a state that is `Kept` leads to one exactly if it is `Harmless`.
* `bookkeeping_kept_iff`: so every state of a run is `Kept` exactly if every step is `Harmless`.
* `Reads.run_commands`: the commands of `Debugged` do to its records what they do to the words.
-/

namespace WinVm.Debugger

open WinVm.Bytecode

/-! ## State -/

/-- A row of `breakpoints`. -/
structure Entry extends Breakpoint where
  holder : String
  bci : Nat
deriving DecidableEq, Repr

/-- The debugger's tables and the counters words; `holderName` and `selectorName` are the texts the
debugger shows for a method. -/
structure Book (M : Type) where
  identityHash : M → Nat
  holderName : M → String
  selectorName : M → String
  bytecodeLen : M → Nat
  boundary : M → Nat → Bool
  word : M → CountersWord
  active : Bool
  breakpoints : List ((Nat × Nat) × Entry)
  pinned : List (Nat × Bool)

namespace Book

variable {M : Type} [DecidableEq M] (b : Book M) (m : M) (bci : Nat)

def write (w : CountersWord → CountersWord) : Book M :=
  { b with word := Function.update b.word m (w (b.word m)) }

def key : Nat × Nat := (b.identityHash m, bci)

/-! ## Commands -/

def setBreakpoint : Except String (String × Book M) :=
  if b.boundary m bci then
    let restoreCompile := !(b.word m).compileDisabled
    let entry : Entry := ⟨⟨b.selectorName m, restoreCompile⟩, b.holderName m, bci⟩
    let b := { b with breakpoints := insertRow (b.key m bci) entry b.breakpoints }
    let b := { b.write m .setHasBp with active := true }
    -- the second write undoes the first, hence the third
    let b := b.write m fun _ => .setCompileDisabled
    let b := b.write m .setHasBp
    .ok (s!"breakpoint set: {b.holderName m}>>{b.selectorName m} @{bci}", b)
  else
    .error s!"bci {bci} is not an instruction boundary in this method (len {b.bytecodeLen m})"

/-- Whether no row of the method's hash is left once the one at `bci` is gone. -/
def lastRow : Bool :=
  !(removeRow (b.key m bci) b.breakpoints).any fun r => decide (r.1.1 = b.identityHash m)

def clearBreakpoint : Except String (String × Book M) :=
  match findRow (b.key m bci) b.breakpoints with
  | none => .error s!"no breakpoint at bci {bci}"
  | some entry =>
    let cleared := { b with breakpoints := removeRow (b.key m bci) b.breakpoints }
    let cleared :=
      if b.lastRow m bci then
        if entry.restoreCompile then (cleared.write m .clearHasBp).write m .clearCompileDisabled
        else cleared.write m .clearHasBp
      else cleared
    .ok (s!"cleared {entry.holder}>>{entry.selector} @{entry.bci}", cleared)

def pinMethod : Except String (String × Book M) :=
  let restoreCompile := !(b.word m).compileDisabled
  let b := { b with pinned := insertRow (b.identityHash m) restoreCompile b.pinned }
  let b := b.write m fun _ => .setCompileDisabled
  .ok (s!"pinned to tier-0: {b.holderName m}>>{b.selectorName m}", b)

def unpinMethod : Except String (String × Book M) :=
  match findRow (b.identityHash m) b.pinned with
  | none => .error s!"{b.selectorName m} was not pinned"
  | some restoreCompile =>
    let unpinned := { b with pinned := removeRow (b.identityHash m) b.pinned }
    if restoreCompile then
      .ok (s!"unpinned: {b.selectorName m}", unpinned.write m .clearCompileDisabled)
    else .ok (s!"unpinned: {b.selectorName m} (was already ineligible)", unpinned)

end Book

/-- What the debugger, the interpreter and the driver do to the counters words. `rejectCompile` is
the write of `compile_method_full` and `activate_block` for a method that cannot be compiled. -/
inductive Cmd (M : Type) where
  | setBreakpoint (m : M) (bci : Nat)
  | clearBreakpoint (m : M) (bci : Nat)
  | pinMethod (m : M)
  | unpinMethod (m : M)
  | bumpInvocation (m : M)
  | saturateInvocation (m : M) (n : Int)
  | bumpLoopCounter (m : M)
  | resetLoopCounter (m : M)
  | rejectCompile (m : M)

/-- The state after a command; a failed one has changed nothing. -/
def Book.exec {M : Type} [DecidableEq M] (b : Book M) : Cmd M → Except String (String × Book M)
  | .setBreakpoint m bci => b.setBreakpoint m bci
  | .clearBreakpoint m bci => b.clearBreakpoint m bci
  | .pinMethod m => b.pinMethod m
  | .unpinMethod m => b.unpinMethod m
  | .bumpInvocation m => .ok ("", b.write m fun c => c.bumpInvocation.2)
  | .saturateInvocation m n => .ok ("", b.write m fun c => (c.saturateInvocation n).2)
  | .bumpLoopCounter m => .ok ("", b.write m fun c => c.bumpLoopCounter.2)
  | .resetLoopCounter m => .ok ("", b.write m .resetLoopCounter)
  | .rejectCompile m => .ok ("", b.write m fun _ => .setCompileDisabled)

/-! ## The ledger -/

/-- What stands on the methods. `compilable m` says whether `m` could be compiled before the first
of the breakpoints and pins it has or had last; `rejected m`, whether a compile of it was rejected
since. -/
structure Ledger (M : Type) where
  standing : List (M × Nat)
  pins : List M
  compilable : M → Bool
  rejected : M → Bool

namespace Ledger

variable {M : Type} [DecidableEq M] (l : Ledger M) (m : M)

/-- Some uncleared breakpoint was set on `m`. -/
def Stands : Prop := ∃ p ∈ l.standing, p.1 = m

def Held : Prop := l.Stands m ∨ m ∈ l.pins

instance : Decidable (l.Stands m) := inferInstanceAs (Decidable (∃ p ∈ l.standing, p.1 = m))

instance : Decidable (l.Held m) := inferInstanceAs (Decidable (_ ∨ _))

/-- `m` could be compiled before, and no compile of it was rejected since. -/
def Due : Prop := l.compilable m = true ∧ l.rejected m = false

instance : Decidable (l.Due m) := inferInstanceAs (Decidable (_ ∧ _))

/-- The first breakpoint or pin on `m` opens its account. -/
def hold (w : CountersWord) : Ledger M :=
  if l.Held m then l
  else { l with
    compilable := Function.update l.compilable m !w.compileDisabled
    rejected := Function.update l.rejected m false }

/-- What a command that succeeds in `b` enters. -/
def enter (b : Book M) : Cmd M → Ledger M
  | .setBreakpoint m bci =>
    let l := l.hold m (b.word m)
    { l with standing := (m, bci) :: l.standing }
  | .clearBreakpoint m bci =>
    { l with standing := l.standing.filter fun p => decide (p ≠ (m, bci)) }
  | .pinMethod m =>
    let l := l.hold m (b.word m)
    { l with pins := m :: l.pins }
  | .unpinMethod m => { l with pins := l.pins.filter fun p => decide (p ≠ m) }
  | .rejectCompile m => { l with rejected := Function.update l.rejected m true }
  | _ => l

end Ledger

/-- The books with their ledger. -/
structure Session (M : Type) where
  book : Book M
  ledger : Ledger M

namespace Session

variable {M : Type} [DecidableEq M]

def step (s : Session M) (c : Cmd M) : Session M :=
  match s.book.exec c with
  | .ok (_, b) => ⟨b, s.ledger.enter s.book c⟩
  | .error _ => s

def run (s : Session M) (cs : List (Cmd M)) : Session M := cs.foldl step s

/-- A VM nobody has debugged yet. -/
def start (b : Book M) : Session M :=
  ⟨{ b with breakpoints := [], pinned := [], active := false },
    ⟨[], [], fun m => !(b.word m).compileDisabled, fun _ => false⟩⟩

/-! ## What the flags owe to the ledger -/

/-- `has_bp` says whether a breakpoint stands, `compile_disabled` holds while anything does, and
afterwards says whether the method was compilable before and stayed so. -/
structure KeptAt (s : Session M) (m : M) : Prop where
  hasBp : (s.book.word m).hasBp = true ↔ s.ledger.Stands m
  disabled : s.ledger.Held m → (s.book.word m).compileDisabled = true
  restored : ¬ s.ledger.Held m → ((s.book.word m).compileDisabled = false ↔ s.ledger.Due m)

def Kept (s : Session M) : Prop := ∀ m, s.KeptAt m

/-- When a command on `m` takes a row with this restore flag: where something else still stands on
`m` the flag is off, and where `m` goes free it says what is due. -/
def Returns (s : Session M) (m : M) (else_ own : Prop) (restoreCompile : Bool) : Prop :=
  if restoreCompile then ¬ else_ ∧ s.ledger.Due m
  else own → ¬ else_ → ¬ s.ledger.Due m

instance (s : Session M) (m : M) (else_ own : Prop) [Decidable else_] [Decidable own] (r : Bool) :
    Decidable (s.Returns m else_ own r) :=
  inferInstanceAs (Decidable (if r then _ else _))

/-- The rows of the hash run out together with the breakpoints of the method, and the row that goes
last says what is due. -/
def HarmlessClear (s : Session M) (m : M) (bci : Nat) : Option Entry → Prop
  | none => True
  | some entry =>
    (s.ledger.Stands m →
      (s.book.lastRow m bci = true ↔ ∀ p ∈ s.ledger.standing, p.1 = m → p.2 = bci)) ∧
    (s.book.lastRow m bci = true →
      s.Returns m (m ∈ s.ledger.pins) ((m, bci) ∈ s.ledger.standing) entry.restoreCompile)

def HarmlessUnpin (s : Session M) (m : M) : Option Bool → Prop
  | none => True
  | some restoreCompile => s.Returns m (s.ledger.Stands m) (m ∈ s.ledger.pins) restoreCompile

/-- The steps after which the flags are right: no whole-word write strikes a method with a
breakpoint, and a row that is taken is one whose flag fits. -/
def Harmless (s : Session M) : Cmd M → Prop
  | .pinMethod m => ¬ s.ledger.Stands m
  | .rejectCompile m => ¬ s.ledger.Stands m
  | .clearBreakpoint m bci =>
    s.HarmlessClear m bci (findRow (s.book.key m bci) s.book.breakpoints)
  | .unpinMethod m => s.HarmlessUnpin m (findRow (s.book.identityHash m) s.book.pinned)
  | _ => True

instance (s : Session M) (m : M) (bci : Nat) : (row : Option Entry) →
    Decidable (s.HarmlessClear m bci row)
  | none => inferInstanceAs (Decidable True)
  | some _ => inferInstanceAs (Decidable ((_ → _) ∧ (_ → _)))

instance (s : Session M) (m : M) : (row : Option Bool) → Decidable (s.HarmlessUnpin m row)
  | none => inferInstanceAs (Decidable True)
  | some _ => inferInstanceAs (Decidable (s.Returns ..))

instance (s : Session M) : (c : Cmd M) → Decidable (s.Harmless c)
  | .pinMethod _ | .rejectCompile _ => inferInstanceAs (Decidable (¬ _))
  | .clearBreakpoint .. => inferInstanceAs (Decidable (s.HarmlessClear ..))
  | .unpinMethod _ => inferInstanceAs (Decidable (s.HarmlessUnpin ..))
  | .setBreakpoint .. | .bumpInvocation _ | .saturateInvocation .. | .bumpLoopCounter _
  | .resetLoopCounter _ => inferInstanceAs (Decidable True)

/-- Every step of the run is harmless where it is taken. -/
def HarmlessRun (s : Session M) : List (Cmd M) → Prop
  | [] => True
  | c :: cs => s.Harmless c ∧ HarmlessRun (s.step c) cs

instance decidableHarmlessRun (s : Session M) : (cs : List (Cmd M)) → Decidable (s.HarmlessRun cs)
  | [] => inferInstanceAs (Decidable True)
  | c :: cs =>
    have := decidableHarmlessRun (s.step c) cs
    inferInstanceAs (Decidable (_ ∧ _))

end Session

/-! ## What a command leaves alone -/

section
variable {M : Type} [DecidableEq M]

namespace Book

variable (b : Book M) (m m' : M) (w : CountersWord → CountersWord)

@[simp] theorem write_word_self : (b.write m w).word m = w (b.word m) := Function.update_self ..

theorem write_word_ne (ne : m' ≠ m) : (b.write m w).word m' = b.word m' :=
  Function.update_of_ne ne ..

end Book

/-- The method a command is about. -/
def Cmd.on : Cmd M → M
  | .setBreakpoint m _ | .clearBreakpoint m _ | .pinMethod m | .unpinMethod m | .bumpInvocation m
  | .saturateInvocation m _ | .bumpLoopCounter m | .resetLoopCounter m | .rejectCompile m => m

theorem Book.exec_word_ne {b b' : Book M} {c : Cmd M} {text : String} {m : M} (ne : m ≠ c.on)
    (ok : b.exec c = .ok (text, b')) : b'.word m = b.word m := by
  cases c with
  | setBreakpoint m' bci =>
    simp only [Book.exec, Book.setBreakpoint] at ok
    split at ok
    · cases ok
      simp only [Book.write_word_ne _ m' m _ ne]
    · cases ok
  | clearBreakpoint m' bci =>
    simp only [Book.exec, Book.clearBreakpoint] at ok
    split at ok
    · cases ok
    · cases ok
      split
      · split <;> simp only [Book.write_word_ne _ m' m _ ne]
      · rfl
  | unpinMethod m' =>
    simp only [Book.exec, Book.unpinMethod] at ok
    split at ok
    · cases ok
    · split at ok
      · cases ok
        exact Book.write_word_ne _ m' m _ ne
      · cases ok
        rfl
  | pinMethod m' | bumpInvocation m' | saturateInvocation m' n | bumpLoopCounter m'
  | resetLoopCounter m' | rejectCompile m' =>
    cases ok
    exact Book.write_word_ne _ m' m _ ne

namespace Ledger

variable (l : Ledger M) (w : CountersWord) {m m' : M} {bci : Nat}

@[simp] theorem hold_standing : (l.hold m w).standing = l.standing := by
  unfold hold; split <;> rfl

@[simp] theorem hold_pins : (l.hold m w).pins = l.pins := by
  unfold hold; split <;> rfl

theorem hold_compilable_ne (ne : m' ≠ m) :
    (l.hold m w).compilable m' = l.compilable m' := by
  unfold hold
  split
  · rfl
  · exact Function.update_of_ne ne ..

theorem hold_rejected_ne (ne : m' ≠ m) : (l.hold m w).rejected m' = l.rejected m' := by
  unfold hold
  split
  · rfl
  · exact Function.update_of_ne ne ..

theorem enter_standing_ne (b : Book M) {c : Cmd M} (ne : m ≠ c.on) :
    (l.enter b c).Stands m ↔ l.Stands m := by
  cases c with
  | setBreakpoint m' bci =>
    have other : m' ≠ m := fun same => ne same.symm
    simp [Stands, enter, other]
  | clearBreakpoint m' bci =>
    have other : m ≠ m' := ne
    simp [Stands, enter, other]
  | pinMethod m' => simp [Stands, enter]
  | _ => exact Iff.rfl

theorem mem_enter_pins_ne (b : Book M) {c : Cmd M} (ne : m ≠ c.on) :
    m ∈ (l.enter b c).pins ↔ m ∈ l.pins := by
  cases c with
  | setBreakpoint m' bci => simp [enter]
  | pinMethod m' => simp [enter, show m ≠ m' from ne]
  | unpinMethod m' => simp [enter, show m ≠ m' from ne]
  | _ => exact Iff.rfl

theorem enter_due_ne (b : Book M) {c : Cmd M} (ne : m ≠ c.on) :
    (l.enter b c).Due m ↔ l.Due m := by
  cases c with
  | setBreakpoint m' bci | pinMethod m' =>
    have other : m ≠ m' := ne
    simp only [Due, enter, hold_compilable_ne l _ other, hold_rejected_ne l _ other]
  | rejectCompile m' =>
    simp only [Due, enter, Function.update_of_ne (show m ≠ m' from ne)]
  | _ => exact Iff.rfl

end Ledger

namespace Session

variable {s s' : Session M} {m : M} {c : Cmd M} {bci : Nat}

theorem step_of_ok {text : String} {b : Book M} (ok : s.book.exec c = .ok (text, b)) :
    s.step c = ⟨b, s.ledger.enter s.book c⟩ := by
  simp only [step, ok]

theorem step_of_error {text : String} (error : s.book.exec c = .error text) : s.step c = s := by
  simp only [step, error]

omit [DecidableEq M] in
/-- `KeptAt` asks for the two flags of the method and for the method's lines in the ledger. -/
theorem KeptAt.congr (kept : s.KeptAt m) (bp : (s'.book.word m).hasBp = (s.book.word m).hasBp)
    (disabled : (s'.book.word m).compileDisabled = (s.book.word m).compileDisabled)
    (stands : s'.ledger.Stands m ↔ s.ledger.Stands m)
    (pins : m ∈ s'.ledger.pins ↔ m ∈ s.ledger.pins)
    (due : s'.ledger.Due m ↔ s.ledger.Due m) : s'.KeptAt m := by
  have held : s'.ledger.Held m ↔ s.ledger.Held m := or_congr stands pins
  exact ⟨by rw [bp, kept.hasBp, stands], fun h => by rw [disabled, kept.disabled (held.1 h)],
    fun h => by rw [disabled, kept.restored (held.not.1 h), due]⟩

/-- A command changes nothing for another method, whatever their hashes. -/
theorem KeptAt.step_ne (kept : s.KeptAt m) (ne : m ≠ c.on) : (s.step c).KeptAt m := by
  cases ok : s.book.exec c with
  | error text => rwa [step_of_error ok]
  | ok result =>
    obtain ⟨text, b⟩ := result
    rw [step_of_ok ok]
    have word : b.word m = s.book.word m := Book.exec_word_ne ne ok
    exact kept.congr (congrArg _ word) (congrArg _ word) (s.ledger.enter_standing_ne s.book ne)
      (s.ledger.mem_enter_pins_ne s.book ne) (s.ledger.enter_due_ne s.book ne)

/-- So a step from a kept state is judged at its own method. -/
theorem kept_step_iff_keptAt (kept : s.Kept) : (s.step c).Kept ↔ (s.step c).KeptAt c.on := by
  refine ⟨fun all => all c.on, fun own m => ?_⟩
  rcases eq_or_ne m c.on with same | ne
  · exact same ▸ own
  · exact (kept m).step_ne ne

/-! ## One step at its own method -/

/-- The counters' writers keep both flags. -/
theorem keptAt_count {text : String} {w : CountersWord → CountersWord}
    (ok : s.book.exec c = .ok (text, s.book.write m w)) (silent : s.ledger.enter s.book c = s.ledger)
    (bp : ∀ v, (w v).hasBp = v.hasBp) (disabled : ∀ v, (w v).compileDisabled = v.compileDisabled)
    (kept : s.KeptAt m) : (s.step c).KeptAt m := by
  rw [step_of_ok ok, silent]
  refine kept.congr ?_ ?_ Iff.rfl Iff.rfl Iff.rfl
  · rw [Book.write_word_self, bp]
  · rw [Book.write_word_self, disabled]

/-- What `set_breakpoint` does at the start of an instruction. -/
theorem step_setBreakpoint (starts : s.book.boundary m bci = true) :
    ∃ b, s.step (.setBreakpoint m bci) = ⟨b, s.ledger.enter s.book (.setBreakpoint m bci)⟩ ∧
      b.word m = CountersWord.setCompileDisabled.setHasBp := by
  refine ⟨_, by simp only [step, Book.exec, Book.setBreakpoint, starts, if_true]; rfl, ?_⟩
  exact (Book.write_word_self ..).trans (congrArg _ (Book.write_word_self ..))

theorem keptAt_setBreakpoint (kept : s.KeptAt m) : (s.step (.setBreakpoint m bci)).KeptAt m := by
  cases starts : s.book.boundary m bci with
  | false =>
    have same : s.step (.setBreakpoint m bci) = s := by
      simp only [step, Book.exec, Book.setBreakpoint, starts, Bool.false_eq_true, if_false]
    rwa [same]
  | true =>
    obtain ⟨b, stepped, word⟩ := step_setBreakpoint starts
    have stands : (s.ledger.enter s.book (.setBreakpoint m bci)).Stands m :=
      ⟨(m, bci), List.mem_cons_self, rfl⟩
    rw [stepped]
    refine ⟨⟨fun _ => stands, fun _ => ?_⟩, fun _ => ?_, fun free => absurd (.inl stands) free⟩
    · simp [word]
    · simp [word]

omit [DecidableEq M] in
/-- A whole-word write clears `has_bp`. -/
theorem keptAt_whole {b : Book M} {l : Ledger M} (word : b.word m = .setCompileDisabled)
    (stands : l.Stands m ↔ s.ledger.Stands m) (undue : ¬ l.Held m → ¬ l.Due m) :
    KeptAt ⟨b, l⟩ m ↔ ¬ s.ledger.Stands m := by
  constructor
  · intro kept standing
    have set := kept.hasBp.2 (stands.2 standing)
    simp [word] at set
  · intro none
    refine ⟨?_, fun _ => ?_, fun free => ?_⟩
    · simp [word, stands, none]
    · simp [word]
    · simp [word, undue free]

theorem keptAt_pinMethod : (s.step (.pinMethod m)).KeptAt m ↔ ¬ s.ledger.Stands m := by
  have ok : s.book.exec (.pinMethod m) = .ok _ := rfl
  rw [step_of_ok ok]
  refine keptAt_whole ?_ ?_ fun free => absurd (.inr List.mem_cons_self) free
  · simp
  · simp [Ledger.Stands, Ledger.enter]

theorem keptAt_rejectCompile : (s.step (.rejectCompile m)).KeptAt m ↔ ¬ s.ledger.Stands m := by
  have ok : s.book.exec (.rejectCompile m) = .ok _ := rfl
  rw [step_of_ok ok]
  refine keptAt_whole ?_ Iff.rfl fun _ => ?_
  · simp
  · simp [Ledger.Due, Ledger.enter]

theorem stands_clear : (s.ledger.enter s.book (.clearBreakpoint m bci)).Stands m ↔
    ∃ p ∈ s.ledger.standing, p.1 = m ∧ p.2 ≠ bci := by
  simp only [Ledger.Stands, Ledger.enter, List.mem_filter, decide_eq_true_eq, ne_eq, Prod.ext_iff,
    not_and, and_assoc]
  exact exists_congr fun p => and_congr_right fun _ =>
    ⟨fun ⟨other, same⟩ => ⟨same, other same⟩, fun ⟨same, other⟩ => ⟨fun _ => other, same⟩⟩

/-- What `clear_breakpoint` does where it finds a row. -/
theorem step_clearBreakpoint {entry : Entry}
    (found : findRow (s.book.key m bci) s.book.breakpoints = some entry) :
    ∃ b, s.step (.clearBreakpoint m bci) = ⟨b, s.ledger.enter s.book (.clearBreakpoint m bci)⟩ ∧
      b.word m = if s.book.lastRow m bci then
          if entry.restoreCompile then (s.book.word m).clearHasBp.clearCompileDisabled
          else (s.book.word m).clearHasBp
        else s.book.word m := by
  refine ⟨_, by simp only [step, Book.exec, Book.clearBreakpoint, found]; rfl, ?_⟩
  cases s.book.lastRow m bci with
  | false => rfl
  | true =>
    cases entry.restoreCompile with
    | false => exact Book.write_word_self ..
    | true => exact (Book.write_word_self ..).trans (congrArg _ (Book.write_word_self ..))

/-- What `unpin_method` does where it finds a row. -/
theorem step_unpinMethod {restoreCompile : Bool}
    (found : findRow (s.book.identityHash m) s.book.pinned = some restoreCompile) :
    ∃ b, s.step (.unpinMethod m) = ⟨b, s.ledger.enter s.book (.unpinMethod m)⟩ ∧
      b.word m = if restoreCompile then (s.book.word m).clearCompileDisabled
        else s.book.word m := by
  cases restoreCompile with
  | false =>
    refine ⟨{ s.book with pinned := removeRow (s.book.identityHash m) s.book.pinned }, ?_, rfl⟩
    simp only [step, Book.exec, Book.unpinMethod, found, Bool.false_eq_true, if_false]
  | true =>
    refine ⟨Book.write { s.book with pinned := removeRow (s.book.identityHash m) s.book.pinned } m
      .clearCompileDisabled, ?_, Book.write_word_self ..⟩
    simp only [step, Book.exec, Book.unpinMethod, found, if_true]

/-- Another row of the hash is left: `has_bp` stays. -/
theorem keptAt_clear_more {b : Book M} {e : Prop} (kept : s.KeptAt m)
    (word : b.word m = s.book.word m) :
    KeptAt ⟨b, s.ledger.enter s.book (.clearBreakpoint m bci)⟩ m ↔
      (s.ledger.Stands m → (false = true ↔ ∀ p ∈ s.ledger.standing, p.1 = m → p.2 = bci)) ∧
      (false = true → e) := by
  constructor
  · intro kept'
    refine ⟨fun stands => ⟨nofun, fun all => ?_⟩, nofun⟩
    have set : (b.word m).hasBp = true := word ▸ kept.hasBp.2 stands
    obtain ⟨p, mem, on, other⟩ := stands_clear.1 (kept'.hasBp.1 set)
    exact absurd (all p mem on) other
  · rintro ⟨another, -⟩
    refine kept.congr (congrArg _ word) (congrArg _ word) ?_ Iff.rfl Iff.rfl
    rw [stands_clear]
    constructor
    · exact fun ⟨p, mem, on, _⟩ => ⟨p, mem, on⟩
    · intro stands
      by_contra none
      refine Bool.false_ne_true ((another stands).2 fun p mem on => ?_)
      by_contra other
      exact none ⟨p, mem, on, other⟩

/-- No row of the hash is left: `has_bp` goes, and with it `compile_disabled` where the row that
went says so. -/
theorem keptAt_clear_last {b : Book M} {restoreCompile : Bool} (kept : s.KeptAt m)
    (word : b.word m = if restoreCompile then (s.book.word m).clearHasBp.clearCompileDisabled
      else (s.book.word m).clearHasBp) :
    KeptAt ⟨b, s.ledger.enter s.book (.clearBreakpoint m bci)⟩ m ↔
      (s.ledger.Stands m → (true = true ↔ ∀ p ∈ s.ledger.standing, p.1 = m → p.2 = bci)) ∧
      (true = true →
        s.Returns m (m ∈ s.ledger.pins) ((m, bci) ∈ s.ledger.standing) restoreCompile) := by
  have clear : (b.word m).hasBp = false := by rw [word]; split <;> simp
  constructor
  · intro kept'
    have none : ¬ (s.ledger.enter s.book (.clearBreakpoint m bci)).Stands m := fun stands =>
      Bool.false_ne_true (clear.symm.trans (kept'.hasBp.2 stands))
    refine ⟨fun _ => ⟨fun _ p mem on => ?_, fun _ => rfl⟩, fun _ => ?_⟩
    · by_contra other
      exact none (stands_clear.2 ⟨p, mem, on, other⟩)
    · cases restoreCompile with
      | true =>
        have enabled : (b.word m).compileDisabled = false := by simp [word]
        have free := fun held => Bool.false_ne_true (enabled.symm.trans (kept'.disabled held))
        exact ⟨fun pinned => free (.inr pinned), (kept'.restored free).1 enabled⟩
      | false =>
        intro own unpinned due
        have disabled : (b.word m).compileDisabled = true := by
          simpa [word] using kept.disabled (.inl ⟨_, own, rfl⟩)
        have free : ¬ Ledger.Held (s.ledger.enter s.book (.clearBreakpoint m bci)) m :=
          fun held => held.elim none unpinned
        exact Bool.false_ne_true (((kept'.restored free).2 due).symm.trans disabled)
  · rintro ⟨alone, returns⟩
    have none : ¬ (s.ledger.enter s.book (.clearBreakpoint m bci)).Stands m := fun stands => by
      obtain ⟨p, mem, on, other⟩ := stands_clear.1 stands
      exact other ((alone ⟨p, mem, on⟩).1 rfl p mem on)
    refine ⟨by simp [clear, none], fun held => ?_, fun free => ?_⟩
    · have pinned : m ∈ s.ledger.pins := held.resolve_left none
      cases restoreCompile with
      | true => exact absurd pinned (returns rfl).1
      | false => simpa [word] using kept.disabled (.inr pinned)
    · have unpinned : m ∉ s.ledger.pins := fun pinned => free (.inr pinned)
      cases restoreCompile with
      | true => exact ⟨fun _ => (returns rfl).2, fun _ => by simp [word]⟩
      | false =>
        have same : (b.word m).compileDisabled = (s.book.word m).compileDisabled := by simp [word]
        rw [same]
        by_cases stands : s.ledger.Stands m
        · -- what stood on the method was the breakpoint that is cleared
          obtain ⟨p, mem, on⟩ := stands
          have own : (m, bci) ∈ s.ledger.standing := by
            rwa [show p = (m, bci) from Prod.ext on ((alone ⟨p, mem, on⟩).1 rfl p mem on)] at mem
          have undue : ¬ s.ledger.Due m := returns rfl own unpinned
          rw [kept.disabled (.inl ⟨p, mem, on⟩)]
          exact ⟨nofun, fun due => absurd due undue⟩
        · exact kept.restored fun held => held.elim stands unpinned

theorem keptAt_clearBreakpoint (kept : s.KeptAt m) :
    (s.step (.clearBreakpoint m bci)).KeptAt m ↔ s.Harmless (.clearBreakpoint m bci) := by
  cases found : findRow (s.book.key m bci) s.book.breakpoints with
  | none =>
    have same : s.step (.clearBreakpoint m bci) = s := by
      simp only [step, Book.exec, Book.clearBreakpoint, found]
    rw [same]
    simp only [Harmless, found, HarmlessClear, kept]
  | some entry =>
    obtain ⟨b, stepped, word⟩ := step_clearBreakpoint found
    rw [stepped]
    simp only [Harmless, found, HarmlessClear]
    cases last : s.book.lastRow m bci with
    | false =>
      rw [last, if_neg Bool.false_ne_true] at word
      exact keptAt_clear_more kept word
    | true =>
      rw [last, if_pos rfl] at word
      exact keptAt_clear_last kept word

theorem keptAt_unpinMethod (kept : s.KeptAt m) :
    (s.step (.unpinMethod m)).KeptAt m ↔ s.Harmless (.unpinMethod m) := by
  cases found : findRow (s.book.identityHash m) s.book.pinned with
  | none =>
    have same : s.step (.unpinMethod m) = s := by
      simp only [step, Book.exec, Book.unpinMethod, found]
    rw [same]
    simp only [Harmless, found, HarmlessUnpin, kept]
  | some restoreCompile =>
    obtain ⟨b, stepped, word⟩ := step_unpinMethod found
    rw [stepped]
    simp only [Harmless, found, HarmlessUnpin]
    have gone : m ∉ (s.ledger.enter s.book (.unpinMethod m)).pins := by simp [Ledger.enter]
    cases restoreCompile with
    | true =>
      have enabled : (b.word m).compileDisabled = false := by simp [word]
      constructor
      · intro kept'
        have free := fun held => Bool.false_ne_true (enabled.symm.trans (kept'.disabled held))
        exact ⟨fun stands => free (.inl stands), (kept'.restored free).1 enabled⟩
      · rintro ⟨none, due⟩
        have set : (b.word m).hasBp = (s.book.word m).hasBp := by simp [word]
        refine ⟨set ▸ kept.hasBp, fun held => ?_, fun _ => ?_⟩
        · exact absurd held (not_or.2 ⟨none, gone⟩)
        · exact ⟨fun _ => due, fun _ => enabled⟩
    | false =>
      constructor
      · intro kept' own none due
        have enabled := (kept'.restored (not_or.2 ⟨none, gone⟩)).2 due
        rw [word, if_neg Bool.false_ne_true, kept.disabled (.inr own)] at enabled
        exact Bool.false_ne_true enabled.symm
      · intro returns
        have same : b.word m = s.book.word m := word
        refine ⟨by rw [same]; exact kept.hasBp, fun held => ?_, fun free => ?_⟩
        · rw [same]
          exact kept.disabled (.inl (held.resolve_right gone))
        · have none : ¬ s.ledger.Stands m := fun stands => free (.inl stands)
          rw [same]
          by_cases own : m ∈ s.ledger.pins
          · rw [kept.disabled (.inr own)]
            exact ⟨nofun, fun due => absurd due (returns own none)⟩
          · exact kept.restored (not_or.2 ⟨none, own⟩)

/-- The flags of the command's own method are right afterwards exactly if the step is harmless. -/
theorem keptAt_step_iff (kept : s.KeptAt c.on) : (s.step c).KeptAt c.on ↔ s.Harmless c := by
  cases c with
  | setBreakpoint m bci => exact ⟨fun _ => trivial, fun _ => keptAt_setBreakpoint kept⟩
  | clearBreakpoint m bci => exact keptAt_clearBreakpoint kept
  | pinMethod m => exact keptAt_pinMethod
  | unpinMethod m => exact keptAt_unpinMethod kept
  | rejectCompile m => exact keptAt_rejectCompile
  | bumpInvocation m =>
    exact ⟨fun _ => trivial, fun _ => keptAt_count rfl rfl CountersWord.hasBp_bumpInvocation
      CountersWord.compileDisabled_bumpInvocation kept⟩
  | saturateInvocation m n =>
    exact ⟨fun _ => trivial, fun _ => keptAt_count rfl rfl (CountersWord.hasBp_saturateInvocation · n)
      (CountersWord.compileDisabled_saturateInvocation · n) kept⟩
  | bumpLoopCounter m =>
    exact ⟨fun _ => trivial, fun _ => keptAt_count rfl rfl CountersWord.hasBp_bumpLoopCounter
      CountersWord.compileDisabled_bumpLoopCounter kept⟩
  | resetLoopCounter m =>
    exact ⟨fun _ => trivial, fun _ => keptAt_count rfl rfl CountersWord.hasBp_resetLoopCounter
      CountersWord.compileDisabled_resetLoopCounter kept⟩

/-- A step from a kept state leads to a kept state exactly if it is harmless. -/
theorem kept_step_iff (kept : s.Kept) : (s.step c).Kept ↔ s.Harmless c :=
  (kept_step_iff_keptAt kept).trans (keptAt_step_iff (kept c.on))

/-! ## Runs -/

omit [DecidableEq M] in
/-- In a VM nobody has debugged no flag owes anything. -/
theorem kept_start {b : Book M} (plain : ∀ m, (b.word m).hasBp = false) : (start b).Kept := by
  intro m
  have free : ¬ (start b).ledger.Held m := by simp [start, Ledger.Held, Ledger.Stands]
  refine ⟨?_, fun held => absurd held free, fun _ => ?_⟩
  · simp [start, plain m, Ledger.Stands]
  · simp [start, Ledger.Due]

/-- Along a run the first step that is not harmless is the first that spoils the flags. -/
theorem kept_run_iff (s : Session M) (kept : s.Kept) (cs : List (Cmd M)) :
    (∀ pre, pre <+: cs → (s.run pre).Kept) ↔ s.HarmlessRun cs := by
  induction cs generalizing s with
  | nil => exact ⟨fun _ => trivial, fun _ pre isPrefix => List.prefix_nil.1 isPrefix ▸ kept⟩
  | cons c cs ih =>
    constructor
    · intro all
      have after : (s.step c).Kept := all [c] ((List.prefix_cons_inj c).2 List.nil_prefix)
      exact ⟨(kept_step_iff kept).1 after, (ih (s.step c) after).1 fun pre isPrefix =>
        all (c :: pre) ((List.prefix_cons_inj c).2 isPrefix)⟩
    · rintro ⟨harmless, rest⟩ pre isPrefix
      cases pre with
      | nil => exact kept
      | cons c' pre =>
        obtain ⟨rfl, rest_prefix⟩ := List.cons_prefix_cons.1 isPrefix
        exact (ih _ ((kept_step_iff kept).2 harmless)).2 rest pre rest_prefix

end Session

end

/-- Methods `0`, `1`, `2`, .. of which `2` shares the hash of `0`; all of them fresh. -/
def freshBook : Book Nat where
  identityHash m := m % 2
  holderName _ := "C"
  selectorName _ := "run"
  bytecodeLen _ := 6
  boundary _ bci := decide (bci % 2 = 0)
  word _ := 0#64
  active := false
  breakpoints := []
  pinned := []

/-- The record a word stands for. -/
def countersOf (c : CountersWord) : Codecache.Counters :=
  ⟨c.invocation, c.loopCount, c.compileDisabled, c.hasBp⟩

theorem countersOf_setCompileDisabled : countersOf .setCompileDisabled = .disabled := by decide

theorem countersOf_setHasBp (c : CountersWord) :
    countersOf c.setHasBp = { countersOf c with hasBp := true } := by
  simp [countersOf, c.counts_setHasBp]

theorem countersOf_clearHasBp (c : CountersWord) :
    countersOf c.clearHasBp = { countersOf c with hasBp := false } := by
  simp [countersOf, c.counts_clearHasBp]

theorem countersOf_clearCompileDisabled (c : CountersWord) :
    countersOf c.clearCompileDisabled = { countersOf c with compileDisabled := false } := by
  simp [countersOf, c.counts_clearCompileDisabled]

/-- `d` and `b` are one debugger. -/
structure Reads (d : Debugged) (b : Book Interpreter.Addr) : Prop where
  identityHash : d.identityHash = b.identityHash
  boundary : d.boundary = b.boundary
  selector : ∀ m, d.symbol (d.jit.selector m) = b.selectorName m
  counters : ∀ m, d.jit.counters m = countersOf (b.word m)
  breakpoints : d.breakpoints = b.breakpoints.map fun r => (r.1, r.2.toBreakpoint)
  pinned : d.pinned = b.pinned

section
variable {κ α β : Type} [DecidableEq κ] (f : α → β) (k : κ) (a : α) (rows : List (κ × α))

theorem removeRow_map : removeRow k (rows.map fun r => (r.1, f r.2)) =
    (removeRow k rows).map fun r => (r.1, f r.2) := List.filter_map ..

theorem insertRow_map : insertRow k (f a) (rows.map fun r => (r.1, f r.2)) =
    (insertRow k a rows).map fun r => (r.1, f r.2) :=
  congrArg _ (List.filter_map ..)

theorem findRow_map : findRow k (rows.map fun r => (r.1, f r.2)) = (findRow k rows).map f := by
  unfold findRow
  rw [List.find?_map, Option.map_map, Option.map_map]
  rfl

end

namespace Reads

variable {d d' : Debugged} {b : Book Interpreter.Addr} {m : Interpreter.Addr} {bci : Nat}

theorem write (reads : Reads d b) {w : CountersWord → CountersWord}
    {f : Codecache.Counters → Codecache.Counters} (same : ∀ c, countersOf (w c) = f (countersOf c)) :
    Reads (d.setFlags m f) (b.write m w) where
  identityHash := reads.identityHash
  boundary := reads.boundary
  selector := reads.selector
  counters m' := by
    rcases eq_or_ne m' m with rfl | ne
    · simp [Debugged.setFlags, Codecache.Jit.setCounters, reads.counters, same]
    · simp [Debugged.setFlags, Codecache.Jit.setCounters, reads.counters, Book.write_word_ne, ne]
  breakpoints := reads.breakpoints
  pinned := reads.pinned

theorem retire (reads : Reads d b) (retired : d.retireDependents m = some d') : Reads d' b := by
  unfold Debugged.retireDependents at retired
  split at retired
  · obtain ⟨ct, -, rfl⟩ := Option.map_eq_some_iff.1 retired
    exact ⟨reads.identityHash, reads.boundary, reads.selector, reads.counters, reads.breakpoints,
      reads.pinned⟩
  · exact Option.some.inj retired ▸ reads

theorem key (reads : Reads d b) : d.key m bci = b.key m bci := by
  simp only [Debugged.key, Book.key, reads.identityHash]

theorem setHasBp (reads : Reads d b) : Reads (d.setHasBp m) (b.write m .setHasBp) :=
  reads.write countersOf_setHasBp (f := fun c => { c with hasBp := true })

theorem clearHasBp (reads : Reads d b) : Reads (d.clearHasBp m) (b.write m .clearHasBp) :=
  reads.write countersOf_clearHasBp (f := fun c => { c with hasBp := false })

theorem setCompileDisabled (reads : Reads d b) :
    Reads (d.setCompileDisabled m) (b.write m fun _ => .setCompileDisabled) :=
  reads.write (fun _ => countersOf_setCompileDisabled) (f := fun _ => .disabled)

theorem clearCompileDisabled (reads : Reads d b) :
    Reads (d.clearCompileDisabled m) (b.write m .clearCompileDisabled) :=
  reads.write countersOf_clearCompileDisabled (f := fun c => { c with compileDisabled := false })

theorem withRows (reads : Reads d b) {rows : List ((Nat × Nat) × Breakpoint)}
    {entries : List ((Nat × Nat) × Entry)}
    (same : rows = entries.map fun r => (r.1, r.2.toBreakpoint)) :
    Reads { d with breakpoints := rows } { b with breakpoints := entries } :=
  { reads with breakpoints := same }

theorem activate (reads : Reads d b) : Reads { d with active := true } { b with active := true } :=
  { reads with }

theorem setBreakpoint (reads : Reads d b) (l : Ledger Interpreter.Addr)
    (set : d.setBreakpoint m bci = some d') :
    Reads d' ((⟨b, l⟩ : Session _).step (.setBreakpoint m bci)).book := by
  have boundary : d.boundary m bci = b.boundary m bci := by rw [reads.boundary]
  unfold Debugged.setBreakpoint at set
  split at set
  · rename_i starts
    obtain ⟨retired, run, rfl⟩ := Option.map_eq_some_iff.1 set
    simp only [Session.step, Book.exec, Book.setBreakpoint, ← boundary, starts, if_true]
    have row : insertRow (d.key m bci)
          (Breakpoint.mk (d.symbol (d.jit.selector m)) !(d.jit.counters m).compileDisabled)
          d.breakpoints =
        (insertRow (b.key m bci)
          (Entry.mk ⟨b.selectorName m, !(b.word m).compileDisabled⟩ (b.holderName m) bci)
          b.breakpoints).map fun r => (r.1, r.2.toBreakpoint) := by
      rw [reads.breakpoints, reads.key, reads.selector, reads.counters, ← insertRow_map]
      rfl
    have flagged := (reads.withRows row).setHasBp (m := m)
    have written := (flagged.activate.setCompileDisabled (m := m)).setHasBp (m := m)
    exact { written.retire run with }
  · rename_i inside
    simp only [Session.step, Book.exec, Book.setBreakpoint, ← boundary, inside]
    exact Option.some.inj set ▸ reads

theorem clearBreakpoint (reads : Reads d b) (l : Ledger Interpreter.Addr) :
    Reads (d.clearBreakpoint m bci) ((⟨b, l⟩ : Session _).step (.clearBreakpoint m bci)).book := by
  have found : findRow (d.key m bci) d.breakpoints =
      (findRow (b.key m bci) b.breakpoints).map Entry.toBreakpoint := by
    rw [reads.breakpoints, reads.key, findRow_map]
  have left : removeRow (d.key m bci) d.breakpoints =
      (removeRow (b.key m bci) b.breakpoints).map fun r => (r.1, r.2.toBreakpoint) := by
    rw [reads.breakpoints, reads.key, removeRow_map]
  have last : ((removeRow (d.key m bci) d.breakpoints).any
      fun r => decide (r.1.1 = d.identityHash m)) = !b.lastRow m bci := by
    rw [left, List.any_map, reads.identityHash, Book.lastRow, Bool.not_not]
    rfl
  have cleared : Reads
      { d with
        breakpoints := removeRow (d.key m bci) d.breakpoints
        standing := d.standing.filter fun p => decide (p ≠ (m, bci)) }
      { b with breakpoints := removeRow (b.key m bci) b.breakpoints } :=
    { reads with breakpoints := left }
  simp only [Debugged.clearBreakpoint, Session.step, Book.exec, Book.clearBreakpoint, found]
  cases findRow (b.key m bci) b.breakpoints with
  | none => exact reads
  | some entry =>
    simp only [Option.map_some, last, Bool.not_eq_true']
    cases b.lastRow m bci with
    | false => exact cleared
    | true =>
      cases restore : entry.restoreCompile with
      | false => exact cleared.clearHasBp
      | true => exact cleared.clearHasBp.clearCompileDisabled

theorem pin (reads : Reads d b) (l : Ledger Interpreter.Addr) (pinned : d.pin m = some d') :
    Reads d' ((⟨b, l⟩ : Session _).step (.pinMethod m)).book := by
  have inserted : Reads
      { d with pinned := insertRow (d.identityHash m) (!(d.jit.counters m).compileDisabled) d.pinned }
      { b with pinned := insertRow (b.identityHash m) (!(b.word m).compileDisabled) b.pinned } :=
    { reads with pinned := by rw [reads.identityHash, reads.counters, reads.pinned]; rfl }
  exact (inserted.setCompileDisabled (m := m)).retire pinned

theorem unpin (reads : Reads d b) (l : Ledger Interpreter.Addr) :
    Reads (d.unpin m) ((⟨b, l⟩ : Session _).step (.unpinMethod m)).book := by
  have unpinned : Reads { d with pinned := removeRow (d.identityHash m) d.pinned }
      { b with pinned := removeRow (b.identityHash m) b.pinned } :=
    { reads with pinned := by rw [reads.identityHash, reads.pinned] }
  simp only [Debugged.unpin, Session.step, Book.exec, Book.unpinMethod, reads.identityHash,
    reads.pinned]
  rw [reads.identityHash, reads.pinned] at unpinned
  cases findRow (b.identityHash m) b.pinned with
  | none => exact reads
  | some restoreCompile =>
    cases restoreCompile with
    | false => exact unpinned
    | true => exact unpinned.clearCompileDisabled

end Reads

/-- The debugger's own acts, as commands. -/
def Act.command : Act → Option (Cmd Interpreter.Addr)
  | .setBreakpoint m bci => some (.setBreakpoint m bci)
  | .clearBreakpoint m bci => some (.clearBreakpoint m bci)
  | .pin m => some (.pinMethod m)
  | .unpin m => some (.unpinMethod m)
  | _ => none

namespace Reads

variable {d d' : Debugged} {s : Session Interpreter.Addr}

theorem step (reads : Reads d s.book) {act : Act} {cmd : Cmd Interpreter.Addr}
    (command : act.command = some cmd) (ran : d.exec act = some d') : Reads d' (s.step cmd).book := by
  cases act with
  | vm _ _ | activateBlock _ _ _ _ | callCompiled _ => cases command
  | setBreakpoint m bci =>
    cases command
    exact reads.setBreakpoint s.ledger ran
  | clearBreakpoint m bci =>
    cases command
    exact Option.some.inj ran ▸ reads.clearBreakpoint s.ledger
  | pin m =>
    cases command
    exact reads.pin s.ledger ran
  | unpin m =>
    cases command
    exact Option.some.inj ran ▸ reads.unpin s.ledger

/-- Any sequence of commands keeps the debugger of the whole VM and its books together. -/
theorem run_commands {acts : List Act} {cmds : List (Cmd Interpreter.Addr)} (reads : Reads d s.book)
    (commands : acts.map Act.command = cmds.map some) (ran : acts.foldlM Debugged.exec d = some d') :
    Reads d' (s.run cmds).book := by
  induction acts generalizing d s cmds with
  | nil =>
    obtain rfl := List.map_eq_nil_iff.mp commands.symm
    exact Option.some.inj ran ▸ reads
  | cons act acts ih =>
    cases cmds with
    | nil => cases commands
    | cons cmd cmds =>
      rw [List.foldlM_cons] at ran
      obtain ⟨next, first, ran⟩ := Option.bind_eq_some_iff.mp ran
      obtain ⟨command, commands⟩ := List.cons.inj commands
      show Reads d' ((s.step cmd).run cmds).book
      exact ih (reads.step command first) commands ran

/-- The books over a VM where no word is written yet. -/
def accessorBook : Book Interpreter.Addr where
  identityHash := id
  holderName _ := "C"
  selectorName m := if m = 10 then "caller" else "value"
  bytecodeLen _ := 1
  boundary _ bci := bci = 0
  word _ := 0#64
  active := false
  breakpoints := []
  pinned := []

theorem run_commands_accessor : ∃ d',
    [Act.setBreakpoint 20 0, .pin 20].foldlM Debugged.exec accessorVmDebugged = some d' ∧
      (d'.jit.counters 20).hasBp = false := by
  obtain ⟨d', ran⟩ := Option.isSome_iff_exists.mp (show ([Act.setBreakpoint 20 0, .pin 20].foldlM
    Debugged.exec accessorVmDebugged).isSome = true by decide)
  have start : Reads accessorVmDebugged (Session.start accessorBook).book := by
    have plain : (⟨0, 0, false, false⟩ : Codecache.Counters) = countersOf 0#64 := by decide
    refine ⟨rfl, rfl, fun m => ?_, fun _ => plain, rfl, rfl⟩
    show (if (if m = 10 then 7 else 8) = 8 then "value" else "caller") = _
    by_cases caller : m = 10 <;> simp [caller, Session.start, accessorBook]
  have reads : Reads d' ((Session.start accessorBook).run [.setBreakpoint 20 0, .pinMethod 20]).book :=
    run_commands start rfl ran
  refine ⟨d', ran, ?_⟩
  rw [reads.counters]
  decide

end Reads

end WinVm.Debugger
