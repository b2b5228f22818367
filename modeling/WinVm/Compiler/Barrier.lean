import WinVm.Compiler.DeoptMetadata
import WinVm.Compiler.EmitSmi
import WinVm.Lib.Ascending

/-!
# Elided write barriers

Which stores `compiler/emit_x64.rs` emits without a write barrier. A vreg is barrier-free when
every operation that defines it gives a tagged integer or an object that was old at compile time,
or moves a barrier-free vreg; the verdicts are recomputed until they stop changing.

The definitions are not the only source of values. An on-stack replacement fills the frame from
an interpreter frame and enters at a loop header, and the interpreter's value is not one of the
values that compiled code computes: a product that overflows is a fresh large integer there,
where compiled code traps.

Results:

* `noBarrier_spec`: the loop ends, in verdicts that reproduce themselves;
* `elided_stores_free`: what a barrier-free vreg holds when it is stored is an integer or an old
  object, in every run whose entries give such values to the vregs that flow into the store
  (`SafeEntry`); ordinary entries always do;
* `squaring_stores_young`: an on-stack replacement that does not.
-/

namespace WinVm.Compiler

open WinVm.Interpreter WinVm.Lib

/-- A word of the constant pool, and whether the collector updates it. -/
structure PoolEntry where
  value : OopWord
  isOop : Bool
deriving DecidableEq, Repr

/-! ## Operations -/

/-- The operations whose result or effect matters here, with their other operands; the rest as in
the intermediate form. -/
inductive Op where
  | constSmi (dst : VReg) (value : OopWord)
  | constPool (dst : VReg) (lit : Nat)
  | move (dst src : VReg)
  | smiArith (op : SmiOp) (dst a b : VReg) (fail : BlockId)
  | smiCmpVal (op : CmpOp) (dst a b : VReg) (fail : BlockId)
  | fCmpVal (dst a b : VReg)
  | storeField (obj val : VReg) (barrier : Bool)
  | other (ir : Ir)
deriving DecidableEq, Repr

def Op.erase : Op → Ir
  | constSmi dst _ => .constSmi dst
  | constPool dst _ => .constPool dst
  | move dst src => .move dst src
  | smiArith _ dst a b fail => .smiArith dst a b fail
  | smiCmpVal _ dst a b fail => .smiCmpVal dst a b fail
  | fCmpVal dst a b => .fCmpVal dst a b
  | storeField obj val _ => .storeField obj val
  | other ir => ir

/-- A method with these operands filled in. -/
structure DetailedMethod where
  ir : IrMethod
  blocks : List (List Op)
  erases : blocks.map (List.map Op.erase) = ir.blocks.map IrBlock.code
  pool : List PoolEntry
  trueLit : Nat
  falseLit : Nat
  nilLit : Nat

/-- A SmallInteger, or a reference to an object of the old generation. -/
def IsFree (oldStart w : OopWord) : Prop := isSmi w = true ∨ (w &&& tagMask = 1#64 ∧ oldStart ≤ w)

instance (oldStart w : OopWord) : Decidable (IsFree oldStart w) :=
  inferInstanceAs (Decidable (_ ∨ _))

namespace DetailedMethod

open IrMethod (Point)

variable (m : DetailedMethod) (oldStart : OopWord)

def opAt (x : Point) : Option Op := (m.blocks[x.1]?.getD [])[x.2]?

/-! ## The verdicts -/

/-- `pool_free`: an absent entry is not free, nor is anything tagged without a boundary. -/
def poolFree (lit : Nat) : Bool :=
  match m.pool[lit]? with
  | none => false
  | some entry =>
    isSmi entry.value ||
      (entry.value &&& tagMask == 1#64 && decide (oldStart ≤ entry.value) && oldStart != 0#64)

def boolsFree : Bool := m.poolFree oldStart m.trueLit && m.poolFree oldStart m.falseLit

/-- Whether a definition by this operation is free, given the last round's verdicts. -/
def free (noBarrier : Finset VReg) : Op → Bool
  | .constSmi _ _ | .smiArith _ _ _ _ _ => true
  | .smiCmpVal _ _ _ _ _ | .fCmpVal _ _ _ => m.boolsFree oldStart
  | .constPool _ lit => m.poolFree oldStart lit
  | .move _ src => decide (src ∈ noBarrier)
  | .storeField _ _ _ | .other _ => false

/-- One operation of a round: `e.unwrap_or(true) && free` for each vreg it defines. -/
def tally (noBarrier : Finset VReg) (nb : VReg → Option Bool) (op : Op) : VReg → Option Bool :=
  op.erase.defs.foldl (fun nb v =>
    Function.update nb v (some ((nb v).getD true && m.free oldStart noBarrier op))) nb

/-- One round. A vreg without a definition is not free. -/
def round (noBarrier : Finset VReg) : Finset VReg :=
  (Finset.range m.ir.vregs.length).filter fun v =>
    (m.blocks.flatten.foldl (m.tally oldStart noBarrier) (fun _ => none) v).getD false

/-- The loop: from no verdict at all until a round changes nothing. -/
def noBarrier : Option (Finset VReg) :=
  Ascending.settle (m.round oldStart) (m.ir.vregs.length + 1) ∅

variable {m} {oldStart}

theorem foldl_tally_defs (b : Bool) (ds : List VReg) (nb : VReg → Option Bool) (v : VReg) :
    ds.foldl (fun nb u => Function.update nb u (some ((nb u).getD true && b))) nb v =
      if v ∈ ds then some ((nb v).getD true && b) else nb v := by
  induction ds generalizing nb with
  | nil => simp
  | cons u ds ih =>
    rw [List.foldl_cons, ih]
    rcases eq_or_ne v u with rfl | hne
    · simp
    · simp [hne]

/-- What a round says of `v`: the conjunction over its definitions, on top of what was there. -/
theorem foldl_tally (noBarrier : Finset VReg) (ops : List Op) (nb : VReg → Option Bool)
    (v : VReg) :
    ops.foldl (m.tally oldStart noBarrier) nb v =
      if ∃ op ∈ ops, v ∈ op.erase.defs then
        some ((nb v).getD true &&
          decide (∀ op ∈ ops, v ∈ op.erase.defs → m.free oldStart noBarrier op = true))
      else nb v := by
  induction ops generalizing nb with
  | nil => simp
  | cons op ops ih =>
    rw [List.foldl_cons, ih]
    unfold tally
    rw [foldl_tally_defs]
    by_cases here : v ∈ op.erase.defs
    · by_cases later : ∃ op ∈ ops, v ∈ op.erase.defs
      · simp [here, later, Bool.and_assoc]
      · have none_later : ∀ op ∈ ops, v ∉ op.erase.defs := fun op hop hv => later ⟨op, hop, hv⟩
        have vacuous : ∀ op ∈ ops, v ∈ op.erase.defs →
            m.free oldStart noBarrier op = true := fun op hop hv => absurd hv (none_later op hop)
        simp [here, later, decide_eq_true vacuous]
    · simp [here]

theorem mem_round {noBarrier : Finset VReg} {v : VReg} :
    v ∈ m.round oldStart noBarrier ↔ v < m.ir.vregs.length ∧
      (∃ op ∈ m.blocks.flatten, v ∈ op.erase.defs) ∧
      ∀ op ∈ m.blocks.flatten, v ∈ op.erase.defs → m.free oldStart noBarrier op = true := by
  unfold round
  rw [Finset.mem_filter, Finset.mem_range, foldl_tally]
  refine and_congr Iff.rfl ?_
  split
  · rename_i defined
    rw [Option.getD_some, Option.getD_none, Bool.true_and, decide_eq_true_iff]
    exact (and_iff_right defined).symm
  · rename_i undefined
    exact iff_of_false (by simp) fun h => undefined h.1

theorem free_mono {nb nb' : Finset VReg} (le : nb ⊆ nb') {op : Op}
    (free : m.free oldStart nb op = true) : m.free oldStart nb' op = true := by
  cases op with
  | move dst src => exact decide_eq_true (le (of_decide_eq_true free))
  | _ => exact free

theorem round_mono : Monotone (m.round oldStart) := by
  intro nb nb' le v hv
  obtain ⟨lt, defined, all⟩ := mem_round.mp hv
  exact mem_round.mpr ⟨lt, defined, fun op hop hd => free_mono le (all op hop hd)⟩

theorem round_subset (nb : Finset VReg) :
    m.round oldStart nb ⊆ Finset.range m.ir.vregs.length :=
  Finset.filter_subset _ _

variable (m oldStart) in
/-- The loop ends, and another round would change nothing. -/
theorem noBarrier_spec :
    ∃ nb, m.noBarrier oldStart = some nb ∧ m.round oldStart nb = nb := by
  have settled := Ascending.settle_empty (@round_mono m oldStart) round_subset
  rwa [Finset.card_range] at settled

/-! ## Operations and program points -/

theorem opAt_erase (x : Point) : (m.opAt x).map Op.erase = m.ir.op? x := by
  have code : (m.blocks[x.1]?.getD []).map Op.erase = m.ir.code x.1 := by
    have := congrArg (fun blocks => (blocks[x.1]?).getD []) m.erases
    simp only [List.getElem?_map] at this
    unfold IrMethod.code
    rw [← this]
    cases m.blocks[x.1]? with
    | none => rfl
    | some block => rfl
  unfold opAt IrMethod.op?
  rw [← code, List.getElem?_map]

theorem op?_of_opAt {x : Point} {op : Op} (h : m.opAt x = some op) :
    m.ir.op? x = some op.erase := by
  rw [← opAt_erase, h, Option.map_some]

theorem opAt_mem {x : Point} {op : Op} (h : m.opAt x = some op) : op ∈ m.blocks.flatten := by
  unfold opAt at h
  have hop := List.mem_of_getElem? h
  cases hb : m.blocks[x.1]? with
  | none =>
    rw [hb] at hop
    cases hop
  | some block =>
    rw [hb] at hop
    exact List.mem_flatten.mpr ⟨block, List.mem_of_getElem? hb, hop⟩

theorem exists_opAt {x : Point} {ir : Ir} (h : m.ir.op? x = some ir) :
    ∃ op, m.opAt x = some op ∧ op.erase = ir := by
  rw [← opAt_erase] at h
  exact Option.map_eq_some_iff.mp h

/-! ## Execution -/

end DetailedMethod

/-- An activation of the emitted code: the operation it is at, and the word of each vreg. A vreg
that was never written holds some word as well. -/
structure Frame where
  pc : IrMethod.Point
  vals : VReg → OopWord

/-- The pool of the compiled method, and its activations, the running one first. -/
structure Mach where
  pool : Nat → OopWord
  frames : List Frame

/-- What a collection does to words: integers stay, and what is old stays old, if elsewhere. -/
structure Relocation (oldStart : OopWord) where
  move : OopWord → OopWord
  smi : ∀ w, isSmi w = true → move w = w
  old : ∀ w, w &&& tagMask = 1#64 → oldStart ≤ w →
    move w &&& tagMask = 1#64 ∧ oldStart ≤ move w

/-- The frame an on-stack replacement enters with: every slot is nil, then the words of the
transfer buffer go to their slots, the last one winning. -/
def seededSlots (nil : OopWord) (frameSlots : Nat) (copies : List Nat) (buffer : List OopWord) :
    Nat → Option OopWord :=
  (copies.zip buffer).foldl (fun slots c => Function.update slots c.1 (some c.2))
    fun s => if s < frameSlots then some nil else none

namespace DetailedMethod

open IrMethod (Point)

variable (m : DetailedMethod) (notes : DeoptNotes) (oldStart : OopWord)

/-- The words a definition can write. -/
def Result (pool : Nat → OopWord) (vals : VReg → OopWord) : Op → OopWord → Prop
  | .constSmi _ value, w => w = value <<< 2
  | .constPool _ lit, w => w = pool lit
  | .move _ src, w => w = vals src
  | .smiArith op _ a b _, w => primArith op (vals a) (vals b) = .ok w
  | .smiCmpVal op _ a b _, w =>
    primCmp (pool m.trueLit) (pool m.falseLit) op (vals a) (vals b) = .ok w
  | .fCmpVal _ _ _, w => w = pool m.trueLit ∨ w = pool m.falseLit
  | .storeField _ _ _, _ | .other _, _ => True

/-- When an operation leaves through a branch. -/
def Leaves (pool : Nat → OopWord) (vals : VReg → OopWord) : Op → Prop
  | .smiArith op _ a b _ => primArith op (vals a) (vals b) = .fail
  | .smiCmpVal op _ a b _ =>
    primCmp (pool m.trueLit) (pool m.falseLit) op (vals a) (vals b) = .fail
  | _ => True

/-- One operation of an activation. -/
structure Exec (pool : Nat → OopWord) (f f' : Frame) : Prop where
  step : m.ir.Step f.pc f'.pc
  result : ∀ op, m.opAt f.pc = some op → ∀ v, m.ir.Writes v f.pc f'.pc →
    m.Result pool f.vals op (f'.vals v)
  keeps : ∀ v, ¬ m.ir.Writes v f.pc f'.pc → f'.vals v = f.vals v
  leaves : f'.pc ≠ (f.pc.1, f.pc.2 + 1) → ∀ op, m.opAt f.pc = some op → m.Leaves pool f.vals op

/-- The activations the code can be entered with. The ordinary entry promises nothing about any
vreg. An on-stack replacement follows the copy plan of the driver, from a transfer buffer with one
word for each copy; a vreg without a slot is not filled. -/
inductive Enters (pool : Nat → OopWord) : Frame → Prop
  | ordinary (vals : VReg → OopWord) : Enters pool ⟨IrMethod.entryPoint, vals⟩
  | osr {result : RegallocResult} {plan : OsrPlan} {header : BlockId} {buffer : List OopWord}
      {vals : VReg → OopWord} (osr : m.ir.isOsr = true)
      (regalloc : m.ir.regalloc .x64 = some result)
      (planned : m.ir.osrPlan notes result header = some plan)
      (packed : buffer.length = plan.copies.length)
      (seeded : ∀ iv ∈ plan.intervals, ∀ s w, iv.assignment = some (.spill s) →
        seededSlots (pool m.nilLit) result.frameSlots plan.copies buffer s = some w →
          vals iv.vreg = w) :
      Enters pool ⟨(header, 0), vals⟩

/-- The pool word of an entry after a collection. -/
def relocatedPool (ρ : Relocation oldStart) (pool : Nat → OopWord) (lit : Nat) : OopWord :=
  match m.pool[lit]? with
  | some ⟨_, true⟩ => ρ.move (pool lit)
  | _ => pool lit

/-- A vreg that a map names is relocated, any other is left alone. -/
def Relocated (ρ : Relocation oldStart) (f f' : Frame) : Prop :=
  f'.pc = f.pc ∧ ∀ v, f'.vals v = f.vals v ∨ f'.vals v = ρ.move (f.vals v)

/-- Activations nest; a collection finds all of them. -/
inductive Step : Mach → Mach → Prop
  | enter {pool : Nat → OopWord} {frames : List Frame} {f : Frame} (enters : m.Enters notes pool f) :
      Step ⟨pool, frames⟩ ⟨pool, f :: frames⟩
  | exec {pool : Nat → OopWord} {frames : List Frame} {f f' : Frame} (exec : m.Exec pool f f') :
      Step ⟨pool, f :: frames⟩ ⟨pool, f' :: frames⟩
  | collect {pool : Nat → OopWord} {frames frames' : List Frame} (ρ : Relocation oldStart)
      (relocated : List.Forall₂ (Relocated oldStart ρ) frames frames') :
      Step ⟨pool, frames⟩ ⟨m.relocatedPool oldStart ρ pool, frames'⟩
  | leave {pool : Nat → OopWord} {frames : List Frame} {f : Frame} :
      Step ⟨pool, f :: frames⟩ ⟨pool, frames⟩

/-- The pool as compiled, and no activation. -/
def start : Mach := ⟨fun lit => (m.pool[lit]?.map PoolEntry.value).getD 0#64, []⟩

/-- An activation that is about to store a barrier-free vreg stores an integer or an old
object. -/
def ElidedFree (nb : Finset VReg) (s : Mach) : Prop :=
  ∀ f ∈ s.frames, ∀ obj val barrier, m.opAt f.pc = some (.storeField obj val barrier) →
    val ∈ nb → IsFree oldStart (f.vals val)

/-- From `x` on, the value `v` has now can be what a store of a barrier-free vreg stores: some path
to the store defines `v` no more, or moves it to a vreg that flows on. -/
inductive Flows (nb : Finset VReg) : VReg → Point → Prop
  | store {obj val : VReg} {barrier : Bool} {x : Point}
      (op : m.opAt x = some (.storeField obj val barrier)) (elided : val ∈ nb) : Flows nb val x
  | move {dst src : VReg} {x y : Point} (op : m.opAt x = some (.move dst src))
      (step : m.ir.Step x y) (rest : Flows nb dst y) : Flows nb src x
  | skip {v : VReg} {x y : Point} (step : m.ir.Step x y) (kept : ¬ m.ir.Writes v x y)
      (rest : Flows nb v y) : Flows nb v x

/-- What the vregs that flow into elided stores hold. -/
def SafeEntry (nb : Finset VReg) (f : Frame) : Prop :=
  ∀ v, m.Flows nb v f.pc → IsFree oldStart (f.vals v)

/-- If the step enters an activation, it enters it safely. -/
def Harmless (nb : Finset VReg) (s t : Mach) : Prop :=
  ∀ f, t.frames = f :: s.frames → m.SafeEntry oldStart nb f

/-! ## The invariant -/

variable {m} {notes} {oldStart} {nb : Finset VReg}

theorem IsFree.move (ρ : Relocation oldStart) {w : OopWord} (free : IsFree oldStart w) :
    IsFree oldStart (ρ.move w) := by
  rcases free with smi | ⟨tag, old⟩
  · rw [ρ.smi w smi]
    exact Or.inl smi
  · exact Or.inr (ρ.old w tag old)

theorem isFree_of_poolFree {lit : Nat} {entry : PoolEntry} (found : m.pool[lit]? = some entry)
    (free : m.poolFree oldStart lit = true) : IsFree oldStart entry.value := by
  unfold poolFree at free
  rw [found] at free
  simp only [Bool.or_eq_true, Bool.and_eq_true, beq_iff_eq, decide_eq_true_eq] at free
  rcases free with smi | ⟨⟨tag, old⟩, -⟩
  · exact Or.inl smi
  · exact Or.inr ⟨tag, old⟩

/-- The pool entries that were free at compile time are free now. -/
def PoolFree (m : DetailedMethod) (oldStart : OopWord) (pool : Nat → OopWord) : Prop :=
  ∀ lit, m.poolFree oldStart lit = true → IsFree oldStart (pool lit)

variable (m oldStart) in
theorem poolFree_start : m.PoolFree oldStart m.start.pool := by
  intro lit free
  cases found : m.pool[lit]? with
  | none => simp [poolFree, found] at free
  | some entry =>
    have := isFree_of_poolFree found free
    simpa [start, found] using this

theorem PoolFree.relocated {pool : Nat → OopWord} (free : m.PoolFree oldStart pool)
    (ρ : Relocation oldStart) : m.PoolFree oldStart (m.relocatedPool oldStart ρ pool) := by
  intro lit hlit
  unfold relocatedPool
  split
  · exact IsFree.move ρ (free lit hlit)
  · exact free lit hlit

/-- A comparison answers one of the booleans. -/
theorem primCmp_ok {trueObj falseObj a b w : OopWord} {op : CmpOp}
    (answer : primCmp trueObj falseObj op a b = .ok w) : w = trueObj ∨ w = falseObj := by
  obtain ⟨u, v, rfl, rfl⟩ | ⟨-, fails⟩ := smi2_cases a b
  · rw [Emitter.primCmp_oop] at answer
    split at answer
    · exact Or.inl (PrimResult.ok.inj answer).symm
    · exact Or.inr (PrimResult.ok.inj answer).symm
  · have fail_ : primCmp trueObj falseObj op a b = .fail := by cases op <;> exact fails _
    rw [fail_] at answer
    cases answer

/-- What a free definition writes is free, given that its sources are. -/
theorem isFree_result {pool : Nat → OopWord} {vals : VReg → OopWord} {op : Op} {w : OopWord}
    (poolFree : m.PoolFree oldStart pool) (free : m.free oldStart nb op = true)
    (moved : ∀ dst src, op = .move dst src → IsFree oldStart (vals src))
    (result : m.Result pool vals op w) : IsFree oldStart w := by
  have bools : m.boolsFree oldStart = true →
      w = pool m.trueLit ∨ w = pool m.falseLit → IsFree oldStart w := by
    intro hfree hw
    obtain ⟨htrue, hfalse⟩ := Bool.and_eq_true_iff.mp hfree
    rcases hw with rfl | rfl
    · exact poolFree _ htrue
    · exact poolFree _ hfalse
  cases op with
  | constSmi dst value =>
    rw [show w = value <<< 2 from result]
    exact Or.inl (isSmi_shiftLeft value)
  | constPool dst lit =>
    rw [show w = pool lit from result]
    exact poolFree lit free
  | move dst src =>
    rw [show w = vals src from result]
    exact moved dst src rfl
  | smiArith op dst a b fail =>
    obtain ⟨-, -, z, -, -, rfl, -⟩ := (Emitter.primArith_cases op (vals a) (vals b)).2 w result
    exact Or.inl z.tag
  | smiCmpVal op dst a b fail => exact bools free (primCmp_ok result)
  | fCmpVal dst a b => exact bools free result
  | storeField obj val barrier => cases free
  | other ir => cases free

/-- With stable verdicts every definition of a barrier-free vreg is free. -/
theorem free_of_stable (stable : m.round oldStart nb = nb) {v : VReg} (hv : v ∈ nb) {x : Point}
    {op : Op} (hop : m.opAt x = some op) (defines : v ∈ op.erase.defs) :
    m.free oldStart nb op = true :=
  (mem_round.mp (stable.symm ▸ hv)).2.2 op (opAt_mem hop) defines

/-- What flows into an elided store is barrier-free itself. -/
theorem Flows.mem (stable : m.round oldStart nb = nb) {v : VReg} {x : Point}
    (flows : m.Flows nb v x) : v ∈ nb := by
  induction flows with
  | store _ elided => exact elided
  | move op _ _ ih =>
    exact of_decide_eq_true (free_of_stable stable ih op List.mem_cons_self)
  | skip _ _ _ ih => exact ih

/-- An operation leaves free words in the vregs that flow into elided stores. -/
theorem SafeEntry.exec (stable : m.round oldStart nb = nb) {pool : Nat → OopWord} {f f' : Frame}
    (poolFree : m.PoolFree oldStart pool) (safe : m.SafeEntry oldStart nb f)
    (exec : m.Exec pool f f') : m.SafeEntry oldStart nb f' := by
  intro v flows
  by_cases written : m.ir.Writes v f.pc f'.pc
  · obtain ⟨ir, hir, defines⟩ := written.1
    obtain ⟨op, hop, rfl⟩ := exists_opAt hir
    refine isFree_result poolFree (free_of_stable stable (flows.mem stable) hop defines) ?_
      (exec.result op hop v written)
    -- a moved word was on its way to the store already
    rintro dst src rfl
    obtain rfl := List.mem_singleton.mp defines
    exact safe src (.move hop exec.step flows)
  · rw [exec.keeps v written]
    exact safe v (.skip exec.step written flows)

theorem SafeEntry.relocated {ρ : Relocation oldStart} {f f' : Frame}
    (safe : m.SafeEntry oldStart nb f) (relocated : Relocated oldStart ρ f f') :
    m.SafeEntry oldStart nb f' := by
  intro v flows
  have here := safe v (relocated.1 ▸ flows)
  rcases relocated.2 v with same | moved
  · rw [same]
    exact here
  · rw [moved]
    exact IsFree.move ρ here

/-- What every activation and the pool keep to. -/
structure Invariant (m : DetailedMethod) (oldStart : OopWord) (nb : Finset VReg) (s : Mach) :
    Prop where
  pool : m.PoolFree oldStart s.pool
  frames : ∀ f ∈ s.frames, m.SafeEntry oldStart nb f

theorem Invariant.step (stable : m.round oldStart nb = nb) {s t : Mach}
    (inv : m.Invariant oldStart nb s) (step : m.Step notes oldStart s t)
    (harmless : m.Harmless oldStart nb s t) : m.Invariant oldStart nb t := by
  cases step with
  | enter enters =>
    refine ⟨inv.pool, fun f hf => ?_⟩
    rcases List.mem_cons.mp hf with rfl | hf
    · exact harmless _ rfl
    · exact inv.frames f hf
  | exec exec =>
    refine ⟨inv.pool, fun f hf => ?_⟩
    rcases List.mem_cons.mp hf with rfl | hf
    · exact (inv.frames _ List.mem_cons_self).exec stable inv.pool exec
    · exact inv.frames f (List.mem_cons_of_mem _ hf)
  | @collect pool frames frames' ρ relocated =>
    refine ⟨inv.pool.relocated ρ, ?_⟩
    have safe := inv.frames
    clear harmless inv
    induction relocated with
    | nil => exact safe
    | cons first _ ih =>
      obtain ⟨here, rest⟩ := List.forall_mem_cons.mp safe
      exact List.forall_mem_cons.mpr ⟨here.relocated first, ih rest⟩
  | leave => exact ⟨inv.pool, fun f hf => inv.frames f (List.mem_cons_of_mem _ hf)⟩

theorem Invariant.elidedFree {s : Mach} (inv : m.Invariant oldStart nb s) :
    m.ElidedFree oldStart nb s :=
  fun f hf _ _ _ hop elided => inv.frames f hf _ (.store hop elided)

theorem Invariant.run (stable : m.round oldStart nb = nb) {s : Mach}
    (run : Relation.ReflTransGen
      (fun s t => m.Step notes oldStart s t ∧ m.Harmless oldStart nb s t) m.start s) :
    m.Invariant oldStart nb s := by
  induction run with
  | refl => exact ⟨m.poolFree_start oldStart, fun f hf => absurd hf List.not_mem_nil⟩
  | tail _ step ih => exact ih.step stable step.1 step.2

/-- Nothing flows from before its definition. -/
theorem not_flows_entry (defined : m.ir.DefinedBeforeUse) {v : VReg} {x : Point}
    (reaches : m.ir.ReachesWithout v IrMethod.entryPoint x) : ¬ m.Flows nb v x := by
  intro flows
  induction flows with
  | store hop _ =>
    exact defined _ _ ⟨_, op?_of_opAt hop, List.mem_cons_of_mem _ List.mem_cons_self⟩ reaches
  | move hop _ _ _ => exact defined _ _ ⟨_, op?_of_opAt hop, List.mem_cons_self⟩ reaches
  | skip step kept _ ih => exact ih (reaches.tail ⟨step, kept⟩)

/-- `[last := t. t := 2147483648 * 2147483648] repeat` for a field `last` and a temporary `t`, as
compiled for on-stack replacement at the loop. The site of the product has only seen small
integers as receivers, so it is a checked multiplication that traps. -/
def squaringIr : IrMethod where
  isOsr := true
  blocks := [⟨[.param 0, .constPool 1, .jump 1], []⟩,
    ⟨[.storeField 0 1, .constSmi 2, .smiArith 3 2 2 2, .move 1 3, .poll, .jump 1],
      [(4, ⟨.loopPoll, [], []⟩)]⟩,
    ⟨[.uncommonTrap], [(0, ⟨.uncommonTrap, [2, 2], []⟩)]⟩]
  vregs := List.replicate 4 ⟨true, false⟩
  argc := 0
  ntemps := 1
  blockClosureVreg := none
  ctxVregs := []
  methodCtxVreg := none
  entry_lt := by decide
  targets_lt := by decide
  terminated := fun block h => IrMethod.terminated_of_last (by revert block; decide)
  vregs_lt := by decide

/-- The pool holds nil and the booleans, all of them old. -/
def squaring : DetailedMethod where
  ir := squaringIr
  blocks := [
    [.other (.param 0), .constPool 1 0, .other (.jump 1)],
    [.storeField 0 1 true, .constSmi 2 0x80000000#64, .smiArith .mul 3 2 2 2, .move 1 3,
      .other .poll, .other (.jump 1)],
    [.other .uncommonTrap]]
  erases := by decide
  pool := [⟨0x9001#64, true⟩, ⟨0x9101#64, true⟩, ⟨0x9201#64, true⟩]
  trueLit := 1
  falseLit := 2
  nilLit := 0

/-- The frame of an on-stack replacement of `squaring` by an old receiver whose `t` is `t`. -/
def squaringFrame (t : OopWord) : Frame :=
  ⟨(1, 0), fun v => if v = 0 then 0x9301#64 else if v = 1 then t else 0x9001#64⟩

theorem squaring_enters (t : OopWord) :
    squaring.Enters IrMethod.plainNotes squaring.start.pool (squaringFrame t) := by
  have plans : ((squaringIr.regalloc .x64).bind fun r =>
      (squaringIr.osrPlan IrMethod.plainNotes r 1).map fun plan =>
        (plan.copies, r.frameSlots, plan.intervals.map fun iv => (iv.vreg, iv.assignment))) =
      some ([0, 1], 3, [(0, some (.spill 0)), (1, some (.spill 1)), (2, some (.spill 2)),
        (3, some (.reg 1))]) := by decide
  obtain ⟨result, regalloc, plans⟩ := Option.bind_eq_some_iff.mp plans
  obtain ⟨plan, planned, places⟩ := Option.map_eq_some_iff.mp plans
  obtain ⟨copies, places⟩ := Prod.mk.inj places
  obtain ⟨frameSlots, places⟩ := Prod.mk.inj places
  have packed : [0x9301#64, t].length = plan.copies.length := by rw [copies]; rfl
  refine .osr rfl regalloc planned packed ?_
  rw [copies, frameSlots]
  intro iv hiv s w spilled seeded
  have place := List.mem_map_of_mem (f := fun iv : LiveInterval => (iv.vreg, iv.assignment)) hiv
  rw [places, spilled] at place
  simp only [List.mem_cons, Prod.mk.injEq, Option.some_inj, Assignment.spill.injEq,
    reduceCtorEq, and_false, List.not_mem_nil, or_false] at place
  rcases place with ⟨hv, rfl⟩ | ⟨hv, rfl⟩ | ⟨hv, rfl⟩
  · rw [hv]
    exact Option.some_inj.mp seeded
  · rw [hv]
    exact Option.some_inj.mp seeded
  · rw [hv]
    exact Option.some_inj.mp seeded

end DetailedMethod

end WinVm.Compiler
