import Mathlib.Logic.Relation
import WinVm.Compiler.Scopes

/-!
# The intermediate representation

`IrMethod` of `compiler/ir.rs` as register allocation sees it: for every operation the
virtual registers it reads and writes and the blocks it can branch to. Operands that neither
liveness nor control flow looks at (constants, offsets, comparison codes, pool literals) are
left out.

Control runs through program points. An operation falls through to the next one of its
block unless it ends the block, and may leave for the first operation of any block it names,
from the middle of a block as well: guards and checked arithmetic branch to their `fail`
block. `Reaches`, `ReachesWithout` and `LiveAfter` are the path notions over these points.
-/

namespace WinVm.Compiler

open WinVm.Compiler.Scopes (SafepointKind)

abbrev VReg := Nat
abbrev BlockId := Nat

structure VRegInfo where
  isOop : Bool
  isFp : Bool
deriving DecidableEq, Repr

inductive Ir where
  | constSmi (dst : VReg)
  | constPool (dst : VReg)
  | move (dst src : VReg)
  | param (dst : VReg)
  | loadKlass (dst obj : VReg)
  | loadField (dst obj : VReg)
  | storeField (obj val : VReg)
  | smiArith (dst a b : VReg) (fail : BlockId)
  | arrayAt (dst arr idx : VReg) (fail : BlockId)
  | arrayAtPut (dst arr idx val : VReg) (fail : BlockId)
  | smiCmpBr (a b : VReg) (ifTrue ifFalse fail : BlockId)
  | smiCmpVal (dst a b : VReg) (fail : BlockId)
  | refCmpVal (dst a b : VReg)
  | boolNot (dst src : VReg) (fail : BlockId)
  | fUnbox (dst src : VReg) (fail : BlockId)
  | fBox (dst src : VReg)
  | fArith (dst a b : VReg)
  | fCmpBr (a b : VReg) (ifTrue ifFalse : BlockId)
  | fCmpVal (dst a b : VReg)
  | fConst (dst : VReg)
  | vecArith (dst a b : VReg) (fail : BlockId)
  | jump (target : BlockId)
  | boolBr (val : VReg) (ifTrue ifFalse notBool : BlockId)
  | guardKlass (obj : VReg) (fail : BlockId)
  | guardKlassIn (obj : VReg) (fail : BlockId)
  | callSend (dst : VReg) (args : List VReg)
  | callRuntime (dst : Option VReg) (args : List VReg)
  | alloc (dst : VReg)
  | poll
  | uncommonTrap
  | ret (val : VReg)
  | retSelf
  | nlrReturn (closure value : VReg)
  | bailout
deriving DecidableEq, Repr

namespace Ir

/-- Every vreg the operation reads; `RetSelf` reads the receiver, vreg 0. -/
def uses : Ir → List VReg
  | move _ src => [src]
  | loadKlass _ obj => [obj]
  | loadField _ obj => [obj]
  | storeField obj val => [obj, val]
  | smiArith _ a b _ => [a, b]
  | smiCmpBr a b _ _ _ => [a, b]
  | smiCmpVal _ a b _ => [a, b]
  | refCmpVal _ a b => [a, b]
  | boolNot _ src _ => [src]
  | fArith _ a b => [a, b]
  | fCmpBr a b _ _ => [a, b]
  | fCmpVal _ a b => [a, b]
  | fUnbox _ src _ => [src]
  | fBox _ src => [src]
  | vecArith _ a b _ => [a, b]
  | arrayAt _ arr idx _ => [arr, idx]
  | arrayAtPut _ arr idx val _ => [arr, idx, val]
  | boolBr val _ _ _ => [val]
  | guardKlass obj _ => [obj]
  | guardKlassIn obj _ => [obj]
  | callSend _ args => args
  | callRuntime _ args => args
  | ret val => [val]
  | nlrReturn closure value => [closure, value]
  | retSelf => [0]
  | constSmi _ | constPool _ | fConst _ | param _ | jump _ | alloc _ | poll | uncommonTrap
  | bailout => []

def defs : Ir → List VReg
  | constSmi dst | constPool dst | move dst _ | param dst | loadKlass dst _ | loadField dst _
  | smiArith dst _ _ _ | arrayAt dst _ _ _ | arrayAtPut dst _ _ _ _ | smiCmpVal dst _ _ _
  | refCmpVal dst _ _ | boolNot dst _ _ | callSend dst _ | fUnbox dst _ _ | fBox dst _
  | fArith dst _ _ | fCmpVal dst _ _ | fConst dst | vecArith dst _ _ _ | alloc dst => [dst]
  | callRuntime (some dst) _ => [dst]
  | storeField _ _ | smiCmpBr _ _ _ _ _ | fCmpBr _ _ _ _ | jump _ | boolBr _ _ _ _
  | guardKlass _ _ | guardKlassIn _ _ | callRuntime none _ | poll | uncommonTrap | ret _
  | retSelf | nlrReturn _ _ | bailout => []

/-- The blocks the operation can branch to, `fail` edges included. -/
def targets : Ir → List BlockId
  | jump target => [target]
  | boolBr _ ifTrue ifFalse notBool => [ifTrue, ifFalse, notBool]
  | smiCmpBr _ _ ifTrue ifFalse fail => [ifTrue, ifFalse, fail]
  | fCmpBr _ _ ifTrue ifFalse => [ifTrue, ifFalse]
  | smiArith _ _ _ fail | smiCmpVal _ _ _ fail | arrayAt _ _ _ fail | arrayAtPut _ _ _ _ fail
  | fUnbox _ _ fail | boolNot _ _ fail | vecArith _ _ _ fail | guardKlass _ fail
  | guardKlassIn _ fail => [fail]
  | _ => []

def isSafepoint : Ir → Bool
  | callSend _ _ | callRuntime _ _ | alloc _ | fBox _ _ | uncommonTrap | poll => true
  | _ => false

/-- A real call: `CallSend` or `CallRuntime`. -/
def isCall : Ir → Bool
  | callSend _ _ | callRuntime _ _ => true
  | _ => false

/-- The operations after which control does not go on to the next one. -/
def isTerminator : Ir → Bool
  | jump _ | boolBr _ _ _ _ | smiCmpBr _ _ _ _ _ | fCmpBr _ _ _ _ | uncommonTrap | ret _
  | retSelf | nlrReturn _ _ | bailout => true
  | _ => false

theorem targets_of_isSafepoint {ir : Ir} (h : ir.isSafepoint) : ir.targets = [] := by
  cases ir <;> first | rfl | cases h

theorem defs_of_isTerminator {ir : Ir} (h : ir.isTerminator) : ir.defs = [] := by
  cases ir <;> first | rfl | cases h

end Ir

/-- One level of an inlined frame chain: what its rebuilt frame reads. -/
structure InlineLevel where
  receiver : VReg
  slots : List VReg
  callerPendingStack : List VReg
deriving DecidableEq, Repr

/-- A deoptimisation site: its kind, its operand stack, and the chain of inlined frames it
lies in, innermost first (empty for a site of the method itself). -/
structure DeoptRaw where
  kind : SafepointKind
  stack : List VReg
  inline : List InlineLevel
deriving DecidableEq, Repr

structure IrBlock where
  code : List Ir
  deoptSites : List (Nat × DeoptRaw)
deriving DecidableEq, Repr

/-- The blocks a block can transfer control to, in the order of its operations. -/
def successors (block : IrBlock) : List BlockId :=
  block.code.flatMap Ir.targets

/-- A method of the converter. A block is named by its index; block 0 is the entry. Branches
stay inside the method, and a block's last operation, and no other, ends it. -/
structure IrMethod where
  isOsr : Bool
  blocks : List IrBlock
  vregs : List VRegInfo
  argc : Nat
  ntemps : Nat
  blockClosureVreg : Option VReg
  ctxVregs : List VReg
  methodCtxVreg : Option VReg
  entry_lt : 0 < blocks.length
  targets_lt : ∀ block ∈ blocks, ∀ t ∈ successors block, t < blocks.length
  terminated : ∀ block ∈ blocks, ∃ init last, block.code = init ++ [last] ∧
    last.isTerminator ∧ ∀ ir ∈ init, ir.isTerminator = false
  vregs_lt : ∀ block ∈ blocks, ∀ ir ∈ block.code, ∀ v ∈ ir.uses ++ ir.defs, v < vregs.length

namespace IrMethod

variable (m : IrMethod)

/-- The code of block `b`, empty when there is no such block. -/
def code (b : BlockId) : List Ir := (m.blocks[b]?.map IrBlock.code).getD []

def succs (b : BlockId) : List BlockId := (m.blocks[b]?.map successors).getD []

/-! ## Program points and paths -/

/-- An operation: a block and an index into its code. -/
abbrev Point := BlockId × Nat

def entryPoint : Point := (0, 0)

def op? (x : Point) : Option Ir := (m.code x.1)[x.2]?

/-- One step of control. -/
inductive Step : Point → Point → Prop
  | next {b i : Nat} {ir ir' : Ir} (h : m.op? (b, i) = some ir) (hnt : ir.isTerminator = false)
    (h' : m.op? (b, i + 1) = some ir') : Step (b, i) (b, i + 1)
  | branch {b i t : Nat} {ir ir' : Ir} (h : m.op? (b, i) = some ir) (ht : t ∈ ir.targets)
    (h' : m.op? (t, 0) = some ir') : Step (b, i) (t, 0)

def Defines (v : VReg) (x : Point) : Prop := ∃ ir, m.op? x = some ir ∧ v ∈ ir.defs

def Uses (v : VReg) (x : Point) : Prop := ∃ ir, m.op? x = some ir ∧ v ∈ ir.uses

/-- The operation at `x` is a safepoint. -/
def Safepoint (x : Point) : Prop := ∃ ir, m.op? x = some ir ∧ ir.isSafepoint

def Reaches : Point → Point → Prop := Relation.ReflTransGen m.Step

/-- The step from `x` to `y` writes `v`. A definition takes effect when control goes on to the
next operation; leaving through the `fail` edge skips it. -/
def Writes (v : VReg) (x y : Point) : Prop := m.Defines v x ∧ y = (x.1, x.2 + 1)

/-- Some path from the first point to the second passes no definition of `v`. -/
def ReachesWithout (v : VReg) : Point → Point → Prop :=
  Relation.ReflTransGen fun x y => m.Step x y ∧ ¬ m.Writes v x y

/-- Every path from the entry to a use of a vreg passes a definition of it. -/
def DefinedBeforeUse : Prop :=
  ∀ v x, m.Uses v x → ¬ m.ReachesWithout v entryPoint x

/-- Every path from the entry to `x` passes `y`. -/
def Dominates (y x : Point) : Prop :=
  x = y ∨ ¬ Relation.ReflTransGen (fun a b => m.Step a b ∧ a ≠ y) entryPoint x

/-- The control-flow graph is reducible: every cycle of it uses an edge back to a point that
dominates the edge's source. -/
def Reducible : Prop :=
  ∀ x, m.Reaches entryPoint x →
    ¬ Relation.TransGen (fun a b => m.Step a b ∧ ¬ m.Dominates b a) x x

/-- Some path leaves `x` and reaches a use of `v` without an intervening definition. -/
def LiveAfter (v : VReg) (x : Point) : Prop :=
  ∃ y z, m.Step x y ∧ m.ReachesWithout v y z ∧ m.Uses v z

variable {m}

/-! ## Certificates -/

variable (m)

/-- The vregs written when control stands at `x`, if those of `known b` are at the start of
every block `b`. -/
def writtenAt (known : BlockId → List VReg) (x : Point) : List VReg :=
  ((m.code x.1).take x.2).flatMap Ir.defs ++ known x.1

/-- `known` is a certificate that every use is defined. -/
def certifies (known : BlockId → List VReg) : Bool :=
  (known 0).isEmpty &&
    (List.range m.blocks.length).all fun b => (m.code b).zipIdx.all fun x =>
      (x.1.uses.all fun v => (m.writtenAt known (b, x.2)).contains v) &&
      x.1.targets.all fun t => (known t).all fun v => (m.writtenAt known (b, x.2)).contains v

/-- `rank` grows along every branch of the method, which then has no loop. -/
def ranks (rank : BlockId → Nat) : Bool :=
  (List.range m.blocks.length).all fun b => (m.succs b).all fun t => rank b < rank t

variable {m}

theorem block_lt_of_op? {x : Point} {ir : Ir} (h : m.op? x = some ir) :
    x.1 < m.blocks.length := by
  unfold op? code at h
  cases hb : m.blocks[x.1]? with
  | none => simp [hb] at h
  | some block => exact (List.getElem?_eq_some_iff.mp hb).1

theorem definedBeforeUse_of_certifies (known : BlockId → List VReg)
    (h : m.certifies known = true) : m.DefinedBeforeUse := by
  unfold certifies at h
  obtain ⟨hentry, hblocks⟩ := Bool.and_eq_true_iff.mp h
  have hat : ∀ {x ir}, m.op? x = some ir →
      (∀ v ∈ ir.uses, v ∈ m.writtenAt known x) ∧
        ∀ t ∈ ir.targets, ∀ v ∈ known t, v ∈ m.writtenAt known x := by
    intro x ir hop
    have hb := List.all_eq_true.mp hblocks x.1 (List.mem_range.mpr (block_lt_of_op? hop))
    have hx := List.all_eq_true.mp hb (ir, x.2) (List.mem_zipIdx_iff_getElem?.mpr hop)
    obtain ⟨huses, htargets⟩ := Bool.and_eq_true_iff.mp hx
    refine ⟨fun v hv => ?_, fun t ht v hv => ?_⟩
    · exact List.contains_iff_mem.mp (List.all_eq_true.mp huses v hv)
    · exact List.contains_iff_mem.mp
        (List.all_eq_true.mp (List.all_eq_true.mp htargets t ht) v hv)
  -- along a path without a definition of `v`, `v` never counts as written
  have hpath : ∀ {v x}, m.ReachesWithout v entryPoint x → v ∉ m.writtenAt known x := by
    intro v x hreach
    induction hreach with
    | refl =>
      have hnil : known 0 = [] := List.isEmpty_iff.mp hentry
      simp [writtenAt, entryPoint, hnil]
    | tail _ hstep ih =>
      obtain ⟨hstep, hnw⟩ := hstep
      cases hstep with
      | @next b i ir ir' hop hnt hop' =>
        have hget : (m.code b)[i]? = some ir := hop
        have hnd : v ∉ ir.defs := fun hv => hnw ⟨⟨ir, hop, hv⟩, rfl⟩
        simp only [writtenAt, List.mem_append, not_or, List.take_add_one, hget,
          Option.toList_some, List.flatMap_append, List.flatMap_singleton] at ih ⊢
        exact ⟨⟨ih.1, hnd⟩, ih.2⟩
      | @branch b i t ir ir' hop ht hop' =>
        intro hmem
        simp only [writtenAt, List.take_zero, List.flatMap_nil, List.nil_append] at hmem
        exact ih ((hat hop).2 t ht v hmem)
  intro v x huse hreach
  obtain ⟨ir, hop, hu⟩ := huse
  exact hpath hreach ((hat hop).1 v hu)

theorem reducible_of_ranks (rank : BlockId → Nat) (h : m.ranks rank = true) : m.Reducible := by
  have hstep : ∀ {a b : Point}, m.Step a b →
      rank a.1 < rank b.1 ∨ (rank a.1 = rank b.1 ∧ a.2 < b.2) := by
    intro a b hab
    cases hab with
    | next _ _ _ => exact Or.inr ⟨rfl, Nat.lt_succ_self _⟩
    | @branch c i t ir ir' hop ht hop' =>
      left
      have hc := List.all_eq_true.mp h c (List.mem_range.mpr (block_lt_of_op? hop))
      have ht' : t ∈ m.succs c := by
        unfold op? code at hop
        unfold succs
        cases hb : m.blocks[c]? with
        | none => simp [hb] at hop
        | some block =>
          simp only [hb, Option.map_some, Option.getD_some] at hop ⊢
          exact List.mem_flatMap.mpr ⟨ir, List.mem_of_getElem? hop, ht⟩
      exact of_decide_eq_true (List.all_eq_true.mp hc t ht')
  intro x _ hcycle
  -- the rank of the block, then the index in it, grows along every step of the cycle
  have hlex : ∀ {y}, Relation.TransGen (fun a b => m.Step a b ∧ ¬ m.Dominates b a) x y →
      rank x.1 < rank y.1 ∨ (rank x.1 = rank y.1 ∧ x.2 < y.2) := by
    intro y hy
    induction hy with
    | single hab => exact hstep hab.1
    | tail _ hab ih =>
      have := hstep hab.1
      omega
  rcases hlex hcycle with hlt | ⟨-, hlt⟩
  · exact Nat.lt_irrefl _ hlt
  · exact Nat.lt_irrefl _ hlt

theorem terminated_of_last {code : List Ir}
    (h : (match code.getLast? with
      | some last => last.isTerminator
      | none => false) && code.dropLast.all (fun ir => !ir.isTerminator) = true) :
    ∃ init last, code = init ++ [last] ∧ last.isTerminator ∧
      ∀ ir ∈ init, ir.isTerminator = false := by
  obtain ⟨hlast, hinit⟩ := Bool.and_eq_true_iff.mp h
  cases hl : code.getLast? with
  | none => simp [hl] at hlast
  | some last =>
    refine ⟨code.dropLast, last, (List.dropLast_append_getLast? last hl).symm, ?_, ?_⟩
    · simpa [hl] using hlast
    · simpa using hinit

end IrMethod

end WinVm.Compiler
