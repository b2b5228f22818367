import WinVm.Compiler.DecodeGraph
import WinVm.Lib.Propagate

/-!
# Entry depths

`compiler/ir.rs`: `compute_entry_depths` simulates the depth of the operand stack over the
block graph of a method, and `entry_stack_sources` decides from the depths and the edges
which block inherits the stack of its predecessor. A failed assertion, a negative depth
with debug assertions, and an access out of bounds are a `none`.

`Activation.Step` is the dispatch loop as far as the operands go: a value that no depth
depends on is arbitrary, and so is the result of a send, which may also never arrive. A
branch on another value than the two booleans sends `#mustBeBoolean` and is executed again
on the result.

The depths that are assigned to the instructions of a method decide the matter: if every
instruction finds its operands and agrees with the depth of wherever control goes from it,
what the compiler computes is exact in every run.

Results: `Depths.exact`.
-/

namespace WinVm.Compiler

open WinVm.Bytecode WinVm.Lib

/-! ## The simulation -/

/-- The argument count of a send is in its IC site. -/
def instrStackDelta (m : CompiledMethod) : Instr → Option Int
  | .pushSelf | .pushNil | .pushTrue | .pushFalse | .pushSmi _ | .pushLiteral _ | .pushTemp _
  | .pushInstvar _ | .pushGlobal _ | .dup | .pushCtxTemp _ _ | .pushClosure _ _ => some 1
  | .storeTemp _ => some 0
  | .storeTempPop _ | .storeInstvarPop _ | .storeGlobalPop _ | .storeCtxTempPop _ _ | .pop => some (-1)
  | .send ic _ => (m.icSite ic.toNat).map fun site => -site.2
  | .jumpFwd _ | .jumpBack _ => some 0
  | .brTrueFwd _ | .brFalseFwd _ => some (-1)
  | .returnTos | .blockReturnTos | .nlrTos => some (-1)
  | .returnSelf => some 0

/-- The loop over the instructions of a block: the depth behind them, and the maximum. -/
def scanBlock (m : CompiledMethod) (stop : Nat) : Nat → Nat → Int → Int → Option (Int × Int)
  | 0, bci, depth, maxDepth => if bci < stop then none else some (depth, maxDepth)
  | fuel + 1, bci, depth, maxDepth =>
    if bci < stop then
      match decodeAt m.code bci with
      | none => none
      | some (instr, next) =>
        match instrStackDelta m instr with
        | none => none
        | some delta => scanBlock m stop fuel next (depth + delta) (max maxDepth (depth + delta))
    else some (depth, maxDepth)

/-- The edges out of a block, and which of them go backward. -/
def Terminator.edges : Terminator → List (BlockIndex × Bool)
  | .fallthrough next => [(next, false)]
  | .jump target isBackward => [(target, isBackward)]
  | .branch ifTrue ifFalse => [(ifTrue, false), (ifFalse, false)]
  | .ret => []

/-- One turn of the worklist loop: the new maximum, and what is recorded. -/
def visitBlock (debug : Bool) (m : CompiledMethod) (cfg : Cfg) (b : BlockIndex) (depth maxDepth : Int) :
    Option (Int × List (BlockIndex × Int)) :=
  match cfg.blocks[b]? with
  | none => none
  | some block =>
    match scanBlock m block.bciEnd m.code.length block.bciStart depth (max maxDepth depth) with
    | none => none
    | some (depth, maxDepth) =>
      if debug && decide (depth < 0) then none
      else some (maxDepth, block.terminator.edges.map fun edge => (edge.1, depth))

/-- The depth at the start of each block, 0 where the loop never comes, and the maximum. -/
def computeEntryDepths (debug : Bool) (m : CompiledMethod) (cfg : Cfg) : Option (List Int × Int) :=
  if cfg.blocks.isEmpty then none
  else
    ((Propagation.start cfg.blocks.length 0 0 0).run (visitBlock debug m cfg)
      (cfg.blocks.length + 1)).map fun s => (s.labels.map (·.getD 0), s.gathered)

/-- D3.2's merge rule. -/
inductive EntryStackSource where
  | empty
  | inherit (predecessor : BlockIndex)
  | merge
deriving DecidableEq, Repr

def predecessors (cfg : Cfg) (b : BlockIndex) : List (BlockIndex × Bool) :=
  (cfg.blocks.mapIdx fun i block =>
    (block.terminator.edges.filter fun edge => edge.1 = b).map fun edge => (i, edge.2)).flatten

def entryStackSources (cfg : Cfg) (entryDepth : List Int) : List EntryStackSource :=
  (List.range cfg.blocks.length).map fun b =>
    if entryDepth[b]? = some 0 then .empty
    else
      match predecessors cfg b with
      | [(p, false)] => .inherit p
      | _ => .merge

/-! ## The interpreter's operands -/

def pushes : Instr → Bool
  | .pushSelf | .pushNil | .pushTrue | .pushFalse | .pushSmi _ | .pushLiteral _ | .pushTemp _
  | .pushInstvar _ | .pushGlobal _ | .pushCtxTemp _ _ | .pushClosure _ _ => true
  | _ => false

def pops : Instr → Bool
  | .storeTempPop _ | .storeInstvarPop _ | .storeGlobalPop _ | .storeCtxTempPop _ _ | .pop => true
  | _ => false

/-- How many operands the instruction reads. -/
def operandsOf (m : CompiledMethod) : Instr → Nat
  | .dup | .storeTemp _ | .storeTempPop _ | .storeInstvarPop _ | .storeGlobalPop _
  | .storeCtxTempPop _ _ | .pop | .brTrueFwd _ | .brFalseFwd _ | .returnTos | .blockReturnTos
  | .nlrTos => 1
  | .send ic _ => ((m.icSite ic.toNat).map fun site => site.2.toNat + 1).getD 0
  | _ => 0

/-- A running method: its next instruction, and its operands with the topmost first. -/
structure Activation (V : Type) where
  bci : Nat
  operands : List V

namespace Activation

variable {V : Type}

/-- One instruction, if it goes on in the activation; `yes` and `no` are the booleans. -/
inductive Step (m : CompiledMethod) (yes no : V) : Activation V → Activation V → Prop
  | push {bci next : Nat} {instr : Instr} {ops : List V} (v : V)
      (at_ : decodeAt m.code bci = some (instr, next)) (kind : pushes instr = true) :
      Step m yes no ⟨bci, ops⟩ ⟨next, v :: ops⟩
  | dup {bci next : Nat} {ops : List V} {v : V} (at_ : decodeAt m.code bci = some (.dup, next)) :
      Step m yes no ⟨bci, v :: ops⟩ ⟨next, v :: v :: ops⟩
  | storeTemp {bci next : Nat} {t : Byte} {ops : List V} {v : V}
      (at_ : decodeAt m.code bci = some (.storeTemp t, next)) :
      Step m yes no ⟨bci, v :: ops⟩ ⟨next, v :: ops⟩
  | pop {bci next : Nat} {instr : Instr} {ops : List V} {v : V}
      (at_ : decodeAt m.code bci = some (instr, next)) (kind : pops instr = true) :
      Step m yes no ⟨bci, v :: ops⟩ ⟨next, ops⟩
  | send {bci next argc : Nat} {ic : BitVec 16} {isSuper : Bool} {sel : Oop} {args ops : List V}
      {receiver : V} (result : V) (at_ : decodeAt m.code bci = some (.send ic isSuper, next))
      (site : m.icSite ic.toNat = some (sel, (argc : Int))) (args_length : args.length = argc) :
      Step m yes no ⟨bci, args ++ receiver :: ops⟩ ⟨next, result :: ops⟩
  | jumpFwd {bci next : Nat} {d : BitVec 16} {ops : List V}
      (at_ : decodeAt m.code bci = some (.jumpFwd d, next)) :
      Step m yes no ⟨bci, ops⟩ ⟨next + d.toNat, ops⟩
  | jumpBack {bci next : Nat} {d : BitVec 16} {ops : List V}
      (at_ : decodeAt m.code bci = some (.jumpBack d, next)) :
      Step m yes no ⟨bci, ops⟩ ⟨next - d.toNat, ops⟩
  | brTrueFwd {bci next : Nat} {d : BitVec 16} {ops : List V} (outcome : Bool)
      (at_ : decodeAt m.code bci = some (.brTrueFwd d, next)) :
      Step m yes no ⟨bci, (if outcome then yes else no) :: ops⟩
        ⟨if outcome then next + d.toNat else next, ops⟩
  | brFalseFwd {bci next : Nat} {d : BitVec 16} {ops : List V} (outcome : Bool)
      (at_ : decodeAt m.code bci = some (.brFalseFwd d, next)) :
      Step m yes no ⟨bci, (if outcome then yes else no) :: ops⟩
        ⟨if outcome then next else next + d.toNat, ops⟩
  | mustBeBoolean {bci next : Nat} {instr : Instr} {ops : List V} {v : V} (result : V)
      (at_ : decodeAt m.code bci = some (instr, next))
      (kind : ∃ d, instr = .brTrueFwd d ∨ instr = .brFalseFwd d) (other : v ≠ yes ∧ v ≠ no) :
      Step m yes no ⟨bci, v :: ops⟩ ⟨bci, result :: ops⟩

/-- The states of a run from the first instruction. -/
def Reaches (m : CompiledMethod) (yes no : V) (a : Activation V) : Prop :=
  Relation.ReflTransGen (Step m yes no) ⟨0, []⟩ a

/-- A step moves the depth as the simulation does, to where the instruction leads; or it
executes a branch again. -/
theorem Step.effect {m : CompiledMethod} {yes no : V} {a a' : Activation V}
    (step : Step m yes no a a') : ∃ instr next, decodeAt m.code a.bci = some (instr, next) ∧
      ((∃ outcome delta, instrSuccessor outcome next instr = some a'.bci ∧
          instrStackDelta m instr = some delta ∧
          (a'.operands.length : Int) = a.operands.length + delta) ∨
        (a'.bci = a.bci ∧ a'.operands.length = a.operands.length)) := by
  cases step with
  | @push bci next instr ops v at_ kind =>
    refine ⟨instr, next, at_, .inl ⟨true, 1, ?_, ?_, Nat.cast_succ _⟩⟩
    · cases instr <;> first | rfl | cases kind
    · cases instr <;> first | rfl | cases kind
  | dup at_ => exact ⟨_, _, at_, .inl ⟨true, 1, rfl, rfl, Nat.cast_succ _⟩⟩
  | storeTemp at_ => exact ⟨_, _, at_, .inl ⟨true, 0, rfl, rfl, (add_zero _).symm⟩⟩
  | @pop bci next instr ops v at_ kind =>
    refine ⟨instr, next, at_, .inl ⟨true, -1, ?_, ?_, ?_⟩⟩
    · cases instr <;> first | rfl | cases kind
    · cases instr <;> first | rfl | cases kind
    · simp
  | @send bci next argc ic isSuper sel args ops receiver result at_ site args_length =>
    refine ⟨_, _, at_, .inl ⟨true, -(argc : Int), rfl, by rw [instrStackDelta, site]; rfl, ?_⟩⟩
    simp only [List.length_append, List.length_cons, args_length]
    omega
  | jumpFwd at_ => exact ⟨_, _, at_, .inl ⟨true, 0, rfl, rfl, (add_zero _).symm⟩⟩
  | jumpBack at_ => exact ⟨_, _, at_, .inl ⟨true, 0, rfl, rfl, (add_zero _).symm⟩⟩
  | brTrueFwd outcome at_ => exact ⟨_, _, at_, .inl ⟨outcome, -1, rfl, rfl, by simp⟩⟩
  | brFalseFwd outcome at_ => exact ⟨_, _, at_, .inl ⟨outcome, -1, rfl, rfl, by simp⟩⟩
  | mustBeBoolean result at_ kind other => exact ⟨_, _, at_, .inr ⟨rfl, rfl⟩⟩

/-- The computed depths at a state of a run. -/
structure Exact (m : CompiledMethod) (cfg : Cfg) (depths : List Int) (maxDepth : Int) (yes no : V)
    (a : Activation V) : Prop where
  bounded : (a.operands.length : Int) ≤ maxDepth
  finds : ∀ instr next, decodeAt m.code a.bci = some (instr, next) →
    operandsOf m instr ≤ a.operands.length
  entered : ∀ (b : BlockIndex) block, cfg.blocks[b]? = some block → block.bciStart = a.bci →
    depths[b]? = some (a.operands.length : Int)
  inherited : ∀ a' (b p : BlockIndex) block, Step m yes no a a' → cfg.blocks[b]? = some block →
    block.bciStart = a'.bci → a'.bci ≠ a.bci →
    (entryStackSources cfg depths)[b]? = some (.inherit p) →
    ∃ pred, cfg.blocks[p]? = some pred ∧ pred.bciStart ≤ a.bci ∧ a.bci < pred.bciEnd

end Activation

/-- The block graph and the depths of a method are computed without a failed assertion, and
describe every state of every run. -/
def DepthsExact (debug : Bool) (m : CompiledMethod) : Prop :=
  ∃ cfg depths maxDepth, decode debug m.code = some cfg ∧
    computeEntryDepths debug m cfg = some (depths, maxDepth) ∧
    ∀ (V : Type) (yes no : V) (a : Activation V), a.Reaches m yes no →
      a.Exact m cfg depths maxDepth yes no

/-! ## Depths of the instructions -/

/-- From the depth of its bci the instruction moves to the depth of wherever it leads. -/
structure Moves (m : CompiledMethod) (D : Nat → Nat) (bci : Nat) (instr : Instr) (next : Nat) :
    Prop where
  finds : operandsOf m instr ≤ D bci
  moves : ∃ delta, instrStackDelta m instr = some delta ∧ 0 ≤ (D bci : Int) + delta ∧
    ∀ outcome target, instrSuccessor outcome next instr = some target →
      (D target : Int) = D bci + delta

/-- Depths that agree with every instruction. -/
structure Depths (m : CompiledMethod) (bcis : List Nat) (D : Nat → Nat) : Prop where
  entry : D 0 = 0
  instr : ∀ bci ∈ bcis, ∀ instr next, decodeAt m.code bci = some (instr, next) →
    Moves m D bci instr next

variable {m : CompiledMethod} {bcis starts seg : List Nat} {D : Nat → Nat} {cfg : Cfg}

/-- Along the instructions of a block the simulation meets their depths, and behind the last
the depth of wherever it leads. -/
theorem scanBlock_spec (h : Assembled m.code bcis) (typed : Depths m bcis D) {a stop fuel : Nat}
    (tiles : Tiles (instrWidth m.code) a stop seg) (sub : ∀ b ∈ seg, b ∈ bcis)
    (plain : ∀ b ∈ seg, ∀ instr next, decodeAt m.code b = some (instr, next) → next ≠ stop →
      instrSuccessor true next instr = some next)
    (nonempty : seg ≠ []) (enough : stop ≤ a + fuel) {maxDepth : Int} (le : (D a : Int) ≤ maxDepth) :
    ∃ depth maxDepth', scanBlock m stop fuel a (D a) maxDepth = some (depth, maxDepth') ∧
      0 ≤ depth ∧ maxDepth ≤ maxDepth' ∧ (∀ b ∈ seg, (D b : Int) ≤ maxDepth') ∧
      ∀ b ∈ seg, ∀ instr, decodeAt m.code b = some (instr, stop) →
        ∀ outcome target, instrSuccessor outcome stop instr = some target →
          (D target : Int) = depth := by
  induction tiles generalizing fuel maxDepth with
  | nil => exact absurd rfl nonempty
  | @cons a stop seg pos tiles ih =>
    have lt : a < stop := by
      have := tiles.le
      omega
    obtain ⟨fuel, rfl⟩ : ∃ n, fuel = n + 1 := ⟨fuel - 1, by omega⟩
    obtain ⟨instr, at_⟩ := h.decodes a (sub a List.mem_cons_self)
    obtain ⟨delta, known, nonneg, leads⟩ := (typed.instr a (sub a List.mem_cons_self) instr _ at_).moves
    rw [scanBlock, if_pos lt]
    simp only [at_, known]
    cases seg with
    | nil =>
      cases tiles
      refine ⟨D a + delta, max maxDepth (D a + delta), ?_, nonneg, le_max_left _ _, ?_, ?_⟩
      · cases fuel with
        | zero => rw [scanBlock, if_neg (Nat.lt_irrefl _)]
        | succ fuel => rw [scanBlock, if_neg (Nat.lt_irrefl _)]
      · intro b mem
        rw [List.mem_singleton.mp mem]
        exact le.trans (le_max_left _ _)
      · intro b mem instr' at' outcome target succ
        rw [List.mem_singleton.mp mem, at_] at at'
        cases at'
        exact leads outcome target succ
    | cons b seg =>
      have before := tiles.bounds List.mem_cons_self
      have next : (D (a + instrWidth m.code a) : Int) = D a + delta :=
        leads true _ (plain a List.mem_cons_self instr _ at_ (by omega))
      have enough' : stop ≤ a + instrWidth m.code a + fuel := by omega
      rw [← next]
      obtain ⟨depth, maxDepth', ran, nonneg', grew, covered, ends⟩ :=
        ih (fun x mem => sub x (List.mem_cons_of_mem _ mem))
          (fun x mem => plain x (List.mem_cons_of_mem _ mem)) (List.cons_ne_nil _ _) enough'
          (le_max_right maxDepth _)
      refine ⟨depth, maxDepth', ran, nonneg', (le_max_left _ _).trans grew, ?_, ?_⟩
      · intro x mem
        rcases List.mem_cons.mp mem with rfl | mem
        · exact le.trans ((le_max_left _ _).trans grew)
        · exact covered x mem
      · intro x mem instr' at' outcome target succ
        rcases List.mem_cons.mp mem with rfl | mem
        · rw [at_] at at'
          cases at'
          omega
        · exact ends x mem instr' at' outcome target succ

/-! ## The block graph -/

theorem mem_edges {t : Terminator} {j : BlockIndex} :
    (∃ back, (j, back) ∈ t.edges) ↔ ∃ outcome, t.successor outcome = some j := by
  cases t with
  | «fallthrough» next => simp [Terminator.edges, Terminator.successor, eq_comm]
  | jump target back => simp [Terminator.edges, Terminator.successor, eq_comm]
  | branch ifTrue ifFalse => simp [Terminator.edges, Terminator.successor, or_comm, eq_comm]
  | ret => simp [Terminator.edges, Terminator.successor]

theorem mem_predecessors {b p : BlockIndex} {back : Bool} : (p, back) ∈ predecessors cfg b ↔
    ∃ block, cfg.blocks[p]? = some block ∧ (b, back) ∈ block.terminator.edges := by
  simp only [predecessors, List.mem_flatten, List.mem_mapIdx]
  constructor
  · rintro ⟨_, ⟨i, lt, rfl⟩, mem⟩
    obtain ⟨⟨target, back'⟩, mem, eq⟩ := List.mem_map.mp mem
    obtain ⟨edge, is⟩ := List.mem_filter.mp mem
    cases eq
    obtain rfl : target = b := of_decide_eq_true is
    exact ⟨_, List.getElem?_eq_getElem lt, edge⟩
  · rintro ⟨block, at_, mem⟩
    obtain ⟨lt, rfl⟩ := List.getElem?_eq_some_iff.mp at_
    exact ⟨_, ⟨p, lt, rfl⟩, List.mem_map.mpr
      ⟨(b, back), List.mem_filter.mpr ⟨mem, decide_eq_true rfl⟩, rfl⟩⟩

/-- A block that inherits a stack has one edge into it. -/
theorem predecessors_of_inherit {depths : List Int} {b p : BlockIndex}
    (source : (entryStackSources cfg depths)[b]? = some (.inherit p)) :
    predecessors cfg b = [(p, false)] := by
  obtain ⟨b', at_, is⟩ := Option.map_eq_some_iff.mp ((List.getElem?_map ..).symm.trans source)
  obtain ⟨lt, eq⟩ := List.getElem?_eq_some_iff.mp at_
  obtain rfl : b' = b := by rw [← eq, List.getElem_range]
  split at is
  · cases is
  split at is
  · next eq =>
    cases is
    exact eq
  · cases is

section

variable (h : Assembled m.code bcis) (hs : Starts m.code bcis starts)
  (blocks : Blocks m.code bcis starts cfg.blocks)

include h hs blocks in
/-- Wherever an instruction leads is further on in its block, or the start of a block that
there is an edge to. -/
theorem follow {block : BasicBlock} (mem : block ∈ cfg.blocks) {bci : Nat} (is : bci ∈ bcis)
    (above : block.bciStart ≤ bci) (below : bci < block.bciEnd) {instr : Instr} {next target : Nat}
    (at_ : decodeAt m.code bci = some (instr, next)) {outcome : Bool}
    (leads : instrSuccessor outcome next instr = some target) :
    (target ∈ bcis ∧ block.bciStart < target ∧ target < block.bciEnd) ∨
      ∃ (j : BlockIndex) (block' : BasicBlock), cfg.blocks[j]? = some block' ∧
        block'.bciStart = target ∧ ∃ back, (j, back) ∈ block.terminator.edges := by
  obtain ⟨seg, last, stepped, -, terminates⟩ := blocks.built block mem
  have inSeg : bci ∈ seg := (stepped.mem bci).mpr ⟨is, above, below⟩
  have bounds := stepped.tiles.bounds inSeg
  have wide := h.next_eq is at_
  by_cases eq : next = block.bciEnd
  · right
    obtain ⟨x, memX, atX⟩ := stepped.last
    have wideX := h.next_eq ((stepped.mem x).mp memX).1 atX
    obtain rfl := stepped.tiles.eq_of_end memX inSeg wideX.symm (wide.symm.trans eq)
    rw [atX] at at_
    cases at_
    have names := terminates.names outcome
    rw [leads] at names
    cases dest : block.terminator.successor outcome with
    | none =>
      rw [dest] at names
      cases names
    | some j =>
      rw [dest] at names
      obtain ⟨x', atJ, eqX⟩ := names
      cases eqX
      rw [← blocks.starts_eq, List.getElem?_map] at atJ
      obtain ⟨block', atJ, start⟩ := Option.map_eq_some_iff.mp atJ
      exact ⟨j, block', atJ, start, mem_edges.mpr ⟨outcome, dest⟩⟩
  · left
    rw [stepped.plain h hs inSeg at_ eq] at leads
    cases leads
    refine ⟨(h.next_mem is at_).resolve_right fun len => ?_, by omega, by omega⟩
    have stop := stepped.stop_mem
    rcases stop with mem' | len'
    · have := (h.tiles.bounds (hs.sub _ mem')).2.2
      have := (h.tiles.bounds (hs.sub _ mem')).2.1
      omega
    · omega

include hs blocks in
theorem start_inj {i j : BlockIndex} {block block' : BasicBlock} (at_ : cfg.blocks[i]? = some block)
    (at' : cfg.blocks[j]? = some block') (eq : block.bciStart = block'.bciStart) : i = j := by
  have nodup : (cfg.blocks.map (·.bciStart)).Nodup := by
    rw [blocks.starts_eq]
    exact hs.sorted.imp fun lt => Nat.ne_of_lt lt
  refine (List.getElem?_inj ?_ nodup).mp ?_
  · rw [List.length_map]
    exact (List.getElem?_eq_some_iff.mp at_).1
  · rw [List.getElem?_map, List.getElem?_map, at_, at', Option.map_some, Option.map_some, eq]

/-! ## What is computed -/

/-- The depth at the start of a block. -/
def startDepth (cfg : Cfg) (D : Nat → Nat) (b : BlockIndex) : Int :=
  ((cfg.blocks[b]?).map fun block => (D block.bciStart : Int)).getD 0

theorem startDepth_eq {b : BlockIndex} {block : BasicBlock} (at_ : cfg.blocks[b]? = some block) :
    startDepth cfg D b = D block.bciStart := by
  rw [startDepth, at_]
  rfl

def targets (cfg : Cfg) (b : BlockIndex) : List BlockIndex :=
  ((cfg.blocks[b]?).map fun block => block.terminator.edges.map Prod.fst).getD []

/-- The maximum is above the depths of the instructions of the block. -/
def Covers (cfg : Cfg) (bcis : List Nat) (D : Nat → Nat) (b : BlockIndex) (maxDepth : Int) : Prop :=
  ∀ block, cfg.blocks[b]? = some block → ∀ bci ∈ bcis, block.bciStart ≤ bci → bci < block.bciEnd →
    (D bci : Int) ≤ maxDepth

include h hs blocks in
/-- A turn of the loop succeeds, and what it records are the depths of the successors. -/
theorem visits (debug : Bool) (typed : Depths m bcis D) :
    Propagation.Agrees (visitBlock debug m cfg) (startDepth cfg D) (targets cfg) (Covers cfg bcis D)
      cfg.blocks.length where
  visits b inside maxDepth := by
    have at_ := List.getElem?_eq_getElem inside
    obtain ⟨seg, last, stepped, -, terminates⟩ := blocks.built _ (List.getElem_mem inside)
    obtain ⟨x, memX, atX⟩ := stepped.last
    have stop : cfg.blocks[b].bciEnd ≤ cfg.blocks[b].bciStart + m.code.length := by
      have := (h.tiles.bounds ((stepped.mem x).mp memX).1).2.2
      have := h.next_eq ((stepped.mem x).mp memX).1 atX
      omega
    obtain ⟨depth, maxDepth', ran, nonneg, grew, covered, ends⟩ :=
      scanBlock_spec h typed stepped.tiles (fun y mem => ((stepped.mem y).mp mem).1)
        (fun y mem instr next decoded ne => stepped.plain h hs mem decoded ne true)
        (List.ne_nil_of_mem memX) stop (le_max_right maxDepth _)
    have edges : cfg.blocks[b].terminator.edges.map (fun edge => (edge.1, depth)) =
        (targets cfg b).map fun c => (c, startDepth cfg D c) := by
      rw [targets, at_, Option.map_some, Option.getD_some, List.map_map]
      refine List.map_congr_left fun edge mem => ?_
      obtain ⟨outcome, dest⟩ := mem_edges.mp ⟨edge.2, mem⟩
      have names := terminates.names outcome
      rw [dest] at names
      obtain ⟨target, start, leads⟩ := names
      rw [← blocks.starts_eq, List.getElem?_map] at start
      obtain ⟨block', atJ, rfl⟩ := Option.map_eq_some_iff.mp start
      rw [Function.comp_apply, startDepth_eq atJ, ends x memX last atX outcome _ leads]
    refine ⟨maxDepth', ?_, ?_, fun c covers block atC bci is above below => ?_⟩
    · have accepted : (debug && decide (depth < 0)) = false := by
        rw [decide_eq_false (not_lt.mpr nonneg), Bool.and_false]
      rw [visitBlock, at_, startDepth_eq at_]
      simp only [ran, accepted, edges, Bool.false_eq_true, if_false]
    · intro block atB bci is above below
      rw [at_] at atB
      cases atB
      exact covered bci ((stepped.mem bci).mpr ⟨is, above, below⟩)
    · exact (covers block atC bci is above below).trans ((le_max_left _ _).trans grew)
  inside b inside c mem := by
    have at_ := List.getElem?_eq_getElem inside
    rw [targets, at_] at mem
    obtain ⟨edge, edges, rfl⟩ := List.mem_map.mp mem
    obtain ⟨seg, last, -, -, terminates⟩ := blocks.built _ (List.getElem_mem inside)
    obtain ⟨outcome, dest⟩ := mem_edges.mp ⟨edge.2, edges⟩
    have names := terminates.names outcome
    rw [dest] at names
    obtain ⟨target, atJ, -⟩ := names
    rw [← blocks.starts_eq] at atJ
    simpa using (List.getElem?_eq_some_iff.mp atJ).1

/-- The blocks the loop comes to: they have the depths of their starts, the maximum covers
them, and they are closed under edges. -/
structure Computed (cfg : Cfg) (bcis : List Nat) (D : Nat → Nat) (depths : List Int)
    (maxDepth : Int) (visited : BlockIndex → Prop) : Prop where
  entry : visited 0
  depth : ∀ b, visited b → depths[b]? = some (startDepth cfg D b)
  covers : ∀ b, visited b → Covers cfg bcis D b maxDepth
  closed : ∀ b, visited b → ∀ c ∈ targets cfg b, visited c

include h hs blocks in
theorem computeEntryDepths_spec (debug : Bool) (typed : Depths m bcis D) :
    ∃ depths maxDepth visited, computeEntryDepths debug m cfg = some (depths, maxDepth) ∧
      Computed cfg bcis D depths maxDepth visited := by
  obtain ⟨block, mem, start, -⟩ := blocks.consecutive.cover (Nat.le_refl 0) h.nonempty
  have inside : 0 < cfg.blocks.length := List.length_pos_of_mem mem
  have first : startDepth cfg D 0 = 0 := by
    have at_ := List.getElem?_eq_getElem inside
    obtain ⟨b₀, rest, list⟩ := List.exists_cons_of_length_pos inside
    have zero := blocks.consecutive
    rw [list] at zero
    rw [startDepth_eq at_]
    simp only [list, List.getElem_cons_zero, zero.1, typed.entry, Nat.cast_zero]
  obtain ⟨s, ran, -, labelled, entry⟩ :=
    Propagation.run_labels (visits h hs blocks debug typed) inside (0 : Int)
  rw [first] at ran
  refine ⟨s.labels.map (·.getD 0), s.gathered, fun b => ∃ l, s.labels[b]? = some (some l), ?_, ?_⟩
  · rw [computeEntryDepths, if_neg (by simpa using List.ne_nil_of_mem mem), ran, Option.map_some]
  · refine ⟨⟨_, entry⟩, ?_, ?_, ?_⟩
    · rintro b ⟨l, at_⟩
      rw [List.getElem?_map, at_, (labelled b l at_).1]
      rfl
    · rintro b ⟨l, at_⟩
      exact (labelled b l at_).2.1
    · rintro b ⟨l, at_⟩ c mem
      exact ⟨_, (labelled b l at_).2.2 c mem⟩

/-! ## Runs -/

/-- A state in a block the loop comes to, at the depth of its instruction. -/
structure Located (cfg : Cfg) (bcis : List Nat) (D : Nat → Nat) (visited : BlockIndex → Prop)
    {V : Type} (a : Activation V) (b : BlockIndex) (block : BasicBlock) : Prop where
  visited : visited b
  at_ : cfg.blocks[b]? = some block
  mem : a.bci ∈ bcis
  above : block.bciStart ≤ a.bci
  below : a.bci < block.bciEnd
  depth : a.operands.length = D a.bci

variable {V : Type} {yes no : V} {a a' : Activation V} {depths : List Int} {maxDepth : Int}
  {visited : BlockIndex → Prop} {b : BlockIndex} {block : BasicBlock}

include h hs blocks in
theorem Located.step (typed : Depths m bcis D)
    (computed : Computed cfg bcis D depths maxDepth visited)
    (located : Located cfg bcis D visited a b block) (step : a.Step m yes no a') :
    ∃ b' block', Located cfg bcis D visited a' b' block' := by
  obtain ⟨instr, next, at_, ⟨outcome, delta, leads, known, length⟩ | ⟨same, length⟩⟩ := step.effect
  · obtain ⟨delta', known', -, moves⟩ := (typed.instr a.bci located.mem instr next at_).moves
    rw [known] at known'
    cases known'
    have depth : a'.operands.length = D a'.bci := by
      have := moves outcome a'.bci leads
      rw [located.depth] at length
      omega
    have mem := List.mem_of_getElem? located.at_
    rcases follow h hs blocks mem located.mem located.above located.below at_ leads with
      ⟨is, above, below⟩ | ⟨j, block', atJ, start, back, edge⟩
    · exact ⟨b, block, located.visited, located.at_, is, above.le, below, depth⟩
    · obtain ⟨seg, last, stepped, -⟩ := blocks.built block' (List.mem_of_getElem? atJ)
      have target : j ∈ targets cfg b := by
        rw [targets, located.at_]
        exact List.mem_map.mpr ⟨(j, back), edge, rfl⟩
      have starts_ : a'.bci ∈ starts := by
        rw [← blocks.starts_eq, ← start]
        exact List.mem_map.mpr ⟨block', List.mem_of_getElem? atJ, rfl⟩
      exact ⟨j, block', computed.closed b located.visited j target, atJ, hs.sub _ starts_, start.le,
        start ▸ stepped.lt, depth⟩
  · exact ⟨b, block, located.visited, located.at_, same.symm ▸ located.mem, same.symm ▸ located.above,
      same.symm ▸ located.below, by rw [length, same]; exact located.depth⟩

include h hs blocks in
theorem Located.reaches (typed : Depths m bcis D)
    (computed : Computed cfg bcis D depths maxDepth visited) (reaches : a.Reaches m yes no) :
    ∃ b block, Located cfg bcis D visited a b block := by
  induction reaches with
  | refl =>
    obtain ⟨block, mem, start, lt⟩ := blocks.consecutive.cover (Nat.le_refl 0) h.nonempty
    obtain ⟨b₀, rest, list⟩ := List.exists_cons_of_ne_nil (List.ne_nil_of_mem mem)
    have zero := blocks.consecutive
    rw [list] at zero
    exact ⟨0, b₀, computed.entry, by rw [list]; rfl, hs.sub 0 hs.zero, zero.1.le, zero.2.1,
      typed.entry.symm⟩
  | tail _ step ih =>
    obtain ⟨b, block, located⟩ := ih
    exact located.step h hs blocks typed computed step

include h hs blocks in
/-- What holds of a located state. -/
theorem Located.exact (typed : Depths m bcis D)
    (computed : Computed cfg bcis D depths maxDepth visited)
    (located : Located cfg bcis D visited a b block) : a.Exact m cfg depths maxDepth yes no where
  bounded := by
    rw [located.depth]
    exact computed.covers b located.visited block located.at_ a.bci located.mem located.above
      located.below
  finds instr next at_ := by
    rw [located.depth]
    exact (typed.instr a.bci located.mem instr next at_).finds
  entered c block' atC start := by
    have same : block' = block := by
      refine blocks.consecutive.unique (List.mem_of_getElem? atC) (List.mem_of_getElem? located.at_)
        ⟨start.le, ?_⟩ ⟨located.above, located.below⟩
      obtain ⟨seg, last, stepped, -⟩ := blocks.built block' (List.mem_of_getElem? atC)
      exact start ▸ stepped.lt
    subst same
    obtain rfl := start_inj hs blocks atC located.at_ rfl
    rw [computed.depth c located.visited, startDepth_eq atC, start, located.depth]
  inherited a' c p block' step atC start ne source := by
    obtain ⟨instr, next, at_, ⟨outcome, delta, leads, -⟩ | ⟨same, -⟩⟩ := step.effect
    · have mem := List.mem_of_getElem? located.at_
      obtain ⟨j, block'', atJ, start', back, edge⟩ :
          ∃ (j : BlockIndex) (block'' : BasicBlock), cfg.blocks[j]? = some block'' ∧
            block''.bciStart = a'.bci ∧ ∃ back, (j, back) ∈ block.terminator.edges := by
        refine (follow h hs blocks mem located.mem located.above located.below at_ leads).resolve_left ?_
        rintro ⟨-, above, below⟩
        obtain ⟨seg, last, stepped, -⟩ := blocks.built block' (List.mem_of_getElem? atC)
        have same : block' = block :=
          blocks.consecutive.unique (List.mem_of_getElem? atC) mem ⟨start.le, start ▸ stepped.lt⟩
            ⟨above.le, below⟩
        subst same
        exact absurd start above.ne
      obtain rfl := start_inj hs blocks atC atJ (start.trans start'.symm)
      have pred : (b, back) ∈ predecessors cfg c := mem_predecessors.mpr ⟨block, located.at_, edge⟩
      rw [predecessors_of_inherit source] at pred
      cases List.mem_singleton.mp pred
      exact ⟨block, located.at_, located.above, located.below⟩
    · exact absurd same ne

end

/-- Depths that agree with every instruction make what is computed exact. -/
theorem Depths.exact (debug : Bool) (h : Assembled m.code bcis) (inside : ¬ TargetsEnd m.code)
    (typed : Depths m bcis D) : DepthsExact debug m := by
  obtain ⟨starts, hs, ⟨-, ends⟩ | ⟨blocks, decoded, built⟩⟩ := decode_blocks debug h
  · exact absurd ends inside
  have built : Blocks m.code bcis starts (Cfg.mk (markLoopHeaders blocks)).blocks := built.mark
  obtain ⟨depths, maxDepth, visited, ran, computed⟩ :=
    computeEntryDepths_spec h hs built debug typed
  refine ⟨_, depths, maxDepth, decoded, ran, fun V yes no a reaches => ?_⟩
  obtain ⟨b, block, located⟩ := Located.reaches h hs built typed computed reaches
  exact located.exact h hs built typed computed

end WinVm.Compiler
