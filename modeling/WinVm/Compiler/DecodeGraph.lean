import WinVm.Compiler.DecodeBlocks

/-!
# The block graph simulates the bytecode

Each block is what the stretch of code between two neighbouring starts makes of it
(`blockOf_spec`), and the blocks of a method fill its code in order (`blocksFrom_spec`).
The backward jumps are last instructions of their blocks, which is why the loop headers
can be read off the terminators.

Results:

* `decode_finished`: `decode` of a finished method fails exactly if a forward jump or
  branch in it targets the end of the code, and otherwise yields a sound block graph;
* `decode_panics_past_end`: such a method, which the assembler accepts.
-/

namespace WinVm.Compiler

open WinVm.Bytecode WinVm.Lib

variable {code : List Byte} {bcis starts seg : List Nat} {start stop : Nat}

/-! ## The blocks of a method -/

/-- Stepping through the stretch executes it, the last instruction being `instr`. -/
structure Stepped (code : List Byte) (bcis starts : List Nat) (start stop : Nat)
    (seg : List Nat) (instr : Instr) : Prop extends
    Stretch code bcis starts start stop seg where
  last : ∃ b ∈ seg, decodeAt code b = some (instr, stop)
  steps : ∀ outcome, stepBlock code outcome stop code.length start =
    some (seg, instrSuccessor outcome stop instr)

theorem Stepped.control {instr' instr : Instr} (h : Assembled code bcis)
    (hs : Starts code bcis starts) (hseg : Stepped code bcis starts start stop seg instr)
    {b next : Nat} (hb : b ∈ seg) (hdecode : decodeAt code b = some (instr', next))
    {xs : List Nat} (hxs : leadersOf instr' next = some xs) (hnext : next ∈ xs) :
    instr' = instr ∧ next = stop := by
  have hstop := hseg.toStretch.control h hs hb hdecode hxs hnext
  subst hstop
  obtain ⟨last, hlast, hlastdec⟩ := hseg.last
  have hwb := h.next_eq ((hseg.mem b).mp hb).1 hdecode
  have hwl := h.next_eq ((hseg.mem last).mp hlast).1 hlastdec
  obtain rfl := hseg.tiles.eq_of_end hb hlast hwb.symm hwl.symm
  rw [hdecode] at hlastdec
  exact ⟨(Prod.mk.inj (Option.some.inj hlastdec)).1, rfl⟩

theorem mem_leadersOf_of_fwdTarget {instr : Instr} {next target : Nat}
    (h : fwdTarget next instr = some target) :
    ∃ xs, leadersOf instr next = some xs ∧ target ∈ xs ∧ next ∈ xs := by
  cases instr with
  | jumpFwd d | brTrueFwd d | brFalseFwd d =>
    rw [← Option.some.inj h]
    exact ⟨_, rfl, by simp, by simp⟩
  | _ => cases h

theorem blockOf_spec (debug : Bool) (h : Assembled code bcis) (hs : Starts code bcis starts)
    {before rest : List Nat} (heq : starts = before ++ start :: rest)
    (hstop : stop = rest.head?.getD code.length) :
    ∃ seg instr, Stepped code bcis starts start stop seg instr ∧
      ((blockOf debug code starts before.length start stop = none ∧
          fwdTarget stop instr = some code.length) ∨
        ∃ t, blockOf debug code starts before.length start stop = some ⟨start, stop, false, t⟩ ∧
          fwdTarget stop instr ≠ some code.length ∧ Terminates starts stop instr t) := by
  obtain ⟨seg, hseg⟩ := hs.stretch h heq
  rw [← hstop] at hseg
  have hdec : ∀ b ∈ seg, ∃ i, decodeAt code b = some (i, b + instrWidth code b) :=
    fun b hb => h.decodes b ((hseg.mem b).mp hb).1
  obtain ⟨last, hlast⟩ : ∃ last, seg.getLast? = some last := by
    cases hl : seg.getLast? with
    | some last => exact ⟨last, rfl⟩
    | none =>
      have htiles := hseg.tiles
      rw [List.getLast?_eq_none_iff.mp hl] at htiles
      have hlt := hseg.lt
      cases htiles
      exact absurd hlt (Nat.lt_irrefl _)
  have hmem : last ∈ seg := List.mem_of_getLast? hlast
  have hbci := ((hseg.mem last).mp hmem).1
  obtain ⟨instr, hdecode⟩ := hdec last hmem
  rw [hseg.tiles.last_end hlast] at hdecode
  have hfuel : stop ≤ start + code.length := by
    have := h.tiles.bounds hbci
    have := h.next_eq hbci hdecode
    omega
  have hstepped : Stepped code bcis starts start stop seg instr := by
    refine ⟨hseg, ⟨last, hmem, hdecode⟩, fun outcome => ?_⟩
    refine stepBlock_eq outcome hseg.tiles (fun b hb => ?_) hlast hdecode hfuel
    obtain ⟨i, hi⟩ := hdec b hb
    exact ⟨i, hi, fun hne => hseg.plain h hs hb hi hne outcome⟩
  have hlastInstr := lastInstr_eq hseg.tiles hdec hlast hdecode hfuel none
  have hlen : ∀ s ∈ starts, s ≠ code.length := by
    intro s hs' hse
    have := h.tiles.bounds (hs.sub s hs')
    omega
  have hleads : ∀ x xs, leadersOf instr stop = some xs → x ∈ xs → x ∈ starts ∨ x = code.length :=
    fun x xs hxs hx => hs.leads last hbci x ⟨instr, stop, xs, hdecode, hxs, hx⟩
  have hnext : ∀ outcome, instrSuccessor outcome stop instr ≠ none →
      starts[before.length + 1]? = some stop := by
    intro outcome hsucc
    cases rest with
    | nil =>
      rw [List.head?_nil, Option.getD_none] at hstop
      rw [hstop] at hdecode hsucc
      exact absurd (h.ends last hbci instr hdecode outcome) hsucc
    | cons s rest =>
      rw [List.head?_cons, Option.getD_some] at hstop
      rw [heq, hstop, List.getElem?_append_right (Nat.le_succ _)]
      simp
  have hback : ∀ d, instr = .jumpBack d → d.toNat ≤ stop ∧ stop - d.toNat ∈ starts := by
    intro d hd
    subst hd
    obtain ⟨hle, htarget⟩ := h.back last hbci d stop hdecode
    refine ⟨hle, (hleads _ _ (leadersOf_jumpBack hle) List.mem_cons_self).resolve_right ?_⟩
    have := h.tiles.bounds htarget
    omega
  refine ⟨seg, instr, hstepped, ?_⟩
  rcases terminatorOf_spec debug hs.sorted.nodup hback hnext with
    ⟨hnone, target, htarget, hnot⟩ | ⟨t, hsome, hin, hterm⟩
  · refine Or.inl ⟨by simp only [blockOf, hlastInstr, hnone, Option.map_none], ?_⟩
    rcases h.fwd last hbci instr stop target hdecode htarget with hmem' | rfl
    · obtain ⟨xs, hxs, hx, -⟩ := mem_leadersOf_of_fwdTarget htarget
      rcases hleads target xs hxs hx with hin | rfl
      · exact absurd hin hnot
      · exact htarget
    · exact htarget
  · refine Or.inr ⟨t, by simp only [blockOf, hlastInstr, hsome, Option.map_some], ?_, hterm⟩
    intro htarget
    exact hlen _ (hin _ htarget) rfl

/-- A finished instruction jumps forward to the end of the code. -/
def TargetsEnd (code : List Byte) : Prop :=
  ∃ bci instr next, HasInstr code bci instr next ∧ fwdTarget next instr = some code.length

theorem blocksFrom_spec (debug : Bool) (h : Assembled code bcis) (hs : Starts code bcis starts)
    {before rest : List Nat} (heq : starts = before ++ rest) :
    (blocksFrom debug code starts before.length rest = none ∧ TargetsEnd code) ∨
      ∃ blocks, blocksFrom debug code starts before.length rest = some blocks ∧
        blocks.map (·.bciStart) = rest ∧
        Consecutive (rest.head?.getD code.length) blocks code.length ∧
        ∀ block ∈ blocks, ∃ seg instr,
          Stepped code bcis starts block.bciStart block.bciEnd seg instr ∧
          fwdTarget block.bciEnd instr ≠ some code.length ∧
          Terminates starts block.bciEnd instr block.terminator := by
  induction rest generalizing before with
  | nil => exact Or.inr ⟨[], rfl, rfl, rfl, fun block hb => by cases hb⟩
  | cons start rest ih =>
    have hlen : (before ++ [start]).length = before.length + 1 := by simp
    have heq' : starts = before ++ [start] ++ rest := by
      rw [heq]
      simp
    have hrest := ih heq'
    rw [hlen] at hrest
    obtain ⟨seg, instr, hstepped, hblock⟩ := blockOf_spec debug h hs heq rfl
    rw [blocksFrom]
    rcases hblock with ⟨hnone, htarget⟩ | ⟨t, hsome, hne, hterm⟩
    · obtain ⟨b, hb, hdecode⟩ := hstepped.last
      refine Or.inl ⟨by simp only [hnone], b, instr, _, ?_, htarget⟩
      exact (h.hasInstr _ _ _).mpr ⟨((hstepped.mem b).mp hb).1, hdecode⟩
    · simp only [hsome]
      rcases hrest with ⟨hnone, hend⟩ | ⟨blocks, hblocks, hstarts, hcons, hall⟩
      · exact Or.inl ⟨by rw [hnone, Option.map_none], hend⟩
      · refine Or.inr ⟨_, by rw [hblocks, Option.map_some], ?_, ?_, ?_⟩
        · rw [List.map_cons, hstarts]
        · exact ⟨rfl, hstepped.lt, hcons⟩
        · intro block hb
          rcases List.mem_cons.mp hb with rfl | hb
          · exact ⟨seg, instr, hstepped, hne, hterm⟩
          · exact hall block hb

/-! ## The graph -/

theorem Consecutive.cover {blocks : List BasicBlock} {a b x : Nat} (h : Consecutive a blocks b)
    (hax : a ≤ x) (hxb : x < b) : ∃ block ∈ blocks, block.bciStart ≤ x ∧ x < block.bciEnd := by
  induction blocks generalizing a with
  | nil =>
    have : a = b := h
    omega
  | cons block blocks ih =>
    obtain ⟨rfl, hlt, hrest⟩ := h
    rcases Nat.lt_or_ge x block.bciEnd with hx | hx
    · exact ⟨block, List.mem_cons_self, hax, hx⟩
    · obtain ⟨block', hb, hin⟩ := ih hrest hx
      exact ⟨block', List.mem_cons_of_mem _ hb, hin⟩

theorem Consecutive.le_start {blocks : List BasicBlock} {a b : Nat} (h : Consecutive a blocks b)
    {block : BasicBlock} (hb : block ∈ blocks) : a ≤ block.bciStart := by
  induction blocks generalizing a with
  | nil => cases hb
  | cons block' blocks ih =>
    obtain ⟨rfl, hlt, hrest⟩ := h
    rcases List.mem_cons.mp hb with rfl | hb
    · exact Nat.le_refl _
    · exact hlt.le.trans (ih hrest hb)

/-- No bci lies in two blocks. -/
theorem Consecutive.unique {blocks : List BasicBlock} {a b x : Nat} (h : Consecutive a blocks b)
    {block block' : BasicBlock} (hb : block ∈ blocks) (hb' : block' ∈ blocks)
    (hx : block.bciStart ≤ x ∧ x < block.bciEnd) (hx' : block'.bciStart ≤ x ∧ x < block'.bciEnd) :
    block = block' := by
  induction blocks generalizing a with
  | nil => cases hb
  | cons first blocks ih =>
    obtain ⟨rfl, hlt, hrest⟩ := h
    rcases List.mem_cons.mp hb with rfl | hin
    · rcases List.mem_cons.mp hb' with rfl | hin'
      · rfl
      · have := hrest.le_start hin'
        omega
    · rcases List.mem_cons.mp hb' with rfl | hin'
      · have := hrest.le_start hin
        omega
      · exact ih hrest hin hin'

theorem Consecutive.mapIdx {blocks : List BasicBlock} {a b : Nat} (h : Consecutive a blocks b)
    {f : Nat → BasicBlock → BasicBlock}
    (hf : ∀ i block, (f i block).bciStart = block.bciStart ∧ (f i block).bciEnd = block.bciEnd) :
    Consecutive a (blocks.mapIdx f) b := by
  induction blocks generalizing a f with
  | nil => exact h
  | cons block blocks ih =>
    obtain ⟨hstart, hlt, hrest⟩ := h
    rw [List.mapIdx_cons]
    refine ⟨(hf 0 block).1.trans hstart, ?_, ?_⟩
    · rw [(hf 0 block).2]
      exact hlt
    · rw [(hf 0 block).2]
      exact ih hrest fun i block' => hf (i + 1) block'

theorem mem_loopHeaders {blocks : List BasicBlock} {k : Nat} :
    k ∈ loopHeaders blocks ↔ ∃ block ∈ blocks, block.terminator.backTarget = some k :=
  List.mem_filterMap

/-- What the blocks of a method are before the loop headers are marked. -/
structure Blocks (code : List Byte) (bcis starts : List Nat) (blocks : List BasicBlock) : Prop where
  starts_eq : blocks.map (·.bciStart) = starts
  consecutive : Consecutive 0 blocks code.length
  built : ∀ block ∈ blocks, ∃ seg instr,
    Stepped code bcis starts block.bciStart block.bciEnd seg instr ∧
    fwdTarget block.bciEnd instr ≠ some code.length ∧
    Terminates starts block.bciEnd instr block.terminator

theorem Blocks.not_targetsEnd {blocks : List BasicBlock} (h : Assembled code bcis)
    (hs : Starts code bcis starts) (hblocks : Blocks code bcis starts blocks) :
    ¬ TargetsEnd code := by
  rintro ⟨b, instr, next, hinstr, htarget⟩
  obtain ⟨hb, hdecode⟩ := (h.hasInstr _ _ _).mp hinstr
  have hbounds := h.tiles.bounds hb
  obtain ⟨block, hmem, hin⟩ := hblocks.consecutive.cover (Nat.zero_le b) (by omega)
  obtain ⟨seg, instr', hstepped, hne, -⟩ := hblocks.built block hmem
  obtain ⟨xs, hxs, -, hnext⟩ := mem_leadersOf_of_fwdTarget htarget
  obtain ⟨rfl, rfl⟩ := hstepped.control h hs ((hstepped.mem b).mpr ⟨hb, hin⟩) hdecode hxs hnext
  exact hne htarget

theorem Blocks.sound {blocks : List BasicBlock} (h : Assembled code bcis)
    (hs : Starts code bcis starts) (hblocks : Blocks code bcis starts blocks) :
    Cfg.Sound ⟨markLoopHeaders blocks⟩ code := by
  have hcons : Consecutive 0 (markLoopHeaders blocks) code.length :=
    hblocks.consecutive.mapIdx fun i block => ⟨rfl, rfl⟩
  have hget : ∀ k : Nat, (markLoopHeaders blocks)[k]? = blocks[k]?.map fun b =>
      { b with isLoopHeader := decide (k ∈ loopHeaders blocks) } :=
    fun k => List.getElem?_mapIdx
  have hstart : ∀ (k x : Nat), starts[k]? = some x ↔
      ∃ block', (markLoopHeaders blocks)[k]? = some block' ∧ x = block'.bciStart := by
    intro k x
    rw [← hblocks.starts_eq, List.getElem?_map, hget]
    cases blocks[k]? with
    | none => simp
    | some block => simp [eq_comm]
  refine { partition := hcons, whole := ?_, simulates := ?_, loopHeader := ?_ }
  · intro b instr next hinstr
    obtain ⟨hb, hdecode⟩ := (h.hasInstr _ _ _).mp hinstr
    have hbounds := h.tiles.bounds hb
    have hnext := h.next_eq hb hdecode
    obtain ⟨block, hmem, hin⟩ := hcons.cover (Nat.zero_le b) (by omega)
    obtain ⟨k, hk⟩ := List.mem_iff_getElem?.mp hmem
    rw [hget] at hk
    obtain ⟨block0, hk0, rfl⟩ := Option.map_eq_some_iff.mp hk
    obtain ⟨seg, instr', hstepped, -, -⟩ := hblocks.built block0 (List.mem_of_getElem? hk0)
    have hseg := hstepped.tiles.bounds ((hstepped.mem b).mpr ⟨hb, hin⟩)
    refine ⟨_, ⟨hmem, hin.1, ?_⟩, ?_⟩
    · rw [hnext]
      exact hseg.2.2
    · rintro block' ⟨hmem', hle, hle'⟩
      exact hcons.unique hmem' hmem ⟨hle, by omega⟩ hin
  · intro block hmem outcome
    obtain ⟨k, hk⟩ := List.mem_iff_getElem?.mp hmem
    simp only [hget] at hk
    obtain ⟨block0, hk0, rfl⟩ := Option.map_eq_some_iff.mp hk
    obtain ⟨seg, instr, hstepped, -, hterm⟩ := hblocks.built block0 (List.mem_of_getElem? hk0)
    refine ⟨seg, _, hstepped.steps outcome, ?_, fun b => ?_, ?_⟩
    · refine hstepped.tiles.pairwise_lt.imp_of_mem fun {x y} hx _ hxy => ?_
      have := hstepped.tiles.bounds hx
      omega
    · rw [hstepped.mem]
      refine and_congr_left fun _ => ?_
      constructor
      · intro hb
        obtain ⟨i, hi⟩ := h.decodes b hb
        exact ⟨i, _, (h.hasInstr _ _ _).mpr ⟨hb, hi⟩⟩
      · rintro ⟨i, next, hinstr⟩
        exact ((h.hasInstr _ _ _).mp hinstr).1
    · have hnames := hterm.names outcome
      simp only
      cases hj : block0.terminator.successor outcome with
      | none =>
        rw [hj] at hnames
        exact hnames
      | some j =>
        rw [hj] at hnames
        obtain ⟨x, hx, hdest⟩ := hnames
        obtain ⟨block', hblock', rfl⟩ := (hstart j x).mp hx
        exact ⟨block', hblock', hdest⟩
  · intro block hmem
    obtain ⟨k, hk⟩ := List.mem_iff_getElem?.mp hmem
    have hkstart : starts[k]? = some block.bciStart := (hstart k _).mpr ⟨block, hk, rfl⟩
    have hflag : block.isLoopHeader = true ↔ k ∈ loopHeaders blocks := by
      simp only [hget] at hk
      obtain ⟨block0, -, rfl⟩ := Option.map_eq_some_iff.mp hk
      exact decide_eq_true_iff
    rw [hflag, mem_loopHeaders]
    constructor
    · rintro ⟨block0, hmem0, hback⟩
      obtain ⟨seg, instr, hstepped, -, hterm⟩ := hblocks.built block0 hmem0
      obtain ⟨d, rfl, hd⟩ := (hterm.back k).mp hback
      obtain ⟨b, hb, hdecode⟩ := hstepped.last
      have hbci := ((hstepped.mem b).mp hb).1
      refine ⟨b, d, _, (h.hasInstr _ _ _).mpr ⟨hbci, hdecode⟩, (h.back b hbci d _ hdecode).1, ?_⟩
      rw [hkstart] at hd
      exact Option.some.inj hd
    · rintro ⟨b, d, next, hinstr, hle, heq⟩
      obtain ⟨hb, hdecode⟩ := (h.hasInstr _ _ _).mp hinstr
      have hbounds := h.tiles.bounds hb
      obtain ⟨block0, hmem0, hin⟩ := hblocks.consecutive.cover (Nat.zero_le b) (by omega)
      obtain ⟨seg, instr, hstepped, -, hterm⟩ := hblocks.built block0 hmem0
      obtain ⟨rfl, rfl⟩ := hstepped.control h hs ((hstepped.mem b).mpr ⟨hb, hin⟩) hdecode
        (leadersOf_jumpBack hle) (by simp)
      exact ⟨block0, hmem0, (hterm.back k).mpr ⟨d, rfl, by rw [hkstart, heq]⟩⟩

/-- Either a forward jump targets the end of the code, or `decode` yields the marked blocks. -/
theorem decode_blocks (debug : Bool) (h : Assembled code bcis) :
    ∃ starts, Starts code bcis starts ∧
      ((decode debug code = none ∧ TargetsEnd code) ∨
        ∃ blocks, decode debug code = some ⟨markLoopHeaders blocks⟩ ∧
          Blocks code bcis starts blocks) := by
  obtain ⟨leaders, hleaders, hs⟩ := h.findLeaders
  refine ⟨_, hs, ?_⟩
  have hhead : (leaders.filter fun bci => decide (bci < code.length)).head?.getD code.length = 0 := by
    have hsorted := hs.sorted
    have hzero := hs.zero
    cases hst : leaders.filter fun bci => decide (bci < code.length) with
    | nil =>
      rw [hst] at hzero
      cases hzero
    | cons x xs =>
      rw [hst] at hzero hsorted
      rw [List.head?_cons, Option.getD_some]
      rcases List.mem_cons.mp hzero with h0 | h0
      · exact h0.symm
      · have := (List.pairwise_cons.mp hsorted).1 0 h0
        omega
  simp only [decode, hleaders]
  rcases blocksFrom_spec debug h hs (List.nil_append _).symm with
    ⟨hnone, hend⟩ | ⟨blocks, hsome, hstarts, hcons, hall⟩
  · rw [List.length_nil] at hnone
    exact Or.inl ⟨by rw [hnone]; rfl, hend⟩
  · rw [List.length_nil] at hsome
    rw [hhead] at hcons
    exact Or.inr ⟨blocks, by rw [hsome]; rfl, hstarts, hcons, hall⟩

theorem decode_assembled (debug : Bool) (h : Assembled code bcis) :
    (decode debug code = none ↔ TargetsEnd code) ∧
      ∀ cfg, decode debug code = some cfg → cfg.Sound code := by
  obtain ⟨starts, hs, ⟨hnone, hend⟩ | ⟨blocks, hsome, hblocks⟩⟩ := decode_blocks debug h
  · rw [hnone]
    exact ⟨iff_of_true rfl hend, fun cfg hcfg => by cases hcfg⟩
  · rw [hsome]
    refine ⟨iff_of_false (Option.some_ne_none _) (hblocks.not_targetsEnd h hs), ?_⟩
    intro cfg hcfg
    cases hcfg
    exact hblocks.sound h hs

/-- Marking the loop headers moves no block. -/
theorem Blocks.mark {blocks : List BasicBlock} (hblocks : Blocks code bcis starts blocks) :
    Blocks code bcis starts (markLoopHeaders blocks) where
  starts_eq := by
    rw [← hblocks.starts_eq, markLoopHeaders]
    refine List.ext_getElem? fun k => ?_
    rw [List.getElem?_map, List.getElem?_map, List.getElem?_mapIdx, Option.map_map]
    rfl
  consecutive := hblocks.consecutive.mapIdx fun i block => ⟨rfl, rfl⟩
  built := by
    intro block hmem
    obtain ⟨k, hk, rfl⟩ := List.mem_mapIdx.mp hmem
    exact hblocks.built blocks[k] (List.getElem_mem hk)

/-- `decode` on a method that the assembler finished: it fails exactly if a forward jump or
branch targets the end of the code, and the block graph it returns otherwise is sound. -/
theorem decode_finished {debug debug' : Bool} {calls : List Call} {s : Session}
    {ρ : Equiv.Perm Addr} {nil selector : Oop} {argc ntemps : Nat} {m : CompiledMethod}
    (hrun : Session.new.run debug calls = some s)
    (hfinish : s.builder.finish debug ρ nil selector argc ntemps = some m) :
    (decode debug' m.code = none ↔ TargetsEnd m.code) ∧
      ∀ cfg, decode debug' m.code = some cfg → cfg.Sound m.code := by
  obtain ⟨bcis, h⟩ := assembled_of_finish hrun hfinish
  exact decode_assembled debug' h

/-- The loop of `loopCalls` has three blocks, the first of them a loop header. -/
theorem decode_finished_loopCalls :
    ∃ s m cfg, Session.new.run true loopCalls = some s ∧
      s.builder.finish true (Equiv.refl _) (.mem 0) (.mem 40) 0 0 = some m ∧
      decode true m.code = some cfg ∧ cfg.Sound m.code ∧
      cfg.blocks.map (·.isLoopHeader) = [true, false, false] := by
  have heval : (Session.new.run true loopCalls).any (fun s =>
      (s.builder.finish true (Equiv.refl _) (.mem 0) (.mem 40) 0 0).any fun m =>
        (decode true m.code).any fun cfg =>
          decide (cfg.blocks.map (·.isLoopHeader) = [true, false, false])) = true := by
    decide +kernel
  obtain ⟨s, hs, hm⟩ := (Option.any_eq_true _ _).mp heval
  obtain ⟨m, hm, hcfg⟩ := (Option.any_eq_true _ _).mp hm
  obtain ⟨cfg, hcfg, hheaders⟩ := (Option.any_eq_true _ _).mp hcfg
  exact ⟨s, m, cfg, hs, hm, hcfg, (decode_finished hs hm).2 cfg hcfg, of_decide_eq_true hheaders⟩

/-- A jump over the last instruction: the label is bound behind it. -/
def jumpPastEnd : List Call := [.newLabel, .jumpFwd 0, .retSelf, .bind 0]

/-- The assembler accepts the method, and `decode` panics on it. -/
theorem decode_panics_past_end :
    ¬ ∀ (calls : List Call) (s : Session) (m : CompiledMethod),
      Session.new.run true calls = some s →
      s.builder.finish true (Equiv.refl _) (.mem 0) (.mem 40) 0 0 = some m →
      ∃ cfg, decode true m.code = some cfg ∧ cfg.Sound m.code := by
  have heval : (Session.new.run true jumpPastEnd).any (fun s =>
      (s.builder.finish true (Equiv.refl _) (.mem 0) (.mem 40) 0 0).any fun m =>
        (decode true m.code).isNone) = true := by
    decide +kernel
  obtain ⟨s, hs, hm⟩ := (Option.any_eq_true _ _).mp heval
  obtain ⟨m, hm, hnone⟩ := (Option.any_eq_true _ _).mp hm
  intro hclaim
  obtain ⟨cfg, hcfg, -⟩ := hclaim jumpPastEnd s m hs hm
  rw [hcfg] at hnone
  cases hnone

end WinVm.Compiler
