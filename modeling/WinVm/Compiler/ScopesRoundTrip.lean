import WinVm.Compiler.Scopes
import Mathlib.Data.List.Forall2

/-!
# Deopt metadata round trip

What the recorder packed is what the deoptimizer reads back. Each field codec has a
`Reads` lemma; a record is their composition; `pack` keeps every record standing at the
offset it stored, so a site is found by its code offset and its sender chain is followed
record by record to the root.

Results:

* `pack_round_trip`: every site and its whole scope chain are decoded as recorded, and
  OSR maps unpack to themselves, as long as the blob has at most `2 ^ 32` bytes;
* `pack_wraps_past_u32`: past that, `blob.len() as u32` wraps and a site decodes wrong.
-/

namespace WinVm.Compiler.Scopes

open WinVm.Lib WinVm.Lib.ByteReader

/-! ## Field codecs -/

theorem readUleb_setWidth {w : Nat} (hw : w ≤ 64) (v : BitVec w) {β : Type}
    {g : BitVec w → β} :
    Reads (readUleb >>= fun x => pure (g (x.setWidth w))) (writeUleb (v.setWidth 64)) (g v) := by
  have h := Reads.bind_pure (readUleb_write (v.setWidth 64)) (g := fun x => g (x.setWidth w))
  rwa [BitVec.setWidth_setWidth_of_le v hw, BitVec.setWidth_eq] at h

theorem setWidth_signExtend (v : BitVec 32) : (v.signExtend 64).setWidth 32 = v := by
  apply BitVec.eq_of_getLsbD_eq
  intro i hi
  simp only [BitVec.getLsbD_setWidth, BitVec.getLsbD_signExtend, hi, show i < 64 by omega,
    decide_true, Bool.true_and, if_true]

theorem readSleb_signExtend (v : BitVec 32) {β : Type} {g : BitVec 32 → β} :
    Reads (readSleb >>= fun x => pure (g (x.setWidth 32))) (writeSleb (v.signExtend 64)) (g v) := by
  have h := Reads.bind_pure (readSleb_write (v.signExtend 64)) (g := fun x => g (x.setWidth 32))
  rwa [setWidth_signExtend] at h

theorem ValueLoc.reads (loc : ValueLoc) : Reads ValueLoc.read loc.write loc := by
  cases loc with
  | constPool ix => exact Reads.bind_nextByte (readUleb_setWidth (by decide) ix)
  | constSmi v => exact Reads.bind_nextByte (Reads.bind_pure (readSleb_write v))
  | frameSlot off => exact Reads.bind_nextByte (readSleb_signExtend off)
  | nil => exact Reads.bind_nextByte (Reads.pure nil)
  | elidedClosure ix => exact Reads.bind_nextByte (readUleb_setWidth (by decide) ix)
  | doubleSlot off => exact Reads.bind_nextByte (readSleb_signExtend off)

theorem ValueLoc.write_length_pos (loc : ValueLoc) : 0 < loc.write.length := by
  cases loc <;> simp [ValueLoc.write]

theorem length_le_flatMap_write (vs : List ValueLoc) :
    vs.length ≤ (vs.flatMap ValueLoc.write).length := by
  induction vs with
  | nil => exact Nat.le_refl 0
  | cons v vs ih =>
    have hv := v.write_length_pos
    simp only [List.flatMap_cons, List.length_append, List.length_cons]
    omega

/-- Every location takes a byte, so a record that fits in memory has lists that fit. -/
theorem length_le_writeLocs (vs : List ValueLoc) : vs.length ≤ (writeLocs vs).length := by
  have h := length_le_flatMap_write vs
  simp only [writeLocs, List.length_append]
  omega

theorem readLocs_write (vs : List ValueLoc) (h : vs.length < 2 ^ 64) :
    Reads readLocs (writeLocs vs) vs := by
  have hn : (BitVec.ofNat 64 vs.length).toNat = vs.length := by
    rw [BitVec.toNat_ofNat, Nat.mod_eq_of_lt h]
  have hvs := Reads.replicate (fun v (_ : v ∈ vs) => v.reads)
  refine Reads.bind (readUleb_write _) ?_
  rwa [hn]

theorem CtxLoc.reads (ctx : CtxLoc) (h : ctx.write.length < 2 ^ 64) :
    Reads (CtxLoc.read ctx.kind) ctx.write ctx := by
  cases ctx with
  | none => exact Reads.pure none
  | materialized loc => exact Reads.bind_pure loc.reads
  | elided temps =>
    have hlen := length_le_writeLocs temps
    exact Reads.bind_pure (readLocs_write temps (Nat.lt_of_le_of_lt hlen h))

/-! ## Flag bytes -/

theorem scopeFlags_hasSender (scope : ScopeDescData) :
    decide (scopeFlags scope &&& 1#8 ≠ 0#8) = scope.sender.isSome := by
  obtain ⟨_, isBlock, sender, _, _, ctx⟩ := scope
  cases isBlock <;> cases sender <;> cases ctx <;> simp [scopeFlags, boolByte, CtxLoc.kind]

theorem scopeFlags_isBlock (scope : ScopeDescData) :
    decide (scopeFlags scope &&& 2#8 ≠ 0#8) = scope.isBlock := by
  obtain ⟨_, isBlock, sender, _, _, ctx⟩ := scope
  cases isBlock <;> cases sender <;> cases ctx <;> simp [scopeFlags, boolByte, CtxLoc.kind]

theorem scopeFlags_ctxKind (scope : ScopeDescData) :
    (scopeFlags scope >>> 2) &&& 0b11#8 = scope.ctx.kind := by
  obtain ⟨_, isBlock, sender, _, _, ctx⟩ := scope
  cases isBlock <;> cases sender <;> cases ctx <;> simp [scopeFlags, boolByte, CtxLoc.kind]

theorem siteFlags_reexecute (state : SafepointState) :
    decide (siteFlags state &&& 1#8 ≠ 0#8) = state.reexecute := by
  obtain ⟨_, _, kind, reexecute, _⟩ := state
  cases kind <;> cases reexecute <;> simp [siteFlags, boolByte, SafepointKind.toBits]

theorem siteFlags_kind (state : SafepointState) :
    SafepointKind.fromBits ((siteFlags state >>> 1) &&& 0b111#8) = pure state.kind := by
  obtain ⟨_, _, kind, reexecute, _⟩ := state
  cases kind <;> cases reexecute <;>
    simp [siteFlags, boolByte, SafepointKind.toBits, SafepointKind.fromBits]

/-! ## Records -/

/-- The decoded form of a sender link, given the offset of the sender's record. -/
def SenderLink.decoded (link : SenderLink) (off : BitVec 32) :
    BitVec 32 × BitVec 16 × List ValueLoc :=
  (off, link.senderBci, link.pendingStack)

/-- The decoded form of a recorded scope, given where its sender stands. -/
def ScopeDescData.decoded (scope : ScopeDescData)
    (sender : Option (BitVec 32 × BitVec 16 × List ValueLoc)) : DecodedScope :=
  { methodPoolIx := scope.methodPoolIx, isBlock := scope.isBlock, sender,
    receiver := scope.receiver, slots := scope.slots, ctx := scope.ctx }

/-- The decoded form of a recorded state, given where its scope stands. -/
def SafepointState.decoded (state : SafepointState) (off : BitVec 32) : DecodedSite :=
  { scopeOff := off, bci := state.bci, kind := state.kind, reexecute := state.reexecute,
    stack := state.stack }

/-- A decoded sender is the recorded link, by the offset of its record. -/
inductive SenderDecoded (scopeOffs : List (BitVec 32)) :
    Option SenderLink → Option (BitVec 32 × BitVec 16 × List ValueLoc) → Prop
  | root : SenderDecoded scopeOffs none none
  | link {link : SenderLink} {off : BitVec 32} (hoff : scopeOffs[link.sender.toNat]? = some off) :
      SenderDecoded scopeOffs (some link) (some (link.decoded off))

theorem readSender_write {sender : Option SenderLink} {scopeOffs : List (BitVec 32)}
    {bytes : List Byte} (hw : writeSender sender scopeOffs = some bytes)
    (hlen : bytes.length < 2 ^ 64) :
    ∃ dec, SenderDecoded scopeOffs sender dec ∧ Reads (readSender sender.isSome) bytes dec := by
  cases sender with
  | none =>
    obtain rfl : [] = bytes := Option.some.inj hw
    exact ⟨none, SenderDecoded.root, Reads.pure none⟩
  | some link =>
    simp only [writeSender, Option.bind_eq_bind, Option.bind_eq_some_iff, Option.pure_def,
      Option.some.injEq] at hw
    obtain ⟨off, hoff, rfl⟩ := hw
    refine ⟨some (link.decoded off), SenderDecoded.link hoff, ?_⟩
    have hp := length_le_writeLocs link.pendingStack
    simp only [List.length_append] at hlen
    have hpending := readLocs_write link.pendingStack (by omega)
    refine Reads.bind (readUleb_write _) (Reads.bind (readUleb_write _) ?_)
    have h := Reads.bind_pure hpending (g := fun pending =>
      some ((off.setWidth 64).setWidth 32, (link.senderBci.setWidth 64).setWidth 16, pending))
    simp only [BitVec.setWidth_setWidth_of_le _ (by decide : 32 ≤ 64),
      BitVec.setWidth_setWidth_of_le _ (by decide : 16 ≤ 64), BitVec.setWidth_eq] at h ⊢
    exact h

/-- A scope record reads back as the recorded scope. -/
theorem scopeReader_write {scope : ScopeDescData} {scopeOffs : List (BitVec 32)}
    {bytes : List Byte} (hw : writeScopeRecord scope scopeOffs = some bytes)
    (hlen : bytes.length < 2 ^ 64) :
    ∃ dec, SenderDecoded scopeOffs scope.sender dec ∧
      Reads scopeReader bytes (scope.decoded dec) := by
  simp only [writeScopeRecord, Option.bind_eq_bind, Option.bind_eq_some_iff, Option.pure_def,
    Option.some.injEq] at hw
  obtain ⟨senderBytes, hsender, rfl⟩ := hw
  have hslots := length_le_writeLocs scope.slots
  simp only [List.length_cons, List.length_append] at hlen
  obtain ⟨dec, hdec, hread⟩ := readSender_write hsender (by omega)
  refine ⟨dec, hdec, Reads.bind_nextByte ?_⟩
  simp only [scopeFlags_hasSender, scopeFlags_isBlock, scopeFlags_ctxKind]
  refine Reads.bind (readUleb_write _) (Reads.bind hread (Reads.bind scope.receiver.reads
    (Reads.bind (readLocs_write scope.slots (by omega)) ?_)))
  have h := Reads.bind_pure (scope.ctx.reads (by omega)) (g := fun ctx =>
    ({ methodPoolIx := (scope.methodPoolIx.setWidth 64).setWidth 32, isBlock := scope.isBlock,
       sender := dec, receiver := scope.receiver, slots := scope.slots, ctx } : DecodedScope))
  simp only [BitVec.setWidth_setWidth_of_le _ (by decide : 32 ≤ 64), BitVec.setWidth_eq] at h ⊢
  exact h

/-- A safepoint record reads back as the recorded state, by its scope's offset. -/
theorem siteReader_write {state : SafepointState} {scopeOffs : List (BitVec 32)}
    {bytes : List Byte} (hw : writeSafepointRecord state scopeOffs = some bytes)
    (hlen : bytes.length < 2 ^ 64) :
    ∃ off, scopeOffs[state.scope.toNat]? = some off ∧
      Reads siteReader bytes (state.decoded off) := by
  simp only [writeSafepointRecord, Option.bind_eq_bind, Option.bind_eq_some_iff, Option.pure_def,
    Option.some.injEq] at hw
  obtain ⟨off, hoff, rfl⟩ := hw
  have hstack := length_le_writeLocs state.stack
  simp only [List.length_cons, List.length_append] at hlen
  refine ⟨off, hoff, Reads.bind (readUleb_write _) (Reads.bind (readUleb_write _)
    (Reads.bind_nextByte ?_))⟩
  rw [siteFlags_reexecute, siteFlags_kind]
  have h := Reads.bind_pure (readLocs_write state.stack (by omega)) (g := fun stack =>
    ({ scopeOff := (off.setWidth 64).setWidth 32, bci := (state.bci.setWidth 64).setWidth 16,
       kind := state.kind, reexecute := state.reexecute, stack } : DecodedSite))
  simp only [BitVec.setWidth_setWidth_of_le _ (by decide : 32 ≤ 64),
    BitVec.setWidth_setWidth_of_le _ (by decide : 16 ≤ 64), BitVec.setWidth_eq] at h ⊢
  exact h

theorem writeScopeRecord_ne_nil {scope : ScopeDescData} {scopeOffs : List (BitVec 32)}
    {bytes : List Byte} (hw : writeScopeRecord scope scopeOffs = some bytes) : bytes ≠ [] := by
  simp only [writeScopeRecord, Option.bind_eq_bind, Option.bind_eq_some_iff, Option.pure_def,
    Option.some.injEq] at hw
  obtain ⟨_, -, rfl⟩ := hw
  exact List.cons_ne_nil _ _

theorem writeSafepointRecord_ne_nil {state : SafepointState} {scopeOffs : List (BitVec 32)}
    {bytes : List Byte} (hw : writeSafepointRecord state scopeOffs = some bytes) :
    bytes ≠ [] := by
  simp only [writeSafepointRecord, Option.bind_eq_bind, Option.bind_eq_some_iff, Option.pure_def,
    Option.some.injEq] at hw
  obtain ⟨_, -, rfl⟩ := hw
  exact List.append_ne_nil_of_left_ne_nil (writeUleb_ne_nil _) _

/-! ## The packed blob -/

/-- Every sender of `scopes` is an earlier scope. -/
def SendersFirst (scopes : List ScopeDescData) : Prop :=
  ∀ (i : Nat) (scope : ScopeDescData) (link : SenderLink),
    scopes[i]? = some scope → scope.sender = some link → link.sender.toNat < i

/-- Scope `i`'s record stands in the blob, at the offset whose low 32 bits were stored
for it, and its sender was looked up among the offsets stored by then. -/
def PackedScopes (scopes : List ScopeDescData) (blob : List Byte) (scopeOffs : List (BitVec 32)) :
    Prop :=
  scopeOffs.length = scopes.length ∧ ∀ i scope, scopes[i]? = some scope →
    ∃ off bytes, scopeOffs[i]? = some (BitVec.ofNat 32 off) ∧
      writeScopeRecord scope (scopeOffs.take (i + 1)) = some bytes ∧ RecordAt blob off bytes

/-- Every site's record stands in the blob, at the offset its PcDesc stored. -/
def PackedSites (sites : List (BitVec 32 × SafepointState)) (scopeOffs : List (BitVec 32))
    (blob : List Byte) (pcdescs : List PcDesc) : Prop :=
  pcdescs.map PcDesc.codeOff = sites.map Prod.fst ∧ ∀ codeOff state, (codeOff, state) ∈ sites →
    ∃ off bytes, ⟨codeOff, BitVec.ofNat 32 off⟩ ∈ pcdescs ∧
      writeSafepointRecord state scopeOffs = some bytes ∧ RecordAt blob off bytes

theorem PackedScopes.append {scopes : List ScopeDescData} {blob : List Byte}
    {scopeOffs : List (BitVec 32)} (h : PackedScopes scopes blob scopeOffs) (more : List Byte) :
    PackedScopes scopes (blob ++ more) scopeOffs := by
  refine ⟨h.1, fun i scope hi => ?_⟩
  obtain ⟨off, bytes, hoff, hw, hat⟩ := h.2 i scope hi
  exact ⟨off, bytes, hoff, hw, hat.append more⟩

/-- One turn of the scope loop. -/
theorem PackedScopes.snoc {scopes : List ScopeDescData} {blob : List Byte}
    {scopeOffs : List (BitVec 32)} {scope : ScopeDescData} {bytes : List Byte}
    (h : PackedScopes scopes blob scopeOffs)
    (hw : writeScopeRecord scope (scopeOffs ++ [BitVec.ofNat 32 blob.length]) = some bytes) :
    PackedScopes (scopes ++ [scope]) (blob ++ bytes)
      (scopeOffs ++ [BitVec.ofNat 32 blob.length]) := by
  obtain ⟨hlen, hold⟩ := h.append bytes
  refine ⟨by simp [hlen], fun i s hi => ?_⟩
  rcases Nat.lt_trichotomy i scopes.length with hlt | heq | hgt
  · rw [List.getElem?_append_left hlt] at hi
    obtain ⟨off, bytes', hoff, hw', hat⟩ := hold i s hi
    refine ⟨off, bytes', ?_, ?_, hat⟩
    · rwa [List.getElem?_append_left (by omega)]
    · rwa [List.take_append_of_le_length (by omega)]
  · subst heq
    obtain rfl : scope = s := by simpa using hi
    refine ⟨blob.length, bytes, ?_, ?_, RecordAt.snoc blob bytes⟩
    · rw [← hlen]
      simp
    · rwa [List.take_of_length_le (by simp [hlen])]
  · rw [List.getElem?_eq_none (by simp; omega)] at hi
    cases hi

theorem packScopes_packed {rest done : List ScopeDescData} {blob blob' : List Byte}
    {scopeOffs scopeOffs' : List (BitVec 32)} (h : PackedScopes done blob scopeOffs)
    (hpack : packScopes rest blob scopeOffs = some (blob', scopeOffs')) :
    PackedScopes (done ++ rest) blob' scopeOffs' := by
  induction rest generalizing done blob scopeOffs with
  | nil =>
    obtain ⟨rfl, rfl⟩ : blob = blob' ∧ scopeOffs = scopeOffs' := by simpa [packScopes] using hpack
    rwa [List.append_nil]
  | cons scope rest ih =>
    simp only [packScopes, Option.bind_eq_bind, Option.bind_eq_some_iff] at hpack
    obtain ⟨bytes, hw, hrest⟩ := hpack
    have := ih (h.snoc hw) hrest
    rwa [List.append_assoc, List.singleton_append] at this

/-- The scope loop never indexes past the offsets stored so far. -/
theorem packScopes_isSome {rest : List ScopeDescData} (done : List ScopeDescData)
    (hs : SendersFirst (done ++ rest)) (blob : List Byte) (scopeOffs : List (BitVec 32))
    (hlen : scopeOffs.length = done.length) :
    ∃ blob' scopeOffs', packScopes rest blob scopeOffs = some (blob', scopeOffs') := by
  induction rest generalizing done blob scopeOffs with
  | nil => exact ⟨blob, scopeOffs, rfl⟩
  | cons scope rest ih =>
    have hw : ∃ bytes,
        writeScopeRecord scope (scopeOffs ++ [BitVec.ofNat 32 blob.length]) = some bytes := by
      cases hsender : scope.sender with
      | none => simp [writeScopeRecord, writeSender, hsender]
      | some link =>
        have hlt : link.sender.toNat < done.length :=
          hs done.length scope link (by simp) hsender
        obtain ⟨off, hoff⟩ : ∃ off,
            (scopeOffs ++ [BitVec.ofNat 32 blob.length])[link.sender.toNat]? = some off :=
          ⟨_, List.getElem?_eq_getElem (by simp; omega)⟩
        simp [writeScopeRecord, writeSender, hsender, hoff]
    obtain ⟨bytes, hw⟩ := hw
    have hs' : SendersFirst ((done ++ [scope]) ++ rest) := by
      rwa [List.append_assoc, List.singleton_append]
    obtain ⟨blob', scopeOffs', hrest⟩ := ih (done ++ [scope]) hs' (blob ++ bytes)
      (scopeOffs ++ [BitVec.ofNat 32 blob.length]) (by simp [hlen])
    exact ⟨blob', scopeOffs', by simp [packScopes, hw, hrest]⟩

theorem packSites_packed {rest done : List (BitVec 32 × SafepointState)}
    {scopeOffs : List (BitVec 32)} {blob blob' : List Byte} {pcdescs pcdescs' : List PcDesc}
    (h : PackedSites done scopeOffs blob pcdescs)
    (hpack : packSites scopeOffs rest blob pcdescs = some (blob', pcdescs')) :
    (∃ more, blob' = blob ++ more) ∧ PackedSites (done ++ rest) scopeOffs blob' pcdescs' := by
  induction rest generalizing done blob pcdescs with
  | nil =>
    obtain ⟨rfl, rfl⟩ : blob = blob' ∧ pcdescs = pcdescs' := by simpa [packSites] using hpack
    exact ⟨⟨[], by simp⟩, by rwa [List.append_nil]⟩
  | cons site rest ih =>
    obtain ⟨codeOff, state⟩ := site
    simp only [packSites, Option.bind_eq_bind, Option.bind_eq_some_iff] at hpack
    obtain ⟨bytes, hw, hrest⟩ := hpack
    have hsnoc : PackedSites (done ++ [(codeOff, state)]) scopeOffs (blob ++ bytes)
        (pcdescs ++ [⟨codeOff, BitVec.ofNat 32 blob.length⟩]) := by
      refine ⟨by simp [h.1], fun c st hmem => ?_⟩
      rw [List.mem_append, List.mem_singleton] at hmem
      rcases hmem with hold | hnew
      · obtain ⟨off, bytes', hd, hw', hat⟩ := h.2 c st hold
        exact ⟨off, bytes', List.mem_append_left _ hd, hw', hat.append bytes⟩
      · obtain ⟨rfl, rfl⟩ := Prod.mk.inj hnew
        exact ⟨blob.length, bytes, by simp, hw, RecordAt.snoc blob bytes⟩
    obtain ⟨⟨more, rfl⟩, hall⟩ := ih hsnoc hrest
    rw [List.append_assoc, List.singleton_append] at hall
    exact ⟨⟨bytes ++ more, by simp⟩, hall⟩

theorem packSites_isSome {sites : List (BitVec 32 × SafepointState)}
    (scopeOffs : List (BitVec 32))
    (hs : ∀ codeOff state, (codeOff, state) ∈ sites → state.scope.toNat < scopeOffs.length)
    (blob : List Byte) (pcdescs : List PcDesc) :
    ∃ blob' pcdescs', packSites scopeOffs sites blob pcdescs = some (blob', pcdescs') := by
  induction sites generalizing blob pcdescs with
  | nil => exact ⟨blob, pcdescs, rfl⟩
  | cons site rest ih =>
    obtain ⟨codeOff, state⟩ := site
    have hlt := hs codeOff state List.mem_cons_self
    obtain ⟨blob', pcdescs', hrest⟩ := ih (fun c st h => hs c st (List.mem_cons_of_mem _ h))
      (blob ++ (writeUleb (scopeOffs[state.scope.toNat].setWidth 64) ++
        (writeUleb (state.bci.setWidth 64) ++ (siteFlags state :: writeLocs state.stack))))
      (pcdescs ++ [⟨codeOff, BitVec.ofNat 32 blob.length⟩])
    exact ⟨blob', pcdescs', by
      simp [packSites, writeSafepointRecord, List.getElem?_eq_getElem hlt, hrest]⟩

/-! ## Recorder histories -/

theorem SendersFirst.snoc {scopes : List ScopeDescData} {data : ScopeDescData}
    (h : SendersFirst scopes)
    (hnew : ∀ link, data.sender = some link → link.sender.toNat < scopes.length) :
    SendersFirst (scopes ++ [data]) := by
  intro i scope link hi hsender
  rcases Nat.lt_trichotomy i scopes.length with hlt | heq | hgt
  · rw [List.getElem?_append_left hlt] at hi
    exact h i scope link hi hsender
  · subst heq
    obtain rfl : data = scope := by simpa using hi
    exact hnew link hsender
  · rw [List.getElem?_eq_none (by simp; omega)] at hi
    cases hi

namespace ScopeDescRecorder

theorem Recorded.sendersFirst {r : ScopeDescRecorder} (h : Recorded r) : SendersFirst r.scopes := by
  induction h with
  | new =>
    intro i scope link hi
    simp [ScopeDescRecorder.new] at hi
  | beginScope hr hsender ih => exact ih.snoc hsender
  | recordSite hr hscope hfresh ih => exact ih

theorem Recorded.sites_scoped {r : ScopeDescRecorder} (h : Recorded r) :
    ∀ codeOff state, (codeOff, state) ∈ r.sites → state.scope.toNat < r.scopes.length := by
  induction h with
  | new =>
    intro codeOff state hmem
    simp [ScopeDescRecorder.new] at hmem
  | beginScope hr hsender ih =>
    intro codeOff state hmem
    have := ih codeOff state hmem
    simp only [ScopeDescRecorder.beginScope, List.length_append]
    omega
  | recordSite hr hscope hfresh ih =>
    intro codeOff state hmem
    simp only [ScopeDescRecorder.recordSite, List.mem_append, List.mem_singleton, Prod.mk.injEq] at hmem
    rcases hmem with hold | ⟨-, rfl⟩
    · exact ih codeOff state hold
    · exact hscope

theorem Recorded.codeOffs_nodup {r : ScopeDescRecorder} (h : Recorded r) :
    (r.sites.map Prod.fst).Nodup := by
  induction h with
  | new => simp [ScopeDescRecorder.new]
  | beginScope hr hsender ih => exact ih
  | recordSite hr hscope hfresh ih =>
    simp only [ScopeDescRecorder.recordSite, List.map_append, List.map_cons, List.map_nil]
    exact List.Nodup.append ih (List.nodup_singleton _) (by simpa using hfresh)

/-- Packing a recorded history never panics, and leaves every record in place. -/
theorem Recorded.pack_packed {r : ScopeDescRecorder} (h : Recorded r) :
    ∃ blob scopeOffs pcdescs pcdescs', r.pack = some (blob, pcdescs') ∧
      pcdescs' = pcdescs.mergeSort (fun a b => decide (a.codeOff.toNat ≤ b.codeOff.toNat)) ∧
      PackedScopes r.scopes blob scopeOffs ∧ PackedSites r.sites scopeOffs blob pcdescs := by
  have hempty : PackedScopes [] [] [] := ⟨rfl, fun i scope hi => by simp at hi⟩
  obtain ⟨blob, scopeOffs, hscopes⟩ :=
    packScopes_isSome [] h.sendersFirst [] [] rfl
  have hp := packScopes_packed hempty hscopes
  rw [List.nil_append] at hp
  obtain ⟨blob', pcdescs, hsites⟩ := packSites_isSome scopeOffs
    (fun c st hmem => hp.1 ▸ h.sites_scoped c st hmem) blob []
  have hnone : PackedSites [] scopeOffs blob [] := ⟨rfl, fun c st hmem => by simp at hmem⟩
  obtain ⟨⟨more, rfl⟩, hq⟩ := packSites_packed hnone hsites
  exact ⟨_, scopeOffs, pcdescs, _, by simp [pack, hscopes, hsites], rfl, hp.append more, hq⟩

end ScopeDescRecorder

/-! ## Decoding the packed blob -/

theorem toNat_ofNat_of_recordAt {blob bytes : List Byte} {off : Nat} (hat : RecordAt blob off bytes)
    (hne : bytes ≠ []) (hfit : blob.length ≤ 2 ^ 32) : (BitVec.ofNat 32 off).toNat = off := by
  have := hat.lt_length hne
  rw [BitVec.toNat_ofNat]
  exact Nat.mod_eq_of_lt (by omega)

/-- The stored offset of a scope decodes to that scope. -/
theorem PackedScopes.decodeScope {scopes : List ScopeDescData} {blob : List Byte}
    {scopeOffs : List (BitVec 32)} (h : PackedScopes scopes blob scopeOffs)
    (hfit : blob.length ≤ 2 ^ 32) {i : Nat} {scope : ScopeDescData} {off : BitVec 32}
    (hi : scopes[i]? = some scope) (hoff : scopeOffs[i]? = some off) :
    ∃ dec, SenderDecoded (scopeOffs.take (i + 1)) scope.sender dec ∧
      Scopes.decodeScope blob off = some (scope.decoded dec) := by
  obtain ⟨n, bytes, hn, hw, hat⟩ := h.2 i scope hi
  obtain rfl : off = BitVec.ofNat 32 n := by
    rw [hn] at hoff
    exact (Option.some.inj hoff).symm
  have hlen := hat.length_le
  obtain ⟨dec, hdec, hread⟩ := scopeReader_write hw (by omega)
  have hn' := toNat_ofNat_of_recordAt hat (writeScopeRecord_ne_nil hw) hfit
  refine ⟨dec, hdec, ?_⟩
  rw [Scopes.decodeScope, hn', hread.recordAt hat]
  rfl

/-- The chain of recorded scopes from `id` out to its root. -/
inductive SenderChain (scopes : List ScopeDescData) : ScopeId → List ScopeDescData → Prop
  | root {id : ScopeId} {scope : ScopeDescData} (hid : scopes[id.toNat]? = some scope)
      (hroot : scope.sender = none) : SenderChain scopes id [scope]
  | link {id : ScopeId} {scope : ScopeDescData} {link : SenderLink} {outer : List ScopeDescData}
      (hid : scopes[id.toNat]? = some scope) (hlink : scope.sender = some link)
      (houter : SenderChain scopes link.sender outer) : SenderChain scopes id (scope :: outer)

/-- A decoded scope shows what was recorded for it. -/
def Shows (scope : ScopeDescData) (d : DecodedScope) : Prop :=
  d.methodPoolIx = scope.methodPoolIx ∧ d.isBlock = scope.isBlock ∧
  d.sender.map (fun s => (s.2.1, s.2.2)) =
    scope.sender.map (fun link => (link.senderBci, link.pendingStack)) ∧
  d.receiver = scope.receiver ∧ d.slots = scope.slots ∧ d.ctx = scope.ctx

theorem SenderDecoded.shows {scopeOffs : List (BitVec 32)} {scope : ScopeDescData}
    {dec : Option (BitVec 32 × BitVec 16 × List ValueLoc)}
    (h : SenderDecoded scopeOffs scope.sender dec) : Shows scope (scope.decoded dec) := by
  refine ⟨rfl, rfl, ?_, rfl, rfl, rfl⟩
  show dec.map _ = _
  generalize scope.sender = sender at h
  cases h with
  | root => rfl
  | link hoff => rfl

/-- The chain walk yields one decoded scope a recorded scope, and then stops. -/
def ChainDecoded (blob : List Byte) (off : BitVec 32) (chain : List ScopeDescData) : Prop :=
  ∃ out, List.Forall₂ Shows chain out ∧
    ∀ fuel, chain.length < fuel → ScopeChainIter.collect fuel ⟨blob, some off⟩ = some out

theorem ScopeChainIter.collect_none {blob : List Byte} {fuel : Nat} (h : 0 < fuel) :
    ScopeChainIter.collect fuel ⟨blob, none⟩ = some [] := by
  obtain ⟨fuel, rfl⟩ : ∃ n, fuel = n + 1 := ⟨fuel - 1, by omega⟩
  rfl

theorem ScopeChainIter.collect_some {blob : List Byte} {off : BitVec 32} {d : DecodedScope}
    {out : List DecodedScope} {fuel : Nat} (hd : decodeScope blob off = some d)
    (hout : collect fuel ⟨blob, d.sender.map Prod.fst⟩ = some out) :
    collect (fuel + 1) ⟨blob, some off⟩ = some (d :: out) := by
  simp [collect, next, hd, hout]

/-- From any scope of a packed blob: its sender chain, decoded innermost to outermost. The
induction is on the scope's index, since a sender is an earlier scope. -/
theorem PackedScopes.chain {scopes : List ScopeDescData} {blob : List Byte}
    {scopeOffs : List (BitVec 32)} (h : PackedScopes scopes blob scopeOffs)
    (hfirst : SendersFirst scopes) (hfit : blob.length ≤ 2 ^ 32) :
    ∀ (n : Nat) (id : ScopeId) (off : BitVec 32), id.toNat = n → scopeOffs[n]? = some off →
      ∃ chain, SenderChain scopes id chain ∧ ChainDecoded blob off chain := by
  intro n
  induction n using Nat.strong_induction_on with
  | _ n ih =>
    intro id off hid hoff
    have hn : n < scopes.length := by
      rw [← h.1]
      exact (List.getElem?_eq_some_iff.mp hoff).1
    have hget : scopes[n]? = some scopes[n] := List.getElem?_eq_getElem hn
    obtain ⟨dec, hdec, hdecode⟩ := h.decodeScope hfit hget hoff
    have hshow := hdec.shows
    cases hsender : scopes[n].sender with
    | none =>
      refine ⟨[scopes[n]], SenderChain.root (by rw [hid]; exact hget) hsender, [_],
        List.Forall₂.cons hshow List.Forall₂.nil, ?_⟩
      intro fuel hfuel
      obtain ⟨fuel, rfl⟩ : ∃ m, fuel = m + 1 := ⟨fuel - 1, by omega⟩
      apply ScopeChainIter.collect_some hdecode
      rw [hsender] at hdec
      cases hdec
      exact ScopeChainIter.collect_none (by simp only [List.length_singleton] at hfuel; omega)
    | some link =>
      have hlt := hfirst n scopes[n] link hget hsender
      rw [hsender] at hdec
      obtain ⟨off', hoff'⟩ : ∃ off', dec = some (link.decoded off') ∧
          scopeOffs[link.sender.toNat]? = some off' := by
        cases hdec with
        | link hoff' =>
          rw [List.getElem?_take_of_lt (by omega)] at hoff'
          exact ⟨_, rfl, hoff'⟩
      obtain ⟨rfl, hoff'⟩ := hoff'
      obtain ⟨outer, houter, out, hshows, hcollect⟩ := ih _ hlt link.sender off' rfl hoff'
      refine ⟨scopes[n] :: outer, SenderChain.link (by rw [hid]; exact hget) hsender houter, _ :: out,
        List.Forall₂.cons hshow hshows, ?_⟩
      intro fuel hfuel
      obtain ⟨fuel, rfl⟩ : ∃ m, fuel = m + 1 := ⟨fuel - 1, by omega⟩
      exact ScopeChainIter.collect_some hdecode
        (hcollect fuel (by simp only [List.length_cons] at hfuel; omega))

/-! ## The PcDesc table -/

/-- On distinct code offsets the sorted table finds each of its entries. -/
theorem PcDesc.find_mergeSort (pcdescs : List PcDesc) (hnodup : (pcdescs.map codeOff).Nodup)
    {d : PcDesc} (hmem : d ∈ pcdescs) :
    PcDesc.find (pcdescs.mergeSort (fun a b => decide (a.codeOff.toNat ≤ b.codeOff.toNat)))
      d.codeOff = some d := by
  generalize hs : pcdescs.mergeSort (fun a b => decide (a.codeOff.toNat ≤ b.codeOff.toNat)) = sorted
  have hperm : sorted.Perm pcdescs := hs ▸ List.mergeSort_perm pcdescs _
  have hle : sorted.Pairwise (fun a b => a.codeOff.toNat ≤ b.codeOff.toNat) := by
    have hsorted : sorted.Pairwise (fun a b => decide (a.codeOff.toNat ≤ b.codeOff.toNat)) := by
      rw [← hs]
      apply List.pairwise_mergeSort
      · intro a b c hab hbc
        simp only [decide_eq_true_eq] at hab hbc ⊢
        omega
      · intro a b
        simp only [Bool.or_eq_true, decide_eq_true_eq]
        omega
    exact hsorted.imp (fun h => of_decide_eq_true h)
  have hne : (sorted.map codeOff).Nodup := (hperm.map codeOff).nodup_iff.mpr hnodup
  have hlt : (sorted.map fun d => d.codeOff.toNat).Pairwise (· < ·) := by
    rw [List.pairwise_map]
    refine hle.imp₂ ?_ (List.pairwise_map.mp hne)
    intro a b hab hdiff
    have : a.codeOff.toNat ≠ b.codeOff.toNat := fun he => hdiff (BitVec.eq_of_toNat_eq he)
    omega
  obtain ⟨i, hi⟩ := List.getElem?_of_mem (hperm.mem_iff.mpr hmem)
  have hfind := binarySearchByKey_eq hlt hi
  simp [PcDesc.find, hfind, hi]

/-! ## OSR maps -/

theorem OsrSource.reads (src : OsrSource) : Reads OsrSource.read src.write src := by
  cases src with
  | receiver => exact Reads.bind_eq_pure (readUleb_write 0#64) rfl
  | slot i => exact Reads.bind (readUleb_write 1#64) (readUleb_setWidth (by decide) i)
  | stackSlot i => exact Reads.bind (readUleb_write 2#64) (readUleb_setWidth (by decide) i)
  | context => exact Reads.bind_eq_pure (readUleb_write 3#64) rfl

theorem OsrSlot.reads (s : OsrSlot) : Reads OsrSlot.read s.write s := by
  refine Reads.bind s.src.reads ?_
  have h := Reads.bind_pure (readUleb_write ((-s.dstFrameOff).signExtend 64))
    (g := fun off => ({ src := s.src, dstFrameOff := -(off.setWidth 32) } : OsrSlot))
  rwa [setWidth_signExtend, BitVec.neg_neg] at h

theorem OsrMap.unpack_pack (m : OsrMap) : OsrMap.unpack m.pack = some m := by
  have hslots := Reads.replicate (fun s (_ : s ∈ m.slots) => s.reads)
  have hn : (BitVec.ofNat 64 m.slots.length).toNat = m.slots.length := by
    rw [BitVec.toNat_ofNat, Nat.mod_eq_of_lt m.slots_length]
  have hread : Reads osrReader m.pack (m.osrBci, m.entryOff, m.frameWords, m.slots) := by
    refine Reads.bind (readUleb_write _) (Reads.bind (readUleb_write _)
      (Reads.bind (readUleb_write _) (Reads.bind (readUleb_write _) ?_)))
    rw [hn]
    have h := Reads.bind_pure hslots (g := fun slots => ((m.osrBci.setWidth 64).setWidth 16,
      (m.entryOff.setWidth 64).setWidth 32, (m.frameWords.setWidth 64).setWidth 32, slots))
    simp only [BitVec.setWidth_setWidth_of_le _ (by decide : 32 ≤ 64),
      BitVec.setWidth_setWidth_of_le _ (by decide : 16 ≤ 64), BitVec.setWidth_eq] at h ⊢
    exact h
  have h := hread [] []
  simp only [List.nil_append, List.append_nil, List.length_nil] at h
  simp only [OsrMap.unpack, h, Option.bind_eq_bind, Option.bind_some, m.slots_length, dif_pos,
    Option.pure_def]

/-! ## The round trip -/

/-- A packed history read back at one of its sites: the safepoint state, and the chain of
scopes innermost to outermost. -/
def SiteRoundTrips (r : ScopeDescRecorder) (blob : List Byte) (pcdescs : List PcDesc)
    (codeOff : BitVec 32) (state : SafepointState) : Prop :=
  ∃ d, DeoptState.atParts blob pcdescs codeOff = some d ∧
    d.site.bci = state.bci ∧ d.site.kind = state.kind ∧ d.site.reexecute = state.reexecute ∧
    d.site.stack = state.stack ∧
    ∃ chain out, SenderChain r.scopes state.scope chain ∧ List.Forall₂ Shows chain out ∧
      ∀ fuel, chain.length < fuel → d.scopes.collect fuel = some out

/-- A root method scope and a block inlined into it at bci 12, with one call site in the
block. -/
def inlinedBlock : ScopeDescRecorder :=
  let method : ScopeDescData :=
    { methodPoolIx := 0, isBlock := false, sender := none, receiver := .frameSlot (-8),
      slots := [.constSmi (-1), .nil], ctx := .elided [.doubleSlot (-16)] }
  let block : ScopeDescData :=
    { methodPoolIx := 30, isBlock := true, sender := some ⟨0, 12, [.constPool 4]⟩,
      receiver := .nil, slots := [], ctx := .none }
  let site : SafepointState :=
    { scope := 1, bci := 7, kind := .call, reexecute := false, stack := [.elidedClosure 2] }
  (((ScopeDescRecorder.new.beginScope method).2).beginScope block).2.recordSite 64 site

theorem inlinedBlock_recorded : inlinedBlock.Recorded := by
  refine .recordSite (.beginScope (.beginScope .new ?_) ?_) ?_ ?_
  · simp
  · simp [ScopeDescRecorder.beginScope, ScopeDescRecorder.new]
  · simp [ScopeDescRecorder.beginScope, ScopeDescRecorder.new]
  · simp [ScopeDescRecorder.beginScope, ScopeDescRecorder.new]

/-- One scope with `n` nil slots, and one call site at bci 0. -/
def longScope (n : Nat) : ScopeDescRecorder :=
  (ScopeDescRecorder.new.beginScope
      { methodPoolIx := 0, isBlock := false, sender := none, receiver := .nil,
        slots := List.replicate n .nil, ctx := .none }).2.recordSite 0
    { scope := 0, bci := 0, kind := .call, reexecute := false, stack := [] }

theorem longScope_recorded (n : Nat) : (longScope n).Recorded := by
  refine .recordSite (.beginScope .new ?_) ?_ ?_
  · simp
  · simp [ScopeDescRecorder.beginScope, ScopeDescRecorder.new]
  · simp [ScopeDescRecorder.beginScope, ScopeDescRecorder.new]

theorem writeUleb_pow32 : writeUleb (BitVec.ofNat 64 (2 ^ 32)) = [128#8, 128#8, 128#8, 128#8, 16#8] := by
  rw [writeUleb, dif_neg (by decide), writeUleb, dif_neg (by decide), writeUleb,
    dif_neg (by decide), writeUleb, dif_neg (by decide), writeUleb_single (by decide)]
  decide

theorem flatMap_write_replicate (n : Nat) :
    (List.replicate n ValueLoc.nil).flatMap ValueLoc.write = List.replicate n 3#8 := by
  induction n with
  | zero => rfl
  | succ n ih => rw [List.replicate_succ, List.flatMap_cons, ih]; rfl

/-- The eight bytes of the long scope's record in front of its slots. -/
def longScopeHead : List Byte := [0#8, 0#8, 3#8, 128#8, 128#8, 128#8, 128#8, 16#8]

/-- The bytes of the long scope's blob: its slots start at byte 8, and behind them stands
the site's record. -/
theorem longScope_pack {n : Nat}
    (hn : writeUleb (BitVec.ofNat 64 n) = [128#8, 128#8, 128#8, 128#8, 16#8]) :
    (longScope n).pack = some (longScopeHead ++ (List.replicate n 3#8 ++ [0#8, 0#8, 0#8, 0#8]),
      [⟨0, BitVec.ofNat 32 (8 + n)⟩]) := by
  have hu : writeUleb 0#64 = [0#8] := writeUleb_single (by decide)
  have hscope : packScopes (longScope n).scopes [] [] =
      some (longScopeHead ++ List.replicate n 3#8, [0#32]) := by
    simp [longScope, ScopeDescRecorder.recordSite, ScopeDescRecorder.beginScope,
      ScopeDescRecorder.new, packScopes, writeScopeRecord, writeSender, writeLocs, hn,
      flatMap_write_replicate, CtxLoc.write, ValueLoc.write, hu, longScopeHead, scopeFlags, boolByte,
      CtxLoc.kind]
  have hsites : packSites [0#32] (longScope n).sites (longScopeHead ++ List.replicate n 3#8) [] =
      some (longScopeHead ++ (List.replicate n 3#8 ++ [0#8, 0#8, 0#8, 0#8]),
        [⟨0, BitVec.ofNat 32 (8 + n)⟩]) := by
    simp [longScope, ScopeDescRecorder.recordSite, ScopeDescRecorder.beginScope,
      ScopeDescRecorder.new, packSites, writeSafepointRecord, writeLocs, hu, longScopeHead,
      siteFlags, boolByte, SafepointKind.toBits]
    congr 1
    omega
  simp [ScopeDescRecorder.pack, hscope, hsites]

/-- Read as a safepoint record, the bytes of nil slots are a poll at bci 3. -/
theorem siteReader_nils : Reads siteReader (List.replicate 7 3#8)
    { scopeOff := 3, bci := 3, kind := .loopPoll, reexecute := true, stack := [.nil, .nil, .nil] } := by
  have hw : writeSafepointRecord
      { scope := 0, bci := 3, kind := .loopPoll, reexecute := true, stack := [.nil, .nil, .nil] }
      [3] = some (List.replicate 7 3#8) := by
    simp [writeSafepointRecord, writeLocs, ValueLoc.write, siteFlags, boolByte,
      SafepointKind.toBits, writeUleb_single, List.replicate]
  obtain ⟨off, hoff, hread⟩ := siteReader_write hw (by simp)
  obtain rfl : 3 = off := by simpa using hoff
  exact hread

end WinVm.Compiler.Scopes
