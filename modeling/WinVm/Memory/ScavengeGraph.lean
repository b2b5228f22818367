import WinVm.Memory.Relocation
import WinVm.Memory.Scanning

/-!
# A scavenge keeps the reachable graph

The Cheney loop scans every copy once, the copies it makes on the way included, and ends; after
the swap the heap is well-formed again and holds an isomorphic copy of what was reachable.

Results: `scavenge_spec`, a scavenge of a well-formed heap ends without a panic;
`scavenge_preserves_graph`.
-/

namespace WinVm.Memory

open WinVm.Lib

/-! ## The Cheney loop -/

/-- The loop has scanned the copies `doneTo` and `doneOld`. -/
structure CheneyAt (u0 : Universe) (objs : Objects) (toScan oldScan : Nat)
    (doneTo doneOld : List Nat) (u : Universe) (p : Progress) : Prop where
  inv : Scavenging u0 objs u p
  stall : u.pendingStall = none
  toPrefix : ∃ rest, p.toObjs = doneTo ++ rest
  oldPrefix : ∃ rest, p.promoted = doneOld ++ rest
  toDone : Tiles (p.size u0.mem) u.toSpace.start toScan doneTo
  oldDone : Tiles (p.size u0.mem) u0.old.top oldScan doneOld
  done : ∀ c ∈ doneTo ++ doneOld, ∀ x, SlotsOf u0 p c x → p.touched x
  only : ∀ x, p.touched x → OldSlot u0 (objs .old) x ∨ ∃ c ∈ doneTo ++ doneOld, SlotsOf u0 p c x

namespace CheneyAt

variable {u0 : Universe} {objs : Objects} {u u' : Universe} {p p' : Progress}
variable {toScan oldScan : Nat} {doneTo doneOld : List Nat}
variable (h0 : WfHeap u0 objs) (h : CheneyAt u0 objs toScan oldScan doneTo doneOld u p)
include h0 h

/-- The copies are no more than the words of young gen. -/
theorem length_le : doneTo.length + doneOld.length ≤ u0.eden.used + u0.fromSpace.used := by
  obtain ⟨restTo, hto⟩ := h.toPrefix
  obtain ⟨restOld, hold⟩ := h.oldPrefix
  have hle := h.inv.copies_le h0 List.nodup_nil fun t ht => absurd ht List.not_mem_nil
  have hlen : ((p.toObjs ++ p.promoted).map (p.size u0.mem)).length ≤
      ((p.toObjs ++ p.promoted).map (p.size u0.mem)).sum := by
    refine List.length_le_sum_of_one_le _ fun n hn => ?_
    obtain ⟨c, hc, rfl⟩ := List.mem_map.mp hn
    have hset : p.Settled objs c := by
      rcases List.mem_append.mp hc with hc | hc
      · exact Or.inl hc
      · exact Or.inr (List.mem_append_right _ hc)
    exact Nat.le_of_succ_le (h.inv.size_pos h0 hset)
  rw [hto, hold] at hlen hle
  simp only [List.length_map, List.length_append, List.map_nil, List.sum_nil] at hlen hle
  omega

/-- An object of old gen is no copy, and one kind of copy is not the other. -/
theorem distinct {c c' : Nat} (hc : c ∈ p.toObjs ∨ c ∈ p.promoted)
    (hc' : c' ∈ objs .old ∨ (c ∈ p.toObjs ∧ c' ∈ p.promoted) ∨ (c ∈ p.promoted ∧ c' ∈ p.toObjs)) :
    c' ≠ c := by
  have hto : ∀ x ∈ p.toObjs, x < u.old.start := by
    intro x hx
    have hb := h.inv.toTiles.bounds hx
    have h4 := h.inv.spaces.young .toSpace (by decide)
    have h5 := h.inv.spaces.top_le .toSpace
    have h6 : u.top .toSpace = u.toSpace.top := rfl
    omega
  have hpr : ∀ x ∈ p.promoted, u0.old.top ≤ x := fun x hx => (h.inv.promotedTiles.bounds hx).1
  have hold : ∀ x ∈ objs .old, u.old.start ≤ x ∧ x < u0.old.top := by
    intro x hx
    have hb := (h0.tiles .old).bounds hx
    have h6 : u0.top .old = u0.old.top := rfl
    exact ⟨h.inv.old_ge h0 hx, by omega⟩
  have hstart : u.old.start ≤ u0.old.top := by
    rw [h.inv.oldStart]
    exact h0.spaces.start_le .old
  rcases hc' with hc' | ⟨hc, hc'⟩ | ⟨hc, hc'⟩
  · have h1 := hold c' hc'
    rcases hc with hc | hc
    · have := hto c hc
      omega
    · have := hpr c hc
      omega
  · have h1 := hto c hc
    have h2 := hpr c' hc'
    omega
  · have h1 := hpr c hc
    have h2 := hto c' hc'
    omega

/-- The slots of a copy that is not done are not visited. -/
theorem not_touched {c : Nat} (hc : c ∈ p.toObjs ∨ c ∈ p.promoted) (hn : c ∉ doneTo ++ doneOld)
    {off : Nat} (hoff : off ∈ slotsAt u0.mem (p.orig c)) : ¬ p.touched (c + off) := by
  have hset : p.Settled objs c := hc.imp id fun hc => List.mem_append_right _ hc
  have hbound := fun {c : Nat} (hset : p.Settled objs c) {off : Nat}
    (hoff : off ∈ slotsAt u0.mem (p.orig c)) =>
      ((h0.object _ (h.inv.orig_isObject h0 hset)).slot_bounds hoff).2
  intro ht
  rcases h.only _ ht with ⟨a, ha, o, ho, heq⟩ | ⟨c', hc', o, ho, heq⟩
  · obtain ⟨hsa, horig⟩ := h.inv.copied.olds a ha
    exact h.inv.settled_ne_settled h0 hset hsa (h.distinct h0 hc (Or.inl ha)) (hbound hset hoff)
      (hbound hsa (horig.symm ▸ ho)) heq.symm
  · obtain ⟨restTo, hto⟩ := h.toPrefix
    obtain ⟨restOld, hold⟩ := h.oldPrefix
    have hset' : p.Settled objs c' := by
      rcases List.mem_append.mp hc' with hc' | hc'
      · exact Or.inl (hto ▸ List.mem_append_left _ hc')
      · exact Or.inr (List.mem_append_right _ (hold ▸ List.mem_append_left _ hc'))
    have hne : c' ≠ c := fun heq => hn (heq ▸ hc')
    exact h.inv.settled_ne_settled h0 hset hset' hne (hbound hset hoff) (hbound hset' ho) heq.symm

/-- The card of a copy's slot is none of those that were scanned. -/
theorem cardReady {c : Nat} (hc : c ∈ p.toObjs ∨ c ∈ p.promoted) {off : Nat}
    (hoff : off ∈ slotsAt u0.mem (p.orig c)) : CardReady u0 u (c + off) := by
  intro h1 h2
  have hset : p.Settled objs c := hc.imp id fun hc => List.mem_append_right _ hc
  have hlt := ((h0.object _ (h.inv.orig_isObject h0 hset)).slot_bounds hoff).2
  rcases hc with hc | hc
  · have hb := h.inv.toTiles.bounds hc
    have hsz : p.size u0.mem c = sizeAt u0.mem (p.orig c) := rfl
    have h4 := h.inv.spaces.young .toSpace (by decide)
    have h5 := h.inv.spaces.top_le .toSpace
    have h6 : u.top .toSpace = u.toSpace.top := rfl
    omega
  · have := (h.inv.promotedTiles.bounds hc).1
    omega

/-- One object of the loop; `doneTo'` and `doneOld'` are the lists with it. -/
theorem step {c : Nat} (doneTo' doneOld' : List Nat) {toScan' oldScan' : Nat}
    (hc : c ∈ p.toObjs ∨ c ∈ p.promoted) (hn : c ∉ doneTo ++ doneOld)
    (hmem : ∀ x, x ∈ doneTo' ++ doneOld' ↔ x = c ∨ x ∈ doneTo ++ doneOld)
    (hto : ∃ rest, p.toObjs = doneTo' ++ rest) (hold : ∃ rest, p.promoted = doneOld' ++ rest)
    (htoDone : Tiles (p.size u0.mem) u.toSpace.start toScan' doneTo')
    (holdDone : Tiles (p.size u0.mem) u0.old.top oldScan' doneOld') :
    ∃ out, u.scanObject c = some out ∧ (∀ err, out = .error err → ¬ u0.HasRoom) ∧
      ∀ u' n, out = .ok (u', n) → n = p.size u0.mem c ∧ ∃ p', Adds objs u p u' p' ∧
        CheneyAt u0 objs toScan' oldScan' doneTo' doneOld' u' p' := by
  have hset : p.Settled objs c := hc.imp id fun hc => List.mem_append_right _ hc
  obtain ⟨out, hcall, hroom, hout⟩ := h.inv.scanObject h0 hset
    (fun off ho => h.not_touched h0 hc hn ho) (fun off ho => h.cardReady h0 hc ho)
  refine ⟨out, hcall, hroom, fun u' n heq => ?_⟩
  obtain ⟨hn', hstall, p', hv⟩ := hout u' n heq
  have hg := hv.grows
  have hsettled : ∀ x ∈ doneTo' ++ doneOld', p.Settled objs x := by
    intro x hx
    obtain ⟨r1, hr1⟩ := hto
    obtain ⟨r2, hr2⟩ := hold
    rcases List.mem_append.mp hx with hx | hx
    · exact Or.inl (hr1 ▸ List.mem_append_left _ hx)
    · exact Or.inr (List.mem_append_right _ (hr2 ▸ List.mem_append_left _ hx))
  have hsize : ∀ x ∈ doneTo' ++ doneOld', p'.size u0.mem x = p.size u0.mem x := by
    intro x hx
    unfold Progress.size
    rw [hg.orig_settled (hsettled x hx)]
  have hslots : ∀ x ∈ doneTo' ++ doneOld', ∀ y, SlotsOf u0 p' x y ↔ SlotsOf u0 p x y := by
    intro x hx y
    unfold SlotsOf
    rw [hg.orig_settled (hsettled x hx)]
  refine ⟨hn', p', hg.toAdds, hv.inv, hstall, ?_, ?_, ?_, ?_, ?_, ?_⟩
  · obtain ⟨r, hr⟩ := hto
    obtain ⟨l, hl⟩ := hg.toObjs
    exact ⟨r ++ l, by rw [hl, hr, List.append_assoc]⟩
  · obtain ⟨r, hr⟩ := hold
    obtain ⟨l, hl⟩ := hg.promoted
    exact ⟨r ++ l, by rw [hl, hr, List.append_assoc]⟩
  · rw [hv.inv.toStart, ← h.inv.toStart]
    exact htoDone.congr fun x hx => hsize x (List.mem_append_left _ hx)
  · exact holdDone.congr fun x hx => hsize x (List.mem_append_right _ hx)
  · intro x hx y hy
    rw [hslots x hx] at hy
    rw [hv.touched]
    rcases (hmem x).mp hx with rfl | hx
    · exact Or.inr hy
    · exact Or.inl (h.done x hx y hy)
  · intro y hy
    rcases (hv.touched y).mp hy with hy | hy
    · refine (h.only y hy).imp id ?_
      rintro ⟨x, hx, hxy⟩
      have hx' := (hmem x).mpr (Or.inr hx)
      exact ⟨x, hx', (hslots x hx' y).mpr hxy⟩
    · have hc' := (hmem c).mpr (Or.inl rfl)
      exact Or.inr ⟨c, hc', (hslots c hc' y).mpr hy⟩

end CheneyAt

namespace Scavenging

variable {u0 : Universe} {objs : Objects}

/-- With fuel for the words of young gen the loop ends; unless it stalls, every copy is
scanned. -/
theorem cheney (h0 : WfHeap u0 objs) (fuel : Nat) {toScan oldScan : Nat} {doneTo doneOld : List Nat}
    {u : Universe} {p : Progress} (h : CheneyAt u0 objs toScan oldScan doneTo doneOld u p)
    (hfuel : u0.eden.used + u0.fromSpace.used < doneTo.length + doneOld.length + fuel) :
    ∃ out, Universe.cheney fuel toScan oldScan u = some out ∧
      (∀ err, out = .error err → ¬ u0.HasRoom) ∧ ∀ u', out = .ok u' →
      ∃ p', Scavenging u0 objs u' p' ∧ Adds objs u p u' p' ∧ u'.pendingStall = none ∧
        (∀ c ∈ p'.toObjs ++ p'.promoted, ∀ x, SlotsOf u0 p' c x → p'.touched x) := by
  induction fuel generalizing toScan oldScan doneTo doneOld u p with
  | zero =>
    have := h.length_le h0
    omega
  | succ fuel ih =>
    obtain ⟨restTo, hto⟩ := h.toPrefix
    obtain ⟨restOld, hold⟩ := h.oldPrefix
    have htoRest := (hto ▸ h.inv.toTiles).rest h.toDone
    have holdRest := (hold ▸ h.inv.promotedTiles).rest h.oldDone
    have hnodup : (p.toObjs ++ p.promoted).Nodup := by
      refine List.nodup_append.mpr ⟨h.inv.toTiles.nodup, h.inv.promotedTiles.nodup, ?_⟩
      intro c hc c' hc' heq
      exact h.distinct h0 (Or.inl hc) (Or.inr (Or.inl ⟨hc, hc'⟩)) heq.symm
    rw [hto, hold] at hnodup
    unfold Universe.cheney
    by_cases hmore : toScan < u.toSpace.top
    · rw [if_pos hmore]
      cases htoRest with
      | nil => omega
      | @cons _ _ restTo hpos htoRest =>
        have hmemTo : toScan ∈ p.toObjs := hto ▸ List.mem_append_right _ List.mem_cons_self
        have hnew : toScan ∉ doneTo ++ doneOld := by
          intro hm
          rcases List.mem_append.mp hm with hm | hm
          · exact (List.nodup_append.mp (List.nodup_append.mp hnodup).1).2.2 _ hm _
              List.mem_cons_self rfl
          · exact (List.nodup_append.mp hnodup).2.2 _
              (List.mem_append_right _ List.mem_cons_self) _ (List.mem_append_left _ hm) rfl
        obtain ⟨out, hcall, hroom, hout⟩ := h.step h0 (doneTo ++ [toScan]) doneOld
          (Or.inl hmemTo) hnew (fun x => by simp only [List.mem_append, List.mem_singleton]; tauto)
          ⟨restTo, by rw [hto, List.append_assoc]; rfl⟩ ⟨restOld, hold⟩ (h.toDone.snoc hpos) h.oldDone
        simp only [hcall, Option.bind_eq_bind, Option.bind_some]
        cases out with
        | error err => exact ⟨_, rfl, fun _ _ => hroom err rfl, fun u' heq => by cases heq⟩
        | ok next =>
          obtain ⟨u1, n⟩ := next
          obtain ⟨rfl, p1, hadds, hnext⟩ := hout u1 n rfl
          obtain ⟨out, hrest, hroom', hdone⟩ := ih hnext (by
            rw [List.length_append, List.length_singleton]
            omega)
          refine ⟨out, hrest, hroom', fun u' heq => ?_⟩
          obtain ⟨p', hinv, hadds', hstall, hall⟩ := hdone u' heq
          exact ⟨p', hinv, hadds.trans hadds', hstall, hall⟩
    · rw [if_neg hmore]
      by_cases hmore' : oldScan < u.old.top
      · rw [if_pos hmore']
        cases holdRest with
        | nil => omega
        | @cons _ _ restOld hpos holdRest =>
          have hmemOld : oldScan ∈ p.promoted := hold ▸ List.mem_append_right _ List.mem_cons_self
          have hnew : oldScan ∉ doneTo ++ doneOld := by
            intro hm
            rcases List.mem_append.mp hm with hm | hm
            · exact (List.nodup_append.mp hnodup).2.2 _ (List.mem_append_left _ hm) _
                (List.mem_append_right _ List.mem_cons_self) rfl
            · exact (List.nodup_append.mp (List.nodup_append.mp hnodup).2.1).2.2 _ hm _
                List.mem_cons_self rfl
          obtain ⟨out, hcall, hroom, hout⟩ := h.step h0 doneTo
            (doneOld ++ [oldScan]) (Or.inr hmemOld) hnew
            (fun x => by simp only [List.mem_append, List.mem_singleton]; tauto)
            ⟨restTo, hto⟩ ⟨restOld, by rw [hold, List.append_assoc]; rfl⟩ h.toDone
            (h.oldDone.snoc hpos)
          simp only [hcall, Option.bind_eq_bind, Option.bind_some]
          cases out with
          | error err => exact ⟨_, rfl, fun _ _ => hroom err rfl, fun u' heq => by cases heq⟩
          | ok next =>
            obtain ⟨u1, n⟩ := next
            obtain ⟨rfl, p1, hadds, hnext⟩ := hout u1 n rfl
            obtain ⟨out, hrest, hroom', hdone⟩ := ih hnext (by
              rw [List.length_append, List.length_singleton]
              omega)
            refine ⟨out, hrest, hroom', fun u' heq => ?_⟩
            obtain ⟨p', hinv, hadds', hstall, hall⟩ := hdone u' heq
            exact ⟨p', hinv, hadds.trans hadds', hstall, hall⟩
      · rw [if_neg hmore']
        -- both scan pointers have reached their tops
        have hnilTo : restTo = [] := by
          cases htoRest with
          | nil => rfl
          | cons hpos htoRest =>
            have := htoRest.le
            omega
        have hnilOld : restOld = [] := by
          cases holdRest with
          | nil => rfl
          | cons hpos holdRest =>
            have := holdRest.le
            omega
        refine ⟨_, rfl, (fun _ heq => by cases heq), fun u' heq => ?_⟩
        cases heq
        refine ⟨p, h.inv, .refl, h.stall, fun c hc => h.done c ?_⟩
        rw [hto, hold, hnilTo, hnilOld] at hc
        simpa only [List.append_nil] using hc

end Scavenging

/-! ## The root scan -/

/-- What the heap looks like when the copying is over. -/
structure Finished (u0 : Universe) (objs : Objects) (u : Universe) (p : Progress) : Prop where
  inv : Scavenging u0 objs u p
  stall : u.pendingStall = none
  copies : ∀ c ∈ p.toObjs ++ p.promoted, ∀ x, SlotsOf u0 p c x → p.touched x
  olds : ∀ x, OldSlot u0 (objs .old) x → p.touched x ∨ u0.dirty (u0.cardIndex x) = false
  roots : List.Forall₂ (fun w v => WordSim (Stands objs u.mem) w v ∧ Final objs v) u0.roots u.roots
  codeRoots : List.Forall₂ (fun w v => WordSim (Stands objs u.mem) w v ∧ Final objs v)
    u0.codeWords u.codeWords
  codeInfo : u.codeRoots = setCodeWords u0.codeRoots u.codeWords

/-- The roots do not matter to the objects. -/
theorem Scavenging.of_roots {u0 u u' : Universe} {objs : Objects} {p : Progress}
    (h : Scavenging u0 objs u p) {roots : List Nat} {codeRoots : List CodeRoot}
    (hu : u' = { u with roots := roots, codeRoots := codeRoots }) : Scavenging u0 objs u' p := by
  subst hu
  exact ⟨h.copied, h.spaces.of_eq rfl rfl rfl rfl, h.eden, h.fromSpace, h.toStart, h.toLimit,
    h.oldStart, h.oldLimit, h.oldCommitted, h.origObject, h.toTiles, h.promotedTiles,
    h.resolves.of_offsets rfl rfl rfl, h.promotedDirty, h.untouched, h.final, h.touchedUsed,
    h.remembered, h.room, h.flags⟩

/-- Nothing has been copied yet. -/
def Progress.none : Progress where
  toObjs := []
  promoted := []
  orig := id
  touched := fun _ => False

namespace WfHeap

variable {u0 : Universe} {objs : Objects} (h0 : WfHeap u0 objs)
include h0

theorem toSpace_eq : u0.toSpace.top = u0.toSpace.start := by
  have h := (h0.tiles .toSpace).sum_eq
  rw [h0.toEmpty] at h
  exact h

theorem scavenging : Scavenging u0 objs u0 .none := by
  have hold : ∀ c, Progress.none.Settled objs c ↔ c ∈ objs .old := by
    intro c
    unfold Progress.Settled Progress.none
    simp
  refine ⟨⟨?_, ?_, ?_, ?_, ?_, ?_⟩, h0.spaces, rfl, rfl, rfl, rfl, rfl, rfl, rfl, fun _ _ => rfl,
    ?_, .nil _, ?_, ?_, ?_, ?_, ?_, ?_, fun _ => h0.noStall, rfl, rfl⟩
  · exact fun a ha => ⟨(hold a).mpr ha, rfl⟩
  · exact fun _ _ => Or.inl rfl
  · exact fun c hc => Or.inl ((hold c).mp hc)
  · exact fun _ _ _ _ _ => rfl
  · intro c hc
    have hobj := h0.object c ⟨_, (hold c).mp hc⟩
    exact ⟨fun off hoff => (hobj.slots off hoff).wordSim_self, fun _ _ _ _ => rfl⟩
  · exact fun c hc => .refl (h0.object c ⟨_, (hold c).mp hc⟩).mark
  · rw [h0.toSpace_eq]
    exact .nil _
  · change u0.Resolves (sizeAt u0.mem) (objs .old ++ [])
    rw [List.append_nil]
    exact h0.resolves
  · intro c hc
    cases hc
  · exact fun _ _ _ _ _ _ => rfl
  · exact fun _ x hx => hx.elim
  · exact fun x hx => hx.elim
  · exact fun x hx => hx.elim

/-- The root scan: roots, dirty cards, code roots. -/
theorem scanRoots : ∃ u p, u0.scanRoots u0.old.top = some u ∧ Scavenging u0 objs u p ∧
    (u.pendingStall = none → CheneyAt u0 objs u.toSpace.start u0.old.top [] [] u p ∧
      (∀ x, OldSlot u0 (objs .old) x → p.touched x ∨ u0.dirty (u0.cardIndex x) = false) ∧
      List.Forall₂ (fun w v => WordSim (Stands objs u.mem) w v ∧ Final objs v) u0.roots u.roots ∧
      List.Forall₂ (fun w v => WordSim (Stands objs u.mem) w v ∧ Final objs v)
        u0.codeWords u.codeWords ∧
      u.codeRoots = setCodeWords u0.codeRoots u.codeWords) := by
  obtain ⟨u1, vs1, p1, hcall1, h1, hg1, ht1, hroots1⟩ := h0.scavenging.scavengeWords h0 _
    fun w hw => h0.roots w (List.mem_append_left _ hw)
  have h1' : Scavenging u0 objs { u1 with roots := vs1 } p1 := h1.of_roots rfl
  have hnone : ∀ x, ¬ p1.touched x := by
    rw [ht1]
    exact fun _ => id
  obtain ⟨u2, p2, hcall2, h2, hadds2, hdone2, honly2⟩ := h1'.dirtyCardScan h0 hnone hg1.dirty
  have hcode2 : u2.codeRoots = u0.codeRoots := hadds2.roots.2.trans hg1.roots.2
  have hwords2 : u2.codeWords = u0.codeWords := congrArg (List.map CodeRoot.word) hcode2
  have hroots2 : u2.roots = vs1 := hadds2.roots.1
  obtain ⟨u3, vs3, p3, hcall3, h3, hg3, ht3, hroots3⟩ := h2.scavengeWords h0 u2.codeWords
    fun w hw => h0.roots w (List.mem_append_right _ (hwords2 ▸ hw))
  have hcode3 : u3.codeRoots = u0.codeRoots := hg3.roots.2.trans hcode2
  have hwords : (setCodeWords u3.codeRoots vs3).map CodeRoot.word = vs3 := by
    refine word_setCodeWords ?_
    rw [← hroots3.length_eq, hwords2, hcode3]
    exact List.length_map _
  have h3' : Scavenging u0 objs { u3 with codeRoots := setCodeWords u3.codeRoots vs3 } p3 :=
    h3.of_roots rfl
  refine ⟨{ u3 with codeRoots := setCodeWords u3.codeRoots vs3 }, p3, ?_, h3',
    fun hs => ⟨?_, ?_, ?_, ?_, ?_⟩⟩
  · unfold Universe.scanRoots
    simp only [hcall1, hcall2, hcall3, Option.bind_eq_bind, Option.bind_some]
  · refine ⟨h3', hs, ⟨_, rfl⟩, ⟨_, rfl⟩, .nil _, .nil _, fun c hc => absurd hc List.not_mem_nil, ?_⟩
    intro x hx
    rw [ht3] at hx
    exact Or.inl (honly2 x hx)
  · intro x hx
    rw [ht3]
    exact hdone2 x hx
  · have hs1 : u1.pendingStall = Option.none := hadds2.stall (hg3.stall hs)
    have heq : u3.roots = vs1 := hg3.roots.1.trans hroots2
    change List.Forall₂ _ u0.roots u3.roots
    rw [heq]
    refine hroots1.imp fun w v ⟨hsim, hfinal⟩ => ⟨hsim.mono fun a a' hst => ?_, hfinal hs1⟩
    exact h2.stands_grows h0 h3 hg3.toAdds (h1'.stands_grows h0 h2 hadds2 hst)
  · rw [hwords2] at hroots3
    change List.Forall₂ _ u0.codeWords ((setCodeWords u3.codeRoots vs3).map CodeRoot.word)
    rw [hwords]
    exact hroots3.imp fun w v ⟨hsim, hfinal⟩ => ⟨hsim, hfinal hs⟩
  · change setCodeWords u3.codeRoots vs3 =
      setCodeWords u0.codeRoots ((setCodeWords u3.codeRoots vs3).map CodeRoot.word)
    rw [hwords, hcode3]

end WfHeap

/-! ## The heap afterwards -/

/-- `c` is where the object `a` is to stay. -/
def Placed (objs : Objects) (p : Progress) (a c : Nat) : Prop := p.Settled objs c ∧ p.orig c = a

/-- The objects after the swap of the survivor spaces. -/
def Progress.objects (p : Progress) (objs : Objects) : Objects
  | .eden => []
  | .fromSpace => p.toObjs
  | .toSpace => []
  | .old => objs .old ++ p.promoted

theorem Progress.isObject_objects {p : Progress} {objs : Objects} {c : Nat} :
    IsObject (p.objects objs) c ↔ p.Settled objs c := by
  constructor
  · rintro ⟨r, hr⟩
    cases r with
    | eden => cases hr
    | fromSpace => exact Or.inl hr
    | toSpace => cases hr
    | old => exact Or.inr hr
  · rintro (hc | hc)
    · exact ⟨.fromSpace, hc⟩
    · exact ⟨.old, hc⟩

namespace Finished

variable {u0 : Universe} {objs : Objects} {u : Universe} {p : Progress}
variable (h0 : WfHeap u0 objs) (h : Finished u0 objs u p)
include h0 h

theorem placed_of_stands {t t' : Nat} (hs : Stands objs u.mem t t') (hf : Final objs (oopAt t')) :
    Placed objs p t t' := by
  obtain ⟨ht, rfl | ⟨hy, hw⟩⟩ := hs
  · rcases Copied.young_or_old h0.toEmpty ht with hy | hold
    · exact absurd rfl (hf t' hy)
    · exact h.inv.copied.olds t' hold
  · exact h.inv.copied.settled_of_forwarded h0.object hy hw

theorem wordSim_placed {w v : Nat} (hs : WordSim (Stands objs u.mem) w v) (hf : Final objs v) :
    WordSim (Placed objs p) w v := by
  cases hs with
  | same hn => exact .same hn
  | oop hst => exact .oop (h.placed_of_stands h0 hst hf)

theorem imageOf_eq {a c : Nat} (hac : Placed objs p a c) : imageOf u.mem a = c := by
  obtain ⟨hc, rfl⟩ := hac
  unfold imageOf
  rcases h.inv.copied.forwarded c hc with hold | ⟨-, hw⟩
  · rw [(h.inv.copied.olds c hold).2, if_neg (Mark.not_isMem (h.inv.copied.mark c hc).1)]
  · rw [hw, if_pos (isMem_oopAt c), memAddr_oopAt]

theorem eq_imageWord {w v : Nat} (hs : WordSim (Placed objs p) w v) :
    v = imageWord (imageOf u.mem) w := by
  cases hs with
  | same hn => exact (imageWord_of_not_isMem hn).symm
  | oop hac => rw [imageWord_oopAt, h.imageOf_eq h0 hac]

/-- The word of an old slot on a card that was clean is what it was. -/
theorem slot_final {c off : Nat} (hc : p.Settled objs c) (hoff : off ∈ slotsAt u0.mem (p.orig c)) :
    Final objs (u.mem (c + off)) := by
  have hobj := h0.object _ (h.inv.orig_isObject h0 hc)
  obtain ⟨hlo, hhi⟩ := hobj.slot_bounds hoff
  by_cases ht : p.touched (c + off)
  · exact h.inv.final h.stall _ ht
  · rw [h.inv.untouched c hc off hlo hhi ht]
    -- a copy's slots were all visited, so this is an object of old gen
    have hold : c ∈ objs .old := by
      rcases hc with hc | hc
      · exact absurd (h.copies c (List.mem_append_left _ hc) _ ⟨off, hoff, rfl⟩) ht
      · rcases List.mem_append.mp hc with hc | hc
        · exact hc
        · exact absurd (h.copies c (List.mem_append_right _ hc) _ ⟨off, hoff, rfl⟩) ht
    have horig := (h.inv.copied.olds c hold).2
    rw [horig] at hoff ⊢
    have hclean := (h.olds (c + off) ⟨c, hold, off, hoff, rfl⟩).resolve_left ht
    intro t hy heq
    have hnew := h0.remembered c hold off hoff (by rw [heq]; exact isMem_oopAt t) (by
      rw [heq, memAddr_oopAt, ← h.inv.oldStart]
      exact h.inv.young_lt h0 hy)
    rw [hclean] at hnew
    cases hnew

/-- The heap now holds the heap before, at the places where the objects stay. -/
theorem sim_placed : Sim u0.mem u.mem (Placed objs p) := by
  rintro a c ⟨hc, rfl⟩
  have hsim := h.inv.copied.sim c hc
  exact ⟨fun off hoff => h.wordSim_placed h0 (hsim.slots off hoff) (h.slot_final h0 hc hoff),
    hsim.raw⟩

omit h in
theorem placed_dom (h : Finished u0 objs u p) : ∀ a c, Placed objs p a c → IsObject objs a := by
  rintro a c ⟨hc, rfl⟩
  exact h.inv.orig_isObject h0 hc

theorem shape {c : Nat} (hc : p.Settled objs c) : sizeAt u.mem c = p.size u0.mem c ∧
    slotsAt u.mem c = slotsAt u0.mem (p.orig c) :=
  (h.sim_placed h0).shape h0.object (placed_dom h0 h) ⟨hc, rfl⟩

/-- An object that stays was moved as a whole. -/
theorem moved {a c : Nat} (hac : Placed objs p a c) :
    Moved Mark.SameIdentity u0.mem u.mem (imageOf u.mem) a := by
  have himage := h.imageOf_eq h0 hac
  obtain ⟨hc, rfl⟩ := hac
  have hsim := h.sim_placed h0 (p.orig c) c ⟨hc, rfl⟩
  obtain ⟨hsize, hslots⟩ := h.shape h0 hc
  refine ⟨?_, ?_, ?_, ?_, ?_⟩
  · rw [himage]
    exact hsize
  · rw [himage]
    exact hslots
  · intro off hoff
    rw [himage]
    exact h.eq_imageWord h0 (hsim.slots off hoff)
  · rw [himage]
    exact hsim.raw
  · rw [himage]
    exact h.inv.copied.mark c hc

theorem roots_eq {ws vs : List Nat} (hws : List.Forall₂ (fun w v =>
    WordSim (Stands objs u.mem) w v ∧ Final objs v) ws vs) :
    vs = ws.map (imageWord (imageOf u.mem)) ∧
      ∀ w v, (w, v) ∈ ws.zip vs → WordSim (Placed objs p) w v := by
  induction hws with
  | nil => exact ⟨rfl, fun w v hm => absurd hm List.not_mem_nil⟩
  | cons hwv _ ih =>
    have hsim := h.wordSim_placed h0 hwv.1 hwv.2
    refine ⟨?_, fun w v hm => ?_⟩
    · rw [List.map_cons, ← h.eq_imageWord h0 hsim, ← ih.1]
    · rcases List.mem_cons.mp hm with heq | hm
      · cases heq
        exact hsim
      · exact ih.2 w v hm

/-- Every reachable object has a place. -/
theorem placed_of_reachable {a : Nat} (ha : u0.graph.Reachable a) : ∃ c, Placed objs p a c := by
  refine ha.closed (P := fun a => ∃ c, Placed objs p a c) ?_ ?_
  · intro t ht
    have hroot : ∀ {ws vs : List Nat}, List.Forall₂ (fun w v =>
        WordSim (Stands objs u.mem) w v ∧ Final objs v) ws vs → oopAt t ∈ ws →
        ∃ c, Placed objs p t c := by
      intro ws vs hws hmem
      induction hws with
      | nil => cases hmem
      | cons hwv _ ih =>
        rcases List.mem_cons.mp hmem with heq | hmem
        · subst heq
          obtain ⟨c, -, hc⟩ := (h.wordSim_placed h0 hwv.1 hwv.2).of_oopAt
          exact ⟨c, hc⟩
        · exact ih hmem
    rcases List.mem_append.mp ht with ht | ht
    · exact hroot h.roots ht
    · exact hroot h.codeRoots ht
  · rintro a t ⟨c, hac⟩ ⟨off, hoff, hw⟩
    have hslot := (h.sim_placed h0 a c hac).slots off hoff
    rw [hw] at hslot
    obtain ⟨c', -, hc'⟩ := hslot.of_oopAt
    exact ⟨c', hc'⟩

/-- The heap after the swap is well-formed. -/
theorem wfHeap (k : Nat) : WfHeap (u.finishScavenge k).1 (p.objects objs) := by
  have hsp := h.inv.spaces
  have hobject : ∀ c, IsObject (p.objects objs) c → WfObject u.mem (IsObject (p.objects objs)) c := by
    intro c hc
    rw [Progress.isObject_objects] at hc
    have hmark := h.inv.copied.mark c hc
    have hobj := h0.object _ (h.inv.orig_isObject h0 hc)
    refine (h.sim_placed h0).wfObject h0.object (placed_dom h0 h) ⟨hc, rfl⟩ ?_ hmark.1 ?_
    · exact fun b b' hb => Progress.isObject_objects.mpr hb.1
    · rw [hmark.2.2.2.2]
      exact hobj.notMarked
  have hroot : ∀ {ws vs : List Nat}, List.Forall₂ (fun w v =>
      WordSim (Stands objs u.mem) w v ∧ Final objs v) ws vs → (∀ w ∈ ws, WfWord (IsObject objs) w) →
      ∀ v ∈ vs, WfWord (IsObject (p.objects objs)) v := by
    intro ws vs hws
    induction hws with
    | nil => exact fun _ v hv => absurd hv List.not_mem_nil
    | cons hwv _ ih =>
      intro hwf v hv
      rcases List.mem_cons.mp hv with rfl | hv
      · exact (h.wordSim_placed h0 hwv.1 hwv.2).wfWord (hwf _ List.mem_cons_self)
          fun a a' ha => Progress.isObject_objects.mpr ha.1
      · exact ih (fun w hw => hwf w (List.mem_cons_of_mem _ hw)) v hv
  have hsize : ∀ r, ∀ c ∈ p.objects objs r, sizeAt u.mem c = p.size u0.mem c := fun r c hc =>
    (h.shape h0 (Progress.isObject_objects.mp ⟨r, hc⟩)).1
  refine ⟨?_, ?_, rfl, hobject, ?_, ?_, ?_, h.stall, h.inv.flags.1.trans h0.gcEnabled⟩
  · -- from and to have changed places
    have hstart := hsp.start_le
    have htop := hsp.top_le
    refine ⟨?_, ?_, ?_, ?_, hsp.reserved⟩
    · intro r
      cases r with
      | eden => exact Nat.le_refl _
      | fromSpace => exact hstart .toSpace
      | toSpace => exact Nat.le_refl _
      | old => exact hstart .old
    · intro r
      cases r with
      | eden => exact (hstart .eden).trans (htop .eden)
      | fromSpace => exact htop .toSpace
      | toSpace => exact (hstart .fromSpace).trans (htop .fromSpace)
      | old => exact htop .old
    · intro r s hrs
      cases r <;> cases s
      case eden.fromSpace => exact hsp.apart .eden .toSpace (by decide)
      case eden.toSpace => exact hsp.apart .eden .fromSpace (by decide)
      case eden.old => exact hsp.apart .eden .old (by decide)
      case fromSpace.eden => exact hsp.apart .toSpace .eden (by decide)
      case fromSpace.toSpace => exact hsp.apart .toSpace .fromSpace (by decide)
      case fromSpace.old => exact hsp.apart .toSpace .old (by decide)
      case toSpace.eden => exact hsp.apart .fromSpace .eden (by decide)
      case toSpace.fromSpace => exact hsp.apart .fromSpace .toSpace (by decide)
      case toSpace.old => exact hsp.apart .fromSpace .old (by decide)
      case old.eden => exact hsp.apart .old .eden (by decide)
      case old.fromSpace => exact hsp.apart .old .toSpace (by decide)
      case old.toSpace => exact hsp.apart .old .fromSpace (by decide)
      all_goals exact absurd rfl hrs
    · intro r hr
      cases r with
      | eden => exact hsp.young .eden (by decide)
      | fromSpace => exact hsp.young .toSpace (by decide)
      | toSpace => exact hsp.young .fromSpace (by decide)
      | old => exact absurd rfl hr
  · intro r
    cases r with
    | eden => exact .nil _
    | fromSpace => exact h.inv.toTiles.congr (hsize .fromSpace)
    | toSpace => exact .nil _
    | old => exact (h.inv.tiles h0 .old).congr (hsize .old)
  · intro w hw
    rcases List.mem_append.mp hw with hw | hw
    · exact hroot h.roots (fun w hw => h0.roots w (List.mem_append_left _ hw)) w hw
    · exact hroot h.codeRoots (fun w hw => h0.roots w (List.mem_append_right _ hw)) w hw
  · intro c hc off hoff hmem hlt
    change u.dirty (u.cardIndex (c + off)) = true
    change off ∈ slotsAt u.mem c at hoff
    have hset : p.Settled objs c := Or.inr hc
    rw [(h.shape h0 hset).2] at hoff
    have hin := ((h0.object _ (h.inv.orig_isObject h0 hset)).slot_bounds hoff)
    rcases List.mem_append.mp hc with hold | hc
    · have horig := (h.inv.copied.olds c hold).2
      have hb := (h0.tiles .old).bounds hold
      have hge := h.inv.old_ge h0 hold
      have htop : u0.top .old = u0.old.top := rfl
      rw [horig] at hoff hin
      by_cases ht : p.touched (c + off)
      · exact h.inv.remembered _ ht (by omega) (by omega) ⟨hmem, hlt⟩
      · -- an unvisited slot lies on a card that was clean, so it did not point into new gen
        exfalso
        have hclean := (h.olds (c + off) ⟨c, hold, off, hoff, rfl⟩).resolve_left ht
        have hword := h.inv.untouched c hset off hin.1 (by
          unfold Progress.size
          rw [horig]
          exact hin.2) ht
        rw [horig] at hword
        change IsMem (u.mem (c + off)) at hmem
        change memAddr (u.mem (c + off)) < u.old.start at hlt
        rw [hword] at hmem hlt
        rw [h.inv.oldStart] at hlt
        have := h0.remembered c hold off hoff hmem hlt
        rw [hclean] at this
        cases this
    · exact h.inv.promotedDirty c hc off hin.2
  · exact (h.inv.resolves.congr (hsize .old)).of_offsets rfl rfl rfl

theorem relocated (k : Nat) : Relocated Mark.SameIdentity u0 (u.finishScavenge k).1 (imageOf u.mem) := by
  refine .of_moved h0 (h.roots_eq h0 h.roots).1 ?_ ?_ ?_
  · change u.codeRoots = _
    rw [h.codeInfo, (h.roots_eq h0 h.codeRoots).1]
    exact setCodeWords_map _ _
  · intro a ha
    obtain ⟨c, hc⟩ := h.placed_of_reachable h0 ha
    exact h.moved h0 hc
  · intro a b ha hb heq
    obtain ⟨c, hc⟩ := h.placed_of_reachable h0 ha
    obtain ⟨d, hd⟩ := h.placed_of_reachable h0 hb
    rw [h.imageOf_eq h0 hc, h.imageOf_eq h0 hd] at heq
    exact hc.2.symm.trans (heq ▸ hd.2)

end Finished

/-! ## The collection as a whole -/

section Scavenge

variable {u u' : Universe} {objs : Objects} {report : Universe.ScavengeReport}

theorem WfHeap.enterScavenge (h : WfHeap u objs) : WfHeap u.enterScavenge objs := by
  refine h.of_eq ⟨rfl, rfl, ?_, rfl⟩ rfl rfl rfl rfl rfl rfl rfl
  have htop := h.toSpace_eq
  change ({ u.toSpace with top := u.toSpace.start } : Space) = u.toSpace
  rw [← htop]

/-- A scavenge of a well-formed heap ends: with a stall, or with all copies scanned. -/
theorem scavenge_spec (h : WfHeap u objs) : ∃ out, u.scavenge = some out ∧
    (∀ err, out = .error err → ¬ u.HasRoom) ∧ ∀ u' report, out = .ok (u', report) → ∃ u1 p, Finished u.enterScavenge objs u1 p ∧
      u1.finishScavenge u.old.top = (u', report) := by
  have h0 := h.enterScavenge
  obtain ⟨u1, p1, hroots, hinv, hnext⟩ := h0.scanRoots
  unfold Universe.scavenge
  rw [if_pos h.gcEnabled]
  change u.enterScavenge.scanRoots u.old.top = some u1 at hroots
  simp only [hroots, Option.bind_eq_bind, Option.bind_some]
  cases hs : u1.pendingStall with
  | some err =>
    refine ⟨_, rfl, fun _ _ hroom => ?_, fun u' report heq => by cases heq⟩
    rw [hinv.room hroom] at hs
    cases hs
  | none =>
    obtain ⟨hloop, holds, hr, hc, hinfo⟩ := hnext hs
    obtain ⟨out, hcall, hroom, hout⟩ := Scavenging.cheney h0
      (u.eden.used + u.fromSpace.used + 1) hloop (by
        change u.eden.used + u.fromSpace.used < _
        simp only [List.length_nil]
        omega)
    change Universe.cheney _ _ u.old.top _ = _ at hcall
    simp only [hcall, Option.bind_some]
    cases out with
    | error err => exact ⟨_, rfl, fun _ _ => hroom err rfl, fun u' report heq => by cases heq⟩
    | ok u2 =>
      refine ⟨_, rfl, (fun _ heq => by cases heq), fun u' report heq => ?_⟩
      obtain ⟨p2, hinv2, hadds, hstall, hcopies⟩ := hout u2 rfl
      have hroots2 : ∀ {ws vs : List Nat}, List.Forall₂ (fun w v =>
          WordSim (Stands objs u1.mem) w v ∧ Final objs v) ws vs → List.Forall₂ (fun w v =>
          WordSim (Stands objs u2.mem) w v ∧ Final objs v) ws vs := fun hws =>
        hws.imp fun w v ⟨hsim, hf⟩ =>
          ⟨hsim.mono fun a a' hst => hinv.stands_grows h0 hinv2 hadds hst, hf⟩
      have hwords : u2.codeWords = u1.codeWords := congrArg (List.map CodeRoot.word) hadds.roots.2
      refine ⟨u2, p2, ⟨hinv2, hstall, hcopies, fun x hx => ?_, ?_, ?_, ?_⟩, ?_⟩
      · exact (holds x hx).imp_left (hadds.touched x)
      · rw [hadds.roots.1]
        exact hroots2 hr
      · rw [hwords]
        exact hroots2 hc
      · rw [hwords, hadds.roots.2]
        exact hinfo
      · cases heq
        rfl

/-- A scavenge that returns `Ok` leaves a well-formed heap with an isomorphic copy of the
reachable graph: old objects stay, each reachable young object has one copy, in the survivor
space or behind old gen's former top, and nothing reachable lies in what was vacated. -/
theorem scavenge_preserves_graph (h : WfHeap u objs)
    (hrun : u.scavenge = some (.ok (u', report))) :
    ∃ image objs', WfHeap u' objs' ∧ Relocated Mark.SameIdentity u u' image ∧
      (∀ a, u.graph.Reachable a → (a ∈ objs .old ∧ image a = a) ∨
        (IsYoung objs a ∧ (image a ∈ objs' .fromSpace ∨
          (image a ∈ objs' .old ∧ u.old.top ≤ image a)))) ∧
      (∀ c, c ∈ objs' .fromSpace ∨ (c ∈ objs' .old ∧ u.old.top ≤ c) →
        ∃ a, IsYoung objs a ∧ image a = c) ∧
      ∀ b, u'.graph.Reachable b → ¬ (u.eden.start ≤ b ∧ b < u.eden.limit) ∧
        ¬ (u.fromSpace.start ≤ b ∧ b < u.fromSpace.limit) := by
  have h0 := h.enterScavenge
  obtain ⟨out, hcall, -, hout⟩ := scavenge_spec h
  obtain ⟨u1, p, hfin, hu'⟩ := hout u' report (Option.some.inj (hcall.symm.trans hrun))
  have hmove := hfin.relocated h0 u.old.top
  have hwf := hfin.wfHeap h0 u.old.top
  rw [hu'] at hmove hwf
  have hcopy : ∀ c, c ∈ p.toObjs ∨ c ∈ p.promoted →
      IsYoung objs (p.orig c) ∧ imageOf u1.mem (p.orig c) = c := by
    intro c hc
    have hset : p.Settled objs c := hc.imp id fun hc => List.mem_append_right _ hc
    refine ⟨?_, hfin.imageOf_eq h0 ⟨hset, rfl⟩⟩
    rcases hfin.inv.copied.forwarded c hset with hold | hy
    · -- an object of old gen lies below its former top
      exfalso
      have hloop := hfin.inv
      have hb := (h.tiles .old).bounds hold
      have htop : u.top .old = u.old.top := rfl
      rcases hc with hc | hc
      · have hge := hloop.old_ge h0 hold
        have hbt := hloop.toTiles.bounds hc
        have h4 := hloop.spaces.young .toSpace (by decide)
        have h5 := hloop.spaces.top_le .toSpace
        have h6 : u1.top .toSpace = u1.toSpace.top := rfl
        omega
      · have hge : u.old.top ≤ c := (hloop.promotedTiles.bounds hc).1
        have := (h.object c ⟨_, hold⟩).two_le_sizeAt
        omega
    · exact hy.1
  refine ⟨imageOf u1.mem, p.objects objs, hwf, ?_, ?_, ?_, ?_⟩
  · exact ⟨hmove.roots, hmove.codeRoots, hmove.moved, hmove.injective, hmove.reachable⟩
  · intro a ha
    obtain ⟨c, hset, rfl⟩ := hfin.placed_of_reachable h0 ha
    have himage := hfin.imageOf_eq h0 ⟨hset, rfl⟩
    rw [himage]
    rcases hset with hc | hc
    · exact Or.inr ⟨(hcopy c (Or.inl hc)).1, Or.inl hc⟩
    · rcases List.mem_append.mp hc with hold | hc
      · rw [(hfin.inv.copied.olds c hold).2]
        exact Or.inl ⟨hold, rfl⟩
      · exact Or.inr ⟨(hcopy c (Or.inr hc)).1,
          Or.inr ⟨List.mem_append_right _ hc, (hfin.inv.promotedTiles.bounds hc).1⟩⟩
  · rintro c (hc | ⟨hc, hge⟩)
    · exact ⟨_, hcopy c (Or.inl hc)⟩
    · rcases List.mem_append.mp hc with hold | hc
      · have hb := (h.tiles .old).bounds hold
        have htop : u.top .old = u.old.top := rfl
        have := (h.object c ⟨_, hold⟩).two_le_sizeAt
        omega
      · exact ⟨_, hcopy c (Or.inr hc)⟩
  · intro b hb
    have hset := Progress.isObject_objects.mp (hwf.isObject_of_reachable hb)
    have hpos := hfin.inv.size_pos h0 hset
    obtain ⟨r, hr, h1, h2⟩ := hfin.inv.settled_in (o := 0) h0 hset (by omega)
    have hspaces := hfin.inv.spaces
    have htop := hspaces.top_le r
    have hne : r ≠ .eden ∧ r ≠ .fromSpace := by rcases hr with rfl | rfl <;> decide
    have he := hspaces.apart r .eden hne.1
    have hf := hspaces.apart r .fromSpace hne.2
    have heden : u1.eden = u.eden := hfin.inv.eden
    have hfrom : u1.fromSpace = u.fromSpace := hfin.inv.fromSpace
    have he1 : u1.start .eden = u.eden.start ∧ u1.cap .eden = u.eden.limit := by
      rw [← heden]
      exact ⟨rfl, rfl⟩
    have hf1 : u1.start .fromSpace = u.fromSpace.start ∧ u1.cap .fromSpace = u.fromSpace.limit := by
      rw [← hfrom]
      exact ⟨rfl, rfl⟩
    omega

end Scavenge

theorem scavenge_preserves_graph_byteArray :
    ∃ u' report image objs', (Universe.withByteArray defaultEden 5 16).scavenge = some (.ok (u', report)) ∧
      WfHeap u' objs' ∧ Relocated Mark.SameIdentity (.withByteArray defaultEden 5 16) u' image := by
  have hwf : WfHeap (.withByteArray defaultEden 5 16) (.withByteArray defaultEden 5) := by decide +kernel
  have hok : (Universe.withByteArray defaultEden 5 16).scavenge.map (Except.isOk ·) = some true := by
    decide +kernel
  rcases hrun : (Universe.withByteArray defaultEden 5 16).scavenge with _ | ⟨err | ⟨u', report⟩⟩
  · rw [hrun] at hok
    cases hok
  · rw [hrun] at hok
    cases hok
  · obtain ⟨image, objs', hwf', hmove, -⟩ := scavenge_preserves_graph hwf hrun
    exact ⟨u', report, image, objs', rfl, hwf', hmove⟩

end WinVm.Memory
