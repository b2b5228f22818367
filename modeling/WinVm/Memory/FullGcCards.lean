import WinVm.Memory.FullGcGraph

/-!
# The cards after a full collection

`post` cleans and dirties the cards up to the last one of the live range, and the slide has
already lowered `old.top` when it runs: a card above the new top stays as it was, dirty where a
promotion or a barrier dirtied it while old gen was longer.

Results: `fullGc_dirty` and `fullGc_cardsReset_iff`.
-/

namespace WinVm.Memory

open WinVm.Lib

variable {u u' : Universe} {objs : Objects} {report : Universe.FullGcReport}

/-- Every card over the live range of old gen is dirty, every card above it is clean. -/
structure Universe.CardsReset (u : Universe) : Prop where
  live : ∀ i, i < u.nCards → u.cardBase i < u.old.top → u.dirty i = true
  above : ∀ i, i < u.nCards → u.old.top ≤ u.cardBase i → u.dirty i = false

open Classical in
/-- Where the reachable objects of old gen end once they are packed. -/
noncomputable def liveTop (u : Universe) (objs : Objects) : Nat :=
  u.old.start + (((objs .old).filter fun a => u.strongGraph.Reachable a).map (sizeAt u.mem)).sum

open Classical in
theorem newTopOf_eq_liveTop {marked : List Nat}
    (hmarked : ∀ a, a ∈ marked ↔ u.strongGraph.Reachable a) :
    newTopOf u objs marked .old = liveTop u objs := by
  have hlive : live objs marked .old = (objs .old).filter fun a => u.strongGraph.Reachable a := by
    unfold live
    refine List.filter_congr fun a _ => ?_
    simp only [← hmarked]
  unfold newTopOf liveTop
  rw [hlive]
  rfl

/-- The cards after a collection, one by one. -/
theorem fullGc_cards (h : WfHeap u objs) (hrun : u.fullGc = some (u', report)) :
    u'.old = { u.old with top := liveTop u objs } ∧
      ∀ i, u'.dirty i = (decide (u.old.start < liveTop u objs ∧
        i ≤ u.cardIndex (liveTop u objs - 1)) || u.dirty i) := by
  obtain ⟨v, report', marked, kept, image, hcall, -, hmarked, -, -, hc, -⟩ :=
    fullGc_spec h fun a ha => fullGc_small h hrun ha
  rw [hrun] at hcall
  obtain ⟨rfl, rfl⟩ := Prod.mk.injEq .. ▸ Option.some.inj hcall
  have hold := hc.old
  rw [newTopOf_eq_liveTop hmarked] at hold
  refine ⟨hold, fun i => ?_⟩
  rw [hc.cards i]
  unfold Universe.cardIndex
  rw [hold]

/-- The live range comes out dirty, whatever the cards were before. -/
theorem fullGc_dirty (h : WfHeap u objs) (hrun : u.fullGc = some (u', report)) :
    ∀ i, u'.cardBase i < u'.old.top → u'.dirty i = true := by
  intro i hi
  obtain ⟨hold, hcards⟩ := fullGc_cards h hrun
  unfold Universe.cardBase at hi
  rw [hold] at hi
  dsimp only at hi
  have hlast : i ≤ u.cardIndex (liveTop u objs - 1) := by
    unfold Universe.cardIndex
    rw [Nat.le_div_iff_mul_le (by decide)]
    omega
  rw [hcards, decide_eq_true ⟨by omega, hlast⟩, Bool.true_or]

/-- The cards are reset exactly if no card above what the collection leaves was dirty before. -/
theorem fullGc_cardsReset_iff (h : WfHeap u objs) (hrun : u.fullGc = some (u', report)) :
    u'.CardsReset ↔
      ∀ i, i < u.nCards → liveTop u objs ≤ u.cardBase i → u.dirty i = false := by
  obtain ⟨hold, hcards⟩ := fullGc_cards h hrun
  have hbase : ∀ i, u'.cardBase i = u.cardBase i := fun i => by
    unfold Universe.cardBase
    rw [hold]
  have hn : u'.nCards = u.nCards := by
    unfold Universe.nCards
    rw [hold]
  have habove : ∀ i, liveTop u objs ≤ u.cardBase i → u'.dirty i = u.dirty i := by
    intro i hi
    rw [hcards, decide_eq_false, Bool.false_or]
    rintro ⟨hlt, hle⟩
    unfold Universe.cardIndex at hle
    rw [Nat.le_div_iff_mul_le (by decide)] at hle
    unfold Universe.cardBase at hi
    omega
  constructor
  · intro hreset i hi htop
    rw [← habove i htop]
    refine hreset.above i (by rwa [hn]) ?_
    rwa [hold, hbase]
  · intro hclean
    refine ⟨fun i _ hi => fullGc_dirty h hrun i hi, fun i hi htop => ?_⟩
    rw [hold, hbase] at htop
    rw [habove i htop]
    exact hclean i (by rwa [← hn]) htop

/-! ## A promoted object that died -/

/-- A heap whose old gen ends with a byte array of 103 words nothing refers to, on the cards its
promotion dirtied. -/
def Universe.withDeadPromotion : Universe :=
  let u := Universe.withByteArray defaultEden 5 16
  let a := u.old.top
  let header : Nat → Option Nat := fun x =>
    if x = a then some Mark.pristine
    else if x = a + 1 then some (oopAt (oldStart defaultEden + 30))
    else if x = a + 2 then some (smi 800)
    else none
  ({ u with
      mem := fun x => (header x).getD (u.mem x)
      old := { u.old with top := a + 103 } }.recordObject a 103).recordMultistores a (a + 103)

def Objects.withDeadPromotion : Objects
  | .old => Objects.withByteArray defaultEden 5 .old ++ [oldStart defaultEden + 40]
  | r => Objects.withByteArray defaultEden 5 r

theorem fullGc_cardsReset_iff_byteArray : ∃ u' report,
    (Universe.withByteArray defaultEden 5 16).fullGc = some (u', report) ∧ u'.CardsReset := by
  have hwf : WfHeap (.withByteArray defaultEden 5 16) (.withByteArray defaultEden 5) := by
    decide +kernel
  have hok : (Universe.withByteArray defaultEden 5 16).fullGc.isSome = true := by decide +kernel
  obtain ⟨⟨u', report⟩, hrun⟩ := Option.isSome_iff_exists.mp hok
  exact ⟨u', report, hrun, (fullGc_cardsReset_iff hwf hrun).mpr fun _ _ _ => rfl⟩

/-- Its second card is still dirty after the collection that took it away. -/
theorem fullGc_leaves_dirty : WfHeap .withDeadPromotion .withDeadPromotion ∧
    ∃ u' report, Universe.withDeadPromotion.fullGc = some (u', report) ∧ ¬ u'.CardsReset := by
  have hwf : WfHeap .withDeadPromotion .withDeadPromotion := by decide +kernel
  refine ⟨hwf, ?_⟩
  have hok : (Universe.withDeadPromotion.fullGc.map fun r =>
      decide (1 < r.1.nCards ∧ r.1.old.top ≤ r.1.cardBase 1 ∧ r.1.dirty 1 = true)) = some true := by
    decide +kernel
  obtain ⟨⟨u', report⟩, hrun, hcheck⟩ := Option.map_eq_some_iff.mp hok
  obtain ⟨hn, htop, hdirty⟩ := of_decide_eq_true hcheck
  refine ⟨u', report, hrun, fun hreset => ?_⟩
  rw [hreset.above 1 hn htop] at hdirty
  exact Bool.false_ne_true hdirty

end WinVm.Memory
