import WinVm.Compiler.Feedback
import WinVm.Codecache.Effects

/-!
# The inliner's decisions

`compiler/inline.rs` and the sites of `compiler/ir.rs` that splice a method: a send whose
feedback `decide_with_budget` accepts, a send to self or super whose target is looked up at
compile time, and a send that receives an elided block. None of them asks the counters of the
callee.

Every splice records the pair under which it was found, so the callee's holder is on the
superclass chain of a recorded dependency (`Site.spliced_inherits`).
-/

namespace WinVm.Compiler

open WinVm.Interpreter WinVm.Codecache

/-! ## Decisions -/

/-- What the inliner reads of a callee. -/
structure Shape where
  primitive : Nat
  inlineCost : Nat
  isLeaf : Bool
  isInlineEligibleNonleaf : Bool
  isInlineEligibleCfg : Bool
deriving DecidableEq, Repr

inductive GuardKind where
  | klassTest
  | smiTest
deriving DecidableEq, Repr

inductive InlineDecision where
  | inline (callee : Addr) (guard : GuardKind)
  | dominantWithSlowPath (caseKlass caseMethod : Addr) (guard : GuardKind)
  | sameTargetPoly (klasses : List Addr) (callee : Addr)
  | call
deriving DecidableEq, Repr

def dominantMinSamples : Nat := 16

def dominantMinSharePct : Nat := 34

/-- Small enough, no primitive, and a shape one of the splicers takes. -/
def Shape.inlinable (s : Shape) (perCallCost : Nat) : Bool :=
  decide (s.primitive = 0) && decide (s.inlineCost ≤ perCallCost) &&
    (s.isLeaf || s.isInlineEligibleNonleaf || s.isInlineEligibleCfg)

def guardFor (klass smiKlass : Addr) : GuardKind :=
  if klass = smiKlass then .smiTest else .klassTest

/-- `decide_with_budget`, for the per-call cost of the budget. -/
def decideWithBudget (shape : Addr → Shape) (perCallCost : Nat) (smiKlass : Addr) :
    SiteFeedback → InlineDecision
  | .mono klass method =>
    if (shape method).inlinable perCallCost then .inline method (guardFor klass smiKlass) else .call
  | .poly (first :: cases) =>
    let total := ((first :: cases).map fun c => c.count.getD 0).sum
    let sameTarget := !cases.isEmpty && cases.all fun c => decide (c.method = first.method)
    let noSmiCase := (first :: cases).all fun c => decide (c.klass ≠ smiKlass)
    let s := shape first.method
    let small := decide (s.primitive = 0) && decide (s.inlineCost ≤ perCallCost)
    let dom := first.count.getD 0
    if sameTarget && noSmiCase && decide (dominantMinSamples ≤ total) && small &&
        (s.isLeaf || s.isInlineEligibleCfg) then
      .sameTargetPoly ((first :: cases).map (·.klass)) first.method
    else if decide (dominantMinSamples ≤ dom) &&
        decide (total * dominantMinSharePct ≤ dom * 100) && small && s.isLeaf then
      .dominantWithSlowPath first.klass first.method (guardFor first.klass smiKlass)
    else .call
  | _ => .call

/-- The method a decision splices. -/
def InlineDecision.callee : InlineDecision → Option Addr
  | .inline callee _ => some callee
  | .dominantWithSlowPath _ callee _ => some callee
  | .sameTargetPoly _ callee => some callee
  | .call => none

/-! ## Sites -/

/-- A send the translator comes to. `taken` says that the total budget has room and that the
splicer takes the body. -/
inductive Site where
  | feedback (selector : Addr) (fb : SiteFeedback) (perCallCost : Nat) (taken : Bool)
  /-- To self or to super, looked up from `klass`. -/
  | bound (klass selector : Addr) (perCallCost : Nat) (taken : Bool)
  /-- With an elided block among the arguments, looked up from `klass`. -/
  | blockArg (klass selector : Addr) (taken : Bool)
deriving DecidableEq, Repr

/-- The (class, method) pairs of a feedback. -/
def SiteFeedback.arms : SiteFeedback → List (Addr × Addr)
  | .mono klass method => [(klass, method)]
  | .poly cases => cases.map fun c => (c.klass, c.method)
  | _ => []

/-- The spliced method. -/
def Site.spliced (vm : Vm) (shape : Addr → Shape) (smiKlass : Addr) : Site → Option Addr
  | .feedback _ fb perCallCost taken =>
    if taken then (decideWithBudget shape perCallCost smiKlass fb).callee else none
  | .bound klass selector perCallCost taken =>
    if taken then (resolveMethodRo vm klass selector).filter fun m => (shape m).inlinable perCallCost
    else none
  | .blockArg klass selector taken => if taken then resolveMethodRo vm klass selector else none

/-- What `record_inline_dep` records with the splice. -/
def Site.recorded (shape : Addr → Shape) (smiKlass : Addr) : Site → List (Addr × Addr)
  | .feedback selector fb perCallCost _ =>
    match decideWithBudget shape perCallCost smiKlass fb with
    | .inline _ _ => fb.arms.map fun arm => (arm.1, selector)
    | .dominantWithSlowPath klass _ _ => [(klass, selector)]
    | .sameTargetPoly klasses _ => klasses.map (·, selector)
    | .call => []
  | .bound klass selector _ _ => [(klass, selector)]
  | .blockArg klass selector _ => [(klass, selector)]

/-! ## What is recorded covers what is spliced -/

section
variable {shape : Addr → Shape} {perCallCost smiKlass c : Addr}

/-- A polymorphic site splices its first case or none. -/
theorem decideWithBudget_poly (shape : Addr → Shape) (perCallCost smiKlass : Nat)
    (first : FeedbackCase) (cases : List FeedbackCase) :
    decideWithBudget shape perCallCost smiKlass (.poly (first :: cases))
        = .sameTargetPoly ((first :: cases).map (·.klass)) first.method ∨
      decideWithBudget shape perCallCost smiKlass (.poly (first :: cases))
        = .dominantWithSlowPath first.klass first.method (guardFor first.klass smiKlass) ∨
      decideWithBudget shape perCallCost smiKlass (.poly (first :: cases)) = .call := by
  unfold decideWithBudget
  simp only
  split
  · exact .inl rfl
  · split
    · exact .inr (.inl rfl)
    · exact .inr (.inr rfl)

/-- A callee accepted for a feedback is the method of one of its arms, and that arm is among
the recorded pairs. -/
theorem decideWithBudget_callee {fb : SiteFeedback} (selector : Addr) (taken : Bool)
    (h : (decideWithBudget shape perCallCost smiKlass fb).callee = some c) :
    ∃ k, (k, c) ∈ fb.arms ∧
      (k, selector) ∈ (Site.feedback selector fb perCallCost taken).recorded shape smiKlass := by
  cases fb with
  | untaken => cases h
  | mega => cases h
  | mono klass method =>
    unfold Site.recorded
    by_cases hin : (shape method).inlinable perCallCost = true
    · have hd : decideWithBudget shape perCallCost smiKlass (.mono klass method)
          = .inline method (guardFor klass smiKlass) := by rw [decideWithBudget, if_pos hin]
      simp only [hd, InlineDecision.callee, Option.some.injEq] at h ⊢
      subst h
      exact ⟨klass, by simp [SiteFeedback.arms]⟩
    · have hd : decideWithBudget shape perCallCost smiKlass (.mono klass method) = .call := by
        rw [decideWithBudget, if_neg hin]
      rw [hd] at h
      cases h
  | poly cases =>
    cases cases with
    | nil => cases h
    | cons first cases =>
      unfold Site.recorded
      rcases decideWithBudget_poly shape perCallCost smiKlass first cases with hd | hd | hd
      · simp only [hd, InlineDecision.callee, Option.some.injEq] at h ⊢
        subst h
        exact ⟨first.klass, by simp [SiteFeedback.arms]⟩
      · simp only [hd, InlineDecision.callee, Option.some.injEq] at h ⊢
        subst h
        exact ⟨first.klass, by simp [SiteFeedback.arms]⟩
      · rw [hd] at h
        cases h

variable {j : Jit} {site : Site}

/-- The arms of a feedback are pairs an inline cache has seen: its selector, at a class that
inherits the method. -/
def Site.Observed (j : Jit) : Site → Prop
  | .feedback selector fb _ _ => ∀ arm ∈ fb.arms, Inherits j (arm.1, selector) arm.2
  | _ => True

/-- One of the recorded pairs has the holder of the spliced method on its chain. -/
theorem Site.spliced_inherits (hi : HeldByClass j) (hobs : site.Observed j)
    (h : site.spliced j.vm shape smiKlass = some c) :
    ∃ d ∈ site.recorded shape smiKlass, Inherits j d c := by
  cases site with
  | feedback selector fb perCallCost taken =>
    cases taken with
    | false => cases h
    | true =>
      obtain ⟨k, harm, hrec⟩ := decideWithBudget_callee selector true h
      exact ⟨(k, selector), hrec, hobs (k, c) harm⟩
  | bound klass selector perCallCost taken =>
    cases taken with
    | false => cases h
    | true =>
      obtain ⟨hfound, -⟩ := Option.filter_eq_some_iff.mp h
      exact ⟨(klass, selector), List.mem_singleton_self _, hi.of_lookup hfound⟩
  | blockArg klass selector taken =>
    cases taken with
    | false => cases h
    | true => exact ⟨(klass, selector), List.mem_singleton_self _, hi.of_lookup h⟩

end

end WinVm.Compiler
