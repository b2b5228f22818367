import WinVm.Codecache.Coherence

/-!
# Call sites and their stubs

A compiled call site is kept twice: as the state in its nmethod's `icSites` and as the target
of the patched call instruction. A polymorphic site calls a stub of its own, whose pairs the
`PicTable` keeps under the stub's address. The code cache is seen through the ranges that are
given back to it.
-/

namespace WinVm.Codecache

open WinVm.Interpreter

structure PicDesc where
  handle : CodeHandle
  pairs : List (Addr × Nat)
deriving DecidableEq, Repr

/-- `PicTable`, keyed by the address of the stub. -/
abbrev PicTable := Nat → Option PicDesc

def PicTable.pairsOf (t : PicTable) (stub : CodeHandle) : Option (List (Addr × Nat)) :=
  (t stub.base).map (·.pairs)

/-- Compiled code: the table, the PIC stubs, the target of the call at each address, and the
ranges that were given back to the code cache. -/
structure Code where
  ct : CodeTable
  pics : PicTable
  calls : Nat → Nat
  freed : List CodeHandle

namespace Code

def freePic (c : Code) (stub : CodeHandle) : Code :=
  { c with pics := Function.update c.pics stub.base none, freed := stub :: c.freed }

/-- `patch_call_site_at`. -/
def patchCallSite (c : Code) (code : CodeHandle) (off target : Nat) : Code :=
  { c with calls := Function.update c.calls (code.base + off) target }

end Code

namespace CodeTable

/-- `get_mut(caller).ic_sites[idx].state = state`. -/
def setSiteState (ct : CodeTable) (caller idx : Nat) (state : IcState) : Option CodeTable :=
  match ct.get caller with
  | none => none
  | some nm =>
    match nm.icSites[idx]? with
    | none => none
    | some site =>
      some { ct with
        slots := ct.slots.set caller
          (some { nm with icSites := nm.icSites.set idx { site with state } }) }

variable {ct ct' : CodeTable} {caller idx : Nat} {state : IcState}

theorem setSiteState_spec (h : ct.setSiteState caller idx state = some ct') :
    ∃ nm site, ct.get caller = some nm ∧ nm.icSites[idx]? = some site ∧
      (∀ i, ct'.get i = if i = caller then
        some { nm with icSites := nm.icSites.set idx { site with state } } else ct.get i) ∧
      ct'.byKey = ct.byKey ∧ ct'.byBlock = ct.byBlock ∧ ct'.osrTable = ct.osrTable ∧
      ct'.byAddr = ct.byAddr := by
  unfold setSiteState at h
  split at h
  · cases h
  · rename_i nm hget
    split at h
    · cases h
    · rename_i site hsite
      cases h
      exact ⟨nm, site, hget, hsite, get_set ct.slots (lt_of_get hget) rfl, rfl, rfl, rfl, rfl⟩

/-- The sites of an nmethod are no part of any index. -/
theorem Coherent.setSiteState (h : Coherent ct) (hs : ct.setSiteState caller idx state = some ct') :
    Coherent ct' := by
  obtain ⟨nm, site, hget, -, hg, hk, hb, ho, ha⟩ := setSiteState_spec hs
  refine h.congr hk hb ho ha ?_ ?_
  · intro i nm₁ h₁
    rw [hg]
    split
    next hi =>
      rw [hi, hget] at h₁
      cases h₁
      exact ⟨_, rfl, rfl, rfl, rfl, rfl, rfl, rfl⟩
    next => exact ⟨nm₁, h₁, rfl, rfl, rfl, rfl, rfl, rfl⟩
  · intro i nm₁ h₁
    rw [hg] at h₁
    split at h₁
    next hi =>
      cases h₁
      exact ⟨nm, hi ▸ hget, rfl, rfl, rfl, rfl, rfl, rfl⟩
    next => exact ⟨nm₁, h₁, rfl, rfl, rfl, rfl, rfl, rfl⟩

end CodeTable

/-! ## What a site can call -/

/-- The code addresses a site can transfer to: the linked target, or the arms of its PIC. A
megamorphic site looks its target up on every call. -/
def siteTargets (pics : PicTable) : IcState → List Nat
  | .unresolved => []
  | .mono _ target => [target]
  | .pic stub => ((pics.pairsOf stub).getD []).map Prod.snd
  | .mega _ => []

end WinVm.Codecache
