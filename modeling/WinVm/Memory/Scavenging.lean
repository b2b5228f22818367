import Mathlib.Data.List.Nodup
import WinVm.Memory.Copying

/-!
# The state of a scavenge under way

`Scavenging` is the invariant of the collection: the copies made so far tile to-space and the
part of old gen above its old top, objects and their stand-ins agree (`Copied`), and the slots
visited so far no longer point into the part of new gen that will be vacated.

Results: `Scavenging.scavengeOop`, one call keeps the invariant and answers a stand-in;
`Scavenging.visit`, so does replacing one slot by it.
-/

namespace WinVm.Memory

open WinVm.Lib

/-- The copies so far, the original of every object that is to stay, and the addresses of the
slots visited. -/
structure Progress where
  toObjs : List Nat
  promoted : List Nat
  orig : Nat → Nat
  touched : Nat → Prop

namespace Progress

/-- The objects now in each region. -/
def now (p : Progress) (objs : Objects) : Objects
  | .eden => objs .eden
  | .fromSpace => objs .fromSpace
  | .toSpace => p.toObjs
  | .old => objs .old ++ p.promoted

/-- The object is where it will be after the collection. -/
def Settled (p : Progress) (objs : Objects) (c : Nat) : Prop :=
  c ∈ p.toObjs ∨ c ∈ objs .old ++ p.promoted

def size (p : Progress) (mem0 : Mem) (c : Nat) : Nat := sizeAt mem0 (p.orig c)

def promote (p : Progress) (dest t : Nat) : Progress :=
  { p with promoted := p.promoted ++ [dest], orig := Function.update p.orig dest t }

def survive (p : Progress) (dest t : Nat) : Progress :=
  { p with toObjs := p.toObjs ++ [dest], orig := Function.update p.orig dest t }

def touch (p : Progress) (x : Nat) : Progress :=
  { p with touched := fun y => p.touched y ∨ y = x }

end Progress

/-- The word does not name an object that will be vacated. -/
def Final (objs : Objects) (w : Nat) : Prop := ∀ t, IsYoung objs t → w ≠ oopAt t

/-- The word names an object of new gen. -/
def Universe.PointsNew (u : Universe) (w : Nat) : Prop := IsMem w ∧ memAddr w < u.old.start

/-- The committed part of old gen has room for all that new gen holds. -/
def Universe.HasRoom (u : Universe) : Prop := u.eden.used + u.fromSpace.used ≤ u.old.freeWords

structure Scavenging (u0 : Universe) (objs : Objects) (u : Universe) (p : Progress) : Prop where
  copied : Copied objs u0.mem u.mem (p.Settled objs) p.orig
  spaces : u.WfSpaces
  eden : u.eden = u0.eden
  fromSpace : u.fromSpace = u0.fromSpace
  toStart : u.toSpace.start = u0.toSpace.start
  toLimit : u.toSpace.limit = u0.toSpace.limit
  oldStart : u.old.start = u0.old.start
  oldLimit : u.old.limit = u0.old.limit
  oldCommitted : u.old.committedEnd = u0.old.committedEnd
  origObject : ∀ a, IsObject objs a → p.orig a = a
  toTiles : Tiles (p.size u0.mem) u.toSpace.start u.toSpace.top p.toObjs
  promotedTiles : Tiles (p.size u0.mem) u0.old.top u.old.top p.promoted
  resolves : u.Resolves (p.size u0.mem) (p.now objs .old)
  promotedDirty : ∀ c ∈ p.promoted, ∀ o, o < p.size u0.mem c →
    u.dirty (u.cardIndex (c + o)) = true
  untouched : ∀ c, p.Settled objs c → ∀ off, 1 ≤ off → off < p.size u0.mem c →
    ¬ p.touched (c + off) → u.mem (c + off) = u0.mem (p.orig c + off)
  final : u.pendingStall = none → ∀ x, p.touched x → Final objs (u.mem x)
  touchedUsed : ∀ x, p.touched x →
    (u.toSpace.start ≤ x ∧ x < u.toSpace.top) ∨ (u.old.start ≤ x ∧ x < u.old.top)
  remembered : ∀ x, p.touched x → x < u0.old.top → u.old.start ≤ x → u.PointsNew (u.mem x) →
    u.dirty (u.cardIndex x) = true
  room : u0.eden.used + u0.fromSpace.used ≤ u0.old.freeWords → u.pendingStall = none
  flags : u.gcEnabled = u0.gcEnabled ∧ u.promotionGuaranteeMet = u0.promotionGuaranteeMet

/-- What a part of the collection only adds to. -/
structure Adds (objs : Objects) (u : Universe) (p : Progress) (u' : Universe) (p' : Progress) :
    Prop where
  toObjs : ∃ l, p'.toObjs = p.toObjs ++ l
  promoted : ∃ l, p'.promoted = p.promoted ++ l
  orig : ∀ r, ∀ c ∈ p.now objs r, p'.orig c = p.orig c
  touched : ∀ x, p.touched x → p'.touched x
  kept : ∀ x, p.touched x → u'.mem x = u.mem x
  stall : u'.pendingStall = none → u.pendingStall = none
  roots : u'.roots = u.roots ∧ u'.codeRoots = u.codeRoots

/-- A part that cleans no card either. -/
structure Grows (objs : Objects) (u : Universe) (p : Progress) (u' : Universe) (p' : Progress) :
    Prop extends Adds objs u p u' p' where
  dirty : ∀ i, u.dirty i = true → u'.dirty i = true

namespace Adds

variable {objs : Objects} {u u1 u2 : Universe} {p p1 p2 : Progress}

/-- Nothing was copied and no touched word changed. -/
theorem of_same (horig : p1.toObjs = p.toObjs ∧ p1.promoted = p.promoted ∧ p1.orig = p.orig)
    (htouched : ∀ x, p.touched x → p1.touched x) (hkept : ∀ x, p.touched x → u1.mem x = u.mem x)
    (hstall : u1.pendingStall = none → u.pendingStall = none)
    (hroots : u1.roots = u.roots ∧ u1.codeRoots = u.codeRoots) : Adds objs u p u1 p1 := by
  refine ⟨⟨[], ?_⟩, ⟨[], ?_⟩, fun r c _ => by rw [horig.2.2], htouched, hkept, hstall, hroots⟩
  · rw [horig.1, List.append_nil]
  · rw [horig.2.1, List.append_nil]

theorem refl : Adds objs u p u p :=
  .of_same ⟨rfl, rfl, rfl⟩ (fun _ h => h) (fun _ _ => rfl) id ⟨rfl, rfl⟩

theorem now (h : Adds objs u p u1 p1) {r : Region} {c : Nat} (hc : c ∈ p.now objs r) :
    c ∈ p1.now objs r := by
  obtain ⟨l, hl⟩ := h.toObjs
  obtain ⟨m, hm⟩ := h.promoted
  cases r with
  | eden => exact hc
  | fromSpace => exact hc
  | toSpace =>
    change c ∈ p1.toObjs
    rw [hl]
    exact List.mem_append_left _ hc
  | old =>
    change c ∈ objs .old ++ p1.promoted
    rw [hm, ← List.append_assoc]
    exact List.mem_append_left _ hc

theorem trans (h : Adds objs u p u1 p1) (h' : Adds objs u1 p1 u2 p2) : Adds objs u p u2 p2 := by
  obtain ⟨l, hl⟩ := h.toObjs
  obtain ⟨l', hl'⟩ := h'.toObjs
  obtain ⟨m, hm⟩ := h.promoted
  obtain ⟨m', hm'⟩ := h'.promoted
  refine ⟨⟨l ++ l', by rw [hl', hl, List.append_assoc]⟩,
    ⟨m ++ m', by rw [hm', hm, List.append_assoc]⟩, ?_, ?_, ?_, ?_, ?_⟩
  · intro r c hc
    rw [h'.orig r c (h.now hc), h.orig r c hc]
  · exact fun x hx => h'.touched x (h.touched x hx)
  · intro x hx
    rw [h'.kept x (h.touched x hx), h.kept x hx]
  · exact fun hs => h.stall (h'.stall hs)
  · exact ⟨h'.roots.1.trans h.roots.1, h'.roots.2.trans h.roots.2⟩

theorem settled (h : Adds objs u p u1 p1) {c : Nat} (hc : p.Settled objs c) :
    p1.Settled objs c :=
  hc.imp (fun hc => h.now (r := .toSpace) hc) (fun hc => h.now (r := .old) hc)

theorem orig_settled (h : Adds objs u p u1 p1) {c : Nat} (hc : p.Settled objs c) :
    p1.orig c = p.orig c :=
  hc.elim (fun hc => h.orig .toSpace c hc) (fun hc => h.orig .old c hc)

end Adds

namespace Grows

variable {objs : Objects} {u u1 u2 : Universe} {p p1 p2 : Progress}

theorem refl : Grows objs u p u p := ⟨.refl, fun _ h => h⟩

theorem trans (h : Grows objs u p u1 p1) (h' : Grows objs u1 p1 u2 p2) : Grows objs u p u2 p2 :=
  ⟨h.toAdds.trans h'.toAdds, fun i hi => h'.dirty i (h.dirty i hi)⟩

end Grows

/-! ## Where everything lies -/

namespace Scavenging

variable {u0 : Universe} {objs : Objects} {u : Universe} {p : Progress}
variable (h0 : WfHeap u0 objs) (h : Scavenging u0 objs u p)
include h0 h

theorem tiles (r : Region) :
    Tiles (p.size u0.mem) (u.start r) (u.top r) (p.now objs r) := by
  have hobj : ∀ r, ∀ x ∈ objs r, p.size u0.mem x = sizeAt u0.mem x := by
    intro r x hx
    unfold Progress.size
    rw [h.origObject x ⟨r, hx⟩]
  cases r with
  | eden =>
    have := (h0.tiles .eden).congr (hobj .eden)
    change Tiles _ u.eden.start u.eden.top _
    rw [h.eden]
    exact this
  | fromSpace =>
    have := (h0.tiles .fromSpace).congr (hobj .fromSpace)
    change Tiles _ u.fromSpace.start u.fromSpace.top _
    rw [h.fromSpace]
    exact this
  | toSpace => exact h.toTiles
  | old =>
    have := (h0.tiles .old).congr (hobj .old)
    change Tiles _ u.old.start u.old.top _
    rw [h.oldStart]
    exact this.append h.promotedTiles

theorem young_now {a : Nat} (ha : IsYoung objs a) :
    ∃ r, (r = .eden ∨ r = .fromSpace) ∧ a ∈ p.now objs r ∧ p.size u0.mem a = sizeAt u0.mem a := by
  have hs : p.size u0.mem a = sizeAt u0.mem a := by
    unfold Progress.size
    rw [h.origObject a ha.isObject]
  rcases ha with ha | ha
  · exact ⟨.eden, Or.inl rfl, ha, hs⟩
  · exact ⟨.fromSpace, Or.inr rfl, ha, hs⟩

omit h0 h in
theorem settled_now {c : Nat} (hc : p.Settled objs c) :
    ∃ r, (r = .toSpace ∨ r = .old) ∧ c ∈ p.now objs r :=
  hc.elim (fun hc => ⟨.toSpace, Or.inl rfl, hc⟩) (fun hc => ⟨.old, Or.inr rfl, hc⟩)

theorem young_in {a o : Nat} (ha : IsYoung objs a) (ho : o < sizeAt u0.mem a) :
    ∃ r, (r = .eden ∨ r = .fromSpace) ∧ u.start r ≤ a + o ∧ a + o < u.top r := by
  obtain ⟨r, hr, hmem, hs⟩ := h.young_now h0 ha
  have := (h.tiles h0 r).bounds hmem
  exact ⟨r, hr, by omega, by omega⟩

theorem settled_in {c o : Nat} (hc : p.Settled objs c) (ho : o < p.size u0.mem c) :
    ∃ r, (r = .toSpace ∨ r = .old) ∧ u.start r ≤ c + o ∧ c + o < u.top r := by
  obtain ⟨r, hr, hmem⟩ := settled_now hc
  have := (h.tiles h0 r).bounds hmem
  exact ⟨r, hr, by omega, by omega⟩

/-- Words of young objects and of settled ones are different words. -/
theorem young_ne_settled {a c o i : Nat} (ha : IsYoung objs a) (ho : o < sizeAt u0.mem a)
    (hc : p.Settled objs c) (hi : i < p.size u0.mem c) : a + o ≠ c + i := by
  obtain ⟨r, hr, h1, h2⟩ := h.young_in h0 ha ho
  obtain ⟨s, hs, h3, h4⟩ := h.settled_in h0 hc hi
  have hne : r ≠ s := by
    rintro rfl
    rcases hr with rfl | rfl <;> rcases hs with hs | hs <;> cases hs
  have := h.spaces.apart r s hne
  have := h.spaces.top_le r
  have := h.spaces.top_le s
  omega

theorem settled_ne_settled {c c' o o' : Nat} (hc : p.Settled objs c) (hc' : p.Settled objs c')
    (hne : c' ≠ c) (ho : o < p.size u0.mem c) (ho' : o' < p.size u0.mem c') : c' + o' ≠ c + o := by
  obtain ⟨r, -, hr⟩ := settled_now hc
  obtain ⟨s, -, hs⟩ := settled_now hc'
  have hapart : ∀ r s, r ≠ s → u.top r ≤ u.start s ∨ u.top s ≤ u.start r := by
    intro r s hrs
    have := h.spaces.apart r s hrs
    have := h.spaces.top_le r
    have := h.spaces.top_le s
    omega
  have := Tiles.apart_of_family (h.tiles h0) hapart hs hr hne
  omega

theorem young_ne_young {a t o : Nat} (ha : IsYoung objs a) (ht : IsYoung objs t) (h1 : 1 ≤ o)
    (ho : o < sizeAt u0.mem a) : a + o ≠ t := by
  obtain ⟨r, -, hr, hsa⟩ := h.young_now h0 ha
  obtain ⟨s, -, hs, hst⟩ := h.young_now h0 ht
  have hapart : ∀ r s, r ≠ s → u.top r ≤ u.start s ∨ u.top s ≤ u.start r := by
    intro r s hrs
    have := h.spaces.apart r s hrs
    have := h.spaces.top_le r
    have := h.spaces.top_le s
    omega
  by_cases hat : a = t
  · omega
  · have := Tiles.apart_of_family (h.tiles h0) hapart hr hs hat
    have := ((h.tiles h0 s).bounds hs).2.1
    omega

theorem orig_isObject {c : Nat} (hc : p.Settled objs c) : IsObject objs (p.orig c) :=
  (h.copied.orig_stands hc).1

theorem size_pos {c : Nat} (hc : p.Settled objs c) : 2 ≤ p.size u0.mem c :=
  (h0.object _ (h.orig_isObject h0 hc)).two_le_sizeAt

/-- Shapes of settled objects are those of their originals. -/
theorem simulates : Sim u0.mem u.mem (Stands objs u.mem) :=
  h.copied.simulates h0.object h0.toEmpty

/-- A young object is below old gen, an old one is not. -/
theorem young_lt {a : Nat} (ha : IsYoung objs a) : a < u.old.start := by
  have hpos := (h0.object a ha.isObject).two_le_sizeAt
  obtain ⟨r, hr, h1, h2⟩ := h.young_in (o := 0) h0 ha (by omega)
  have hne : r ≠ .old := by rcases hr with rfl | rfl <;> decide
  have := h.spaces.young r hne
  have := h.spaces.top_le r
  omega

theorem old_ge {a : Nat} (ha : a ∈ objs .old) : u.old.start ≤ a := by
  have := (h0.tiles .old).bounds ha
  have h1 : u0.start .old = u0.old.start := rfl
  rw [h.oldStart, ← h1]
  exact this.1

end Scavenging

/-! ## Copying one object -/

/-- The memory once the object at `t` was copied to `dest` and forwarded. -/
structure CopyOf (mem mem' : Mem) (t dest size : Nat) : Prop where
  copy : ∀ off, 1 ≤ off → off < size → mem' (dest + off) = mem (t + off)
  mark : Mark.SameIdentity (mem t) (mem' dest)
  head : mem' t = oopAt dest
  frame : ∀ y, y ≠ t → ¬ (dest ≤ y ∧ y < dest + size) → mem' y = mem y

namespace Scavenging

variable {u0 : Universe} {objs : Objects} {u u' : Universe} {p p' : Progress}
variable (h0 : WfHeap u0 objs) (h : Scavenging u0 objs u p)
variable {t : Nat} {d : Region} (ht : IsYoung objs t) (hd : d = .toSpace ∨ d = .old)
variable (hroom : u.top d + sizeAt u0.mem t ≤ u.cap d)
include h0 h ht hroom

theorem now_ne_dest {r : Region} {c : Nat} (hc : c ∈ p.now objs r) : c ≠ u.top d := by
  have hb := (h.tiles h0 r).bounds hc
  have hpos := (h0.object t ht.isObject).two_le_sizeAt
  have := h.spaces.not_fresh (y := c) hb.1 (by omega) hroom
  omega

theorem not_fresh_of_touched {x : Nat} (hx : p.touched x) :
    ¬ (u.top d ≤ x ∧ x < u.top d + sizeAt u0.mem t) := by
  rcases h.touchedUsed x hx with ⟨h1, h2⟩ | ⟨h1, h2⟩
  · exact h.spaces.not_fresh (r := .toSpace) h1 h2 hroom
  · exact h.spaces.not_fresh (r := .old) h1 h2 hroom

omit hroom in
theorem touched_ne_young {x : Nat} (hx : p.touched x) : x ≠ t := by
  have hpos := (h0.object t ht.isObject).two_le_sizeAt
  obtain ⟨r, hr, h1, h2⟩ := h.young_in (o := 0) h0 ht (by omega)
  have htop : ∀ s, s = Region.toSpace ∨ s = Region.old → u.start s ≤ x → x < u.top s → x ≠ t := by
    intro s hs h3 h4
    have hne : r ≠ s := by
      rintro rfl
      rcases hr with rfl | rfl <;> rcases hs with hs | hs <;> cases hs
    have := h.spaces.apart r s hne
    have := h.spaces.top_le r
    have := h.spaces.top_le s
    omega
  rcases h.touchedUsed x hx with ⟨h1, h2⟩ | ⟨h1, h2⟩
  · exact htop .toSpace (Or.inl rfl) h1 h2
  · exact htop .old (Or.inr rfl) h1 h2

theorem copied_add {mem' : Mem} (hmark0 : u.mem t = u0.mem t)
    (hmem : CopyOf u.mem mem' t (u.top d) (sizeAt u0.mem t)) :
    Copied objs u0.mem mem' (fun c => p.Settled objs c ∨ c = u.top d)
      (Function.update p.orig (u.top d) t) := by
  have hpos := (h0.object t ht.isObject).two_le_sizeAt
  refine h.copied.add h0.object ht hmark0 hmem.copy hmem.mark hmem.head hmem.frame ?_ ?_ ?_ ?_
  · intro a ha off hoff
    obtain ⟨r, -, h1, h2⟩ := h.young_in h0 ha hoff
    exact ⟨h.spaces.not_fresh h1 h2 hroom, fun hpos => h.young_ne_young h0 ha ht hpos hoff⟩
  · intro c hc off hoff
    obtain ⟨r, -, h1, h2⟩ := h.settled_in h0 hc hoff
    refine ⟨h.spaces.not_fresh h1 h2 hroom, fun heq => ?_⟩
    exact h.young_ne_settled (o := 0) h0 ht (by omega) hc hoff heq.symm
  · exact fun c hc => h.orig_isObject h0 hc
  · intro hc
    obtain ⟨r, -, hr⟩ := settled_now hc
    exact h.now_ne_dest h0 ht hroom hr rfl

/-- The invariant after a copy: what is left to say is where the copy went. -/
theorem extend (hmark0 : u.mem t = u0.mem t)
    (hmem : CopyOf u.mem u'.mem t (u.top d) (sizeAt u0.mem t))
    (hset : ∀ c, p'.Settled objs c ↔ p.Settled objs c ∨ c = u.top d)
    (horig : p'.orig = Function.update p.orig (u.top d) t) (htouched : p'.touched = p.touched)
    (hspaces : u'.WfSpaces) (heden : u'.eden = u.eden) (hfrom : u'.fromSpace = u.fromSpace)
    (hto : u'.toSpace.start = u.toSpace.start ∧ u'.toSpace.limit = u.toSpace.limit ∧
      u.toSpace.top ≤ u'.toSpace.top)
    (hold : u'.old.start = u.old.start ∧ u'.old.limit = u.old.limit ∧
      u'.old.committedEnd = u.old.committedEnd ∧ u.old.top ≤ u'.old.top)
    (htoTiles : Tiles (p'.size u0.mem) u'.toSpace.start u'.toSpace.top p'.toObjs)
    (hpromoted : Tiles (p'.size u0.mem) u0.old.top u'.old.top p'.promoted)
    (hresolves : u'.Resolves (p'.size u0.mem) (p'.now objs .old))
    (hdirty : ∀ i, u.dirty i = true → u'.dirty i = true)
    (hpdirty : ∀ c ∈ p'.promoted, ∀ o, o < p'.size u0.mem c →
      u'.dirty (u'.cardIndex (c + o)) = true)
    (hstall : u'.pendingStall = u.pendingStall)
    (hflags : u'.gcEnabled = u.gcEnabled ∧ u'.promotionGuaranteeMet = u.promotionGuaranteeMet)
    (hlists : (∃ l, p'.toObjs = p.toObjs ++ l) ∧ ∃ l, p'.promoted = p.promoted ++ l)
    (hroots : u'.roots = u.roots ∧ u'.codeRoots = u.codeRoots) :
    Scavenging u0 objs u' p' ∧ Grows objs u p u' p' := by
  have hne : ∀ r, ∀ c ∈ p.now objs r, p'.orig c = p.orig c := by
    intro r c hc
    rw [horig]
    exact Function.update_of_ne (h.now_ne_dest h0 ht hroom hc) _ _
  have hdest : p'.orig (u.top d) = t := by
    rw [horig]
    exact Function.update_self _ _ _
  have hkept : ∀ x, p.touched x → u'.mem x = u.mem x := fun x hx =>
    hmem.frame x (h.touched_ne_young h0 ht hx) (h.not_fresh_of_touched h0 ht hroom hx)
  have hcard : ∀ x, u'.cardIndex x = u.cardIndex x := by
    intro x
    unfold Universe.cardIndex
    rw [hold.1]
  have hobj : ∀ a, IsObject objs a → a ∈ p.now objs .eden ∨ a ∈ p.now objs .fromSpace ∨
      a ∈ p.now objs .old := by
    intro a ha
    rcases Copied.young_or_old h0.toEmpty ha with (ha | ha) | ha
    · exact Or.inl ha
    · exact Or.inr (Or.inl ha)
    · exact Or.inr (Or.inr (List.mem_append_left _ ha))
  constructor
  · constructor
    · have hcopied := h.copied_add h0 ht hroom hmark0 hmem
      have hsetEq : p'.Settled objs = fun c => p.Settled objs c ∨ c = u.top d :=
        funext fun c => propext (hset c)
      rw [hsetEq, horig]
      exact hcopied
    · exact hspaces
    · exact heden.trans h.eden
    · exact hfrom.trans h.fromSpace
    · exact hto.1.trans h.toStart
    · exact hto.2.1.trans h.toLimit
    · exact hold.1.trans h.oldStart
    · exact hold.2.1.trans h.oldLimit
    · exact hold.2.2.1.trans h.oldCommitted
    · intro a ha
      rcases hobj a ha with hr | hr | hr
      all_goals rw [hne _ a hr, h.origObject a ha]
    · exact htoTiles
    · exact hpromoted
    · exact hresolves
    · exact hpdirty
    · intro c hc off h1 h2 hn
      rw [htouched] at hn
      unfold Progress.size at h2
      rcases (hset c).mp hc with hc | rfl
      · obtain ⟨r, -, hr⟩ := settled_now hc
        rw [hne r c hr] at h2 ⊢
        obtain ⟨s, -, h3, h4⟩ := h.settled_in h0 hc h2
        rw [hmem.frame (c + off) ?_ (h.spaces.not_fresh h3 h4 hroom)]
        · exact h.untouched c hc off h1 h2 hn
        · have hpos := (h0.object t ht.isObject).two_le_sizeAt
          exact fun heq => h.young_ne_settled (o := 0) h0 ht (by omega) hc h2 heq.symm
      · -- the copy has been written, but not visited
        rw [hdest] at h2 ⊢
        rw [hmem.copy off h1 h2, h.copied.body t ht off h1 h2]
    · intro hs x hx
      rw [htouched] at hx
      rw [hkept x hx]
      exact h.final (hstall ▸ hs) x hx
    · intro x hx
      rw [htouched] at hx
      rw [hto.1, hold.1]
      refine (h.touchedUsed x hx).imp ?_ ?_
      · exact fun ⟨h1, h2⟩ => ⟨h1, Nat.lt_of_lt_of_le h2 hto.2.2⟩
      · exact fun ⟨h1, h2⟩ => ⟨h1, Nat.lt_of_lt_of_le h2 hold.2.2.2⟩
    · intro x hx h1 h2 hnew
      rw [htouched] at hx
      rw [hold.1] at h2
      unfold Universe.PointsNew at hnew
      rw [hkept x hx, hold.1] at hnew
      rw [hcard]
      exact hdirty _ (h.remembered x hx h1 h2 hnew)
    · exact fun hroom => hstall.trans (h.room hroom)
    · exact ⟨hflags.1.trans h.flags.1, hflags.2.trans h.flags.2⟩
  · refine ⟨⟨hlists.1, hlists.2, hne, ?_, hkept, ?_, hroots⟩, hdirty⟩
    · intro x hx
      rw [htouched]
      exact hx
    · intro hs
      exact hstall ▸ hs

end Scavenging

theorem copyWords_dest {mem : Mem} {src dst size o : Nat} (h : o < size) :
    copyWords mem src dst size (dst + o) = mem (src + o) := by
  unfold copyWords
  rw [if_pos ⟨Nat.le_add_right _ _, by omega⟩, Nat.add_sub_cancel_left]

theorem copyWords_of_not {mem : Mem} {src dst size y : Nat} (h : ¬ (dst ≤ y ∧ y < dst + size)) :
    copyWords mem src dst size y = mem y := by
  unfold copyWords
  rw [if_neg h]

section CopyOf

variable {mem : Mem} {t dest size : Nat} (hne : ¬ (dest ≤ t ∧ t < dest + size))
variable (hmark : Mark.IsMark (mem t)) (hsize : 0 < size)
include hne hmark hsize

theorem copyOf_promoted :
    CopyOf mem (Function.update (copyWords mem t dest size) t (oopAt dest)) t dest size := by
  refine ⟨?_, ?_, Function.update_self .., ?_⟩
  · intro off _ h2
    rw [Function.update_of_ne (by omega), copyWords_dest h2]
  · rw [Function.update_of_ne (by omega), ← Nat.add_zero dest, copyWords_dest hsize]
    exact .refl hmark
  · intro y hy hn
    rw [Function.update_of_ne hy, copyWords_of_not hn]

theorem copyOf_survivor {age : Nat} (hage : age < 128) :
    CopyOf mem (Function.update (Function.update (copyWords mem t dest size) dest
      (Mark.withAge (mem t) age)) t (oopAt dest)) t dest size := by
  refine ⟨?_, ?_, Function.update_self .., ?_⟩
  · intro off h1 h2
    rw [Function.update_of_ne (by omega), Function.update_of_ne (by omega), copyWords_dest h2]
  · rw [Function.update_of_ne (by omega), Function.update_self]
    exact Mark.sameIdentity_withAge hmark hage
  · intro y hy hn
    rw [Function.update_of_ne hy, Function.update_of_ne (by omega), copyWords_of_not hn]

end CopyOf

namespace Scavenging

variable {u0 : Universe} {objs : Objects} {u u' : Universe} {p p' : Progress}
variable (h0 : WfHeap u0 objs) (h : Scavenging u0 objs u p)
variable {t : Nat} (ht : IsYoung objs t) (hmark0 : u.mem t = u0.mem t)
include h0 h ht hmark0

/-- A young object is promoted. -/
theorem promote {u1 : Universe} {dest : Nat}
    (halloc : u.allocateOld (sizeAt u0.mem t) = some (u1, dest)) {mem' : Mem} {dirty' : Nat → Bool}
    (hmem : CopyOf u.mem mem' t u.old.top (sizeAt u0.mem t))
    (hdirty : ∀ i, u.dirty i = true → dirty' i = true)
    (hpdirty : ∀ o, o < sizeAt u0.mem t → dirty' (u.cardIndex (u.old.top + o)) = true) :
    Scavenging u0 objs { u1 with mem := mem', dirty := dirty' } (p.promote u.old.top t) ∧
      Grows objs u p { u1 with mem := mem', dirty := dirty' } (p.promote u.old.top t) := by
  obtain ⟨hdest, hfits, hu1⟩ := Universe.allocateOld_eq_some halloc
  have hroom : u.top .old + sizeAt u0.mem t ≤ u.cap .old := hfits
  have hpos := (h0.object t ht.isObject).two_le_sizeAt
  have hsize : ∀ r, ∀ c ∈ p.now objs r,
      (p.promote u.old.top t).size u0.mem c = p.size u0.mem c := by
    intro r c hc
    have hne : c ≠ u.old.top := h.now_ne_dest h0 ht hroom hc
    unfold Progress.size Progress.promote
    dsimp only
    rw [Function.update_of_ne hne]
  have hsizeNew : (p.promote u.old.top t).size u0.mem u.old.top = sizeAt u0.mem t := by
    unfold Progress.size Progress.promote
    dsimp only
    rw [Function.update_self]
  have hold : ∀ c ∈ p.promoted, c ∈ p.now objs .old := fun c hc => List.mem_append_right _ hc
  subst hdest
  have hres := Universe.allocateOld_resolves (n := sizeAt u0.mem t)
    (s := (p.promote u.old.top t).size u0.mem) (h.resolves.congr (hsize .old))
    (h.spaces.start_le .old) halloc hsizeNew
  subst hu1
  refine h.extend h0 ht hroom hmark0 hmem ?_ rfl rfl ?_ rfl rfl ⟨rfl, rfl, Nat.le_refl _⟩
    ⟨rfl, rfl, rfl, Nat.le_add_right _ _⟩ ?_ ?_ ?_ hdirty ?_ rfl ⟨rfl, rfl⟩
    ⟨⟨[], (List.append_nil _).symm⟩, ⟨_, rfl⟩⟩ ⟨rfl, rfl⟩
  · intro c
    unfold Progress.Settled Progress.promote Universe.top
    simp only [List.mem_append, List.mem_singleton, or_assoc]
  · refine h.spaces.of_tops (fun r => by cases r <;> rfl) (fun r => by cases r <;> rfl) ?_ rfl
    intro r
    cases r with
    | eden => exact ⟨Nat.le_refl _, h.spaces.top_le .eden⟩
    | fromSpace => exact ⟨Nat.le_refl _, h.spaces.top_le .fromSpace⟩
    | toSpace => exact ⟨Nat.le_refl _, h.spaces.top_le .toSpace⟩
    | old => exact ⟨Nat.le_add_right _ _, hfits⟩
  · exact h.toTiles.congr (hsize .toSpace)
  · have htiles := (h.promotedTiles.congr fun c hc => hsize .old c (hold c hc)).snoc
      (by rw [hsizeNew]; omega)
    rwa [hsizeNew] at htiles
  · change Universe.Resolves _ _ (objs .old ++ (p.promoted ++ [u.old.top]))
    rw [← List.append_assoc]
    exact hres.of_offsets rfl rfl rfl
  · intro c hc o ho
    rcases List.mem_append.mp hc with hc | hc
    · rw [hsize .old c (hold c hc)] at ho
      exact hdirty _ (h.promotedDirty c hc o ho)
    · rw [List.mem_singleton.mp hc] at ho ⊢
      rw [hsizeNew] at ho
      exact hpdirty o ho

/-- A young object survives into to-space. -/
theorem survive (hfits : u.toSpace.top + sizeAt u0.mem t ≤ u.toSpace.limit) {mem' : Mem}
    (ageTable' : Nat → Nat) (hmem : CopyOf u.mem mem' t u.toSpace.top (sizeAt u0.mem t)) :
    Scavenging u0 objs { u with
        toSpace := { u.toSpace with top := u.toSpace.top + sizeAt u0.mem t }
        mem := mem', ageTable := ageTable' } (p.survive u.toSpace.top t) ∧
      Grows objs u p { u with
        toSpace := { u.toSpace with top := u.toSpace.top + sizeAt u0.mem t }
        mem := mem', ageTable := ageTable' } (p.survive u.toSpace.top t) := by
  have hroom : u.top .toSpace + sizeAt u0.mem t ≤ u.cap .toSpace := hfits
  have hpos := (h0.object t ht.isObject).two_le_sizeAt
  have hsize : ∀ r, ∀ c ∈ p.now objs r,
      (p.survive u.toSpace.top t).size u0.mem c = p.size u0.mem c := by
    intro r c hc
    have hne : c ≠ u.toSpace.top := h.now_ne_dest h0 ht hroom hc
    unfold Progress.size Progress.survive
    dsimp only
    rw [Function.update_of_ne hne]
  have hsizeNew : (p.survive u.toSpace.top t).size u0.mem u.toSpace.top = sizeAt u0.mem t := by
    unfold Progress.size Progress.survive
    dsimp only
    rw [Function.update_self]
  have hold : ∀ c ∈ p.promoted, c ∈ p.now objs .old := fun c hc => List.mem_append_right _ hc
  refine h.extend h0 ht hroom hmark0 hmem ?_ rfl rfl ?_ rfl rfl ⟨rfl, rfl, Nat.le_add_right _ _⟩
    ⟨rfl, rfl, rfl, Nat.le_refl _⟩ ?_ ?_ ?_ (fun _ hi => hi) ?_ rfl ⟨rfl, rfl⟩
    ⟨⟨_, rfl⟩, ⟨[], (List.append_nil _).symm⟩⟩ ⟨rfl, rfl⟩
  · intro c
    unfold Progress.Settled Progress.survive Universe.top
    simp only [List.mem_append, List.mem_singleton]
    tauto
  · refine h.spaces.of_tops (fun r => by cases r <;> rfl) (fun r => by cases r <;> rfl) ?_ rfl
    intro r
    cases r with
    | eden => exact ⟨Nat.le_refl _, h.spaces.top_le .eden⟩
    | fromSpace => exact ⟨Nat.le_refl _, h.spaces.top_le .fromSpace⟩
    | toSpace => exact ⟨Nat.le_add_right _ _, hfits⟩
    | old => exact ⟨Nat.le_refl _, h.spaces.top_le .old⟩
  · have htiles := (h.toTiles.congr (hsize .toSpace)).snoc (by rw [hsizeNew]; omega)
    rwa [hsizeNew] at htiles
  · exact h.promotedTiles.congr fun c hc => hsize .old c (hold c hc)
  · exact (h.resolves.congr (hsize .old)).of_offsets rfl rfl rfl
  · intro c hc o ho
    rw [hsize .old c (hold c hc)] at ho
    exact h.promotedDirty c hc o ho

end Scavenging

/-! ## One call of `scavenge_oop` -/

theorem final_of_not_isMem {objs : Objects} {w : Nat} (h : ¬ IsMem w) : Final objs w := by
  rintro t - rfl
  exact h (isMem_oopAt t)

namespace Scavenging

variable {u0 : Universe} {objs : Objects} {u u' : Universe} {p p' : Progress}
variable (h0 : WfHeap u0 objs) (h : Scavenging u0 objs u p)
include h

theorem recordStall (size : Nat) (phase : GcPhase)
    (hno : ¬ u0.eden.used + u0.fromSpace.used ≤ u0.old.freeWords) :
    Scavenging u0 objs (u.recordStall size phase) p ∧
      Grows objs u p (u.recordStall size phase) p ∧
      (u.recordStall size phase).pendingStall ≠ none ∧ (u.recordStall size phase).mem = u.mem := by
  unfold Universe.recordStall
  cases hp : u.pendingStall with
  | some err => exact ⟨h, .refl, by rw [hp]; exact Option.some_ne_none _, rfl⟩
  | none =>
    dsimp only
    refine ⟨⟨h.copied, ?_, h.eden, h.fromSpace, h.toStart, h.toLimit, h.oldStart, h.oldLimit,
      h.oldCommitted, h.origObject, h.toTiles, h.promotedTiles,
      h.resolves.of_offsets rfl rfl rfl, h.promotedDirty, h.untouched, ?_, h.touchedUsed,
      h.remembered, fun hroom => absurd hroom hno, h.flags⟩, ?_, Option.some_ne_none _, rfl⟩
    · exact h.spaces.of_eq rfl rfl rfl rfl
    · intro hs
      cases hs
    · exact ⟨.of_same ⟨rfl, rfl, rfl⟩ (fun _ hx => hx) (fun _ _ => rfl) (fun _ => hp) ⟨rfl, rfl⟩,
        fun _ hi => hi⟩

include h0

/-- Nothing below old gen is settled. -/
theorem final_of_settled {c : Nat} (hc : p.Settled objs c) : Final objs (oopAt c) := by
  rintro t ht heq
  have hct := oopAt_injective heq
  have hpos := (h0.object t ht.isObject).two_le_sizeAt
  have hcpos := h.size_pos h0 hc
  exact h.young_ne_settled (o := 0) (i := 0) h0 ht (by omega) hc (by omega) (by omega)

theorem final_of_old {t : Nat} (ht : t ∈ objs .old) : Final objs (oopAt t) :=
  h.final_of_settled h0 (h.copied.olds t ht).1

/-- The copies and the objects not copied yet are together no longer than the young objects. -/
theorem copies_le {ts : List Nat} (hts : ts.Nodup)
    (hyoung : ∀ t ∈ ts, IsYoung objs t ∧ ¬ IsMem (u.mem t)) :
    ((p.toObjs ++ p.promoted).map (p.size u0.mem)).sum + (ts.map (sizeAt u0.mem)).sum ≤
      u0.eden.used + u0.fromSpace.used := by
  have hcopy : ∀ c ∈ p.toObjs ++ p.promoted,
      IsYoung objs (p.orig c) ∧ u.mem (p.orig c) = oopAt c := by
    intro c hc
    have hset : p.Settled objs c := by
      rcases List.mem_append.mp hc with hc | hc
      · exact Or.inl hc
      · exact Or.inr (List.mem_append_right _ hc)
    rcases h.copied.forwarded c hset with hold | hy
    · exfalso
      have hge := h.old_ge h0 hold
      have hlt := ((h0.tiles .old).bounds hold)
      have hsz := (h0.object c ⟨_, hold⟩).two_le_sizeAt
      have h3 : u0.top .old = u0.old.top := rfl
      rcases List.mem_append.mp hc with hc | hc
      · have hb := h.toTiles.bounds hc
        have h4 := h.spaces.young .toSpace (by decide)
        have h5 := h.spaces.top_le .toSpace
        have h6 : u.top .toSpace = u.toSpace.top := rfl
        omega
      · have := (h.promotedTiles.bounds hc).1
        omega
    · exact hy
  have hnodup : (p.toObjs ++ p.promoted).Nodup := by
    refine List.nodup_append.mpr ⟨h.toTiles.nodup, h.promotedTiles.nodup, ?_⟩
    rintro c hc c' hc' rfl
    have hb := h.toTiles.bounds hc
    have hb' := h.promotedTiles.bounds hc'
    have h4 := h.spaces.young .toSpace (by decide)
    have h5 := h.spaces.top_le .toSpace
    have h6 : u.top .toSpace = u.toSpace.top := rfl
    have h7 := h0.spaces.start_le .old
    have h8 : u0.top .old = u0.old.top := rfl
    have h9 : u0.start .old = u0.old.start := rfl
    have h10 := h.oldStart
    omega
  have hinj : ((p.toObjs ++ p.promoted).map p.orig).Nodup := by
    refine List.Nodup.map_on (fun c hc c' hc' heq => ?_) hnodup
    have h1 := (hcopy c hc).2
    have h2 := (hcopy c' hc').2
    rw [heq] at h1
    exact oopAt_injective (h1.symm.trans h2)
  have hall : ((p.toObjs ++ p.promoted).map p.orig ++ ts).Nodup := by
    refine List.nodup_append.mpr ⟨hinj, hts, ?_⟩
    rintro t ht t' ht' rfl
    obtain ⟨c, hc, rfl⟩ := List.mem_map.mp ht
    have := (hyoung _ ht').2
    rw [(hcopy c hc).2] at this
    exact this (isMem_oopAt c)
  have hsub : ∀ t ∈ (p.toObjs ++ p.promoted).map p.orig ++ ts,
      t ∈ objs .eden ++ objs .fromSpace := by
    intro t ht
    refine List.mem_append.mpr ?_
    rcases List.mem_append.mp ht with ht | ht
    · obtain ⟨c, hc, rfl⟩ := List.mem_map.mp ht
      exact (hcopy c hc).1
    · exact (hyoung t ht).1
  have hle := sum_le_of_nodup_subset (sizeAt u0.mem) hall hsub
  have heden := (h0.tiles .eden).sum_eq
  have hfrom := (h0.tiles .fromSpace).sum_eq
  have hsz : p.size u0.mem = sizeAt u0.mem ∘ p.orig := rfl
  simp only [List.map_append, List.sum_append, List.map_map, ← hsz] at hle ⊢
  unfold Space.used
  change u0.eden.top = u0.eden.start + _ at heden
  change u0.fromSpace.top = u0.fromSpace.start + _ at hfrom
  omega

/-- With room for all of young gen, there is room for each object that is promoted. -/
theorem room_for {t : Nat} (ht : IsYoung objs t) (hnot : ¬ IsMem (u.mem t))
    (hroom : u0.eden.used + u0.fromSpace.used ≤ u0.old.freeWords) :
    u.old.top + sizeAt u0.mem t ≤ u.old.committedEnd := by
  have hle := h.copies_le h0 (List.nodup_singleton t) fun x hx => by
    rw [List.mem_singleton.mp hx]
    exact ⟨ht, hnot⟩
  have hsum := h.promotedTiles.sum_eq
  have hcommit := h.oldCommitted
  rw [List.map_append, List.sum_append, List.map_cons, List.map_nil, List.sum_singleton] at hle
  unfold OldGen.freeWords at hroom
  have h7 := h0.spaces.top_le .old
  have h8 : u0.top .old = u0.old.top := rfl
  have h9 : u0.cap .old = u0.old.committedEnd := rfl
  omega

omit h0 h in
/-- The call on an object of new gen, down to where its copy goes. -/
theorem scavengeOop_young {t size : Nat} (young : t < u.old.start)
    (outside : ¬ (u.toSpace.start ≤ t ∧ t < u.toSpace.top)) (unmoved : ¬ IsMem (u.mem t))
    (isSize : objectSizeForCopy u.mem t = some size) :
    Universe.scavengeOop u (oopAt t) =
      match u.placeCopy size (decide (u.tenuringThreshold ≤ Mark.age (u.mem t) + 1)) with
      | none => some (u.recordStall size .scavengePromote, oopAt t)
      | some (u1, dest, promoted) =>
        some ((({ u1 with mem := copyWords u1.mem t dest size } :
          Universe).settleCopy dest size (Mark.age (u.mem t)) promoted).write t
            (oopAt dest), oopAt dest) := by
  unfold Universe.scavengeOop
  rw [if_neg (not_not.mpr (isMem_oopAt t)), memAddr_oopAt, if_neg (by omega), if_neg outside,
    if_neg unmoved]
  exact congrArg (Option.bind · _) isSize

omit h0 h in
theorem placeCopy_old {size : Nat} {agePromote : Bool}
    (old : (agePromote || decide (u.toSpace.limit < u.toSpace.top + size)) = true) :
    u.placeCopy size agePromote = (u.allocateOld size).map fun (u, dest) => (u, dest, true) :=
  if_pos old

/-- A young object that was not forwarded yet is copied, or the stall is recorded. -/
theorem copyYoung {t : Nat} (ht : IsYoung objs t) (hnot : ¬ IsMem (u.mem t)) :
    ∃ u' v p', Universe.scavengeOop u (oopAt t) = some (u', v) ∧ Scavenging u0 objs u' p' ∧
      Grows objs u p u' p' ∧ p'.touched = p.touched ∧
      WordSim (Stands objs u'.mem) (oopAt t) v ∧ (u'.pendingStall = none → Final objs v) := by
  have hlt := h.young_lt h0 ht
  have hobj := h0.object t ht.isObject
  have hpos := hobj.two_le_sizeAt
  have hmark0 : u.mem t = u0.mem t := by
    rcases h.copied.header t ht with hsame | ⟨c, -, -, hw⟩
    · exact hsame
    · rw [hw] at hnot
      exact absurd (isMem_oopAt c) hnot
  have hmark : Mark.IsMark (u.mem t) := hmark0 ▸ hobj.mark
  have hto : ¬ (u.toSpace.start ≤ t ∧ t < u.toSpace.top) := by
    rintro ⟨h1, h2⟩
    obtain ⟨r, hr, h3, h4⟩ := h.young_in (o := 0) h0 ht (by omega)
    have hne : r ≠ .toSpace := by rcases hr with rfl | rfl <;> decide
    have := h.spaces.apart r .toSpace hne
    have h5 := h.spaces.top_le r
    have h6 := h.spaces.top_le .toSpace
    have h7 : u.top .toSpace = u.toSpace.top := rfl
    have h8 : u.start .toSpace = u.toSpace.start := rfl
    omega
  have hsize := h.copied.objectSizeForCopy h0.object h0.toEmpty ht
  rw [scavengeOop_young hlt hto hnot hsize]
  have hstall : u.allocateOld (sizeAt u0.mem t) = none →
      ∃ u' v p', some (u.recordStall (sizeAt u0.mem t) .scavengePromote, oopAt t) =
      some (u', v) ∧ Scavenging u0 objs u' p' ∧ Grows objs u p u' p' ∧ p'.touched = p.touched ∧
      WordSim (Stands objs u'.mem) (oopAt t) v ∧ (u'.pendingStall = none → Final objs v) := by
    intro hnone
    have hno : ¬ u0.eden.used + u0.fromSpace.used ≤ u0.old.freeWords := by
      intro hroom
      unfold Universe.allocateOld at hnone
      rw [if_pos (h.room_for h0 ht hnot hroom)] at hnone
      cases hnone
    obtain ⟨h1, h2, h3, h4⟩ := h.recordStall (sizeAt u0.mem t) .scavengePromote hno
    exact ⟨_, _, p, rfl, h1, h2, rfl, .oop (.refl ht.isObject), fun hs => absurd hs h3⟩
  -- what is left to say of a copy
  have hdone : ∀ {u' : Universe} {p' : Progress} {dest : Nat}, Scavenging u0 objs u' p' →
      Grows objs u p u' p' → p'.touched = p.touched → p'.Settled objs dest → p'.orig dest = t →
      u'.mem t = oopAt dest → ∃ u'' v p'', some (u', oopAt dest) = some (u'', v) ∧
        Scavenging u0 objs u'' p'' ∧ Grows objs u p u'' p'' ∧ p''.touched = p.touched ∧
        WordSim (Stands objs u''.mem) (oopAt t) v ∧ (u''.pendingStall = none → Final objs v) := by
    intro u' p' dest h1 h2 h3 hset horig hhead
    refine ⟨u', _, p', rfl, h1, h2, h3, .oop ⟨ht.isObject, Or.inr ⟨ht, hhead⟩⟩, fun _ => ?_⟩
    exact h1.final_of_settled h0 hset
  by_cases hcond : (decide (u.tenuringThreshold ≤ Mark.age (u.mem t) + 1) ||
      decide (u.toSpace.limit < u.toSpace.top + sizeAt u0.mem t)) = true
  · rw [placeCopy_old hcond]
    cases halloc : u.allocateOld (sizeAt u0.mem t) with
    | none => exact hstall halloc
    | some out =>
      obtain ⟨u1, dest⟩ := out
      obtain ⟨rfl, hfits, hu1⟩ := Universe.allocateOld_eq_some halloc
      have hroom : u.top .old + sizeAt u0.mem t ≤ u.cap .old := hfits
      have hfresh : ¬ (u.old.top ≤ t ∧ t < u.old.top + sizeAt u0.mem t) := by
        have := h.spaces.start_le .old
        have h7 : u.top .old = u.old.top := rfl
        have h8 : u.start .old = u.old.start := rfl
        omega
      have hcopy := copyOf_promoted hfresh hmark (by omega)
      have hmem1 : u1.mem = u.mem := by rw [hu1]; rfl
      have hdirty1 : u1.dirty = u.dirty := by rw [hu1]; rfl
      have hstart1 : u1.old.start = u.old.start := by rw [hu1]; rfl
      obtain ⟨dirty', hrec, hmono⟩ := Universe.recordMultistores_eq
        { u1 with mem := copyWords u1.mem t u.old.top (sizeAt u0.mem t) } u.old.top
        (u.old.top + sizeAt u0.mem t)
      have hcovered : ∀ o, o < sizeAt u0.mem t →
          dirty' (u.cardIndex (u.old.top + o)) = true := by
        intro o ho
        have hd := Universe.recordMultistores_dirty
          { u1 with mem := copyWords u1.mem t u.old.top (sizeAt u0.mem t) } (u.old.top + o)
          u.old.top (u.old.top + sizeAt u0.mem t) (Nat.le_add_right _ _) (by omega)
        rw [hrec] at hd
        unfold Universe.cardIndex at hd ⊢
        rw [← hstart1]
        exact hd
      obtain ⟨h1, h2⟩ := h.promote h0 ht hmark0 halloc hcopy
        (fun i hi => hmono i (by rw [← hdirty1] at hi; exact hi)) hcovered
      have hfinal : ((({ u1 with mem := copyWords u1.mem t u.old.top (sizeAt u0.mem t) } :
          Universe).settleCopy u.old.top (sizeAt u0.mem t) (Mark.age (u.mem t)) true).write t
            (oopAt u.old.top)) = { u1 with
              mem := Function.update (copyWords u.mem t u.old.top (sizeAt u0.mem t)) t
                (oopAt u.old.top)
              dirty := dirty' } := by
        unfold Universe.settleCopy
        rw [if_pos rfl, hrec, hmem1]
        rfl
      simp only [Option.map_some, hfinal]
      refine hdone h1 h2 rfl (Or.inr ?_) (Function.update_self _ _ _) (Function.update_self _ _ _)
      exact List.mem_append_right _ (List.mem_append_right _ List.mem_cons_self)
  · have hplace : u.placeCopy (sizeAt u0.mem t)
        (decide (u.tenuringThreshold ≤ Mark.age (u.mem t) + 1)) =
        some ({ u with toSpace := { u.toSpace with top := u.toSpace.top + sizeAt u0.mem t } },
          u.toSpace.top, false) := if_neg hcond
    rw [hplace]
    have hfits : u.toSpace.top + sizeAt u0.mem t ≤ u.toSpace.limit := by
      simp only [Bool.or_eq_true, decide_eq_true_eq, not_or] at hcond
      omega
    have hfresh : ¬ (u.toSpace.top ≤ t ∧ t < u.toSpace.top + sizeAt u0.mem t) := by
      obtain ⟨r, hr, h3, h4⟩ := h.young_in (o := 0) h0 ht (by omega)
      exact h.spaces.not_fresh (d := .toSpace) h3 h4 hfits
    have hage : min (Mark.age (u.mem t) + 1) markAgeMax < 128 := by
      unfold markAgeMax
      omega
    have hcopy := copyOf_survivor hfresh hmark (by omega) hage
    obtain ⟨h1, h2⟩ := h.survive h0 ht hmark0 hfits
      (Function.update u.ageTable (min (Mark.age (u.mem t) + 1) markAgeMax)
        (u.ageTable (min (Mark.age (u.mem t) + 1) markAgeMax) + sizeAt u0.mem t)) hcopy
    have hfinal : ((({ u with
          toSpace := { u.toSpace with top := u.toSpace.top + sizeAt u0.mem t }
          mem := copyWords u.mem t u.toSpace.top (sizeAt u0.mem t) } : Universe).settleCopy
            u.toSpace.top (sizeAt u0.mem t) (Mark.age (u.mem t)) false).write t
            (oopAt u.toSpace.top)) = { u with
              toSpace := { u.toSpace with top := u.toSpace.top + sizeAt u0.mem t }
              mem := Function.update (Function.update
                (copyWords u.mem t u.toSpace.top (sizeAt u0.mem t)) u.toSpace.top
                (Mark.withAge (u.mem t) (min (Mark.age (u.mem t) + 1) markAgeMax))) t
                (oopAt u.toSpace.top)
              ageTable := Function.update u.ageTable (min (Mark.age (u.mem t) + 1) markAgeMax)
                (u.ageTable (min (Mark.age (u.mem t) + 1) markAgeMax) + sizeAt u0.mem t) } := by
      unfold Universe.settleCopy Universe.write
      have hcw : copyWords u.mem t u.toSpace.top (sizeAt u0.mem t) u.toSpace.top = u.mem t :=
        copyWords_dest (o := 0) (by omega)
      simp [hcw]
    simp only [hfinal]
    refine hdone h1 h2 rfl (Or.inl ?_) (Function.update_self _ _ _) (Function.update_self _ _ _)
    exact List.mem_append_right _ List.mem_cons_self

/-- A call answers a stand-in of the object it is handed, one that stays unless it stalled. -/
theorem scavengeOop {w : Nat} (hw : WfWord (IsObject objs) w) :
    ∃ u' v p', Universe.scavengeOop u w = some (u', v) ∧ Scavenging u0 objs u' p' ∧
      Grows objs u p u' p' ∧ p'.touched = p.touched ∧
      WordSim (Stands objs u'.mem) w v ∧ (u'.pendingStall = none → Final objs v) := by
  rcases hw with hs | ⟨t, rfl, ht⟩
  · have hnot := not_isMem_of_isSmi hs
    refine ⟨u, w, p, ?_, h, .refl, rfl, .same hnot, fun _ => final_of_not_isMem hnot⟩
    unfold Universe.scavengeOop
    rw [if_pos hnot]
  · rcases Copied.young_or_old h0.toEmpty ht with hy | hold
    · by_cases hf : IsMem (u.mem t)
      · -- copied before: the header says where
        obtain ⟨c, hw⟩ : ∃ c, u.mem t = oopAt c := by
          rcases h.copied.header t hy with hsame | ⟨c, -, -, hw⟩
          · rw [hsame] at hf
            exact absurd hf (Mark.not_isMem (h0.object t ht).mark)
          · exact ⟨c, hw⟩
        obtain ⟨hset, -⟩ := h.copied.settled_of_forwarded h0.object hy hw
        have hlt := h.young_lt h0 hy
        have hpos := (h0.object t ht).two_le_sizeAt
        refine ⟨u, oopAt c, p, ?_, h, .refl, rfl, .oop ⟨ht, Or.inr ⟨hy, hw⟩⟩,
          fun _ => h.final_of_settled h0 hset⟩
        unfold Universe.scavengeOop
        rw [if_neg (not_not.mpr (isMem_oopAt t)), memAddr_oopAt, if_neg (by omega), if_neg ?_,
          if_pos hf, hw]
        rintro ⟨h1, h2⟩
        obtain ⟨r, hr, h3, h4⟩ := h.young_in (o := 0) h0 hy (by omega)
        have hne : r ≠ .toSpace := by rcases hr with rfl | rfl <;> decide
        have := h.spaces.apart r .toSpace hne
        have h5 := h.spaces.top_le r
        have h6 := h.spaces.top_le .toSpace
        have h7 : u.top .toSpace = u.toSpace.top := rfl
        have h8 : u.start .toSpace = u.toSpace.start := rfl
        omega
      · exact h.copyYoung h0 hy hf
    · have hge := h.old_ge h0 hold
      refine ⟨u, oopAt t, p, ?_, h, .refl, rfl, .oop (.refl ht),
        fun _ => h.final_of_old h0 hold⟩
      unfold Universe.scavengeOop
      rw [if_neg (not_not.mpr (isMem_oopAt t)), memAddr_oopAt, if_pos hge]

end Scavenging

/-! ## Visiting slots -/

/-- A part of the collection that keeps the invariant and visits the slots `X`. -/
structure Visits (u0 : Universe) (objs : Objects) (u : Universe) (p : Progress) (X : Nat → Prop)
    (u' : Universe) (p' : Progress) : Prop where
  inv : Scavenging u0 objs u' p'
  grows : Grows objs u p u' p'
  touched : ∀ x, p'.touched x ↔ p.touched x ∨ X x

namespace Visits

variable {u0 : Universe} {objs : Objects} {u u1 u2 : Universe} {p p1 p2 : Progress}
variable {X Y : Nat → Prop}

theorem trans (h : Visits u0 objs u p X u1 p1) (h' : Visits u0 objs u1 p1 Y u2 p2) :
    Visits u0 objs u p (fun x => X x ∨ Y x) u2 p2 := by
  refine ⟨h'.inv, h.grows.trans h'.grows, fun x => ?_⟩
  rw [h'.touched, h.touched, or_assoc]

theorem congr (h : Visits u0 objs u p X u1 p1) (hXY : ∀ x, X x ↔ Y x) :
    Visits u0 objs u p Y u1 p1 :=
  ⟨h.inv, h.grows, fun x => by rw [h.touched, hXY]⟩

theorem none (h : Scavenging u0 objs u p) : Visits u0 objs u p (fun _ => False) u p :=
  ⟨h, .refl, fun _ => (or_false _).symm.to_iff⟩

end Visits

/-- The slot's card is dirty if the slot was part of old gen before the collection. -/
def CardReady (u0 u : Universe) (x : Nat) : Prop :=
  x < u0.old.top → u.old.start ≤ x → u.dirty (u.cardIndex x) = true

theorem CardReady.grows {u0 u u' : Universe} {objs : Objects} {p p' : Progress} {x : Nat}
    (h : CardReady u0 u x) (hg : Grows objs u p u' p') (hstart : u'.old.start = u.old.start) :
    CardReady u0 u' x := by
  intro h1 h2
  rw [hstart] at h2
  have hcard : u'.cardIndex x = u.cardIndex x := by
    unfold Universe.cardIndex
    rw [hstart]
  rw [hcard]
  exact hg.dirty _ (h h1 h2)

namespace Scavenging

variable {u0 : Universe} {objs : Objects} {u : Universe} {p : Progress}
variable (h0 : WfHeap u0 objs) (h : Scavenging u0 objs u p)
include h0 h

/-- A settled object's slot is replaced by what `scavenge_oop` answers for it. -/
theorem visit {c off : Nat} (hc : p.Settled objs c) (hoff : off ∈ slotsAt u0.mem (p.orig c))
    (hnot : ¬ p.touched (c + off)) (hcard : CardReady u0 u (c + off)) :
    ∃ u1 v p', Universe.scavengeOop u (u.mem (c + off)) = some (u1, v) ∧
      Visits u0 objs u p (· = c + off) (u1.write (c + off) v) p' := by
  have hobj := h0.object _ (h.orig_isObject h0 hc)
  obtain ⟨hlo, hhi⟩ := hobj.slot_bounds hoff
  have hword := h.untouched c hc off hlo hhi hnot
  obtain ⟨u1, v, p1, hcall, h1, hg, htouched, hsim, hfinal⟩ :=
    h.scavengeOop h0 (hword ▸ hobj.slots off hoff)
  have hc1 := hg.settled hc
  have horig := hg.orig_settled hc
  have hsz : ∀ c', p1.Settled objs c' → 2 ≤ p1.size u0.mem c' := fun c' hc' => h1.size_pos h0 hc'
  have hsize : off < p1.size u0.mem c := by
    unfold Progress.size
    rw [horig]
    exact hhi
  have hne : ∀ x, p1.touched x → x ≠ c + off := by
    rintro x hx rfl
    rw [htouched] at hx
    exact hnot hx
  have hhead : ∀ x, x ≠ c + off → (u1.write (c + off) v).mem x = u1.mem x := fun x hx =>
    Function.update_of_ne hx _ _
  have hself : (u1.write (c + off) v).mem (c + off) = v := Function.update_self _ _ _
  have hcopied : Copied objs u0.mem (u1.write (c + off) v).mem (p1.Settled objs) p1.orig := by
    refine h1.copied.write hc1 (horig ▸ hoff) hlo ?_ ?_ ?_ ?_ ?_ ?_
    · rw [horig, ← hword]
      exact hsim
    · intro a ha o ho
      exact h1.young_ne_settled h0 ha ho hc1 hsize
    · exact fun a ha => Nat.lt_of_lt_of_le (by decide) (h0.object a ha.isObject).two_le_sizeAt
    · intro c' hc' hcc o ho
      exact h1.settled_ne_settled h0 hc1 hc' hcc hsize ho
    · exact fun c' hc' => Nat.lt_of_lt_of_le (by decide) (hsz c' hc')
    · intro c' hc' o ho
      exact ((h0.object _ (h1.orig_isObject h0 hc')).slot_bounds ho).2
  refine ⟨u1, v, p1.touch (c + off), hcall, ?_, ?_, ?_⟩
  · refine ⟨hcopied, h1.spaces.of_eq rfl rfl rfl rfl, h1.eden, h1.fromSpace, h1.toStart,
      h1.toLimit, h1.oldStart, h1.oldLimit, h1.oldCommitted, h1.origObject, h1.toTiles,
      h1.promotedTiles, h1.resolves.of_offsets rfl rfl rfl, h1.promotedDirty, ?_, ?_, ?_, ?_,
      h1.room, h1.flags⟩
    · intro c' hc' o ho1 ho2 hnt
      rw [hhead _ fun heq => hnt (Or.inr heq)]
      exact h1.untouched c' hc' o ho1 ho2 fun ht => hnt (Or.inl ht)
    · intro hs x hx
      rcases hx with hx | rfl
      · rw [hhead x (hne x hx)]
        exact h1.final hs x hx
      · rw [hself]
        exact hfinal hs
    · intro x hx
      rcases hx with hx | rfl
      · exact h1.touchedUsed x hx
      · obtain ⟨r, hr, h2, h3⟩ := h1.settled_in h0 hc1 hsize
        rcases hr with rfl | rfl
        · exact Or.inl ⟨h2, h3⟩
        · exact Or.inr ⟨h2, h3⟩
    · intro x hx h2 h3 hnew
      rcases hx with hx | rfl
      · rw [hhead x (hne x hx)] at hnew
        exact h1.remembered x hx h2 h3 hnew
      · have hready : CardReady u0 u1 (c + off) :=
          hcard.grows hg (h1.oldStart.trans h.oldStart.symm)
        exact hready h2 h3
  · have hg' : Grows objs u1 p1 (u1.write (c + off) v) (p1.touch (c + off)) :=
      ⟨.of_same ⟨rfl, rfl, rfl⟩ (fun x hx => Or.inl hx) (fun x hx => hhead x (hne x hx)) id
        ⟨rfl, rfl⟩, fun _ hi => hi⟩
    exact hg.trans hg'
  · intro x
    change p1.touched x ∨ x = c + off ↔ _
    rw [htouched]

end Scavenging

end WinVm.Memory
