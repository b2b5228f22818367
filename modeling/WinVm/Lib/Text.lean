import Mathlib.Data.List.DropRight

/-!
# Text

Whitespace, trimming and words, over lists of characters.

Results: `splitWhitespace_unwords` and `mem_splitWhitespace`, words that are joined by spaces are
read back; `trim_unwords`, they begin and end without whitespace.
-/

namespace WinVm.Lib

/-- `char::is_whitespace`, the Unicode property `White_Space`. -/
def isWhitespace (c : Char) : Bool :=
  (9 ≤ c.toNat && c.toNat ≤ 13) || (0x2000 ≤ c.toNat && c.toNat ≤ 0x200A) ||
  c.toNat ∈ [0x20, 0x85, 0xA0, 0x1680, 0x2028, 0x2029, 0x202F, 0x205F, 0x3000]

def trimStart (s : List Char) : List Char := s.dropWhile isWhitespace

def trimEnd (s : List Char) : List Char := s.rdropWhile isWhitespace

def trim (s : List Char) : List Char := trimStart (trimEnd s)

/-- The words, after the characters of one already read. -/
def wordsFrom (word : List Char) : List Char → List (List Char)
  | [] => if word = [] then [] else [word]
  | c :: cs =>
    if isWhitespace c then
      if word = [] then wordsFrom [] cs else word :: wordsFrom [] cs
    else wordsFrom (word ++ [c]) cs

/-- The parts between whitespace. -/
def splitWhitespace (s : List Char) : List (List Char) := wordsFrom [] s

/-- The words with one space between them. -/
def unwords : List (List Char) → List Char
  | [] => []
  | [w] => w
  | w :: ws => w ++ ' ' :: unwords ws

/-- A word is not empty, and has no whitespace. -/
def IsWord (w : List Char) : Prop := w ≠ [] ∧ ∀ c ∈ w, isWhitespace c = false

/-! ## Up to a mark -/

theorem takeWhile_append_mark {p : Char → Bool} {c : Char} (hc : p c = false) (w s : List Char) :
    (w ++ c :: s).takeWhile p = w.takeWhile p := by
  induction w with
  | nil => rw [List.nil_append, List.takeWhile_cons, hc, if_neg Bool.false_ne_true, List.takeWhile_nil]
  | cons d w ih => rw [List.cons_append, List.takeWhile_cons, List.takeWhile_cons, ih]

theorem dropWhile_append_mark {p : Char → Bool} {c : Char} (hc : p c = false) (w s : List Char) :
    (w ++ c :: s).dropWhile p = w.dropWhile p ++ c :: s := by
  induction w with
  | nil => rw [List.nil_append, List.dropWhile_cons, hc, if_neg Bool.false_ne_true]; rfl
  | cons d w ih =>
    rw [List.cons_append, List.dropWhile_cons, List.dropWhile_cons, ih]
    split <;> rfl

/-! ## Words -/

theorem wordsFrom_append {w : List Char} (hw : ∀ c ∈ w, isWhitespace c = false) (word s : List Char) :
    wordsFrom word (w ++ s) = wordsFrom (word ++ w) s := by
  induction w generalizing word with
  | nil => rw [List.append_nil, List.nil_append]
  | cons c w ih =>
    rw [List.cons_append, wordsFrom, hw c List.mem_cons_self, if_neg Bool.false_ne_true,
      ih fun c hc => hw c (List.mem_cons_of_mem _ hc), List.append_assoc, List.singleton_append]

theorem splitWhitespace_unwords {ws : List (List Char)} (h : ∀ w ∈ ws, IsWord w) :
    splitWhitespace (unwords ws) = ws := by
  unfold splitWhitespace
  induction ws with
  | nil => rfl
  | cons w ws ih =>
    obtain ⟨hne, hw⟩ := h w List.mem_cons_self
    cases ws with
    | nil =>
      have happend := wordsFrom_append hw [] []
      rw [List.append_nil, List.nil_append, wordsFrom, if_neg hne] at happend
      exact happend
    | cons w' ws =>
      rw [unwords, wordsFrom_append hw, List.nil_append, wordsFrom, if_pos (by decide), if_neg hne,
        ih fun x hx => h x (List.mem_cons_of_mem _ hx)]
      exact fun hnil => nomatch hnil

theorem mem_wordsFrom {w s word : List Char} (hword : ∀ c ∈ word, isWhitespace c = false)
    (hw : w ∈ wordsFrom word s) : IsWord w ∧ ∀ c ∈ w, c ∈ word ∨ c ∈ s := by
  induction s generalizing word with
  | nil =>
    rw [wordsFrom] at hw
    split at hw
    · cases hw
    · next hne =>
      obtain rfl := List.mem_singleton.mp hw
      exact ⟨⟨hne, hword⟩, fun c hc => .inl hc⟩
  | cons c s ih =>
    have hlater (hw : w ∈ wordsFrom [] s) : IsWord w ∧ ∀ x ∈ w, x ∈ word ∨ x ∈ c :: s := by
      obtain ⟨hisWord, hmem⟩ := ih (List.forall_mem_nil _) hw
      refine ⟨hisWord, fun x hx => .inr ?_⟩
      exact List.mem_cons_of_mem _ ((hmem x hx).resolve_left List.not_mem_nil)
    rw [wordsFrom] at hw
    split at hw
    · split at hw
      · exact hlater hw
      · next hne =>
        rcases List.mem_cons.mp hw with rfl | hw
        · exact ⟨⟨hne, hword⟩, fun c hc => .inl hc⟩
        · exact hlater hw
    · next hc =>
      have hword' : ∀ x ∈ word ++ [c], isWhitespace x = false := by
        intro x hx
        rcases List.mem_append.mp hx with hx | hx
        · exact hword x hx
        · rw [List.mem_singleton.mp hx]
          exact Bool.not_eq_true _ ▸ hc
      obtain ⟨hisWord, hmem⟩ := ih hword' hw
      refine ⟨hisWord, fun x hx => ?_⟩
      rcases hmem x hx with hx | hx
      · rcases List.mem_append.mp hx with hx | hx
        · exact .inl hx
        · exact .inr (List.mem_singleton.mp hx ▸ List.mem_cons_self)
      · exact .inr (List.mem_cons_of_mem _ hx)

theorem mem_splitWhitespace {w s : List Char} (hw : w ∈ splitWhitespace s) :
    IsWord w ∧ ∀ c ∈ w, c ∈ s := by
  obtain ⟨hisWord, hmem⟩ := mem_wordsFrom (List.forall_mem_nil _) hw
  exact ⟨hisWord, fun c hc => (hmem c hc).resolve_left List.not_mem_nil⟩

/-! ## Trimming -/

theorem dropWhile_cons_neg {p : Char → Bool} {c : Char} {s : List Char} (hc : p c = false) :
    (c :: s).dropWhile p = c :: s := by
  rw [List.dropWhile_cons, hc, if_neg Bool.false_ne_true]

theorem trimEnd_concat {c : Char} (hc : isWhitespace c = false) (s : List Char) :
    trimEnd (s ++ [c]) = s ++ [c] :=
  List.rdropWhile_concat_neg _ _ _ (by rw [hc]; exact Bool.false_ne_true)

/-- Trimming keeps what lies before a character that is no whitespace. -/
theorem trimEnd_append_cons {c : Char} (hc : isWhitespace c = false) (s t : List Char) :
    ∃ t', trimEnd (s ++ c :: t) = s ++ c :: t' ∧ t' <+: t := by
  induction t using List.reverseRecOn with
  | nil => exact ⟨[], trimEnd_concat hc s, List.nil_prefix⟩
  | append_singleton t d ih =>
    have hassoc : s ++ c :: (t ++ [d]) = (s ++ c :: t) ++ [d] := by simp
    rw [hassoc]
    cases hd : isWhitespace d with
    | false => exact ⟨t ++ [d], by rw [trimEnd_concat hd]; simp, List.prefix_rfl⟩
    | true =>
      obtain ⟨t', htrim, hprefix⟩ := ih
      refine ⟨t', ?_, hprefix.trans (List.prefix_append _ _)⟩
      rw [← htrim]
      exact List.rdropWhile_concat_pos _ _ _ hd

theorem trim_cons {c : Char} (hc : isWhitespace c = false) (s : List Char) :
    trim (c :: s) = trimEnd (c :: s) := by
  obtain ⟨t, htrim, -⟩ := trimEnd_append_cons hc [] s
  unfold trim trimStart
  rw [List.nil_append, List.nil_append] at htrim
  rw [htrim, dropWhile_cons_neg hc]

theorem trimEnd_append {t : List Char} (hne : t ≠ []) (ht : trimEnd t = t) (s : List Char) :
    trimEnd (s ++ t) = s ++ t := by
  have hlast := List.rdropWhile_eq_self_iff.mp ht hne
  refine List.rdropWhile_eq_self_iff.mpr fun happend => ?_
  rwa [List.getLast_append_of_ne_nil happend hne]

theorem trimEnd_trimEnd (s : List Char) : trimEnd (trimEnd s) = trimEnd s :=
  List.rdropWhile_idempotent _ s

theorem unwords_ne_nil {w : List Char} (hw : w ≠ []) (ws : List (List Char)) :
    unwords (w :: ws) ≠ [] := by
  cases ws with
  | nil => exact hw
  | cons w' ws => exact fun h => hw (List.append_eq_nil_iff.mp h).1

theorem IsWord.trimEnd {w : List Char} (hw : IsWord w) : Lib.trimEnd w = w :=
  List.rdropWhile_eq_self_iff.mpr fun hl => by
    rw [hw.2 _ (List.getLast_mem hl)]
    exact Bool.false_ne_true

theorem trimEnd_unwords {ws : List (List Char)} (h : ∀ w ∈ ws, IsWord w) :
    trimEnd (unwords ws) = unwords ws := by
  induction ws with
  | nil => rfl
  | cons w ws ih =>
    cases ws with
    | nil => exact (h w List.mem_cons_self).trimEnd
    | cons w' ws =>
      have htail : ∀ x ∈ w' :: ws, IsWord x := fun x hx => h x (List.mem_cons_of_mem _ hx)
      have hne := unwords_ne_nil (htail w' List.mem_cons_self).1 ws
      rw [unwords, List.append_cons]
      · exact trimEnd_append hne (ih htail) _
      · exact nofun

/-- Words that are joined by spaces begin and end without whitespace. -/
theorem trim_unwords {ws : List (List Char)} (h : ∀ w ∈ ws, IsWord w) :
    trim (unwords ws) = unwords ws := by
  unfold trim
  rw [trimEnd_unwords h]
  cases ws with
  | nil => rfl
  | cons w ws =>
    obtain ⟨c, w, rfl⟩ := List.exists_cons_of_ne_nil (h w List.mem_cons_self).1
    have hc : isWhitespace c = false := (h _ List.mem_cons_self).2 c List.mem_cons_self
    cases ws with
    | nil => exact dropWhile_cons_neg hc
    | cons x ws => exact dropWhile_cons_neg hc

theorem splitWhitespace_cons_space {c : Char} (hc : isWhitespace c = true) (s : List Char) :
    splitWhitespace (c :: s) = splitWhitespace s := by
  unfold splitWhitespace
  rw [wordsFrom, if_pos hc, if_pos rfl]

end WinVm.Lib
