import Mathlib.Tactic.Common

/-!
# Words of a text

The words of a list are its maximal runs without a separator.  A separator cuts a list in two whose
words do not interfere (`words_cut`), and so does a gap, a part that begins and ends with a
separator (`words_gap`).  A part without separators is one word (`words_word`).
-/

namespace Lib

variable {α : Type} {sep : α → Bool}

/-- The words, where `word` is what has been read of the first one. -/
def wordsFrom (sep : α → Bool) : List α → List α → List (List α)
  | word, [] => if word.isEmpty then [] else [word]
  | word, c :: rest =>
    if sep c then (if word.isEmpty then [] else [word]) ++ wordsFrom sep [] rest
    else wordsFrom sep (word ++ [c]) rest

def words (sep : α → Bool) (text : List α) : List (List α) := wordsFrom sep [] text

theorem wordsFrom_cut {c : α} (hc : sep c = true) (t : List α) (s : List α) : ∀ word,
    wordsFrom sep word (s ++ c :: t) = wordsFrom sep word s ++ words sep t := by
  induction s with
  | nil =>
    intro word
    rw [List.nil_append, wordsFrom.eq_def sep word (c :: t)]
    dsimp only
    rw [if_pos hc, wordsFrom, words]
  | cons d s ih =>
    intro word
    rw [List.cons_append, wordsFrom, wordsFrom, ih, ih]
    split
    · rw [List.append_assoc]
    · rfl

/-- A separator belongs to no word. -/
theorem words_cut {c : α} (hc : sep c = true) (s t : List α) :
    words sep (s ++ c :: t) = words sep s ++ words sep t :=
  wordsFrom_cut hc t s []

theorem words_cons {c : α} (hc : sep c = true) (t : List α) :
    words sep (c :: t) = words sep t :=
  words_cut hc [] t

theorem wordsFrom_word {w : List α} (hw : ∀ c ∈ w, sep c = false) : ∀ word,
    wordsFrom sep word w = if (word ++ w).isEmpty then [] else [word ++ w] := by
  induction w with
  | nil =>
    intro word
    rw [wordsFrom, List.append_nil]
  | cons c w ih =>
    intro word
    rw [wordsFrom, hw c List.mem_cons_self, if_neg (by decide),
      ih (fun d hd => hw d (List.mem_cons_of_mem c hd)), List.append_assoc, List.singleton_append]

theorem words_word {w : List α} (hw : ∀ c ∈ w, sep c = false) (hne : w ≠ []) :
    words sep w = [w] := by
  rw [words, wordsFrom_word hw, List.nil_append, if_neg (by simpa using hne)]

/-- Separators in front of a text. -/
theorem words_replicate_append {c : α} (hc : sep c = true) (n : Nat) (t : List α) :
    words sep (List.replicate n c ++ t) = words sep t := by
  induction n with
  | zero => rfl
  | succ n ih => rw [List.replicate_succ, List.cons_append, words_cons hc, ih]

/-! ## Gaps -/

/-- A part that ends with a separator. -/
theorem words_front {front : List α} (h : front.getLast?.any sep = true) (t : List α) :
    words sep (front ++ t) = words sep front ++ words sep t := by
  rcases List.eq_nil_or_concat front with rfl | ⟨s, c, rfl⟩
  · cases h
  · rw [List.concat_eq_append] at h ⊢
    have hc : sep c = true := by simpa using h
    have hlast : words sep (s ++ [c]) = words sep s ++ [] := words_cut hc s []
    rw [hlast, List.append_nil, List.append_assoc, List.singleton_append, words_cut hc]

/-- The part begins and ends with a separator. -/
def isGap (sep : α → Bool) (gap : List α) : Bool := gap.head?.any sep && gap.getLast?.any sep

variable {gap : List α}

theorem isGap_cons (h : isGap sep gap = true) : ∃ c t, gap = c :: t ∧ sep c = true := by
  rw [isGap, Bool.and_eq_true] at h
  cases gap with
  | nil => exact absurd h.1 (by simp)
  | cons c t => exact ⟨c, t, rfl, by simpa using h.1⟩

theorem words_append_gap (h : isGap sep gap = true) (s : List α) :
    words sep (s ++ gap) = words sep s ++ words sep gap := by
  obtain ⟨c, t, rfl, hc⟩ := isGap_cons h
  rw [words_cut hc, words_cons hc]

theorem words_gap (h : isGap sep gap = true) (s t : List α) :
    words sep (s ++ gap ++ t) = words sep s ++ words sep gap ++ words sep t := by
  have hfront := h
  rw [isGap, Bool.and_eq_true] at hfront
  have hrest := words_front hfront.2 t
  obtain ⟨c, gap, rfl, hc⟩ := isGap_cons h
  rw [List.cons_append, words_cons hc, words_cons hc] at hrest
  rw [List.append_assoc, List.cons_append, words_cut hc, hrest, words_cons hc, List.append_assoc]

end Lib
