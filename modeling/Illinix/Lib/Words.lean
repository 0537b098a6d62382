import Mathlib.Data.List.Basic

/-! # Words between separators

A text is cut at its separators, and the pieces that are not empty are its words.  `complete` are the
words with a separator behind them, those that a scan from one separator to the next finds. -/

namespace Illinix.Lib

open List

variable {α : Type*} {p : α → Bool} {s t w : List α} {c : α}

def words (p : α → Bool) (s : List α) : List (List α) := (s.splitOnP p).filter fun w => !w.isEmpty

def complete (p : α → Bool) (s : List α) : List (List α) :=
  (s.splitOnP p).dropLast.filter fun w => !w.isEmpty

theorem words_append_sep (hc : p c) : words p (s ++ c :: t) = words p s ++ words p t := by
  rw [words, splitOnP_append_cons s t hc, filter_append]
  rfl

theorem complete_append_sep (hc : p c) : complete p (s ++ c :: t) = words p s ++ complete p t := by
  rw [complete, splitOnP_append_cons s t hc, dropLast_append_of_ne_nil (splitOnP_ne_nil p t), filter_append]
  rfl

@[simp] theorem words_nil : words p ([] : List α) = [] := rfl

@[simp] theorem complete_nil : complete p ([] : List α) = [] := rfl

theorem complete_of_forall_not (none : ∀ x ∈ s, p x = false) : complete p s = [] := by
  rw [complete, splitOnP_eq_singleton none]
  rfl

theorem words_of_forall_not (none : ∀ x ∈ w, p x = false) (some : w ≠ []) : words p w = [w] := by
  rw [words, splitOnP_eq_singleton none]
  simpa using some

theorem words_dropWhile (s : List α) : words p (s.dropWhile p) = words p s := by
  induction s with
  | nil => rfl
  | cons c s ih =>
    cases hc : p c with
    | true =>
      rw [dropWhile_cons_of_pos hc, ih]
      exact (words_append_sep (s := []) hc).symm
    | false => rw [dropWhile_cons_of_neg (by simp [hc])]

theorem complete_dropWhile (s : List α) : complete p (s.dropWhile p) = complete p s := by
  induction s with
  | nil => rfl
  | cons c s ih =>
    cases hc : p c with
    | true =>
      rw [dropWhile_cons_of_pos hc, ih]
      exact (complete_append_sep (s := []) hc).symm
    | false => rw [dropWhile_cons_of_neg (by simp [hc])]

/-- The first separator, if there is one. -/
theorem forall_not_or_exists_sep (p : α → Bool) (s : List α) : (∀ x ∈ s, p x = false) ∨
    ∃ w c t, s = w ++ c :: t ∧ (∀ x ∈ w, p x = false) ∧ p c = true := by
  induction s with
  | nil => exact .inl (by simp)
  | cons c s ih =>
    cases hc : p c with
    | true => exact .inr ⟨[], c, s, rfl, by simp, hc⟩
    | false =>
      obtain none | ⟨w, c', t, rfl, none, sep⟩ := ih
      · exact .inl (forall_mem_cons.mpr ⟨hc, none⟩)
      · exact .inr ⟨c :: w, c', t, rfl, forall_mem_cons.mpr ⟨hc, none⟩, sep⟩

/-- A text without complete words has its separators in front of everything else. -/
theorem complete_eq_nil_iff : complete p s = [] ↔ ∀ x ∈ s.dropWhile p, p x = false := by
  rw [← complete_dropWhile]
  constructor
  · intro nothing
    obtain none | ⟨w, c, t, eq, none, sep⟩ := forall_not_or_exists_sep p (s.dropWhile p)
    · exact none
    · -- what stands in front of the separator is not empty
      have some : w ≠ [] := by
        rintro rfl
        have head := head?_dropWhile_not p s
        rw [eq] at head
        simp [sep] at head
      rw [eq, complete_append_sep sep, words_of_forall_not none some] at nothing
      cases nothing
  · exact complete_of_forall_not

theorem mem_of_mem_splitOnP {x : α} (hw : w ∈ s.splitOnP p) (hx : x ∈ w) : x ∈ s := by
  induction s generalizing w with
  | nil =>
    rw [splitOnP_nil, mem_singleton] at hw
    exact hw ▸ hx
  | cons c s ih =>
    rw [splitOnP_cons_eq_if_modifyHead] at hw
    split at hw
    · rcases mem_cons.mp hw with rfl | later
      · cases hx
      · exact mem_cons_of_mem c (ih later hx)
    · cases pieces : s.splitOnP p with
      | nil => exact absurd pieces (splitOnP_ne_nil p s)
      | cons first rest =>
        rw [pieces] at hw ih
        rcases mem_cons.mp hw with rfl | later
        · rcases mem_cons.mp hx with rfl | inside
          · exact mem_cons_self
          · exact mem_cons_of_mem c (ih mem_cons_self inside)
        · exact mem_cons_of_mem c (ih (mem_cons_of_mem first later) hx)

theorem mem_of_mem_words {x : α} (hw : w ∈ words p s) (hx : x ∈ w) : x ∈ s :=
  mem_of_mem_splitOnP (mem_of_mem_filter hw) hx

theorem mem_of_mem_complete {x : α} (hw : w ∈ complete p s) (hx : x ∈ w) : x ∈ s :=
  mem_of_mem_splitOnP (dropLast_subset _ (mem_of_mem_filter hw)) hx

end Illinix.Lib
