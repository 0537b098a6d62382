import Mathlib.Data.List.DropRight
import Mathlib.Data.Nat.ModEq

/-! # Rows of a text

A text is broken into rows of a fixed width: at every breaking character, which is not shown, and
after every `w`-th character of a row.  The last row is where the next character goes; it is empty
after a break. -/

namespace Illinix.Lib

open List

variable {α : Type*}

/-- The rows of a line without breaking characters. -/
def wrap (w : Nat) (line : List α) : List (List α) :=
  (List.range (line.length / w + 1)).map fun k => (line.drop (k * w)).take w

def rows (w : Nat) (breaks : α → Bool) (text : List α) : List (List α) :=
  (text.splitOnP breaks).flatMap (wrap w)

/-! ## One more character -/

theorem wrap_eq {w : Nat} (hw : 0 < w) (line : List α) :
    wrap w line = (List.range (line.length / w)).map (fun k => (line.drop (k * w)).take w) ++
        [line.drop (line.length / w * w)] := by
  have short : (line.drop (line.length / w * w)).length ≤ w := by
    rw [length_drop, ← Nat.mod_eq_sub_div_mul]
    exact (Nat.mod_lt _ hw).le
  rw [wrap, range_succ, map_append, map_singleton, take_of_length_le short]

theorem mod_succ_eq_iff {n w : Nat} (hw : 0 < w) : n % w + 1 = w ↔ w ∣ n + 1 := by
  have parts : n + 1 = w * (n / w) + (n % w + 1) := by
    rw [← Nat.add_assoc, Nat.div_add_mod]
  rw [parts, Nat.dvd_add_right (Nat.dvd_mul_right w _)]
  constructor
  · intro full
    rw [full]
  · intro divides
    exact Nat.le_antisymm (Nat.mod_lt n hw) (Nat.le_of_dvd (Nat.succ_pos _) divides)

theorem wrap_concat {w : Nat} (hw : 0 < w) {line last : List α} {done : List (List α)}
    (split : wrap w line = done ++ [last]) (c : α) :
    wrap w (line ++ [c]) =
      if last.length + 1 = w then done ++ [last ++ [c], []] else done ++ [last ++ [c]] := by
  have below : line.length / w * w ≤ line.length := Nat.div_mul_le_self _ _
  rw [wrap_eq hw] at split
  obtain ⟨rfl, rfl⟩ := append_singleton_inj.mp split
  -- the complete rows do not see the new character
  have kept : (range (line.length / w)).map (fun k => ((line ++ [c]).drop (k * w)).take w) =
      (range (line.length / w)).map (fun k => (line.drop (k * w)).take w) := by
    apply map_congr_left
    intro k hk
    have inside : (k + 1) * w ≤ line.length :=
      (Nat.mul_le_mul_right w (mem_range.mp hk)).trans below
    rw [Nat.add_one_mul] at inside
    rw [drop_append_of_le_length (by omega), take_append_of_le_length]
    rw [length_drop]
    omega
  have length : (line.drop (line.length / w * w)).length + 1 = w ↔ w ∣ line.length + 1 := by
    rw [length_drop, ← Nat.mod_eq_sub_div_mul]
    exact mod_succ_eq_iff hw
  rw [wrap_eq hw, length_append, length_singleton, Nat.succ_div]
  by_cases full : w ∣ line.length + 1
  · have whole : (line.length / w + 1) * w = line.length + 1 := by
      rw [← Nat.div_mul_cancel full, Nat.succ_div_of_dvd full]
    have shown : ((line ++ [c]).drop (line.length / w * w)).take w =
        line.drop (line.length / w * w) ++ [c] := by
      rw [drop_append_of_le_length below, take_of_length_le]
      rw [length_append, length_singleton]
      exact (length.mpr full).le
    have nothing : (line ++ [c]).drop ((line.length / w + 1) * w) = [] := by
      rw [whole]
      exact drop_of_length_le (by simp)
    rw [if_pos full, if_pos (length.mpr full), range_succ, map_append, kept,
      map_singleton, shown, nothing, append_assoc]
    rfl
  · rw [if_neg full, if_neg (mt length.mp full), Nat.add_zero, kept,
      drop_append_of_le_length below]

/-- A character that does not break goes to the end of the last line. -/
theorem splitOnP_concat_of_not {p : α → Bool} {xs last : List α} {lines : List (List α)}
    (split : xs.splitOnP p = lines ++ [last]) {c : α} (hc : p c = false) :
    (xs ++ [c]).splitOnP p = lines ++ [last ++ [c]] := by
  induction xs generalizing lines last with
  | nil =>
    rw [splitOnP_nil, ← nil_append [[]]] at split
    obtain ⟨rfl, rfl⟩ := append_singleton_inj.mp split
    rw [nil_append, splitOnP_eq_singleton (by simpa using hc)]
    rfl
  | cons x xs ih =>
    rw [cons_append, splitOnP_cons_eq_if_modifyHead]
    rw [splitOnP_cons_eq_if_modifyHead] at split
    -- the lines of the rest
    obtain ⟨rest, end', parts⟩ : ∃ rest end', xs.splitOnP p = rest ++ [end'] :=
      ⟨_, _, (dropLast_append_getLast (splitOnP_ne_nil p xs)).symm⟩
    rw [ih parts]
    rw [parts] at split
    split_ifs at split ⊢ with breaks
    · rw [← cons_append] at split
      obtain ⟨rfl, rfl⟩ := append_singleton_inj.mp split
      rfl
    · cases rest with
      | nil =>
        change [] ++ [x :: end'] = _ at split
        obtain ⟨rfl, rfl⟩ := append_singleton_inj.mp split
        rfl
      | cons first rest =>
        change ((x :: first) :: rest) ++ [end'] = _ at split
        obtain ⟨rfl, rfl⟩ := append_singleton_inj.mp split
        rfl

section

theorem rows_eq_last_line (w : Nat) (breaks : α → Bool) (text : List α) : ∃ lines last,
    text.splitOnP breaks = lines ++ [last] ∧
    rows w breaks text = lines.flatMap (wrap w) ++ wrap w last := by
  obtain ⟨lines, last, parts⟩ : ∃ lines last, text.splitOnP breaks = lines ++ [last] :=
    ⟨_, _, (dropLast_append_getLast (splitOnP_ne_nil breaks text)).symm⟩
  refine ⟨lines, last, parts, ?_⟩
  rw [rows, parts, flatMap_append, flatMap_singleton]

variable {w : Nat} {breaks : α → Bool}

theorem rows_concat_of_breaks (text : List α) {c : α} (hc : breaks c) :
    rows w breaks (text ++ [c]) = rows w breaks text ++ [[]] := by
  rw [rows, splitOnP_append_cons text [] hc, flatMap_append, splitOnP_nil, flatMap_singleton]
  simp [rows, wrap]

theorem rows_concat_of_not (hw : 0 < w) {text last : List α} {done : List (List α)}
    (split : rows w breaks text = done ++ [last]) {c : α} (hc : breaks c = false) :
    rows w breaks (text ++ [c]) =
      if last.length + 1 = w then done ++ [last ++ [c], []] else done ++ [last ++ [c]] := by
  obtain ⟨lines, line, parts, all⟩ := rows_eq_last_line w breaks text
  obtain ⟨here, row, filled⟩ : ∃ here row, wrap w line = here ++ [row] := ⟨_, _, wrap_eq hw line⟩
  rw [split, filled, ← append_assoc] at all
  obtain ⟨rfl, rfl⟩ := append_singleton_inj.mp all
  rw [rows, splitOnP_concat_of_not parts hc, flatMap_append, flatMap_singleton, wrap_concat hw filled]
  split_ifs
  · rw [append_assoc]
  · rw [append_assoc]

/-- There is a row to be filled, and it has room. -/
theorem exists_rows_eq (breaks : α → Bool) (hw : 0 < w) (text : List α) :
    ∃ done last, rows w breaks text = done ++ [last] ∧ last.length < w := by
  obtain ⟨lines, line, -, all⟩ := rows_eq_last_line w breaks text
  rw [wrap_eq hw, ← append_assoc] at all
  refine ⟨_, _, all, ?_⟩
  rw [length_drop, ← Nat.mod_eq_sub_div_mul]
  exact Nat.mod_lt _ hw

end

/-! ## The last rows

A window on the last `n + 1` elements moves when an element comes in at its end. -/

theorem rtake_concat_of_lt {n : Nat} {l : List α} (room : l.length < n + 1) (x : α) :
    (l ++ [x]).rtake (n + 1) = l.rtake (n + 1) ++ [x] := by
  rw [rtake_concat_succ, rtake, rtake, Nat.sub_eq_zero_of_le (Nat.le_of_lt_succ room),
    Nat.sub_eq_zero_of_le room.le]

theorem rtake_concat_of_le {n : Nat} {l : List α} (full : n + 1 ≤ l.length) (x : α) :
    (l ++ [x]).rtake (n + 1) = (l.rtake (n + 1)).tail ++ [x] := by
  have moved : l.length - n = l.length - (n + 1) + 1 := by omega
  rw [rtake_concat_succ, rtake, rtake, moved, ← drop_one, drop_drop]

theorem length_rtake (l : List α) (n : Nat) : (l.rtake n).length = min n l.length := by
  rw [rtake, length_drop]
  omega

end Illinix.Lib
