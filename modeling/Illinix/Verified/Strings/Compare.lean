import Illinix.User.Stdio
import Illinix.Verified.Vfs.Names
import Mathlib.Data.Nat.Find

/-! # Comparing strings

The loop of `strcmp` ends with the shorter string, and the strings count as equal there.  This is right for two
strings that differ in front of both ends, and for a string and itself; a proper prefix is not told from the
longer string. -/

namespace Illinix.Verified.Strings

open Kernel (CString charDiff strcmpFrom strncmpFrom)
open Verified.Vfs (charDiff_eq_zero strcmpFrom_eq_zero)

/-! ## What a comparison is for -/

/-- Both strings have a character at `i`, the first one in which they differ. -/
structure FirstDifference (s1 s2 : CString) (i : ℕ) : Prop where
  inside1 : i < s1.len
  inside2 : i < s2.len
  before : ∀ j < i, s1.bytes j = s2.bytes j
  differ : s1.bytes i ≠ s2.bytes i

def ProperPrefix (s1 s2 : CString) : Prop := s1.chars <+: s2.chars ∧ s1.chars ≠ s2.chars

/-- `r` is a result of comparing `s1` to `s2`. -/
structure Compares (s1 s2 : CString) (r : ℤ) : Prop where
  equal : r = 0 ↔ s1.chars = s2.chars
  differ : ∀ i, FirstDifference s1 s2 i → r.sign = (charDiff (s1.bytes i) (s2.bytes i)).sign
  less : ProperPrefix s1 s2 → r < 0
  greater : ProperPrefix s2 s1 → 0 < r

/-- The pair of a `strcmp` and a `strncmp` orders the two strings. -/
structure Orders (strcmp : CString → CString → ℤ) (strncmp : (ℕ → UInt8) → (ℕ → UInt8) → ℕ → ℤ)
    (s1 s2 : CString) : Prop where
  compares : Compares s1 s2 (strcmp s1 s2)
  opposite : (strcmp s1 s2).sign = -(strcmp s2 s1).sign
  bounded : ∀ n, s1.len < n → s2.len < n → strcmp s1 s2 = strncmp s1.bytes s2.bytes n

/-! ## Where two strings differ -/

section

variable {s1 s2 : CString}

/-- The strings do not differ up to the end of the shorter one. -/
def Agree (s1 s2 : CString) : Prop := ∀ j < s1.len, j < s2.len → s1.bytes j = s2.bytes j

theorem Agree.symm (agree : Agree s1 s2) : Agree s2 s1 := fun j short2 short1 => (agree j short1 short2).symm

theorem length_chars (s : CString) : s.chars.length = s.len := by
  simp [CString.chars]

theorem chars_prefix_iff : s1.chars <+: s2.chars ↔ s1.len ≤ s2.len ∧ Agree s1 s2 := by
  rw [List.prefix_iff_getElem]
  simp only [length_chars]
  constructor
  · rintro ⟨short, same⟩
    refine ⟨short, fun j short1 _ => ?_⟩
    simpa [CString.chars] using same j short1
  · rintro ⟨short, agree⟩
    refine ⟨short, fun j short1 => ?_⟩
    simpa [CString.chars] using agree j short1 (by omega)

/-- Strings that agree are equal, or one of them is a proper prefix. -/
theorem Agree.chars_eq (agree : Agree s1 s2) (notLess : ¬ ProperPrefix s1 s2) (notGreater : ¬ ProperPrefix s2 s1) :
    s1.chars = s2.chars := by
  by_contra differ
  cases Nat.le_total s1.len s2.len with
  | inl short => exact notLess ⟨chars_prefix_iff.mpr ⟨short, agree⟩, differ⟩
  | inr short => exact notGreater ⟨chars_prefix_iff.mpr ⟨short, agree.symm⟩, Ne.symm differ⟩

theorem agree_of_chars_eq (equal : s1.chars = s2.chars) : Agree s1 s2 :=
  (chars_prefix_iff.mp (equal ▸ List.prefix_refl _)).2

theorem FirstDifference.symm {i : ℕ} (first : FirstDifference s1 s2 i) : FirstDifference s2 s1 i :=
  ⟨first.inside2, first.inside1, fun j before => (first.before j before).symm, Ne.symm first.differ⟩

theorem FirstDifference.unique {i j : ℕ} (here : FirstDifference s1 s2 i) (there : FirstDifference s1 s2 j) :
    i = j := by
  cases Nat.lt_trichotomy i j with
  | inl less => exact absurd (there.before i less) here.differ
  | inr rest =>
    cases rest with
    | inl equal => exact equal
    | inr greater => exact absurd (here.before j greater) there.differ

theorem FirstDifference.not_agree {i : ℕ} (first : FirstDifference s1 s2 i) : ¬ Agree s1 s2 :=
  fun agree => first.differ (agree i first.inside1 first.inside2)

theorem exists_firstDifference (differ : ¬ Agree s1 s2) : ∃ i, FirstDifference s1 s2 i := by
  classical
  have some : ∃ i, i < s1.len ∧ i < s2.len ∧ s1.bytes i ≠ s2.bytes i := by
    unfold Agree at differ
    push Not at differ
    exact differ
  obtain ⟨inside1, inside2, here⟩ := Nat.find_spec some
  refine ⟨Nat.find some, inside1, inside2, fun j before => ?_, here⟩
  by_contra earlier
  exact Nat.find_min some before ⟨by omega, by omega, earlier⟩

end

/-! ## The loops -/

section

variable {s1 s2 : CString} {i : ℕ}

theorem charDiff_neg (a b : UInt8) : charDiff b a = -charDiff a b := by
  unfold charDiff
  omega

theorem strcmpFrom_firstDifference (first : FirstDifference s1 s2 i) {k fuel : ℕ} (start : k ≤ i)
    (enough : i < k + fuel) :
    strcmpFrom s1.bytes s2.bytes k fuel = charDiff (s1.bytes i) (s2.bytes i) := by
  induction fuel generalizing k with
  | zero => omega
  | succ fuel ih =>
    have both : s1.bytes k ≠ 0 ∧ s2.bytes k ≠ 0 :=
      ⟨s1.body k (by have := first.inside1; omega), s2.body k (by have := first.inside2; omega)⟩
    rw [strcmpFrom, if_pos both]
    by_cases here : k = i
    · rw [here, if_pos first.differ]
    · have same := first.before k (by omega)
      rw [if_neg (fun differ => differ same)]
      exact ih (by omega) (by omega)

theorem strncmpFrom_firstDifference (first : FirstDifference s1 s2 i) {k n : ℕ} (start : k ≤ i) (enough : i < k + n) :
    strncmpFrom s1.bytes s2.bytes k n = charDiff (s1.bytes i) (s2.bytes i) := by
  induction n generalizing k with
  | zero => omega
  | succ n ih =>
    rw [strncmpFrom]
    by_cases here : k = i
    · rw [here, if_pos (.inl first.differ)]
    · have same := first.before k (by omega)
      have more : s1.bytes k ≠ 0 := s1.body k (by have := first.inside1; omega)
      rw [if_neg (fun stop => stop.elim (fun differ => differ same) more)]
      exact ih (by omega) (by omega)

/-- Without a difference, the loop of `strncmp` ends at the NUL of both strings. -/
theorem strncmpFrom_same (same : ∀ j ≤ s1.len, s1.bytes j = s2.bytes j) {k n : ℕ} (start : k ≤ s1.len) :
    strncmpFrom s1.bytes s2.bytes k n = 0 := by
  induction n generalizing k with
  | zero => rfl
  | succ n ih =>
    rw [strncmpFrom]
    split
    · exact charDiff_eq_zero.mpr (same k start)
    · next go =>
      have more : k ≠ s1.len := fun ended => go (.inr (ended ▸ s1.nul))
      exact ih (by omega)

theorem strcmp_eq_zero : Kernel.strcmp s1 s2 = 0 ↔ Agree s1 s2 := by
  unfold Kernel.strcmp
  rw [strcmpFrom_eq_zero (Nat.zero_le _) (Nat.zero_le _)]
  constructor
  · intro all j short1 short2
    exact all j (Nat.zero_le _) (by omega) short1 short2
  · intro agree j _ _ short1 short2
    exact agree j short1 short2

theorem strcmp_firstDifference (first : FirstDifference s1 s2 i) :
    Kernel.strcmp s1 s2 = charDiff (s1.bytes i) (s2.bytes i) :=
  strcmpFrom_firstDifference first (Nat.zero_le _) (by have := first.inside1; omega)

end

/-! ## The order -/

section

variable {s1 s2 : CString}

theorem orders_of_chars_eq (equal : s1.chars = s2.chars) : Orders Kernel.strcmp Kernel.strncmp s1 s2 := by
  have agree := agree_of_chars_eq equal
  have zero : Kernel.strcmp s1 s2 = 0 := strcmp_eq_zero.mpr agree
  have back : Kernel.strcmp s2 s1 = 0 := strcmp_eq_zero.mpr agree.symm
  have len : s1.len = s2.len := by rw [← length_chars s1, ← length_chars s2, equal]
  have same : ∀ j ≤ s1.len, s1.bytes j = s2.bytes j := by
    intro j inside
    by_cases last : j = s1.len
    · rw [last, s1.nul, len, s2.nul]
    · exact agree j (by omega) (by omega)
  refine ⟨⟨iff_of_true zero equal, ?_, ?_, ?_⟩, by rw [zero, back]; rfl, ?_⟩
  · exact fun i first => absurd agree first.not_agree
  · exact fun shorter => absurd equal shorter.2
  · exact fun longer => absurd equal.symm longer.2
  · intro n _ _
    rw [zero]
    exact (strncmpFrom_same same (Nat.zero_le _)).symm

theorem orders_of_firstDifference {i : ℕ} (first : FirstDifference s1 s2 i) :
    Orders Kernel.strcmp Kernel.strncmp s1 s2 := by
  have value := strcmp_firstDifference first
  have back := strcmp_firstDifference first.symm
  have nonzero : Kernel.strcmp s1 s2 ≠ 0 := fun zero => first.not_agree (strcmp_eq_zero.mp zero)
  have unequal : s1.chars ≠ s2.chars := fun equal => first.not_agree (agree_of_chars_eq equal)
  refine ⟨⟨iff_of_false nonzero unequal, ?_, ?_, ?_⟩, ?_, ?_⟩
  · intro j other
    rw [value, other.unique first]
  · exact fun shorter => absurd (chars_prefix_iff.mp shorter.1).2 first.not_agree
  · exact fun longer => absurd (chars_prefix_iff.mp longer.1).2 first.symm.not_agree
  · rw [value, back, charDiff_neg, Int.sign_neg]
  · intro n long1 _
    rw [value]
    exact (strncmpFrom_firstDifference first (Nat.zero_le _) (by have := first.inside1; omega)).symm

/-- A proper prefix and the longer string agree, so that the result is 0. -/
theorem not_orders_of_agree (agree : Agree s1 s2) (unequal : s1.chars ≠ s2.chars) :
    ¬ Orders Kernel.strcmp Kernel.strncmp s1 s2 :=
  fun orders => unequal (orders.compares.equal.mp (strcmp_eq_zero.mpr agree))

theorem orders_iff : Orders Kernel.strcmp Kernel.strncmp s1 s2 ↔ ¬ ProperPrefix s1 s2 ∧ ¬ ProperPrefix s2 s1 := by
  constructor
  · intro orders
    constructor
    · intro shorter
      exact not_orders_of_agree (chars_prefix_iff.mp shorter.1).2 shorter.2 orders
    · intro longer
      exact not_orders_of_agree (chars_prefix_iff.mp longer.1).2.symm (Ne.symm longer.2) orders
  · rintro ⟨notLess, notGreater⟩
    by_cases agree : Agree s1 s2
    · exact orders_of_chars_eq (agree.chars_eq notLess notGreater)
    · obtain ⟨i, first⟩ := exists_firstDifference agree
      exact orders_of_firstDifference first

end

/-- The comparisons of the kernel and of the user library order two strings exactly if neither of them is a proper
    prefix of the other. -/
theorem strcmp_orders_iff (s1 s2 : CString) :
    (Orders Kernel.strcmp Kernel.strncmp s1 s2 ↔ ¬ ProperPrefix s1 s2 ∧ ¬ ProperPrefix s2 s1) ∧
    (Orders User.strcmp User.strncmp s1 s2 ↔ ¬ ProperPrefix s1 s2 ∧ ¬ ProperPrefix s2 s1) :=
  ⟨orders_iff, orders_iff⟩

/-- `c` -/
def shortName : CString := .lit [99] (by decide)

/-- `cd`, the name that `bsh` looks for -/
def cdName : CString := .lit [99, 100] (by decide)

/-- A command `c` is the builtin `cd` for `strcmp`, though `strncmp` tells them apart. -/
theorem strcmp_takes_c_for_cd :
    Kernel.strcmp shortName cdName = 0 ∧ User.strcmp shortName cdName = 0 ∧ shortName.chars ≠ cdName.chars ∧
      Kernel.strncmp shortName.bytes cdName.bytes 3 = -100 ∧
      ¬ Orders Kernel.strcmp Kernel.strncmp shortName cdName ∧ ¬ Orders User.strcmp User.strncmp shortName cdName := by
  have equal : Kernel.strcmp shortName cdName = 0 := by decide
  have unequal : shortName.chars ≠ cdName.chars := by decide
  have wrong := not_orders_of_agree (strcmp_eq_zero.mp equal) unequal
  exact ⟨equal, equal, unequal, by decide, wrong, wrong⟩

end Illinix.Verified.Strings
