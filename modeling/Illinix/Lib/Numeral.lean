import Mathlib.Data.Nat.Digits.Lemmas

/-! # Numerals

Lists of digits with the most significant digit first, as a number is written.  Mathlib's `Nat.digits` is the
same list from the other end. -/

namespace Illinix.Lib

open List

variable {b v : ℕ} {ds : List ℕ}

/-- The digits denote the number `v` in base `b`. -/
structure Spells (b v : ℕ) (ds : List ℕ) : Prop where
  digits : ∀ d ∈ ds, d < b
  value : Nat.ofDigits b ds.reverse = v

/-- The canonical way to write `v`: only the number 0 starts with the digit 0. -/
structure IsNumeral (b v : ℕ) (ds : List ℕ) : Prop extends Spells b v ds where
  nonempty : ds ≠ []
  leading : ds.head? = some 0 → ds = [0]

def numeral (b v : ℕ) : List ℕ := if v = 0 then [0] else (Nat.digits b v).reverse

@[simp] theorem numeral_zero (b : ℕ) : numeral b 0 = [0] := rfl

theorem numeral_of_ne_zero (b : ℕ) (nonzero : v ≠ 0) : numeral b v = (Nat.digits b v).reverse := if_neg nonzero

theorem isNumeral_numeral (base : 1 < b) (v : ℕ) : IsNumeral b v (numeral b v) := by
  by_cases zero : v = 0
  · subst zero
    refine ⟨⟨?_, by simp⟩, by simp, fun _ => rfl⟩
    intro d mem
    rw [numeral_zero, mem_singleton] at mem
    omega
  · rw [numeral_of_ne_zero b zero]
    have nonempty : Nat.digits b v ≠ [] := Nat.digits_ne_nil_iff_ne_zero.mpr zero
    refine ⟨⟨?_, ?_⟩, by simpa using nonempty, ?_⟩
    · intro d mem
      exact Nat.digits_lt_base base (mem_reverse.mp mem)
    · rw [reverse_reverse, Nat.ofDigits_digits]
    · intro first
      rw [head?_reverse, getLast?_eq_some_getLast nonempty, Option.some_inj] at first
      exact absurd first (Nat.getLast_digit_ne_zero b zero)

theorem length_numeral_le (base : 1 < b) {k : ℕ} (positive : 0 < k) (small : v < b ^ k) :
    (numeral b v).length ≤ k := by
  by_cases zero : v = 0
  · subst zero
    exact positive
  · rw [numeral_of_ne_zero b zero, length_reverse]
    exact (Nat.digits_length_le_iff base v).mpr small

theorem Spells.pad (spells : Spells b v ds) (base : 0 < b) (k : ℕ) : Spells b v (List.replicate k 0 ++ ds) where
  digits d mem := by
    cases mem_append.mp mem with
    | inl zeros => rw [eq_of_mem_replicate zeros]; exact base
    | inr digit => exact spells.digits d digit
  value := by
    rw [reverse_append, reverse_replicate, Nat.ofDigits_append_replicate_zero]
    exact spells.value

/-- Reading the digits from the first to the last one. -/
theorem foldl_digits (b : ℕ) (ds : List ℕ) (acc : ℕ) :
    ds.foldl (fun n d => n * b + d) acc = acc * b ^ ds.length + Nat.ofDigits b ds.reverse := by
  induction ds generalizing acc with
  | nil => simp
  | cons d ds ih =>
    rw [foldl_cons, ih, Nat.ofDigits_reverse_cons, length_cons]
    ring

theorem Spells.foldl (spells : Spells b v ds) : ds.foldl (fun n d => n * b + d) 0 = v := by
  rw [foldl_digits, spells.value, Nat.zero_mul, Nat.zero_add]

end Illinix.Lib
