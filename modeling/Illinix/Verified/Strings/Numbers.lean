import Illinix.Lib.Numeral
import Illinix.User.Stdio
import Illinix.Verified.Process.Arguments

/-! # Numbers as text

`itoa` writes the digits of a number from the last to the first one and reverses them in place.  The two libraries
differ in the type of an index of `strrev` only, so everything above it is proved for any function that reverses a
string. -/

namespace Illinix.Verified.Strings

open Kernel Lib List
open User (atoi atoiLoop)
open Verified.Process (strlen_append)

/-! ## Digits -/

section

/-- The character of a digit, `0 .. 9` and then `A .. Z` -/
def digitChar (d : ℕ) : UInt8 := if d < 10 then .ofNat (48 + d) else .ofNat (55 + d)

theorem lookup_getD : ∀ d < 36, lookup.getD d 0 = digitChar d := by decide

theorem digitChar_ne_zero : ∀ d < 36, digitChar d ≠ 0 := by decide

theorem digitChar_ne_minus : ∀ d < 36, digitChar d ≠ 45 := by decide

/-- How `atoi` reads a digit. -/
theorem digitChar_decimal : ∀ d < 10, (48 ≤ (digitChar d).toInt8 ∧ (digitChar d).toInt8 ≤ 57) ∧
      (digitChar d).toInt8.toInt32 - 48 = Int32.ofNat d := by decide

variable {b v : ℕ} {ds : List ℕ}

theorem zero_notMem_digitChars (base : b ≤ 36) (digits : ∀ d ∈ ds, d < b) : 0 ∉ ds.map digitChar := by
  intro mem
  obtain ⟨d, inside, zero⟩ := mem_map.mp mem
  exact digitChar_ne_zero d (Nat.lt_of_lt_of_le (digits d inside) base) zero

end

/-! ## Strings in a buffer -/

section

theorem puts_append {text : List UInt8} (nul : 0 ∉ text) (rest : List UInt8) : puts (text ++ 0 :: rest) = .ok text := by
  induction text with
  | nil => rfl
  | cons c text ih =>
    rw [mem_cons, not_or] at nul
    rw [cons_append, puts, if_neg (Ne.symm nul.1), ih nul.2]
    rfl

theorem strrevLoop_turn (fuel : ℕ) (pre mid post : List UInt8) (a b : UInt8) :
    strrevLoop (fuel + 1) (pre ++ a :: (mid ++ [b]) ++ post) pre.length (pre.length + (a :: (mid ++ [b])).length - 1) =
      strrevLoop fuel ((pre ++ [b]) ++ mid ++ a :: post) (pre ++ [b]).length
        ((pre ++ [b]).length + mid.length - 1) := by
  have last : pre.length + (a :: (mid ++ [b])).length - 1 = (pre ++ a :: mid).length := by
    simp
  have low : (pre ++ a :: (mid ++ [b]) ++ post)[pre.length]? = some a := by simp
  have high : (pre ++ a :: (mid ++ [b]) ++ post)[(pre ++ a :: mid).length]? = some b := by
    simp
  have swapped : ((pre ++ a :: (mid ++ [b]) ++ post).set (pre ++ a :: mid).length a).set pre.length b =
      (pre ++ [b]) ++ mid ++ a :: post := by
    simp
  rw [last, strrevLoop, if_pos (by simp), low, high]
  show strrevLoop fuel (((pre ++ a :: (mid ++ [b]) ++ post).set (pre ++ a :: mid).length a).set pre.length b)
    (pre.length + 1) ((pre ++ a :: mid).length - 1) = _
  rw [swapped]
  congr 1
  · simp
  · simp

theorem strrevLoop_reverse (pre mid post : List UInt8) {fuel : ℕ} (enough : mid.length < fuel) :
    strrevLoop fuel (pre ++ mid ++ post) pre.length (pre.length + mid.length - 1) =
      .ok (pre ++ mid.reverse ++ post) := by
  induction mid using bidirectionalRec generalizing pre post fuel with
  | nil =>
    obtain ⟨fuel, rfl⟩ := Nat.exists_eq_succ_of_ne_zero (Nat.ne_of_gt enough)
    rw [strrevLoop, if_neg (by simp)]
    rfl
  | singleton a =>
    obtain ⟨fuel, rfl⟩ := Nat.exists_eq_succ_of_ne_zero (Nat.ne_zero_of_lt enough)
    rw [strrevLoop, if_neg (by simp)]
    rfl
  | cons_append a mid b ih =>
    obtain ⟨fuel, rfl⟩ := Nat.exists_eq_succ_of_ne_zero (Nat.ne_zero_of_lt enough)
    rw [strrevLoop_turn, ih]
    · simp
    · simp at enough
      omega

/-- The function reverses a string that is not empty, up to its NUL. -/
def Reverses (strrev : List UInt8 → Except ArgFault (List UInt8)) : Prop :=
  ∀ text rest : List UInt8, 0 ∉ text → text ≠ [] → text.length < 2 ^ 32 →
    strrev (text ++ 0 :: rest) = .ok (text.reverse ++ 0 :: rest)

theorem strrevLoop_string (text rest : List UInt8) :
    strrevLoop (text ++ 0 :: rest).length (text ++ 0 :: rest) 0 (text.length - 1) =
      .ok (text.reverse ++ 0 :: rest) := by
  have enough : text.length < (text ++ 0 :: rest).length := by simp
  simpa using strrevLoop_reverse [] text (0 :: rest) enough

theorem strrev_reverses : Reverses Kernel.strrev := by
  intro text rest nul _ _
  unfold Kernel.strrev
  rw [strlen_append nul]
  exact strrevLoop_string text rest

/-- `end` does not wrap around, as the string is not empty. -/
theorem userStrrev_reverses : Reverses User.strrev := by
  intro text rest nul nonempty short
  have positive : 0 < text.length := length_pos_of_ne_nil nonempty
  unfold User.strrev
  rw [strlen_append nul, ok_bind]
  have index : sub32 text.length 1 = text.length - 1 := by
    unfold sub32
    omega
  rw [index]
  exact strrevLoop_string text rest

end

/-! ## `itoa` -/

section

/-- The text of a number, with the most significant digit first. -/
def numberText (radix v : ℕ) : List UInt8 := (numeral radix v).map digitChar

/-- The text is the canonical representation of `v`. -/
def Canonical (radix v : ℕ) (text : List UInt8) : Prop := ∃ ds, IsNumeral radix v ds ∧ text = ds.map digitChar

theorem zero_notMem_numberText {radix : ℕ} (base : 1 < radix) (top : radix ≤ 36) (v : ℕ) : 0 ∉ numberText radix v :=
  zero_notMem_digitChars top (isNumeral_numeral base v).digits

theorem length_numberText_le {radix v k : ℕ} (base : 1 < radix) (positive : 0 < k) (small : v < radix ^ k) :
    (numberText radix v).length ≤ k := by
  unfold numberText
  rw [length_map]
  exact length_numeral_le base positive small

variable {radix : UInt32}

/-- The loop writes the digits from the last one on, and the NUL. -/
theorem itoaLoop_digits (base : 1 < radix.toNat) (top : radix.toNat ≤ 36) {newval : UInt32} {newbuf : List UInt8}
    (room : (Nat.digits radix.toNat newval.toNat).length < newbuf.length) :
    itoaLoop radix newval newbuf = .ok ((Nat.digits radix.toNat newval.toNat).map digitChar ++
        0 :: newbuf.drop ((Nat.digits radix.toNat newval.toNat).length + 1)) := by
  induction newbuf generalizing newval with
  | nil => exact absurd room (Nat.not_lt_zero _)
  | cons c newbuf ih =>
    rw [itoaLoop]
    by_cases zero : newval = 0
    · subst zero
      simp
    · have positive : 0 < newval.toNat := Nat.pos_of_ne_zero fun h => zero (UInt32.toNat_inj.mp h)
      have digits : Nat.digits radix.toNat newval.toNat =
          newval.toNat % radix.toNat :: Nat.digits radix.toNat (newval / radix).toNat := by
        exact Nat.digits_def' base positive
      rw [digits, length_cons, length_cons] at room
      have digit : lookup.getD (newval % radix).toNat 0 = digitChar (newval.toNat % radix.toNat) := by
        rw [UInt32.toNat_mod]
        exact lookup_getD _ (Nat.lt_of_lt_of_le (Nat.mod_lt _ (by omega)) top)
      have more : newval > 0 := UInt32.lt_iff_toNat_lt.mpr (by simpa using positive)
      rw [if_pos more, ih (by omega), digits, digit]
      simp

/-- `itoa` leaves the text of the value and a NUL in the buffer, and nothing else changes. -/
theorem itoaWith_eq {strrev : List UInt8 → Except ArgFault (List UInt8)} (reverses : Reverses strrev)
    (base : 1 < radix.toNat) (top : radix.toNat ≤ 36) (value : UInt32) {buf : List UInt8}
    (room : (numberText radix.toNat value.toNat).length < buf.length) :
    itoaWith strrev value buf radix =
      .ok (numberText radix.toNat value.toNat ++ 0 :: buf.drop ((numberText radix.toNat value.toNat).length + 1)) := by
  unfold itoaWith
  by_cases zero : value = 0
  · subst zero
    match buf, room with
    | _ :: _ :: rest, _ => rfl
    | [_], room => exact absurd room (Nat.lt_irrefl _)
    | [], room => exact absurd room (Nat.not_lt_zero _)
  · have nonzero : value.toNat ≠ 0 := fun h => zero (UInt32.toNat_inj.mp h)
    have text : numberText radix.toNat value.toNat = ((Nat.digits radix.toNat value.toNat).map digitChar).reverse := by
      rw [numberText, numeral_of_ne_zero _ nonzero, map_reverse]
    have length : (numberText radix.toNat value.toNat).length = (Nat.digits radix.toNat value.toNat).length := by
      rw [text, length_reverse, length_map]
    have small : (Nat.digits radix.toNat value.toNat).length ≤ 32 := by
      apply (Nat.digits_length_le_iff base _).mpr
      exact Nat.lt_of_lt_of_le value.toNat_lt (Nat.pow_le_pow_left base 32)
    rw [if_neg zero, itoaLoop_digits base top (length ▸ room), ok_bind, reverses, ← text, length]
    · exact zero_notMem_digitChars top fun d mem => Nat.digits_lt_base base mem
    · simpa [Nat.digits_ne_nil_iff_ne_zero] using nonzero
    · rw [length_map]
      omega

end

/-! ## `atoi` -/

section

theorem atoiLoop_digits {ds : List ℕ} (digits : ∀ d ∈ ds, d < 10) (n : ℕ) (rest : List UInt8) :
    atoiLoop (.ofNat n) (ds.map digitChar ++ 0 :: rest) = .ok (.ofNat (ds.foldl (fun n d => n * 10 + d) n)) := by
  induction ds generalizing n with
  | nil => rfl
  | cons d ds ih =>
    have small : d < 10 := digits d mem_cons_self
    obtain ⟨range, value⟩ := digitChar_decimal d small
    have next : Int32.ofNat n * 10 + Int32.ofNat d = Int32.ofNat (n * 10 + d) := by
      rw [Int32.ofNat_add, Int32.ofNat_mul]
      rfl
    rw [map_cons, cons_append, atoiLoop, if_pos (digitChar_ne_zero d (by omega)), if_pos range, value, next]
    exact ih (fun d mem => digits d (mem_cons_of_mem _ mem)) _

theorem ofNat_toNat (x : UInt32) : Int32.ofNat x.toNat = x.toInt32 := by
  rw [← UInt32.toInt32_ofNat', UInt32.ofNat_toNat]

theorem atoiLoop_numberText (v : UInt32) (rest : List UInt8) :
    atoiLoop 0 (numberText 10 v.toNat ++ 0 :: rest) = .ok v.toInt32 := by
  have numeral := isNumeral_numeral (b := 10) (by decide) v.toNat
  have run := atoiLoop_digits numeral.digits 0 rest
  rw [numeral.foldl, ofNat_toNat] at run
  exact run

theorem atoi_numberText (v : UInt32) (rest : List UInt8) :
    atoi (numberText 10 v.toNat ++ 0 :: rest) = .ok v.toInt32 := by
  have run := atoiLoop_numberText v rest
  have numeral := isNumeral_numeral (b := 10) (by decide) v.toNat
  unfold numberText at run ⊢
  cases shape : Lib.numeral 10 v.toNat with
  | nil => exact absurd shape numeral.nonempty
  | cons d ds =>
    have small : d < 10 := numeral.digits d (shape ▸ mem_cons_self)
    rw [shape, map_cons, cons_append] at run
    rw [map_cons, cons_append, atoi, if_neg (digitChar_ne_minus d (by omega)), run]
    show Except.ok (1 * v.toInt32) = _
    rw [Int32.one_mul]

theorem atoi_minus_numberText (v : UInt32) (rest : List UInt8) :
    atoi (45 :: (numberText 10 v.toNat ++ 0 :: rest)) = .ok (-v.toInt32) := by
  rw [atoi, if_pos rfl, atoiLoop_numberText]
  show Except.ok (-1 * v.toInt32) = _
  rw [Int32.neg_mul, Int32.one_mul]

end

end Illinix.Verified.Strings
