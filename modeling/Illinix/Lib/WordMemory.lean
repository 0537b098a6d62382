import Mathlib.Logic.Function.Basic
import Mathlib.Algebra.Group.Nat.Defs

/-! # Bytes of a memory of words

The memory has a word of four bytes at each multiple of 4, the byte of the lowest address first.  `copy`
is the loop that copies a block of bytes in ascending order. -/

namespace Illinix.Lib.WordMemory

open Function

/-- The byte at an address. -/
def byteAt (mem : ℕ → ℕ) (a : ℕ) : ℕ := mem (a / 4 * 4) / 256 ^ (a % 4) % 256

/-- The word with another byte at place `k`. -/
def replaceByte (w k b : ℕ) : ℕ := w % 256 ^ k + b % 256 * 256 ^ k + w / 256 ^ (k + 1) * 256 ^ (k + 1)

def setByte (mem : ℕ → ℕ) (a b : ℕ) : ℕ → ℕ :=
  update mem (a / 4 * 4) (replaceByte (mem (a / 4 * 4)) (a % 4) b)

def copy (mem : ℕ → ℕ) (src dst n : ℕ) : ℕ → ℕ :=
  (List.range n).foldl (fun mem i => setByte mem (dst + i) (byteAt mem (src + i))) mem

theorem replaceByte_at (w b : ℕ) {j k : ℕ} (hj : j < 4) (hk : k < 4) :
    replaceByte w k b / 256 ^ j % 256 = if j = k then b % 256 else w / 256 ^ j % 256 := by
  unfold replaceByte
  have hj : j = 0 ∨ j = 1 ∨ j = 2 ∨ j = 3 := by omega
  have hk : k = 0 ∨ k = 1 ∨ k = 2 ∨ k = 3 := by omega
  rcases hj with rfl | rfl | rfl | rfl <;> rcases hk with rfl | rfl | rfl | rfl <;> split <;> omega

theorem byteAt_setByte (mem : ℕ → ℕ) (a b x : ℕ) :
    byteAt (setByte mem a b) x = if x = a then b % 256 else byteAt mem x := by
  unfold byteAt setByte
  by_cases same : x / 4 * 4 = a / 4 * 4
  · rw [same, update_self, replaceByte_at _ _ (Nat.mod_lt _ (by decide)) (Nat.mod_lt _ (by decide))]
    congr 1
    apply propext
    omega
  · have other : x ≠ a := by
      rintro rfl
      exact same rfl
    rw [update_of_ne same, if_neg other]

theorem byteAt_lt (mem : ℕ → ℕ) (a : ℕ) : byteAt mem a < 256 := Nat.mod_lt _ (by decide)

theorem byteAt_congr {mem mem' : ℕ → ℕ} {x : ℕ} (same : mem' (x / 4 * 4) = mem (x / 4 * 4)) :
    byteAt mem' x = byteAt mem x := by
  unfold byteAt
  rw [same]

section

variable {mem : ℕ → ℕ} {src dst n : ℕ}

theorem copy_succ : copy mem src dst (n + 1) =
    setByte (copy mem src dst n) (dst + n) (byteAt (copy mem src dst n) (src + n)) := by
  unfold copy
  rw [List.range_succ, List.foldl_append]
  rfl

theorem copy_word {a : ℕ} (aligned : 4 ∣ dst) (outside : a < dst ∨ dst + n ≤ a) :
    copy mem src dst n a = mem a := by
  induction n with
  | zero => rfl
  | succ n ih =>
    have other : a ≠ (dst + n) / 4 * 4 := by omega
    rw [copy_succ, setByte, update_of_ne other]
    exact ih (by omega)

theorem byteAt_copy_outside {x : ℕ} (outside : x < dst ∨ dst + n ≤ x) :
    byteAt (copy mem src dst n) x = byteAt mem x := by
  induction n with
  | zero => rfl
  | succ n ih =>
    rw [copy_succ, byteAt_setByte, if_neg (by omega)]
    exact ih (by omega)

/-- Blocks that do not overlap: the destination holds what the source held. -/
theorem byteAt_copy {i : ℕ} (apart : src + n ≤ dst ∨ dst + n ≤ src) (small : i < n) :
    byteAt (copy mem src dst n) (dst + i) = byteAt mem (src + i) := by
  induction n with
  | zero => omega
  | succ n ih =>
    rw [copy_succ, byteAt_setByte]
    by_cases last : i = n
    · subst last
      rw [if_pos rfl, Nat.mod_eq_of_lt (byteAt_lt ..)]
      exact byteAt_copy_outside (by omega)
    · rw [if_neg (by omega)]
      exact ih (by omega) (by omega)

end

end Illinix.Lib.WordMemory
