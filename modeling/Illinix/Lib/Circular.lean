import Mathlib.Data.Fin.Basic
import Mathlib.Data.List.Basic
import Mathlib.Data.Nat.ModEq

/-! # Circular buffers

`n` cells indexed by `Fin n`; the queue of `count` elements from `head` on is `contents`.
Each operation on head, count and cells is an operation on that list. -/

namespace Illinix.Lib.Circular

open List Function

variable {α : Type*} {n : ℕ} [NeZero n]

/-- The cell `i` places after `head`. -/
def index (head : Fin n) (i : ℕ) : Fin n := Fin.ofNat n (head + i)

@[simp] theorem index_zero (head : Fin n) : index head 0 = head := by
  simp [index]

theorem index_index (head : Fin n) (i j : ℕ) : index (index head i) j = index head (i + j) := by
  apply Fin.ext
  simp only [index, Fin.val_ofNat, Nat.mod_add_mod, Nat.add_assoc]

/-- Places less than one round apart are different cells. -/
theorem index_injOn {head : Fin n} {i j : ℕ} (hi : i < n) (hj : j < n)
    (same : index head i = index head j) : i = j := by
  have vals : (head + i) % n = (head + j) % n := congrArg Fin.val same
  have congr := Nat.ModEq.add_left_cancel' (head : ℕ) vals
  exact Nat.ModEq.eq_of_lt_of_lt congr hi hj

theorem index_wrap (head : Fin n) (i : ℕ) : index head (n + i) = index head i := by
  apply Fin.ext
  simp [index, Nat.add_left_comm]

def contents (cells : Fin n → α) (head : Fin n) (count : ℕ) : List α :=
  (List.range count).map fun i => cells (index head i)

section

variable (cells : Fin n → α) (head : Fin n)

include cells head

@[simp] theorem length_contents (count : ℕ) : (contents cells head count).length = count := by
  simp [contents]

theorem contents_succ (count : ℕ) :
    contents cells head (count + 1) = cells head :: contents cells (index head 1) count := by
  simp only [contents, range_succ_eq_map, map_cons, index_zero, map_map, index_index]
  congr 2
  funext i
  simp [Nat.add_comm]

theorem take_contents {k count : ℕ} (le : k ≤ count) :
    (contents cells head count).take k = contents cells head k := by
  rw [contents, ← map_take, take_range, Nat.min_eq_left le, contents]

theorem drop_contents (k count : ℕ) :
    (contents cells head (k + count)).drop k = contents cells (index head k) count := by
  induction k generalizing head with
  | zero => simp
  | succ k ih =>
    rw [Nat.succ_add, contents_succ, drop_succ_cons, ih, index_index, Nat.add_comm 1 k]

theorem contents_push {count : ℕ} (room : count < n) (a : α) :
    contents (update cells (index head count) a) head (count + 1) =
      contents cells head count ++ [a] := by
  have kept : ∀ i ∈ range count,
      update cells (index head count) a (index head i) = cells (index head i) := by
    intro i hi
    rw [mem_range] at hi
    apply update_of_ne
    intro same
    have := index_injOn (Nat.lt_trans hi room) room same
    omega
  rw [contents, range_succ, map_append, map_singleton, update_self]
  congr 1
  exact map_congr_left kept

/-- On a full buffer the cell after the queue is its head: a store there replaces the oldest
    element by a newest one. -/
theorem contents_push_full (a : α) :
    contents (update cells head a) (index head 1) n = (contents cells head n).tail ++ [a] := by
  obtain ⟨m, rfl⟩ : ∃ m, n = m + 1 := Nat.exists_eq_succ_of_ne_zero (NeZero.ne n)
  have after : index (index head 1) m = head := by
    rw [index_index, Nat.add_comm 1 m]
    exact (index_wrap head 0).trans (index_zero head)
  have push := contents_push cells (index head 1) (Nat.lt_succ_self m) a
  rw [after] at push
  rw [push, contents_succ, tail_cons]

end

end Illinix.Lib.Circular
