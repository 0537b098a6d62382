import Mathlib.Tactic.Common

/-! # Sequencing in `Except` -/

namespace Illinix.Lib

universe u v

variable {ε : Type u} {α β : Type v} {a : α} {x : Except ε α}

@[simp] theorem ok_bind (a : α) (f : α → Except ε β) : (Except.ok a >>= f) = f a := rfl

@[simp] theorem error_bind (e : ε) (f : α → Except ε β) : (Except.error e >>= f) = .error e := rfl

@[simp] theorem pure_eq_ok (a : α) : (pure a : Except ε α) = .ok a := rfl

@[simp] theorem throw_eq_error (e : ε) : (throw e : Except ε α) = .error e := rfl

theorem bind_eq_ok {f : α → Except ε β} {b : β} : (x >>= f) = .ok b ↔ ∃ a, x = .ok a ∧ f a = .ok b := by
  cases x with
  | error e => simp
  | ok a => simp

/-- The invariant of a loop over `0 .. n - 1`, which may depend on the index. -/
theorem foldlM_range_inv {P : Nat → α → Prop} {f : α → Nat → Except ε α} {n : Nat} {b : α}
    (start : P 0 a) (step : ∀ i a b, i < n → P i a → f a i = .ok b → P (i + 1) b)
    (done : (List.range n).foldlM f a = .ok b) : P n b := by
  induction n generalizing b with
  | zero =>
    cases done
    exact start
  | succ n ih =>
    rw [List.range_succ, List.foldlM_append] at done
    obtain ⟨c, before, last⟩ := bind_eq_ok.mp done
    obtain ⟨d, last, same⟩ := bind_eq_ok.mp last
    cases same
    exact step n c b (Nat.lt_succ_self n)
      (ih (fun i a b below => step i a b (Nat.lt_succ_of_lt below)) before) last

theorem toOption_eq_some : x.toOption = some a ↔ x = .ok a := by
  cases x with
  | error e => simp [Except.toOption]
  | ok b => simp [Except.toOption]

theorem mapError_eq_ok {ε' : Type*} {f : ε → ε'} : x.mapError f = .ok a ↔ x = .ok a := by
  cases x with
  | error e => simp [Except.mapError]
  | ok b => simp [Except.mapError]

/-- The computation succeeds with a value that passes the test. -/
def okAnd (x : Except ε α) (test : α → Bool) : Bool :=
  match x with
  | .ok a => test a
  | .error _ => false

theorem okAnd_iff {test : α → Bool} : okAnd x test = true ↔ ∃ a, x = .ok a ∧ test a = true := by
  cases x with
  | error e => simp [okAnd]
  | ok a => simp [okAnd]

end Illinix.Lib
