import Illinix.Lib.Except

/-! # Programs with a state and faults

Partial correctness of a program that changes a state and may end in a fault: rules for each way to build such a
program. -/

namespace Illinix.Lib

universe u

variable {σ ε α β : Type u} {P Q : σ → Prop} {R : α → σ → Prop} {S : β → σ → Prop}
variable {x : StateT σ (Except ε) α}

/-- Whenever the program starts in a state with `P` and ends without a fault, its result and the last state have
    `R`. -/
structure Ensures (P : σ → Prop) (x : StateT σ (Except ε) α) (R : α → σ → Prop) : Prop where
  ends : ∀ s a s', P s → x s = .ok (a, s') → R a s'

theorem Ensures.bind {f : α → StateT σ (Except ε) β} (first : Ensures P x R)
    (rest : ∀ a, Ensures (R a) (f a) S) : Ensures P (x >>= f) S := by
  constructor
  intro s b s' start done
  obtain ⟨⟨a, t⟩, before, after⟩ := bind_eq_ok.mp done
  exact (rest a).ends t b s' (first.ends s a t start before) after

theorem Ensures.seq {f : α → StateT σ (Except ε) β}
    (first : Ensures P x fun _ => Q) (rest : ∀ a, Ensures Q (f a) S) : Ensures P (x >>= f) S := first.bind rest

theorem Ensures.pure {a : α} (holds : ∀ s, P s → R a s) : Ensures P (pure a : StateT σ (Except ε) α) R := by
  constructor
  intro s b s' start done
  cases done
  exact holds s start

theorem Ensures.get : Ensures P (MonadState.get : StateT σ (Except ε) σ) fun _ => P := by
  constructor
  intro s a s' start done
  cases done
  exact start

theorem Ensures.ite {c : Prop} [Decidable c] {y : StateT σ (Except ε) α} (yes : c → Ensures P x R)
    (no : ¬ c → Ensures P y R) : Ensures P (if c then x else y) R := by
  split
  · next h => exact yes h
  · next h => exact no h

theorem Ensures.weaken {R' : α → σ → Prop} (ensures : Ensures P x R)
    (weaker : ∀ a s, R a s → R' a s) : Ensures P x R' :=
  ⟨fun s a s' start done => weaker a s' (ensures.ends s a s' start done)⟩

end Illinix.Lib
