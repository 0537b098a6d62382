import Mathlib.Tactic.Common

/-! # Runs of a labelled transition system

`Run step s events t` is the sequence of transitions that consumes `events` from
left to right.  A property of every reachable state is proved by `Run.invariant`:
it holds at the start and one step preserves it. -/

namespace Illinix.Lib

variable {σ ε : Type*}

inductive Run (step : σ → ε → σ → Prop) : σ → List ε → σ → Prop where
  | nil (s : σ) : Run step s [] s
  | cons {s t u : σ} {e : ε} {events : List ε} :
      step s e t → Run step t events u → Run step s (e :: events) u

namespace Run

variable {step : σ → ε → σ → Prop}

/-- A property kept by each step is kept by each run. -/
theorem invariant {Inv : σ → Prop} (preserved : ∀ s e t, Inv s → step s e t → Inv t)
    {s t : σ} {events : List ε} (run : Run step s events t) (initial : Inv s) : Inv t := by
  induction run with
  | nil => exact initial
  | cons hstep _ ih => exact ih (preserved _ _ _ initial hstep)

/-- The relational form: a preorder that contains every step from a state with the
    invariant relates the two ends of a run. -/
theorem relates {Inv : σ → Prop} {Rel : σ → σ → Prop} (preserved : ∀ s e t, Inv s → step s e t → Inv t)
    (refl : ∀ s, Rel s s) (trans : ∀ s t u, Rel s t → Rel t u → Rel s u)
    (related : ∀ s e t, Inv s → step s e t → Rel s t)
    {s t : σ} {events : List ε} (run : Run step s events t) (initial : Inv s) : Rel s t := by
  induction run with
  | nil => exact refl _
  | cons hstep _ ih =>
    exact trans _ _ _ (related _ _ _ initial hstep) (ih (preserved _ _ _ initial hstep))

theorem append {s t u : σ} {first second : List ε} (left : Run step s first t) (right : Run step t second u) :
    Run step s (first ++ second) u := by
  induction left with
  | nil => exact right
  | cons hstep _ ih => exact .cons hstep (ih right)

theorem snoc {s t u : σ} {e : ε} {events : List ε}
    (run : Run step s events t) (last : step t e u) : Run step s (events ++ [e]) u :=
  run.append (.cons last (.nil u))

end Run

section

variable (Guard : σ → ε → Prop) [∀ s e, Decidable (Guard s e)] (exec : σ → ε → Option σ)

/-- Executes the events as long as each passes the guard. -/
def attempt (s : σ) (events : List ε) : Option σ :=
  events.foldlM (fun s e => if Guard s e then exec s e else none) s

variable {Guard exec}

/-- An attempt that ends in a state with a property shows a run to such a state. -/
theorem exists_run (step : σ → ε → σ → Prop)
    (sound : ∀ s e t, Guard s e → exec s e = some t → step s e t) {test : σ → Bool} {s : σ}
    {events : List ε} (found : (attempt Guard exec s events).any test = true) :
    ∃ t, Run step s events t ∧ test t = true := by
  induction events generalizing s with
  | nil => exact ⟨s, .nil s, found⟩
  | cons e events ih =>
    rw [attempt, List.foldlM_cons] at found
    split at found
    · next pass =>
      cases done : exec s e with
      | none =>
        rw [done] at found
        cases found
      | some u =>
        rw [done] at found
        obtain ⟨t, run, passed⟩ := ih found
        exact ⟨t, .cons (sound s e u pass done) run, passed⟩
    · cases found

end

end Illinix.Lib
