import Illinix.Verified.Terminal.LineBuffer

/-! # Key events between the scan and the copy of `terminal_read`

The scan fixes `nread` with interrupts disabled; they are enabled again before the bytes are
copied and `nread` is subtracted from the size.  The call is sound when no key event in
between takes a character out of the part that will be read: a backspace must find more
characters than that, and an insertion must not find the buffer full. -/

namespace Illinix.Verified.Terminal

open Kernel Lib List Function

def KeyStep (m : Machine) (e : KeyEvent) (m' : Machine) : Prop := m' = keyExec m e

/-- The event leaves the first `count` characters of terminal `h` alone, if there are any. -/
def KeyCareful (h count : ℕ) (m : Machine) : KeyEvent → Prop
  | .type scancode caps h' =>
    h' = h → 0 < count → keyChar scancode caps ≠ 0 → (m.terminals h).size.toNat < terbufSize
  | .backspace h' => h' = h → 0 < count → count < (m.terminals h).size.toNat

def CarefulKeyStep (h count : ℕ) (m : Machine) (e : KeyEvent) (m' : Machine) : Prop :=
  KeyCareful h count m e ∧ KeyStep m e m'

/-- The call that found a line in `m` and copies it in `m'` has done what it is for. -/
structure ReadOk (m m' : Machine) (h nread nbytes : ℕ) : Prop where
  /-- the buffer is well formed when the copy starts, -/
  before : RingOk (m'.terminals h)
  /-- and when it is done; -/
  after : RingOk ((readFinish m' h nread nbytes).1.terminals h)
  /-- what was found is the first line, up to its newline, -/
  found : newline ∈ lines m h ∧ nread = (lines m h).idxOf newline + 1
  /-- and what is returned is that line, or its first `nbytes` bytes. -/
  bytes : (readFinish m' h nread nbytes).2 = (lines m h).take (min nbytes nread)

/-! ## The window -/

/-- The first `count` characters of terminal `h` are still those of `start`. -/
structure WindowInv (start : Machine) (h count : ℕ) (m : Machine) : Prop where
  ok : LinesOk m
  enough : count ≤ (lines m h).length
  kept : (lines m h).take count = (lines start h).take count

theorem KeyCareful.keeps {m : Machine} {h count : ℕ} {e : KeyEvent} (careful : KeyCareful h count m e)
    (enough : count ≤ (lines m h).length) :
    count ≤ (keyQueue (lines m) e h).length ∧
    (keyQueue (lines m) e h).take count = (lines m h).take count := by
  have size : (lines m h).length = (m.terminals h).size.toNat := length_line _
  rcases Nat.eq_zero_or_pos count with rfl | some
  · exact ⟨Nat.zero_le _, rfl⟩
  cases e with
  | type scancode caps h' =>
    unfold keyQueue
    by_cases none : keyChar scancode caps = 0
    · simp only [none, if_true]
      exact ⟨enough, trivial⟩
    · simp only [none, if_false]
      rcases eq_or_ne h h' with rfl | other
      · -- there is room, so the character goes behind the others
        have room : ¬ (lines m h).length = terbufSize := by
          have := careful rfl some none
          omega
        rw [update_self, pushChar, if_neg room, take_append_of_le_length enough]
        simp only [length_append]
        exact ⟨Nat.le_add_right_of_le enough, trivial⟩
      · rw [update_of_ne other]
        exact ⟨enough, rfl⟩
  | backspace h' =>
    unfold keyQueue
    rcases eq_or_ne h h' with rfl | other
    · have more : count < (m.terminals h).size.toNat := careful rfl some
      simp only [update_self]
      rw [length_dropLast, dropLast_eq_take, take_take, Nat.min_eq_left (by omega)]
      exact ⟨by omega, rfl⟩
    · simp only [update_of_ne other]
      exact ⟨enough, trivial⟩

theorem WindowInv.step {start m m' : Machine} {h count : ℕ} {e : KeyEvent}
    (inv : WindowInv start h count m) (step : CarefulKeyStep h count m e m') :
    WindowInv start h count m' := by
  obtain ⟨careful, done⟩ := step
  obtain ⟨ok, queue⟩ := inv.ok.keyExec e
  obtain ⟨enough, kept⟩ := careful.keeps inv.enough
  rw [← queue, ← done] at enough kept
  rw [← done] at ok
  exact ⟨ok, enough, kept.trans inv.kept⟩

/-- A scan that succeeds has found the first newline. -/
theorem LinesOk.scan_found {m : Machine} (ok : LinesOk m) {h nread : ℕ}
    (found : (m.terminals h).scan = (nread, true)) :
    newline ∈ lines m h ∧ nread = (lines m h).idxOf newline + 1 := by
  rw [scan_eq (ok h).2] at found
  split at found
  · next typed =>
    cases found
    exact ⟨typed, rfl⟩
  · cases found

/-- After any run of key events and reads, a `terminal_read` whose window holds only careful
    key events keeps the buffer well formed and returns the line it has found. -/
theorem read_window_ok {m0 m m' : Machine} {events : List LineEvent} {keys : List KeyEvent}
    {h nread nbytes : ℕ} (booted : LinesBooted m0) (before : Run LineStep m0 events m)
    (found : (m.terminals h).scan = (nread, true))
    (window : Run (CarefulKeyStep h (min nbytes nread)) m keys m') :
    ReadOk m m' h nread nbytes := by
  have ok := (LinesOk.run before booted.ok).1
  have line := ok.scan_found found
  have within := idxOf_lt_length_of_mem line.1
  have start : WindowInv m h (min nbytes nread) m := by
    constructor
    · exact ok
    · omega
    · rfl
  have inv := window.invariant (fun _ _ _ inv step => WindowInv.step inv step) start
  have enough : min nbytes nread ≤ (m'.terminals h).size.toNat := by
    have size : (lines m' h).length = (m'.terminals h).size.toNat := length_line _
    rw [← size]
    exact inv.enough
  obtain ⟨after, -, bytes⟩ := (inv.ok h).1.consume enough
  constructor
  · exact (inv.ok h).1
  · unfold readFinish
    rw [setTerminal_self]
    exact after
  · exact line
  · exact bytes.trans inv.kept

/-- The machine after `a` and Enter. -/
def typedLine : Machine :=
  keyExec (keyExec blankMachine (.type 0x1e false 0)) (.type 0x1c false 0)

theorem typedLine_run : Run LineStep blankMachine
    [.key (.type 0x1e false 0), .key (.type 0x1c false 0)] typedLine :=
  .cons rfl (.cons rfl (.nil _))

/-- The line is found and read while another character arrives. -/
theorem read_window_ok_typed :
    ∃ m, Run (CarefulKeyStep 0 2) typedLine [.type 0x30 false 0] m ∧ ReadOk typedLine m 0 2 128 := by
  have booted : LinesBooted blankMachine := fun h => ⟨blankTerminal, rfl⟩
  have room : (typedLine.terminals 0).size.toNat < terbufSize := by decide +kernel
  have window : Run (CarefulKeyStep 0 2) typedLine [.type 0x30 false 0] _ :=
    .cons ⟨fun _ _ _ => room, rfl⟩ (.nil _)
  exact ⟨_, window, read_window_ok booted typedLine_run (by decide +kernel) window⟩

/-- Two backspaces come between finding the line and copying it.  The size wraps round
    to 254. -/
theorem read_window_wraps :
    ∃ m, Run LineStep blankMachine
        [.key (.type 0x1e false 0), .key (.type 0x1c false 0)] typedLine ∧
      (typedLine.terminals 0).scan = (2, true) ∧
      Run KeyStep typedLine [.backspace 0, .backspace 0] m ∧
      ((readFinish m 0 2 128).1.terminals 0).size = 254 ∧ ¬ ReadOk typedLine m 0 2 128 := by
  have window : Run KeyStep typedLine [.backspace 0, .backspace 0]
      (keyExec (keyExec typedLine (.backspace 0)) (.backspace 0)) :=
    .cons rfl (.cons rfl (.nil _))
  have wrapped : ((readFinish (keyExec (keyExec typedLine (.backspace 0)) (.backspace 0))
      0 2 128).1.terminals 0).size = 254 := by
    decide +kernel
  refine ⟨_, typedLine_run, by decide +kernel, window, wrapped, fun ok => ?_⟩
  have bound := ok.after.bound
  exact absurd bound (by decide)

end Illinix.Verified.Terminal
