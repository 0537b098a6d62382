import Illinix.Verified.Terminal.Basic
import Illinix.Lib.Run

/-! # Whose line a process reads

`terminal_read` looks up its terminal once, through the console in the foreground.  Keys and
terminal switches can come at any time after that; the call stays with the terminal it has
found.  So a read takes its bytes from the caller's own terminal in every run where that
terminal is in the foreground when the call is made. -/

namespace Illinix.Verified.Terminal

open Kernel Lib Function
open Verified.Process (blankThread)

variable {h p scancode : ℕ} {m m' : Machine} {s s' : Readers}

/-- A call of `terminal_read` in its loop: the terminal, the limit, and the `nread` of the
    last pass. -/
structure Reader where
  terminal : ℕ
  nbytes : ℕ
  nread : Option ℕ

/-- The machine with the calls that have not returned, by process. -/
structure Readers extends Machine where
  reads : ℕ → Option Reader

/-- `scan` is one pass through the loop of the call by `p`; `finish` leaves the loop.  The flag
    `exit` belongs to the terminal, so another reader can end the loop before its first pass,
    and then `nread` is whatever the stack holds. -/
inductive ReadEvent where
  | key (scancode : UInt8)
  | start (p : ℕ) (fd nbytes : ℤ)
  | scan (p : ℕ)
  | finish (p junk : ℕ) (bytes : List UInt8)

def ReadStep (s : Readers) : ReadEvent → Readers → Prop
  | .key scancode, s' =>
    ∃ m, doKeyboard s.toMachine scancode = .ok m ∧ s' = { s with toMachine := m }
  | .start p fd nbytes, s' =>
    s.reads p = none ∧
    match readStart s.toMachine fd nbytes with
    | .returns _ => s' = s
    | .waits h nbytes =>
      s' = ⟨setExit s.toMachine h false, update s.reads p (some ⟨h, nbytes, none⟩)⟩
  | .scan p, s' =>
    ∃ r, s.reads p = some r ∧ (s.terminals r.terminal).exit = false ∧
      s' = ⟨(readScan s.toMachine r.terminal).1, update s.reads p
        (some { r with nread := some (readScan s.toMachine r.terminal).2 })⟩
  | .finish p junk bytes, s' =>
    ∃ r, s.reads p = some r ∧ (s.terminals r.terminal).exit = true ∧
      bytes = (readFinish s.toMachine r.terminal (r.nread.getD junk) r.nbytes).2 ∧
      s' = ⟨(readFinish s.toMachine r.terminal (r.nread.getD junk) r.nbytes).1,
        update s.reads p none⟩

/-- What `p` gets is read from the buffer of its own terminal, and no other terminal
    changes. -/
def FromOwn (s : Readers) (p : ℕ) (bytes : List UInt8) (s' : Readers) : Prop :=
  ∃ h, (s.threads p).terminal = some h ∧
    (∃ n, bytes = bufcpy (s.terminals h).buffer n (s.terminals h).bufhd) ∧
    ∀ h', h' ≠ h → s'.terminals h' = s.terminals h'

/-- A call that does not return at once is made only while the caller's terminal is in the foreground. -/
def ReadCareful (s : Readers) : ReadEvent → Prop
  | .start p fd nbytes =>
    ∀ h, s.foregroundTerminal = some h → fd = 0 → 0 < nbytes → (s.threads p).terminal = some h
  | _ => True

def CarefulReadStep (s : Readers) (e : ReadEvent) (s' : Readers) : Prop :=
  ReadCareful s e ∧ ReadStep s e s'

/-! ## Threads keep their terminals -/

theorem terminalSwitch_terminal {idx : ℕ} (done : terminalSwitch m scancode h idx = .ok m') (q : ℕ) :
    (m'.threads q).terminal = (m.threads q).terminal := by
  rcases terminalSwitch_processes done with rfl | ⟨k, same, after⟩
  · rfl
  · rw [after]
    exact same.thread (g := (·.terminal)) (fun _ _ _ _ _ => rfl) q

theorem switchKey_terminal {idx : ℕ} (done : switchKey m scancode h idx = .ok m') (q : ℕ) :
    (m'.threads q).terminal = (m.threads q).terminal := by
  unfold switchKey at done
  split at done
  · exact terminalSwitch_terminal done q
  · cases done
    rw [typeKey_toProcesses]

theorem keyPress_terminal (done : keyPress m scancode h = .ok m') (q : ℕ) :
    (m'.threads q).terminal = (m.threads q).terminal := by
  unfold keyPress at done
  simp only at done
  split at done
  case h_7 =>
    rw [switchKey_terminal done q, outTab_toProcesses]
  case h_8 | h_9 | h_10 => exact switchKey_terminal done q
  case h_11 =>
    split at done
    · rw [(redraw_drawn done).toProcesses]
    · cases done
      rw [typeKey_toProcesses]
  all_goals
    cases done
    simp

theorem doKeyboard_terminal {scancode : UInt8} (done : doKeyboard m scancode = .ok m') (q : ℕ) :
    (m'.threads q).terminal = (m.threads q).terminal := by
  unfold doKeyboard at done
  split at done
  · cases done
  · split at done
    · exact keyPress_terminal done q
    · cases done
      unfold keyRelease
      split <;> rfl

/-! ## Runs -/

/-- Every call waits on its caller's own terminal. -/
def OwnReaders (s : Readers) : Prop :=
  ∀ p r, s.reads p = some r → (s.threads p).terminal = some r.terminal

theorem readStart_foreground {fd nbytes : ℤ} {n : ℕ}
    (waits : readStart m fd nbytes = .waits h n) : m.foregroundTerminal = some h ∧ fd = 0 ∧ 0 < nbytes := by
  unfold readStart at waits
  split at waits
  · cases waits
  · next foreground =>
    rw [foreground]
    split at waits
    · cases waits
    · next stdin =>
      split at waits
      · cases waits
      · split at waits
        · cases waits
        · cases waits
          exact ⟨rfl, not_not.mp stdin, by omega⟩

theorem OwnReaders.update (own : OwnReaders s) {next : Option Reader}
    (kept : ∀ q, (m.threads q).terminal = (s.threads q).terminal)
    (new : ∀ r, next = some r → (s.threads p).terminal = some r.terminal) :
    OwnReaders ⟨m, Function.update s.reads p next⟩ := by
  intro q r reads
  change Function.update s.reads p next q = some r at reads
  rw [kept]
  rcases eq_or_ne q p with rfl | other
  · rw [Function.update_self] at reads
    exact new r reads
  · rw [Function.update_of_ne other] at reads
    exact own q r reads

theorem OwnReaders.step {e : ReadEvent} (own : OwnReaders s)
    (step : CarefulReadStep s e s') : OwnReaders s' := by
  obtain ⟨careful, step⟩ := step
  cases e with
  | key scancode =>
    obtain ⟨m, done, rfl⟩ := step
    intro p r reads
    exact (doKeyboard_terminal done p).trans (own p r reads)
  | start p fd nbytes =>
    obtain ⟨-, step⟩ := step
    cases begun : readStart s.toMachine fd nbytes with
    | returns value =>
      rw [begun] at step
      cases step
      exact own
    | waits h n =>
      rw [begun] at step
      cases step
      apply own.update (fun _ => rfl)
      intro r same
      cases same
      -- the terminal that was found is the caller's
      obtain ⟨foreground, stdin, some⟩ := readStart_foreground begun
      exact careful h foreground stdin some
  | scan p =>
    obtain ⟨r, reads, -, rfl⟩ := step
    apply own.update
    · intro q
      unfold readScan
      simp only
      split <;> rfl
    · intro r' same
      cases same
      exact own p r reads
  | finish p junk bytes =>
    obtain ⟨r, -, -, -, rfl⟩ := step
    exact own.update (fun _ => rfl) (fun _ none => nomatch none)

theorem OwnReaders.fromOwn {junk : ℕ} {bytes : List UInt8} (own : OwnReaders s)
    (step : ReadStep s (.finish p junk bytes) s') : FromOwn s p bytes s' := by
  obtain ⟨r, reads, -, rfl, rfl⟩ := step
  refine ⟨r.terminal, own p r reads, ⟨_, rfl⟩, fun h' other => ?_⟩
  exact setTerminal_of_ne other

/-- In every run in which calls that wait for a line are made only by processes whose terminal is in
    the foreground, each call that returns has read from the caller's own terminal. -/
theorem reads_from_own {s s' s'' : Readers} {events : List ReadEvent} (idle : ∀ p, s.reads p = none)
    (run : Run CarefulReadStep s events s') {p junk : ℕ} {bytes : List UInt8}
    (returns : ReadStep s' (.finish p junk bytes) s'') : FromOwn s' p bytes s'' := by
  have start : OwnReaders s := by
    intro p r reads
    rw [idle p] at reads
    cases reads
  exact (run.invariant (fun _ _ _ own step => OwnReaders.step own step) start).fromOwn returns

/-- Two consoles whose tasks are the threads 0 and 1, each with its own terminal; console 0 is
    in the foreground. -/
def twoConsoles : Readers :=
  { blankMachine with
    threads := fun p => { blankThread with terminal := some p }
    consoles := fun c => ⟨c, 0x1e + c.toUInt32, c, 0⟩
    reads := fun _ => none }

/-- The line that is typed at terminal 0. -/
def typedAt0 : Machine :=
  inKey (inKey twoConsoles.toMachine 0x1e false 0) 0x1c false 0

theorem typedAt0_keys : ReadStep twoConsoles (.key 0x1e)
      { twoConsoles with toMachine := inKey twoConsoles.toMachine 0x1e false 0 } ∧
    ReadStep { twoConsoles with toMachine := inKey twoConsoles.toMachine 0x1e false 0 } (.key 0x1c)
      { twoConsoles with toMachine := typedAt0 } :=
  ⟨⟨_, rfl, rfl⟩, ⟨_, rfl, rfl⟩⟩

/-- A call that has found the line. -/
def foundReader : Reader := ⟨0, 128, some (readScan (setExit typedAt0 0 false) 0).2⟩

/-- The state after process `p` has called `terminal_read(0, buf, 128)` and found the line. -/
def foundBy (p : ℕ) : Readers :=
  ⟨(readScan (setExit typedAt0 0 false) 0).1,
    update (update twoConsoles.reads p (some ⟨0, 128, none⟩)) p (some foundReader)⟩

theorem foundBy_steps (p : ℕ) : ReadStep { twoConsoles with toMachine := typedAt0 } (.start p 0 128)
      ⟨setExit typedAt0 0 false, update twoConsoles.reads p (some ⟨0, 128, none⟩)⟩ ∧
    ReadStep ⟨setExit typedAt0 0 false, update twoConsoles.reads p (some ⟨0, 128, none⟩)⟩
      (.scan p) (foundBy p) := by
  have waits : readStart typedAt0 0 128 = .waits 0 128 := by decide +kernel
  have waiting : ((setExit typedAt0 0 false).terminals 0).exit = false := by decide +kernel
  constructor
  · refine ⟨rfl, ?_⟩
    rw [show readStart _ 0 128 = _ from waits]
  · exact ⟨⟨0, 128, none⟩, update_self .., waiting, rfl⟩

theorem foundBy_finish (p : ℕ) :
    ∃ s, ReadStep (foundBy p) (.finish p 0 [97, 10]) s ∧ (s.terminals 0).size = 0 := by
  have exit : ((readScan (setExit typedAt0 0 false) 0).1.terminals 0).exit = true := by
    decide +kernel
  have copied : [97, 10] = (readFinish (readScan (setExit typedAt0 0 false) 0).1 0
      (foundReader.nread.getD 0) 128).2 := by
    decide +kernel
  have empty : ((readFinish (readScan (setExit typedAt0 0 false) 0).1 0
      (foundReader.nread.getD 0) 128).1.terminals 0).size = 0 := by
    decide +kernel
  exact ⟨_, ⟨foundReader, update_self .., exit, copied, rfl⟩, empty⟩

/-- The foreground process reads the line typed at its terminal. -/
theorem reads_from_own_line :
    ∃ s, Run CarefulReadStep twoConsoles [.key 0x1e, .key 0x1c, .start 0 0 128, .scan 0] (foundBy 0) ∧
      FromOwn (foundBy 0) 0 [97, 10] s := by
  have foreground : ∀ h, typedAt0.foregroundTerminal = some h → (0 : ℤ) = 0 → (0 : ℤ) < 128 →
      (typedAt0.threads 0).terminal = some h := by
    intro h first _ _
    cases first
    decide +kernel
  have run : Run CarefulReadStep twoConsoles [.key 0x1e, .key 0x1c, .start 0 0 128, .scan 0]
      (foundBy 0) :=
    .cons ⟨trivial, typedAt0_keys.1⟩ (.cons ⟨trivial, typedAt0_keys.2⟩
      (.cons ⟨foreground, (foundBy_steps 0).1⟩ (.cons ⟨trivial, (foundBy_steps 0).2⟩ (.nil _))))
  obtain ⟨s, finish, -⟩ := foundBy_finish 0
  exact ⟨s, run, reads_from_own (fun _ => rfl) run finish⟩

/-- Process 1, on the console in the background, reads the line typed at terminal 0. -/
theorem reads_from_foreground :
    ∃ s, Run ReadStep twoConsoles [.key 0x1e, .key 0x1c, .start 1 0 128, .scan 1] (foundBy 1) ∧
      ReadStep (foundBy 1) (.finish 1 0 [97, 10]) s ∧ ¬ FromOwn (foundBy 1) 1 [97, 10] s := by
  have run : Run ReadStep twoConsoles [.key 0x1e, .key 0x1c, .start 1 0 128, .scan 1] (foundBy 1) :=
    .cons typedAt0_keys.1 (.cons typedAt0_keys.2
      (.cons (foundBy_steps 1).1 (.cons (foundBy_steps 1).2 (.nil _))))
  obtain ⟨s, finish, empty⟩ := foundBy_finish 1
  refine ⟨s, run, finish, fun own => ?_⟩
  obtain ⟨h, mine, -, others⟩ := own
  have second : h = 1 := by
    cases mine
    rfl
  -- terminal 0 has lost its line
  have same := others 0 (by rw [second]; decide)
  rw [same] at empty
  exact absurd empty (by decide +kernel)

end Illinix.Verified.Terminal
