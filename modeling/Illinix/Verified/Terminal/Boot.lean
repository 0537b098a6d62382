import Illinix.Verified.Terminal.Screen

/-! # Booting the consoles

The loop of `console_init`: what holds of the consoles whose pass is done, and what a pass
leaves alone. -/

namespace Illinix.Verified.Terminal

open Kernel Lib Verified.Process List Function

/-- The backup page of console `c`. -/
def backupOf (c : Nat) : Nat := videoBuf1 + c * 4096

/-- The first `n` passes of the loop of `console_init` from `m0` are done. -/
structure Created (shells blocks : Nat → Nat) (m0 m : Machine) (n : Nat) : Prop where
  id : ∀ c < n, (m.consoles c).id = c
  vidmap : ∀ c < n, (m.consoles c).vidmap = 0x8400000 + video + 4096 * c
  task : ∀ c < n, (m.consoles c).task = shells c
  terminal : ∀ c < n, (m.threads (shells c)).terminal = some (blocks c)
  consoleId : ∀ c < n, (m.threads (shells c)).consoleId = c
  saved : ∀ c < n, (m.terminals (blocks c)).savedVidmem = backupOf c
  vidmem : ∀ c < n, (m.terminals (blocks c)).vidmem = backupOf c
  cursor : ∀ h, CursorOk (m.terminals h) ↔ CursorOk (m0.terminals h)
  kernelShell : ∀ p, KernelShell (m.threads p) ↔ KernelShell (m0.threads p)
  table : m.vidmapTable = m0.vidmapTable
  taskQueue : m.taskQueue = m0.taskQueue
  rq : m.rq = m0.rq

section

variable {shells blocks : Nat → Nat} {m0 m : Machine} {n : Nat}

section

variable (differ : ∀ i < 3, ∀ j < 3, i ≠ j → shells i ≠ shells j ∧ blocks i ≠ blocks j)

include differ

theorem Created.next (hn : n < 3) (created : Created shells blocks m0 m n) :
    Created shells blocks m0 (consoleCreate m shells blocks n) (n + 1) := by
  have console : ∀ c < n, (consoleCreate m shells blocks n).consoles c = m.consoles c :=
    fun c hc => update_of_ne (Nat.ne_of_lt hc) ..
  have thread : ∀ c < n, (consoleCreate m shells blocks n).threads (shells c) = m.threads (shells c) :=
    fun c hc => update_of_ne (differ c (by omega) n hn (Nat.ne_of_lt hc)).1 ..
  have earlier : ∀ c < n, (consoleCreate m shells blocks n).terminals (blocks c) = m.terminals (blocks c) :=
    fun c hc => update_of_ne (differ c (by omega) n hn (Nat.ne_of_lt hc)).2 ..
  have created' : (consoleCreate m shells blocks n).terminals (blocks n) =
      { terminalCreate (m.terminals (blocks n)) with savedVidmem := backupOf n, vidmem := backupOf n } :=
    update_self ..
  -- what holds of the earlier consoles is kept
  have extend : ∀ {α β : Type} {g : α → β} {old new : Nat → α} {v : Nat → β}, (∀ c < n, new c = old c) →
      (∀ c < n, g (old c) = v c) → g (new n) = v n → ∀ c < n + 1, g (new c) = v c :=
    fun kept before last => Nat.forall_lt_succ_right.mpr
      ⟨fun c hc => (congrArg _ (kept c hc)).trans (before c hc), last⟩
  constructor
  · exact extend (g := (·.id)) console created.id (by simp [consoleCreate])
  · exact extend (g := (·.vidmap)) console created.vidmap (by simp [consoleCreate])
  · exact extend (g := (·.task)) console created.task (by simp [consoleCreate])
  · exact extend (g := (·.terminal)) thread created.terminal (by simp [consoleCreate])
  · exact extend (g := (·.consoleId)) thread created.consoleId (by simp [consoleCreate])
  · exact extend (g := (·.savedVidmem)) earlier created.saved (by rw [created'])
  · exact extend (g := (·.vidmem)) earlier created.vidmem (by rw [created'])
  · intro h
    refine Iff.trans (iff_of_eq ?_) (created.cursor h)
    exact setTerminal_field (m := m) (h := blocks n) CursorOk (by rfl) h
  · intro p
    refine Iff.trans (iff_of_eq ?_) (created.kernelShell p)
    exact modify_field KernelShell (f := fun t =>
      { t with state := .unused, consoleId := n, terminal := some (blocks n) }) rfl p
  · exact created.table
  · exact created.taskQueue
  · exact created.rq

theorem Created.loop (start : Created shells blocks m0 m 0) (hn : n ≤ 3) :
    Created shells blocks m0 ((range n).foldl (consoleCreate · shells blocks ·) m) n := by
  induction n with
  | zero => exact start
  | succ n ih =>
    rw [range_succ, foldl_append]
    exact (ih (Nat.le_of_lt hn)).next differ hn

theorem Created.boot :
    Created shells blocks m ((range 3).foldl (consoleCreate · shells blocks ·) m) 3 := by
  have start : Created shells blocks m m 0 := by
    constructor
    case cursor | kernelShell => exact fun _ => Iff.rfl
    case table | taskQueue | rq => rfl
    all_goals exact fun c hc => absurd hc (Nat.not_lt_zero c)
  exact start.loop differ (Nat.le_refl 3)

end

end

end Illinix.Verified.Terminal
