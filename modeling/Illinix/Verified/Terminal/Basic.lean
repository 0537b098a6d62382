import Illinix.Kernel.Terminal
import Illinix.Verified.Process.Tree

/-! # Fields of the machine

What output and the updates of a terminal do to each field of the machine. -/

namespace Illinix.Verified.Terminal

open Kernel Lib Verified.Process Function

variable {h : Nat} {m m' : Machine} {α : Type}

section

variable (m : Machine) (h : Nat) (t : Terminal)

@[simp] theorem setTerminal_self : (m.setTerminal h t).terminals h = t := update_self ..

@[simp] theorem setTerminal_toProcesses : (m.setTerminal h t).toProcesses = m.toProcesses := rfl

@[simp] theorem setTerminal_mem : (m.setTerminal h t).mem = m.mem := rfl

@[simp] theorem setTerminal_vidmapTable : (m.setTerminal h t).vidmapTable = m.vidmapTable := rfl

@[simp] theorem setTerminal_terminalBoot : (m.setTerminal h t).terminalBoot = m.terminalBoot := rfl

end

theorem setTerminal_of_ne {h' : Nat} {t : Terminal} (other : h' ≠ h) :
    (m.setTerminal h t).terminals h' = m.terminals h' :=
  update_of_ne other ..

theorem setTerminal_field (g : Terminal → α) {t : Terminal} (kept : g t = g (m.terminals h)) (h' : Nat) :
    g ((m.setTerminal h t).terminals h') = g (m.terminals h') := by
  rcases eq_or_ne h' h with rfl | other
  · rw [setTerminal_self]
    exact kept
  · rw [setTerminal_of_ne other]

/-! ## Output -/

/-- Output to a terminal changes its cursor and video memory, and the cursor registers. -/
theorem putcTo_booted (booted : m.terminalBoot = true) (c : UInt8) (h : Nat) : ∃ cursor, putcTo m c h =
      { m with
        mem := (emit m.mem (m.terminals h).vidmem (m.terminals h).screenX.toNat
          (m.terminals h).screenY.toNat c).1
        terminals := update m.terminals h { m.terminals h with
            screenX := (emit m.mem (m.terminals h).vidmem (m.terminals h).screenX.toNat
              (m.terminals h).screenY.toNat c).2.1.toUInt8
            screenY := (emit m.mem (m.terminals h).vidmem (m.terminals h).screenX.toNat
              (m.terminals h).screenY.toNat c).2.2.toUInt8 }
        cursor := cursor } := by
  unfold putcTo
  rw [if_pos booted]
  simp only
  split
  · exact ⟨_, rfl⟩
  · exact ⟨m.cursor, rfl⟩

/-- What output changes of the machine: the screen and the cursors. -/
structure Drawn (m m' : Machine) : Prop where
  terminal (h : Nat) : ∃ x y, m'.terminals h = { m.terminals h with screenX := x, screenY := y }
  toProcesses : m'.toProcesses = m.toProcesses

namespace Drawn

theorem refl (m : Machine) : Drawn m m := ⟨fun _ => ⟨_, _, rfl⟩, rfl⟩

theorem trans {m1 : Machine} (first : Drawn m m1) (second : Drawn m1 m') : Drawn m m' := by
  refine ⟨fun h => ?_, second.toProcesses.trans first.toProcesses⟩
  obtain ⟨x, y, rest⟩ := second.terminal h
  obtain ⟨x1, y1, start⟩ := first.terminal h
  rw [start] at rest
  exact ⟨x, y, rest⟩

theorem setTerminal (m : Machine) (h : Nat) (x y : UInt8) :
    Drawn m (m.setTerminal h { m.terminals h with screenX := x, screenY := y }) := by
  refine ⟨fun h' => ?_, rfl⟩
  rcases eq_or_ne h' h with rfl | other
  · exact ⟨x, y, setTerminal_self ..⟩
  · exact ⟨_, _, setTerminal_of_ne other⟩

/-- A property of a terminal that does not depend on its cursor is kept by output. -/
theorem field (drawn : Drawn m m') (g : Terminal → α)
    (kept : ∀ t x y, g { t with screenX := x, screenY := y } = g t) (h : Nat) :
    g (m'.terminals h) = g (m.terminals h) := by
  obtain ⟨x, y, eq⟩ := drawn.terminal h
  rw [eq]
  exact kept ..

end Drawn

theorem putcTo_drawn (m : Machine) (c : UInt8) (h : Nat) : Drawn m (putcTo m c h) := by
  unfold putcTo
  split
  · simp only
    split <;> exact { Drawn.setTerminal m h _ _ with }
  · exact { Drawn.refl m with }

theorem back_drawn (m : Machine) (h : Nat) : Drawn m (back m h) := by
  unfold back
  simp only
  split
  · exact .refl m
  · split <;> split <;> exact { Drawn.setTerminal m h _ _ with }

theorem putc_drawn {c : UInt8} (done : putc m c = .ok m') : Drawn m m' := by
  unfold putc at done
  split at done
  · split at done
    · cases done
      exact putcTo_drawn ..
    · cases done
  · cases done
    exact putcTo_drawn ..

theorem foldlM_putc_drawn {chars : List UInt8} (done : chars.foldlM putc m = .ok m') : Drawn m m' := by
  induction chars generalizing m with
  | nil =>
    cases done
    exact .refl _
  | cons c chars ih =>
    obtain ⟨m1, first, rest⟩ := bind_eq_ok.mp done
    exact (putc_drawn first).trans (ih rest)

theorem clear_drawn (done : clear m = .ok m') : Drawn m m' := by
  unfold clear at done
  split at done
  · split at done
    · next h _ =>
      cases done
      exact ⟨(Drawn.setTerminal m h 0 0).terminal, rfl⟩
    · cases done
  · cases done
    exact ⟨(Drawn.refl m).terminal, rfl⟩

/-- Ctrl-L changes no more of the terminals than their cursors. -/
theorem redraw_drawn (done : redraw m h = .ok m') : Drawn m m' := by
  unfold redraw at done
  obtain ⟨m1, cleared, done⟩ := bind_eq_ok.mp done
  obtain ⟨m2, prompted, done⟩ := bind_eq_ok.mp done
  exact (clear_drawn cleared).trans ((foldlM_putc_drawn prompted).trans (foldlM_putc_drawn done))

/-! ## Key events leave the processes alone, unless they switch terminals -/

@[simp] theorem inKey_toProcesses (m : Machine) (scancode : Nat) (caps : Bool) (h : Nat) :
    (inKey m scancode caps h).toProcesses = m.toProcesses := by
  simp only [inKey]
  split
  · rfl
  · rw [setTerminal_toProcesses, (putcTo_drawn ..).toProcesses]

@[simp] theorem backspace_toProcesses (m : Machine) (h : Nat) :
    (backspace m h).toProcesses = m.toProcesses := by
  simp only [backspace]
  split
  · rfl
  · rw [setTerminal_toProcesses, (back_drawn ..).toProcesses]

@[simp] theorem outTab_toProcesses (m : Machine) (n h : Nat) :
    (outTab m n h).toProcesses = m.toProcesses := by
  unfold outTab
  induction List.range (n - numCols % n) generalizing m with
  | nil => rfl
  | cons i rest ih => rw [List.foldl_cons, ih, inKey_toProcesses]

@[simp] theorem typeKey_toProcesses (m : Machine) (scancode h : Nat) :
    (typeKey m scancode h).toProcesses = m.toProcesses :=
  inKey_toProcesses ..

/-! ## Switching terminals -/

section

variable (m : Machine) (next : Nat)

/-- Starting or waking the task changes its state and its place in the run queue only. -/
theorem startTask_rescheduled : Rescheduled m.toProcesses next (startTask m next).toProcesses := by
  unfold startTask
  split
  · exact activate_rescheduled _ next
  · split
    · exact (Rescheduled.modify _ next fun t => ⟨.runnable, t.flag, t.eax, rfl⟩).trans
        (enqueueTask_rescheduled _ next)
    · exact .refl _ next

theorem startTask_terminals : (startTask m next).terminals = m.terminals := by
  unfold startTask
  split
  · rfl
  · split <;> rfl

theorem startTask_kept : (startTask m next).vidmapTable = m.vidmapTable ∧
    (startTask m next).terminalBoot = m.terminalBoot := by
  unfold startTask
  split
  · exact ⟨rfl, rfl⟩
  · split <;> exact ⟨rfl, rfl⟩

theorem startTask_mem :
    (startTask m next).mem = if (m.threads next).state = .unused then vgaClear m.mem video else m.mem := by
  by_cases unused : (m.threads next).state = .unused
  · rw [startTask, if_pos unused, if_pos unused]
  · rw [startTask, if_neg unused, if_neg unused]
    split <;> rfl

theorem startTask_state (q : Nat) :
    ((startTask m next).threads q).state = .unused ↔ (m.threads q).state = .unused ∧ q ≠ next := by
  have queued : ∀ (k : Processes), ((enqueueTask k next).threads q).state = (k.threads q).state :=
    fun k => enqueueTask_field (·.state) (fun _ => rfl) k next q
  have woken : ((m.modify next fun t => { t with state := .runnable }).threads q).state = .unused ↔
      (m.threads q).state = .unused ∧ q ≠ next := by
    rcases eq_or_ne q next with rfl | other
    · simp
    · rw [modify_of_ne other]
      simp [other]
  unfold startTask
  split
  · change ((enqueueTask (schedFork m.toProcesses next) next).threads q).state = .unused ↔ _
    rw [queued]
    exact woken
  · next started =>
    split
    · rw [queued]
      exact woken
    · constructor
      · intro unused
        refine ⟨unused, fun same => started ?_⟩
        rw [← same]
        exact unused
      · exact fun both => both.1

end

theorem swapScreens_rescheduled (m : Machine) (h hn next : Nat) :
    Rescheduled m.toProcesses next (swapScreens m h hn next).toProcesses := by
  have start : ∀ m1 : Machine, m1.toProcesses = m.toProcesses →
      Rescheduled m.toProcesses next (startTask m1 next).toProcesses :=
    fun m1 same => same ▸ startTask_rescheduled m1 next
  exact start _ rfl

/-- A switch releases Alt in the terminal that goes to the background. -/
theorem swapScreens_field (g : Terminal → α) (kept : ∀ t v, g { t with vidmem := v } = g t)
    (m : Machine) (h hn next h' : Nat) :
    g ((swapScreens m h hn next).terminals h') =
      g ((m.setTerminal h { m.terminals h with alt := false }).terminals h') := by
  let m1 : Machine := m.setTerminal h
    { m.terminals h with vidmem := (m.terminals h).savedVidmem, alt := false }
  have last : g ((swapScreens m h hn next).terminals h') = g (m1.terminals h') := by
    simp only [swapScreens, vgaUpdateCursor]
    rw [setTerminal_field g (kept ..), startTask_terminals]
    rfl
  rw [last]
  rcases eq_or_ne h' h with rfl | other
  · simp only [m1, setTerminal_self]
    exact kept { m.terminals h' with alt := false } _
  · simp only [m1, setTerminal_of_ne other]

/-- A terminal switch does nothing, or wakes the task of the console and makes it current. -/
theorem terminalSwitch_processes {scancode idx : Nat} (done : terminalSwitch m scancode h idx = .ok m') :
    m' = m ∨ ∃ k, Rescheduled m.toProcesses (m.consoles idx).task k ∧
      m'.toProcesses = { k with current := idx } := by
  unfold terminalSwitch at done
  split at done
  · cases done
    exact .inl rfl
  · obtain ⟨nextTerminal, -, done⟩ := bind_eq_ok.mp done
    obtain ⟨m1, table, done⟩ := bind_eq_ok.mp done
    unfold switchVidmap at table
    obtain ⟨saved, -, table⟩ := bind_eq_ok.mp table
    cases table
    cases done
    exact .inr ⟨_, swapScreens_rescheduled m h nextTerminal _, rfl⟩

/-! ## Zeroed memory -/

def blankTerminal : Terminal :=
  ⟨false, false, false, false, 0, 0, 0, fun _ => 0, false, 0, 0, 0, 0⟩

/-- A booted machine whose threads all have the terminal at 0. -/
def blankMachine : Machine :=
  { blankProcesses with
    threads := fun _ => { blankThread with terminal := some 0 }
    terminals := fun _ => blankTerminal
    mem := fun _ => 0
    vidmapTable := vidmapInit
    cursor := 0
    terminalBoot := true
    screenX := 0
    screenY := 0 }

end Illinix.Verified.Terminal
