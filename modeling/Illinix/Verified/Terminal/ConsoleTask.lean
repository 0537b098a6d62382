import Illinix.Verified.Terminal.Boot
import Illinix.Lib.Run

/-! # The task of a console

`consoles[c]->task` is written when a process executes a program, when it exits and at context
switches.  `__schedule` compares the console of the two processes with each other and then
writes through `current`, so the task stays with its console only as long as two processes of
one console are switched while that console is in the foreground. -/

namespace Illinix.Verified.Terminal

open Kernel Lib Verified.Process List Function

/-- `schedule next` is a context switch of the running process, `executeEnd` the rest of
    `sys_execute` when its caller runs again. -/
inductive ConsoleEvent where
  | schedule (next : Nat)
  | fork (page : Page)
  | execute (page : Page) (fds : Files) (cmd : Command)
  | executeEnd
  | exit (status : UInt32)
  | switch (scancode h idx : Nat)

/-- `alloc_kstack` returns a page that no process uses, and a forked child has the console of
    its creator. -/
def ConsoleLegal (m : Machine) : ConsoleEvent → Prop
  | .fork page =>
    page.addr ∉ m.taskQueue ∧ page.thread.consoleId = (m.threads m.running).consoleId
  | .execute page _ _ => page.addr ∉ m.taskQueue
  | .switch _ _ idx => idx < 3
  | _ => True

def consoleExec (m : Machine) : ConsoleEvent → Option Machine
  | .schedule next =>
    (schedule m.toProcesses m.running next).toOption.map fun k => { m with toProcesses := k }
  | .fork page =>
    (doFork m.toProcesses page m.running).toOption.map fun r => { m with toProcesses := r.1 }
  | .execute page fds cmd =>
    (executeBegin m.toProcesses page fds m.running cmd).toOption.map fun r =>
      { m with toProcesses := r.1 }
  | .executeEnd => (executeEnd m.toProcesses m.running).toOption.map fun r => { m with toProcesses := r.1 }
  | .exit status => (doExit m.toProcesses m.running status).map fun k => { m with toProcesses := k }
  | .switch scancode h idx => (terminalSwitch m scancode h idx).toOption

def ConsoleStep (m : Machine) (e : ConsoleEvent) (m' : Machine) : Prop :=
  ConsoleLegal m e ∧ consoleExec m e = some m'

/-- The task of each console is a process of that console. -/
def Coherent (k : Processes) : Prop :=
  ∀ c < 3, (k.consoles c).task ∈ k.taskQueue ∧ (k.threads (k.consoles c).task).consoleId = c

/-- Nothing refers to `p` any more: it does not run, is not queued, is no console's task and
    no process that can exit has it as parent. -/
def Reapable (k : Processes) (p : Nat) : Prop :=
  p ≠ k.running ∧ p ∉ k.rq ∧ (∀ c < 3, (k.consoles c).task ≠ p) ∧
  ∀ q ∈ k.taskQueue, ¬ KernelShell (k.threads q) → (k.threads q).parent ≠ p

/-- A switch between two processes of one console happens only while the console is in the
    foreground, and `sys_execute` frees a process that nothing refers to. -/
def ConsoleCareful (m : Machine) : ConsoleEvent → Prop
  | .schedule next =>
    m.running ≠ next → (m.threads m.running).consoleId = (m.threads next).consoleId →
      (m.threads next).consoleId = m.current
  | .executeEnd => ∀ p ∈ (m.threads m.running).children.getLast?, Reapable m.toProcesses p
  | _ => True

def CarefulConsoleStep (m : Machine) (e : ConsoleEvent) (m' : Machine) : Prop :=
  ConsoleCareful m e ∧ ConsoleStep m e m'

/-! ## Invariant -/

structure ConsoleInv (k : Processes) : Prop where
  coherent : Coherent k
  running : k.running ∈ k.taskQueue
  queued : ∀ p ∈ k.rq, p ∈ k.taskQueue
  parent : ∀ p ∈ k.taskQueue, ¬ KernelShell (k.threads p) → (k.threads p).parent ∈ k.taskQueue

section

variable {k k' : Processes}

section

variable (inv : ConsoleInv k)

include inv

theorem ConsoleInv.sameTree (same : SameTree k k')
    (queued : ∀ q ∈ k'.rq, q ∈ k.rq ∨ q ∈ k.taskQueue) : ConsoleInv k' := by
  have console := same.thread (g := (·.consoleId)) fun _ _ _ _ _ => rfl
  have parent := same.thread (g := (·.parent)) fun _ _ _ _ _ => rfl
  have kernel := same.thread (g := KernelShell) fun _ _ _ _ _ => rfl
  constructor
  · intro c hc
    rw [same.consoles, same.taskQueue, console]
    exact inv.coherent c hc
  · rw [same.running, same.taskQueue]
    exact inv.running
  · intro q hq
    rw [same.taskQueue]
    cases queued q hq with
    | inl before => exact inv.queued q before
    | inr new => exact new
  · intro q hq user
    rw [same.taskQueue] at hq ⊢
    rw [kernel] at user
    rw [parent]
    exact inv.parent q hq user

theorem ConsoleInv.rescheduled {p : Nat} (hp : p ∈ k.taskQueue)
    (same : Rescheduled k p k') : ConsoleInv k' := by
  apply inv.sameTree same.toSameTree
  intro q hq
  cases same.rq q hq with
  | inl before => exact .inl before
  | inr new => exact .inr (new ▸ hp)

theorem ConsoleInv.setTask {c p : Nat} (hp : p ∈ k.taskQueue)
    (console : (k.threads p).consoleId = c) : ConsoleInv (k.setTask c p) := by
  refine { inv with coherent := ?_ }
  intro c' hc'
  change ((update k.consoles c _ : Nat → Console) c').task ∈ _ ∧
    (k.threads ((update k.consoles c _ : Nat → Console) c').task).consoleId = c'
  rcases eq_or_ne c' c with rfl | other
  · rw [update_self]
    exact ⟨hp, console⟩
  · rw [update_of_ne other]
    exact inv.coherent c' hc'

theorem ConsoleInv.added {parent addr : Nat} {t : Thread}
    (hparent : parent ∈ k.taskQueue) (fresh : addr ∉ k.taskQueue) (hers : t.parent = parent)
    (added : Added k parent addr t k') : ConsoleInv k' := by
  have old : ∀ q ∈ k.taskQueue, q ≠ addr := fun q hq => ne_of_mem_of_not_mem hq fresh
  have still : ∀ q ∈ k.taskQueue, q ∈ k'.taskQueue := fun q hq => added.mem_taskQueue.mpr (.inl hq)
  constructor
  · intro c hc
    obtain ⟨task, console⟩ := inv.coherent c hc
    rw [added.consoles]
    exact ⟨still _ task, (added.thread (g := (·.consoleId)) (fun _ _ => rfl) _ (old _ task)).trans console⟩
  · rw [added.running]
    exact still _ inv.running
  · intro q hq
    rw [added.rq] at hq
    exact still q (inv.queued q hq)
  · intro q hq user
    cases added.mem_taskQueue.mp hq with
    | inl hq =>
      rw [added.thread (g := KernelShell) (fun _ _ => rfl) q (old q hq)] at user
      rw [added.thread (g := (·.parent)) (fun _ _ => rfl) q (old q hq)]
      exact still _ (inv.parent q hq user)
    | inr new =>
      rw [new, added.new, hers]
      exact still _ hparent

theorem ConsoleInv.removed {p : Nat} (reapable : Reapable k p)
    (removed : Removed k p k') : ConsoleInv k' := by
  obtain ⟨notRunning, notQueued, noTask, noParent⟩ := reapable
  have still : ∀ q ∈ k.taskQueue, q ≠ p → q ∈ k'.taskQueue := fun q hq other =>
    (removed.mem_taskQueue other).mpr hq
  constructor
  · intro c hc
    obtain ⟨task, console⟩ := inv.coherent c hc
    rw [removed.consoles]
    exact ⟨still _ task (noTask c hc), (removed.thread (g := (·.consoleId)) (fun _ _ => rfl) _).trans console⟩
  · rw [removed.running]
    exact still _ inv.running (Ne.symm notRunning)
  · intro q hq
    rw [removed.rq] at hq
    exact still q (inv.queued q hq) (ne_of_mem_of_not_mem hq notQueued)
  · intro q hq user
    rw [removed.taskQueue] at hq
    have before := mem_of_mem_erase hq
    rw [removed.thread (g := KernelShell) (fun _ _ => rfl) q] at user
    rw [removed.thread (g := (·.parent)) (fun _ _ => rfl) q]
    exact still _ (inv.parent q before user) (noParent q before user)

theorem ConsoleInv.placed {dest : Nat} {moved : List Nat}
    (hdest : dest ∈ k.taskQueue) (placed : Placed k dest moved k') : ConsoleInv k' := by
  have console := placed.thread (g := (·.consoleId)) (fun _ _ => rfl) fun _ _ => rfl
  have kernel := placed.thread (g := KernelShell) (fun _ _ => rfl) fun _ _ => rfl
  constructor
  · intro c hc
    rw [placed.consoles, placed.taskQueue, console]
    exact inv.coherent c hc
  · rw [placed.running, placed.taskQueue]
    exact inv.running
  · rw [placed.rq, placed.taskQueue]
    exact inv.queued
  · intro q hq user
    rw [placed.taskQueue] at hq ⊢
    rw [kernel] at user
    rw [placed.parent]
    split
    · exact hdest
    · exact inv.parent q hq user

end

/-! ## Steps -/

theorem ConsoleInv.schedule {next : Nat} (inv : ConsoleInv k)
    (careful : k.running ≠ next → (k.threads k.running).consoleId = (k.threads next).consoleId →
      (k.threads next).consoleId = k.current)
    (done : Kernel.schedule k k.running next = .ok k') : ConsoleInv k' := by
  rcases schedule_spec done with rfl | ⟨queued, switched⟩
  · exact inv
  · have exist : ∀ q ∈ putBack k k.running, q ∈ k.taskQueue := by
      intro q hq
      cases mem_putBack hq with
      | inl before => exact inv.queued q before
      | inr same => exact same.1 ▸ inv.running
    have hnext := exist next queued
    have console := switched.thread (g := (·.consoleId)) fun _ _ => rfl
    have parent := switched.thread (g := (·.parent)) fun _ _ => rfl
    have kernel := switched.thread (g := KernelShell) fun _ _ => rfl
    constructor
    · -- the task that is written is a process of the console in the foreground
      intro c hc
      rw [switched.consoles, switched.taskQueue, console]
      split
      · next shared =>
        exact (inv.setTask hnext (careful shared.1 shared.2)).coherent c hc
      · exact inv.coherent c hc
    · rw [switched.running, switched.taskQueue]
      split
      · exact inv.running
      · exact hnext
    · intro q hq
      rw [switched.rq] at hq
      rw [switched.taskQueue]
      exact exist q (mem_of_mem_erase hq)
    · intro q hq user
      rw [switched.taskQueue] at hq ⊢
      rw [kernel] at user
      rw [parent]
      exact inv.parent q hq user

theorem ConsoleInv.fork {page : Page} {pid : UInt32} (inv : ConsoleInv k)
    (fresh : page.addr ∉ k.taskQueue) (done : doFork k page k.running = .ok (k', pid)) :
    ConsoleInv k' := by
  obtain ⟨k1, k2, pid', done', added, active⟩ := doFork_spec k (ne_of_mem_of_not_mem inv.running fresh)
  cases done.symm.trans done'
  exact (inv.added inv.running fresh rfl added).rescheduled (added.mem_taskQueue.mpr (.inr rfl)) active

theorem ConsoleInv.executeFails {page : Page} (inv : ConsoleInv k) (fresh : page.addr ∉ k.taskQueue)
    {k1 : Processes} (added : Added k k.running page.addr (freshThread k page k.running false) k1)
    (removed : Removed k1 page.addr k') : ConsoleInv k' := by
  have old : ∀ q ∈ k.taskQueue, q ≠ page.addr := fun q hq => ne_of_mem_of_not_mem hq fresh
  refine (inv.added inv.running fresh rfl added).removed ⟨?_, ?_, ?_, ?_⟩ removed
  · rw [added.running]
    exact Ne.symm (old _ inv.running)
  · rw [added.rq]
    exact fun queued => old _ (inv.queued _ queued) rfl
  · intro c hc
    rw [added.consoles]
    exact old _ (inv.coherent c hc).1
  · intro q hq user
    cases added.mem_taskQueue.mp hq with
    | inl hq =>
      rw [added.thread (g := KernelShell) (fun _ _ => rfl) q (old q hq)] at user
      rw [added.thread (g := (·.parent)) (fun _ _ => rfl) q (old q hq)]
      exact old _ (inv.parent q hq user)
    | inr new =>
      rw [new, added.new]
      exact old _ inv.running

theorem ConsoleInv.execute {page : Page} {fds : Files} {cmd : Command} {status : Int}
    (inv : ConsoleInv k) (fresh : page.addr ∉ k.taskQueue)
    (done : executeBegin k page fds k.running cmd = .ok (k', status)) : ConsoleInv k' := by
  have other := ne_of_mem_of_not_mem inv.running fresh
  by_cases good : ∃ shell, cmd = .program shell
  · obtain ⟨shell, rfl⟩ := good
    obtain ⟨k1, k2, k3, done', added, active, rfl⟩ := executeBegin_program k fds shell other
    cases done.symm.trans done'
    have child : page.addr ∈ k1.taskQueue := added.mem_taskQueue.mpr (.inr rfl)
    have inv2 := (inv.added inv.running fresh rfl added).rescheduled child active
    have console : (k2.threads page.addr).consoleId = (k.threads k.running).consoleId := by
      rw [active.thread (g := (·.consoleId)) fun _ _ _ _ _ => rfl, added.new]
      rfl
    have task := inv2.setTask (active.taskQueue ▸ child) console
    exact task.sameTree (schedSleep_sameTree _ _) fun q => .inl
  · obtain ⟨-, same | ⟨k1, added, removed⟩⟩ :=
      executeBegin_fails other (fun shell same => good ⟨shell, same⟩) done
    · exact same ▸ inv
    · exact inv.executeFails fresh added removed

theorem ConsoleInv.executeEnd {value : UInt32} {p : Nat} (inv : ConsoleInv k)
    (careful : ∀ p ∈ (k.threads k.running).children.getLast?, Reapable k p)
    (done : executeEnd k k.running = .ok (k', value, p)) : ConsoleInv k' := by
  obtain ⟨last, -, removed⟩ := executeEnd_spec done
  have exited : SameTree k (k.modify p fun t => { t with state := .exited }) :=
    .modify k p fun t => ⟨.exited, t.flag, t.onRq, t.eax, rfl⟩
  refine (inv.sameTree exited fun q => .inl).removed ?_ removed
  obtain ⟨notRunning, notQueued, noTask, noParent⟩ := careful p last
  refine ⟨notRunning, notQueued, noTask, fun q hq user => ?_⟩
  rw [exited.thread (g := KernelShell) fun _ _ _ _ _ => rfl] at user
  rw [exited.thread (g := (·.parent)) fun _ _ _ _ _ => rfl]
  exact noParent q hq user

theorem ConsoleInv.exit {status : UInt32} (inv : ConsoleInv k)
    (done : doExit k k.running status = some k') : ConsoleInv k' := by
  obtain ⟨user, k1, k2, placed, told, -, rfl⟩ := doExit_spec done
  have hparent := inv.parent _ inv.running user
  have inv2 := (inv.placed hparent placed).rescheduled (placed.taskQueue ▸ hparent) told
  have mem : (k.threads k.running).parent ∈ k2.taskQueue := by
    rw [told.taskQueue, placed.taskQueue]
    exact hparent
  have task := inv2.setTask (c := (k.threads (k.threads k.running).parent).consoleId) mem ?_
  · apply task.sameTree (schedExit_sameTree _ _ _)
    intro q hq
    cases schedExit_rq _ _ _ q hq with
    | inl before => exact .inl before
    | inr new => exact .inr (new ▸ mem)
  rw [told.thread (g := (·.consoleId)) fun _ _ _ _ _ => rfl,
    placed.thread (g := (·.consoleId)) (fun _ _ => rfl) fun _ _ => rfl]

end

theorem ConsoleInv.step {m m' : Machine} {e : ConsoleEvent} (inv : ConsoleInv m.toProcesses)
    (step : CarefulConsoleStep m e m') : ConsoleInv m'.toProcesses := by
  obtain ⟨careful, legal, done⟩ := step
  cases e with
  | schedule next =>
    obtain ⟨k, switched, rfl⟩ := Option.map_eq_some_iff.mp done
    exact inv.schedule careful (toOption_eq_some.mp switched)
  | fork page =>
    obtain ⟨⟨k, pid⟩, forked, rfl⟩ := Option.map_eq_some_iff.mp done
    exact inv.fork legal.1 (toOption_eq_some.mp forked)
  | execute page fds cmd =>
    obtain ⟨⟨k, status⟩, begun, rfl⟩ := Option.map_eq_some_iff.mp done
    exact inv.execute legal (toOption_eq_some.mp begun)
  | executeEnd =>
    obtain ⟨⟨k, value, p⟩, reaped, rfl⟩ := Option.map_eq_some_iff.mp done
    exact inv.executeEnd careful (toOption_eq_some.mp reaped)
  | exit status =>
    obtain ⟨k, exited, rfl⟩ := Option.map_eq_some_iff.mp done
    exact inv.exit exited
  | switch scancode h idx =>
    rcases terminalSwitch_processes (toOption_eq_some.mp done) with rfl | ⟨k, same, after⟩
    · exact inv
    · rw [after]
      exact { inv.rescheduled (inv.coherent idx legal).1 same with }

/-! ## Runs -/

theorem bootConsoles_inv {m : Machine} {shells blocks : Nat → Nat}
    (differ : ∀ i < 3, ∀ j < 3, i ≠ j → shells i ≠ shells j ∧ blocks i ≠ blocks j)
    (existing : ∀ i < 3, shells i ∈ m.taskQueue)
    (kernel : ∀ p ∈ m.taskQueue, KernelShell (m.threads p)) (idle : m.rq = []) :
    ConsoleInv (consoleInit m shells blocks).toProcesses := by
  have created := Created.boot (m := m) differ
  unfold consoleInit
  generalize (range 3).foldl (consoleCreate · shells blocks ·) m = m1 at created
  have started := SameTree.modify m1.toProcesses (shells 0)
    (f := fun t => { t with onRq := true, state := .runnable }) fun t => ⟨.runnable, t.flag, true, t.eax, rfl⟩
  have booted : ConsoleInv { m1.toProcesses with current := 0, running := shells 0 } := by
    constructor
    · intro c hc
      refine ⟨?_, ?_⟩
      · rw [created.task c hc, created.taskQueue]
        exact existing c hc
      · rw [created.task c hc]
        exact created.consoleId c hc
    · rw [created.taskQueue]
      exact existing 0 (by decide)
    · rw [created.rq, idle]
      exact fun p hp => absurd hp not_mem_nil
    · intro p hp user
      refine absurd ((created.kernelShell p).mpr (kernel p ?_)) user
      rw [← created.taskQueue]
      exact hp
  exact booted.sameTree ⟨started.thread, rfl, rfl, rfl, rfl⟩ fun q => .inl

/-- In every run from `console_init` in which two processes of one console are switched only
    while it is in the foreground, and no process is freed that something still refers to,
    the task of each console is a process of that console. -/
theorem console_tasks_coherent {m m' : Machine} {shells blocks : Nat → Nat}
    (differ : ∀ i < 3, ∀ j < 3, i ≠ j → shells i ≠ shells j ∧ blocks i ≠ blocks j)
    (existing : ∀ i < 3, shells i ∈ m.taskQueue)
    (kernel : ∀ p ∈ m.taskQueue, KernelShell (m.threads p)) (idle : m.rq = [])
    {events : List ConsoleEvent}
    (run : Run CarefulConsoleStep (consoleInit m shells blocks) events m') :
    Coherent m'.toProcesses := by
  have inv := run.invariant
    (fun s e t (inv : ConsoleInv s.toProcesses) (step : CarefulConsoleStep s e t) => inv.step step)
    (bootConsoles_inv differ existing kernel idle)
  exact inv.coherent

instance (m : Machine) (e : ConsoleEvent) : Decidable (ConsoleLegal m e) :=
  match e with
  | .fork _ => inferInstanceAs (Decidable (_ ∧ _))
  | .execute page _ _ => inferInstanceAs (Decidable (page.addr ∉ m.taskQueue))
  | .switch _ _ idx => inferInstanceAs (Decidable (idx < 3))
  | .schedule _ | .executeEnd | .exit _ => inferInstanceAs (Decidable True)

instance (t : Thread) : Decidable (KernelShell t) := inferInstanceAs (Decidable (_ ∧ _))

instance (k : Processes) (p : Nat) : Decidable (Reapable k p) := inferInstanceAs (Decidable (_ ∧ _))

instance (m : Machine) (e : ConsoleEvent) : Decidable (ConsoleCareful m e) :=
  match e with
  | .schedule _ => inferInstanceAs (Decidable (_ → _))
  | .executeEnd =>
    inferInstanceAs (Decidable (∀ p ∈ (m.threads m.running).children.getLast?, Reapable m.toProcesses p))
  | .fork _ | .execute _ _ _ | .exit _ | .switch _ _ _ => inferInstanceAs (Decidable True)

/-- The shells at 10, 11 and 12, before `console_init`. -/
def threeShells : Machine :=
  { blankMachine with
    threads := fun _ => { blankThread with kthread := true, shell := true }
    taskQueue := [10, 11, 12] }

theorem threeShells_boot : (∀ i < 3, ∀ j < 3, i ≠ j → 10 + i ≠ 10 + j ∧ 10 + i ≠ 10 + j) ∧
    (∀ i < 3, 10 + i ∈ threeShells.taskQueue) ∧
    (∀ p ∈ threeShells.taskQueue, KernelShell (threeShells.threads p)) ∧ threeShells.rq = [] := by
  refine ⟨?_, ?_, ?_, rfl⟩ <;> decide

/-- The shell in the foreground executes a program, which exits and is freed. -/
theorem console_tasks_coherent_execute :
    ∃ m, Run CarefulConsoleStep (consoleInit threeShells (10 + ·) (10 + ·))
        [.execute ⟨20, blankThread⟩ blankFiles (.program false), .schedule 20, .exit 0, .schedule 10,
          .executeEnd] m ∧
      Coherent m.toProcesses := by
  have found : (attempt (fun m e => ConsoleCareful m e ∧ ConsoleLegal m e) consoleExec
      (consoleInit threeShells (10 + ·) (10 + ·))
      [.execute ⟨20, blankThread⟩ blankFiles (.program false), .schedule 20, .exit 0, .schedule 10,
        .executeEnd]).any (fun _ => true) = true := by
    decide +kernel
  obtain ⟨m, run, _⟩ := exists_run CarefulConsoleStep
    (fun _ _ _ pass done => ⟨pass.1, pass.2, done⟩) found
  obtain ⟨differ, existing, kernel, idle⟩ := threeShells_boot
  exact ⟨m, run, console_tasks_coherent differ existing kernel idle run⟩

/-- The same shell executes a program while console 1 is in the foreground: the program becomes
    the task of console 1. -/
theorem console_task_strays :
    ∃ m, Run ConsoleStep (consoleInit threeShells (10 + ·) (10 + ·))
        [.switch 0x1f 10 1, .execute ⟨20, blankThread⟩ blankFiles (.program false), .schedule 20] m ∧
      ¬ Coherent m.toProcesses := by
  have found : (attempt ConsoleLegal consoleExec (consoleInit threeShells (10 + ·) (10 + ·))
      [.switch 0x1f 10 1, .execute ⟨20, blankThread⟩ blankFiles (.program false), .schedule 20]).any
      (fun m => (m.threads (m.consoles 1).task).consoleId = 0) = true := by
    decide +kernel
  obtain ⟨m, run, test⟩ := exists_run ConsoleStep (fun _ _ _ pass done => ⟨pass, done⟩) found
  refine ⟨m, run, fun coherent => ?_⟩
  have mine := (coherent 1 (by decide)).2
  rw [of_decide_eq_true test] at mine
  cases mine

end Illinix.Verified.Terminal
