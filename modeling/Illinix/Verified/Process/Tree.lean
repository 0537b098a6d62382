import Illinix.Verified.Process.Basic
import Mathlib.Data.List.Nodup

/-! # Fork, execute, exit and context switches

One specification for each operation on the process tree: what it does to the consoles and
queues, to the process it creates, frees or moves, and to all other threads. -/

namespace Illinix.Verified.Process

open Kernel Lib List

variable {curr p parent : Nat} {k k' : Processes} {page : Page}

/-- The part `g` of a thread is not what scheduling changes. -/
def Stable {α : Type} (g : Thread → α) : Prop :=
  ∀ t state flag onRq eax, g { t with state, flag, onRq, eax } = g t

/-- The part `g` of a thread does not depend on its children. -/
def Childless {α : Type} (g : Thread → α) : Prop := ∀ t l, g { t with children := l } = g t

/-- `k'` differs from `k` in scheduling data and the run queue only. -/
structure SameTree (k k' : Processes) : Prop where
  thread : ∀ {α : Type} {g : Thread → α}, Stable g → ∀ q, g (k'.threads q) = g (k.threads q)
  consoles : k'.consoles = k.consoles
  current : k'.current = k.current
  running : k'.running = k.running
  taskQueue : k'.taskQueue = k.taskQueue

namespace SameTree

variable {k k' k'' : Processes}

theorem refl (k : Processes) : SameTree k k := ⟨fun _ _ => rfl, rfl, rfl, rfl, rfl⟩

theorem trans (first : SameTree k k') (second : SameTree k' k'') : SameTree k k'' := by
  constructor
  · intro α g stable q
    exact (second.thread stable q).trans (first.thread stable q)
  · exact second.consoles.trans first.consoles
  · exact second.current.trans first.current
  · exact second.running.trans first.running
  · exact second.taskQueue.trans first.taskQueue

theorem modify (k : Processes) (p : Nat) {f : Thread → Thread}
    (shape : ∀ t, ∃ state flag onRq eax, f t = { t with state, flag, onRq, eax }) :
    SameTree k (k.modify p f) := by
  obtain ⟨state, flag, onRq, eax, same⟩ := shape (k.threads p)
  refine ⟨?_, rfl, rfl, rfl, rfl⟩
  intro α g stable q
  apply modify_field g
  rw [same]
  exact stable ..

end SameTree

/-- The run queue holds each thread once, each with `on_rq` set, and not the running one. -/
structure QueueOk (k : Processes) : Prop where
  nodup : k.rq.Nodup
  onRq : ∀ p ∈ k.rq, (k.threads p).onRq = true
  running : k.running ∉ k.rq

theorem QueueOk.modify (ok : QueueOk k) (out : p ∉ k.rq) (f : Thread → Thread) : QueueOk (k.modify p f) := by
  refine ⟨ok.nodup, fun q hq => ?_, ok.running⟩
  rw [modify_of_ne (ne_of_mem_of_not_mem hq out)]
  exact ok.onRq q hq

/-- Only the scheduling data of `p` changes, and no other thread is queued. -/
structure Rescheduled (k : Processes) (p : Nat) (k' : Processes) : Prop extends SameTree k k' where
  other : ∀ q ≠ p, k'.threads q = k.threads q
  rq : ∀ q ∈ k'.rq, q ∈ k.rq ∨ q = p
  queue : QueueOk k → QueueOk k'

namespace Rescheduled

variable {k k' k'' : Processes} {p : Nat}

theorem refl (k : Processes) (p : Nat) : Rescheduled k p k :=
  ⟨.refl k, fun _ _ => rfl, fun _ => .inl, fun ok => ok⟩

theorem trans (first : Rescheduled k p k') (second : Rescheduled k' p k'') : Rescheduled k p k'' := by
  refine ⟨first.toSameTree.trans second.toSameTree, ?_, ?_, fun ok => second.queue (first.queue ok)⟩
  · intro q other
    exact (second.other q other).trans (first.other q other)
  · intro q hq
    cases second.rq q hq with
    | inl before => exact first.rq q before
    | inr new => exact .inr new

theorem ntask (k : Processes) (p : Nat) (n : UInt32) : Rescheduled k p { k with ntask := n } :=
  ⟨⟨fun _ _ => rfl, rfl, rfl, rfl, rfl⟩, fun _ _ => rfl, fun _ => .inl, fun ok => { ok with }⟩

theorem modify (k : Processes) (p : Nat) {f : Thread → Thread}
    (shape : ∀ t, ∃ state flag eax, f t = { t with state, flag, eax }) :
    Rescheduled k p (k.modify p f) := by
  refine ⟨.modify k p fun t => ?_, fun q => modify_of_ne, fun _ => .inl, fun ok => ?_⟩
  · obtain ⟨state, flag, eax, same⟩ := shape t
    exact ⟨state, flag, t.onRq, eax, same⟩
  · refine ⟨ok.nodup, fun q hq => ?_, ok.running⟩
    rw [modify_field (·.onRq)]
    · exact ok.onRq q hq
    · obtain ⟨state, flag, eax, same⟩ := shape (k.threads p)
      rw [same]

end Rescheduled

/-! ## Scheduling -/

theorem enqueueTask_rescheduled (k : Processes) (p : Nat) : Rescheduled k p (enqueueTask k p) := by
  unfold enqueueTask
  split
  · exact .refl k p
  · next off =>
    split
    · exact .refl k p
    · next notRunning =>
      have same : SameTree k (k.modify p fun t => { t with onRq := true }) :=
        .modify k p fun t => ⟨t.state, t.flag, true, t.eax, rfl⟩
      have set : ((k.modify p fun t => { t with onRq := true }).threads p).onRq = true := by
        rw [modify_self]
      have kept : ∀ q ≠ p, (k.modify p fun t => { t with onRq := true }).threads q = k.threads q :=
        fun q => modify_of_ne
      refine ⟨{ same with }, kept, fun q hq => ?_, fun ok => ?_⟩
      · rw [mem_append, mem_singleton] at hq
        exact hq
      · have out : p ∉ k.rq := fun queued => off (ok.onRq p queued)
        refine ⟨?_, fun q hq => ?_, ?_⟩
        · rw [← concat_eq_append]
          exact ok.nodup.concat out
        · rw [mem_append, mem_singleton] at hq
          rcases eq_or_ne q p with rfl | other
          · exact set
          · exact (congrArg Thread.onRq (kept q other)).trans (ok.onRq q (hq.resolve_right other))
        · rw [mem_append, mem_singleton, not_or]
          rw [same.running]
          exact ⟨ok.running, notRunning⟩

theorem activate_rescheduled (k : Processes) (p : Nat) :
    Rescheduled k p (activateTask (schedFork k p) p) :=
  (Rescheduled.modify k p fun t => ⟨.runnable, t.flag, t.eax, rfl⟩).trans (enqueueTask_rescheduled _ p)

theorem schedWakeup_rescheduled (k : Processes) (p : Nat) : Rescheduled k p (schedWakeup k p) := by
  unfold schedWakeup
  refine (Rescheduled.modify k p fun t => ⟨t.state, 2, t.eax, rfl⟩).trans ?_
  simp only
  split
  · exact (Rescheduled.modify _ p fun t => ⟨.runnable, t.flag, t.eax, rfl⟩).trans
      (enqueueTask_rescheduled _ p)
  · exact .refl _ p

theorem schedWakeup_eax (k : Processes) (p q : Nat) :
    ((schedWakeup k p).threads q).eax = (k.threads q).eax := by
  have flagged : ((k.modify p fun t => { t with flag := 2 }).threads q).eax = (k.threads q).eax :=
    modify_field (·.eax) (f := fun t => { t with flag := 2 }) rfl q
  unfold schedWakeup
  simp only
  split
  · rw [enqueueTask_field (·.eax) fun _ => rfl,
      modify_field (·.eax) (f := fun t => { t with state := .runnable }) rfl q]
    exact flagged
  · exact flagged

theorem schedSleep_sameTree (k : Processes) (p : Nat) : SameTree k (schedSleep k p) :=
  .modify k p fun t => ⟨.sleeping, t.flag, false, t.eax, rfl⟩

/-- What `sched_exit` does to the thread that exits. -/
def exitedThread (t : Thread) : Thread := { t with onRq := false, state := .exited }

theorem schedExit_sameTree (k : Processes) (child parent : Nat) :
    SameTree k (schedExit k child parent) :=
  (SameTree.modify k child fun t => ⟨.exited, t.flag, false, t.eax, rfl⟩).trans
    (schedWakeup_rescheduled _ parent).toSameTree

theorem schedExit_rq (k : Processes) (child parent : Nat) :
    ∀ q ∈ (schedExit k child parent).rq, q ∈ k.rq ∨ q = parent :=
  (schedWakeup_rescheduled (k.modify child exitedThread) parent).rq

/-- What `__schedule` does when it finds a thread to run. -/
structure Switched (k : Processes) (curr next : Nat) (k' : Processes) : Prop where
  thread : ∀ {α : Type} {g : Thread → α}, (∀ t state, g { t with state } = g t) →
    ∀ q, g (k'.threads q) = g (k.threads q)
  state : ∀ q ≠ next, (k.threads q).state ≠ .running → (k'.threads q).state = (k.threads q).state
  consoles : k'.consoles =
    if curr ≠ next ∧ (k.threads curr).consoleId = (k.threads next).consoleId then
      (k.setTask k.current next).consoles
    else k.consoles
  current : k'.current = k.current
  running : k'.running = if curr = next then k.running else next
  taskQueue : k'.taskQueue = k.taskQueue
  rq : k'.rq = k.rq

theorem switchTo_switched (k : Processes) (curr next : Nat) :
    Switched k curr next (switchTo k curr next) := by
  unfold switchTo
  by_cases same : curr = next
  · rw [if_pos same]
    refine ⟨fun _ _ => rfl, fun _ _ _ => rfl, ?_, rfl, ?_, rfl, rfl⟩
    · rw [if_neg (fun differ => differ.1 same)]
    · rw [if_pos same]
  · rw [if_neg same]
    -- the two threads change their state
    simp only
    generalize states : Processes.modify (k.modify curr _) next _ = k1
    have thread : ∀ {α : Type} {g : Thread → α}, (∀ t state, g { t with state } = g t) →
        ∀ q, g (k1.threads q) = g (k.threads q) := by
      intro α g stable q
      rw [← states, modify_field g (f := fun t => { t with state := .running }) (stable _ _)]
      apply modify_field g
      split
      · exact stable _ _
      · rfl
    have state : ∀ q ≠ next, (k.threads q).state ≠ .running → (k1.threads q).state = (k.threads q).state := by
      intro q other stopped
      rw [← states, modify_of_ne other]
      rcases eq_or_ne q curr with rfl | notCurr
      · rw [modify_self, if_neg stopped]
      · rw [modify_of_ne notCurr]
    have rest : SameTree k k1 := by
      refine ⟨fun stable q => thread (fun t state => stable t state t.flag t.onRq t.eax) q, ?_, ?_, ?_, ?_⟩ <;>
        rw [← states] <;> rfl
    have queue : k1.rq = k.rq := states ▸ rfl
    have console : ∀ q, (k1.threads q).consoleId = (k.threads q).consoleId :=
      thread (g := (·.consoleId)) fun _ _ => rfl
    rw [console curr, console next]
    by_cases shared : (k.threads curr).consoleId = (k.threads next).consoleId
    · rw [if_pos shared]
      refine ⟨thread, state, ?_, rest.current, ?_, rest.taskQueue, queue⟩
      · rw [if_pos ⟨same, shared⟩]
        unfold Processes.setTask
        rw [rest.consoles, rest.current]
      · rw [if_neg same]
    · rw [if_neg shared]
      refine ⟨thread, state, ?_, rest.current, ?_, rest.taskQueue, queue⟩
      · rw [if_neg (fun differ => shared differ.2)]
        exact rest.consoles
      · rw [if_neg same]

/-- The queue after `put_prev_task`. -/
def putBack (k : Processes) (curr : Nat) : List Nat :=
  if (k.threads curr).onRq then k.rq ++ [curr] else k.rq

theorem mem_putBack {q : Nat} (queued : q ∈ putBack k curr) :
    q ∈ k.rq ∨ q = curr ∧ (k.threads curr).onRq = true := by
  unfold putBack at queued
  split at queued
  · next on =>
    rw [mem_append, mem_singleton] at queued
    exact queued.imp_right fun same => ⟨same, on⟩
  · exact .inl queued

/-- A call of `__schedule` waits, or switches to a queued thread. -/
theorem schedule_spec {next : Nat} (done : schedule k curr next = .ok k') : k' = k ∨ next ∈ putBack k curr ∧
      Switched { k with rq := (putBack k curr).erase next } curr next k' := by
  have put : putPrevTask k curr = { k with rq := putBack k curr } := by
    unfold putPrevTask putBack
    split <;> rfl
  unfold schedule at done
  split at done
  · cases done
    exact .inl rfl
  · rw [put] at done
    simp only at done
    split at done
    · next queued =>
      cases done
      exact .inr ⟨queued, switchTo_switched _ curr next⟩
    · cases done

theorem QueueOk.schedule {next : Nat} (ok : QueueOk k)
    (done : Kernel.schedule k k.running next = .ok k') : QueueOk k' := by
  rcases schedule_spec done with rfl | ⟨queued, switched⟩
  · exact ok
  · have nodup : (putBack k k.running).Nodup := by
      unfold putBack
      split
      · rw [← concat_eq_append]
        exact ok.nodup.concat ok.running
      · exact ok.nodup
    have onRq := switched.thread (g := (·.onRq)) fun _ _ => rfl
    constructor
    · rw [switched.rq]
      exact nodup.erase next
    · intro q hq
      rw [switched.rq] at hq
      rw [onRq]
      rcases mem_putBack (mem_of_mem_erase hq) with before | ⟨rfl, on⟩
      · exact ok.onRq q before
      · exact on
    · rw [switched.rq, switched.running]
      split
      · next same =>
        rw [← same]
        exact nodup.not_mem_erase
      · exact nodup.not_mem_erase

/-! ## Creating and freeing -/

/-- `k'` is `k` with the new child `t` of `parent` at `addr`. -/
structure Added (k : Processes) (parent addr : Nat) (t : Thread) (k' : Processes) : Prop where
  new : k'.threads addr = t
  thread : ∀ {α : Type} {g : Thread → α}, Childless g →
    ∀ q ≠ addr, g (k'.threads q) = g (k.threads q)
  children : ∀ q ≠ addr, (k'.threads q).children =
    if q = parent then (k.threads q).children ++ [addr] else (k.threads q).children
  consoles : k'.consoles = k.consoles
  current : k'.current = k.current
  running : k'.running = k.running
  taskQueue : k'.taskQueue = k.taskQueue ++ [addr]
  rq : k'.rq = k.rq

namespace Added

variable {k k' : Processes} {parent addr : Nat} {t : Thread}

section

variable (added : Added k parent addr t k')

include added

theorem modify (f : Thread → Thread) : Added k parent addr (f t) (k'.modify addr f) := by
  refine { added with new := ?_, thread := ?_, children := ?_ }
  · rw [modify_self, added.new]
  · intro α g childless q other
    rw [modify_of_ne other]
    exact added.thread childless q other
  · intro q other
    rw [modify_of_ne other]
    exact added.children q other

theorem mem_taskQueue {q : Nat} :
    q ∈ k'.taskQueue ↔ q ∈ k.taskQueue ∨ q = addr := by
  rw [added.taskQueue, mem_append, mem_singleton]

theorem mem_children {q r : Nat} (old : q ≠ addr) :
    r ∈ (k'.threads q).children ↔ r ∈ (k.threads q).children ∨ q = parent ∧ r = addr := by
  rw [added.children q old]
  split
  · next mine => simp [mine]
  · next others => simp [others]

theorem lastChild (other : parent ≠ addr) :
    lastChild k' parent = .ok addr := by
  unfold Kernel.lastChild
  rw [added.children parent other, if_pos rfl, getLast?_concat]
  rfl

end

end Added

theorem processCreate_added (k : Processes) {current : Nat} (kthread : Bool) (other : current ≠ page.addr) :
    Added k current page.addr (freshThread k page current kthread)
      (processCreate k page current kthread).1 := by
  have shape : (processCreate k page current kthread).1.threads =
      ((k.modify page.addr fun _ => freshThread k page current kthread).modify current
        fun c => { c with children := c.children ++ [page.addr] }).threads := rfl
  refine ⟨?_, ?_, ?_, rfl, rfl, rfl, rfl, rfl⟩
  · rw [shape, modify_of_ne (Ne.symm other), modify_self]
  · intro α g childless q old
    exact (processCreate_field g childless q).trans (if_neg old)
  · intro q old
    rw [shape]
    by_cases same : q = current
    · rw [if_pos same, same, modify_self, modify_of_ne other]
    · rw [if_neg same, modify_of_ne same, modify_of_ne old]

/-- `k'` is `k` without the process `p`. -/
structure Removed (k : Processes) (p : Nat) (k' : Processes) : Prop where
  thread : ∀ {α : Type} {g : Thread → α}, Childless g → ∀ q, g (k'.threads q) = g (k.threads q)
  children : ∀ q, (k'.threads q).children =
    if q = (k.threads p).parent then (k.threads q).children.dropLast else (k.threads q).children
  consoles : k'.consoles = k.consoles
  current : k'.current = k.current
  running : k'.running = k.running
  taskQueue : k'.taskQueue = k.taskQueue.erase p
  rq : k'.rq = k.rq

theorem Removed.mem_taskQueue {q : Nat} (removed : Removed k p k') (other : q ≠ p) :
    q ∈ k'.taskQueue ↔ q ∈ k.taskQueue := by
  rw [removed.taskQueue]
  exact mem_erase_of_ne other

theorem Removed.taskQueue_added {k'' : Processes} {addr : Nat} {t : Thread}
    (removed : Removed k' addr k'') (added : Added k parent addr t k') (fresh : addr ∉ k.taskQueue) :
    k''.taskQueue = k.taskQueue := by
  rw [removed.taskQueue, added.taskQueue, erase_append_right _ fresh, erase_cons_head, append_nil]

theorem processFree_removed (done : processFree k p = .ok k') : Removed k p k' := by
  cases processFree_ok done
  refine ⟨?_, ?_, rfl, rfl, rfl, rfl, rfl⟩
  · intro α g childless q
    exact modify_field g (f := fun t => { t with children := t.children.dropLast }) (childless _ _) q
  · intro q
    by_cases same : q = (k.threads p).parent
    · rw [if_pos same, same, modify_self]
    · rw [if_neg same, modify_of_ne same]

/-! ## Fork -/

/-- The child that `do_fork` sets up, before it is scheduled. -/
def forkedThread (k : Processes) (page : Page) (parent : Nat) : Thread :=
  { freshThread k page parent false with
    shell := (k.threads parent).shell, fds := none, terminal := (k.threads parent).terminal }

theorem forked_rescheduled (k : Processes) (child : Nat) (n : UInt32) :
    Rescheduled k child ({ activateTask (schedFork k child) child with ntask := n }.modify child
      fun t => { t with eax := 0 }) := by
  refine ((activate_rescheduled k child).trans (.ntask _ child n)).trans ?_
  exact .modify _ child fun t => ⟨t.state, t.flag, 0, rfl⟩

theorem doFork_spec (k : Processes) (other : parent ≠ page.addr) :
    ∃ k1 k' pid, doFork k page parent = .ok (k', pid) ∧
      Added k parent page.addr (forkedThread k page parent) k1 ∧ Rescheduled k1 page.addr k' := by
  have created := processCreate_added k false other
  unfold doFork processClone
  generalize processCreate k page parent false = result at created ⊢
  obtain ⟨k0, errno⟩ := result
  change Added _ _ _ _ k0 at created
  have cloned := created.modify fun t => { t with shell := (k.threads parent).shell, fds := none }
  have attached := cloned.modify fun t => { t with terminal := (k.threads parent).terminal }
  have shell := created.thread (g := (·.shell)) (fun _ _ => rfl) parent other
  have terminal := cloned.thread (g := (·.terminal)) (fun _ _ => rfl) parent other
  simp only [created.lastChild other, ok_bind, shell, terminal]
  exact ⟨_, _, _, rfl, attached, forked_rescheduled _ _ _⟩

/-! ## Execute -/

/-- The child that `do_execute` sets up, before it is scheduled. -/
def executedThread (k : Processes) (page : Page) (fds : Files) (parent : Nat) (shell : Bool) : Thread :=
  { freshThread k page parent false with
    shell, fds := some fds
    terminal := (k.threads parent).terminal, consoleId := (k.threads parent).consoleId }

theorem exec_program (k : Processes) (fds : Files) (shell kthread : Bool) (other : parent ≠ page.addr) :
    ∃ k1, exec k page fds parent (.program shell) kthread = .ok (k1, 0) ∧ Added k parent page.addr
        { freshThread k page parent kthread with shell, fds := some fds } k1 := by
  have created := processCreate_added k kthread other
  unfold exec
  have loaded := created.modify fun t => { t with shell, fds := some fds }
  simp only [created.lastChild other, ok_bind]
  exact ⟨_, rfl, { loaded with }⟩

theorem exec_unloaded {fds : Files} {kthread : Bool} {errno : Int} (other : parent ≠ page.addr)
    (done : exec k page fds parent .unloaded kthread = .ok (k', errno)) :
    errno = -1 ∧ ∃ k1, Added k parent page.addr (freshThread k page parent kthread) k1 ∧
      Removed k1 page.addr k' := by
  have created := processCreate_added k kthread other
  unfold exec at done
  generalize processCreate k page parent kthread = result at created done
  obtain ⟨k0, created'⟩ := result
  simp only [created.lastChild other, ok_bind] at done
  obtain ⟨k1, freed, done⟩ := bind_eq_ok.mp done
  cases done
  exact ⟨rfl, k0, created, processFree_removed freed⟩

theorem doExecute_program (k : Processes) (fds : Files) (shell : Bool) (other : parent ≠ page.addr) :
    ∃ k1 k2, doExecute k page fds parent (.program shell) = .ok (k2, 0) ∧
      Added k parent page.addr (executedThread k page fds parent shell) k1 ∧
      Rescheduled k1 page.addr k2 := by
  obtain ⟨k0, done, loaded⟩ := exec_program k fds shell false other
  have attached := loaded.modify fun t =>
    { t with terminal := (k.threads parent).terminal, consoleId := (k.threads parent).consoleId }
  have terminal := loaded.thread (g := (·.terminal)) (fun _ _ => rfl) parent other
  have console := loaded.thread (g := (·.consoleId)) (fun _ _ => rfl) parent other
  unfold doExecute
  rw [done, ok_bind]
  simp only [loaded.lastChild other, ok_bind, terminal, console]
  exact ⟨_, _, rfl, attached, activate_rescheduled _ page.addr⟩

/-- `sys_execute` of a program that loads: the child is queued and becomes the task of its
    console, and the caller goes to sleep. -/
theorem executeBegin_program (k : Processes) (fds : Files) (shell : Bool) (other : curr ≠ page.addr) :
    ∃ k1 k2 k', executeBegin k page fds curr (.program shell) = .ok (k', 0) ∧
      Added k curr page.addr (executedThread k page fds curr shell) k1 ∧
      Rescheduled k1 page.addr k2 ∧
      k' = schedSleep (k2.setTask (k.threads curr).consoleId page.addr) curr := by
  obtain ⟨k1, k2, done, added, active⟩ := doExecute_program k fds shell other
  have last : lastChild k2 curr = .ok page.addr := by
    have same := active.thread (g := (·.children)) (fun _ _ _ _ _ => rfl) curr
    unfold Kernel.lastChild
    rw [same]
    exact added.lastChild other
  have console : (k2.threads page.addr).consoleId = (k.threads curr).consoleId := by
    rw [active.thread (g := (·.consoleId)) fun _ _ _ _ _ => rfl, added.new]
    rfl
  unfold executeBegin
  rw [done, ok_bind]
  simp only [last, ok_bind, console]
  exact ⟨k1, k2, _, rfl, added, active, rfl⟩

/-- A call of `sys_execute` that does not start a child returns -1. -/
theorem executeBegin_fails {fds : Files} {cmd : Command}
    {status : Int} (other : curr ≠ page.addr) (bad : ∀ shell, cmd ≠ .program shell)
    (done : executeBegin k page fds curr cmd = .ok (k', status)) :
    status = -1 ∧ (k' = k ∨ ∃ k1, Added k curr page.addr (freshThread k page curr false) k1 ∧
      Removed k1 page.addr k') := by
  unfold executeBegin doExecute at done
  cases cmd with
  | unparsed =>
    cases done
    exact ⟨rfl, .inl rfl⟩
  | unloaded =>
    obtain ⟨⟨k2, errno⟩, executed, done⟩ := bind_eq_ok.mp done
    obtain ⟨⟨k3, errno'⟩, failed, executed⟩ := bind_eq_ok.mp executed
    obtain ⟨rfl, k1, added, removed⟩ := exec_unloaded other failed
    cases executed
    cases done
    exact ⟨rfl, .inr ⟨k1, added, removed⟩⟩
  | program shell => exact absurd rfl (bad shell)

theorem executeEnd_spec {value : UInt32} (done : executeEnd k curr = .ok (k', value, p)) :
    (k.threads curr).children.getLast? = some p ∧ value = (k'.threads curr).eax ∧
    Removed (k.modify p fun t => { t with state := .exited }) p k' := by
  unfold executeEnd at done
  obtain ⟨child, last, done⟩ := bind_eq_ok.mp done
  obtain ⟨k1, freed, done⟩ := bind_eq_ok.mp done
  cases done
  refine ⟨?_, rfl, processFree_removed freed⟩
  unfold Kernel.lastChild at last
  split at last
  · next found =>
    cases last
    exact found
  · cases last

theorem executeEnd_last (last : (k.threads curr).children.getLast? = some p)
    (mine : (k.threads p).parent = curr) :
    ∃ k', executeEnd k curr = .ok (k', (k.threads curr).eax, p) := by
  have found : Kernel.lastChild k curr = .ok p := by
    unfold Kernel.lastChild
    rw [last]
    rfl
  have parent := modify_field (·.parent) (k := k) (p := p) (f := fun t => { t with state := .exited }) rfl
  have children := modify_field (·.children) (k := k) (p := p) (f := fun t => { t with state := .exited }) rfl
  have eax := modify_field (·.eax) (k := k) (p := p) (f := fun t => { t with state := .exited }) rfl
  unfold executeEnd
  rw [found, ok_bind]
  generalize (k.modify p fun t => { t with state := .exited }) = k1 at parent children eax ⊢
  have some : (k1.threads (k1.threads p).parent).children ≠ [] := by
    rw [parent, mine, children]
    exact ne_nil_of_mem (mem_of_getLast? last)
  obtain ⟨k', freed⟩ : ∃ k', processFree k1 p = .ok k' := ⟨_, if_neg some⟩
  refine ⟨k', ?_⟩
  simp only [freed, ok_bind]
  rw [(processFree_removed freed).thread (g := (·.eax)) fun _ _ => rfl, eax]
  rfl

/-! ## Exit -/

/-- The part `g` of a thread does not depend on its parent. -/
def Parentless {α : Type} (g : Thread → α) : Prop := ∀ t p, g { t with parent := p } = g t

/-- The threads in `moved` become children of `parent`. -/
structure Placed (k : Processes) (dest : Nat) (moved : List Nat) (k' : Processes) : Prop where
  thread : ∀ {α : Type} {g : Thread → α}, Childless g → Parentless g →
    ∀ q, g (k'.threads q) = g (k.threads q)
  parent : ∀ q, (k'.threads q).parent = if q ∈ moved then dest else (k.threads q).parent
  children : ∀ q, (k'.threads q).children =
    if q = dest then (k.threads q).children ++ moved else (k.threads q).children
  consoles : k'.consoles = k.consoles
  current : k'.current = k.current
  running : k'.running = k.running
  taskQueue : k'.taskQueue = k.taskQueue
  rq : k'.rq = k.rq

theorem placeChildren_placed (k : Processes) (task : Nat) :
    Placed k (k.threads task).parent (k.threads task).children (placeChildren k task) := by
  unfold placeChildren
  generalize (k.threads task).parent = parent
  generalize (k.threads task).children = moved
  induction moved generalizing k with
  | nil => exact ⟨fun _ _ _ => rfl, fun q => by simp, fun q => by simp, rfl, rfl, rfl, rfl, rfl⟩
  | cons child moved ih =>
    rw [foldl_cons]
    have rest := ih ((k.modify parent fun t => { t with children := t.children ++ [child] }).modify
      child fun t => { t with parent })
    constructor
    · intro α g childless parentless q
      rw [rest.thread childless parentless, modify_field g (f := fun t => { t with parent }) (parentless _ _),
        modify_field g (f := fun t => { t with children := t.children ++ [child] }) (childless _ _)]
    · intro q
      rw [rest.parent]
      by_cases later : q ∈ moved
      · rw [if_pos later, if_pos (mem_cons_of_mem _ later)]
      · rw [if_neg later]
        by_cases first : q = child
        · rw [if_pos (first ▸ mem_cons_self), first, modify_self]
        · rw [if_neg (by simp [first, later]), modify_of_ne first]
          exact modify_field (·.parent) (f := fun t => { t with children := t.children ++ [child] }) rfl q
    · intro q
      rw [rest.children, modify_field (·.children) (f := fun t => { t with parent }) rfl]
      by_cases same : q = parent
      · rw [if_pos same, if_pos same, same, modify_self, append_assoc]
        rfl
      · rw [if_neg same, if_neg same, modify_of_ne same]
    · exact rest.consoles
    · exact rest.current
    · exact rest.running
    · exact rest.taskQueue
    · exact rest.rq

/-- A shell that `console_init` starts; it never exits. -/
def KernelShell (t : Thread) : Prop := t.kthread = true ∧ t.shell = true

/-- `do_exit` of a process that is not a shell of the kernel: its children move to its parent,
    which gets the status, becomes the task of its console and is woken. -/
theorem doExit_spec {child : Nat} {status : UInt32} (done : doExit k child status = some k') :
    ¬ KernelShell (k.threads child) ∧
    ∃ k1 k2, Placed k (k.threads child).parent (k.threads child).children k1 ∧
      Rescheduled k1 (k.threads child).parent k2 ∧ (k2.threads (k.threads child).parent).eax = status ∧
      k' = schedExit (k2.setTask (k.threads (k.threads child).parent).consoleId (k.threads child).parent)
        child (k.threads child).parent := by
  unfold doExit at done
  split at done
  · cases done
  · next user =>
    refine ⟨user, ?_⟩
    cases done
    have placed := placeChildren_placed k child
    generalize (k.threads child).parent = parent at placed ⊢
    generalize placeChildren k child = k1 at placed ⊢
    have told := (Rescheduled.ntask k1 parent (k1.ntask - 1)).trans
      (.modify _ parent (f := fun t => { t with eax := status }) fun t => ⟨t.state, t.flag, status, rfl⟩)
    have console : (k.threads parent).consoleId =
        (({ k1 with ntask := k1.ntask - 1 }.modify parent fun t => { t with eax := status }).threads
          parent).consoleId := by
      rw [told.thread (g := (·.consoleId)) fun _ _ _ _ _ => rfl,
        placed.thread (g := (·.consoleId)) (fun _ _ => rfl) (fun _ _ => rfl)]
    rw [console]
    refine ⟨k1, _, placed, told, ?_, rfl⟩
    rw [modify_self]

end Illinix.Verified.Process
