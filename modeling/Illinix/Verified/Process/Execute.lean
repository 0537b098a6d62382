import Illinix.Verified.Process.Tree
import Illinix.Lib.Run

/-! # Waiting for an executed program

`sys_execute` puts its caller to sleep without recording the child it waits for, and takes the
last child of the caller when it runs again.  That is the right one as long as no other child
of the caller exits meanwhile and the executed program leaves no children behind. -/

namespace Illinix.Verified.Process

open Kernel Lib Function List

/-- The processes, the child that each process inside `sys_execute` has created, and the status
    that each process that called `do_exit` has passed to it. -/
structure Executes extends Processes where
  waits : Nat → Option Nat
  exits : Nat → Option UInt32

/-- `schedule next` is a context switch of the running process, `executeEnd` the rest of
    `sys_execute` when its caller runs again. -/
inductive ExecuteEvent where
  | schedule (next : Nat)
  | fork (page : Page)
  | execute (page : Page) (fds : Files) (cmd : Command)
  | executeEnd
  | exit (status : UInt32)

/-- The running process executes code of its own: it neither sleeps nor has exited, and is not
    inside `sys_execute`. -/
def Acts (s : Executes) : Prop :=
  (s.threads s.running).state ≠ .sleeping ∧ (s.threads s.running).state ≠ .exited ∧
  s.waits s.running = none

/-- A call of `sys_execute` goes on when its caller does not sleep any more; `alloc_kstack`
    returns a page that no process uses. -/
def ExecuteLegal (s : Executes) : ExecuteEvent → Prop
  | .schedule _ => True
  | .fork page => Acts s ∧ page.addr ∉ s.taskQueue
  | .execute page _ _ => Acts s ∧ page.addr ∉ s.taskQueue
  | .executeEnd => (s.waits s.running).isSome = true ∧ (s.threads s.running).state ≠ .sleeping
  | .exit _ => Acts s

def executeExec (s : Executes) : ExecuteEvent → Option Executes
  | .schedule next =>
    (schedule s.toProcesses s.running next).toOption.map fun k => { s with toProcesses := k }
  | .fork page =>
    (doFork s.toProcesses page s.running).toOption.map fun r =>
      { s with toProcesses := r.1, exits := update s.exits page.addr none }
  | .execute page fds cmd =>
    (executeBegin s.toProcesses page fds s.running cmd).toOption.map fun r =>
      if r.2 < 0 then
        { s with toProcesses := r.1 }
      else
        ⟨r.1, update s.waits s.running (some page.addr),
          update s.exits page.addr none⟩
  | .executeEnd =>
    (executeEnd s.toProcesses s.running).toOption.map fun r =>
      { s with toProcesses := r.1, waits := update s.waits s.running none }
  | .exit status =>
    (doExit s.toProcesses s.running status).map fun k =>
      { s with toProcesses := k, exits := update s.exits s.running (some status) }

def ExecuteStep (s : Executes) (e : ExecuteEvent) (s' : Executes) : Prop :=
  ExecuteLegal s e ∧ executeExec s e = some s'

/-- When a call of `sys_execute` that created `c` goes on, `c` has called `do_exit`, and the call
    frees `c` and returns the status that `c` passed. -/
def ExecutesOk (s : Executes) : Prop :=
  ∀ c, s.waits s.running = some c → (s.threads s.running).state ≠ .sleeping →
    ∃ status k, s.exits c = some status ∧ executeEnd s.toProcesses s.running = .ok (k, status, c)

/-- A process whose parent is inside `sys_execute` exits only if it is the child that the call
    created, and has no children. -/
def ExecuteCareful (s : Executes) : ExecuteEvent → Prop
  | .exit _ => ∀ c ∈ s.waits (s.threads s.running).parent,
    c = s.running ∧ (s.threads s.running).children = []
  | _ => True

def CarefulExecuteStep (s : Executes) (e : ExecuteEvent) (s' : Executes) : Prop :=
  ExecuteCareful s e ∧ ExecuteStep s e s'

/-! ## Threads that do not run -/

/-- `p` is not queued and has the state `state`. -/
structure Off (k : Processes) (p : Nat) (state : ProState) : Prop where
  queued : p ∉ k.rq
  onRq : (k.threads p).onRq = false
  state : (k.threads p).state = state

/-- The state of `p` and what it was told have not changed, and it has not been queued. -/
structure Unmoved (k k' : Processes) (p : Nat) : Prop where
  onRq : (k'.threads p).onRq = (k.threads p).onRq
  state : (k'.threads p).state = (k.threads p).state
  eax : (k'.threads p).eax = (k.threads p).eax
  rq : p ∈ k'.rq → p ∈ k.rq

section

variable {k k' k'' : Processes} {p q : Nat}

theorem Unmoved.trans (first : Unmoved k k' p) (second : Unmoved k' k'' p) : Unmoved k k'' p :=
  ⟨second.onRq.trans first.onRq, second.state.trans first.state, second.eax.trans first.eax,
    fun queued => first.rq (second.rq queued)⟩

theorem Unmoved.off {state : ProState} (same : Unmoved k k' p) (off : Off k p state) : Off k' p state :=
  ⟨fun queued => off.queued (same.rq queued), same.onRq.trans off.onRq, same.state.trans off.state⟩

theorem Unmoved.of_eq (same : k'.threads p = k.threads p) (rq : p ∈ k'.rq → p ∈ k.rq) :
    Unmoved k k' p := by
  constructor
  · rw [same]
  · rw [same]
  · rw [same]
  · exact rq

theorem Rescheduled.unmoved (same : Rescheduled k q k') (other : p ≠ q) : Unmoved k k' p :=
  .of_eq (same.other p other) fun queued => (same.rq p queued).resolve_right other

theorem Added.unmoved {parent addr : Nat} {t : Thread} (added : Added k parent addr t k')
    (old : p ≠ addr) : Unmoved k k' p :=
  ⟨added.thread (g := (·.onRq)) (fun _ _ => rfl) p old, added.thread (g := (·.state)) (fun _ _ => rfl) p old,
    added.thread (g := (·.eax)) (fun _ _ => rfl) p old, fun queued => added.rq ▸ queued⟩

theorem Removed.unmoved (removed : Removed k q k') (p : Nat) : Unmoved k k' p :=
  ⟨removed.thread (g := (·.onRq)) (fun _ _ => rfl) p, removed.thread (g := (·.state)) (fun _ _ => rfl) p,
    removed.thread (g := (·.eax)) (fun _ _ => rfl) p, fun queued => removed.rq ▸ queued⟩

theorem Placed.unmoved {dest : Nat} {moved : List Nat} (placed : Placed k dest moved k') (p : Nat) :
    Unmoved k k' p :=
  ⟨placed.thread (g := (·.onRq)) (fun _ _ => rfl) (fun _ _ => rfl) p,
    placed.thread (g := (·.state)) (fun _ _ => rfl) (fun _ _ => rfl) p,
    placed.thread (g := (·.eax)) (fun _ _ => rfl) (fun _ _ => rfl) p, fun queued => placed.rq ▸ queued⟩

/-- A context switch does not bring back a thread that is off. -/
theorem Off.schedule {state : ProState} {next : Nat} (off : Off k p state) (stopped : state ≠ .running)
    (done : Kernel.schedule k k.running next = .ok k') : Off k' p state := by
  rcases schedule_spec done with rfl | ⟨queued, switched⟩
  · exact off
  · have out : p ∉ putBack k k.running := by
      intro back
      cases mem_putBack back with
      | inl before => exact off.queued before
      | inr mine =>
        rw [← mine.1, off.onRq] at mine
        cases mine.2
    constructor
    · rw [switched.rq]
      exact fun later => out (mem_of_mem_erase later)
    · exact (switched.thread (g := (·.onRq)) (fun _ _ => rfl) p).trans off.onRq
    · have notNext : p ≠ next := fun same => out (same ▸ queued)
      exact (switched.state p notNext (off.state ▸ stopped)).trans off.state

end

/-! ## The process tree -/

/-- A process that has not called `do_exit`. -/
def Live (s : Executes) (p : Nat) : Prop := p ∈ s.taskQueue ∧ s.exits p = none

/-- Parents and children agree, and the processes form a tree. -/
structure TreeInv (s : Executes) : Prop where
  child : ∀ q, Live s q → ∀ r ∈ (s.threads q).children,
    r ∈ s.taskQueue ∧ (s.threads r).parent = q ∧ ¬ KernelShell (s.threads r)
  nodup : ∀ q, Live s q → (s.threads q).children.Nodup
  parent : ∀ p, Live s p → ¬ KernelShell (s.threads p) →
    Live s (s.threads p).parent ∧ p ∈ (s.threads (s.threads p).parent).children
  rank : ∃ born : Nat → Nat, ∀ q, Live s q → ∀ r ∈ (s.threads q).children, born q < born r

/-- A process tree: threads are queued once, and threads that have exited are off. -/
structure ProcessTree (s : Executes) : Prop where
  queue : QueueOk s.toProcesses
  exist : ∀ p ∈ s.rq, p ∈ s.taskQueue
  running : s.running ∈ s.taskQueue
  gone : ∀ p ∈ s.taskQueue, s.exits p ≠ none → Off s.toProcesses p .exited
  tree : TreeInv s

/-- `p` waits inside `sys_execute` for the child `c` it has created. -/
structure Waits (s : Executes) (p c : Nat) : Prop where
  live : Live s p
  last : (s.threads p).children.getLast? = some c
  asleep : s.exits c = none → Off s.toProcesses p .sleeping
  told : ∀ status, s.exits c = some status → (s.threads p).eax = status

structure ExecuteInv (s : Executes) : Prop extends ProcessTree s where
  waiting : ∀ p c, s.waits p = some c → Waits s p c

section

variable {s : Executes} {k : Processes}

theorem ProcessTree.acts (tree : ProcessTree s) (acts : Acts s) : Live s s.running := by
  refine ⟨tree.running, ?_⟩
  by_contra exited
  exact acts.2.1 (tree.gone _ tree.running exited).state

theorem TreeInv.ne_child (tree : TreeInv s) {q r : Nat} (live : Live s q)
    (child : r ∈ (s.threads q).children) : q ≠ r := by
  obtain ⟨born, older⟩ := tree.rank
  rintro rfl
  exact Nat.lt_irrefl _ (older q live q child)

/-- What the tree depends on in a thread. -/
def links (t : Thread) : Nat × List Nat × Bool × Bool := (t.parent, t.children, t.kthread, t.shell)

theorem links_stable : Stable links := fun _ _ _ _ _ => rfl

theorem TreeInv.congr (tree : TreeInv s) (tasks : k.taskQueue = s.taskQueue)
    (kept : ∀ q ∈ s.taskQueue, links (k.threads q) = links (s.threads q)) (waits : Nat → Option Nat) :
    TreeInv ⟨k, waits, s.exits⟩ := by
  have parent : ∀ q ∈ s.taskQueue, (k.threads q).parent = (s.threads q).parent :=
    fun q hq => congrArg (·.1) (kept q hq)
  have children : ∀ q ∈ s.taskQueue, (k.threads q).children = (s.threads q).children :=
    fun q hq => congrArg (·.2.1) (kept q hq)
  have kernel : ∀ q ∈ s.taskQueue, KernelShell (k.threads q) = KernelShell (s.threads q) :=
    fun q hq => congrArg (fun l : Nat × List Nat × Bool × Bool => l.2.2.1 = true ∧ l.2.2.2 = true) (kept q hq)
  have live : ∀ {p}, Live ⟨k, waits, s.exits⟩ p → Live s p := fun live => ⟨tasks ▸ live.1, live.2⟩
  constructor
  · intro q hq r hr
    obtain ⟨mem, mine, user⟩ := tree.child q (live hq) r (children q (live hq).1 ▸ hr)
    rw [tasks, parent r mem, kernel r mem]
    exact ⟨mem, mine, user⟩
  · intro q hq
    exact (children q (live hq).1).symm ▸ tree.nodup q (live hq)
  · intro p hp user
    rw [kernel p (live hp).1] at user
    obtain ⟨older, mine⟩ := tree.parent p (live hp) user
    rw [parent p (live hp).1, children _ older.1]
    exact ⟨⟨tasks.symm ▸ older.1, older.2⟩, mine⟩
  · obtain ⟨born, older⟩ := tree.rank
    refine ⟨born, fun q hq r hr => ?_⟩
    exact older q (live hq) r (children q (live hq).1 ▸ hr)

end

/-! ## Steps -/

section

variable {s : Executes} {k k' : Processes} {addr c p : Nat} {page : Page} {t : Thread}

theorem ExecuteInv.schedule {next : Nat} (inv : ExecuteInv s)
    (done : Kernel.schedule s.toProcesses s.running next = .ok k) :
    ExecuteInv ⟨k, s.waits, s.exits⟩ := by
  have off : ∀ {p state}, Off s.toProcesses p state → state ≠ .running → Off k p state :=
    fun off stopped => off.schedule stopped done
  have queue := inv.queue.schedule done
  rcases schedule_spec done with rfl | ⟨queued, switched⟩
  · exact inv
  · have exist : ∀ q ∈ putBack s.toProcesses s.running, q ∈ s.taskQueue := by
      intro q hq
      cases mem_putBack hq with
      | inl before => exact inv.exist q before
      | inr mine => exact mine.1 ▸ inv.running
    have tasks : k.taskQueue = s.taskQueue := switched.taskQueue
    refine ⟨⟨queue, ?_, ?_, ?_, ?_⟩, ?_⟩
    · intro p hp
      rw [switched.rq] at hp
      exact tasks.symm ▸ exist p (mem_of_mem_erase hp)
    · rw [tasks, switched.running]
      split
      · exact inv.running
      · exact exist next queued
    · intro p hp exited
      exact off (inv.gone p (tasks ▸ hp) exited) (by decide)
    · exact inv.tree.congr tasks (fun q _ => switched.thread (g := links) (fun _ _ => rfl) q) _
    · intro p c waits
      have waiting := inv.waiting p c waits
      constructor
      · exact ⟨tasks.symm ▸ waiting.live.1, waiting.live.2⟩
      · rw [switched.thread (g := (·.children)) fun _ _ => rfl]
        exact waiting.last
      · exact fun running => off (waiting.asleep running) (by decide)
      · intro status exited
        exact (switched.thread (g := (·.eax)) (fun _ _ => rfl) p).trans (waiting.told status exited)

theorem Waits.congr {waits : Nat → Option Nat} {exits : Nat → Option UInt32}
    (waiting : Waits s p c) (same : Unmoved s.toProcesses k p)
    (children : (k.threads p).children = (s.threads p).children)
    (live : Live ⟨k, waits, exits⟩ p) (child : exits c = s.exits c) : Waits ⟨k, waits, exits⟩ p c := by
  constructor
  · exact live
  · exact (congrArg getLast? children).trans waiting.last
  · intro running
    exact same.off (waiting.asleep (child ▸ running))
  · intro status exited
    exact same.eax.trans (waiting.told status (child ▸ exited))

theorem TreeInv.added (tree : TreeInv s) (live : Live s s.running)
    (fresh : addr ∉ s.taskQueue) (added : Added s.toProcesses s.running addr t k)
    (parent : t.parent = s.running) (none : t.children = []) (user : t.kthread = false) :
    TreeInv ⟨k, s.waits, update s.exits addr Option.none⟩ := by
  have old : ∀ q ∈ s.taskQueue, q ≠ addr := fun q hq => ne_of_mem_of_not_mem hq fresh
  have tasks : ∀ q ∈ s.taskQueue, q ∈ k.taskQueue := fun q hq => added.mem_taskQueue.mpr (.inl hq)
  have stays : ∀ {q}, Live s q → Live ⟨k, s.waits, update s.exits addr Option.none⟩ q := by
    intro q hq
    refine ⟨tasks q hq.1, ?_⟩
    change update s.exits addr Option.none q = Option.none
    rw [update_of_ne (old q hq.1)]
    exact hq.2
  have was : ∀ {q}, Live ⟨k, s.waits, update s.exits addr Option.none⟩ q → q ≠ addr → Live s q := by
    intro q hq other
    obtain ⟨mem, running⟩ := hq
    change update s.exits addr Option.none q = Option.none at running
    rw [update_of_ne other] at running
    exact ⟨(added.mem_taskQueue.mp mem).resolve_right other, running⟩
  have childless : (k.threads addr).children = [] := by rw [added.new, none]
  have kept : ∀ r ∈ s.taskQueue, (k.threads r).parent = (s.threads r).parent ∧
      (KernelShell (k.threads r) ↔ KernelShell (s.threads r)) := by
    intro r hr
    refine ⟨added.thread (g := (·.parent)) (fun _ _ => rfl) r (old r hr), ?_⟩
    rw [added.thread (g := KernelShell) (fun _ _ => rfl) r (old r hr)]
  constructor
  · intro q hq r hr
    rcases eq_or_ne q addr with rfl | other
    · rw [childless] at hr
      cases hr
    · rcases (added.mem_children other).mp hr with before | ⟨rfl, rfl⟩
      · obtain ⟨mem, mine, notShell⟩ := tree.child q (was hq other) r before
        rw [(kept r mem).1, (kept r mem).2]
        exact ⟨tasks r mem, mine, notShell⟩
      · rw [added.new]
        refine ⟨added.mem_taskQueue.mpr (.inr rfl), parent, fun shell => ?_⟩
        rw [shell.1] at user
        cases user
  · intro q hq
    rcases eq_or_ne q addr with rfl | other
    · rw [childless]
      exact nodup_nil
    · have before := tree.nodup q (was hq other)
      rw [added.children q other]
      split
      · rw [← concat_eq_append]
        exact before.concat fun mine => fresh (tree.child q (was hq other) addr mine).1
      · exact before
  · intro p hp notShell
    rcases eq_or_ne p addr with rfl | other
    · rw [added.new, parent]
      exact ⟨stays live, (added.mem_children (old _ live.1)).mpr (.inr ⟨rfl, rfl⟩)⟩
    · have mem := (was hp other).1
      rw [(kept p mem).2] at notShell
      rw [(kept p mem).1]
      obtain ⟨older, mine⟩ := tree.parent p (was hp other) notShell
      exact ⟨stays older, (added.mem_children (old _ older.1)).mpr (.inl mine)⟩
  · obtain ⟨born, older⟩ := tree.rank
    refine ⟨update born addr (born s.running + 1), fun q hq r hr => ?_⟩
    rcases eq_or_ne q addr with rfl | other
    · rw [childless] at hr
      cases hr
    · rw [update_of_ne other]
      rcases (added.mem_children other).mp hr with before | ⟨rfl, rfl⟩
      · have mem := (tree.child q (was hq other) r before).1
        rw [update_of_ne (old r mem)]
        exact older q (was hq other) r before
      · rw [update_self]
        exact Nat.lt_succ_self _

section

variable (inv : ExecuteInv s)

include inv

theorem ExecuteInv.spawned (acts : Acts s)
    (fresh : addr ∉ s.taskQueue) (added : Added s.toProcesses s.running addr t k)
    (parent : t.parent = s.running) (none : t.children = []) (user : t.kthread = false)
    (active : Rescheduled k addr k') :
    ExecuteInv ⟨k', s.waits, update s.exits addr Option.none⟩ := by
  have old : ∀ q ∈ s.taskQueue, q ≠ addr := fun q hq => ne_of_mem_of_not_mem hq fresh
  have tasks : ∀ q, q ∈ k'.taskQueue ↔ q ∈ s.taskQueue ∨ q = addr := by
    intro q
    rw [active.taskQueue, added.mem_taskQueue]
  have unmoved : ∀ q ∈ s.taskQueue, Unmoved s.toProcesses k' q := by
    intro q hq
    exact (added.unmoved (old q hq)).trans (active.unmoved (old q hq))
  have tree := (inv.tree.added (inv.acts acts) fresh added parent none user).congr
    active.taskQueue (fun q _ => active.thread links_stable q) s.waits
  refine ⟨⟨?_, ?_, ?_, ?_, tree⟩, ?_⟩
  · refine active.queue ⟨?_, ?_, ?_⟩
    · rw [added.rq]
      exact inv.queue.nodup
    · intro q hq
      rw [added.rq] at hq
      exact (added.unmoved (old q (inv.exist q hq))).onRq.trans (inv.queue.onRq q hq)
    · rw [added.running, added.rq]
      exact inv.queue.running
  · intro q hq
    apply (tasks q).mpr
    cases active.rq q hq with
    | inl before =>
      rw [added.rq] at before
      exact .inl (inv.exist q before)
    | inr new => exact .inr new
  · apply (tasks _).mpr
    rw [active.running, added.running]
    exact .inl inv.running
  · intro q hq exited
    change update s.exits addr Option.none q ≠ Option.none at exited
    rcases (tasks q).mp hq with before | rfl
    · rw [update_of_ne (old q before)] at exited
      exact (unmoved q before).off (inv.gone q before exited)
    · exact absurd (update_self ..) exited
  · intro p c waits
    have waiting := inv.waiting p c waits
    have mem := waiting.live.1
    have notRunning : p ≠ s.running := by
      rintro rfl
      cases waits.symm.trans acts.2.2
    have child : c ∈ s.taskQueue := (inv.tree.child p waiting.live c (mem_of_getLast? waiting.last)).1
    apply waiting.congr (unmoved p mem)
    · rw [active.thread (g := (·.children)) fun _ _ _ _ _ => rfl, added.children p (old p mem),
        if_neg notRunning]
    · refine ⟨(tasks p).mpr (.inl mem), ?_⟩
      change update s.exits addr Option.none p = Option.none
      rw [update_of_ne (old p mem)]
      exact waiting.live.2
    · exact update_of_ne (old c child) ..

theorem ExecuteInv.sleeps (console : Nat) (live : Live s s.running)
    (last : (s.threads s.running).children.getLast? = some c) (running : s.exits c = none) :
    ExecuteInv ⟨schedSleep (s.toProcesses.setTask console c) s.running,
      update s.waits s.running (some c), s.exits⟩ := by
  have same := schedSleep_sameTree (s.toProcesses.setTask console c) s.running
  have unmoved : ∀ q, q ≠ s.running →
      Unmoved s.toProcesses (schedSleep (s.toProcesses.setTask console c) s.running) q :=
    fun q other => .of_eq (modify_of_ne other) fun queued => queued
  have children := same.thread (g := (·.children)) fun _ _ _ _ _ => rfl
  have asleep : Off (schedSleep (s.toProcesses.setTask console c) s.running) s.running .sleeping := by
    refine ⟨inv.queue.running, ?_, ?_⟩
    · exact congrArg Thread.onRq (modify_self ..)
    · exact congrArg Thread.state (modify_self ..)
  refine ⟨⟨?_, inv.exist, inv.running, ?_, ?_⟩, ?_⟩
  · have queue : QueueOk (s.toProcesses.setTask console c) := { inv.queue with }
    exact queue.modify inv.queue.running fun t => { t with onRq := false, state := .sleeping }
  · intro q hq exited
    have other : q ≠ s.running := by
      rintro rfl
      exact exited live.2
    exact (unmoved q other).off (inv.gone q hq exited)
  · exact inv.tree.congr (k := schedSleep (s.toProcesses.setTask console c) s.running) rfl
      (fun q _ => same.thread links_stable q) _
  · intro p c' waits
    change update s.waits s.running (some c) p = some c' at waits
    rcases eq_or_ne p s.running with rfl | other
    · rw [update_self] at waits
      cases waits
      refine ⟨live, ?_, fun _ => asleep, ?_⟩
      · exact (congrArg getLast? (children _)).trans last
      · intro status exited
        cases running.symm.trans exited
    · rw [update_of_ne other] at waits
      have waiting := inv.waiting p c' waits
      exact waiting.congr (unmoved p other) (children p) waiting.live rfl

/-- A program that does not load: the process created for it is freed again. -/
theorem ExecuteInv.unloaded (fresh : addr ∉ s.taskQueue)
    (added : Added s.toProcesses s.running addr t k) (parent : t.parent = s.running)
    (removed : Removed k addr k') : ExecuteInv ⟨k', s.waits, s.exits⟩ := by
  have old : ∀ q ∈ s.taskQueue, q ≠ addr := fun q hq => ne_of_mem_of_not_mem hq fresh
  have tasks : k'.taskQueue = s.taskQueue := removed.taskQueue_added added fresh
  have rq : k'.rq = s.rq := removed.rq.trans added.rq
  have unmoved : ∀ q ∈ s.taskQueue, Unmoved s.toProcesses k' q :=
    fun q hq => (added.unmoved (old q hq)).trans (removed.unmoved q)
  have children : ∀ q ∈ s.taskQueue, (k'.threads q).children = (s.threads q).children := by
    intro q hq
    rw [removed.children, added.new, parent, added.children q (old q hq)]
    split
    · exact dropLast_concat
    · rfl
  have kept : ∀ q ∈ s.taskQueue, links (k'.threads q) = links (s.threads q) := by
    intro q hq
    unfold links
    rw [children q hq, removed.thread (g := (·.parent)) fun _ _ => rfl,
      removed.thread (g := (·.kthread)) fun _ _ => rfl, removed.thread (g := (·.shell)) fun _ _ => rfl,
      added.thread (g := (·.parent)) (fun _ _ => rfl) q (old q hq),
      added.thread (g := (·.kthread)) (fun _ _ => rfl) q (old q hq),
      added.thread (g := (·.shell)) (fun _ _ => rfl) q (old q hq)]
  refine ⟨⟨⟨?_, ?_, ?_⟩, ?_, ?_, ?_, inv.tree.congr tasks kept s.waits⟩, ?_⟩
  · exact rq.symm ▸ inv.queue.nodup
  · intro q hq
    rw [rq] at hq
    exact (unmoved q (inv.exist q hq)).onRq.trans (inv.queue.onRq q hq)
  · rw [removed.running, added.running, rq]
    exact inv.queue.running
  · rw [rq, tasks]
    exact inv.exist
  · rw [removed.running, added.running, tasks]
    exact inv.running
  · intro q hq exited
    rw [tasks] at hq
    exact (unmoved q hq).off (inv.gone q hq exited)
  · intro p c waits
    have waiting := inv.waiting p c waits
    have mem := waiting.live.1
    exact waiting.congr (unmoved p mem) (children p mem) ⟨tasks.symm ▸ mem, waiting.live.2⟩ rfl

theorem ExecuteInv.fork {pid : UInt32} (acts : Acts s)
    (fresh : page.addr ∉ s.taskQueue) (done : doFork s.toProcesses page s.running = .ok (k, pid)) :
    ExecuteInv ⟨k, s.waits, update s.exits page.addr none⟩ := by
  obtain ⟨k1, k2, pid', done', added, active⟩ :=
    doFork_spec s.toProcesses (ne_of_mem_of_not_mem inv.running fresh)
  cases done.symm.trans done'
  exact inv.spawned acts fresh added rfl rfl rfl active

theorem ExecuteInv.executeProgram {fds : Files} {shell : Bool} {status : Int} (acts : Acts s)
    (fresh : page.addr ∉ s.taskQueue)
    (done : executeBegin s.toProcesses page fds s.running (.program shell) = .ok (k, status)) :
    status = 0 ∧ ExecuteInv ⟨k, update s.waits s.running (some page.addr),
      update s.exits page.addr none⟩ := by
  have other := ne_of_mem_of_not_mem inv.running fresh
  obtain ⟨k1, k2, k3, done', added, active, rfl⟩ := executeBegin_program s.toProcesses fds shell other
  cases done.symm.trans done'
  refine ⟨rfl, ?_⟩
  have running : k2.running = s.running := active.running.trans added.running
  have spawned := inv.spawned acts fresh added rfl rfl rfl active
  have sleeps := spawned.sleeps (c := page.addr) (s.threads s.running).consoleId ?_ ?_ ?_
  · rw [running] at sleeps
    exact sleeps
  · refine ⟨spawned.running, ?_⟩
    change update s.exits page.addr none k2.running = none
    rw [running, update_of_ne other]
    exact (inv.acts acts).2
  · rw [running, active.thread (g := (·.children)) fun _ _ _ _ _ => rfl, added.children _ other, if_pos rfl]
    exact getLast?_concat
  · exact update_self ..

theorem ExecuteInv.executeFails {fds : Files} {cmd : Command} {status : Int} (fresh : page.addr ∉ s.taskQueue)
    (bad : ∀ shell, cmd ≠ .program shell)
    (done : executeBegin s.toProcesses page fds s.running cmd = .ok (k, status)) :
    status = -1 ∧ ExecuteInv ⟨k, s.waits, s.exits⟩ := by
  have other := ne_of_mem_of_not_mem inv.running fresh
  obtain ⟨rfl, same | ⟨k1, added, removed⟩⟩ := executeBegin_fails other bad done
  · exact ⟨rfl, same ▸ inv⟩
  · exact ⟨rfl, inv.unloaded fresh added rfl removed⟩

/-- The call of `sys_execute` that goes on frees the child it has created. -/
theorem ExecuteInv.executesOk : ExecutesOk s := by
  intro c waits awake
  have waiting := inv.waiting _ c waits
  cases exited : s.exits c with
  | none => exact absurd (waiting.asleep exited).state awake
  | some status =>
    have mine := (inv.tree.child _ waiting.live c (mem_of_getLast? waiting.last)).2.1
    obtain ⟨k, done⟩ := executeEnd_last waiting.last mine
    rw [waiting.told status exited] at done
    exact ⟨status, k, rfl, done⟩

end

/-- `process_free` of the last child, which has exited. -/
theorem TreeInv.removed {waits : Nat → Option Nat} (tree : TreeInv s) (live : Live s p)
    (last : (s.threads p).children.getLast? = some c) (exited : s.exits c ≠ none)
    (removed : Removed s.toProcesses c k) : TreeInv ⟨k, waits, s.exits⟩ := by
  obtain ⟨hc, mine, -⟩ := tree.child p live c (mem_of_getLast? last)
  have family := dropLast_append_getLast? c last
  have was : ∀ {q}, Live ⟨k, waits, s.exits⟩ q → Live s q := by
    intro q hq
    have other : q ≠ c := fun same => exited (same ▸ hq.2)
    exact ⟨(removed.mem_taskQueue other).mp hq.1, hq.2⟩
  -- the children of a process, without the one that is freed
  have children : ∀ q, Live s q → ∀ r, r ∈ (k.threads q).children ↔ r ∈ (s.threads q).children ∧ r ≠ c := by
    intro q hq r
    rw [removed.children, mine]
    split
    · next same =>
      have nodup := tree.nodup q hq
      rw [same, ← family] at nodup ⊢
      rw [dropLast_concat, mem_append, mem_singleton]
      constructor
      · exact fun hr => ⟨.inl hr, (nodup_append.mp nodup).2.2 r hr c mem_cons_self⟩
      · exact fun hr => hr.1.resolve_right hr.2
    · next other =>
      refine ⟨fun hr => ⟨hr, ?_⟩, fun hr => hr.1⟩
      rintro rfl
      exact other ((tree.child q hq r hr).2.1.symm.trans mine)
  have parent := removed.thread (g := (·.parent)) fun _ _ => rfl
  have kernel := removed.thread (g := KernelShell) fun _ _ => rfl
  constructor
  · intro q hq r hr
    obtain ⟨before, other⟩ := (children q (was hq) r).mp hr
    obtain ⟨mem, hers, user⟩ := tree.child q (was hq) r before
    rw [parent, kernel]
    exact ⟨(removed.mem_taskQueue other).mpr mem, hers, user⟩
  · intro q hq
    rw [removed.children]
    split
    · exact (tree.nodup q (was hq)).sublist (dropLast_sublist _)
    · exact tree.nodup q (was hq)
  · intro q hq user
    rw [kernel] at user
    obtain ⟨older, hers⟩ := tree.parent q (was hq) user
    have other : q ≠ c := fun same => exited (same ▸ hq.2)
    have notParent : (s.threads q).parent ≠ c := fun same => exited (same ▸ older.2)
    rw [parent]
    exact ⟨⟨(removed.mem_taskQueue notParent).mpr older.1, older.2⟩, (children _ older q).mpr ⟨hers, other⟩⟩
  · obtain ⟨born, older⟩ := tree.rank
    refine ⟨born, fun q hq r hr => ?_⟩
    exact older q (was hq) r ((children q (was hq) r).mp hr).1

theorem ExecuteInv.executeEnd {value : UInt32} (inv : ExecuteInv s)
    (waits : (s.waits s.running).isSome = true) (awake : (s.threads s.running).state ≠ .sleeping)
    (done : executeEnd s.toProcesses s.running = .ok (k, value, p)) :
    ExecuteInv ⟨k, update s.waits s.running none, s.exits⟩ := by
  obtain ⟨c, waits⟩ := Option.isSome_iff_exists.mp waits
  have waiting := inv.waiting _ c waits
  obtain ⟨last, -, removed⟩ := executeEnd_spec done
  cases last.symm.trans waiting.last
  have exited : s.exits p ≠ none := fun running => awake (waiting.asleep running).state
  have mem := mem_of_getLast? waiting.last
  obtain ⟨hp, mine, -⟩ := inv.tree.child _ waiting.live p mem
  have off := inv.gone p hp exited
  -- `p` has exited before, so that its state does not change
  have same : s.modify p (fun t => { t with state := .exited }) = s.toProcesses := by
    unfold Processes.modify
    rw [← off.state, update_eq_self]
  rw [same] at removed
  refine ⟨⟨⟨?_, ?_, ?_⟩, ?_, ?_, ?_, ?_⟩, ?_⟩
  · exact removed.rq.symm ▸ inv.queue.nodup
  · intro q hq
    exact (removed.unmoved q).onRq.trans (inv.queue.onRq q (removed.rq ▸ hq))
  · change k.running ∉ k.rq
    rw [removed.running, removed.rq]
    exact inv.queue.running
  · intro q hq
    have queued : q ∈ s.rq := removed.rq ▸ hq
    exact (removed.mem_taskQueue (ne_of_mem_of_not_mem queued off.queued)).mpr (inv.exist q queued)
  · change k.running ∈ k.taskQueue
    rw [removed.running]
    exact (removed.mem_taskQueue (inv.tree.ne_child waiting.live mem)).mpr inv.running
  · intro q hq exited
    have before : q ∈ s.taskQueue := mem_of_mem_erase (removed.taskQueue ▸ hq)
    exact (removed.unmoved q).off (inv.gone q before exited)
  · exact inv.tree.removed waiting.live waiting.last exited removed
  · intro q c waits
    change update s.waits s.running none q = some c at waits
    have other : q ≠ s.running := by
      rintro rfl
      rw [update_self] at waits
      cases waits
    rw [update_of_ne other] at waits
    have waiting := inv.waiting q c waits
    have notFreed : q ≠ p := fun same => exited (same ▸ waiting.live.2)
    apply waiting.congr (removed.unmoved q)
    · rw [removed.children, mine, if_neg other]
    · exact ⟨(removed.mem_taskQueue notFreed).mpr waiting.live.1, waiting.live.2⟩
    · rfl

/-- The children of a process that exits become children of its parent. -/
theorem TreeInv.placed (tree : TreeInv s) (status : UInt32) (live : Live s p)
    (user : ¬ KernelShell (s.threads p))
    (placed : Placed s.toProcesses (s.threads p).parent (s.threads p).children k) :
    TreeInv ⟨k, s.waits, update s.exits p (some status)⟩ := by
  obtain ⟨older, mine⟩ := tree.parent p live user
  generalize (s.threads p).parent = dest at older mine placed
  have was : ∀ {q}, Live ⟨k, s.waits, update s.exits p (some status)⟩ q → Live s q ∧ q ≠ p := by
    rintro q ⟨mem, running⟩
    change update s.exits p (some status) q = none at running
    have other : q ≠ p := by
      rintro rfl
      rw [update_self] at running
      cases running
    rw [update_of_ne other] at running
    exact ⟨⟨placed.taskQueue ▸ mem, running⟩, other⟩
  have stays : ∀ {q}, Live s q → q ≠ p → Live ⟨k, s.waits, update s.exits p (some status)⟩ q := by
    intro q hq other
    exact ⟨placed.taskQueue.symm ▸ hq.1, (update_of_ne other ..).trans hq.2⟩
  have kernel := placed.thread (g := KernelShell) (fun _ _ => rfl) fun _ _ => rfl
  have children : ∀ q r, r ∈ (k.threads q).children ↔
      r ∈ (s.threads q).children ∨ q = dest ∧ r ∈ (s.threads p).children := by
    intro q r
    rw [placed.children]
    split
    · next same => simp [same]
    · next other => simp [other]
  have notSelf : dest ≠ p := tree.ne_child older mine
  constructor
  · intro q hq r hr
    rw [placed.taskQueue, placed.parent, kernel]
    obtain ⟨hq, other⟩ := was hq
    rcases (children q r).mp hr with before | ⟨rfl, moved⟩
    · obtain ⟨mem, hers, notShell⟩ := tree.child q hq r before
      have notMoved : r ∉ (s.threads p).children :=
        fun moved => other (hers.symm.trans (tree.child p live r moved).2.1)
      rw [if_neg notMoved]
      exact ⟨mem, hers, notShell⟩
    · obtain ⟨mem, -, notShell⟩ := tree.child p live r moved
      rw [if_pos moved]
      exact ⟨mem, rfl, notShell⟩
  · intro q hq
    obtain ⟨hq, other⟩ := was hq
    rw [placed.children]
    split
    · refine nodup_append.mpr ⟨tree.nodup q hq, tree.nodup p live, ?_⟩
      rintro r hr _ moved rfl
      exact other ((tree.child q hq r hr).2.1.symm.trans (tree.child p live r moved).2.1)
    · exact tree.nodup q hq
  · intro q hq notShell
    obtain ⟨hq, other⟩ := was hq
    rw [kernel] at notShell
    obtain ⟨hers, member⟩ := tree.parent q hq notShell
    rw [placed.parent]
    split
    · next moved => exact ⟨stays older notSelf, (children dest q).mpr (.inr ⟨rfl, moved⟩)⟩
    · next stayed =>
      have notMine : (s.threads q).parent ≠ p := fun same => stayed (same ▸ member)
      exact ⟨stays hers notMine, (children _ q).mpr (.inl member)⟩
  · obtain ⟨born, elder⟩ := tree.rank
    refine ⟨born, fun q hq r hr => ?_⟩
    obtain ⟨hq, other⟩ := was hq
    rcases (children q r).mp hr with before | ⟨rfl, moved⟩
    · exact elder q hq r before
    · exact Nat.lt_trans (elder q hq p mine) (elder p live r moved)

/-- What `do_exit(status)` of the running process does: its children move to `dest`, it stops
    for good, and `dest` is told the status. -/
structure Exited (k : Processes) (dest : Nat) (status : UInt32) (k' : Processes) : Prop where
  links : ∃ k1, Placed k dest (k.threads k.running).children k1 ∧
    ∀ q, links (k'.threads q) = links (k1.threads q)
  unmoved : ∀ q ≠ dest, q ≠ k.running → Unmoved k k' q
  off : Off k' k.running .exited
  told : (k'.threads dest).eax = status
  queue : QueueOk k'
  rq : ∀ q ∈ k'.rq, q ∈ k.rq ∨ q = dest
  running : k'.running = k.running
  taskQueue : k'.taskQueue = k.taskQueue

theorem doExit_exited {status : UInt32} (ok : QueueOk k) (notSelf : (k.threads k.running).parent ≠ k.running)
    (done : doExit k k.running status = some k') :
    ¬ KernelShell (k.threads k.running) ∧ Exited k (k.threads k.running).parent status k' := by
  obtain ⟨user, k1, k2, placed, told, eax, rfl⟩ := doExit_spec done
  refine ⟨user, ?_⟩
  generalize (k.threads k.running).parent = dest at notSelf placed told eax ⊢
  generalize (k.threads dest).consoleId = console
  have rq : ∀ q ∈ k2.rq, q ∈ k.rq ∨ q = dest := by
    intro q hq
    rw [← placed.rq]
    exact told.rq q hq
  have out : k.running ∉ k2.rq := by
    intro queued
    cases rq _ queued with
    | inl before => exact ok.running before
    | inr mine => exact notSelf mine.symm
  have queue : QueueOk (k2.setTask console dest) := by
    have before : QueueOk k1 := by
      refine ⟨placed.rq.symm ▸ ok.nodup, fun q hq => ?_, ?_⟩
      · exact (placed.unmoved q).onRq.trans (ok.onRq q (placed.rq ▸ hq))
      · rw [placed.running, placed.rq]
        exact ok.running
    exact { told.queue before with }
  -- the exiting process is stopped before its parent is woken
  have same := schedExit_sameTree (k2.setTask console dest) k.running dest
  have queued := schedExit_rq (k2.setTask console dest) k.running dest
  have woken := schedWakeup_rescheduled ((k2.setTask console dest).modify k.running exitedThread) dest
  have eax' := schedWakeup_eax ((k2.setTask console dest).modify k.running exitedThread) dest dest
  change ((schedExit (k2.setTask console dest) k.running dest).threads dest).eax = _ at eax'
  constructor
  · refine ⟨k1, placed, fun q => ?_⟩
    exact (same.thread links_stable q).trans (told.thread links_stable q)
  · intro q notDest other
    have stays : Unmoved k2 ((k2.setTask console dest).modify k.running exitedThread) q :=
      .of_eq (modify_of_ne other) fun queued => queued
    exact ((placed.unmoved q).trans (told.unmoved notDest)).trans (stays.trans (woken.unmoved notDest))
  · refine (woken.unmoved (Ne.symm notSelf)).off ⟨out, ?_, ?_⟩
    · exact congrArg Thread.onRq (modify_self ..)
    · exact congrArg Thread.state (modify_self ..)
  · rw [eax', modify_of_ne notSelf]
    exact eax
  · exact woken.queue (queue.modify out exitedThread)
  · intro q hq
    cases queued q hq with
    | inl before => exact rq q before
    | inr new => exact .inr new
  · exact same.running.trans (told.running.trans placed.running)
  · exact same.taskQueue.trans (told.taskQueue.trans placed.taskQueue)

theorem ExecuteInv.exit {status : UInt32} (inv : ExecuteInv s) (acts : Acts s)
    (careful : ∀ c ∈ s.waits (s.threads s.running).parent,
      c = s.running ∧ (s.threads s.running).children = [])
    (done : doExit s.toProcesses s.running status = some k) :
    ExecuteInv ⟨k, s.waits, update s.exits s.running (some status)⟩ := by
  have live := inv.acts acts
  obtain ⟨user, -⟩ := doExit_spec done
  obtain ⟨older, mine⟩ := inv.tree.parent _ live user
  have notSelf := inv.tree.ne_child older mine
  obtain ⟨-, exited⟩ := doExit_exited inv.queue notSelf done
  obtain ⟨k1, placed, linked⟩ := exited.links
  have tree := (inv.tree.placed status live user placed).congr (k := k)
    (exited.taskQueue.trans placed.taskQueue.symm) (fun q _ => linked q) s.waits
  generalize (s.threads s.running).parent = dest at careful older mine notSelf exited placed
  have stays : ∀ {q}, Live s q → q ≠ s.running →
      Live ⟨k, s.waits, update s.exits s.running (some status)⟩ q := by
    intro q hq other
    exact ⟨exited.taskQueue.symm ▸ hq.1, (update_of_ne other ..).trans hq.2⟩
  have children : ∀ q, (k.threads q).children = (k1.threads q).children :=
    fun q => congrArg (·.2.1) (linked q)
  refine ⟨⟨exited.queue, ?_, ?_, ?_, tree⟩, ?_⟩
  · intro q hq
    rw [exited.taskQueue]
    cases exited.rq q hq with
    | inl before => exact inv.exist q before
    | inr new => exact new ▸ older.1
  · rw [exited.running, exited.taskQueue]
    exact inv.running
  · intro q hq gone
    rw [exited.taskQueue] at hq
    rcases eq_or_ne q s.running with rfl | other
    · exact exited.off
    · change update s.exits s.running (some status) q ≠ none at gone
      rw [update_of_ne other] at gone
      have notDest : q ≠ dest := fun same => gone (same ▸ older.2)
      exact (exited.unmoved q notDest other).off (inv.gone q hq gone)
  · intro p c waits
    have waiting := inv.waiting p c waits
    have other : p ≠ s.running := by
      rintro rfl
      cases waits.symm.trans acts.2.2
    rcases eq_or_ne p dest with rfl | notDest
    · -- the parent waits for the process that exits
      obtain ⟨rfl, none⟩ := careful c waits
      refine ⟨stays older notSelf, ?_, ?_, ?_⟩
      · rw [children, placed.children, if_pos rfl, none, append_nil]
        exact waiting.last
      · intro running
        change update s.exits s.running (some status) s.running = Option.none at running
        rw [update_self] at running
        cases running
      · intro value told
        change update s.exits s.running (some status) s.running = some value at told
        rw [update_self] at told
        cases told
        exact exited.told
    · have notMine : c ≠ s.running := by
        rintro rfl
        have hers := (inv.tree.child p waiting.live _ (mem_of_getLast? waiting.last)).2.1
        exact notDest (hers.symm.trans (inv.tree.child dest older _ mine).2.1)
      apply waiting.congr (exited.unmoved p notDest other)
      · rw [children, placed.children, if_neg notDest]
      · exact stays waiting.live other
      · exact update_of_ne notMine ..

theorem ExecuteInv.step {s' : Executes} {e : ExecuteEvent} (inv : ExecuteInv s)
    (step : CarefulExecuteStep s e s') : ExecuteInv s' := by
  obtain ⟨careful, legal, done⟩ := step
  cases e with
  | schedule next =>
    obtain ⟨k, switched, rfl⟩ := Option.map_eq_some_iff.mp done
    exact inv.schedule (toOption_eq_some.mp switched)
  | fork page =>
    obtain ⟨⟨k, pid⟩, forked, rfl⟩ := Option.map_eq_some_iff.mp done
    exact inv.fork legal.1 legal.2 (toOption_eq_some.mp forked)
  | execute page fds cmd =>
    obtain ⟨⟨k, status⟩, begun, rfl⟩ := Option.map_eq_some_iff.mp done
    have begun := toOption_eq_some.mp begun
    by_cases good : ∃ shell, cmd = .program shell
    · obtain ⟨shell, rfl⟩ := good
      obtain ⟨rfl, inv'⟩ := inv.executeProgram legal.1 legal.2 begun
      exact inv'
    · obtain ⟨rfl, inv'⟩ := inv.executeFails legal.2 (fun shell same => good ⟨shell, same⟩) begun
      exact inv'
  | executeEnd =>
    obtain ⟨⟨k, value, p⟩, reaped, rfl⟩ := Option.map_eq_some_iff.mp done
    exact inv.executeEnd legal.1 legal.2 (toOption_eq_some.mp reaped)
  | exit status =>
    obtain ⟨k, exited, rfl⟩ := Option.map_eq_some_iff.mp done
    exact inv.exit legal careful exited

end

/-- In every process tree and every run in which a process whose parent is inside `sys_execute`
    exits only if it is the child that the call created and has no children, a call of
    `sys_execute` goes on only after its child has exited, frees that child and returns its
    status. -/
theorem executes_ok {s s' : Executes} (tree : ProcessTree s) (start : ∀ p, s.waits p = none)
    {events : List ExecuteEvent} (run : Run CarefulExecuteStep s events s') : ExecutesOk s' := by
  have first : ExecuteInv s := by
    refine ⟨tree, fun p c waits => ?_⟩
    cases (start p).symm.trans waits
  have inv := run.invariant
    (fun s e t (inv : ExecuteInv s) (step : CarefulExecuteStep s e t) => inv.step step) first
  exact inv.executesOk

instance (s : Executes) : Decidable (Acts s) := inferInstanceAs (Decidable (_ ∧ _))

instance (s : Executes) (e : ExecuteEvent) : Decidable (ExecuteLegal s e) :=
  match e with
  | .schedule _ => inferInstanceAs (Decidable True)
  | .fork _ | .execute _ _ _ | .executeEnd => inferInstanceAs (Decidable (_ ∧ _))
  | .exit _ => inferInstanceAs (Decidable (Acts s))

instance (s : Executes) (e : ExecuteEvent) : Decidable (ExecuteCareful s e) :=
  match e with
  | .exit _ => inferInstanceAs (Decidable (∀ c ∈ s.waits (s.threads s.running).parent, _))
  | .schedule _ | .fork _ | .execute _ _ _ | .executeEnd => inferInstanceAs (Decidable True)

/-- A shell of the kernel that runs alone. -/
def oneShell : Executes :=
  { blankProcesses with
    threads := fun _ => { blankThread with kthread := true, shell := true, state := .running, onRq := true }
    taskQueue := [10]
    running := 10
    consoles := fun _ => ⟨0, 0, 10, 0⟩
    waits := fun _ => none
    exits := fun _ => none }

theorem oneShell_tree : ProcessTree oneShell := by
  have shells : ∀ p, KernelShell (oneShell.threads p) := fun p => ⟨rfl, rfl⟩
  refine ⟨⟨nodup_nil, ?_, ?_⟩, ?_, ?_, ?_, ⟨?_, ?_, ?_, ⟨id, ?_⟩⟩⟩
  · exact fun p hp => absurd hp not_mem_nil
  · exact not_mem_nil
  · exact fun p hp => absurd hp not_mem_nil
  · exact mem_cons_self
  · exact fun p _ exited => absurd rfl exited
  · exact fun q _ r hr => absurd hr not_mem_nil
  · exact fun q _ => nodup_nil
  · exact fun p _ user => absurd (shells p) user
  · exact fun q _ r hr => absurd hr not_mem_nil

/-- The shell executes a program, which exits with 7. -/
theorem executes_ok_program :
    ∃ s, Run CarefulExecuteStep oneShell
        [.execute ⟨20, blankThread⟩ blankFiles (.program false), .schedule 20, .exit 7, .schedule 10] s ∧
      s.waits s.running = some 20 ∧ (s.threads s.running).state ≠ .sleeping ∧ ExecutesOk s := by
  have found : (attempt (fun s e => ExecuteCareful s e ∧ ExecuteLegal s e) executeExec oneShell
      [.execute ⟨20, blankThread⟩ blankFiles (.program false), .schedule 20, .exit 7, .schedule 10]).any
      (fun s => s.waits s.running = some 20 ∧ (s.threads s.running).state ≠ .sleeping) = true := by
    decide +kernel
  obtain ⟨s, run, test⟩ := exists_run CarefulExecuteStep
    (fun _ _ _ pass done => ⟨pass.1, pass.2, done⟩) found
  obtain ⟨waits, awake⟩ := of_decide_eq_true test
  exact ⟨s, run, waits, awake, executes_ok oneShell_tree (fun _ => rfl) run⟩

/-- The program forks before it exits: the shell frees the grandchild, which is queued and has
    not exited. -/
theorem execute_frees_grandchild :
    ∃ s, Run ExecuteStep oneShell
        [.execute ⟨20, blankThread⟩ blankFiles (.program false), .schedule 20, .fork ⟨30, blankThread⟩,
          .exit 7, .schedule 10] s ∧
      s.exits 30 = none ∧ 30 ∈ s.rq ∧ ¬ ExecutesOk s := by
  have found : (attempt ExecuteLegal executeExec oneShell
      [.execute ⟨20, blankThread⟩ blankFiles (.program false), .schedule 20, .fork ⟨30, blankThread⟩,
        .exit 7, .schedule 10]).any
      (fun s => (s.exits 30 = none ∧ 30 ∈ s.rq) ∧ s.waits s.running = some 20 ∧
        (s.threads s.running).state ≠ .sleeping ∧
        (executeEnd s.toProcesses s.running).toOption.map (·.2.2) = some 30) = true := by
    decide +kernel
  obtain ⟨s, run, test⟩ := exists_run ExecuteStep (fun _ _ _ pass done => ⟨pass, done⟩) found
  obtain ⟨⟨running, queued⟩, waits, awake, freed⟩ := of_decide_eq_true test
  refine ⟨s, run, running, queued, fun ok => ?_⟩
  obtain ⟨status, k, -, done⟩ := ok 20 waits awake
  rw [done] at freed
  cases freed

/-- `q` is alive and has `p` among its children. -/
def ParentOf (s : Executes) (q p : Nat) : Prop := Live s q ∧ p ∈ (s.threads q).children

/-- Such runs keep the tree, whichever processes exit before their children: a live process that is no shell
    of the kernel is a child of exactly one live process, nobody is an ancestor of themselves, and what has
    exited is not queued any more. -/
theorem process_tree_kept {s s' : Executes} (tree : ProcessTree s) (start : ∀ p, s.waits p = none)
    {events : List ExecuteEvent} (run : Run CarefulExecuteStep s events s') :
    (∀ p, Live s' p → ¬ KernelShell (s'.threads p) → ∃! q, ParentOf s' q p) ∧
    (∀ p, ¬ Relation.TransGen (ParentOf s') p p) ∧
    ∀ p ∈ s'.taskQueue, s'.exits p ≠ none → p ∉ s'.rq := by
  have first : ExecuteInv s := by
    refine ⟨tree, fun p c waits => ?_⟩
    cases (start p).symm.trans waits
  have inv : ExecuteInv s' := run.invariant (fun _ _ _ inv step => inv.step step) first
  refine ⟨fun p live user => ?_, fun p cycle => ?_, fun p old exited => (inv.gone p old exited).queued⟩
  · obtain ⟨alive, child⟩ := inv.tree.parent p live user
    exact ⟨_, ⟨alive, child⟩, fun q other => (inv.tree.child q other.1 p other.2).2.1.symm⟩
  · -- a descendant was born later
    obtain ⟨born, older⟩ := inv.tree.rank
    have later : ∀ q r, Relation.TransGen (ParentOf s') q r → born q < born r := by
      intro q r path
      induction path with
      | single child => exact older _ child.1 _ child.2
      | tail _ child ih => exact Nat.lt_trans ih (older _ child.1 _ child.2)
    exact Nat.lt_irrefl _ (later p p cycle)

/-- A child of the shell forks and exits: the grandchild becomes a child of the shell. -/
theorem process_tree_kept_orphan : ∃ s, Run CarefulExecuteStep oneShell
      [.fork ⟨20, blankThread⟩, .schedule 20, .fork ⟨30, blankThread⟩, .exit 7] s ∧ ∃! q, ParentOf s q 30 := by
  have found : (attempt (fun s e => ExecuteCareful s e ∧ ExecuteLegal s e) executeExec oneShell
      [.fork ⟨20, blankThread⟩, .schedule 20, .fork ⟨30, blankThread⟩, .exit 7]).any
      (fun s => (30 ∈ s.taskQueue ∧ s.exits 30 = none) ∧ (s.threads 30).kthread = false) = true := by
    decide +kernel
  obtain ⟨s, run, test⟩ := exists_run CarefulExecuteStep (fun _ _ _ pass done => ⟨pass.1, pass.2, done⟩) found
  obtain ⟨live, user⟩ := of_decide_eq_true test
  exact ⟨s, run, (process_tree_kept oneShell_tree (fun _ => rfl) run).1 30 live (by simp [KernelShell, user])⟩

end Illinix.Verified.Process
