import Illinix.Kernel.Creation
import Illinix.Verified.Cfs.RunQueue

/-! # Process creation and stale pages

A thread is created in pages that keep what they held before.  `sched_fork` sets the load and, from
the current task, the virtual time of the child; `activate_task` puts the child into the queue unless
`on_rq` is set.  Nothing sets `on_rq`, the flag and the execution times, and `do_fork` does not set
the console.  The two runs of a call from different pages agree exactly if these fields do and
`on_rq` is not set in either page. -/

namespace Illinix.Verified.Cfs

open Kernel

variable {s u : Scheduler} {q : List Nat} {child parent p : Nat} {task task1 task2 : Task}
  {f g : Task → Task}

/-! ## Updates of the new task -/

theorem modify_modify (s : Scheduler) (p : Nat) (f g : Task → Task) :
    (s.modify p f).modify p g = s.modify p fun t => g (f t) := by
  simp [Scheduler.modify]

theorem modify_comm {x : Nat} (ne : p ≠ x) (s : Scheduler) (f g : Task → Task) :
    (s.modify p f).modify x g = (s.modify x g).modify p f := by
  simp only [Scheduler.modify]
  rw [Function.update_of_ne ne, Function.update_of_ne ne.symm, Function.update_comm ne]

theorem tasks_modify_of_ne {x : Nat} (ne : x ≠ p) (s : Scheduler) (f : Task → Task) :
    (s.modify p f).tasks x = s.tasks x := Function.update_of_ne ne _ _

@[simp] theorem tasks_modify_self (s : Scheduler) (p : Nat) (f : Task → Task) :
    (s.modify p f).tasks p = f (s.tasks p) := Function.update_self ..

theorem sched_modify_of_ne {x : Nat} (ne : x ≠ p) (s : Scheduler) (f : Task → Task) :
    (s.modify p f).sched x = s.sched x := by
  rw [Scheduler.sched, tasks_modify_of_ne ne, Scheduler.sched]

/-- `update_min_vruntime` looks at the current and at the first task only. -/
theorem updateMinVruntime_modify (current : s.current ≠ some p) (leftMost : s.leftMost ≠ some p) :
    (s.modify p f).updateMinVruntime = s.updateMinVruntime.modify p f := by
  have other {x : Nat} {c : Option Nat} (ne : c ≠ some p) (same : c = some x) : x ≠ p :=
    fun eq => ne (eq ▸ same)
  have fields : (s.modify p f).current = s.current ∧ (s.modify p f).leftMost = s.leftMost ∧
      (s.modify p f).minVruntime = s.minVruntime := ⟨rfl, rfl, rfl⟩
  unfold Scheduler.updateMinVruntime
  rw [fields.1, fields.2.1, fields.2.2]
  cases hc : s.current with
  | none =>
    cases hl : s.leftMost with
    | none => rfl
    | some left =>
      simp only [sched_modify_of_ne (other leftMost hl)]
      rfl
  | some curr =>
    cases hl : s.leftMost with
    | none =>
      simp only [sched_modify_of_ne (other current hc)]
      rfl
    | some left =>
      simp only [sched_modify_of_ne (other current hc), sched_modify_of_ne (other leftMost hl)]
      rfl

theorem updateCurr_modify (current : s.current ≠ some p) (leftMost : s.leftMost ≠ some p) :
    (s.modify p f).updateCurr = s.updateCurr.modify p f := by
  have same : (s.modify p f).current = s.current := rfl
  unfold Scheduler.updateCurr
  rw [same]
  cases hc : s.current with
  | none => rfl
  | some curr =>
    have ne : curr ≠ p := fun eq => current (eq ▸ hc)
    simp only [sched_modify_of_ne ne]
    show (if (s.clock - (s.sched curr).execStart).toInt64 ≤ 0 then _ else _) = _
    split
    · -- no time has passed
      rfl
    · simp only [Scheduler.modifySched]
      rw [modify_comm ne.symm]
      exact updateMinVruntime_modify current leftMost

theorem tasks_updateCurr_of_ne (current : s.current ≠ some p) : s.updateCurr.tasks p = s.tasks p := by
  obtain ⟨same, -⟩ | ⟨curr, here, -, charged⟩ := updateCurr_cases s
  · rw [same]
  · rw [charged]
    have ne : p ≠ curr := fun eq => current (eq ▸ here)
    show (s.modifySched curr _).tasks p = s.tasks p
    exact tasks_modify_of_ne ne s _

/-! ## The start of a task -/

/-- The slice of a task that is not on the queue. -/
def firstSlice (s : Scheduler) (load : Weight) : UInt64 :=
  calcDeltaVruntime (calcDelta (schedPeriod (s.nrRunning + 1)) load.weight (addLoad load s.load)) load

/-- The virtual time that `sched_fork` starts from: that of the current task or, if there is none, what is
    in the page. -/
def inherited (s : Scheduler) (stale : UInt64) : UInt64 :=
  match s.current with
  | none => stale
  | some curr => (s.updateCurr.sched curr).vruntime

/-- The task after `sched_fork`. -/
def started (s : Scheduler) (task : Task) : Task :=
  { task with
    state := .runnable
    sched := { task.sched with
      load := loadWeight task.nice
      vruntime := maxVruntime (inherited s task.sched.vruntime)
        (s.updateCurr.minVruntime + firstSlice s (loadWeight task.nice)) } }

theorem forked_created (current : s.current ≠ some p) (leftMost : s.leftMost ≠ some p) :
    forked (s.modify p fun _ => task) p = s.updateCurr.modify p fun _ =>
      { task with sched := { task.sched with
        load := loadWeight task.nice
        vruntime := inherited s task.sched.vruntime } } := by
  have charged := updateCurr_modify (f := fun _ => task) current leftMost
  have here : (s.modify p fun _ => task).current = s.current := rfl
  unfold forked inherited
  simp only [charged, Scheduler.modifySched, modify_modify, tasks_modify_self, here]
  cases hc : s.current with
  | none => rfl
  | some curr =>
    have ne : curr ≠ p := fun eq => current (eq ▸ hc)
    simp only [sched_modify_of_ne ne]

theorem placeEntity_off (off : (s.sched p).onRq = false) :
    s.placeEntity p true = s.modifySched p fun e =>
      { e with vruntime := maxVruntime e.vruntime (s.minVruntime + firstSlice s (s.sched p).load) } := by
  simp [Scheduler.placeEntity, Scheduler.vtimeslice, Scheduler.timeslice, firstSlice, off]

theorem firstSlice_modify (s : Scheduler) (p : Nat) (f : Task → Task) (load : Weight) :
    firstSlice (s.updateCurr.modify p f) load = firstSlice s load := by
  unfold firstSlice Scheduler.modify
  simp only [updateCurr_nrRunning, updateCurr_load]

theorem schedFork_started (current : s.current ≠ some p) (leftMost : s.leftMost ≠ some p)
    (off : task.sched.onRq = false) :
    (s.modify p fun _ => task).schedFork p = s.updateCurr.modify p fun _ => started s task := by
  rw [schedFork_eq (s := s.modify p fun _ => task) current, forked_created current leftMost,
    placeEntity_off (by simpa [Scheduler.sched] using off), firstSlice_modify]
  simp only [Scheduler.modifySched, Scheduler.setState, modify_modify, Scheduler.sched, tasks_modify_self]
  rfl

/-- A child with `on_rq` set is not put into the queue. -/
theorem start_on (current : s.current ≠ some p) (on : task.sched.onRq = true) :
    ∃ u, s.start p task = some u ∧ u.nrRunning = s.nrRunning := by
  have kept : (((s.modify p fun _ => task).schedFork p).sched p).onRq = true := by
    rw [schedFork_eq (s := s.modify p fun _ => task) current, sched_setState,
      placeEntity_field Sched.onRq fun _ _ => rfl, forked, sched_modifySched, if_pos rfl]
    show (((s.modify p fun _ => task).updateCurr.sched p).onRq) = true
    rw [(sched_updateCurr_kept _ p).2]
    simpa [Scheduler.sched] using on
  refine ⟨(s.modify p fun _ => task).schedFork p, ?_, ?_⟩
  · rw [Scheduler.start, Scheduler.activateTask, enqueueTask_eq, if_pos kept]
  · rw [schedFork_eq (s := s.modify p fun _ => task) current]
    exact updateCurr_nrRunning _

section

variable (queue : RunQueue s q) (fresh : p ∉ q) (current : s.current ≠ some p) (off : task.sched.onRq = false)

include queue fresh current off

theorem SameQueue.created : SameQueue s (s.updateCurr.modify p fun _ => task) := by
  have outside : (s.sched p).onRq = false := by
    rw [← Bool.not_eq_true]
    exact fun on => fresh ((queue.members p).mpr ⟨on, current⟩)
  have charged := SameQueue.updateCurr s
  refine ⟨charged.rbTree, charged.leftMost, charged.nrRunning, charged.history, charged.current,
    fun x => ?_, fun x queued other => ?_⟩
  · by_cases same : x = p
    · rw [same, outside, Scheduler.sched, tasks_modify_self, off]
    · rw [sched_modify_of_ne same, charged.onRq]
  · have ne : x ≠ p := by
      rintro rfl
      rw [outside] at queued
      cases queued
    rw [sched_modify_of_ne ne, charged.vruntime x queued other]

/-- A child that is not marked enters the queue, and its fields are those of `sched_fork`. -/
theorem start_off : s.start p task = (s.updateCurr.modify p fun _ => started s task).activateTask p ∧
    ∃ u q', s.start p task = some u ∧ Holds u q' ∧ q'.Perm (p :: q) ∧
      u.tasks p = { started s task with sched := { (started s task).sched with onRq := true } } := by
  have leftMost : s.leftMost ≠ some p := by
    intro first
    rw [queue.leftMost] at first
    exact fresh (List.mem_of_head? first)
  have begun : s.start p task = (s.updateCurr.modify p fun _ => started s task).activateTask p := by
    rw [Scheduler.start, schedFork_started current leftMost off]
  refine ⟨begun, ?_⟩
  have same : SameQueue s (s.updateCurr.modify p fun _ => started s task) := .created queue fresh current off
  have own : ((s.updateCurr.modify p fun _ => started s task).sched p).onRq = false := by
    rw [Scheduler.sched, tasks_modify_self]
    exact off
  have current' : (s.updateCurr.modify p fun _ => started s task).current ≠ some p := by
    rw [same.current]
    exact current
  obtain ⟨u, q', done, queue', -, perm⟩ := (queue.congr same).enqueueTask p false
  rw [if_neg (by simp [own, current'])] at perm
  refine ⟨u, q', begun.trans done, queue'.toHolds, perm, ?_⟩
  rw [enqueueTask_eq, if_neg (by simp [own]), if_pos current'] at done
  obtain ⟨tree, left, rfl⟩ := treeEnqueue_inv done
  have charged : (placed (s.updateCurr.modify p fun _ => started s task) p false).tasks p =
      started s task := by
    show (s.updateCurr.modify p fun _ => started s task).updateCurr.tasks p = _
    rw [tasks_updateCurr_of_ne current', tasks_modify_self]
  have last : ∀ w : Scheduler, (entered w p tree left).tasks p =
      { w.tasks p with sched := { (w.tasks p).sched with onRq := true } } :=
    fun w => Function.update_self ..
  rw [last, charged]

end

/-! ## Two runs -/

/-- The child has entered the queue once, and is on the console of its parent. -/
structure Created (s u : Scheduler) (q : List Nat) (child parent : Nat) : Prop where
  queue : ∃ q', Holds u q' ∧ q'.Perm (child :: q)
  count : u.nrRunning = s.nrRunning + 1
  console : (u.tasks child).consoleId = (s.tasks parent).consoleId

/-- The run queues and the tasks at `child` are the same. -/
structure Agree (u v : Scheduler) (child : Nat) : Prop where
  rbTree : u.rbTree = v.rbTree
  leftMost : u.leftMost = v.leftMost
  nrRunning : u.nrRunning = v.nrRunning
  load : u.load = v.load
  minVruntime : u.minVruntime = v.minVruntime
  task : u.tasks child = v.tasks child

/-- Both runs create the child, and do not differ. -/
def Independent (s : Scheduler) (q : List Nat) (child parent : Nat) (first second : Option Scheduler) :
    Prop :=
  ∃ u v, first = some u ∧ second = some v ∧ Created s u q child parent ∧ Created s v q child parent ∧
    Agree u v child

/-- The task is not marked and has the console of the parent. -/
structure Ready (s : Scheduler) (parent : Nat) (task : Task) : Prop where
  off : task.sched.onRq = false
  console : task.consoleId = (s.tasks parent).consoleId

theorem created_iff (queue : RunQueue s q) (fresh : child ∉ q) (current : s.current ≠ some child) :
    (∃ u, s.start child task = some u ∧ Created s u q child parent) ↔ Ready s parent task := by
  constructor
  · rintro ⟨u, done, created⟩
    have off : task.sched.onRq = false := by
      -- a child that is marked is not counted
      rw [← Bool.not_eq_true]
      intro on
      obtain ⟨v, done', count⟩ := start_on current on
      cases done.symm.trans done'
      have := created.count
      omega
    obtain ⟨-, v, q', done', -, -, fields⟩ := start_off queue fresh current off
    cases done.symm.trans done'
    have console := created.console
    rw [fields] at console
    exact ⟨off, console⟩
  · rintro ⟨off, console⟩
    obtain ⟨-, u, q', done, holds, perm, fields⟩ := start_off queue fresh current off
    refine ⟨u, done, ⟨q', holds, perm⟩, ?_, ?_⟩
    · rw [holds.count, queue.count, perm.length_eq, List.length_cons]
    · rw [fields]
      exact console

theorem unmark (off : task.sched.onRq = false) :
    { started s task with sched := { (started s task).sched with onRq := false } } = started s task := by
  rw [← off]
  rfl

/-- Two tasks start alike exactly if `sched_fork` makes the same of them. -/
theorem start_independent_iff (queue : RunQueue s q) (fresh : child ∉ q) (current : s.current ≠ some child) :
    Independent s q child parent (s.start child task1) (s.start child task2) ↔
      Ready s parent task1 ∧ Ready s parent task2 ∧ started s task1 = started s task2 := by
  constructor
  · rintro ⟨u, v, done1, done2, created1, created2, agree⟩
    have ready1 := (created_iff queue fresh current).mp ⟨u, done1, created1⟩
    have ready2 := (created_iff queue fresh current).mp ⟨v, done2, created2⟩
    refine ⟨ready1, ready2, ?_⟩
    obtain ⟨-, u', _, done1', -, -, fields1⟩ := start_off queue fresh current ready1.off
    obtain ⟨-, v', _, done2', -, -, fields2⟩ := start_off queue fresh current ready2.off
    cases done1.symm.trans done1'
    cases done2.symm.trans done2'
    -- both children are marked on the queue; before that they were as `sched_fork` left them
    have same := agree.task
    rw [fields1, fields2] at same
    have unmarked := congrArg (fun t : Task => { t with sched := { t.sched with onRq := false } }) same
    rwa [unmark ready1.off, unmark ready2.off] at unmarked
  · rintro ⟨ready1, ready2, same⟩
    obtain ⟨u, done, created⟩ := (created_iff queue fresh current).mpr ready1
    have equal : s.start child task2 = s.start child task1 := by
      rw [(start_off queue fresh current ready1.off).1, (start_off queue fresh current ready2.off).1, same]
    exact ⟨u, u, done, equal.trans done, created, created, ⟨rfl, rfl, rfl, rfl, rfl, rfl⟩⟩

/-- The pages do not claim to be on the queue, and agree on the fields that nothing sets.  The virtual time
    in them is used only if there is no current task. -/
structure SameStale (s : Scheduler) (nice : Nice) (a b : Stale) : Prop where
  off : a.sched.onRq = false ∧ b.sched.onRq = false
  flag : a.flag = b.flag
  execStart : a.sched.execStart = b.sched.execStart
  sumExecTime : a.sched.sumExecTime = b.sched.sumExecTime
  prevSumExecTime : a.sched.prevSumExecTime = b.sched.prevSumExecTime
  vruntime : s.current = none →
    maxVruntime a.sched.vruntime (s.minVruntime + firstSlice s (loadWeight nice)) =
      maxVruntime b.sched.vruntime (s.minVruntime + firstSlice s (loadWeight nice))

theorem inherited_iff (v w : UInt64) (slice : UInt64) :
    maxVruntime (inherited s v) (s.updateCurr.minVruntime + slice) =
        maxVruntime (inherited s w) (s.updateCurr.minVruntime + slice) ↔
      (s.current = none → maxVruntime v (s.minVruntime + slice) = maxVruntime w (s.minVruntime + slice)) := by
  unfold inherited
  cases current : s.current with
  | none =>
    have idle : s.updateCurr = s := by simp [Scheduler.updateCurr, current]
    simp [idle]
  | some curr => simp

theorem created_independent_iff (queue : RunQueue s q) (fresh : child ∉ q)
    (current : s.current ≠ some child) (nice : Nice) (a b : Stale) (c d : Nat) :
    Independent s q child parent (s.start child { createdTask a nice with consoleId := c })
        (s.start child { createdTask b nice with consoleId := d }) ↔
      SameStale s nice a b ∧ c = (s.tasks parent).consoleId ∧ d = (s.tasks parent).consoleId := by
  rw [start_independent_iff queue fresh current]
  have fields : started s { createdTask a nice with consoleId := c } =
      started s { createdTask b nice with consoleId := d } ↔
      a.flag = b.flag ∧ c = d ∧ (s.current = none →
        maxVruntime a.sched.vruntime (s.minVruntime + firstSlice s (loadWeight nice)) =
          maxVruntime b.sched.vruntime (s.minVruntime + firstSlice s (loadWeight nice))) ∧
      a.sched.execStart = b.sched.execStart ∧ a.sched.sumExecTime = b.sched.sumExecTime ∧
      a.sched.prevSumExecTime = b.sched.prevSumExecTime ∧ a.sched.onRq = b.sched.onRq := by
    simp only [started, createdTask, Task.mk.injEq, Sched.mk.injEq, true_and, inherited_iff]
  rw [fields]
  constructor
  · rintro ⟨ready1, ready2, flag, -, vruntime, execStart, sum, prev, -⟩
    exact ⟨⟨⟨ready1.off, ready2.off⟩, flag, execStart, sum, prev, vruntime⟩, ready1.console, ready2.console⟩
  · rintro ⟨stale, rfl, rfl⟩
    exact ⟨⟨stale.off.1, rfl⟩, ⟨stale.off.2, rfl⟩, stale.flag, rfl, stale.vruntime, stale.execStart,
      stale.sumExecTime, stale.prevSumExecTime, stale.off.1.trans stale.off.2.symm⟩

/-- A call of `do_fork` or `do_execute` that creates a child does the same from any two contents of the
    pages exactly if neither claims to be on the queue, they agree on the flag and the execution times, and,
    for `do_fork`, both hold the console of the parent. -/
theorem creation_independent_iff (queue : RunQueue s q) (fresh : child ∉ q)
    (current : s.current ≠ some child) (parent : Nat) (a b : Stale) :
    (Independent s q child parent (s.doFork ⟨child, a⟩ true) (s.doFork ⟨child, b⟩ true) ↔
      SameStale s niceNormal a b ∧ a.consoleId = (s.tasks parent).consoleId ∧
        b.consoleId = (s.tasks parent).consoleId) ∧
    ∀ shell, (Independent s q child parent (s.doExecute ⟨child, a⟩ parent (.program shell))
        (s.doExecute ⟨child, b⟩ parent (.program shell)) ↔
      SameStale s (if shell then niceShell else niceNormal) a b) := by
  refine ⟨created_independent_iff queue fresh current niceNormal a b a.consoleId b.consoleId,
    fun shell => ?_⟩
  refine (created_independent_iff queue fresh current _ a b _ _).trans ?_
  simp

/-- A page of zeros. -/
def clearedPage : Stale := ⟨0, 0, ⟨⟨0, 0⟩, 0, 0, 0, 0, false⟩⟩

/-- The page of a task that has run for 7 ms on the queue, on another console. -/
def usedPage : Stale := ⟨0, 1, ⟨⟨1024, 4194304⟩, 7000000, 7000000, 7000000, 0, true⟩⟩

/-- The load and the virtual time in the page do not matter. -/
theorem creation_independent_iff_cleared :
    Independent oneTask [] 1 0 (oneTask.doFork ⟨1, clearedPage⟩ true)
        (oneTask.doFork ⟨1, { clearedPage with sched := { clearedPage.sched with vruntime := 9 } }⟩ true) := by
  refine (creation_independent_iff oneTask_booted.runQueue (by simp) (by decide) 0 _ _).1.mpr ?_
  exact ⟨⟨⟨rfl, rfl⟩, rfl, rfl, rfl, rfl, fun idle => by cases idle⟩, rfl, rfl⟩

/-- From a page of zeros the child is queued on the console of its parent.  From the page of a task that
    was on the queue it is not queued, and after `do_fork` it is on another console. -/
theorem used_page_not_queued : ∃ u v w, oneTask.doFork ⟨1, clearedPage⟩ true = some u ∧
    oneTask.doFork ⟨1, usedPage⟩ true = some v ∧
    oneTask.doExecute ⟨1, usedPage⟩ 0 (.program false) = some w ∧
    (u.nrRunning = 1 ∧ u.leftMost = some 1 ∧ (u.tasks 1).consoleId = (oneTask.tasks 0).consoleId) ∧
    (v.nrRunning = 0 ∧ v.leftMost = none ∧ (v.tasks 1).consoleId ≠ (oneTask.tasks 0).consoleId) ∧
    (w.nrRunning = 0 ∧ w.leftMost = none) ∧
    ¬ Independent oneTask [] 1 0 (oneTask.doFork ⟨1, clearedPage⟩ true)
      (oneTask.doFork ⟨1, usedPage⟩ true) := by
  have cleared : (oneTask.doFork ⟨1, clearedPage⟩ true).any (fun u => u.nrRunning = 1 ∧
      u.leftMost = some 1 ∧ (u.tasks 1).consoleId = (oneTask.tasks 0).consoleId) = true := by
    decide +kernel
  have used : (oneTask.doFork ⟨1, usedPage⟩ true).any (fun v => v.nrRunning = 0 ∧
      v.leftMost = none ∧ (v.tasks 1).consoleId ≠ (oneTask.tasks 0).consoleId) = true := by
    decide +kernel
  have executed : (oneTask.doExecute ⟨1, usedPage⟩ 0 (.program false)).any (fun w => w.nrRunning = 0 ∧
      w.leftMost = none) = true := by
    decide +kernel
  obtain ⟨u, first, hu⟩ := (Option.any_eq_true _ _).mp cleared
  obtain ⟨v, second, hv⟩ := (Option.any_eq_true _ _).mp used
  obtain ⟨w, third, hw⟩ := (Option.any_eq_true _ _).mp executed
  refine ⟨u, v, w, first, second, third, of_decide_eq_true hu, of_decide_eq_true hv, of_decide_eq_true hw,
    ?_⟩
  rintro ⟨u', v', done, done', -, created, -⟩
  cases second.symm.trans done'
  have count := created.count
  rw [(of_decide_eq_true hv).1] at count
  cases count

end Illinix.Verified.Cfs
