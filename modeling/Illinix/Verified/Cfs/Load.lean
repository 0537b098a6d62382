import Mathlib.Algebra.BigOperators.Group.List.Basic
import Mathlib.Data.UInt
import Illinix.Verified.Cfs.RunQueue

/-! # The load of the run queue

`enqueue_entity` adds the load of a task to `rq->load`.  `sub_load` is called by `dequeue_entity` only,
and nothing calls that: a task that sleeps or exits leaves through `pick_next_task`, and its load
stays.  As long as no task does so, `rq->load.weight` is the sum over the runnable tasks. -/

namespace Illinix.Verified.Cfs

open Kernel List
open Lib (Run attempt exists_run)
open scoped List

variable {s u v : Scheduler} {q l : List Nat} {t curr : Nat}

/-- The sum of the weights of some tasks. -/
def weights (s : Scheduler) (l : List Nat) : UInt32 :=
  (l.map fun t => (s.sched t).load.weight).sum

/-- `rq->load.weight` is the sum of the weights of the current task and the queued ones. -/
def Accounted (s : Scheduler) : Prop :=
  ∃ curr q, s.current = some curr ∧ RunQueue s q ∧ s.load.weight = weights s (curr :: q)

/-! ## Functions that leave the loads alone -/

structure SameLoad (s u : Scheduler) : Prop where
  load : u.load = s.load
  weight : ∀ t, (u.sched t).load = (s.sched t).load

namespace SameLoad

theorem trans (first : SameLoad s u) (second : SameLoad u v) : SameLoad s v :=
  ⟨second.load.trans first.load, fun t => (second.weight t).trans (first.weight t)⟩

theorem of_alike (same : Alike s u) : SameLoad s u := ⟨same.load, fun t => by rw [same.sched]⟩

theorem updateCurr (s : Scheduler) : SameLoad s s.updateCurr :=
  ⟨updateCurr_load s, fun t => (sched_updateCurr_kept s t).1⟩

theorem tick (s : Scheduler) (d : UInt64) (t : Nat) : SameLoad s ((later s d).taskTick t) := by
  have advanced : SameLoad s (later s d) := ⟨rfl, fun _ => rfl⟩
  exact (advanced.trans (.updateCurr _)).trans (.of_alike (taskTick_alike _ t))

theorem weights (same : SameLoad s u) (l : List Nat) : Cfs.weights u l = Cfs.weights s l := by
  simp only [Cfs.weights, same.weight]

end SameLoad

theorem weights_perm {l' : List Nat} (perm : l ~ l') : weights s l = weights s l' := (perm.map _).sum_eq

/-! ## One event -/

/-- The current task is on the queue, and the load is accounted for. -/
structure Balance (s : Scheduler) (curr : Nat) (q : List Nat) : Prop where
  current : s.current = some curr
  onRq : (s.sched curr).onRq = true
  queue : RunQueue s q
  load : s.load.weight = weights s (curr :: q)

theorem Balance.congr (h : Balance s curr q) (queue : SameQueue s u) (load : SameLoad s u) :
    Balance u curr q where
  current := queue.current.trans h.current
  onRq := (queue.onRq curr).trans h.onRq
  queue := h.queue.congr queue
  load := by
    rw [load.load, load.weights]
    exact h.load

theorem Balance.schedFork (h : Balance s curr q) (off : (s.sched t).onRq = false)
    (other : s.current ≠ some t) : Balance (s.schedFork t) curr q := by
  have same := SameQueue.schedFork off other
  refine ⟨same.current.trans h.current, (same.onRq curr).trans h.onRq, h.queue.congr same, ?_⟩
  have away : t ∉ curr :: q := by
    rw [mem_cons, not_or, h.queue.members, off]
    refine ⟨fun self => other ?_, fun queued => nomatch queued.1⟩
    rw [self]
    exact h.current
  have weight (x : Nat) (hx : x ∈ curr :: q) : ((s.schedFork t).sched x).load = (s.sched x).load := by
    have ne : x ≠ t := fun self => away (self ▸ hx)
    rw [schedFork_eq other, sched_setState, placeEntity_field Sched.load fun _ _ => rfl, forked,
      sched_modifySched, if_neg ne]
    exact (sched_updateCurr_kept s x).1
  have load : (s.schedFork t).load = s.load := by
    rw [schedFork_eq other]
    exact updateCurr_load s
  rw [load, h.load]
  exact congrArg sum (map_congr_left fun x hx => congrArg Weight.weight (weight x hx).symm)

/-- `__schedule` moves the load of the queue from one task to the next. -/
theorem Balance.scheduleFrom (h : Balance s curr q) (done : s.scheduleFrom curr = some u) :
    ∃ next q', Balance u next q' := by
  obtain ⟨u', q', done', queue, halted | ⟨next, v, pick, alike, perm⟩⟩ := h.queue.scheduleFrom h.current
  · rw [done] at done'
    cases done'
    obtain ⟨rfl, rfl⟩ := halted
    exact ⟨curr, q', h⟩
  · rw [done] at done'
    cases done'
    have picked := pickNextTask_inv pick
    rw [candidates, if_pos h.onRq] at perm
    have same : SameLoad s u := (SameLoad.mk picked.load picked.weight).trans (.of_alike alike)
    refine ⟨next, q', alike.current.trans picked.current, ?_, queue, ?_⟩
    · -- the next task was the current one or a queued one
      rw [alike.sched, picked.onRq]
      cases mem_cons.mp (perm.mem_iff.mp (mem_cons_self)) with
      | inl self =>
        rw [self]
        exact h.onRq
      | inr queued => exact ((h.queue.members next).mp queued).1
    · rw [same.load, same.weights, weights_perm perm]
      exact h.load

theorem placed_load (s : Scheduler) (t : Nat) (wakeup : Bool) :
    (placed s t wakeup).load = addLoad (s.sched t).load s.load := by
  have same := SameLoad.updateCurr s
  rw [← same.load, ← same.weight t]
  cases wakeup <;> rfl

theorem placed_weight (s : Scheduler) (t : Nat) (wakeup : Bool) (x : Nat) :
    ((placed s t wakeup).sched x).load = (s.sched x).load := by
  rw [← (SameLoad.updateCurr s).weight x]
  cases wakeup with
  | false => rfl
  | true => exact placeEntity_field Sched.load (fun _ _ => rfl) _ t false x

theorem Balance.enqueueTask {wakeup : Bool} (h : Balance s curr q)
    (done : s.enqueueTask t wakeup = some u) : ∃ q', Balance u curr q' := by
  obtain ⟨u', q', done', queue, current, perm⟩ := h.queue.enqueueTask t wakeup
  rw [done] at done'
  cases done'
  rw [enqueueTask_eq] at done
  by_cases onRq : (s.sched t).onRq = true
  · rw [if_pos onRq] at done
    cases done
    exact ⟨q, h⟩
  · -- the current task is on the queue, so it is another one
    have other : s.current ≠ some t := by
      rw [h.current]
      rintro ⟨⟩
      exact onRq h.onRq
    rw [if_neg onRq, if_pos other] at done
    rw [if_neg (by simp [onRq, other])] at perm
    obtain ⟨tree, left, rfl⟩ := treeEnqueue_inv done
    have weight (x : Nat) : ((entered (placed s t wakeup) t tree left).sched x).load =
        (s.sched x).load := by
      rw [← placed_weight s t wakeup x]
      exact entered_field Sched.load (fun _ => rfl) _ t tree left x
    refine ⟨q', current.trans h.current, ?_, queue, ?_⟩
    · rw [sched_entered]
      split
      · rfl
      · rw [(SameQueue.placed (Bool.eq_false_iff.mpr onRq) wakeup).onRq]
        exact h.onRq
    · show (placed s t wakeup).load.weight = _
      rw [placed_load]
      calc s.load.weight + (s.sched t).load.weight
        _ = weights s (curr :: q) + (s.sched t).load.weight := by rw [h.load]
        _ = weights s (curr :: t :: q) := by
          simp only [weights, map_cons, sum_cons]
          rw [add_assoc, add_comm (sum _)]
        _ = weights s (curr :: q') := weights_perm (perm.symm.cons curr)
        _ = weights _ (curr :: q') := by simp only [weights, weight]

/-! ## Runs -/

/-- The event takes no task off the queue for good. -/
def staysRunnable : SchedEvent → Bool
  | .sleep | .exit _ => false
  | _ => true

def StayingStep (s : Scheduler) (e : SchedEvent) (u : Scheduler) : Prop :=
  Step s e u ∧ staysRunnable e = true

theorem Balance.schedule (h : Balance s curr q) (done : s.schedule curr = some u) :
    ∃ next q', Balance u next q' := by
  have cleared := h.congr (.of_alike (.setFlag s curr 0)) (.of_alike (.setFlag s curr 0))
  exact cleared.scheduleFrom done

theorem StayingStep.balance {e : SchedEvent} (step : StayingStep s e u) (h : Balance s curr q) :
    ∃ next q', Balance u next q' := by
  obtain ⟨⟨enabled, done⟩, stays⟩ := step
  cases e with
  | sleep => cases stays
  | exit parent => cases stays
  | fork t =>
    obtain ⟨q', balance⟩ := (h.schedFork enabled.1 enabled.2).enqueueTask done
    exact ⟨curr, q', balance⟩
  | wakeup t =>
    have ready := h.congr (.of_alike (.setState s t .runnable)) (.of_alike (.setState s t .runnable))
    obtain ⟨q', balance⟩ := ready.enqueueTask done
    exact ⟨curr, q', balance⟩
  | tick delta =>
    rw [exec_tick h.current] at done
    cases done
    exact ⟨curr, q, h.congr (.tick s delta curr) (.tick s delta curr)⟩
  | timer =>
    simp only [Scheduler.exec, h.current, Option.bind_some, doTimer_eq] at done
    have ticked := h.congr (.tick s tickunit curr) (.tick s tickunit curr)
    split at done
    · exact ticked.schedule done
    · cases done
      exact ⟨curr, q, ticked⟩
  | preempt =>
    simp only [Scheduler.exec, h.current, Option.bind_some] at done
    exact h.schedule done
  | front t =>
    cases done
    exact ⟨curr, q, h.congr (.of_alike (.front s t)) (.of_alike (.front s t))⟩

/-- One task is running, nothing is queued, and the load is that of the task. -/
structure Alone (s : Scheduler) : Prop extends Booted s where
  running : ∃ curr, s.current = some curr ∧ (s.sched curr).onRq = true ∧ s.load = (s.sched curr).load

theorem Alone.balance (h : Alone s) : ∃ curr q, Balance s curr q := by
  obtain ⟨curr, current, onRq, load⟩ := h.running
  refine ⟨curr, [], current, onRq, h.toBooted.runQueue, ?_⟩
  simp [weights, load]

/-- While no task sleeps or exits, the weight of the queue is that of its tasks. -/
theorem load_accounted {events : List SchedEvent} (alone : Alone s)
    (run : Run StayingStep s events u) : Accounted u := by
  have balance : ∃ curr q, Balance u curr q := by
    refine run.invariant (fun s e t (inv : ∃ curr q, Balance s curr q) step => ?_) alone.balance
    obtain ⟨curr, q, balance⟩ := inv
    exact step.balance balance
  obtain ⟨curr, q, balance⟩ := balance
  exact ⟨curr, q, balance.current, balance.queue, balance.load⟩

theorem oneTask_alone : Alone oneTask := ⟨oneTask_booted, 0, rfl, rfl, rfl⟩

theorem load_accounted_two : ∃ u, Run StayingStep oneTask [.fork 1, .fork 2, .timer, .preempt] u ∧
    u.load.weight = 3072 ∧ Accounted u := by
  have found : (attempt (fun s e => Enabled s e ∧ staysRunnable e = true) Scheduler.exec oneTask
      [.fork 1, .fork 2, .timer, .preempt]).any (fun u => u.load.weight = 3072) = true := by
    decide +kernel
  obtain ⟨u, run, load⟩ :=
    exists_run StayingStep (fun _ _ _ pass done => ⟨⟨pass.1, done⟩, pass.2⟩) found
  exact ⟨u, run, of_decide_eq_true load, load_accounted oneTask_alone run⟩

/-- The first task sleeps while a second one is queued.  Only the second one is runnable
    then, with a weight of 1024, and the queue has the weight of both. -/
theorem sleeper_still_counted : Alone oneTask ∧
    ∃ u, Run Step oneTask [.fork 1, .sleep] u ∧ ¬Accounted u := by
  have found : (attempt Enabled Scheduler.exec oneTask [.fork 1, .sleep]).any (fun u =>
      u.nrRunning = 0 ∧ u.current = some 1 ∧ u.load.weight = 2048 ∧
        (u.sched 1).load.weight = 1024) = true := by
    decide +kernel
  obtain ⟨u, run, result⟩ := exists_run Step (fun _ _ _ pass done => ⟨pass, done⟩) found
  obtain ⟨count, current, load, weight⟩ := of_decide_eq_true result
  refine ⟨oneTask_alone, u, run, ?_⟩
  rintro ⟨curr, q, current', queue, sum⟩
  cases current.symm.trans current'
  have empty : q = [] := length_eq_zero_iff.mp (queue.count.symm.trans count)
  subst empty
  simp only [weights, map_cons, map_nil, sum_cons, sum_nil, load, weight] at sum
  cases sum

end Illinix.Verified.Cfs
