import Mathlib.Algebra.BigOperators.Group.Finset.Basic
import Mathlib.Data.UInt
import Illinix.Verified.Cfs.RunQueue

/-! # Execution time

Time is charged late, in `update_curr`, and a task that sleeps or exits is not charged when it leaves
the processor.  Nothing gets lost, because the clock advances in `do_timer` only, which charges
the current task at once: between events the current task is charged up to now.  A picked task
starts at the current clock. -/

namespace Illinix.Verified.Cfs

open Kernel Finset
open Lib (Run attempt exists_run)

variable {s u v : Scheduler} {t curr next : Nat} {f : Sched → Sched} {d e : UInt64} {wakeup : Bool}

/-- The current task is charged up to now. -/
def Charged (s : Scheduler) : Prop :=
  ∃ curr, s.current = some curr ∧ (s.sched curr).execStart = s.clock

/-- The execution times of all tasks together grow by `d`: finitely many change, and the sum of
    their changes is `d`. -/
def Grows (s u : Scheduler) (d : UInt64) : Prop :=
  ∃ tasks : Finset Nat, (∀ t ∉ tasks, (u.sched t).sumExecTime = (s.sched t).sumExecTime) ∧
    ∑ t ∈ tasks, ((u.sched t).sumExecTime - (s.sched t).sumExecTime) = d

theorem Grows.trans (first : Grows s u d) (second : Grows u v e) : Grows s v (d + e) := by
  obtain ⟨F, outF, sumF⟩ := first
  obtain ⟨G, outG, sumG⟩ := second
  refine ⟨F ∪ G, fun t out => ?_, ?_⟩
  · rw [notMem_union] at out
    exact (outG t out.2).trans (outF t out.1)
  · -- both sums extend to the union, where the changes outside their own set are 0
    have extendF : ∑ t ∈ F ∪ G, ((u.sched t).sumExecTime - (s.sched t).sumExecTime) = d := by
      rw [← sumF]
      refine (sum_subset subset_union_left fun t _ out => ?_).symm
      rw [outF t out, sub_self]
    have extendG : ∑ t ∈ F ∪ G, ((v.sched t).sumExecTime - (u.sched t).sumExecTime) = e := by
      rw [← sumG]
      refine (sum_subset subset_union_right fun t _ out => ?_).symm
      rw [outG t out, sub_self]
    rw [← extendF, ← extendG, ← sum_add_distrib]
    refine sum_congr rfl fun t _ => ?_
    rw [add_comm, sub_add_sub_cancel]

theorem Grows.zero (same : ∀ t, (u.sched t).sumExecTime = (s.sched t).sumExecTime) : Grows s u 0 :=
  ⟨∅, fun t _ => same t, sum_empty⟩

/-! ## Functions that take no time -/

/-- No time passes and none is charged, and the current task is still charged up to now. -/
structure Instant (s u : Scheduler) : Prop where
  clock : u.clock = s.clock
  sums : ∀ t, (u.sched t).sumExecTime = (s.sched t).sumExecTime
  charged : Charged u

theorem Charged.updateCurr (h : Charged s) : s.updateCurr = s := by
  obtain ⟨curr, current, now⟩ := h
  obtain ⟨same, -⟩ | ⟨c, current', late, -⟩ := updateCurr_cases s
  · exact same
  · cases current.symm.trans current'
    rw [elapsed, now, sub_self] at late
    cases late

namespace Instant

theorem refl (h : Charged s) : Instant s s := ⟨rfl, fun _ => rfl, h⟩

theorem trans (first : Instant s u) (second : Instant u v) : Instant s v where
  clock := second.clock.trans first.clock
  sums t := (second.sums t).trans (first.sums t)
  charged := second.charged

section

variable (h : Charged s)

include h

theorem of_alike (same : Alike s u) : Instant s u where
  clock := same.clock
  sums t := by rw [same.sched]
  charged := by
    obtain ⟨curr, current, now⟩ := h
    exact ⟨curr, same.current.trans current, by rw [same.sched, same.clock, now]⟩

theorem modifySched (start : ∀ e, (f e).execStart = e.execStart)
    (sum : ∀ e, (f e).sumExecTime = e.sumExecTime) : Instant s (s.modifySched t f) := by
  obtain ⟨curr, current, now⟩ := h
  exact ⟨rfl, modifySched_field Sched.sumExecTime sum s t, curr, current,
    (modifySched_field Sched.execStart start s t curr).trans now⟩

theorem placeEntity (new : Bool) : Instant s (s.placeEntity t new) := by
  unfold Scheduler.placeEntity
  exact modifySched h (fun _ => rfl) fun _ => rfl

theorem schedFork (other : s.current ≠ some t) : Instant s (s.schedFork t) := by
  have forked : Instant s (forked s t) := by
    unfold Cfs.forked
    rw [h.updateCurr]
    exact modifySched h (fun _ => rfl) fun _ => rfl
  rw [schedFork_eq other]
  have placed := forked.trans (placeEntity (t := t) forked.charged true)
  exact placed.trans (of_alike placed.charged (.setState _ t .runnable))

theorem placed (wakeup : Bool) : Instant s (placed s t wakeup) := by
  unfold Cfs.placed
  rw [h.updateCurr]
  have loaded : Instant s { s with load := addLoad (s.sched t).load s.load } := ⟨rfl, fun _ => rfl, h⟩
  cases wakeup with
  | false => exact loaded
  | true => exact loaded.trans (placeEntity loaded.charged false)

theorem enqueueTask (done : s.enqueueTask t wakeup = some u) : Instant s u := by
  rw [enqueueTask_eq] at done
  have ready := placed (t := t) h wakeup
  split at done
  · cases done
    exact refl h
  · split at done
    · obtain ⟨tree, left, rfl⟩ := treeEnqueue_inv done
      unfold entered
      -- the fields of the tree are none of the times
      have linked : Instant s { Cfs.placed s t wakeup with
          rbTree := tree
          leftMost := left
          nrRunning := (Cfs.placed s t wakeup).nrRunning + 1
          history := t :: (Cfs.placed s t wakeup).history } :=
        ⟨ready.clock, ready.sums, ready.charged⟩
      exact linked.trans (modifySched linked.charged (fun _ => rfl) fun _ => rfl)
    · cases done
      exact ready

theorem scheduleFrom (done : s.scheduleFrom curr = some u) : Instant s u := by
  obtain ⟨-, rfl⟩ | ⟨next, v, pick, alike⟩ := scheduleFrom_inv done
  · exact refl h
  · have picked := pickNextTask_inv pick
    have before : Cfs.charged s curr = s := by
      unfold Cfs.charged
      rw [h.updateCurr, ite_self]
    have instant : Instant s v := by
      refine ⟨picked.clock, fun t => ?_, next, picked.current, ?_⟩
      · rw [picked.sumExecTime, before]
      · rw [picked.execStart, picked.clock]
    exact instant.trans (of_alike instant.charged alike)

theorem schedWakeup {source : Nat} (done : s.schedWakeup source t = some u) :
    Instant s u := by
  have flagged := of_alike h (.setFlag s t wakeupFlag)
  unfold Scheduler.schedWakeup at done
  simp only [Option.bind_eq_bind] at done
  split at done
  · rw [Option.bind_eq_some_iff] at done
    obtain ⟨v, enqueued, done⟩ := done
    have ready := flagged.trans (of_alike flagged.charged (.setState _ t .runnable))
    have queued := ready.trans (enqueueTask ready.charged enqueued)
    exact queued.trans (scheduleFrom queued.charged done)
  · exact flagged.trans (scheduleFrom flagged.charged done)

end

end Instant

/-! ## The timer -/

/-- When some time has passed, `update_curr` charges it to the current task. -/
theorem Charged.updateCurr_later (h : Charged s) (positive : 0 < d.toInt64) :
    Grows s (later s d).updateCurr d ∧ Charged (later s d).updateCurr := by
  obtain ⟨curr, current, now⟩ := h
  have passed : elapsed (later s d) curr = d := by
    show s.clock + d - (s.sched curr).execStart = d
    rw [now, add_sub_cancel_left]
  obtain ⟨-, early⟩ | ⟨c, current', -, charge⟩ := updateCurr_cases (later s d)
  · have notYet := early curr current
    rw [passed] at notYet
    exact absurd positive (Int64.not_lt.mpr notYet)
  · cases current.symm.trans current'
    rw [passed] at charge
    have scheds (t : Nat) : (later s d).updateCurr.sched t =
        if t = curr then Scheduler.charge (later s d).clock d (s.sched curr) else s.sched t := by
      rw [charge]
      exact sched_modifySched (later s d) curr _ t
    refine ⟨⟨{curr}, fun t other => ?_, ?_⟩, curr, ?_, ?_⟩
    · rw [mem_singleton] at other
      rw [scheds, if_neg other]
    · rw [sum_singleton, scheds, if_pos rfl]
      exact add_sub_cancel_left _ _
    · exact (updateCurr_current _).trans current
    · rw [scheds, if_pos rfl, updateCurr_clock]
      rfl

theorem Charged.doTimer (h : Charged s) (done : s.doTimer curr = some u) :
    u.clock = s.clock + tickunit ∧ Grows s u tickunit ∧ Charged u := by
  obtain ⟨grows, charged⟩ := h.updateCurr_later (d := tickunit) (by decide)
  have marked := Instant.of_alike charged (taskTick_alike (later s tickunit) curr)
  have rest : Instant (later s tickunit).updateCurr u := by
    rw [doTimer_eq] at done
    split at done
    · have cleared := marked.trans (.of_alike marked.charged (.setFlag _ curr 0))
      exact cleared.trans (.scheduleFrom cleared.charged done)
    · cases done
      exact marked
  have total := grows.trans (.zero rest.sums)
  exact ⟨rest.clock.trans (updateCurr_clock _), total, rest.charged⟩

/-! ## Runs -/

/-- The event leaves the clock to `do_timer`. -/
def byTimer : SchedEvent → Bool
  | .tick _ => false
  | _ => true

def TimerStep (s : Scheduler) (e : SchedEvent) (u : Scheduler) : Prop :=
  Step s e u ∧ byTimer e = true

theorem TimerStep.grows {e : SchedEvent} (step : TimerStep s e u) (h : Charged s) :
    Charged u ∧ Grows s u (u.clock - s.clock) := by
  obtain ⟨⟨enabled, done⟩, timed⟩ := step
  have of_instant (instant : Instant s u) : Charged u ∧ Grows s u (u.clock - s.clock) := by
    rw [instant.clock, sub_self]
    exact ⟨instant.charged, .zero instant.sums⟩
  cases e with
  | tick delta => cases timed
  | timer =>
    obtain ⟨curr, -, done⟩ := Option.bind_eq_some_iff.mp done
    obtain ⟨clock, grows, charged⟩ := h.doTimer done
    rw [clock, add_sub_cancel_left]
    exact ⟨charged, grows⟩
  | fork t =>
    have forked := Instant.schedFork h enabled.2
    exact of_instant (forked.trans (.enqueueTask forked.charged done))
  | wakeup t =>
    have ready := Instant.of_alike h (.setState s t .runnable)
    exact of_instant (ready.trans (.enqueueTask ready.charged done))
  | preempt =>
    obtain ⟨curr, -, done⟩ := Option.bind_eq_some_iff.mp done
    have cleared := Instant.of_alike h (.setFlag s curr 0)
    exact of_instant (cleared.trans (.scheduleFrom cleared.charged done))
  | sleep =>
    obtain ⟨curr, -, done⟩ := Option.bind_eq_some_iff.mp done
    have off : Instant s (s.modifySched curr fun e => { e with onRq := false }) :=
      .modifySched h (fun _ => rfl) fun _ => rfl
    have asleep := off.trans (.of_alike off.charged (.setState _ curr .sleeping))
    exact of_instant (asleep.trans (.scheduleFrom asleep.charged done))
  | exit parent =>
    obtain ⟨curr, -, done⟩ := Option.bind_eq_some_iff.mp done
    have off : Instant s (s.modifySched curr fun e => { e with onRq := false }) :=
      .modifySched h (fun _ => rfl) fun _ => rfl
    have gone := off.trans (.of_alike off.charged (.setState _ curr .exited))
    exact of_instant (gone.trans (.schedWakeup gone.charged done))
  | front t =>
    cases done
    exact of_instant (.of_alike h (.front s t))

/-- In every run the execution times of all tasks grow by as much as the clock. -/
theorem time_charged_once {events : List SchedEvent} (charged : Charged s)
    (run : Run TimerStep s events u) : Grows s u (u.clock - s.clock) := by
  refine run.relates (fun s e t (inv : Charged s) step => (step.grows inv).1) (fun s => ?_)
    (fun s t v first second => ?_) (fun s e t inv step => (step.grows inv).2) charged
  · rw [sub_self]
    exact .zero fun _ => rfl
  · rw [show v.clock - s.clock = t.clock - s.clock + (v.clock - t.clock) by
      rw [add_comm, sub_add_sub_cancel]]
    exact first.trans second

/-- A fork, two ticks around a sleep, and an exit. -/
theorem time_charged_once_two : ∃ u, Run TimerStep oneTask [.fork 1, .timer, .sleep, .timer, .exit 0] u ∧
    u.clock = 2000000 ∧ Grows oneTask u (u.clock - oneTask.clock) := by
  have found : (attempt (fun s e => Enabled s e ∧ byTimer e = true) Scheduler.exec oneTask
      [.fork 1, .timer, .sleep, .timer, .exit 0]).any (fun u => u.clock = 2000000) = true := by
    decide +kernel
  obtain ⟨u, run, clock⟩ :=
    exists_run TimerStep (fun _ _ _ pass done => ⟨⟨pass.1, done⟩, pass.2⟩) found
  exact ⟨u, run, of_decide_eq_true clock, time_charged_once ⟨0, rfl, rfl⟩ run⟩

end Illinix.Verified.Cfs
