import Illinix.Lib.Run
import Illinix.Verified.Cfs.Queue

/-! # The invariant of the run queue

The tree is keyed by a field that the scheduler changes, and the current task is kept out of it
while its `on_rq` stays set.  What holds it together: only the current task and tasks that are not
queued change their virtual time.  `SameQueue` is this condition on a piece of code;
everything but `__enqueue_entity`, `__dequeue_entity` and the writes to `rq->current` and `on_rq`
satisfies it. -/

namespace Illinix.Verified.Cfs

open Kernel List
open Lib (Run attempt exists_run)
open scoped List

variable {s u v : Scheduler} {q l r : List Nat} {t x y curr next : Nat} {c : Option Nat}

/-- `a` comes before `b` in the queue: by virtual time, and tasks with the same virtual time in the
    order in which they were put into the tree. -/
def Before (s : Scheduler) (a b : Nat) : Prop :=
  (s.sched a).vruntime < (s.sched b).vruntime ∨
    (s.sched a).vruntime = (s.sched b).vruntime ∧ s.history.idxOf b < s.history.idxOf a

/-- The queue holds the tasks `q`, in this order. -/
structure RunQueue (s : Scheduler) (q : List Nat) : Prop extends Holds s q where
  members : ∀ t, t ∈ q ↔ (s.sched t).onRq = true ∧ s.current ≠ some t
  sorted : q.Pairwise (Before s)

/-! ## What does not disturb the queue -/

structure SameQueue (s u : Scheduler) : Prop where
  rbTree : u.rbTree = s.rbTree
  leftMost : u.leftMost = s.leftMost
  nrRunning : u.nrRunning = s.nrRunning
  history : u.history = s.history
  current : u.current = s.current
  onRq : ∀ t, (u.sched t).onRq = (s.sched t).onRq
  vruntime : ∀ t, (s.sched t).onRq = true → s.current ≠ some t →
    (u.sched t).vruntime = (s.sched t).vruntime

namespace SameQueue

theorem trans (first : SameQueue s u) (second : SameQueue u v) : SameQueue s v where
  rbTree := second.rbTree.trans first.rbTree
  leftMost := second.leftMost.trans first.leftMost
  nrRunning := second.nrRunning.trans first.nrRunning
  history := second.history.trans first.history
  current := second.current.trans first.current
  onRq t := (second.onRq t).trans (first.onRq t)
  vruntime t queued other := by
    rw [← first.vruntime t queued other]
    refine second.vruntime t ?_ ?_
    · rw [first.onRq]
      exact queued
    · rw [first.current]
      exact other

theorem of_alike (same : Alike s u) : SameQueue s u where
  rbTree := same.rbTree
  leftMost := same.leftMost
  nrRunning := same.nrRunning
  history := same.history
  current := same.current
  onRq t := by rw [same.sched]
  vruntime t _ _ := by rw [same.sched]

theorem modifySched {f : Sched → Sched} (onRq : (f (s.sched t)).onRq = (s.sched t).onRq)
    (outside : (s.sched t).onRq = true → s.current = some t) : SameQueue s (s.modifySched t f) where
  rbTree := rfl
  leftMost := rfl
  nrRunning := rfl
  history := rfl
  current := rfl
  onRq x := by
    rw [sched_modifySched]
    split
    · next same => rw [same, onRq]
    · rfl
  vruntime x queued other := by
    rw [sched_modifySched, if_neg]
    rintro rfl
    exact other (outside queued)

theorem updateCurr (s : Scheduler) : SameQueue s s.updateCurr where
  rbTree := updateCurr_rbTree s
  leftMost := updateCurr_leftMost s
  nrRunning := updateCurr_nrRunning s
  history := updateCurr_history s
  current := updateCurr_current s
  onRq t := (sched_updateCurr_kept s t).2
  vruntime t _ other := by rw [sched_updateCurr_of_ne other]

theorem placeEntity (outside : (s.sched t).onRq = true → s.current = some t) (new : Bool) :
    SameQueue s (s.placeEntity t new) := by
  unfold Scheduler.placeEntity
  exact modifySched rfl outside

end SameQueue

theorem Before.le {a b : Nat} (h : Before s a b) : (s.sched a).vruntime ≤ (s.sched b).vruntime := by
  cases h with
  | inl less => exact UInt64.le_of_lt less
  | inr same => exact UInt64.le_of_eq same.1

theorem RunQueue.congr (h : RunQueue s q) (same : SameQueue s u) : RunQueue u q where
  tree := by
    rw [same.rbTree]
    exact h.tree
  leftMost := same.leftMost.trans h.leftMost
  count := same.nrRunning.trans h.count
  members t := by
    rw [same.onRq, same.current]
    exact h.members t
  sorted := by
    refine h.sorted.imp_of_mem fun {a b} ha hb order => ?_
    obtain ⟨onRqA, otherA⟩ := (h.members a).mp ha
    obtain ⟨onRqB, otherB⟩ := (h.members b).mp hb
    unfold Before
    rw [same.vruntime a onRqA otherA, same.vruntime b onRqB otherB, same.history]
    exact order

/-! ## Entering and leaving -/

theorem RunQueue.ordered (h : RunQueue s q) : Sorted s q := h.sorted.imp Before.le

/-- A task enters behind those with the same virtual time. -/
theorem sorted_enter (sorted : (l ++ r).Pairwise (Before s)) (fresh : x ∉ l ++ r)
    (low : ∀ a ∈ l, (s.sched a).vruntime ≤ (s.sched x).vruntime)
    (high : ∀ a ∈ r, (s.sched x).vruntime < (s.sched a).vruntime)
    (vruntime : ∀ t, (u.sched t).vruntime = (s.sched t).vruntime)
    (history : u.history = x :: s.history) : (l ++ x :: r).Pairwise (Before u) := by
  have older {a : Nat} (ha : a ∈ l ++ r) : u.history.idxOf a = s.history.idxOf a + 1 := by
    rw [history]
    exact idxOf_cons_ne _ fun same => fresh (same ▸ ha)
  have kept {a b : Nat} (ha : a ∈ l ++ r) (hb : b ∈ l ++ r) (order : Before s a b) :
      Before u a b := by
    unfold Before
    rw [vruntime, vruntime, older ha, older hb]
    exact order.imp_right fun same => ⟨same.1, Nat.succ_lt_succ same.2⟩
  obtain ⟨sortedL, sortedR, across⟩ := pairwise_append.mp sorted
  rw [pairwise_append, pairwise_cons]
  refine ⟨?_, ⟨fun b hb => ?_, ?_⟩, fun a ha b hb => ?_⟩
  · exact sortedL.imp_of_mem fun ha hb => kept (mem_append_left r ha) (mem_append_left r hb)
  · left
    rw [vruntime, vruntime]
    exact high b hb
  · exact sortedR.imp_of_mem fun ha hb => kept (mem_append_right l ha) (mem_append_right l hb)
  · cases mem_cons.mp hb with
    | inr inR =>
      exact kept (mem_append_left r ha) (mem_append_right l inR) (across a ha b inR)
    | inl new =>
      -- the new task is the last one in the history
      subst new
      unfold Before
      rw [vruntime, vruntime, older (mem_append_left r ha), history, idxOf_cons_self]
      cases UInt64.lt_or_eq_of_le (low a ha) with
      | inl less => exact .inl less
      | inr same => exact .inr ⟨same, Nat.succ_pos _⟩

/-- `__enqueue_entity`, when `rq->current` is `c` afterwards. -/
theorem RunQueue.enter (h : RunQueue s q) (fresh : x ∉ q) (here : c ≠ some x)
    (others : ∀ t ≠ x, (c ≠ some t ↔ s.current ≠ some t)) :
    ∃ tree left l r, s.treeEnqueue x = some (entered s x tree left) ∧ q = l ++ r ∧
      RunQueue { entered s x tree left with current := c } (l ++ x :: r) := by
  obtain ⟨tree, left, l, r, done, holds, rfl, place⟩ := treeEnqueue_spec h.toHolds fresh
  obtain ⟨low, high⟩ := place h.ordered
  refine ⟨tree, left, l, r, done, rfl, ⟨holds.tree, holds.leftMost, holds.count⟩, fun t => ?_, ?_⟩
  · show _ ↔ ((entered s x tree left).sched t).onRq = true ∧ c ≠ some t
    rw [sched_entered, mem_append, mem_cons]
    by_cases new : t = x
    · subst new
      simp [here]
    · have old := h.members t
      rw [if_neg new, others t new, ← old]
      simp [new]
  · exact sorted_enter h.sorted fresh low high (entered_field Sched.vruntime (fun _ => rfl) s x tree left) rfl

theorem RunQueue.leave (h : RunQueue s (x :: q)) (idle : s.current = none) :
    ∃ tree left, s.treeDequeue x = some (vacated s tree left) ∧
      RunQueue { vacated s tree left with current := some x } q := by
  obtain ⟨tree, left, done, holds⟩ := treeDequeue_spec (l := []) h.toHolds
  refine ⟨tree, left, done, ⟨holds.tree, holds.leftMost, holds.count⟩, fun t => ?_, ?_⟩
  · have old := h.members t
    rw [mem_cons, idle] at old
    have first : x ∉ q := (nodup_cons.mp h.toHolds.nodup).1
    show t ∈ q ↔ (s.sched t).onRq = true ∧ some x ≠ some t
    constructor
    · intro inside
      refine ⟨(old.mp (.inr inside)).1, fun same => ?_⟩
      cases same
      exact first inside
    · rintro ⟨onRq, other⟩
      cases old.mpr ⟨onRq, nofun⟩ with
      | inl same => exact absurd (congrArg some same.symm) other
      | inr inside => exact inside
  · exact (pairwise_cons.mp h.sorted).2

/-! ## The functions of the scheduler -/

/-- The tasks that `pick_next_task` chooses from. -/
def candidates (s : Scheduler) (curr : Nat) (q : List Nat) : List Nat :=
  if (s.sched curr).onRq then curr :: q else q

section

variable (h : RunQueue s q) (current : s.current = some curr)

include h current

theorem RunQueue.putPrevTask : ∃ u q', s.putPrevTask curr = some u ∧ u.current = none ∧ RunQueue u q' ∧
      q' ~ candidates s curr q := by
  unfold candidates
  by_cases onRq : (s.sched curr).onRq = true
  · have charged := h.congr (.updateCurr s)
    obtain ⟨tree, left, l, r, done, rfl, holds⟩ := charged.enter (c := none)
      (fun inside => ((h.members curr).mp inside).2 current) nofun (by simp [current, eq_comm])
    refine ⟨{ entered s.updateCurr curr tree left with current := none }, l ++ curr :: r, ?_, rfl, holds, ?_⟩
    · simp [Scheduler.putPrevTask, onRq, done]
    · rw [if_pos onRq]
      exact perm_middle
  · refine ⟨{ s with current := none }, q, ?_, rfl, ?_, ?_⟩
    · simp [Scheduler.putPrevTask, onRq]
    · -- a task that is not queued leaves without a trace
      refine ⟨⟨h.tree, h.leftMost, h.count⟩, fun t => ?_, h.sorted⟩
      rw [h.members t, current]
      show _ ↔ (s.sched t).onRq = true ∧ none ≠ some t
      constructor
      · rintro ⟨queued, -⟩
        exact ⟨queued, nofun⟩
      · rintro ⟨queued, -⟩
        refine ⟨queued, fun same => onRq ?_⟩
        cases same
        exact queued
    · rw [if_neg onRq]

theorem RunQueue.pickNextTask
    (nonempty : s.nrRunning ≠ 0) : ∃ next u q', s.pickNextTask curr = some (some next, u) ∧
      RunQueue u q' ∧ next :: q' ~ candidates s curr q ∧
      ∀ t ∈ next :: q', (u.sched next).vruntime ≤ (u.sched t).vruntime := by
  obtain ⟨v, q', parked, idle, queue, perm⟩ := h.putPrevTask current
  cases q' with
  | nil =>
    -- the queue was not empty, and nothing has left it
    rw [candidates] at perm
    split at perm
    · cases perm.symm.eq_nil
    · rw [h.count, perm.symm.eq_nil] at nonempty
      exact absurd rfl nonempty
  | cons next q' =>
    obtain ⟨tree, left, done, holds⟩ := queue.leave idle
    have first : v.leftMost = some next := queue.leftMost
    let w : Scheduler := { vacated v tree left with current := some next }
    have started : SameQueue w (w.modifySched next fun e =>
        { e with execStart := w.clock, prevSumExecTime := e.sumExecTime }) :=
      .modifySched rfl fun _ => rfl
    refine ⟨next, _, q', ?_, holds.congr started, perm, fun t ht => ?_⟩
    · simp [Scheduler.pickNextTask, nonempty, parked, first, done, w]
    · have same (x : Nat) : ((w.modifySched next fun e =>
          { e with execStart := w.clock, prevSumExecTime := e.sumExecTime }).sched x).vruntime =
          (v.sched x).vruntime := modifySched_field Sched.vruntime (fun _ => by rfl) w next x
      rw [same, same]
      cases mem_cons.mp ht with
      | inl self =>
        rw [self]
        exact UInt64.le_refl _
      | inr later => exact ((pairwise_cons.mp queue.sorted).1 t later).le

theorem RunQueue.scheduleFrom : ∃ u q', s.scheduleFrom curr = some u ∧ RunQueue u q' ∧
      (u = s ∧ q' = q ∨ ∃ next v, s.pickNextTask curr = some (some next, v) ∧ Alike v u ∧
        next :: q' ~ candidates s curr q) := by
  by_cases empty : s.nrRunning = 0
  · refine ⟨s, q, ?_, h, .inl ⟨rfl, rfl⟩⟩
    simp [Scheduler.scheduleFrom, Scheduler.pickNextTask, empty]
  · obtain ⟨next, v, q', pick, queue, perm, -⟩ := h.pickNextTask current empty
    have switched : ∃ u, s.scheduleFrom curr = some u ∧ Alike v u := by
      rw [Scheduler.scheduleFrom, pick]
      by_cases same : curr = next
      · exact ⟨v, if_pos same, .refl v⟩
      · exact ⟨v.switchTo curr next, if_neg same, .switchTo (pickNextTask_inv pick).current⟩
    obtain ⟨u, done, alike⟩ := switched
    exact ⟨u, q', done, queue.congr (.of_alike alike), .inr ⟨next, v, pick, alike, perm⟩⟩

end

theorem SameQueue.placed (outside : (s.sched t).onRq = false) (wakeup : Bool) :
    SameQueue s (placed s t wakeup) := by
  have loaded : SameQueue s { s.updateCurr with
      load := addLoad (s.updateCurr.sched t).load s.updateCurr.load } :=
    (updateCurr s).trans ⟨rfl, rfl, rfl, rfl, rfl, fun _ => rfl, fun _ _ _ => rfl⟩
  cases wakeup with
  | false => exact loaded
  | true =>
    refine loaded.trans (.placeEntity (fun queued => ?_) false)
    have off := loaded.onRq t
    rw [outside] at off
    rw [off] at queued
    cases queued

theorem RunQueue.enqueueTask (h : RunQueue s q) (t : Nat) (wakeup : Bool) :
    ∃ u q', s.enqueueTask t wakeup = some u ∧ RunQueue u q' ∧ u.current = s.current ∧
      q' ~ if (s.sched t).onRq ∨ s.current = some t then q else t :: q := by
  rw [enqueueTask_eq]
  by_cases onRq : (s.sched t).onRq = true
  · exact ⟨s, q, by simp [onRq], h, rfl, by simp [onRq]⟩
  · rw [Bool.not_eq_true] at onRq
    have queue := h.congr (.placed onRq wakeup)
    by_cases self : s.current = some t
    · exact ⟨Cfs.placed s t wakeup, q, by simp [onRq, self], queue, placed_current s t wakeup,
        by simp [self]⟩
    · have fresh : t ∉ q := by
        rw [h.members, onRq]
        exact fun inside => nomatch inside.1
      obtain ⟨tree, left, l, r, done, rfl, holds⟩ := queue.enter (c := s.current) fresh self
        (by simp [placed_current])
      have queue' : RunQueue (entered (Cfs.placed s t wakeup) t tree left) (l ++ t :: r) := by
        rw [← placed_current s t wakeup] at holds
        exact holds
      refine ⟨_, l ++ t :: r, ?_, queue', placed_current s t wakeup, ?_⟩
      · simp [onRq, self, done]
      · rw [if_neg (by simp [onRq, self])]
        exact perm_middle

theorem SameQueue.schedFork (outside : (s.sched t).onRq = false) (other : s.current ≠ some t) :
    SameQueue s (s.schedFork t) := by
  have out {v : Scheduler} (same : SameQueue s v) : (v.sched t).onRq = true → v.current = some t :=
    fun queued => nomatch (outside.symm.trans (same.onRq t).symm).trans queued
  have charged := SameQueue.updateCurr s
  have forked : SameQueue s (forked s t) := charged.trans (.modifySched rfl (out charged))
  have placed := forked.trans (.placeEntity (out forked) true)
  rw [schedFork_eq other]
  exact placed.trans (.of_alike (.setState _ t .runnable))

theorem SameQueue.tick (s : Scheduler) (d : UInt64) (t : Nat) :
    SameQueue s ((later s d).taskTick t) := by
  have advanced : SameQueue s (later s d) := ⟨rfl, rfl, rfl, rfl, rfl, fun _ => rfl, fun _ _ _ => rfl⟩
  exact (advanced.trans (.updateCurr _)).trans (.of_alike (taskTick_alike _ t))

theorem RunQueue.drop (h : RunQueue s q) (current : s.current = some curr) :
    RunQueue (s.modifySched curr fun e => { e with onRq := false }) q := by
  refine ⟨⟨h.tree, h.leftMost, h.count⟩, fun t => ?_, ?_⟩
  · rw [sched_modifySched, h.members t]
    show _ ↔ _ ∧ s.current ≠ some t
    split
    · next same =>
      subst same
      simp [current]
    · rfl
  · refine h.sorted.imp fun {a b} order => ?_
    have same (t : Nat) : ((s.modifySched curr fun e => { e with onRq := false }).sched t).vruntime =
        (s.sched t).vruntime := modifySched_field Sched.vruntime (fun _ => by rfl) s curr t
    unfold Before
    rw [same, same]
    exact order

theorem RunQueue.schedWakeup (h : RunQueue s q) (current : s.current = some curr) (t : Nat) :
    ∃ u q', s.schedWakeup curr t = some u ∧ RunQueue u q' := by
  have flagged := h.congr (.of_alike (.setFlag s t wakeupFlag))
  unfold Scheduler.schedWakeup
  simp only [Option.bind_eq_bind]
  split
  · have ready := flagged.congr (.of_alike (.setState _ t .runnable))
    obtain ⟨v, q', enqueued, queue, still, -⟩ := ready.enqueueTask t true
    obtain ⟨u, q', done, queue', -⟩ := queue.scheduleFrom (still.trans current)
    exact ⟨u, q', by rw [enqueued, Option.bind_some, done], queue'⟩
  · obtain ⟨u, q', done, queue, -⟩ := flagged.scheduleFrom (show Scheduler.current _ = some curr from current)
    exact ⟨u, q', done, queue⟩

/-! ## Runs -/

/-- When an event can happen: a task is forked once, while it is neither queued nor current, and
    the current task must exist to be scheduled away. -/
def Enabled (s : Scheduler) : SchedEvent → Prop
  | .fork t => (s.sched t).onRq = false ∧ s.current ≠ some t
  | .wakeup _ | .tick _ | .front _ => True
  | .timer | .preempt | .sleep | .exit _ => s.current ≠ none

instance (s : Scheduler) (e : SchedEvent) : Decidable (Enabled s e) :=
  match e with
  | .fork _ => inferInstanceAs (Decidable (_ ∧ _))
  | .wakeup _ | .tick _ | .front _ => inferInstanceAs (Decidable True)
  | .timer | .preempt | .sleep | .exit _ => inferInstanceAs (Decidable (_ ≠ _))

def Step (s : Scheduler) (e : SchedEvent) (u : Scheduler) : Prop :=
  Enabled s e ∧ s.exec e = some u

theorem RunQueue.schedule (h : RunQueue s q) (current : s.current = some curr) :
    ∃ u q', s.schedule curr = some u ∧ RunQueue u q' := by
  have flagged := h.congr (.of_alike (.setFlag s curr 0))
  obtain ⟨u, q', done, queue, -⟩ := flagged.scheduleFrom (show Scheduler.current _ = some curr from current)
  exact ⟨u, q', done, queue⟩

theorem RunQueue.exec (h : RunQueue s q) {e : SchedEvent} (enabled : Enabled s e) :
    ∃ u q', s.exec e = some u ∧ RunQueue u q' := by
  cases e with
  | fork t =>
    obtain ⟨u, q', done, queue, -⟩ := (h.congr (.schedFork enabled.1 enabled.2)).enqueueTask t false
    exact ⟨u, q', done, queue⟩
  | wakeup t =>
    obtain ⟨u, q', done, queue, -⟩ := (h.congr (.of_alike (.setState s t .runnable))).enqueueTask t true
    exact ⟨u, q', done, queue⟩
  | tick delta =>
    cases current : s.current with
    | none =>
      refine ⟨later s delta, q, ?_, h.congr ⟨rfl, rfl, rfl, rfl, rfl, fun _ => rfl, fun _ _ _ => rfl⟩⟩
      simp [Scheduler.exec, current, later]
    | some curr => exact ⟨_, q, exec_tick current delta, h.congr (.tick s delta curr)⟩
  | front t => exact ⟨_, q, rfl, h.congr (.of_alike (.front s t))⟩
  | timer =>
    obtain ⟨curr, current⟩ := Option.ne_none_iff_exists'.mp enabled
    have ticked := SameQueue.tick s tickunit curr
    show ∃ u q', s.current.bind s.doTimer = some u ∧ RunQueue u q'
    rw [current, Option.bind_some, doTimer_eq]
    split
    · exact (h.congr ticked).schedule (ticked.current.trans current)
    · exact ⟨_, q, rfl, h.congr ticked⟩
  | preempt =>
    obtain ⟨curr, current⟩ := Option.ne_none_iff_exists'.mp enabled
    show ∃ u q', s.current.bind s.schedule = some u ∧ RunQueue u q'
    rw [current]
    exact h.schedule current
  | sleep =>
    obtain ⟨curr, current⟩ := Option.ne_none_iff_exists'.mp enabled
    have asleep := (h.drop current).congr (.of_alike (.setState _ curr .sleeping))
    obtain ⟨u, q', done, queue, -⟩ := asleep.scheduleFrom (show Scheduler.current _ = some curr from current)
    show ∃ u q', s.current.bind s.schedSleep = some u ∧ RunQueue u q'
    rw [current]
    exact ⟨u, q', done, queue⟩
  | exit parent =>
    obtain ⟨curr, current⟩ := Option.ne_none_iff_exists'.mp enabled
    have gone := (h.drop current).congr (.of_alike (.setState _ curr .exited))
    show ∃ u q', (s.current.bind fun curr => s.schedExit curr parent) = some u ∧ RunQueue u q'
    rw [current]
    exact gone.schedWakeup current parent

/-- The queue is empty, and nobody claims to be in it. -/
structure Booted (s : Scheduler) : Prop where
  root : s.rbTree.root = none
  leftMost : s.leftMost = none
  count : s.nrRunning = 0
  off : ∀ t, s.current ≠ some t → (s.sched t).onRq = false

theorem Booted.runQueue (h : Booted s) : RunQueue s [] where
  tree := ⟨.leaf, 0, ⟨h.root, trivial, .nil⟩, .leaf, rfl⟩
  leftMost := h.leftMost
  count := h.count
  members t := by
    refine ⟨nofun, fun ⟨onRq, other⟩ => ?_⟩
    rw [h.off t other] at onRq
    cases onRq
  sorted := .nil

/-- `pick_next_task` on a queue that is not empty returns a task with the least virtual time of the
    queued ones and, if it is still on the queue, of the previous one. -/
def PicksLeast (s : Scheduler) (q : List Nat) : Prop :=
  ∀ curr, s.current = some curr → s.nrRunning ≠ 0 → ∃ next u,
    s.pickNextTask curr = some (some next, u) ∧ next ∈ candidates s curr q ∧
      ∀ t ∈ candidates s curr q, (u.sched next).vruntime ≤ (u.sched t).vruntime

theorem RunQueue.picksLeast (h : RunQueue s q) : PicksLeast s q := by
  intro curr current nonempty
  obtain ⟨next, u, q', done, -, perm, least⟩ := h.pickNextTask current nonempty
  exact ⟨next, u, done, perm.mem_iff.mp (by simp), fun t ht => least t (perm.mem_iff.mpr ht)⟩

theorem RunQueue.run {events : List SchedEvent} (h : RunQueue s q) (run : Run Step s events u) :
    ∃ q', RunQueue u q' := by
  refine run.invariant (fun s e t (inv : ∃ q, RunQueue s q) step => ?_) ⟨q, h⟩
  obtain ⟨q, queue⟩ := inv
  obtain ⟨v, q', done, queue'⟩ := queue.exec step.1
  rw [step.2] at done
  cases done
  exact ⟨q', queue'⟩

/-- Between the events of every run the tree holds the tasks with `on_rq` set other than the current
    one, in order and consistently linked, `left_most` and `nr_running` agree with it,
    `pick_next_task` picks a task with the least virtual time, and every event returns. -/
theorem run_queue_kept {events : List SchedEvent} (booted : Booted s) (run : Run Step s events u) :
    ∃ q, RunQueue u q ∧ q.Nodup ∧ PicksLeast u q ∧ ∀ e, Enabled u e → ∃ v, u.exec e = some v := by
  obtain ⟨q, queue⟩ := booted.runQueue.run run
  refine ⟨q, queue, queue.nodup, queue.picksLeast, fun e enabled => ?_⟩
  obtain ⟨v, -, done, -⟩ := queue.exec enabled
  exact ⟨v, done⟩

/-- A scheduler with one task running and the others not yet forked. -/
def oneTask : Scheduler where
  load := loadWeight ⟨0, by decide, by decide⟩
  nrRunning := 0
  minVruntime := 0
  clock := 0
  rbTree := ⟨none, fun _ => none, fun _ => .red, fun _ => none, fun _ => none⟩
  leftMost := none
  current := some 0
  tasks t := {
    nice := ⟨0, by decide, by decide⟩
    state := if t = 0 then .running else .unused
    flag := 0
    consoleId := 0
    sched := {
      load := loadWeight ⟨0, by decide, by decide⟩
      vruntime := 0
      execStart := 0
      sumExecTime := 0
      prevSumExecTime := 0
      onRq := t = 0 } }
  front := 0
  history := []

theorem oneTask_booted : Booted oneTask where
  root := rfl
  leftMost := rfl
  count := rfl
  off t other := by simpa [oneTask, Scheduler.sched, eq_comm] using other

/-- Three forks, a clock advance, a preemption, and a sleep and a wakeup of the first task. -/
theorem run_queue_kept_three : ∃ u, Run Step oneTask [.fork 1, .fork 2, .fork 3, .tick 7000000,
      .preempt, .sleep, .wakeup 0] u ∧ u.leftMost = some 0 ∧
    ∃ q, RunQueue u q ∧ q.Nodup ∧ PicksLeast u q ∧ ∀ e, Enabled u e → ∃ v, u.exec e = some v := by
  have found : (attempt Enabled Scheduler.exec oneTask [.fork 1, .fork 2, .fork 3, .tick 7000000,
      .preempt, .sleep, .wakeup 0]).any (fun u => u.leftMost = some 0) = true := by
    decide +kernel
  obtain ⟨u, run, first⟩ := exists_run Step (fun _ _ _ pass done => ⟨pass, done⟩) found
  exact ⟨u, run, of_decide_eq_true first, run_queue_kept oneTask_booted run⟩

end Illinix.Verified.Cfs
