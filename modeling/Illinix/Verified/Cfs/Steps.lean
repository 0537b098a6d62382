import Illinix.Kernel.Cfs

/-! # What each function of the scheduler changes

`update_curr` changes the current entity and `min_vruntime`; `__enqueue_entity` and
`__dequeue_entity` change the tree, its cached first node and its count, and set `on_rq`;
`pick_next_task` starts the execution time of the task it returns.  These lemmas hold for
every call that returns, whatever the state of the tree. -/

namespace Illinix.Verified.Cfs

open Kernel Function

variable {s u : Scheduler} {t x curr next : Nat} {f : Sched → Sched}

/-! ## Updates of one task -/

@[simp] theorem sched_modifySched (s : Scheduler) (t : Nat) (f : Sched → Sched) (x : Nat) :
    (s.modifySched t f).sched x = if x = t then f (s.sched t) else s.sched x := by
  simp only [Scheduler.modifySched, Scheduler.modify, Scheduler.sched, update_apply]
  split <;> rfl

theorem modifySched_field {α : Type} (g : Sched → α) (kept : ∀ e, g (f e) = g e) (s : Scheduler)
    (t x : Nat) : g ((s.modifySched t f).sched x) = g (s.sched x) := by
  rw [sched_modifySched]
  split
  · next same => rw [same, kept]
  · rfl

theorem placeEntity_field {α : Type} (g : Sched → α)
    (kept : ∀ e v, g { e with vruntime := v } = g e) (s : Scheduler) (t : Nat) (new : Bool) (x : Nat) :
    g ((s.placeEntity t new).sched x) = g (s.sched x) := by
  unfold Scheduler.placeEntity
  exact modifySched_field g (fun e => kept e _) s t x

theorem sched_modify {g : Task → Task} (same : (g (s.tasks t)).sched = (s.tasks t).sched) (x : Nat) :
    (s.modify t g).sched x = s.sched x := by
  simp only [Scheduler.modify, Scheduler.sched, update_apply]
  split
  · next eq => rw [eq, same]
  · rfl

@[simp] theorem sched_setState (s : Scheduler) (t : Nat) (state : ProState) (x : Nat) :
    (s.setState t state).sched x = s.sched x := sched_modify rfl x

@[simp] theorem sched_setFlag (s : Scheduler) (t : Nat) (flag : UInt8) (x : Nat) :
    (s.setFlag t flag).sched x = s.sched x := sched_modify rfl x

/-- The two states differ only in what the scheduler keeps for others: the states and flags of the
    tasks and the console. -/
structure Alike (s u : Scheduler) : Prop where
  load : u.load = s.load
  nrRunning : u.nrRunning = s.nrRunning
  minVruntime : u.minVruntime = s.minVruntime
  clock : u.clock = s.clock
  rbTree : u.rbTree = s.rbTree
  leftMost : u.leftMost = s.leftMost
  current : u.current = s.current
  history : u.history = s.history
  sched : ∀ t, u.sched t = s.sched t

namespace Alike

theorem refl (s : Scheduler) : Alike s s := ⟨rfl, rfl, rfl, rfl, rfl, rfl, rfl, rfl, fun _ => rfl⟩

theorem trans {v : Scheduler} (first : Alike s u) (second : Alike u v) : Alike s v where
  load := second.load.trans first.load
  nrRunning := second.nrRunning.trans first.nrRunning
  minVruntime := second.minVruntime.trans first.minVruntime
  clock := second.clock.trans first.clock
  rbTree := second.rbTree.trans first.rbTree
  leftMost := second.leftMost.trans first.leftMost
  current := second.current.trans first.current
  history := second.history.trans first.history
  sched t := (second.sched t).trans (first.sched t)

theorem setState (s : Scheduler) (t : Nat) (state : ProState) : Alike s (s.setState t state) :=
  ⟨rfl, rfl, rfl, rfl, rfl, rfl, rfl, rfl, fun x => sched_setState s t state x⟩

theorem setFlag (s : Scheduler) (t : Nat) (flag : UInt8) : Alike s (s.setFlag t flag) :=
  ⟨rfl, rfl, rfl, rfl, rfl, rfl, rfl, rfl, fun x => sched_setFlag s t flag x⟩

theorem front (s : Scheduler) (t : Nat) : Alike s { s with front := t } :=
  ⟨rfl, rfl, rfl, rfl, rfl, rfl, rfl, rfl, fun _ => rfl⟩

theorem switchTo (current : s.current = some next) : Alike s (s.switchTo curr next) := by
  have left : Alike s (if (s.tasks curr).state = .running then s.setState curr .runnable else s) := by
    split
    · exact setState s curr .runnable
    · exact refl s
  unfold Scheduler.switchTo
  generalize (if (s.tasks curr).state = .running then s.setState curr .runnable else s) = w at left ⊢
  have entered := left.trans (setState w next .running)
  simp only []
  split
  · exact ⟨entered.load, entered.nrRunning, entered.minVruntime, entered.clock, entered.rbTree,
      entered.leftMost, current.symm, entered.history, entered.sched⟩
  · exact ⟨entered.load, entered.nrRunning, entered.minVruntime, entered.clock, entered.rbTree,
      entered.leftMost, current.symm, entered.history, entered.sched⟩

end Alike

/-! ## `update_curr` -/

/-- The time since a task was charged last. -/
def elapsed (s : Scheduler) (x : Nat) : UInt64 := s.clock - (s.sched x).execStart

/-- Either there is nothing to charge, or the current task is charged for the elapsed time. -/
theorem updateCurr_cases (s : Scheduler) :
    (s.updateCurr = s ∧ ∀ curr, s.current = some curr → (elapsed s curr).toInt64 ≤ 0) ∨
    ∃ curr, s.current = some curr ∧ 0 < (elapsed s curr).toInt64 ∧ s.updateCurr =
      (s.modifySched curr (Scheduler.charge s.clock (elapsed s curr))).updateMinVruntime := by
  unfold Scheduler.updateCurr
  cases current : s.current with
  | none => exact .inl ⟨rfl, fun _ h => nomatch h⟩
  | some curr =>
    by_cases early : (elapsed s curr).toInt64 ≤ 0
    · left
      refine ⟨if_pos early, fun c same => ?_⟩
      cases same
      exact early
    · right
      exact ⟨curr, rfl, Int64.not_le.mp early, if_neg early⟩

theorem updateCurr_fields (s : Scheduler) : s.updateCurr = { s with
      minVruntime := s.updateCurr.minVruntime
      tasks := s.updateCurr.tasks } := by
  obtain ⟨same, -⟩ | ⟨curr, -, -, charged⟩ := updateCurr_cases s
  · rw [same]
  · rw [charged]
    rfl

@[simp] theorem updateCurr_load (s : Scheduler) : s.updateCurr.load = s.load := by
  rw [updateCurr_fields]
@[simp] theorem updateCurr_nrRunning (s : Scheduler) : s.updateCurr.nrRunning = s.nrRunning := by
  rw [updateCurr_fields]
@[simp] theorem updateCurr_clock (s : Scheduler) : s.updateCurr.clock = s.clock := by
  rw [updateCurr_fields]
@[simp] theorem updateCurr_rbTree (s : Scheduler) : s.updateCurr.rbTree = s.rbTree := by
  rw [updateCurr_fields]
@[simp] theorem updateCurr_leftMost (s : Scheduler) : s.updateCurr.leftMost = s.leftMost := by
  rw [updateCurr_fields]
@[simp] theorem updateCurr_current (s : Scheduler) : s.updateCurr.current = s.current := by
  rw [updateCurr_fields]
@[simp] theorem updateCurr_history (s : Scheduler) : s.updateCurr.history = s.history := by
  rw [updateCurr_fields]

theorem sched_updateCurr_of_ne (other : s.current ≠ some x) : s.updateCurr.sched x = s.sched x := by
  obtain ⟨same, -⟩ | ⟨curr, current, -, charged⟩ := updateCurr_cases s
  · rw [same]
  · rw [charged]
    show (s.modifySched curr _).sched x = s.sched x
    rw [sched_modifySched, if_neg]
    rintro rfl
    exact other current

theorem sched_updateCurr_kept (s : Scheduler) (x : Nat) :
    (s.updateCurr.sched x).load = (s.sched x).load ∧ (s.updateCurr.sched x).onRq = (s.sched x).onRq := by
  obtain ⟨same, -⟩ | ⟨curr, -, -, charged⟩ := updateCurr_cases s
  · rw [same]
    exact ⟨rfl, rfl⟩
  · rw [charged]
    have kept (e : Sched) : (Scheduler.charge s.clock (elapsed s curr) e).load = e.load ∧
        (Scheduler.charge s.clock (elapsed s curr) e).onRq = e.onRq := ⟨rfl, rfl⟩
    exact ⟨modifySched_field Sched.load (fun e => (kept e).1) s curr x,
      modifySched_field Sched.onRq (fun e => (kept e).2) s curr x⟩

theorem modifySched_comm (ne : t ≠ x) (s : Scheduler) (f g : Sched → Sched) :
    (s.modifySched t f).modifySched x g = (s.modifySched x g).modifySched t f := by
  simp only [Scheduler.modifySched, Scheduler.modify]
  rw [update_of_ne ne, update_of_ne ne.symm, update_comm ne]

theorem modifySched_modifySched (s : Scheduler) (t : Nat) (f g : Sched → Sched) :
    (s.modifySched t f).modifySched t g = s.modifySched t fun e => g (f e) := by
  simp [Scheduler.modifySched, Scheduler.modify]

theorem updateMinVruntime_modifySched (kept : ∀ e, (f e).vruntime = e.vruntime) :
    (s.modifySched t f).updateMinVruntime = s.updateMinVruntime.modifySched t f := by
  simp only [Scheduler.updateMinVruntime, modifySched_field Sched.vruntime kept]
  rfl

/-- Charging the current task looks at nothing of the others but their virtual time. -/
theorem updateCurr_modifySched (other : s.current ≠ some t) (kept : ∀ e, (f e).vruntime = e.vruntime) :
    (s.modifySched t f).updateCurr = s.updateCurr.modifySched t f := by
  have same : (s.modifySched t f).current = s.current := rfl
  unfold Scheduler.updateCurr
  rw [same]
  cases current : s.current with
  | none => rfl
  | some curr =>
    have ne : curr ≠ t := fun same => other (same ▸ current)
    simp only [sched_modifySched, if_neg ne]
    show (if (s.clock - (s.sched curr).execStart).toInt64 ≤ 0 then _ else _) = _
    split
    · rfl
    · rw [modifySched_comm ne.symm, updateMinVruntime_modifySched kept]
      rfl

/-! ## Forking -/

/-- The state in which `sched_fork` places the new task. -/
def forked (s : Scheduler) (t : Nat) : Scheduler :=
  s.updateCurr.modifySched t fun e => { e with
    load := loadWeight (s.tasks t).nice
    vruntime :=
      match s.current with
      | none => e.vruntime
      | some curr => (s.updateCurr.sched curr).vruntime }

theorem schedFork_eq (other : s.current ≠ some t) :
    s.schedFork t = ((forked s t).placeEntity t true).setState t .runnable := by
  have weighed := updateCurr_modifySched (f := fun e => { e with load := loadWeight (s.tasks t).nice })
    other fun _ => rfl
  unfold Scheduler.schedFork forked
  simp only [weighed]
  show ((match s.current with | none => _ | some curr => _ : Scheduler).placeEntity t true).setState
    t .runnable = _
  cases current : s.current with
  | none =>
    have idle : s.updateCurr = s := by
      simp [Scheduler.updateCurr, current]
    rw [idle]
  | some curr =>
    have ne : curr ≠ t := fun same => other (same ▸ current)
    simp only [sched_modifySched, if_neg ne, modifySched_modifySched]

/-! ## Entering and leaving the tree -/

/-- The state after `__enqueue_entity`, with the new tree and its first node. -/
def entered (s : Scheduler) (t : Nat) (tree : RbTree) (leftMost : Option Nat) : Scheduler :=
  Scheduler.modifySched { s with
    rbTree := tree
    leftMost := leftMost
    nrRunning := s.nrRunning + 1
    history := t :: s.history } t fun e => { e with onRq := true }

theorem sched_entered (s : Scheduler) (t : Nat) (tree : RbTree) (leftMost : Option Nat) (x : Nat) :
    (entered s t tree leftMost).sched x =
      if x = t then { s.sched t with onRq := true } else s.sched x := sched_modifySched _ _ _ _

theorem entered_field {α : Type} (g : Sched → α) (kept : ∀ e, g { e with onRq := true } = g e)
    (s : Scheduler) (t : Nat) (tree : RbTree) (leftMost : Option Nat) (x : Nat) :
    g ((entered s t tree leftMost).sched x) = g (s.sched x) := modifySched_field g kept _ t x

/-- The state after `__dequeue_entity`. -/
def vacated (s : Scheduler) (tree : RbTree) (leftMost : Option Nat) : Scheduler :=
  { s with leftMost := leftMost, rbTree := tree, nrRunning := s.nrRunning - 1 }

theorem treeEnqueue_inv (h : s.treeEnqueue t = some u) :
    ∃ tree leftMost, u = entered s t tree leftMost := by
  simp only [Scheduler.treeEnqueue, Option.bind_eq_bind, Option.bind_eq_some_iff] at h
  obtain ⟨⟨link, first⟩, -, tree, -, done⟩ := h
  cases done
  refine ⟨tree, if first then some t else s.leftMost, ?_⟩
  cases first <;> rfl

theorem treeDequeue_inv (h : s.treeDequeue t = some u) :
    ∃ tree leftMost, u = vacated s tree leftMost := by
  simp only [Scheduler.treeDequeue, Option.bind_eq_bind] at h
  split at h
  · simp only [Option.bind_eq_some_iff] at h
    obtain ⟨leftMost, -, tree, -, done⟩ := h
    cases done
    exact ⟨tree, leftMost, rfl⟩
  · simp only [Option.pure_def, Option.bind_some, Option.bind_eq_some_iff] at h
    obtain ⟨tree, -, done⟩ := h
    cases done
    exact ⟨tree, s.leftMost, rfl⟩

/-- The state in which `enqueue_entity` comes to the tree. -/
def placed (s : Scheduler) (t : Nat) (wakeup : Bool) : Scheduler :=
  let s := s.updateCurr
  let s := { s with load := addLoad (s.sched t).load s.load }
  if wakeup then s.placeEntity t false else s

theorem placed_current (s : Scheduler) (t : Nat) (wakeup : Bool) :
    (placed s t wakeup).current = s.current := by
  cases wakeup with
  | false => exact updateCurr_current s
  | true => exact updateCurr_current s

/-- A task with `on_rq` set stays where it is, the current task is placed only, and any other task
    enters the tree. -/
theorem enqueueTask_eq (s : Scheduler) (t : Nat) (wakeup : Bool) : s.enqueueTask t wakeup =
    if (s.sched t).onRq then some s
    else if s.current ≠ some t then (placed s t wakeup).treeEnqueue t
    else some (placed s t wakeup) := by
  rw [← placed_current s t wakeup]
  rfl

/-- The state in which `put_prev_task` leaves the tree to `pick_next_entity`. -/
def charged (s : Scheduler) (curr : Nat) : Scheduler :=
  if (s.sched curr).onRq then s.updateCurr else s

/-- What `pick_next_task` does to the entities: the previous one is charged, and the execution
    time of the next one starts now. -/
structure Picked (s : Scheduler) (curr next : Nat) (u : Scheduler) : Prop where
  load : u.load = s.load
  clock : u.clock = s.clock
  minVruntime : u.minVruntime = (charged s curr).minVruntime
  current : u.current = some next
  vruntime : ∀ t, (u.sched t).vruntime = ((charged s curr).sched t).vruntime
  sumExecTime : ∀ t, (u.sched t).sumExecTime = ((charged s curr).sched t).sumExecTime
  weight : ∀ t, (u.sched t).load = (s.sched t).load
  onRq : ∀ t, (u.sched t).onRq = (s.sched t).onRq
  execStart : (u.sched next).execStart = s.clock

theorem putPrevTask_inv (h : s.putPrevTask curr = some u) :
    u.load = s.load ∧ u.clock = s.clock ∧ u.minVruntime = (charged s curr).minVruntime ∧
      ∀ t, u.sched t = (charged s curr).sched t := by
  simp only [Scheduler.putPrevTask, Option.bind_eq_bind] at h
  unfold charged
  split at h
  · next onRq =>
    rw [Option.bind_eq_some_iff] at h
    obtain ⟨v, entering, done⟩ := h
    cases done
    obtain ⟨tree, leftMost, rfl⟩ := treeEnqueue_inv entering
    rw [if_pos onRq]
    refine ⟨updateCurr_load s, updateCurr_clock s, rfl, fun t => ?_⟩
    show (entered s.updateCurr curr tree leftMost).sched t = _
    rw [sched_entered]
    split
    · -- `on_rq` was set before
      next same =>
      have kept : (s.updateCurr.sched curr).onRq = true := (sched_updateCurr_kept s curr).2.trans onRq
      rw [same, ← kept]
    · rfl
  · next offRq =>
    cases h
    rw [if_neg offRq]
    exact ⟨rfl, rfl, rfl, fun t => rfl⟩

theorem charged_kept (s : Scheduler) (curr t : Nat) :
    ((charged s curr).sched t).load = (s.sched t).load ∧ ((charged s curr).sched t).onRq = (s.sched t).onRq := by
  unfold charged
  split
  · exact sched_updateCurr_kept s t
  · exact ⟨rfl, rfl⟩

theorem pickNextTask_inv (h : s.pickNextTask curr = some (some next, u)) : Picked s curr next u := by
  rw [Scheduler.pickNextTask] at h
  split at h
  · cases h
  · simp only [Option.bind_eq_bind, Option.bind_eq_some_iff] at h
    obtain ⟨v, parked, _, -, w, leaving, done⟩ := h
    cases done
    obtain ⟨load, clock, minVruntime, scheds⟩ := putPrevTask_inv parked
    obtain ⟨tree, leftMost, rfl⟩ := treeDequeue_inv leaving
    have field {α : Type} (g : Sched → α)
        (kept : ∀ e start, g { e with execStart := start, prevSumExecTime := e.sumExecTime } = g e)
        (t : Nat) :
        g ((Scheduler.modifySched { vacated v tree leftMost with current := some next } next
          fun e => { e with execStart := v.clock, prevSumExecTime := e.sumExecTime }).sched t) =
          g ((charged s curr).sched t) := by
      rw [modifySched_field g (fun e => kept e v.clock), ← scheds]
      rfl
    exact {
      load := load
      clock := clock
      minVruntime := minVruntime
      current := rfl
      vruntime := field Sched.vruntime fun _ _ => rfl
      sumExecTime := field Sched.sumExecTime fun _ _ => rfl
      weight := fun t => (field Sched.load (fun _ _ => rfl) t).trans (charged_kept s curr t).1
      onRq := fun t => (field Sched.onRq (fun _ _ => rfl) t).trans (charged_kept s curr t).2
      execStart := by
        rw [sched_modifySched, if_pos rfl]
        exact clock }

/-- `__schedule` halts with an empty queue, or leaves `curr` for the task it picked. -/
theorem scheduleFrom_inv (h : s.scheduleFrom curr = some u) : s.nrRunning = 0 ∧ u = s ∨
    ∃ next v, s.pickNextTask curr = some (some next, v) ∧ Alike v u := by
  rw [Scheduler.scheduleFrom] at h
  cases pick : s.pickNextTask curr with
  | none =>
    rw [pick] at h
    cases h
  | some r =>
    rw [pick] at h
    obtain ⟨_ | next, v⟩ := r
    · cases h
      rw [Scheduler.pickNextTask] at pick
      split at pick
      · next empty =>
        cases pick
        exact .inl ⟨empty, rfl⟩
      · simp only [Option.bind_eq_bind, Option.bind_eq_some_iff] at pick
        obtain ⟨_, -, _, -, _, -, done⟩ := pick
        cases done
    · right
      refine ⟨next, v, rfl, ?_⟩
      simp only [] at h
      split at h
      · cases h
        exact .refl _
      · cases h
        exact .switchTo (pickNextTask_inv pick).current

/-! ## Ticks -/

/-- The clock goes on. -/
def later (s : Scheduler) (d : UInt64) : Scheduler := { s with clock := s.clock + d }

theorem exec_tick (current : s.current = some curr) (d : UInt64) :
    s.exec (.tick d) = some ((later s d).taskTick curr) := by
  show (match s.current with
    | none => some (later s d)
    | some curr => some ((later s d).taskTick curr)) = _
  rw [current]

theorem doTimer_eq (s : Scheduler) (curr : Nat) : s.doTimer curr =
    if (((later s tickunit).taskTick curr).tasks curr).flag = needResched then
      ((later s tickunit).taskTick curr).schedule curr
    else some ((later s tickunit).taskTick curr) := rfl

/-- `task_tick` charges the current task, and may leave a mark for `do_timer`. -/
theorem taskTick_alike (s : Scheduler) (t : Nat) : Alike s.updateCurr (s.taskTick t) := by
  unfold Scheduler.taskTick
  simp only []
  split
  · exact .setFlag _ t _
  · exact .refl _

end Illinix.Verified.Cfs
