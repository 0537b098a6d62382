import Illinix.Lib.SignedDifference
import Illinix.Verified.Cfs.RunQueue

/-! # The credit of a sleeper

`place_entity` puts a task that wakes up at most half a period below `min_vruntime`, and
`update_min_vruntime` never takes `min_vruntime` above the current task and the first one of the
queue.  So no runnable task is ever further below.  The functions compare virtual times by
their signed difference, which is the comparison of the numbers as long as these are small. -/

namespace Illinix.Verified.Cfs

open Kernel Lib List
open scoped List

variable {s u : Scheduler} {q : List Nat} {t curr : Nat} {a b : UInt64}

/-! ## Comparisons -/

theorem maxVruntime_toNat (ha : a.toNat < 2 ^ 62) (hb : b.toNat < 2 ^ 62) :
    (maxVruntime a b).toNat = max a.toNat b.toNat := by
  have order := sub_toInt64_pos_iff (a := a) (b := b) (by omega) (by omega)
  simp only [maxVruntime, order]
  split <;> omega

theorem minVruntime_toNat (ha : a.toNat < 2 ^ 62) (hb : b.toNat < 2 ^ 62) :
    (minVruntime a b).toNat = min a.toNat b.toNat := by
  have order := sub_toInt64_neg_iff (a := a) (b := b) (by omega) (by omega)
  simp only [minVruntime, order]
  split <;> omega

theorem le_maxVruntime (ha : a.toNat < 2 ^ 62) (small : (maxVruntime a b).toNat < 2 ^ 62) :
    a.toNat ≤ (maxVruntime a b).toNat := by
  rw [maxVruntime] at small ⊢
  split at small
  · next less =>
    have order := sub_toInt64_pos_iff (a := a) (b := b) (by omega) (by omega)
    rw [if_pos less]
    exact Nat.le_of_lt (order.mp less)
  · next notLess => rw [if_neg notLess]

/-- Where a sleeper wakes up.  The difference wraps when `min_vruntime` is below half a period; it is
    then too far above to count as greater. -/
theorem wakeVruntime_toNat (ha : a.toNat < 2 ^ 62) (hb : b.toNat < 2 ^ 62) :
    (maxVruntime a (b - (targetLatency >>> 1))).toNat = max a.toNat (b.toNat - 2500000) := by
  have half : (targetLatency >>> 1).toNat = 2500000 := rfl
  have place := UInt64.toNat_sub b (targetLatency >>> 1)
  have ahead := UInt64.toNat_sub (b - (targetLatency >>> 1)) a
  have order := toInt64_pos_iff (b - (targetLatency >>> 1) - a)
  simp only [maxVruntime, order]
  split <;> omega

/-! ## The invariant -/

/-- The virtual times are below `2 ^ 62`. -/
def Bounded (s : Scheduler) : Prop := ∀ t, (s.sched t).vruntime.toNat < 2 ^ 62

/-- The virtual time of the current task stays below `2 ^ 62` when it is charged. -/
def Fits (s : Scheduler) : Prop :=
  ∀ curr, s.current = some curr → 0 < (elapsed s curr).toInt64 →
    (s.sched curr).vruntime.toNat +
      (calcDeltaVruntime (elapsed s curr) (s.sched curr).load).toNat < 2 ^ 62

/-- The current task has been charged. -/
def Settled (s : Scheduler) : Prop :=
  ∀ curr, s.current = some curr → (elapsed s curr).toInt64 ≤ 0

structure Credit (s : Scheduler) (q : List Nat) : Prop where
  queue : RunQueue s q
  bounded : Bounded s
  least : s.minVruntime.toNat < 2 ^ 62
  credit : ∀ t, t ∈ q ∨ s.current = some t →
    s.minVruntime.toNat ≤ (s.sched t).vruntime.toNat + 2500000
  /-- Before the first task runs, `min_vruntime` stands still. -/
  idle : s.current = none → ∀ t, s.minVruntime.toNat ≤ (s.sched t).vruntime.toNat

theorem Credit.congr (h : Credit s q) (queue : RunQueue u q) (current : u.current = s.current)
    (least : u.minVruntime = s.minVruntime)
    (vruntime : ∀ t, (u.sched t).vruntime = (s.sched t).vruntime) : Credit u q where
  queue := queue
  bounded t := by
    rw [vruntime]
    exact h.bounded t
  least := by
    rw [least]
    exact h.least
  credit t runnable := by
    rw [least, vruntime]
    rw [current] at runnable
    exact h.credit t runnable
  idle none t := by
    rw [least, vruntime]
    exact h.idle (current.symm.trans none) t

theorem Credit.alike (h : Credit s q) (same : Alike s u) : Credit u q :=
  h.congr (h.queue.congr (.of_alike same)) same.current same.minVruntime fun t => by rw [same.sched]

theorem Fits.congr (h : Fits s) (clock : u.clock = s.clock) (current : u.current = s.current)
    (sched : ∀ t, (u.sched t).vruntime = (s.sched t).vruntime ∧
      (u.sched t).execStart = (s.sched t).execStart ∧ (u.sched t).load = (s.sched t).load) :
    Fits u := by
  intro curr running late
  obtain ⟨vruntime, execStart, load⟩ := sched curr
  have same : elapsed u curr = elapsed s curr := by rw [elapsed, clock, execStart, elapsed]
  rw [same] at late ⊢
  rw [vruntime, load]
  exact h curr (current.symm.trans running) late

theorem Fits.alike (h : Fits s) (same : Alike s u) : Fits u :=
  h.congr same.clock same.current fun t => by simp [same.sched]

theorem Settled.fits (h : Settled s) : Fits s :=
  fun curr current late => absurd late (Int64.not_lt.mpr (h curr current))

theorem Settled.updateCurr (h : Settled s) : s.updateCurr = s := by
  obtain ⟨same, -⟩ | ⟨curr, current, late, -⟩ := updateCurr_cases s
  · exact same
  · exact absurd late (Int64.not_lt.mpr (h curr current))

theorem Settled.congr (h : Settled s) (clock : u.clock = s.clock) (current : u.current = s.current)
    (execStart : ∀ t, s.current = some t → (u.sched t).execStart = (s.sched t).execStart) :
    Settled u := by
  intro curr running
  rw [current] at running
  rw [elapsed, clock, execStart curr running]
  exact h curr running

theorem settled_updateCurr (s : Scheduler) : Settled s.updateCurr := by
  obtain ⟨same, settled⟩ | ⟨curr, current, -, charged⟩ := updateCurr_cases s
  · rw [same]
    exact settled
  · intro c running
    rw [updateCurr_current, current] at running
    cases running
    have start : (s.updateCurr.sched curr).execStart = s.clock := by
      rw [charged]
      show ((s.modifySched curr _).sched curr).execStart = _
      rw [sched_modifySched, if_pos rfl]
      rfl
    rw [elapsed, updateCurr_clock, start, UInt64.sub_self]
    decide

/-! ## The functions of the scheduler -/

/-- The task that `update_min_vruntime` compares with, when `curr` is the current one. -/
theorem front_least (h : RunQueue s q) (bounded : Bounded s) (current : s.current = some curr) :
    ∃ v, s.updateMinVruntime.minVruntime = maxVruntime s.minVruntime v ∧ v.toNat < 2 ^ 62 ∧
      ∀ t, t ∈ q ∨ s.current = some t → v.toNat ≤ (s.sched t).vruntime.toNat := by
  have first := h.leftMost
  have self (t : Nat) (running : s.current = some t) : t = curr := by
    rw [current] at running
    exact (Option.some.inj running).symm
  cases q with
  | nil =>
    refine ⟨(s.sched curr).vruntime, ?_, bounded curr, fun t runnable => ?_⟩
    · simp only [Scheduler.updateMinVruntime, current, first, head?_nil]
    · cases runnable with
      | inl queued => cases queued
      | inr running => rw [self t running]
  | cons x q =>
    have value := minVruntime_toNat (bounded curr) (bounded x)
    have upper := bounded curr
    refine ⟨minVruntime (s.sched curr).vruntime (s.sched x).vruntime, ?_, by omega, fun t runnable => ?_⟩
    · simp only [Scheduler.updateMinVruntime, current, first, head?_cons]
    · have above : (s.sched curr).vruntime.toNat ≤ (s.sched t).vruntime.toNat ∨
          (s.sched x).vruntime.toNat ≤ (s.sched t).vruntime.toNat := by
        cases runnable with
        | inr running =>
          rw [self t running]
          exact .inl (Nat.le_refl _)
        | inl queued =>
          right
          cases mem_cons.mp queued with
          | inl same => rw [same]
          | inr behind =>
            exact UInt64.le_iff_toNat_le.mp ((pairwise_cons.mp h.ordered).1 t behind)
      omega

theorem Credit.raise {f : Sched → Sched} (h : Credit s q) (onRq : (f (s.sched t)).onRq = (s.sched t).onRq)
    (outside : (s.sched t).onRq = true → s.current = some t)
    (up : (s.sched t).vruntime.toNat ≤ (f (s.sched t)).vruntime.toNat)
    (small : (f (s.sched t)).vruntime.toNat < 2 ^ 62) : Credit (s.modifySched t f) q := by
  have above (x : Nat) :
      (s.sched x).vruntime.toNat ≤ ((s.modifySched t f).sched x).vruntime.toNat := by
    rw [sched_modifySched]
    split
    · next same =>
      rw [same]
      exact up
    · exact Nat.le_refl _
  exact {
    queue := h.queue.congr (.modifySched onRq outside)
    bounded := fun x => by
      rw [sched_modifySched]
      split
      · exact small
      · exact h.bounded x
    least := h.least
    credit := fun x runnable =>
      Nat.le_trans (h.credit x runnable) (Nat.add_le_add_right (above x) _)
    idle := fun none x => Nat.le_trans (h.idle none x) (above x) }

theorem placeEntity_vruntime (s : Scheduler) (t : Nat) (new : Bool) :
    ((s.placeEntity t new).sched t).vruntime = maxVruntime (s.sched t).vruntime
      (if new then s.minVruntime + s.vtimeslice t else s.minVruntime - (targetLatency >>> 1)) := by
  unfold Scheduler.placeEntity
  rw [sched_modifySched, if_pos rfl]

section

variable (h : Credit s q)

include h

theorem Credit.placeEntity {new : Bool} (outside : (s.sched t).onRq = true → s.current = some t)
    (up : (s.sched t).vruntime.toNat ≤ ((s.placeEntity t new).sched t).vruntime.toNat)
    (small : ((s.placeEntity t new).sched t).vruntime.toNat < 2 ^ 62) :
    Credit (s.placeEntity t new) q := by
  rw [placeEntity_vruntime] at up small
  unfold Scheduler.placeEntity
  exact h.raise rfl outside up small

theorem Credit.updateMinVruntime (current : s.current = some curr) :
    Credit s.updateMinVruntime q ∧ s.minVruntime.toNat ≤ s.updateMinVruntime.minVruntime.toNat := by
  obtain ⟨v, least, small, below⟩ := front_least h.queue h.bounded current
  have value := maxVruntime_toNat h.least small
  rw [← least] at value
  have bound := h.least
  refine ⟨⟨?_, h.bounded, by omega, fun t runnable => ?_, fun none => ?_⟩, by omega⟩
  · exact h.queue.congr ⟨rfl, rfl, rfl, rfl, rfl, fun _ => rfl, fun _ _ _ => rfl⟩
  · have old := h.credit t runnable
    have new := below t runnable
    show _ ≤ (s.sched t).vruntime.toNat + 2500000
    omega
  · exact absurd (current.symm.trans none) nofun

/-- Charging the current task takes `min_vruntime` up, but above no runnable task. -/
theorem Credit.updateCurr (fits : Fits s) :
    Credit s.updateCurr q ∧ s.minVruntime.toNat ≤ s.updateCurr.minVruntime.toNat := by
  obtain ⟨same, -⟩ | ⟨curr, current, late, charged⟩ := updateCurr_cases s
  · rw [same]
    exact ⟨h, Nat.le_refl _⟩
  · have small := fits curr current late
    have sum : (Scheduler.charge s.clock (elapsed s curr) (s.sched curr)).vruntime.toNat =
        (s.sched curr).vruntime.toNat + (calcDeltaVruntime (elapsed s curr) (s.sched curr).load).toNat := by
      show (_ + _ : UInt64).toNat = _
      rw [UInt64.toNat_add]
      omega
    have raised : Credit (s.modifySched curr (Scheduler.charge s.clock (elapsed s curr))) q :=
      h.raise rfl (fun _ => current) (by omega) (by omega)
    have current' : (s.modifySched curr (Scheduler.charge s.clock (elapsed s curr))).current = some curr := current
    rw [charged]
    exact raised.updateMinVruntime current'

theorem Credit.charged (fits : (s.sched curr).onRq = true → Fits s) :
    Credit (Cfs.charged s curr) q ∧ s.minVruntime.toNat ≤ (Cfs.charged s curr).minVruntime.toNat := by
  unfold Cfs.charged
  split
  · next onRq => exact h.updateCurr (fits onRq)
  · exact ⟨h, Nat.le_refl _⟩

theorem Credit.scheduleFrom (current : s.current = some curr)
    (fits : (s.sched curr).onRq = true → Fits s) (done : s.scheduleFrom curr = some u) :
    ∃ q', Credit u q' ∧ s.minVruntime.toNat ≤ u.minVruntime.toNat := by
  obtain ⟨u', q', done', queue, halted | ⟨next, v, pick, alike, perm⟩⟩ := h.queue.scheduleFrom current
  · rw [done] at done'
    cases done'
    obtain ⟨rfl, rfl⟩ := halted
    exact ⟨q', h, Nat.le_refl _⟩
  · rw [done] at done'
    cases done'
    obtain ⟨charged, up⟩ := h.charged fits
    have picked := pickNextTask_inv pick
    have least : u.minVruntime = (Cfs.charged s curr).minVruntime :=
      alike.minVruntime.trans picked.minVruntime
    have vruntime (t : Nat) : (u.sched t).vruntime = ((Cfs.charged s curr).sched t).vruntime := by
      rw [alike.sched, picked.vruntime]
    have running : u.current = some next := alike.current.trans picked.current
    have stays : (Cfs.charged s curr).current = some curr := by
      unfold Cfs.charged
      split
      · rw [updateCurr_current, current]
      · exact current
    refine ⟨q', ⟨queue, fun t => ?_, ?_, fun t runnable => ?_, fun none => ?_⟩, ?_⟩
    · rw [vruntime]
      exact charged.bounded t
    · rw [least]
      exact charged.least
    · -- whoever is runnable now was so before
      rw [least, vruntime]
      apply charged.credit
      have inside : t ∈ next :: q' := by
        cases runnable with
        | inl queued => exact mem_cons_of_mem _ queued
        | inr self =>
          rw [running] at self
          cases self
          exact mem_cons_self
      rw [perm.mem_iff, candidates] at inside
      split at inside
      · cases mem_cons.mp inside with
        | inl self =>
          rw [self]
          exact .inr stays
        | inr queued => exact .inl queued
      · exact .inl inside
    · rw [running] at none
      cases none
    · rw [least]
      exact up

/-- A task that is about to enter the tree: it has its credit already, or gets it. -/
theorem Credit.placed {wakeup : Bool} (fits : Fits s)
    (outside : (s.sched t).onRq = false) (new : wakeup = false → Settled s ∧
      s.minVruntime.toNat ≤ (s.sched t).vruntime.toNat + 2500000) :
    Credit (Cfs.placed s t wakeup) q ∧
      s.minVruntime.toNat ≤ (Cfs.placed s t wakeup).minVruntime.toNat ∧
      (Cfs.placed s t wakeup).minVruntime.toNat ≤
        ((Cfs.placed s t wakeup).sched t).vruntime.toNat + 2500000 := by
  obtain ⟨charged, up⟩ := h.updateCurr fits
  let w : Scheduler := { s.updateCurr with
    load := addLoad (s.updateCurr.sched t).load s.updateCurr.load }
  have loaded : Credit w q := charged.congr
    (charged.queue.congr ⟨rfl, rfl, rfl, rfl, rfl, fun _ => rfl, fun _ _ _ => rfl⟩) rfl rfl
    fun _ => rfl
  cases wakeup with
  | false =>
    obtain ⟨settled, credit⟩ := new rfl
    refine ⟨loaded, up, ?_⟩
    show s.updateCurr.minVruntime.toNat ≤ (s.updateCurr.sched t).vruntime.toNat + 2500000
    rw [settled.updateCurr]
    exact credit
  | true =>
    have value := wakeVruntime_toNat (loaded.bounded t) loaded.least
    have place : ((w.placeEntity t false).sched t).vruntime =
        maxVruntime (w.sched t).vruntime (w.minVruntime - (targetLatency >>> 1)) :=
      placeEntity_vruntime w t false
    rw [← place] at value
    have off : (w.sched t).onRq = false := (sched_updateCurr_kept s t).2.trans outside
    have low := loaded.bounded t
    have high := loaded.least
    refine ⟨loaded.placeEntity (fun queued => nomatch off.symm.trans queued) ?_ ?_, up, ?_⟩
    · omega
    · omega
    · show w.minVruntime.toNat ≤ ((w.placeEntity t false).sched t).vruntime.toNat + 2500000
      omega

theorem Credit.enqueueTask {wakeup : Bool}
    (fits : (s.sched t).onRq = false → Fits s) (new : wakeup = false → Settled s ∧
      s.minVruntime.toNat ≤ (s.sched t).vruntime.toNat + 2500000)
    (done : s.enqueueTask t wakeup = some u) :
    ∃ q', Credit u q' ∧ s.minVruntime.toNat ≤ u.minVruntime.toNat := by
  obtain ⟨u', q', done', queue, current, perm⟩ := h.queue.enqueueTask t wakeup
  rw [done] at done'
  cases done'
  rw [enqueueTask_eq] at done
  by_cases onRq : (s.sched t).onRq = true
  · rw [if_pos onRq] at done
    cases done
    exact ⟨q, h, Nat.le_refl _⟩
  · rw [if_neg onRq] at done
    rw [Bool.not_eq_true] at onRq
    obtain ⟨placed, up, credit⟩ := h.placed (fits onRq) onRq new
    split at done
    · next other =>
      rw [if_neg (by simp [onRq, other])] at perm
      obtain ⟨tree, left, rfl⟩ := treeEnqueue_inv done
      have vruntime (x : Nat) : ((entered (Cfs.placed s t wakeup) t tree left).sched x).vruntime =
          ((Cfs.placed s t wakeup).sched x).vruntime :=
        entered_field Sched.vruntime (fun _ => rfl) _ t tree left x
      refine ⟨q', ⟨queue, fun x => ?_, placed.least, fun x runnable => ?_, fun none x => ?_⟩, up⟩
      · rw [vruntime]
        exact placed.bounded x
      · rw [vruntime]
        cases runnable with
        | inr running => exact placed.credit x (.inr running)
        | inl queued =>
          cases mem_cons.mp (perm.mem_iff.mp queued) with
          | inl self =>
            rw [self]
            exact credit
          | inr old => exact placed.credit x (.inl old)
      · rw [vruntime]
        exact placed.idle none x
    · cases done
      exact ⟨q, placed, up⟩

/-- A new task starts at the virtual time of its parent. -/
theorem Credit.forked (fits : Fits s) (off : (s.sched t).onRq = false)
    (other : s.current ≠ some t) : Credit (Cfs.forked s t) q ∧
      s.minVruntime.toNat ≤ (Cfs.forked s t).minVruntime.toNat ∧
      (Cfs.forked s t).minVruntime.toNat ≤ ((Cfs.forked s t).sched t).vruntime.toNat + 2500000 := by
  obtain ⟨charged, up⟩ := h.updateCurr fits
  have outside : (s.updateCurr.sched t).onRq = true → s.updateCurr.current = some t :=
    fun queued => nomatch (off.symm.trans (sched_updateCurr_kept s t).2.symm).trans queued
  have queue : RunQueue (Cfs.forked s t) q := charged.queue.congr (.modifySched rfl outside)
  have others (x : Nat) (ne : x ≠ t) : (Cfs.forked s t).sched x = s.updateCurr.sched x := by
    rw [Cfs.forked, sched_modifySched, if_neg ne]
  have least : (Cfs.forked s t).minVruntime = s.updateCurr.minVruntime := rfl
  cases current : s.current with
  | none =>
    have same (x : Nat) : ((Cfs.forked s t).sched x).vruntime = (s.updateCurr.sched x).vruntime := by
      rw [Cfs.forked, current]
      exact modifySched_field Sched.vruntime (fun _ => by rfl) _ t x
    have idle : s.updateCurr.current = none := by rw [updateCurr_current, current]
    refine ⟨charged.congr queue rfl rfl same, up, ?_⟩
    rw [same, least]
    exact Nat.le_add_right_of_le (charged.idle idle t)
  | some curr =>
    have running : s.updateCurr.current = some curr := by rw [updateCurr_current, current]
    have start : ((Cfs.forked s t).sched t).vruntime = (s.updateCurr.sched curr).vruntime := by
      rw [Cfs.forked, sched_modifySched, if_pos rfl, current]
    refine ⟨⟨queue, fun x => ?_, charged.least, fun x runnable => ?_, fun none => ?_⟩, up, ?_⟩
    · by_cases self : x = t
      · rw [self, start]
        exact charged.bounded curr
      · rw [others x self]
        exact charged.bounded x
    · have ne : x ≠ t := by
        rintro rfl
        cases runnable with
        | inl queued => exact nomatch off.symm.trans ((h.queue.members x).mp queued).1
        | inr self => exact other (updateCurr_current s ▸ self)
      rw [others x ne]
      exact charged.credit x runnable
    · exact absurd (running.symm.trans none) nofun
    · rw [start]
      exact charged.credit curr (.inr running)

end

theorem activateTask_vruntime (off : (s.sched t).onRq = false) (other : s.current ≠ some t)
    (done : s.activateTask t = some u) : (u.sched t).vruntime = (s.sched t).vruntime := by
  rw [Scheduler.activateTask, enqueueTask_eq, if_neg (by simp [off]), if_pos other] at done
  obtain ⟨tree, left, rfl⟩ := treeEnqueue_inv done
  rw [entered_field Sched.vruntime fun _ => rfl]
  show (s.updateCurr.sched t).vruntime = _
  rw [sched_updateCurr_of_ne other]

theorem Credit.fork (h : Credit s q) (fits : Fits s) (off : (s.sched t).onRq = false)
    (other : s.current ≠ some t) (done : (s.schedFork t).activateTask t = some u)
    (bounded : Bounded u) : ∃ q', Credit u q' ∧ s.minVruntime.toNat ≤ u.minVruntime.toNat := by
  obtain ⟨forked, up, credit⟩ := h.forked fits off other
  have sameQueue := SameQueue.schedFork off other
  have off' := (sameQueue.onRq t).trans off
  have other' : (s.schedFork t).current ≠ some t := by
    rw [sameQueue.current]
    exact other
  have vruntime := activateTask_vruntime off' other' done
  rw [schedFork_eq other] at done off' vruntime
  rw [sched_setState] at off' vruntime
  have small := bounded t
  rw [vruntime] at small
  have raised : ((Cfs.forked s t).sched t).vruntime.toNat ≤
      (((Cfs.forked s t).placeEntity t true).sched t).vruntime.toNat := by
    rw [placeEntity_vruntime] at small ⊢
    exact le_maxVruntime (forked.bounded t) small
  have outside : ((Cfs.forked s t).sched t).onRq = true → (Cfs.forked s t).current = some t := by
    rw [placeEntity_field Sched.onRq fun _ _ => rfl] at off'
    exact fun queued => nomatch off'.symm.trans queued
  have placed := forked.placeEntity outside raised small
  have settled : Settled ((Cfs.forked s t).placeEntity t true) := by
    refine (settled_updateCurr s).congr rfl rfl fun x running => ?_
    have ne : x ≠ t := by
      rintro rfl
      exact other (updateCurr_current s ▸ running)
    rw [placeEntity_field Sched.execStart fun _ _ => rfl, Cfs.forked, sched_modifySched, if_neg ne]
  have ready := Alike.setState ((Cfs.forked s t).placeEntity t true) t .runnable
  have settled' : Settled (((Cfs.forked s t).placeEntity t true).setState t .runnable) :=
    settled.congr rfl rfl fun x _ => by rw [ready.sched]
  obtain ⟨q', kept, up'⟩ := (placed.alike ready).enqueueTask (fun _ => settled'.fits) (fun _ => ⟨settled', by
      rw [ready.sched]
      show (Cfs.forked s t).minVruntime.toNat ≤ _
      omega⟩) done
  exact ⟨q', kept, Nat.le_trans up up'⟩

/-! ## Runs -/

/-- The state in which an event charges the current task. -/
def charging (s : Scheduler) : SchedEvent → Scheduler
  | .tick delta => later s delta
  | .timer => later s tickunit
  | _ => s

/-- Whether an event charges the current task. -/
def Charges (s : Scheduler) : SchedEvent → Prop
  | .fork _ | .tick _ | .timer => True
  | .wakeup t => (s.sched t).onRq = false
  | .preempt => ∃ curr, s.current = some curr ∧ (s.sched curr).onRq = true
  | .exit parent => parent = s.front ∧ ((s.sched parent).onRq = false ∨ s.current = some parent)
  | .sleep | .front _ => False

/-- The virtual times stay below `2 ^ 62`, the charged one before it is stored. -/
def BoundedStep (s : Scheduler) (e : SchedEvent) (u : Scheduler) : Prop :=
  Step s e u ∧ (Charges s e → Fits (charging s e)) ∧ Bounded u

theorem Credit.later (h : Credit s q) (d : UInt64) : Credit (later s d) q :=
  h.congr (h.queue.congr ⟨rfl, rfl, rfl, rfl, rfl, fun _ => rfl, fun _ _ _ => rfl⟩) rfl rfl fun _ => rfl

theorem Credit.tick (h : Credit s q) {d : UInt64} (fits : Fits (Cfs.later s d)) (t : Nat) :
    Credit ((Cfs.later s d).taskTick t) q ∧ Settled ((Cfs.later s d).taskTick t) ∧
      s.minVruntime.toNat ≤ ((Cfs.later s d).taskTick t).minVruntime.toNat := by
  have alike := taskTick_alike (Cfs.later s d) t
  obtain ⟨charged, up⟩ := (h.later d).updateCurr fits
  refine ⟨charged.alike alike, ?_, ?_⟩
  · exact (settled_updateCurr _).congr alike.clock alike.current fun x _ => by rw [alike.sched]
  · rw [alike.minVruntime]
    exact up

theorem Credit.schedule (h : Credit s q) (current : s.current = some curr)
    (fits : (s.sched curr).onRq = true → Fits s) (done : s.schedule curr = some u) :
    ∃ q', Credit u q' ∧ s.minVruntime.toNat ≤ u.minVruntime.toNat := by
  have cleared := Alike.setFlag s curr 0
  refine Credit.scheduleFrom (s := s.setFlag curr 0) (h.alike cleared) current (fun onRq => ?_) done
  rw [cleared.sched] at onRq
  exact (fits onRq).alike cleared

/-- The current task goes off the queue. -/
def dropped (s : Scheduler) (curr : Nat) (state : ProState) : Scheduler :=
  (s.modifySched curr fun e => { e with onRq := false }).setState curr state

theorem sched_dropped (s : Scheduler) (curr : Nat) (state : ProState) (x : Nat) :
    (dropped s curr state).sched x = if x = curr then { s.sched curr with onRq := false } else s.sched x := by
  rw [dropped, sched_setState, sched_modifySched]

theorem Credit.dropped (h : Credit s q) (current : s.current = some curr) (state : ProState) :
    Credit (dropped s curr state) q := by
  have off : Credit (s.modifySched curr fun e => { e with onRq := false }) q :=
    h.congr (h.queue.drop current) rfl rfl fun x =>
      modifySched_field Sched.vruntime (fun _ => by rfl) s curr x
  exact off.alike (.setState _ curr state)

theorem enqueueTask_onRq {wakeup : Bool} (current : s.current = some curr)
    (done : s.enqueueTask t wakeup = some u) : (u.sched curr).onRq = (s.sched curr).onRq := by
  rw [enqueueTask_eq] at done
  split at done
  · cases done
    rfl
  · next off =>
    have placed := SameQueue.placed (Bool.eq_false_iff.mpr off) wakeup
    split at done
    · next other =>
      obtain ⟨tree, left, rfl⟩ := treeEnqueue_inv done
      have ne : curr ≠ t := fun same => other (same ▸ current)
      rw [sched_entered, if_neg ne]
      exact placed.onRq curr
    · cases done
      exact placed.onRq curr

theorem Credit.schedWakeup (h : Credit s q) (current : s.current = some curr)
    (off : (s.sched curr).onRq = false)
    (fits : t = s.front → (s.sched t).onRq = false → Fits s)
    (done : s.schedWakeup curr t = some u) :
    ∃ q', Credit u q' ∧ s.minVruntime.toNat ≤ u.minVruntime.toNat := by
  have flagged := Alike.setFlag s t wakeupFlag
  simp only [Scheduler.schedWakeup, Option.bind_eq_bind] at done
  split at done
  · next front =>
    have ready := flagged.trans (.setState _ t .runnable)
    rw [Option.bind_eq_some_iff] at done
    obtain ⟨w, enqueued, switched⟩ := done
    have running : ((s.setFlag t wakeupFlag).setState t .runnable).current = some curr := current
    obtain ⟨v, _, done', -, stays, -⟩ := (h.alike ready).queue.enqueueTask t true
    rw [enqueued] at done'
    cases done'
    obtain ⟨q', kept, up⟩ := (h.alike ready).enqueueTask (fun out => by
      rw [ready.sched] at out
      exact (fits front out).alike ready) (fun (new : true = false) => nomatch new) enqueued
    obtain ⟨q'', kept', up'⟩ := kept.scheduleFrom (stays.trans running) (fun queued => by
      rw [enqueueTask_onRq running enqueued, ready.sched, off] at queued
      cases queued) switched
    exact ⟨q'', kept', Nat.le_trans up up'⟩
  · refine Credit.scheduleFrom (s := s.setFlag t wakeupFlag) (h.alike flagged) current (fun queued => ?_) done
    rw [flagged.sched, off] at queued
    cases queued

/-- Each event keeps the credit, and does not take `min_vruntime` down. -/
theorem BoundedStep.credit {e : SchedEvent} (step : BoundedStep s e u) (h : Credit s q) :
    ∃ q', Credit u q' ∧ s.minVruntime.toNat ≤ u.minVruntime.toNat := by
  obtain ⟨⟨enabled, done⟩, fits, bounded⟩ := step
  cases e with
  | fork t => exact h.fork (fits trivial) enabled.1 enabled.2 done bounded
  | wakeup t =>
    have ready := Alike.setState s t .runnable
    refine Credit.enqueueTask (s := s.setState t .runnable) (h.alike ready) (fun off => ?_)
      (fun (new : true = false) => nomatch new) done
    rw [ready.sched] at off
    exact (fits off).alike ready
  | tick delta =>
    cases current : s.current with
    | none =>
      have idle : s.exec (.tick delta) = some (later s delta) := by
        simp only [Scheduler.exec, current, later]
      rw [idle] at done
      cases done
      exact ⟨q, h.later delta, Nat.le_refl _⟩
    | some curr =>
      rw [exec_tick current] at done
      cases done
      obtain ⟨kept, -, up⟩ := h.tick (fits trivial) curr
      exact ⟨q, kept, up⟩
  | front t =>
    cases done
    exact ⟨q, h.alike (.front s t), Nat.le_refl _⟩
  | timer =>
    obtain ⟨curr, current⟩ := Option.ne_none_iff_exists'.mp enabled
    obtain ⟨kept, settled, up⟩ := h.tick (fits trivial) curr
    simp only [Scheduler.exec, current, Option.bind_some, doTimer_eq] at done
    split at done
    · have running := (SameQueue.tick s tickunit curr).current.trans current
      obtain ⟨q', kept', up'⟩ := kept.schedule running (fun _ => settled.fits) done
      exact ⟨q', kept', Nat.le_trans up up'⟩
    · cases done
      exact ⟨q, kept, up⟩
  | preempt =>
    obtain ⟨curr, current⟩ := Option.ne_none_iff_exists'.mp enabled
    simp only [Scheduler.exec, current, Option.bind_some] at done
    exact h.schedule current (fun onRq => fits ⟨curr, current, onRq⟩) done
  | sleep =>
    obtain ⟨curr, current⟩ := Option.ne_none_iff_exists'.mp enabled
    simp only [Scheduler.exec, current, Option.bind_some] at done
    refine Credit.scheduleFrom (s := dropped s curr .sleeping) (h.dropped current .sleeping) current
      (fun queued => ?_) done
    rw [sched_dropped, if_pos rfl] at queued
    cases queued
  | exit parent =>
    obtain ⟨curr, current⟩ := Option.ne_none_iff_exists'.mp enabled
    simp only [Scheduler.exec, current, Option.bind_some] at done
    refine Credit.schedWakeup (s := dropped s curr .exited) (h.dropped current .exited) current ?_
      (fun front out => ?_) done
    · rw [sched_dropped, if_pos rfl]
    · have charges : Charges s (.exit parent) := by
        refine ⟨front, ?_⟩
        rw [sched_dropped] at out
        split at out
        · next self => exact .inr (self ▸ current)
        · exact .inl out
      refine (fits charges).congr rfl rfl fun x => ?_
      rw [sched_dropped]
      split
      · next same =>
        rw [same]
        exact ⟨rfl, rfl, rfl⟩
      · exact ⟨rfl, rfl, rfl⟩

theorem Credit.run {events : List SchedEvent} (h : Credit s q) (run : Run BoundedStep s events u) :
    ∃ q', Credit u q' := by
  refine run.invariant (fun s e t (inv : ∃ q, Credit s q) step => ?_) ⟨q, h⟩
  obtain ⟨q, credit⟩ := inv
  obtain ⟨q', kept, -⟩ := step.credit credit
  exact ⟨q', kept⟩

theorem Credit.run_le {events : List SchedEvent} (h : Credit s q)
    (run : Run BoundedStep s events u) : s.minVruntime.toNat ≤ u.minVruntime.toNat := by
  refine @Run.relates _ _ _ (fun s => ∃ q, Credit s q) (fun s u => s.minVruntime.toNat ≤ u.minVruntime.toNat)
    (fun s e t inv step => ?_) (fun s => Nat.le_refl _) (fun s t u => Nat.le_trans) (fun s e t inv step => ?_) _ _ _
    run ⟨q, h⟩
  · obtain ⟨q, credit⟩ := inv
    obtain ⟨q', kept, -⟩ := step.credit credit
    exact ⟨q', kept⟩
  · obtain ⟨q, credit⟩ := inv
    obtain ⟨q', -, up⟩ := step.credit credit
    exact up

/-- A run of a scheduler whose virtual times stay small, up to a state `u` and further up to `v`: the
    minimum has not gone down in between, and no runnable task is more than half a period below. -/
theorem sleeper_credit_bounded {v : Scheduler} {first rest : List SchedEvent} (queue : RunQueue s q)
    (bounded : Bounded s) (above : ∀ t, s.minVruntime ≤ (s.sched t).vruntime)
    (run : Run BoundedStep s first u) (further : Run BoundedStep u rest v) :
    u.minVruntime ≤ v.minVruntime ∧ ∃ q', RunQueue v q' ∧ ∀ t, t ∈ q' ∨ v.current = some t →
      ((v.sched t).vruntime.toNat : Int) ≥ v.minVruntime.toNat - (targetLatency.toNat / 2 : Nat) := by
  have above' (t : Nat) : s.minVruntime.toNat ≤ (s.sched t).vruntime.toNat :=
    UInt64.le_iff_toNat_le.mp (above t)
  have start : Credit s q := {
    queue := queue
    bounded := bounded
    least := Nat.lt_of_le_of_lt (above' 0) (bounded 0)
    credit := fun t _ => Nat.le_add_right_of_le (above' t)
    idle := fun _ t => above' t }
  obtain ⟨q1, there⟩ := start.run run
  obtain ⟨q2, last⟩ := there.run further
  refine ⟨UInt64.le_iff_toNat_le.mpr (there.run_le further), q2, last.queue, fun t runnable => ?_⟩
  have credit := last.credit t runnable
  have half : targetLatency.toNat / 2 = 2500000 := rfl
  omega

theorem wakeup_vruntime {x : Nat} (ne : x ≠ t) (other : s.current ≠ some x)
    (done : s.exec (.wakeup t) = some u) : (u.sched x).vruntime = (s.sched x).vruntime := by
  have ready := Alike.setState s t .runnable
  have placed : ((placed (s.setState t .runnable) t true).sched x).vruntime = (s.sched x).vruntime := by
    rw [Cfs.placed, if_pos rfl, Scheduler.placeEntity, sched_modifySched, if_neg ne]
    show ((s.setState t .runnable).updateCurr.sched x).vruntime = _
    rw [sched_updateCurr_of_ne (by rw [ready.current]; exact other), ready.sched]
  rw [Scheduler.exec, enqueueTask_eq] at done
  split at done
  · cases done
    rw [ready.sched]
  · split at done
    · obtain ⟨tree, left, rfl⟩ := treeEnqueue_inv done
      rw [entered_field Sched.vruntime fun _ => rfl]
      exact placed
    · cases done
      exact placed

/-- A task that slept for 7 ms wakes up exactly half a period below the minimum. -/
theorem sleeper_credit_bounded_tight : ∃ u,
    Run BoundedStep oneTask [.tick 7000000, .wakeup 1] u ∧ u.minVruntime = 7000000 ∧
    (u.sched 1).vruntime = 4500000 ∧ oneTask.minVruntime ≤ u.minVruntime ∧
    ∃ q, RunQueue u q ∧ ∀ t, t ∈ q ∨ u.current = some t →
      ((u.sched t).vruntime.toNat : Int) ≥ u.minVruntime.toNat - (targetLatency.toNat / 2 : Nat) := by
  have bounded : Bounded oneTask := fun t => by
    show (0 : UInt64).toNat < _
    decide
  let w := (later oneTask 7000000).taskTick 0
  have others (t : Nat) (ne : t ≠ 0) : (w.sched t).vruntime = 0 := by
    rw [(taskTick_alike (later oneTask 7000000) 0).sched, sched_updateCurr_of_ne]
    · rfl
    · exact fun same => ne (Option.some.inj same).symm
  have ticked : BoundedStep oneTask (.tick 7000000) w := by
    refine ⟨⟨trivial, exec_tick rfl _⟩, fun _ curr current _ => ?_, fun t => ?_⟩
    · cases current
      decide +kernel
    · by_cases self : t = 0
      · rw [self]
        decide +kernel
      · rw [others t self]
        decide
  have found : (w.exec (.wakeup 1)).any (fun u => u.minVruntime = 7000000 ∧
      (u.sched 1).vruntime = 4500000 ∧ (u.sched 0).vruntime = 7000000) = true := by
    decide +kernel
  obtain ⟨u, done, values⟩ := (Option.any_eq_true _ _).mp found
  obtain ⟨least, woken, running⟩ := of_decide_eq_true values
  have wakes : BoundedStep w (.wakeup 1) u := by
    refine ⟨⟨trivial, done⟩, fun _ => ?_, fun t => ?_⟩
    · have settled : Settled w := fun curr current => by
        cases current
        decide +kernel
      exact settled.fits
    · by_cases self : t = 1
      · rw [self, woken]
        decide
      · by_cases zero : t = 0
        · rw [zero, running]
          decide
        · rw [wakeup_vruntime self (fun same => zero (Option.some.inj same).symm) done, others t zero]
          decide
  have run : Run BoundedStep oneTask [.tick 7000000, .wakeup 1] u :=
    .cons ticked (.cons wakes (.nil u))
  exact ⟨u, run, least, woken, sleeper_credit_bounded oneTask_booted.runQueue bounded
    (fun t => UInt64.le_refl _) (.nil oneTask) run⟩

end Illinix.Verified.Cfs
