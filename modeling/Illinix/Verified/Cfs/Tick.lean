import Mathlib.Tactic.Linarith
import Illinix.Verified.Cfs.Slices

/-! # What a tick charges, and when it preempts

`calc_delta_vruntime` multiplies the time that has passed by a fixed rate for each nice value and
drops the fraction.  The rate grows with the nice value, and below 2^57 nanoseconds nothing
overflows.

`check_preempt_tick` compares unsigned differences.  A task that has not yet reached
`rq->min_vruntime` is taken for one that is far ahead of it. -/

namespace Illinix.Verified.Cfs

open Kernel

/-! ## Virtual time -/

/-- The product of `NICE_0_LOAD` and the reciprocal of a weight: the rate at which virtual time
    passes, in units of 2^-32. -/
def exactRate (i : Fin 40) : Nat := nice0Load.toNat * (schedPrioToWmult.get i).toNat

/-- The rate without the bits that do not fit into 32. -/
def rate (i : Fin 40) : Nat :=
  let dropped := (exactRate i).size - 32
  exactRate i / 2 ^ dropped * 2 ^ dropped

/-- What a task is charged for `delta` nanoseconds. -/
def virtualTime (nice : Nice) (delta : UInt64) : Nat := (calcDeltaVruntime delta (loadWeight nice)).toNat

theorem exactRate_lt (i : Fin 40) : exactRate i < 2 ^ 39 := by
  revert i
  decide +kernel

theorem dropped_le (i : Fin 40) : (exactRate i).size - 32 ≤ 7 := by
  have := Nat.size_le.mpr (exactRate_lt i)
  omega

theorem rate_le (i : Fin 40) : rate i ≤ exactRate i := Nat.div_mul_le_self _ _

theorem exactRate_lt_rate (i : Fin 40) : exactRate i < rate i + 2 ^ 7 := by
  have upper := Nat.lt_div_mul_add (Nat.two_pow_pos ((exactRate i).size - 32)) (a := exactRate i)
  have few : 2 ^ ((exactRate i).size - 32) ≤ 2 ^ 7 := Nat.pow_le_pow_right (by decide) (dropped_le i)
  exact upper.trans_le (Nat.add_le_add_left few _)

theorem rate_monotone : Monotone rate := by
  decide +kernel

/-- Only nice 0 has the weight for which the multiplication is skipped. -/
theorem weight_eq_nice0Load_iff (i : Fin 40) : schedPrioToWeight.get i = nice0Load ↔ i = 20 := by
  revert i
  decide

theorem rate_nice0 : rate 20 = 2 ^ 32 := by decide +kernel

/-- One formula for the two branches: the product with the rate, rounded down. -/
theorem virtualTime_eq (nice : Nice) {delta : UInt64} (small : delta.toNat < 2 ^ 57) :
    virtualTime nice delta = delta.toNat * rate (niceToIndex nice) / 2 ^ 32 := by
  generalize index : niceToIndex nice = i
  have weight : (loadWeight nice).weight = schedPrioToWeight.get i := by rw [loadWeight, index]
  have inverse : (loadWeight nice).invWeight = schedPrioToWmult.get i := by rw [loadWeight, index]
  rw [virtualTime, calcDeltaVruntime, weight]
  by_cases zero : i = 20
  · rw [if_neg (not_not.mpr ((weight_eq_nice0Load_iff i).mpr zero)), zero, rate_nice0,
      Nat.mul_div_cancel _ (by decide)]
  · rw [if_pos ((weight_eq_nice0Load_iff i).not.mpr zero), calcDelta_toNat, inverse, fixedPoint]
    show delta.toNat * (exactRate i / 2 ^ ((exactRate i).size - 32)) /
      2 ^ (32 - ((exactRate i).size - 32)) % 2 ^ 64 = _
    have few := dropped_le i
    have bound := (rate_le i).trans_lt (exactRate_lt i)
    rw [rate] at bound ⊢
    generalize (exactRate i).size - 32 = dropped at few bound ⊢
    -- the bits that were dropped shift the product back
    have shifted : delta.toNat * (exactRate i / 2 ^ dropped) / 2 ^ (32 - dropped) =
        delta.toNat * (exactRate i / 2 ^ dropped * 2 ^ dropped) / 2 ^ 32 := by
      have split : 2 ^ 32 = 2 ^ (32 - dropped) * 2 ^ dropped := by
        rw [← Nat.pow_add, Nat.sub_add_cancel (by omega)]
      rw [split, ← Nat.mul_assoc, Nat.mul_div_mul_right _ _ (Nat.two_pow_pos _)]
    rw [shifted, Nat.mod_eq_of_lt]
    rw [Nat.div_lt_iff_lt_mul (by decide)]
    calc delta.toNat * (exactRate i / 2 ^ dropped * 2 ^ dropped)
      _ < 2 ^ 57 * 2 ^ 39 := Nat.mul_lt_mul'' small bound
      _ = 2 ^ 64 * 2 ^ 32 := by decide

/-- What is expected of `calc_delta_vruntime` for one nice value and one time. -/
structure Scales (nice : Nice) (delta : UInt64) : Prop where
  /-- the machine computes the number it would compute without a bound on its words. -/
  noOverflow : virtualTime nice delta = delta.toNat * rate (niceToIndex nice) / 2 ^ 32
  monotone : ∀ d ≤ delta, virtualTime nice d ≤ virtualTime nice delta
  nice0 : nice.value = 0 → calcDeltaVruntime delta (loadWeight nice) = delta
  below : (virtualTime nice delta : ℚ) ≤
    delta.toNat * 1024 * (loadWeight nice).invWeight.toNat / 2 ^ 32
  close : (delta.toNat * 1024 * (loadWeight nice).invWeight.toNat / 2 ^ 32 : ℚ) - virtualTime nice delta <
    1 + delta.toNat / 2 ^ 25
  ordered : ∀ lighter : Nice, nice.value < lighter.value → virtualTime nice delta ≤ virtualTime lighter delta

theorem calcDeltaVruntime_scales (nice : Nice) (delta : UInt64) (small : delta.toNat < 2 ^ 57) :
    Scales nice delta := by
  have value := virtualTime_eq nice small
  have product : (1024 * (loadWeight nice).invWeight.toNat : ℚ) = (exactRate (niceToIndex nice) : ℚ) := by
    rw [exactRate, Nat.cast_mul]
    rfl
  have lower : (rate (niceToIndex nice) : ℚ) ≤ exactRate (niceToIndex nice) :=
    Nat.cast_le.mpr (rate_le _)
  have upper : (exactRate (niceToIndex nice) : ℚ) ≤ rate (niceToIndex nice) + 2 ^ 7 := by
    exact_mod_cast (exactRate_lt_rate _).le
  have floor : (virtualTime nice delta * 2 ^ 32 : ℚ) ≤ delta.toNat * rate (niceToIndex nice) := by
    rw [value]
    exact_mod_cast Nat.div_mul_le_self _ _
  have ceiling : (delta.toNat * rate (niceToIndex nice) : ℚ) < virtualTime nice delta * 2 ^ 32 + 2 ^ 32 := by
    rw [value]
    exact_mod_cast Nat.lt_div_mul_add (by decide)
  have nonneg : (0 : ℚ) ≤ delta.toNat := Nat.cast_nonneg _
  refine ⟨value, fun d le => ?_, fun zero => ?_, ?_, ?_, fun lighter less => ?_⟩
  · have le' := UInt64.le_iff_toNat_le.mp le
    rw [value, virtualTime_eq nice (le'.trans_lt small)]
    exact Nat.div_le_div_right (Nat.mul_le_mul_right _ le')
  · have index : niceToIndex nice = 20 := by
      simp [niceToIndex, zero]
    rw [calcDeltaVruntime, loadWeight, index]
    rfl
  · rw [mul_assoc, product, le_div_iff₀ (by norm_num)]
    exact floor.trans (mul_le_mul_of_nonneg_left lower nonneg)
  · have wide := mul_le_mul_of_nonneg_left upper nonneg
    rw [mul_assoc, product, sub_lt_iff_lt_add, div_lt_iff₀ (by norm_num)]
    linarith
  · have index : niceToIndex nice ≤ niceToIndex lighter := by
      simp only [niceToIndex, Fin.mk_le_mk]
      omega
    rw [value, virtualTime_eq lighter small]
    exact Nat.div_le_div_right (Nat.mul_le_mul_left _ (rate_monotone index))

/-- The largest rate, for more than two years. -/
theorem calcDeltaVruntime_scales_lightest : (2 ^ 56 : UInt64).toNat < 2 ^ 57 ∧
    Scales ⟨19, by decide, by decide⟩ (2 ^ 56) :=
  ⟨by decide, calcDeltaVruntime_scales _ _ (by decide)⟩

/-! ## Preemption -/

section

variable (s : Scheduler) (t : Nat)

/-- The time that a task has run since it was picked. -/
def ran : Int := (s.sched t).sumExecTime.toNat - (s.sched t).prevSumExecTime.toNat

/-- The rule of `check_preempt_tick`, over the integers. -/
def Preempts : Prop :=
  (s.timeslice t).toNat < ran s t ∨ minGranularity.toNat ≤ ran s t ∧
    (s.timeslice t).toNat < ((s.sched t).vruntime.toNat - s.minVruntime.toNat : Int)

/-- The times that `check_preempt_tick` reads are below 2^63. -/
structure TimesFit : Prop where
  sumExecTime : (s.sched t).sumExecTime.toNat < 2 ^ 63
  prevSumExecTime : (s.sched t).prevSumExecTime.toNat < 2 ^ 63
  vruntime : (s.sched t).vruntime.toNat < 2 ^ 63
  minVruntime : s.minVruntime.toNat < 2 ^ 63
  timeslice : (s.timeslice t).toNat < 2 ^ 63

end

variable {s : Scheduler} {t : Nat}

theorem checkPreemptTick_eq_true : s.checkPreemptTick t = true ↔
    s.timeslice t < (s.sched t).sumExecTime - (s.sched t).prevSumExecTime ∨
      minGranularity ≤ (s.sched t).sumExecTime - (s.sched t).prevSumExecTime ∧
        s.timeslice t < (s.sched t).vruntime - s.minVruntime := by
  rw [Scheduler.checkPreemptTick]
  split
  · next used => simp [used]
  · next within =>
    split
    · next short => simp [within, UInt64.not_le.mpr short]
    · next long => simp [within, UInt64.not_lt.mp long]

/-- An unsigned difference is above a bound below 2^63 if the integer difference is, and if the
    integer difference is negative. -/
theorem lt_sub_iff {a b bound : UInt64} (ha : a.toNat < 2 ^ 63) (hb : b.toNat < 2 ^ 63)
    (small : bound.toNat < 2 ^ 63) :
    bound < a - b ↔ (bound.toNat < (a.toNat - b.toNat : Int)) ∨ a.toNat < b.toNat := by
  rw [UInt64.lt_iff_toNat_lt, UInt64.toNat_sub]
  omega

/-- `check_preempt_tick` follows its rule exactly if the time the task has run is not negative and a
    task that has run for the minimal granularity, but not for its slice, is not below the
    minimum. -/
theorem checkPreemptTick_iff (times : TimesFit s t) :
    (s.checkPreemptTick t = true ↔ Preempts s t) ↔
      0 ≤ ran s t ∧ ¬((minGranularity.toNat ≤ ran s t ∧ ran s t ≤ (s.timeslice t).toNat) ∧
        (s.sched t).vruntime < s.minVruntime) := by
  have gran : minGranularity.toNat = 1000000 := rfl
  rw [checkPreemptTick_eq_true, lt_sub_iff times.sumExecTime times.prevSumExecTime times.timeslice,
    lt_sub_iff times.vruntime times.minVruntime times.timeslice, Preempts, ran,
    UInt64.le_iff_toNat_le, UInt64.toNat_sub, UInt64.lt_iff_toNat_lt, gran]
  have := times.sumExecTime
  omega

/-- The only task has run for 6 ms. -/
def pastSlice : Scheduler := oneTask.modifySched 0 fun t => { t with sumExecTime := 6000000 }

theorem checkPreemptTick_iff_pastSlice : TimesFit pastSlice 0 ∧ pastSlice.checkPreemptTick 0 = true ∧
    (pastSlice.checkPreemptTick 0 = true ↔ Preempts pastSlice 0) := by
  have times : TimesFit pastSlice 0 := by
    refine ⟨?_, ?_, ?_, ?_, ?_⟩ <;> decide +kernel
  exact ⟨times, by decide +kernel, (checkPreemptTick_iff times).mpr (by decide +kernel)⟩

/-- A task slept for 7 ms and was picked half a period below the minimum.  After 2 ms of its slice of
    10 ms it is still below, and is preempted. -/
theorem woken_task_preempted : ∃ u,
    Illinix.Lib.Run Step oneTask [.tick 7000000, .wakeup 1, .preempt, .tick 2000000] u ∧
    u.current = some 1 ∧ TimesFit u 1 ∧ ran u 1 = 2000000 ∧ u.timeslice 1 = 10000000 ∧
    (u.sched 1).vruntime = 6500000 ∧ u.minVruntime = 7000000 ∧ ¬Preempts u 1 ∧
    u.checkPreemptTick 1 = true ∧ (u.tasks 1).flag = needResched := by
  have found : (Illinix.Lib.attempt Enabled Scheduler.exec oneTask
      [.tick 7000000, .wakeup 1, .preempt, .tick 2000000]).any (fun u =>
      u.current = some 1 ∧ (u.sched 1).sumExecTime = 2000000 ∧ (u.sched 1).prevSumExecTime = 0 ∧
      u.timeslice 1 = 10000000 ∧ (u.sched 1).vruntime = 6500000 ∧ u.minVruntime = 7000000 ∧
      u.checkPreemptTick 1 = true ∧ (u.tasks 1).flag = needResched) = true := by
    decide +kernel
  obtain ⟨u, run, result⟩ :=
    Illinix.Lib.exists_run Step (fun _ _ _ pass done => ⟨pass, done⟩) found
  obtain ⟨current, sum, prev, slice, vruntime, least, preempted, flag⟩ := of_decide_eq_true result
  have time : ran u 1 = 2000000 := by
    rw [ran, sum, prev]
    rfl
  refine ⟨u, run, current, ⟨?_, ?_, ?_, ?_, ?_⟩, time, slice, vruntime, least, ?_, preempted, flag⟩
  · rw [sum]
    decide
  · rw [prev]
    decide
  · rw [vruntime]
    decide
  · rw [least]
    decide
  · rw [slice]
    decide
  · rw [Preempts, time, slice, vruntime, least]
    decide

end Illinix.Verified.Cfs
