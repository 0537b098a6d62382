import Mathlib.Algebra.BigOperators.Ring.List
import Mathlib.Algebra.Order.BigOperators.Group.List
import Mathlib.Algebra.Order.Ring.Nat
import Mathlib.Data.Finset.Max
import Mathlib.Data.Nat.Size
import Mathlib.Data.UInt
import Illinix.Verified.Cfs.RunQueue

/-! # The time slices

`timeslice` multiplies the period by the weight of a task and by `rq->load.inv_weight`, which stands for
the reciprocal of the sum of the weights.  But `add_load` adds up the reciprocals of the weights.  With
two tasks the sum is above each of them, while the reciprocal of the sum is below: the heaviest
task gets more than a whole period for itself.  A sum that does not fit into its 32 bits loses its
upper bits, and nothing is said here about the slices that come of what is left. -/

namespace Illinix.Verified.Cfs

open Kernel List

variable {s : Scheduler} {l : List Nat} {t : Nat}

/-! ## The fixed-point multiplication -/

/-- The loop halves a factor until it fits into 32 bits. -/
theorem shrink_spec (n : Nat) (fact : UInt64) (shift : Nat) (small : fact.toNat < 2 ^ (32 + n)) :
    ∃ k ≤ n, (shrink n fact shift).2 = shift - k ∧
      (shrink n fact shift).1.toNat = fact.toNat / 2 ^ k ∧ fact.toNat / 2 ^ k < 2 ^ 32 ∧
      (k = 0 ∨ 2 ^ 31 ≤ fact.toNat / 2 ^ k) := by
  induction n generalizing fact shift with
  | zero => exact ⟨0, Nat.le_refl 0, rfl, by simp [shrink], by simpa using small, .inl rfl⟩
  | succ n ih =>
    have high : fact >>> 32 ≠ 0 ↔ 2 ^ 32 ≤ fact.toNat := by
      rw [← UInt64.toNat_inj.ne]
      show (fact.toNat >>> 32) ≠ 0 ↔ _
      omega
    rw [shrink]
    by_cases big : 2 ^ 32 ≤ fact.toNat
    · have half : (fact >>> 1).toNat = fact.toNat / 2 := Nat.shiftRight_eq_div_pow _ 1
      obtain ⟨k, bound, shifts, value, fits, normal⟩ := ih (fact >>> 1) (shift - 1) (by
        have double : 2 ^ (32 + (n + 1)) = 2 * 2 ^ (32 + n) := by
          rw [← Nat.add_assoc, Nat.pow_succ, Nat.mul_comm]
        omega)
      have twice : fact.toNat / 2 / 2 ^ k = fact.toNat / 2 ^ (k + 1) := by
        rw [Nat.div_div_eq_div_mul, Nat.pow_succ, Nat.mul_comm]
      rw [half, twice] at value fits normal
      rw [if_pos (high.mpr big)]
      refine ⟨k + 1, Nat.succ_le_succ bound, by omega, value, fits, .inr ?_⟩
      cases normal with
      | inl zero =>
        subst zero
        omega
      | inr large => exact large
    · rw [if_neg (high.not.mpr big)]
      exact ⟨0, Nat.zero_le _, rfl, by simp, by simp; omega, .inl rfl⟩

theorem mul_lt_two_pow {x y : Nat} (hx : x < 2 ^ 32) (hy : y < 2 ^ 32) : x * y < 2 ^ 64 :=
  calc x * y < 2 ^ 32 * 2 ^ 32 := Nat.mul_lt_mul'' hx hy
    _ = 2 ^ 64 := rfl

/-- The product of a 64-bit and a 32-bit number is put together from two halves. -/
theorem mulU64U32Shr_toNat (a : UInt64) (mul : UInt32) (shift : Nat) (le : shift ≤ 32) :
    (mulU64U32Shr a mul shift).toNat = a.toNat * mul.toNat / 2 ^ shift % 2 ^ 64 := by
  have bound := a.toNat_lt
  have mulBound := mul.toNat_lt
  have lowHalf : a.toUInt32.toUInt64.toNat = a.toNat % 2 ^ 32 := by simp
  have highHalf : (a >>> 32).toUInt32.toUInt64.toNat = a.toNat / 2 ^ 32 := by
    have shifted : (a >>> 32).toNat = a.toNat / 2 ^ 32 := Nat.shiftRight_eq_div_pow _ 32
    rw [UInt32.toNat_toUInt64, UInt64.toNat_toUInt32, shifted]
    omega
  have down : (UInt64.ofNat shift).toNat % 64 = shift := by
    rw [UInt64.toNat_ofNat']
    omega
  have up : (UInt64.ofNat (32 - shift)).toNat % 64 = 32 - shift := by
    rw [UInt64.toNat_ofNat']
    omega
  have low : ((a.toUInt32.toUInt64 * mul.toUInt64) >>> UInt64.ofNat shift).toNat =
      a.toNat % 2 ^ 32 * mul.toNat / 2 ^ shift := by
    have product : a.toNat % 2 ^ 32 * mul.toNat < 2 ^ 64 :=
      mul_lt_two_pow (Nat.mod_lt _ (by decide)) mulBound
    rw [UInt64.toNat_shiftRight, down, Nat.shiftRight_eq_div_pow, UInt64.toNat_mul, lowHalf,
      UInt32.toNat_toUInt64, Nat.mod_eq_of_lt product]
  have high : (((a >>> 32).toUInt32.toUInt64 * mul.toUInt64) <<< UInt64.ofNat (32 - shift)).toNat =
      a.toNat / 2 ^ 32 * mul.toNat * 2 ^ (32 - shift) % 2 ^ 64 := by
    have product : a.toNat / 2 ^ 32 * mul.toNat < 2 ^ 64 := mul_lt_two_pow (by omega) mulBound
    rw [UInt64.toNat_shiftLeft, up, Nat.shiftLeft_eq, UInt64.toNat_mul, highHalf,
      UInt32.toNat_toUInt64, Nat.mod_eq_of_lt product]
  -- the upper half is a multiple of the divisor
  have whole : a.toNat * mul.toNat / 2 ^ shift =
      a.toNat % 2 ^ 32 * mul.toNat / 2 ^ shift + a.toNat / 2 ^ 32 * mul.toNat * 2 ^ (32 - shift) := by
    have split : 2 ^ 32 = 2 ^ (32 - shift) * 2 ^ shift := by
      rw [← Nat.pow_add]
      congr 1
      omega
    rw [← Nat.add_mul_div_right _ _ (Nat.two_pow_pos shift)]
    congr 1
    calc a.toNat * mul.toNat
      _ = (a.toNat % 2 ^ 32 + 2 ^ 32 * (a.toNat / 2 ^ 32)) * mul.toNat := by rw [Nat.mod_add_div]
      _ = a.toNat % 2 ^ 32 * mul.toNat + a.toNat / 2 ^ 32 * mul.toNat * 2 ^ 32 := by
        rw [Nat.add_mul, Nat.mul_comm (2 ^ 32), Nat.mul_right_comm]
      _ = _ := by rw [split, Nat.mul_assoc _ (2 ^ (32 - shift))]
  rw [whole, mulU64U32Shr]
  split
  · rw [UInt64.toNat_add, low, high, Nat.add_mod_mod]
  · next zero =>
    have none : a.toNat / 2 ^ 32 = 0 := by
      rw [← highHalf, Decidable.not_not.mp zero]
      rfl
    have fits : a.toNat % 2 ^ 32 * mul.toNat / 2 ^ shift < 2 ^ 64 :=
      Nat.lt_of_le_of_lt (Nat.div_le_self _ _) (mul_lt_two_pow (Nat.mod_lt _ (by decide)) mulBound)
    rw [low, none, Nat.zero_mul, Nat.zero_mul, Nat.add_zero, Nat.mod_eq_of_lt fits]

/-- What `__calc_delta_vruntime` computes: of the product of the weight and the reciprocal it keeps the
    32 leading bits. -/
def fixedPoint (delta weight inverse : Nat) : Nat :=
  let dropped := (weight * inverse).size - 32
  delta * (weight * inverse / 2 ^ dropped) / 2 ^ (32 - dropped) % 2 ^ 64

theorem calcDelta_toNat (delta : UInt64) (weight : UInt32) (load : Weight) :
    (calcDelta delta weight load).toNat =
      fixedPoint delta.toNat weight.toNat load.invWeight.toNat := by
  have low : weight.toUInt64 >>> 32 = 0 := by
    apply UInt64.toNat_inj.mp
    show weight.toUInt64.toNat >>> 32 = 0
    rw [Nat.shiftRight_eq_div_pow, UInt32.toNat_toUInt64]
    exact Nat.div_eq_of_lt weight.toNat_lt
  have first : shrink 32 weight.toUInt64 wmultShift = (weight.toUInt64, 32) := by
    simp [shrink, low, wmultShift]
  have product : (weight.toUInt64 * load.invWeight.toUInt64).toNat =
      weight.toNat * load.invWeight.toNat := by
    exact Nat.mod_eq_of_lt (mul_lt_two_pow weight.toNat_lt load.invWeight.toNat_lt)
  obtain ⟨k, le, shift, value, fits, normal⟩ :=
    shrink_spec 32 (weight.toUInt64 * load.invWeight.toUInt64) 32 (UInt64.toNat_lt _)
  rw [product] at value fits normal
  have bits : (weight.toNat * load.invWeight.toNat).size - 32 = k := by
    have pos := Nat.two_pow_pos k
    have upper : (weight.toNat * load.invWeight.toNat).size ≤ 32 + k := by
      rw [Nat.size_le, Nat.pow_add]
      exact (Nat.div_lt_iff_lt_mul pos).mp fits
    cases normal with
    | inl zero => omega
    | inr large =>
      have lower : 31 + k < (weight.toNat * load.invWeight.toNat).size := by
        rw [Nat.lt_size, Nat.pow_add]
        exact (Nat.le_div_iff_mul_le pos).mp large
      omega
  have cast : weight.toUInt64.toUInt32.toUInt64 = weight.toUInt64 := by simp
  rw [calcDelta, first]
  simp only [cast]
  rw [shift, mulU64U32Shr_toNat _ _ _ (Nat.sub_le 32 k), UInt64.toNat_toUInt32, value,
    Nat.mod_eq_of_lt fits, fixedPoint]
  simp only [bits]

/-! ## The slices of the runnable tasks -/

def weightOf (s : Scheduler) (t : Nat) : Nat := (s.sched t).load.weight.toNat
def inverseOf (s : Scheduler) (t : Nat) : Nat := (s.sched t).load.invWeight.toNat

/-- The load of the queue comes from the tasks `l`, each with the weight of its nice value.
    `nr_running` does not count the current one. -/
structure Gathered (s : Scheduler) (l : List Nat) : Prop where
  onRq : ∀ t ∈ l, (s.sched t).onRq = true
  weight : ∀ t ∈ l, (s.sched t).load = loadWeight (s.tasks t).nice
  load : s.load = l.foldr (fun t load => addLoad (s.sched t).load load) ⟨0, 0⟩
  count : s.nrRunning = l.length ∨ s.nrRunning + 1 = l.length

/-- Each task gets its share of the period by weight, up to one nanosecond and the rounding of the
    reciprocal; no share is above the period, and neither is their sum. -/
structure Proportional (s : Scheduler) (l : List Nat) (slice : Nat → Nat) : Prop where
  share : ∀ t ∈ l, let total := (l.map (weightOf s)).sum
    let part := (schedPeriod s.nrRunning).toNat * weightOf s t
    ((slice t * total : Nat) - part : Int).natAbs ≤ total + part * total / 2 ^ 31
  le : ∀ t ∈ l, slice t ≤ (schedPeriod s.nrRunning).toNat
  sum : (l.map slice).sum ≤ (schedPeriod s.nrRunning).toNat

theorem gathered_invWeight (s : Scheduler) (l : List Nat) :
    (l.foldr (fun t load => addLoad (s.sched t).load load) ⟨0, 0⟩).invWeight.toNat =
      (l.map (inverseOf s)).sum % 2 ^ 32 := by
  induction l with
  | nil => rfl
  | cons t l ih =>
    rw [foldr_cons, addLoad, UInt32.toNat_add, ih, map_cons, sum_cons, Nat.mod_add_mod,
      Nat.add_comm, inverseOf]

theorem timeslice_toNat (h : Gathered s l) (ht : t ∈ l) : (s.timeslice t).toNat =
    fixedPoint (schedPeriod s.nrRunning).toNat (weightOf s t) ((l.map (inverseOf s)).sum % 2 ^ 32) := by
  simp only [Scheduler.timeslice, h.onRq t ht, if_true, Nat.add_zero]
  rw [calcDelta_toNat, h.load, gathered_invWeight, weightOf]

/-- The tables: the products are close to `2 ^ 32`. -/
theorem loadWeight_bounds (nice : Nice) : 4294967262 ≤
      (loadWeight nice).weight.toNat * (loadWeight nice).invWeight.toNat ∧
    (loadWeight nice).weight.toNat < 2 ^ 17 ∧ 48388 ≤ (loadWeight nice).invWeight.toNat := by
  have all : ∀ i : Fin 40, 4294967262 ≤ (schedPrioToWeight.get i).toNat * (schedPrioToWmult.get i).toNat ∧
      (schedPrioToWeight.get i).toNat < 2 ^ 17 ∧ 48388 ≤ (schedPrioToWmult.get i).toNat := by
    decide +kernel
  exact all (niceToIndex nice)

/-- A task alone gets the whole period, or one nanosecond less. -/
theorem loadWeight_alone (nice : Nice) :
    4999999 ≤ fixedPoint 5000000 (loadWeight nice).weight.toNat (loadWeight nice).invWeight.toNat ∧
      fixedPoint 5000000 (loadWeight nice).weight.toNat (loadWeight nice).invWeight.toNat ≤ 5000000 := by
  have all : ∀ i : Fin 40,
      4999999 ≤ fixedPoint 5000000 (schedPrioToWeight.get i).toNat (schedPrioToWmult.get i).toNat ∧
        fixedPoint 5000000 (schedPrioToWeight.get i).toNat (schedPrioToWmult.get i).toNat ≤
          5000000 := by
    decide +kernel
  exact all (niceToIndex nice)

theorem exists_heaviest (nonempty : l ≠ []) (s : Scheduler) :
    ∃ t ∈ l, ∀ x ∈ l, weightOf s x ≤ weightOf s t := by
  obtain ⟨t, ht, heaviest⟩ :=
    l.toFinset.exists_max_image (weightOf s) (toFinset_nonempty_iff l |>.mpr nonempty)
  exact ⟨t, mem_toFinset.mp ht, fun x hx => heaviest x (mem_toFinset.mpr hx)⟩

theorem succ_mul_le {delta : Nat} (low : 5000000 ≤ delta) :
    (delta + 1) * 2 ^ 31 ≤ delta * 4294967262 ∧ (delta + 1) * 2 ^ 30 ≤ delta * 2 ^ 31 := by
  omega

/-- A product of two units or more makes the slice longer than the period. -/
theorem lt_fixedPoint {delta weight inverse : Nat} (low : 5000000 ≤ delta) (high : delta < 2 ^ 37)
    (large : 2 * (4294967262) ≤ weight * inverse) (small : weight * inverse < 2 ^ 49) :
    delta < fixedPoint delta weight inverse := by
  unfold fixedPoint
  generalize weight * inverse = product at large small ⊢
  have lower : 32 < product.size := Nat.lt_size.mpr (by omega)
  have upper : product.size ≤ 49 := Nat.size_le.mpr small
  obtain ⟨k, bits⟩ : ∃ k, product.size = 32 + k := ⟨product.size - 32, by omega⟩
  have pos := Nat.two_pow_pos k
  have leading : product / 2 ^ k < 2 ^ 32 := by
    rw [Nat.div_lt_iff_lt_mul pos, ← Nat.pow_add]
    exact Nat.size_le.mp (Nat.le_of_eq bits)
  have normal : 2 ^ 31 ≤ product / 2 ^ k := by
    rw [Nat.le_div_iff_mul_le pos, ← Nat.pow_add]
    exact Nat.lt_size.mp (by omega)
  have scaled : (delta + 1) * 2 ^ (32 - k) ≤ delta * (product / 2 ^ k) := by
    by_cases one : k = 1
    · -- nearly `2 ^ 32` after one halving
      subst one
      have half : 4294967262 ≤ product / 2 ^ 1 := by omega
      calc (delta + 1) * 2 ^ (32 - 1) ≤ delta * 4294967262 := (succ_mul_le low).1
        _ ≤ delta * (product / 2 ^ 1) := Nat.mul_le_mul_left delta half
    · calc (delta + 1) * 2 ^ (32 - k)
        _ ≤ (delta + 1) * 2 ^ 30 :=
          Nat.mul_le_mul_left _ (Nat.pow_le_pow_right (by decide) (by omega))
        _ ≤ delta * 2 ^ 31 := (succ_mul_le low).2
        _ ≤ delta * (product / 2 ^ k) := Nat.mul_le_mul_left delta normal
  have fits : delta * (product / 2 ^ k) / 2 ^ (32 - k) < 2 ^ 64 := by
    rw [Nat.div_lt_iff_lt_mul (Nat.two_pow_pos _)]
    calc delta * (product / 2 ^ k)
      _ < 2 ^ 37 * 2 ^ 32 := Nat.mul_lt_mul'' high leading
      _ ≤ 2 ^ 64 * 2 ^ 15 := by decide
      _ ≤ 2 ^ 64 * 2 ^ (32 - k) :=
        Nat.mul_le_mul_left _ (Nat.pow_le_pow_right (by decide) (by omega))
  simp only [bits, Nat.add_sub_cancel_left]
  rw [Nat.mod_eq_of_lt fits]
  exact (Nat.le_div_iff_mul_le (Nat.two_pow_pos _)).mpr scaled

theorem schedPeriod_bounds {n : Nat} (small : n < 2 ^ 17) :
    5000000 ≤ (schedPeriod n).toNat ∧ (schedPeriod n).toNat < 2 ^ 37 := by
  unfold schedPeriod
  split
  · next many =>
    have product : (minGranularity * UInt64.ofNat n).toNat = 1000000 * n := by
      show 1000000 * (n % 2 ^ 64) % 2 ^ 64 = _
      omega
    have many' : 5 < n := many
    omega
  · decide

/-- With two tasks or more, and room for the sum of the reciprocals, the heaviest task gets more than
    a period. -/
theorem Gathered.exceeds (h : Gathered s l) (several : 2 ≤ l.length)
    (fits : (l.map (inverseOf s)).sum < 2 ^ 32) :
    ∃ t ∈ l, (schedPeriod s.nrRunning).toNat < (s.timeslice t).toNat := by
  have nonempty : l ≠ [] := by
    rintro rfl
    cases several
  obtain ⟨t, ht, heaviest⟩ := exists_heaviest nonempty s
  have bounds (x : Nat) (hx : x ∈ l) : 4294967262 ≤ weightOf s x * inverseOf s x ∧
      weightOf s x < 2 ^ 17 ∧ 48388 ≤ inverseOf s x := by
    rw [weightOf, inverseOf, h.weight x hx]
    exact loadWeight_bounds _
  -- no more than 88761 reciprocals fit
  have few : l.length < 2 ^ 17 := by
    have sum := card_nsmul_le_sum (l.map (inverseOf s)) 48388 (by
      intro v hv
      obtain ⟨x, hx, rfl⟩ := mem_map.mp hv
      exact (bounds x hx).2.2)
    rw [length_map] at sum
    have product : l.length * 48388 < 2 ^ 32 := Nat.lt_of_le_of_lt sum fits
    omega
  have large : l.length * (4294967262) ≤ weightOf s t * (l.map (inverseOf s)).sum := by
    have sum := card_nsmul_le_sum (l.map fun x => weightOf s t * inverseOf s x) (4294967262) (by
      intro v hv
      obtain ⟨x, hx, rfl⟩ := mem_map.mp hv
      exact (bounds x hx).1.trans (Nat.mul_le_mul_right _ (heaviest x hx)))
    rw [sum_map_mul_left, length_map] at sum
    exact sum
  have small : weightOf s t * (l.map (inverseOf s)).sum < 2 ^ 49 :=
    calc weightOf s t * (l.map (inverseOf s)).sum
      _ < 2 ^ 17 * 2 ^ 32 := Nat.mul_lt_mul'' (bounds t ht).2.1 fits
      _ = 2 ^ 49 := rfl
  obtain ⟨low, high⟩ := schedPeriod_bounds (n := s.nrRunning) (by
    cases h.count with
    | inl all => exact all ▸ few
    | inr others => exact Nat.lt_of_succ_lt (others.trans_lt few))
  refine ⟨t, ht, ?_⟩
  rw [timeslice_toNat h ht, Nat.mod_eq_of_lt fits]
  exact lt_fixedPoint low high ((Nat.mul_le_mul_right _ several).trans large) small

theorem Gathered.alone (h : Gathered s [t]) : Proportional s [t] fun x => (s.timeslice x).toNat := by
  have period : (schedPeriod s.nrRunning).toNat = 5000000 := by
    have count := h.count
    have few : s.nrRunning ≤ nrLatency := by
      show s.nrRunning ≤ 5
      simp only [length_singleton] at count
      omega
    rw [schedPeriod, if_neg (Nat.not_lt.mpr few)]
    rfl
  have slice : (s.timeslice t).toNat = fixedPoint 5000000 (weightOf s t) (inverseOf s t) := by
    have single : (map (inverseOf s) [t]).sum = inverseOf s t := by simp
    have small : inverseOf s t < 2 ^ 32 := UInt32.toNat_lt _
    rw [timeslice_toNat h mem_cons_self, period, single, Nat.mod_eq_of_lt small]
  obtain ⟨low, high⟩ := loadWeight_alone (s.tasks t).nice
  rw [← h.weight t mem_cons_self] at low high
  change 4999999 ≤ fixedPoint 5000000 (weightOf s t) (inverseOf s t) at low
  change fixedPoint 5000000 (weightOf s t) (inverseOf s t) ≤ 5000000 at high
  rw [← slice] at low high
  refine ⟨fun x hx => ?_, fun x hx => ?_, ?_⟩
  · cases mem_singleton.mp hx
    simp only [period, map_cons, map_nil, sum_cons, sum_nil, Nat.add_zero]
    generalize (s.timeslice t).toNat = slice at low high
    have up : slice * weightOf s t ≤ 5000000 * weightOf s t := Nat.mul_le_mul_right _ high
    have down : 4999999 * weightOf s t ≤ slice * weightOf s t := Nat.mul_le_mul_right _ low
    omega
  · cases mem_singleton.mp hx
    rw [period]
    exact high
  · rw [period]
    simpa using high

/-- The slices are proportional if no second task is runnable, and only then as long as the sum of the
    reciprocals fits into its field. -/
theorem timeslices_proportional_iff (h : Gathered s l) :
    (l.length ≤ 1 → Proportional s l fun t => (s.timeslice t).toNat) ∧
      ((l.map (inverseOf s)).sum < 2 ^ 32 →
        (Proportional s l (fun t => (s.timeslice t).toNat) ↔ l.length ≤ 1)) := by
  have enough (few : l.length ≤ 1) : Proportional s l fun t => (s.timeslice t).toNat := by
    match l, few with
    | [], _ => exact ⟨nofun, nofun, Nat.zero_le _⟩
    | [t], _ => exact h.alone
  refine ⟨enough, fun fits => ⟨fun shares => ?_, enough⟩⟩
  by_contra several
  obtain ⟨t, ht, more⟩ := h.exceeds (Nat.not_le.mp several) fits
  exact absurd (shares.le t ht) (Nat.not_le.mpr more)

theorem timeslices_proportional_iff_one : Gathered oneTask [0] ∧
    ([0].map (inverseOf oneTask)).sum < 2 ^ 32 ∧
    Proportional oneTask [0] fun t => (oneTask.timeslice t).toNat := by
  have gathered : Gathered oneTask [0] := by
    refine ⟨fun t ht => ?_, fun t ht => ?_, by decide +kernel, .inr rfl⟩
    · cases List.mem_singleton.mp ht
      rfl
    · cases List.mem_singleton.mp ht
      rfl
  have fits : ([0].map (inverseOf oneTask)).sum < 2 ^ 32 := by decide +kernel
  exact ⟨gathered, fits, ((timeslices_proportional_iff gathered).2 fits).mpr (Nat.le_refl 1)⟩

/-- Two tasks with the same nice value: each gets 10 ms of a period of 5 ms. -/
theorem two_tasks_exceed_period : ∃ u, Illinix.Lib.Run Step oneTask [.fork 1] u ∧
    Gathered u [0, 1] ∧ u.timeslice 0 = 10000000 ∧ u.timeslice 1 = 10000000 ∧
    schedPeriod u.nrRunning = 5000000 ∧ ¬Proportional u [0, 1] fun t => (u.timeslice t).toNat := by
  have found : (Illinix.Lib.attempt Enabled Scheduler.exec oneTask [.fork 1]).any (fun u =>
      u.timeslice 0 = 10000000 ∧ u.timeslice 1 = 10000000 ∧ u.nrRunning = 1 ∧
        (u.sched 0).onRq = true ∧ (u.sched 1).onRq = true ∧
        (u.sched 0).load = loadWeight (u.tasks 0).nice ∧
        (u.sched 1).load = loadWeight (u.tasks 1).nice ∧
        u.load = addLoad (u.sched 0).load (addLoad (u.sched 1).load ⟨0, 0⟩)) = true := by
    decide +kernel
  obtain ⟨u, run, result⟩ :=
    Illinix.Lib.exists_run Step (fun _ _ _ pass done => ⟨pass, done⟩) found
  obtain ⟨first, second, count, on0, on1, weight0, weight1, load⟩ := of_decide_eq_true result
  have period : schedPeriod u.nrRunning = 5000000 := by
    rw [count]
    rfl
  refine ⟨u, run, ⟨?_, ?_, load, .inr (by rw [count]; rfl)⟩, first, second, period, fun shares => ?_⟩
  · simp [on0, on1]
  · simp [weight0, weight1]
  · have le := shares.le 0 List.mem_cons_self
    rw [first, period] at le
    exact absurd le (by decide)

end Illinix.Verified.Cfs
