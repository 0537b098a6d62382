import Illinix.Verified.Process.Basic
import Illinix.Lib.Run
import Mathlib.Data.List.Nodup

/-! # Process ids

`alloc_pid` hands out the value of one counter and `kill_pid` lowers it, whichever process
dies.  Ids stay unique as long as no process with the id of the counter is left when the next one
is created; an exhausted counter is not noticed, because `pid_t` is unsigned. -/

namespace Illinix.Verified.Process

open Kernel Lib List

variable {k k' : Processes}

inductive PidEvent where
  | create (page : Page) (current : Nat) (kthread : Bool)
  | free (p : Nat)

def pidExec (k : Processes) : PidEvent → Except ProcessFault Processes
  | .create page current kthread => pure (processCreate k page current kthread).1
  | .free p => processFree k p

/-- `alloc_kstack` returns a page that no process uses; a process that is freed exists. -/
def PidLegal (k : Processes) : PidEvent → Prop
  | .create page _ _ => page.addr ∉ k.taskQueue
  | .free p => p ∈ k.taskQueue

def PidStep (k : Processes) (e : PidEvent) (k' : Processes) : Prop :=
  PidLegal k e ∧ pidExec k e = .ok k'

/-- At a creation the counter is not exhausted, and its value is not the id of a process. -/
def PidCareful (k : Processes) : PidEvent → Prop
  | .create _ _ _ => k.size < bitmapSize ∧ ∀ q ∈ k.taskQueue, (k.threads q).pid ≠ k.size
  | .free _ => True

def CarefulPidStep (k : Processes) (e : PidEvent) (k' : Processes) : Prop :=
  PidCareful k e ∧ PidStep k e k'

/-- The state after `pidmap_init`. -/
def PidsBooted (k : Processes) : Prop := k.size = pidmapInit ∧ k.taskQueue = []

structure PidInv (k : Processes) : Prop where
  low : ∀ p ∈ k.taskQueue, 2 ≤ (k.threads p).pid
  unique : ∀ p ∈ k.taskQueue, ∀ q ∈ k.taskQueue, (k.threads p).pid = (k.threads q).pid → p = q
  reserved : 2 ≤ k.size

theorem PidsBooted.inv (booted : PidsBooted k) : PidInv k := by
  obtain ⟨size, empty⟩ := booted
  constructor
  · simp [empty]
  · simp [empty]
  · rw [size]
    decide

/-! ## One step -/

theorem allocPid_of_lt {size : UInt32} (room : size < bitmapSize) : allocPid size = (size + 1, size) :=
  if_pos room

section

variable {page : Page} {current : Nat} {kthread : Bool}

/-- The processes keep their ids, and the new one gets the value of the counter. -/
theorem processCreate_pids (fresh : page.addr ∉ k.taskQueue) (room : k.size < bitmapSize) :
    (∀ q ∈ k.taskQueue, ((processCreate k page current kthread).1.threads q).pid = (k.threads q).pid) ∧
      ((processCreate k page current kthread).1.threads page.addr).pid = k.size := by
  constructor
  · intro q hq
    rw [processCreate_field (·.pid) fun _ _ => rfl, if_neg (ne_of_mem_of_not_mem hq fresh)]
  · rw [processCreate_field (·.pid) fun _ _ => rfl, if_pos rfl]
    exact congrArg Prod.snd (allocPid_of_lt room)

theorem PidInv.create (inv : PidInv k) (fresh : page.addr ∉ k.taskQueue)
    (careful : PidCareful k (.create page current kthread)) :
    PidInv (processCreate k page current kthread).1 := by
  obtain ⟨room, distinct⟩ := careful
  have queue : (processCreate k page current kthread).1.taskQueue = k.taskQueue ++ [page.addr] := rfl
  obtain ⟨old, new⟩ := @processCreate_pids k page current kthread fresh room
  constructor
  · intro p hp
    rw [queue, mem_append, mem_singleton] at hp
    cases hp with
    | inl hp =>
      rw [old p hp]
      exact inv.low p hp
    | inr hp =>
      rw [hp, new]
      exact inv.reserved
  · intro p hp q hq same
    rw [queue, mem_append, mem_singleton] at hp hq
    cases hp with
    | inl hp =>
      rw [old p hp] at same
      cases hq with
      | inl hq =>
        rw [old q hq] at same
        exact inv.unique p hp q hq same
      | inr hq =>
        subst hq
        rw [new] at same
        exact absurd same (distinct p hp)
    | inr hp =>
      subst hp
      rw [new] at same
      cases hq with
      | inl hq =>
        rw [old q hq] at same
        exact absurd same.symm (distinct q hq)
      | inr hq => exact hq.symm
  · have bound : k.size.toNat < 0x1000 := room
    have low : 2 ≤ k.size.toNat := inv.reserved
    show 2 ≤ (allocPid k.size).1.toNat
    rw [allocPid_of_lt room, UInt32.toNat_add, UInt32.toNat_one]
    omega

end

theorem PidInv.free (inv : PidInv k) {p : Nat} (done : processFree k p = .ok k') : PidInv k' := by
  have shape := processFree_ok done
  have queue : k'.taskQueue = k.taskQueue.erase p := by rw [shape, modify_taskQueue]
  have pids : ∀ q, (k'.threads q).pid = (k.threads q).pid := by
    intro q
    rw [shape]
    exact modify_field (·.pid) rfl q
  constructor
  · intro q hq
    rw [queue] at hq
    rw [pids]
    exact inv.low q (mem_of_mem_erase hq)
  · intro a ha b hb same
    rw [queue] at ha hb
    rw [pids, pids] at same
    exact inv.unique a (mem_of_mem_erase ha) b (mem_of_mem_erase hb) same
  · -- `kill_pid` stops at 2
    rw [shape, modify_size, killPid]
    split
    · next above =>
      have above : 2 < k.size.toNat := above
      show 2 ≤ (k.size - 1).toNat
      rw [UInt32.toNat_sub_of_le _ _ (UInt32.le_trans (by decide) inv.reserved), UInt32.toNat_one]
      omega
    · exact inv.reserved

theorem PidInv.step {e : PidEvent} (inv : PidInv k) (step : CarefulPidStep k e k') : PidInv k' := by
  obtain ⟨careful, legal, done⟩ := step
  cases e with
  | create page current kthread =>
    cases done
    exact inv.create legal careful
  | free p => exact inv.free done

instance (k : Processes) (e : PidEvent) : Decidable (PidLegal k e) :=
  match e with
  | .create page _ _ => inferInstanceAs (Decidable (page.addr ∉ k.taskQueue))
  | .free p => inferInstanceAs (Decidable (p ∈ k.taskQueue))

instance (k : Processes) (e : PidEvent) : Decidable (PidCareful k e) :=
  match e with
  | .create _ _ _ =>
    inferInstanceAs (Decidable (k.size < bitmapSize ∧ ∀ q ∈ k.taskQueue, (k.threads q).pid ≠ k.size))
  | .free _ => inferInstanceAs (Decidable True)

end Illinix.Verified.Process
