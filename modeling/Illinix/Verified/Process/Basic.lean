import Illinix.Kernel.Process
import Illinix.Lib.Except

/-! # Fields of the process table

What each operation of the process model leaves alone, one lemma for each field. -/

namespace Illinix.Verified.Process

open Kernel Lib

variable {k : Processes} {p : Nat} {α : Type}

section

variable (k : Processes) (p : Nat) (f : Thread → Thread)

@[simp] theorem modify_self : (k.modify p f).threads p = f (k.threads p) := Function.update_self ..

@[simp] theorem modify_taskQueue : (k.modify p f).taskQueue = k.taskQueue := rfl

@[simp] theorem modify_size : (k.modify p f).size = k.size := rfl

end

theorem modify_of_ne {q : Nat} {f : Thread → Thread} (other : q ≠ p) : (k.modify p f).threads q = k.threads q :=
  Function.update_of_ne other ..

theorem modify_field (g : Thread → α) {f : Thread → Thread}
    (kept : g (f (k.threads p)) = g (k.threads p)) (q : Nat) :
    g ((k.modify p f).threads q) = g (k.threads q) := by
  rcases eq_or_ne q p with rfl | other
  · rw [modify_self]
    exact kept
  · rw [modify_of_ne other]

/-- Enqueueing sets `on_rq` and nothing else of the threads. -/
theorem enqueueTask_field (g : Thread → α) (kept : ∀ t, g { t with onRq := true } = g t)
    (k : Processes) (p q : Nat) : g ((enqueueTask k p).threads q) = g (k.threads q) := by
  unfold enqueueTask
  split
  · rfl
  · split
    · rfl
    · exact modify_field g (f := fun t => { t with onRq := true }) (kept _) q

/-- The thread that `process_create` sets up on `page`. -/
def freshThread (k : Processes) (page : Page) (current : Nat) (kthread : Bool) : Thread :=
  { page.thread with
    pid := (allocPid k.size).2, parent := current, children := [], kthread, state := .unused }

/-- Apart from the children of `current`, a creation sets the thread on `page` only. -/
theorem processCreate_field (g : Thread → α) {page : Page}
    {current : Nat} {kthread : Bool} (kept : ∀ t l, g { t with children := l } = g t) (q : Nat) :
    g ((processCreate k page current kthread).1.threads q) =
      if q = page.addr then g (freshThread k page current kthread) else g (k.threads q) := by
  have shape : (processCreate k page current kthread).1.threads =
      ((k.modify page.addr fun _ => freshThread k page current kthread).modify current
        fun c => { c with children := c.children ++ [page.addr] }).threads := rfl
  rw [shape, modify_field g (kept _ _)]
  split
  · next same => rw [same, modify_self]
  · next other => rw [modify_of_ne other]

theorem processFree_ok {k' : Processes} (done : processFree k p = .ok k') :
    k' = { k with size := killPid k.size, taskQueue := k.taskQueue.erase p }.modify
      (k.threads p).parent fun t => { t with children := t.children.dropLast } := by
  simp only [processFree] at done
  split at done
  · cases done
  · cases done
    rfl

/-! ## Zeroed memory -/

def blankFile : File := ⟨⟨fun _ => 0, .rtc, 0⟩, .file, 0, 0⟩

def blankFiles : Files := ⟨0, 0, fun _ => blankFile⟩

def blankThread : Thread :=
  ⟨.unused, 0, 0, 0, [], none, false, none, 0, false, 0, false⟩

def blankProcesses : Processes :=
  ⟨fun _ => blankThread, [], 0, 0, [], 0, fun _ => ⟨0, 0, 0, 0⟩, 0⟩

end Illinix.Verified.Process
