import Illinix.Kernel.Cfs

/-! # Creating a process

`do_fork` and `do_execute` of `kernel/process.c`, on the fields of a thread that the scheduler uses.
The thread lies at the start of two pages from `alloc_kstack`, which are not cleared: a field that
`process_create`, `process_clone` and `__exec` do not set keeps what the pages held before.  The other
fields of a thread are those of `Kernel/Process`. -/

namespace Illinix.Kernel

/-- The values that `process.h` names are not negative. -/
def Nice.ofNat (value : Nat) (le : value ≤ 19) : Nice := ⟨value, by omega, by omega⟩

/-- `NICE_NORMAL` -/
def niceNormal : Nice := .ofNat 0 (by decide)

/-- `NICE_SHELL` -/
def niceShell : Nice := .ofNat 5 (by decide)

/-- What the pages held before.  `nice` and `state` are set on every path before they are read. -/
structure Stale where
  flag : UInt8
  consoleId : Nat
  sched : Sched

/-- Two pages from `alloc_kstack`. -/
structure KernelStack where
  addr : Nat
  stale : Stale

/-- The thread after `process_create`, with the `nice` of `process_clone` or `__exec`. -/
def createdTask (stale : Stale) (nice : Nice) : Task :=
  { nice, state := .unused, flag := stale.flag, consoleId := stale.consoleId, sched := stale.sched }

namespace Scheduler

/-- `sched_fork(child)` and `activate_task(child)` for a thread at `child`. -/
def start (s : Scheduler) (child : Nat) (task : Task) : Option Scheduler :=
  ((s.modify child fun _ => task).schedFork child).activateTask child

/-- `do_fork`; `copied` says whether `vmcopy` succeeds.  If it does not, `process_free` hands the pages
    back. -/
def doFork (s : Scheduler) (page : KernelStack) (copied : Bool) : Option Scheduler :=
  if copied then s.start page.addr (createdTask page.stale niceNormal) else some s

def doExecute (s : Scheduler) (page : KernelStack) (parent : Nat) : Command → Option Scheduler
  | .unparsed | .unloaded => some s
  | .program shell =>
    s.start page.addr { createdTask page.stale (if shell then niceShell else niceNormal) with
      consoleId := (s.tasks parent).consoleId }

end Scheduler

end Illinix.Kernel
