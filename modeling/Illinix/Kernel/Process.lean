import Illinix.Kernel.Vfs

/-! # Processes and consoles

`kernel/process.c`, `kernel/pid.c` and the part of `kernel/cfs.c` that moves threads between
states.  A `thread_t` is named by the address of its kernel stack; the memory of all of them
is one table, so that a recycled page keeps the fields that `process_create` does not set.

The run queue is the list of the threads in the red-black tree.  Which of them
`pick_next_task` takes is an argument of `schedule`.  Virtual memory, argument vectors and
the blocks a thread owns are left to their own models; `children[0 .. n_children)` is a list,
and an access to `children[-1]` is a `ProcessFault`. -/

namespace Illinix.Kernel

/-- `pro_state` -/
inductive ProState where
  | unused
  | running
  | runnable
  | sleeping
  | exited
  | zombie
deriving DecidableEq, Repr

/-- `thread_t`; `onRq` is `sched_info.on_rq`, `eax` is `context->eax`, and `shell` says whether
    `argv[0]` is the name of the shell. -/
structure Thread where
  state : ProState
  flag : UInt8
  pid : UInt32
  parent : Nat
  children : List Nat
  fds : Option Files
  kthread : Bool
  terminal : Option Nat
  consoleId : Nat
  onRq : Bool
  eax : UInt32
  shell : Bool

/-- `console_t`; `vidmap` is the address that `do_vidmap` hands out. -/
structure Console where
  id : Nat
  fkey : UInt32
  task : Nat
  vidmap : Nat

structure Processes where
  threads : Nat → Thread
  /-- `task_queue` -/
  taskQueue : List Nat
  /-- the counter `size` of `pid.c` -/
  size : UInt32
  ntask : UInt32
  /-- the threads in `rq->rb_tree` -/
  rq : List Nat
  /-- the thread whose kernel stack is in use, which `GETPRO` finds -/
  running : Nat
  consoles : Nat → Console
  /-- `current` points to `consoles[current]` -/
  current : Nat

inductive ProcessFault where
  /-- `children[n_children - 1]` of a thread without children. -/
  | noChild
  /-- the thread is not in the run queue, so it cannot be the next one. -/
  | notQueued
deriving DecidableEq, Repr

def Processes.modify (k : Processes) (p : Nat) (f : Thread → Thread) : Processes :=
  { k with threads := Function.update k.threads p (f (k.threads p)) }

def Processes.setTask (k : Processes) (c : Nat) (p : Nat) : Processes :=
  { k with consoles := Function.update k.consoles c { k.consoles c with task := p } }

/-- `current->task` -/
def Processes.foreground (k : Processes) : Nat := (k.consoles k.current).task

/-! ## Process ids -/

/-- `BITMAP_SIZE` -/
def bitmapSize : UInt32 := 0x1000

/-- `EAGAIN` -/
def eagain : UInt32 := 11

def pidmapInit : UInt32 := 2

def allocPid (size : UInt32) : UInt32 × UInt32 :=
  if size < bitmapSize then (size + 1, size) else (size, -eagain)

def killPid (size : UInt32) : UInt32 := if 2 < size then size - 1 else size

/-! ## The run queue -/

/-- `enqueue_task`: the current thread is not put into the tree. -/
def enqueueTask (k : Processes) (p : Nat) : Processes :=
  if (k.threads p).onRq then
    k
  else if k.running = p then
    k
  else
    { k.modify p fun t => { t with onRq := true } with rq := k.rq ++ [p] }

def schedFork (k : Processes) (p : Nat) : Processes :=
  k.modify p fun t => { t with state := .runnable }

def activateTask (k : Processes) (p : Nat) : Processes := enqueueTask k p

/-- `put_prev_task` -/
def putPrevTask (k : Processes) (prev : Nat) : Processes :=
  if (k.threads prev).onRq then { k with rq := k.rq ++ [prev] } else k

/-- The part of `__schedule` after `pick_next_task`. -/
def switchTo (k : Processes) (curr next : Nat) : Processes :=
  if curr = next then
    k
  else
    let k := k.modify curr fun t =>
      if t.state = .running then { t with state := .runnable } else t
    let k := k.modify next fun t => { t with state := .running }
    let k :=
      if (k.threads curr).consoleId = (k.threads next).consoleId then
        k.setTask k.current next
      else
        k
    { k with running := next }

/-- `__schedule(curr)` with `next` the thread at `left_most`.  On an empty queue `swapper`
    halts the CPU and the call waits. -/
def schedule (k : Processes) (curr next : Nat) : Except ProcessFault Processes :=
  if k.rq = [] then
    pure k
  else
    let k := putPrevTask k curr
    if next ∈ k.rq then
      pure (switchTo { k with rq := k.rq.erase next } curr next)
    else
      throw .notQueued

/-- `sched_wakeup(from, task)` up to its call of `__schedule(from)`. -/
def schedWakeup (k : Processes) (task : Nat) : Processes :=
  let k := k.modify task fun t => { t with flag := 2 }
  if task = k.foreground then
    enqueueTask (k.modify task fun t => { t with state := .runnable }) task
  else
    k

/-- `sched_exit(child, parent)` up to its call of `__schedule(child)`. -/
def schedExit (k : Processes) (child parent : Nat) : Processes :=
  schedWakeup (k.modify child fun t => { t with onRq := false, state := .exited }) parent

/-- `sched_sleep(task)` up to its call of `__schedule(task)`. -/
def schedSleep (k : Processes) (task : Nat) : Processes :=
  k.modify task fun t => { t with onRq := false, state := .sleeping }

/-! ## Creating and freeing -/

/-- A page from `alloc_kstack`: its address and what it holds. -/
structure Page where
  addr : Nat
  thread : Thread

/-- `process_create(current, kthread)`.  `pid_t` is unsigned, so the test for a negative
    value of `alloc_pid` never succeeds. -/
def processCreate (k : Processes) (page : Page) (current : Nat) (kthread : Bool) :
    Processes × Int :=
  let (size, pid) := allocPid k.size
  let k := { k with size }
  let t : Thread :=
    { page.thread with pid, parent := current, children := [], kthread, state := .unused }
  let k := k.modify page.addr fun _ => t
  let k := k.modify current fun c => { c with children := c.children ++ [page.addr] }
  ({ k with taskQueue := k.taskQueue ++ [page.addr] }, 0)

def processFree (k : Processes) (p : Nat) : Except ProcessFault Processes :=
  let parent := (k.threads p).parent
  if (k.threads parent).children = [] then
    throw .noChild
  else
    let k := { k with size := killPid k.size, taskQueue := k.taskQueue.erase p }
    pure (k.modify parent fun t => { t with children := t.children.dropLast })

/-- `children[n_children - 1]` -/
def lastChild (k : Processes) (p : Nat) : Except ProcessFault Nat :=
  match (k.threads p).children.getLast? with
  | some child => pure child
  | none => throw .noChild

/-! ## Fork, execute and exit -/

/-- `process_clone` on the fields kept here. -/
def processClone (k : Processes) (parent child : Nat) : Processes :=
  k.modify child fun t => { t with shell := (k.threads parent).shell, fds := none }

def doFork (k : Processes) (page : Page) (parent : Nat) : Except ProcessFault (Processes × UInt32) := do
  let (k, _) := processCreate k page parent false
  let child ← lastChild k parent
  let k := processClone k parent child
  let k := k.modify child fun t => { t with terminal := (k.threads parent).terminal }
  let k := activateTask (schedFork k child) child
  let k := { k with ntask := k.ntask + 1 }
  let k := k.modify child fun t => { t with eax := 0 }
  return (k, (k.threads child).pid)

/-- How `__exec` fares with a command: `parse_arg` rejects it, `pro_loader` rejects the
    program, or it is loaded.  `shell` tells whether it is the shell. -/
inductive Command where
  | unparsed
  | unloaded
  | program (shell : Bool)
deriving DecidableEq, Repr

/-- `__exec(parent, cmd, kthread)`; `fds` is the table that `fd_init` builds. -/
def exec (k : Processes) (page : Page) (fds : Files) (parent : Nat) (cmd : Command) (kthread : Bool) :
    Except ProcessFault (Processes × Int) :=
  match cmd with
  | .unparsed => pure (k, -1)
  | .unloaded => do
    let (k, _) := processCreate k page parent kthread
    let child ← lastChild k parent
    return (← processFree k child, -1)
  | .program shell => do
    let (k, _) := processCreate k page parent kthread
    let child ← lastChild k parent
    let k := k.modify child fun t => { t with shell, fds := some fds }
    return ({ k with ntask := k.ntask + 1 }, 0)

def doExecute (k : Processes) (page : Page) (fds : Files) (parent : Nat) (cmd : Command) :
    Except ProcessFault (Processes × Int) := do
  let (k, errno) ← exec k page fds parent cmd false
  if errno < 0 then
    return (k, errno)
  else
    let child ← lastChild k parent
    let k := k.modify child fun t =>
      { t with terminal := (k.threads parent).terminal, consoleId := (k.threads parent).consoleId }
    return (activateTask (schedFork k child) child, 0)

/-- `sys_execute` up to the call of `__schedule` in `sched_sleep`. -/
def executeBegin (k : Processes) (page : Page) (fds : Files) (curr : Nat) (cmd : Command) :
    Except ProcessFault (Processes × Int) := do
  let (k, status) ← doExecute k page fds curr cmd
  if status < 0 then
    return (k, status)
  else
    let child ← lastChild k curr
    let k := k.setTask (k.threads child).consoleId child
    return (schedSleep k curr, 0)

/-- `sys_execute` after `sched_sleep` has returned: the value returned to the user and the
    process that was freed. -/
def executeEnd (k : Processes) (curr : Nat) : Except ProcessFault (Processes × UInt32 × Nat) := do
  let child ← lastChild k curr
  let k := k.modify child fun t => { t with state := .exited }
  let k ← processFree k child
  return (k, (k.threads curr).eax, child)

def placeChildren (k : Processes) (task : Nat) : Processes :=
  let parent := (k.threads task).parent
  (k.threads task).children.foldl
    (fun k child =>
      let k := k.modify parent fun t => { t with children := t.children ++ [child] }
      k.modify child fun t => { t with parent })
    k

/-- `do_exit(status)` up to the call of `__schedule`; `none` when a shell of the kernel is
    started again in user mode. -/
def doExit (k : Processes) (child : Nat) (status : UInt32) : Option Processes :=
  if (k.threads child).kthread ∧ (k.threads child).shell then
    none
  else
    let parent := (k.threads child).parent
    let k := placeChildren k child
    let k := { k with ntask := k.ntask - 1 }
    let k := k.modify parent fun t => { t with eax := status }
    let k := k.setTask (k.threads parent).consoleId parent
    some (schedExit k child parent)

/-! ## Descriptor tables -/

/-- `fdcopy`; `none` when the parent has no table, and the bytes at address 0 are copied. -/
def fdcopy (k : Processes) (curr : Nat) : Option Processes :=
  match (k.threads curr).fds, (k.threads (k.threads curr).parent).fds with
  | some _, _ => some k
  | none, some fds => some (k.modify curr fun t => { t with fds := some fds })
  | none, none => none

/-- `sys_open`, `sys_close`, `sys_read` and `sys_write`. -/
def sysCall (fs : FileSystem) (k : Processes) (curr : Nat) (call : FileCall) :
    Except Fault (Processes × Int) :=
  match fdcopy k curr with
  | none => throw .nullDeref
  | some k =>
    match (k.threads curr).fds with
    | none => throw .nullDeref
    | some t => do
      let (t, r) ← doCall fs t call
      return (k.modify curr fun thread => { thread with fds := some t }, r)

end Illinix.Kernel
