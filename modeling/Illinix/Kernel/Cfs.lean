import Illinix.Kernel.Process
import Illinix.Kernel.RbTree

/-! # The scheduler

`kernel/cfs.c` and `do_timer` of `drivers/time.c`.  A task is named by the address of its
`thread_t`, and its node in the red-black tree by the same address.  `rq->nr_running` counts
tasks at different addresses and is a natural number.

`pick_next_task` does not return when the queue is empty: `swapper` halts the processor until
the next interrupt, over and over.  The events that follow are those of the interrupt handlers,
so the state it halts in is a state like any other. -/

namespace Illinix.Kernel

open Lib (Side Color)

/-- `weight_t` -/
structure Weight where
  weight : UInt32
  invWeight : UInt32
deriving DecidableEq, Repr

/-- `sched_t`, without the node -/
structure Sched where
  load : Weight
  vruntime : UInt64
  execStart : UInt64
  sumExecTime : UInt64
  prevSumExecTime : UInt64
  onRq : Bool

/-- The nice values that the tables cover. -/
structure Nice where
  value : Int
  ge : -20 ≤ value
  le : value ≤ 19

/-- The part of `thread_t` that the scheduler uses. -/
structure Task where
  nice : Nice
  state : ProState
  flag : UInt8
  consoleId : Nat
  sched : Sched

/-- `rq`, and the memory of the threads -/
structure Scheduler where
  load : Weight
  nrRunning : Nat
  minVruntime : UInt64
  clock : UInt64
  rbTree : RbTree
  leftMost : Option Nat
  current : Option Nat
  tasks : Nat → Task
  /-- `current->task`, the task of the console on the screen -/
  front : Nat
  /-- The tasks that were put into the tree, the last one first.  No function reads it. -/
  history : List Nat

/-! ## Arithmetic -/

def targetLatency : UInt64 := 5000000
/-- `TARGET_LATENCY / WAKEUP_GRANULARITY` -/
def nrLatency : Nat := 5
def nice0Load : UInt32 := 1024
def minGranularity : UInt64 := 1000000
def wmultShift : Nat := 32
def tickunit : UInt64 := 1000000
def needResched : UInt8 := 1
def wakeupFlag : UInt8 := 2

def schedPrioToWeight : Vector UInt32 40 := #v[
  88761, 71755, 56483, 46273, 36291,
  29154, 23254, 18705, 14949, 11916,
  9548, 7620, 6100, 4904, 3906,
  3121, 2501, 1991, 1586, 1277,
  1024, 820, 655, 526, 423,
  335, 272, 215, 172, 137,
  110, 87, 70, 56, 45,
  36, 29, 23, 18, 15]

def schedPrioToWmult : Vector UInt32 40 := #v[
  48388, 59856, 76040, 92818, 118348,
  147320, 184698, 229616, 287308, 360437,
  449829, 563644, 704093, 875809, 1099582,
  1376151, 1717300, 2157191, 2708050, 3363326,
  4194304, 5237765, 6557202, 8165337, 10153587,
  12820798, 15790321, 19976592, 24970740, 31350126,
  39045157, 49367440, 61356676, 76695844, 95443717,
  119304647, 148102320, 186737708, 238609294, 286331153]

def niceToIndex (nice : Nice) : Fin 40 :=
  ⟨(nice.value + 20).toNat, by have := nice.ge; have := nice.le; omega⟩

/-- The load that `set_load_weight` stores. -/
def loadWeight (nice : Nice) : Weight :=
  ⟨schedPrioToWeight.get (niceToIndex nice), schedPrioToWmult.get (niceToIndex nice)⟩

def addLoad (source target : Weight) : Weight :=
  ⟨target.weight + source.weight, target.invWeight + source.invWeight⟩

def maxVruntime (minVruntime vruntime : UInt64) : UInt64 :=
  if 0 < (vruntime - minVruntime).toInt64 then vruntime else minVruntime

def minVruntime (minVruntime vruntime : UInt64) : UInt64 :=
  if (vruntime - minVruntime).toInt64 < 0 then vruntime else minVruntime

/-- `while (fact >> 32) { fact >>= 1; shift--; }`; 32 turns are enough for 64 bits. -/
def shrink : Nat → UInt64 → Nat → UInt64 × Nat
  | 0, fact, shift => (fact, shift)
  | n + 1, fact, shift =>
    if fact >>> 32 ≠ 0 then shrink n (fact >>> 1) (shift - 1) else (fact, shift)

/-- `mul_u64_u32_shr` -/
def mulU64U32Shr (a : UInt64) (mul : UInt32) (shift : Nat) : UInt64 :=
  let al := a.toUInt32
  let ah := (a >>> 32).toUInt32
  let ret := (al.toUInt64 * mul.toUInt64) >>> UInt64.ofNat shift
  if ah ≠ 0 then ret + (ah.toUInt64 * mul.toUInt64) <<< UInt64.ofNat (32 - shift) else ret

/-- `__calc_delta_vruntime` -/
def calcDelta (delta : UInt64) (weight : UInt32) (load : Weight) : UInt64 :=
  let (fact, shift) := shrink 32 weight.toUInt64 wmultShift
  let fact := fact.toUInt32.toUInt64 * load.invWeight.toUInt64
  let (fact, shift) := shrink 32 fact shift
  mulU64U32Shr delta fact.toUInt32 shift

/-- `calc_delta_vruntime` -/
def calcDeltaVruntime (delta : UInt64) (load : Weight) : UInt64 :=
  if load.weight ≠ nice0Load then calcDelta delta nice0Load load else delta

def schedPeriod (nrRunning : Nat) : UInt64 :=
  if nrRunning > nrLatency then minGranularity * UInt64.ofNat nrRunning else targetLatency

namespace Scheduler

def sched (s : Scheduler) (t : Nat) : Sched := (s.tasks t).sched

def modify (s : Scheduler) (t : Nat) (f : Task → Task) : Scheduler :=
  { s with tasks := Function.update s.tasks t (f (s.tasks t)) }

def modifySched (s : Scheduler) (t : Nat) (f : Sched → Sched) : Scheduler :=
  s.modify t fun task => { task with sched := f task.sched }

def setState (s : Scheduler) (t : Nat) (state : ProState) : Scheduler :=
  s.modify t fun task => { task with state := state }

def setFlag (s : Scheduler) (t : Nat) (flag : UInt8) : Scheduler :=
  s.modify t fun task => { task with flag := flag }

/-! ## Virtual time -/

def timeslice (s : Scheduler) (t : Nat) : UInt64 :=
  let slice := schedPeriod (s.nrRunning + if (s.sched t).onRq then 0 else 1)
  let load := if (s.sched t).onRq then s.load else addLoad (s.sched t).load s.load
  calcDelta slice (s.sched t).load.weight load

def vtimeslice (s : Scheduler) (t : Nat) : UInt64 :=
  calcDeltaVruntime (s.timeslice t) (s.sched t).load

def updateMinVruntime (s : Scheduler) : Scheduler :=
  let vruntime :=
    match s.current, s.leftMost with
    | none, none => s.minVruntime
    | some curr, none => (s.sched curr).vruntime
    | none, some left => (s.sched left).vruntime
    | some curr, some left => Kernel.minVruntime (s.sched curr).vruntime (s.sched left).vruntime
  { s with minVruntime := maxVruntime s.minVruntime vruntime }

/-- What `update_curr` does to the current task when `delta` has passed. -/
def charge (now delta : UInt64) (e : Sched) : Sched :=
  { e with
    sumExecTime := e.sumExecTime + delta
    execStart := now
    vruntime := e.vruntime + calcDeltaVruntime delta e.load }

def updateCurr (s : Scheduler) : Scheduler :=
  match s.current with
  | none => s
  | some curr =>
    let delta := s.clock - (s.sched curr).execStart
    if delta.toInt64 ≤ 0 then s
    else (s.modifySched curr (charge s.clock delta)).updateMinVruntime

def placeEntity (s : Scheduler) (t : Nat) (newTask : Bool) : Scheduler :=
  let vruntime :=
    if newTask then s.minVruntime + s.vtimeslice t else s.minVruntime - (targetLatency >>> 1)
  s.modifySched t fun e => { e with vruntime := maxVruntime e.vruntime vruntime }

/-! ## The queue -/

/-- The loop of `__enqueue_entity` that looks for the place of a key. -/
def findLink (s : Scheduler) (key : UInt64) : Nat → RbTree.Link → Bool → Option (RbTree.Link × Bool)
  | 0, _, _ => none
  | fuel + 1, link, leftMost =>
    match s.rbTree.follow link with
    | none => some (link, leftMost)
    | some parent =>
      if key < (s.sched parent).vruntime then s.findLink key fuel (.child parent .left) leftMost
      else s.findLink key fuel (.child parent .right) false

/-- `__enqueue_entity` -/
def treeEnqueue (s : Scheduler) (t : Nat) : Option Scheduler := do
  let (link, leftMost) ← s.findLink (s.sched t).vruntime (s.nrRunning + 1) .root true
  let s := if leftMost then { s with leftMost := some t } else s
  let rbTree ← (s.rbTree.linkNode t link).insertColor (s.nrRunning + 1) t
  let s := { s with rbTree := rbTree, nrRunning := s.nrRunning + 1, history := t :: s.history }
  return s.modifySched t fun e => { e with onRq := true }

/-- `__dequeue_entity` -/
def treeDequeue (s : Scheduler) (t : Nat) : Option Scheduler := do
  let leftMost ←
    if s.leftMost = some t then s.rbTree.next (s.nrRunning + 1) t else pure s.leftMost
  let rbTree ← s.rbTree.erase (s.nrRunning + 1) t
  return { s with leftMost := leftMost, rbTree := rbTree, nrRunning := s.nrRunning - 1 }

def enqueueEntity (s : Scheduler) (t : Nat) (wakeup : Bool) : Option Scheduler :=
  let s := s.updateCurr
  let s := { s with load := addLoad (s.sched t).load s.load }
  let s := if wakeup then s.placeEntity t false else s
  if s.current ≠ some t then s.treeEnqueue t else some s

def enqueueTask (s : Scheduler) (t : Nat) (wakeup : Bool) : Option Scheduler :=
  if (s.sched t).onRq then some s else s.enqueueEntity t wakeup

def putPrevTask (s : Scheduler) (prev : Nat) : Option Scheduler := do
  let s ← if (s.sched prev).onRq then s.updateCurr.treeEnqueue prev else pure s
  return { s with current := none }

/-- The next task; there is none when `swapper` halts. -/
def pickNextTask (s : Scheduler) (curr : Nat) : Option (Option Nat × Scheduler) :=
  if s.nrRunning = 0 then some (none, s)
  else do
    let s ← s.putPrevTask curr
    let next ← s.leftMost
    let s ← s.treeDequeue next
    let s := { s with current := some next }
    let s := s.modifySched next fun e =>
      { e with execStart := s.clock, prevSumExecTime := e.sumExecTime }
    return (some next, s)

/-- The part of `__schedule` that leaves `curr` for `next`. -/
def switchTo (s : Scheduler) (curr next : Nat) : Scheduler :=
  let s := if (s.tasks curr).state = .running then s.setState curr .runnable else s
  let s : Scheduler := { s.setState next .running with current := some next }
  if (s.tasks curr).consoleId = (s.tasks next).consoleId then { s with front := next } else s

/-- `__schedule` -/
def scheduleFrom (s : Scheduler) (curr : Nat) : Option Scheduler :=
  match s.pickNextTask curr with
  | none => none
  | some (none, s) => some s
  | some (some next, s) => if curr = next then some s else some (s.switchTo curr next)

/-! ## Entry points -/

def schedFork (s : Scheduler) (t : Nat) : Scheduler :=
  let s := s.modifySched t fun e => { e with load := loadWeight (s.tasks t).nice }
  let s :=
    match s.current with
    | none => s
    | some curr =>
      let s := s.updateCurr
      s.modifySched t fun e => { e with vruntime := (s.sched curr).vruntime }
  (s.placeEntity t true).setState t .runnable

def activateTask (s : Scheduler) (t : Nat) : Option Scheduler := s.enqueueTask t false

/-- `schedule` -/
def schedule (s : Scheduler) (curr : Nat) : Option Scheduler := (s.setFlag curr 0).scheduleFrom curr

def schedWakeup (s : Scheduler) (source t : Nat) : Option Scheduler := do
  let s := s.setFlag t wakeupFlag
  let s ← if t = s.front then (s.setState t .runnable).enqueueTask t true else pure s
  s.scheduleFrom source

def schedExit (s : Scheduler) (child parent : Nat) : Option Scheduler :=
  let s := s.modifySched child fun e => { e with onRq := false }
  (s.setState child .exited).schedWakeup child parent

def schedSleep (s : Scheduler) (t : Nat) : Option Scheduler :=
  let s := s.modifySched t fun e => { e with onRq := false }
  (s.setState t .sleeping).scheduleFrom t

/-- `check_preempt_tick`; the test `delta < 0` of an unsigned number never holds. -/
def checkPreemptTick (s : Scheduler) (t : Nat) : Bool :=
  let ideal := s.timeslice t
  let delta := (s.sched t).sumExecTime - (s.sched t).prevSumExecTime
  if delta > ideal then true
  else if delta < minGranularity then false
  else decide ((s.sched t).vruntime - s.minVruntime > ideal)

def taskTick (s : Scheduler) (t : Nat) : Scheduler :=
  let s := s.updateCurr
  if s.nrRunning ≠ 0 ∧ s.checkPreemptTick t then s.setFlag t needResched else s

/-- `do_timer`, on the kernel stack of the current task -/
def doTimer (s : Scheduler) (curr : Nat) : Option Scheduler :=
  let s := { s with clock := s.clock + tickunit }.taskTick curr
  if (s.tasks curr).flag = needResched then s.schedule curr else some s

end Scheduler

/-! ## Events -/

inductive SchedEvent where
  /-- `sched_fork` and `activate_task` of a new task -/
  | fork (task : Nat)
  /-- `enqueue_task` of a task that wakes up -/
  | wakeup (task : Nat)
  /-- the clock goes on and `task_tick` sees it -/
  | tick (delta : UInt64)
  /-- `do_timer` -/
  | timer
  /-- `schedule` -/
  | preempt
  /-- `sched_sleep` of the current task -/
  | sleep
  /-- `sched_exit` of the current task -/
  | exit (parent : Nat)
  /-- another task comes to the front of the console -/
  | front (task : Nat)
deriving DecidableEq, Repr

/-- The current task is the one whose kernel stack is in use. -/
def Scheduler.exec (s : Scheduler) : SchedEvent → Option Scheduler
  | .fork t => (s.schedFork t).activateTask t
  | .wakeup t => (s.setState t .runnable).enqueueTask t true
  | .tick delta =>
    let s := { s with clock := s.clock + delta }
    match s.current with
    | none => some s
    | some curr => some (s.taskTick curr)
  | .timer => s.current.bind s.doTimer
  | .preempt => s.current.bind s.schedule
  | .sleep => s.current.bind s.schedSleep
  | .exit parent => s.current.bind fun curr => s.schedExit curr parent
  | .front t => some { s with front := t }

end Illinix.Kernel
