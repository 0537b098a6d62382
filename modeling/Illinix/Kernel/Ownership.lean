import Illinix.Kernel.Arguments
import Illinix.Lib.Pool

/-! # The memory of a process

The blocks from `kmalloc` that a thread points to and the pages it lies in: `process_create`,
`process_free`, `children_create`, `overflow_children`, `place_children` and their callers in
`kernel/process.c`, `process_vm_init` and the areas of `vmcopy` in `kernel/vm.c`, and `fd_init` and
`fdcopy` in `kernel/vfs.c`.

Each block is labelled with the number of the process it was allocated for and with its use.  The
kernel has no such numbers: they are counted here, as the address of a thread is used again for later
ones.  An array of pointers is the words behind its address, which `kmalloc` does not clear.  The
`mmap` arrays of the areas are not followed, since `process_free` does not look at them. -/

namespace Illinix.Kernel

open Lib Function

/-- `MAXCHILDREN` -/
def maxChildren : Nat := 100

inductive BlockUse where
  | argv
  | argument
  | context
  | files
  | area
  | children
  /-- one of the blocks that `children_create` puts into the slots. -/
  | placeholder
deriving DecidableEq, Repr

structure BlockLabel where
  owner : Nat
  use : BlockUse
deriving DecidableEq, Repr

inductive MemoryFault where
  /-- `NULL` is dereferenced. -/
  | nullDeref
  /-- `children[-1]` -/
  | noChild
  /-- `place_children` of a thread that is its own parent does not end. -/
  | diverges
deriving DecidableEq, Repr

/-- The pointers of a `thread_t`; `mapList` are the areas on `vm.map_list`, and `number` is the number
    of the process. -/
structure Holdings where
  number : Nat
  state : ProState
  parent : Nat
  context : Nat
  fds : Nat
  argv : Nat
  children : Nat
  nChildren : Nat
  maxChildren : Nat
  mapList : List Nat

/-- The blocks are those from `kmalloc`, and the reserved addresses are those from `alloc_kstack`. -/
structure Ownership extends Pool BlockLabel where
  threads : Nat → Holdings
  words : Nat → Nat → Nat
  /-- the number of the next process -/
  begun : Nat
  size : UInt32
  taskQueue : List Nat

/-- Two pages from `alloc_kstack`: their address and what they hold. -/
structure StackPages where
  addr : Nat
  stale : Holdings

namespace Ownership

variable (s : Ownership)

def modify (p : Nat) (f : Holdings → Holdings) : Ownership :=
  { s with threads := update s.threads p (f (s.threads p)) }

/-- `array[i] = w` -/
def store (array i w : Nat) : Ownership :=
  { s with words := update s.words array (update (s.words array) i w) }

/-- `memcpy` of the first `n` words. -/
def copyWords (dest src n : Nat) : Ownership :=
  { s with words := update s.words dest fun i =>
      if i < n then s.words src i else s.words dest i }

def kmalloc (owner : Nat) (use : BlockUse) : Nat × Ownership :=
  let (a, pool) := s.toPool.alloc ⟨owner, use⟩
  (a, { s with toPool := pool })

def kfree (a : Nat) : Ownership := { s with toPool := s.toPool.release a }

def allocKstack (pages : StackPages) : Except MemoryFault Ownership :=
  if pages.addr = 0 ∨ s.InUse pages.addr then
    throw .nullDeref
  else
    pure { s with
      toPool := s.toPool.reserve pages.addr
      threads := update s.threads pages.addr pages.stale }

def freeKstack (p : Nat) : Ownership := { s with toPool := s.toPool.unreserve p }

/-- `for (i = 0; i < n; ++i) array[i] = kmalloc(..)` -/
def fillArray (owner : Nat) (use : BlockUse) (array n : Nat) : Ownership :=
  (List.range n).foldl (fun s i => let (a, s) := s.kmalloc owner use; s.store array i a) s

/-- An array from `kmalloc`, with a block in each slot. -/
def arrayCreate (owner : Nat) (use slotUse : BlockUse) (n : Nat) :
    Except MemoryFault (Nat × Ownership) :=
  let (array, s) := s.kmalloc owner use
  if array = 0 then throw .nullDeref else pure (array, s.fillArray owner slotUse array n)

/-- `for (i = 0; i < n; ++i) kfree(array[i])` -/
def kfreeArray (array n : Nat) : Ownership :=
  (List.range n).foldl (fun s i => s.kfree (s.words array i)) s

/-! ## The children of a thread -/

def childrenCreate (owner : Nat) : Except MemoryFault (Nat × Ownership) :=
  s.arrayCreate owner .children .placeholder Kernel.maxChildren

def overflowChildren (task : Nat) : Except MemoryFault Ownership :=
  let t := s.threads task
  if t.nChildren = t.maxChildren then
    let (children, s) := s.kmalloc t.number .children
    if children = 0 then
      throw .nullDeref
    else
      let s := s.copyWords children t.children t.maxChildren
      let s := s.kfree t.children
      pure (s.modify task fun t => { t with children, maxChildren := t.maxChildren * 2 })
  else
    pure s

/-- `task->children[task->n_children++] = child` -/
def pushChild (task child : Nat) : Except MemoryFault Ownership :=
  let t := s.threads task
  if t.children = 0 then
    throw .nullDeref
  else
    pure ((s.store t.children t.nChildren child).modify task fun t =>
      { t with nChildren := t.nChildren + 1 })

/-- `parent->children[--parent->n_children] = NULL` -/
def popChild (task : Nat) : Except MemoryFault Ownership :=
  let t := s.threads task
  if t.nChildren = 0 then
    throw .noChild
  else if t.children = 0 then
    throw .nullDeref
  else
    pure ((s.store t.children (t.nChildren - 1) 0).modify task fun t =>
      { t with nChildren := t.nChildren - 1 })

/-- `task->children[task->n_children - 1]` -/
def lastChild (task : Nat) : Except MemoryFault Nat :=
  let t := s.threads task
  if t.nChildren = 0 then
    throw .noChild
  else if t.children = 0 then
    throw .nullDeref
  else
    pure (s.words t.children (t.nChildren - 1))

/-- A pass of the loop in `place_children`. -/
def placeChild (task parent : Nat) (i : Nat) : Except MemoryFault Ownership := do
  let s ← s.overflowChildren parent
  let child := s.words (s.threads task).children i
  let s ← s.pushChild parent child
  return s.modify child fun c => { c with parent }

def placeChildren (task : Nat) : Except MemoryFault Ownership :=
  let t := s.threads task
  if t.nChildren ≠ 0 ∧ t.parent = task then
    throw .diverges
  else
    (List.range t.nChildren).foldlM (fun s i => s.placeChild task t.parent i) s

/-! ## Creating and freeing -/

/-- `n` areas from `kmalloc`, linked in this order. -/
def areasCreate (s : Ownership) (owner : Nat) : Nat → Except MemoryFault (List Nat × Ownership)
  | 0 => pure ([], s)
  | n + 1 => do
    let (area, s) := s.kmalloc owner .area
    if area = 0 then
      throw .nullDeref
    else
      let (areas, s) ← areasCreate s owner n
      return (area :: areas, s)

def processVmInit (owner : Nat) : Except MemoryFault (List Nat × Ownership) := s.areasCreate owner 3

/-- `if (!current->children) current->children = children_create()` -/
def childrenInit (current : Nat) : Except MemoryFault Ownership :=
  if (s.threads current).children = 0 then do
    let (children, s) ← s.childrenCreate (s.threads current).number
    return s.modify current fun t => { t with children }
  else
    pure s

/-- `process_create(current, kthread)` for the process `number`. -/
def processCreate (pages : StackPages) (current number : Nat) : Except MemoryFault Ownership := do
  let s := { s with size := (allocPid s.size).1 }
  let s ← s.allocKstack pages
  let t := pages.addr
  let s := s.modify t fun t => { t with number, parent := current }
  let (context, s) := s.kmalloc number .context
  let s := s.modify t fun t => { t with context }
  let s ← s.childrenInit current
  let s ← s.overflowChildren current
  let s ← s.pushChild current t
  let s := s.modify t fun t =>
    { t with children := 0, nChildren := 0, maxChildren := Kernel.maxChildren, state := .unused }
  let (mapList, s) ← s.processVmInit number
  let s := s.modify t fun t => { t with mapList }
  return { s with taskQueue := s.taskQueue ++ [t] }

/-- The blocks that `process_free` gives back. -/
def freeBlocks (current : Nat) : Except MemoryFault Ownership :=
  let t := s.threads current
  let s := (s.kfree t.context).kfree t.fds
  if t.argv = 0 then
    throw .nullDeref
  else
    let s := (s.kfreeArray t.argv maxArgs).kfree t.argv
    if t.children = 0 then pure s else pure ((s.kfreeArray t.children t.maxChildren).kfree t.children)

def processFree (current : Nat) : Except MemoryFault Ownership :=
  if current = 0 then
    pure s
  else do
    let parent := (s.threads current).parent
    let s := { s with size := killPid s.size }
    let s ← s.freeBlocks current
    let s := { s with taskQueue := s.taskQueue.erase current }
    let s := s.freeKstack current
    s.popChild parent

/-! ## Fork, execute and exit -/

/-- The vector of `MAXARGS` pointers to argument buffers. -/
def argvCreate (owner : Nat) : Except MemoryFault (Nat × Ownership) :=
  s.arrayCreate owner .argv .argument maxArgs

/-- The vector that `parse_arg` is given; `junk` is what the argument buffers hold. -/
def argvOf (argv : Nat) (junk : Fin maxArgs → ArgBuffer) : Argv := fun i =>
  if s.words argv i = 0 then none else some (junk i)

/-- The slots that `parse_arg` has set to `NULL`. -/
def setArgs (argv : Nat) (args : Argv) : Ownership :=
  { s with words := update s.words argv fun i =>
      if h : i < maxArgs then if (args ⟨i, h⟩).isNone then 0 else s.words argv i
      else s.words argv i }

def fdInit (p : Nat) : Except MemoryFault Ownership :=
  let (fds, s) := s.kmalloc (s.threads p).number .files
  if fds = 0 then throw .nullDeref else pure (s.modify p fun t => { t with fds })

/-- The next process: its number. -/
def begin : Nat × Ownership := (s.begun, { s with begun := s.begun + 1 })

/-- `__exec` between `parse_arg` and `pro_loader`: the child, with the arguments `args` in the vector
    at `argv`. -/
def execCreate (pages : StackPages) (parent number argv : Nat) (args : Argv) :
    Except MemoryFault (Nat × Ownership) := do
  let s := s.setArgs argv args
  let s ← s.processCreate pages parent number
  let child ← s.lastChild parent
  return (child, s.modify child fun t => { t with argv })

/-- `__exec(parent, cmd, kthread)`; `args` are the arguments when the command can be parsed, and `loaded`
    says whether `pro_loader` succeeds. -/
def exec (pages : StackPages) (parent : Nat) (args : Option Argv) (loaded : Bool) :
    Except MemoryFault Ownership := do
  let (number, s) := s.begin
  let (argv, s) ← s.argvCreate number
  match args with
  | none => return s.kfree argv
  | some args =>
    let (child, s) ← s.execCreate pages parent number argv args
    if loaded then s.fdInit child else s.processFree child

/-- `do_fork`.  `vmcopy` frees the areas of the child and allocates as many as the parent has; it does
    not fail. -/
def doFork (pages : StackPages) (parent : Nat) : Except MemoryFault Ownership := do
  let (number, s) := s.begin
  let s ← s.processCreate pages parent number
  let child ← s.lastChild parent
  let s := (s.threads child).mapList.foldl kfree s
  let (mapList, s) ← s.areasCreate number (max 1 (s.threads parent).mapList.length)
  let s := s.modify child fun t => { t with mapList }
  let (argv, s) ← s.argvCreate number
  return s.modify child fun t => { t with argv, fds := 0 }

/-- `do_exit` -/
def doExit (p : Nat) : Except MemoryFault Ownership := do
  let s ← s.placeChildren p
  return s.modify p fun t => { t with state := .exited }

/-- The child that `sys_execute` frees when it is woken up, and the memory at that time. -/
def executeEndAt (curr : Nat) : Except MemoryFault (Nat × Ownership) := do
  let child ← s.lastChild curr
  return (child, s.modify child fun t => { t with state := .exited })

/-- The end of `sys_execute`. -/
def executeEnd (curr : Nat) : Except MemoryFault Ownership := do
  let (child, s) ← s.executeEndAt curr
  s.processFree child

def fdcopy (curr : Nat) : Except MemoryFault Ownership :=
  if (s.threads curr).fds = 0 then s.fdInit curr else pure s

/-- `do_execv` with `argc` arguments. -/
def doExecv (curr argc : Nat) (loaded : Bool) : Except MemoryFault Ownership :=
  let t := s.threads curr
  if t.argv = 0 then
    throw .nullDeref
  else
    let s := if argc < maxArgs then s.store t.argv argc 0 else s
    if loaded ∧ t.fds ≠ 0 then (s.kfree t.fds).fdInit curr else pure s

end Ownership

/-! ## A command from its text to the loaded program -/

inductive ExecuteFault where
  | memory (fault : MemoryFault)
  | arg (fault : ArgFault)
  | vm (fault : VmFault)

/-- The blocks and the user memory. -/
structure ExecState where
  memory : Ownership
  vm : VmState

/-- What `__exec` finds in memory that is not cleared: the pages, the argument buffers, the bytes around
    the array of `parse_arg` and the array of `pro_loader`. -/
structure Uncleared where
  pages : StackPages
  junk : Fin maxArgs → ArgBuffer
  before : UInt8
  garbage : List UInt8
  header : Nat → UInt8

/-- `do_execute(parent, cmd)` up to the return of `__exec`. -/
def ExecState.doExecute (k : ExecState) (fs : FileSystem) (old : Uncleared) (parent : Nat) (cmd : CString) :
    Except ExecuteFault (ExecState × Int) := do
  let (number, memory) := k.memory.begin
  let (argv, memory) ← (memory.argvCreate number).mapError .memory
  let (args, argc) ← (parseArg cmd old.before old.garbage (memory.argvOf argv old.junk)).mapError .arg
  if argc < 0 then
    return ({ k with memory := memory.kfree argv }, argc)
  else
    let (child, memory) ← (memory.execCreate old.pages parent number argv args).mapError .memory
    match args.string 0 with
    -- the name is read from address 0
    | none => throw (.vm .pageFault)
    | some name =>
      let program : Program :=
        { fs, fname := fun i => name.getD i 0, header := old.header, shell := name = shellName.chars }
      let (vm, errno) ← (execVm program k.vm parent child false).mapError .vm
      if errno < 0 then
        return (⟨← (memory.processFree child).mapError .memory, vm⟩, errno)
      else
        return (⟨← (memory.fdInit child).mapError .memory, vm⟩, 0)

end Illinix.Kernel
