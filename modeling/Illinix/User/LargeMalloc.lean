import Illinix.Kernel.Mmap
import Illinix.User.Malloc

/-! # The allocator on the memory of a process

`malloc` of `lib/stdlib.c` with the system calls of this kernel: `sbrk` is `sys_sbrk` and `mmap` is `sys_mmap`.
`*free_list` and its array are words in the memory of the process like any others, so that an index outside of the
array reads and stores the words around it.  An access to a page that is not mapped is a page fault; the stack, which
would grow, is not where the allocator looks.

`clz0` is what `__builtin_clz(0)` returns, which is not defined. -/

namespace Illinix.User

open Kernel (VmState VmFault sysSbrk sysMmap addrToPte getbit12)

/-- A process that runs, with the variable `free_list`. -/
structure Client where
  vm : VmState
  thread : Nat
  freeList : Nat
  /-- the addresses at which words were stored, the last one first -/
  stores : List Nat

namespace Client

abbrev Call := StateT Client (Except VmFault)

/-! ## Memory and system calls -/

/-- An address on a 32-bit machine. -/
def wrap (a : Int) : Nat := (a % 2 ^ 32).toNat

def loadByte (s : VmState) (addr : Nat) : Except VmFault UInt8 :=
  match s.entry (addrToPte addr) with
  | none => throw .pageFault
  | some e => pure (s.mem (addrToPte e) (getbit12 addr))

/-- The word at an address, with its lowest byte first. -/
def load (addr : Nat) : Call Nat := fun m => do
  let b0 ← loadByte m.vm addr
  let b1 ← loadByte m.vm (wrap (addr + 1))
  let b2 ← loadByte m.vm (wrap (addr + 2))
  let b3 ← loadByte m.vm (wrap (addr + 3))
  return (b0.toNat + b1.toNat * 2 ^ 8 + b2.toNat * 2 ^ 16 + b3.toNat * 2 ^ 24, m)

def storeByte (s : VmState) (addr : Nat) (b : UInt8) : Except VmFault VmState := do
  return { s with toSpace := ← Kernel.Space.store [b] addr s.toSpace }

def store (addr word : Nat) : Call Unit := fun m => do
  let vm ← storeByte m.vm addr (.ofNat word)
  let vm ← storeByte vm (wrap (addr + 1)) (.ofNat (word / 2 ^ 8))
  let vm ← storeByte vm (wrap (addr + 2)) (.ofNat (word / 2 ^ 16))
  let vm ← storeByte vm (wrap (addr + 3)) (.ofNat (word / 2 ^ 24))
  return ((), { m with vm, stores := addr :: m.stores })

def sbrk (increment : Nat) : Call Nat := fun m => do
  let (vm, r) ← sysSbrk m.vm m.thread increment
  return (r, { m with vm })

def mmap (addr size : Nat) : Call Nat := fun m => do
  let (vm, r) ← sysMmap m.vm m.thread addr size
  return (wrap r, { m with vm })

/-! ## The free lists -/

def blockIndex (clz0 : Int) (x : Nat) : Int :=
  if x ≤ 8 then 5
  else if (x + 7) % 2 ^ 32 = 0 then 32 - clz0
  else 32 - builtinClz ((x + 7) % 2 ^ 32)

/-- `1 << n`; the processor takes the count modulo 32. -/
def shl1 (n : Int) : Nat := 2 ^ (n % 32).toNat

def setFlag (ptr : Nat) : Call Unit := do store ptr ((← load ptr) ||| 2 ^ lastBit)

/-- `&free_list->heap` -/
def heapField (m : Client) : Nat := m.freeList

/-- `&free_list->index` -/
def indexField (m : Client) : Nat := wrap (m.freeList + 4)

/-- `&free_list->size_usable` -/
def sizeField (m : Client) : Nat := wrap (m.freeList + 8)

/-- `&free_list->index[idx]` -/
def slot (idx : Int) : Call Nat := do
  return wrap ((← load (indexField (← get))) + idx * sizeofSize)

def add (idx : Int) (ptr : Nat) : Call Unit := do
  store ptr (← load (← slot idx))
  store (← slot idx) ptr

def drop (idx : Int) : Call Nat := do
  let ptr ← load (← slot idx)
  let next ← load ptr
  store (← slot idx) next
  return ptr

/-- `memset(s, 0, n * sizeof(void *))` -/
def clearWords (s : Nat) : Nat → Call Unit
  | 0 => pure ()
  | n + 1 => do
    clearWords s n
    store (wrap (s + n * sizeofSize)) 0

def setUpFreeList : Call Unit := do
  let heap ← sbrk chunkSize
  modify fun m => { m with freeList := heap }
  let heap := wrap (heap + sizeofList)
  store (indexField (← get)) heap
  let heap := wrap (heap + len * sizeofSize)
  store (heapField (← get)) (wrap (heap + 40))
  clearWords (← load (indexField (← get))) len
  store (sizeField (← get)) (chunkSize - 128)

/-! ## Allocation -/

def bulkAlloc (size : Nat) : Call Nat := do
  let mapping ← mmap 0 size
  return if mapping = wrap (-1) then 0 else mapping

/-- The rest of the chunk becomes a free block. -/
def listRest (clz0 : Int) (rest : Nat) : Call Unit := do
  let index := blockIndex clz0 (wrap (rest - 8))
  let size := shl1 index
  if size ≥ 32 then
    let p ← load (heapField (← get))
    store p size
    add index (wrap (p + sizeofSize))
  else
    pure ()

/-- `if (chunk_size < size)` in `allocate` -/
def refill (clz0 : Int) (rest size : Nat) : Call Unit := do
  if rest < size then
    listRest clz0 rest
    let heap ← sbrk chunkSize
    store (heapField (← get)) heap
    store (sizeField (← get)) chunkSize
  else
    pure ()

/-- The branch of `allocate` for a block of its own. -/
def bulkBlock (size : Nat) : Call Nat := do
  let ptr ← bulkAlloc (wrap (size + sizeofSize))
  store ptr (wrap (size + sizeofSize))
  setFlag ptr
  return wrap (ptr + sizeofSize)

/-- The front of what is left of the chunk. -/
def cutChunk (size : Nat) : Call Nat := do
  let heap ← load (heapField (← get))
  let ptr := wrap (heap + sizeofSize)
  store (heapField (← get)) (wrap (heap + size))
  let usable ← load (sizeField (← get))
  store (sizeField (← get)) (wrap (usable - size))
  return ptr

/-- `if (free_list->index[idx] != NULL)` in `allocate` -/
def takeBlock (idx : Int) (size : Nat) : Call Nat := do
  let head ← load (← slot idx)
  if head ≠ 0 then drop idx else cutChunk size

/-- The branch of `allocate` for a block of a chunk. -/
def poolBlock (idx : Int) (size : Nat) : Call Nat := do
  let ptr ← takeBlock idx size
  store (wrap (ptr - sizeofSize)) size
  setFlag (wrap (ptr - sizeofSize))
  return ptr

def setUp : Call Unit := do
  if (← get).freeList = 0 then setUpFreeList else pure ()

def allocate (clz0 : Int) (size : Nat) : Call Nat := do
  if size = 0 then
    return 0
  else
    setUp
    let block := blockIndex clz0 size
    let rest ← load (sizeField (← get))
    let size := shl1 block
    refill clz0 rest size
    if block > stop then bulkBlock size else poolBlock (block - start) size

def malloc : Int → Nat → Call Nat := allocate

end Client

end Illinix.User
