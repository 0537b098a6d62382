import Illinix.Kernel.Buddy
import Illinix.Lib.WordMemory

/-! # The user library's allocator

`malloc`, `free` and `realloc` of `lib/stdlib.c` on a 32-bit machine.  Blocks of `2 ^ 5` to `2 ^ 12` bytes
are cut from chunks that `sbrk` returns, one after the other; larger requests go to `mmap`.  A
block starts with its size, and the pointer handed out is four bytes behind.

The fields of `*free_list` are kept apart from the words of the blocks.  The array `index` has
eight entries, and the 40 bytes behind it belong to no block, so that an index up to 17 names a
word of its own.

The allocator stores words at multiples of 4; the bytes of the user are those of the words. -/

namespace Illinix.User

open Kernel (sub32)
open Lib Function

/-- `START` -/
def start : Nat := 5

/-- `END` -/
def stop : Nat := 12

/-- `LEN` -/
def len : Nat := 8

/-- `LAST_BIT` -/
def lastBit : Nat := 31

/-- `CHUNK_SIZE` -/
def chunkSize : Nat := 4096

/-- `sizeof(size_t)`, also that of a pointer. -/
def sizeofSize : Nat := 4

/-- `sizeof(List)` -/
def sizeofList : Nat := 12

structure Heap where
  /-- the address of the structure, or `NULL` -/
  freeList : Nat
  heap : Nat
  index : Nat → Nat
  sizeUsable : Nat
  /-- the words at the addresses of the heap -/
  mem : Nat → Nat
  /-- the address that `sbrk` returns next -/
  brk : Nat
  /-- the addresses that `mmap` returns -/
  maps : List Nat
  /-- the arguments of the calls of `munmap` -/
  munmaps : List (Nat × Nat)

def Heap.store (s : Heap) (addr word : Nat) : Heap := { s with mem := update s.mem addr word }

/-- `sbrk(CHUNK_SIZE)` -/
def sbrk (s : Heap) : Nat × Heap := (s.brk, { s with brk := s.brk + chunkSize })

/-- `1 << n`; the processor takes the count modulo 32. -/
def shl1 (n : Nat) : Nat := 2 ^ (n % 32)

/-- `__builtin_clz` of a number that is not 0. -/
def builtinClz (x : Nat) : Nat := 31 - Nat.log2 x

def blockIndex (x : Nat) : Nat :=
  if x ≤ 8 then 5 else 32 - builtinClz ((x + 7) % 2 ^ 32)

def add (s : Heap) (idx ptr : Nat) : Heap :=
  let s := s.store ptr (s.index idx)
  { s with index := update s.index idx ptr }

def drop (s : Heap) (idx : Nat) : Heap × Nat :=
  let ptr := s.index idx
  ({ s with index := update s.index idx (s.mem ptr) }, ptr)

def setFlag (s : Heap) (ptr : Nat) : Heap := s.store ptr (s.mem ptr ||| 2 ^ lastBit)

def clearFlag (s : Heap) (ptr : Nat) : Heap := s.store ptr (s.mem ptr % 2 ^ lastBit)

def checkFlag (s : Heap) (ptr : Nat) : Bool := (s.mem ptr).testBit lastBit

def setUpFreeList (s : Heap) : Heap :=
  let (heap, s) := sbrk s
  let index := heap + sizeofList
  { s with
    freeList := heap
    heap := index + len * sizeofSize + 40
    -- `memset` clears the array only
    index := fun i => if i < len then 0 else s.mem (index + i * sizeofSize)
    sizeUsable := chunkSize - 128 }

/-- The rest of a chunk as a free block, with its size rounded up; the list is that of the index
    itself, not of its distance from `START`. -/
def listRest (s : Heap) : Heap :=
  let index := blockIndex (sub32 s.sizeUsable 8)
  let rest := shl1 index
  if 32 ≤ rest then add (s.store s.heap rest) index (s.heap + sizeofSize) else s

def newChunk (s : Heap) : Heap :=
  let (heap, s) := sbrk s
  { s with heap, sizeUsable := chunkSize }

/-- `if (chunk_size < size)` in `allocate`. -/
def refill (s : Heap) (size : Nat) : Heap :=
  if s.sizeUsable < size then newChunk (listRest s) else s

/-- The branch of `allocate` for a block of a chunk. -/
def poolAlloc (s : Heap) (idx size : Nat) : Heap × Nat :=
  let (s, ptr) :=
    if s.index idx ≠ 0 then
      drop s idx
    else
      ({ s with heap := s.heap + size, sizeUsable := sub32 s.sizeUsable size }, s.heap + sizeofSize)
  (setFlag (s.store (ptr - sizeofSize) size) (ptr - sizeofSize), ptr)

/-- `none` when `mmap` fails, since the size is then stored at `NULL`. -/
def bulkAlloc (s : Heap) (size : Nat) : Option (Heap × Nat) :=
  match s.maps with
  | [] => none
  | ptr :: maps =>
    let s := { s with maps }
    some (setFlag (s.store ptr size) ptr, ptr + sizeofSize)

def allocate (s : Heap) (size : Nat) : Option (Heap × Nat) :=
  if size = 0 then
    some (s, 0)
  else
    let s := if s.freeList = 0 then setUpFreeList s else s
    let block := blockIndex size
    let size := shl1 block
    let s := refill s size
    if stop < block then bulkAlloc s (size + sizeofSize) else some (poolAlloc s (block - start) size)

def malloc (s : Heap) (size : Nat) : Option (Heap × Nat) := allocate s size

def bulkFree (s : Heap) (ptr size : Nat) : Heap := { s with munmaps := s.munmaps ++ [(ptr, size)] }

def free (s : Heap) (ptr : Nat) : Heap :=
  if ptr = 0 then
    s
  else
    let s := if checkFlag s (ptr - sizeofSize) then clearFlag s (ptr - sizeofSize) else s
    let size := s.mem (ptr - sizeofSize)
    let idx := blockIndex (sub32 size sizeofSize)
    if stop < idx then bulkFree s (ptr - sizeofSize) size else add s (idx - start) ptr

/-- `transferring_data(src, dst, size)` -/
def transferringData (s : Heap) (src dst size : Nat) : Heap :=
  { s with mem := WordMemory.copy s.mem src dst size }

/-- `*size_ptr - sizeof(size_t)` -/
def usableSize (s : Heap) (ptr : Nat) : Nat := sub32 (s.mem (ptr - sizeofSize)) sizeofSize

/-- Moves the contents to a new block.  The number of bytes is computed after the call of `malloc`. -/
def moveBlock (s : Heap) (ptr size : Nat) (copied : Heap → Nat) : Option (Heap × Nat) := do
  let (s, newPtr) ← malloc s size
  let s := transferringData s ptr newPtr (copied s)
  return (free s ptr, newPtr)

/-- The case of `realloc` in which the block ends at `free_list->heap`. -/
def extendBlock (s : Heap) (ptr sizeNeeded : Nat) : Option (Heap × Nat) := do
  let sizePtr := ptr - sizeofSize
  let (s, newPtr) ← malloc s sizeNeeded
  let s := s.store sizePtr ((s.mem sizePtr + s.mem (newPtr - sizeofSize)) % 2 ^ 32)
  return (setFlag s sizePtr, ptr)

def realloc (s : Heap) (ptr size : Nat) : Option (Heap × Nat) :=
  if ptr = 0 then
    malloc s size
  else if size = 0 then
    moveBlock s ptr 1 fun _ => 24
  else
    let sizePtr := ptr - sizeofSize
    let s := clearFlag s sizePtr
    if size ≤ usableSize s ptr then
      some (setFlag s sizePtr, ptr)
    else
      let nextBlock := ptr + usableSize s ptr
      let sizeNeeded := sub32 size (usableSize s ptr)
      if nextBlock = s.heap ∧ shl1 (blockIndex sizeNeeded) ≤ s.sizeUsable then
        extendBlock s ptr sizeNeeded
      else
        moveBlock s ptr size (usableSize · ptr)

end Illinix.User
