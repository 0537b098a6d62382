import Mathlib.Tactic.Common
import Mathlib.Algebra.GroupWithZero.Nat
import Mathlib.Algebra.Group.Int.Defs

/-! # The buddy allocator

`kernel/kmalloc.c` keeps one free list and one bitmap for each order; `kernel/vm.c`
runs the same code over a second array `ufree_area` for user memory.  A node of a
kernel free list lives at the start of the block it describes, a node of a user free
list is a descriptor obtained from `kmalloc`.

A circular list is represented by the list of its nodes from `fl->next` on, so
`free_list_push` appends and `free_list_pop` takes the head.  An access to a bitmap
outside the words of its order and a dereference of `NULL` end in a `Fault`. -/

namespace Illinix.Kernel

open Function

def pageSize : Nat := 4096

def pageSize4MB : Nat := 0x400000

def reservedPages : Nat := 2

def kernelPages : Nat := 16

def maxPhysPages : Nat := 64

def maxOrder : Nat := 11

def maxBmsize : Nat := 224

/-- Subtraction of `uint32_t` values. -/
def sub32 (a b : Nat) : Nat := (a + 2 ^ 32 - b) % 2 ^ 32

inductive Fault where
  /-- `bit_map[index / 32]` is not one of the `bmsize` words of the order. -/
  | bitMapBounds (order index : Nat)
  /-- `NULL` is dereferenced. -/
  | nullDeref
  /-- an order outside `0 .. MAX_ORDER` selects no free area. -/
  | badOrder
  /-- a loop or a recursion has not ended within its fuel. -/
  | diverges
deriving DecidableEq, Repr

/-- `buddy`: the node at `ptr`, with the block address stored in it. -/
structure Buddy where
  ptr : Nat
  addr : Nat
deriving DecidableEq, Repr

/-- The array `free_area` (or `ufree_area`), indexed by order, with the descriptors
    that `get_buddy` has obtained from `kmalloc` and that have not been freed. -/
structure FreeArea where
  freeList : Nat → List Buddy
  bitMap : Nat → Nat → BitVec 32
  bmsize : Nat → Nat
  startAddr : Nat
  user : Bool
  descriptors : List Nat
  nextDescriptor : Nat

namespace FreeArea

def setFreeList (area : FreeArea) (order : Nat) (list : List Buddy) : FreeArea :=
  { area with freeList := update area.freeList order list }

/-- `free_list_push`: insert before the sentinel, at the tail. -/
def freeListPush (area : FreeArea) (order : Nat) (b : Buddy) : FreeArea :=
  area.setFreeList order (area.freeList order ++ [b])

/-- `free_list_pop`: unlink the head, `none` on an empty list. -/
def freeListPop (area : FreeArea) (order : Nat) : Option (Buddy × FreeArea) :=
  match area.freeList order with
  | [] => none
  | head :: rest => some (head, area.setFreeList order rest)

/-- `get_buddy`: a fresh descriptor for a user block. -/
def getBuddy (area : FreeArea) (addr : Nat) : FreeArea × Buddy :=
  ({ area with
      descriptors := area.nextDescriptor :: area.descriptors
      nextDescriptor := area.nextDescriptor + 1 },
   ⟨area.nextDescriptor, addr⟩)

/-- `kfree` of a descriptor. -/
def kfreeBuddy (area : FreeArea) (b : Buddy) : FreeArea :=
  { area with descriptors := area.descriptors.erase b.ptr }

end FreeArea

/-- The size of a pair of blocks of the given order. -/
def buddySize (order : Nat) : Nat := (pageSize * 2) <<< order

/-- The bit of the pair that contains `b`. -/
def pairIndex (area : FreeArea) (b : Buddy) (order : Nat) : Nat :=
  sub32 b.addr area.startAddr / buddySize order

def isSplit (area : FreeArea) (b : Buddy) (order : Nat) : Except Fault Bool :=
  let index := pairIndex area b order
  if index / 32 < area.bmsize order then
    .ok ((area.bitMap order (index / 32)).getLsbD (index % 32))
  else
    .error (.bitMapBounds order index)

/-- `area[order].bit_map[index / 32] ^= (1 << (index % 32))` -/
def FreeArea.flipBit (area : FreeArea) (order index : Nat) : FreeArea :=
  { area with
    bitMap := update area.bitMap order
      (update (area.bitMap order) (index / 32)
        (area.bitMap order (index / 32) ^^^ (1#32 <<< (index % 32)))) }

def flipBitMap (area : FreeArea) (b : Buddy) (order : Nat) : Except Fault FreeArea :=
  let index := pairIndex area b order
  if index / 32 < area.bmsize order then
    .ok (area.flipBit order index)
  else
    .error (.bitMapBounds order index)

/-- The right half of a block of order `order`: a new descriptor in user memory, the
    node at the middle of the block itself in kernel memory. -/
def rightHalf (area : FreeArea) (b : Buddy) (order : Nat) : FreeArea × Buddy :=
  if area.user then
    area.getBuddy (b.addr + buddySize order / 4)
  else
    (area, ⟨b.ptr + buddySize order / 4, b.ptr + buddySize order / 4⟩)

/-- `buddy_split`, by recursion on `cur_order`.  The right half `b2` is obtained before
    the orders are compared. -/
def buddySplit (area : FreeArea) (b : Buddy) (tar : Nat) : Nat → Except Fault (FreeArea × Buddy)
  | 0 =>
    if 0 = tar then do
      return (← flipBitMap (rightHalf area b 0).1 b 0, b)
    else
      throw .badOrder
  | cur + 1 =>
    if cur + 1 = tar then do
      return (← flipBitMap (rightHalf area b (cur + 1)).1 b (cur + 1), b)
    else do
      let split ← (if cur + 1 ≠ maxOrder then
          flipBitMap (rightHalf area b (cur + 1)).1 b (cur + 1)
        else
          pure (rightHalf area b (cur + 1)).1)
      buddySplit (split.freeListPush cur (rightHalf area b (cur + 1)).2) b tar cur

/-- The loop of `get_page` and `get_user_page` over the orders still to be tried. -/
def getPageLoop (area : FreeArea) (order : Nat) : List Nat → Except Fault (FreeArea × Option Buddy)
  | [] => pure (area, none)
  | i :: orders =>
    match area.freeListPop i with
    | none => getPageLoop area order orders
    | some (temp, area) => do
      let (area, b) ← buddySplit area temp order i
      return (area, some b)

/-- The orders `order .. MAX_ORDER`. -/
def ordersFrom (order : Nat) : List Nat := List.range' order (maxOrder + 1 - order)

def getPage (area : FreeArea) (order : Int) : Except Fault (FreeArea × Option Nat) :=
  if order ≥ maxOrder ∨ order < 0 then
    pure (area, none)
  else do
    let (area, found) ← getPageLoop area order.toNat (ordersFrom order.toNat)
    return (area, found.map Buddy.ptr)

def getUserPage (area : FreeArea) (order : Int) : Except Fault (FreeArea × Option Nat) :=
  if order ≥ maxOrder ∨ order < 0 then
    pure (area, none)
  else do
    let (area, found) ← getPageLoop area order.toNat (ordersFrom order.toNat)
    match found with
    | none => return (area, none)
    | some temp => return (area.kfreeBuddy temp, some temp.addr)

/-- `is_left_buddy`; a kernel block is located by its node, a user block by its address. -/
def isLeftBuddy (area : FreeArea) (b : Buddy) (order : Nat) : Bool :=
  let position := if area.user then b.addr else b.ptr
  sub32 position area.startAddr / (buddySize order / 2) % 2 == 0

/-- `remove_from_free`: unlink the other block of the pair from the free list and
    return the left one of the two, `none` for `NULL`. -/
def removeFromFree (area : FreeArea) (b : Buddy) (order : Nat) : FreeArea × Option Buddy :=
  let left := isLeftBuddy area b order
  let b2 := if left then b.addr + buddySize order / 2 else b.addr - buddySize order / 2
  match (area.freeList order).find? (·.addr == b2) with
  | none => (area, none)
  | some t =>
    let area := area.setFreeList order ((area.freeList order).eraseP (·.addr == b2))
    if left then
      (if area.user then area.kfreeBuddy t else area, some b)
    else
      (if area.user then area.kfreeBuddy b else area, some t)

/-- `_free_page` at an order that lies `above` levels below `MAX_ORDER`. -/
def freePageFrom (area : FreeArea) (b : Buddy) (order : Nat) : Nat → Except Fault FreeArea
  | 0 => pure (area.freeListPush order b)
  | above + 1 => do
    if ¬ (← isSplit area b order) then
      flipBitMap (area.freeListPush order b) b order
    else
      let area ← flipBitMap area b order
      match removeFromFree area b order with
      | (_, none) => throw .nullDeref
      | (area, some t) => freePageFrom area t (order + 1) above

/-- `_free_page`. -/
def freePageAt (area : FreeArea) (b : Buddy) (order : Nat) : Except Fault FreeArea :=
  if order ≤ maxOrder then freePageFrom area b order (maxOrder - order) else throw .badOrder

def freePage (area : FreeArea) (p order : Nat) : Except Fault FreeArea :=
  freePageAt area ⟨p, p⟩ order

def freeUserPage (area : FreeArea) (addr order : Nat) : Except Fault FreeArea :=
  let (area, b) := area.getBuddy addr
  freePageAt area b order

/-! ## Initial states -/

/-- The addresses `start, start + step, ..` below `stop`. -/
def blockAddrs (start stop step : Nat) : List Nat :=
  List.range' start ((stop - start + step - 1) / step) step

/-- `bminit`: the number of words given to each order. -/
def bmsizeInit (order : Nat) : Nat :=
  if order < maxOrder then maxBmsize >>> order + (if order > 4 then 1 else 0) else 0

/-- The kernel area as `kmalloc_init` leaves it before `slab_init`. -/
def kmallocInit : FreeArea :=
  let start := reservedPages * pageSize4MB
  let empty : FreeArea :=
    { freeList := fun _ => []
      bitMap := fun _ _ => 0
      bmsize := bmsizeInit
      startAddr := start
      user := false
      descriptors := []
      nextDescriptor := 0 }
  (blockAddrs start (kernelPages * pageSize4MB) (buddySize (maxOrder - 1))).foldl
    (fun area i => area.freeListPush maxOrder ⟨i, i⟩) empty

/-- The number of words `user_mem_init` allocates for an order. -/
def userBmsize (order : Nat) : Nat :=
  if order < maxOrder then (pageSize4MB * 2 / buddySize order + 31) / 32 else 0

/-- The user area as `user_mem_init` leaves it. -/
def userMemInit : FreeArea :=
  let start := kernelPages * pageSize4MB
  let empty : FreeArea :=
    { freeList := fun _ => []
      bitMap := fun _ _ => 0
      bmsize := userBmsize
      startAddr := start
      user := true
      descriptors := []
      nextDescriptor := 0 }
  (blockAddrs start (maxPhysPages * pageSize4MB) (buddySize (maxOrder - 1))).foldl
    (fun area i =>
      let (area, p) := area.getBuddy i
      area.freeListPush maxOrder p) empty

end Illinix.Kernel
