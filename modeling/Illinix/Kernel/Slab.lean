import Illinix.Kernel.Buddy

/-! # The slab allocator and `kmalloc`

`kernel/kmalloc.c` serves requests below 4 KB from pages of 4 MB that it cuts into blocks
of 8-byte units.  A block starts with its `slab_t` header of four words; `slab_free_list`
points to the sentinel `l1` of a circular list of the free ones.  Headers overlap when a
block is smaller than its header, so they are kept as words of memory, each stored under
the address of its first byte.  Every access is to an aligned word.

The list of page headers and the free lists of the buddy allocator are kept as lists: the
words of a page header lie in the payload of a block, those of a `buddy` in a free page.
The loops and recursions of the source run on fuel, one unit for each node they visit. -/

namespace Illinix.Kernel

open Function

abbrev Mem := Nat → Nat

def slabUnit : Nat := 8

/-- `sizeof(slab_t)` -/
def slabHeader : Nat := 16

/-- `PAGE_SLAB` -/
def pageSlab : Nat := pageSize4MB / slabUnit

/-! ## The words of a `slab_t` -/

def Mem.size (mem : Mem) (s : Nat) : Nat := mem s

def Mem.status (mem : Mem) (s : Nat) : Nat := mem (s + 4)

def Mem.last (mem : Mem) (s : Nat) : Nat := mem (s + 8)

def Mem.next (mem : Mem) (s : Nat) : Nat := mem (s + 12)

def Mem.setSize (mem : Mem) (s v : Nat) : Mem := update mem s v

def Mem.setStatus (mem : Mem) (s v : Nat) : Mem := update mem (s + 4) v

def Mem.setLast (mem : Mem) (s v : Nat) : Mem := update mem (s + 8) v

def Mem.setNext (mem : Mem) (s v : Nat) : Mem := update mem (s + 12) v

def slabListPush (mem : Mem) (list s : Nat) : Mem :=
  let prev := mem.last list
  let mem := mem.setLast s prev
  let mem := mem.setNext s list
  let mem := mem.setNext prev s
  mem.setLast list s

def slabListRemove (mem : Mem) (b : Nat) : Mem :=
  let mem := mem.setNext (mem.last b) (mem.next b)
  mem.setLast (mem.next b) (mem.last b)

/-- `while (s != slab_free_list) { if (test) break; s = s->next; }`, `none` at the end of
    the list. -/
def slabSearch (mem : Mem) (list : Nat) (test : Nat → Bool) : Nat → Nat → Except Fault (Option Nat)
  | 0, _ => throw .diverges
  | fuel + 1, s =>
    if s = list then
      pure none
    else if test s then
      pure (some s)
    else
      slabSearch mem list test fuel (mem.next s)

/-! ## The heap -/

/-- `page_header_t`: the node at `node` with the page it records. -/
structure PageHeader where
  node : Nat
  addr : Nat
  order : Nat
deriving DecidableEq, Repr

/-- The state behind `kmalloc`. -/
structure Heap where
  area : FreeArea
  mem : Mem
  /-- the address of `l1`. -/
  slabFreeList : Nat
  startSlab : Nat
  pageHeader : List PageHeader

/-- More than the nodes that fit below 64 MB. -/
def slabFuel : Nat := kernelPages * pageSize4MB + 1

/-- The number of units a request takes with its header. -/
def sizeUnits (size : Nat) : Nat := (size + slabHeader + slabUnit - 1) / slabUnit

/-- The first block of the free list with enough space. -/
def firstFit (heap : Heap) (sizeN : Nat) : Except Fault (Option Nat) :=
  slabSearch heap.mem heap.slabFreeList (fun s => sizeN ≤ heap.mem.size s) slabFuel
    (heap.mem.next heap.slabFreeList)

/-- Put a page obtained from the buddy allocator on the free list. -/
def Heap.addPage (heap : Heap) (s : Nat) : Heap :=
  let mem := heap.mem.setSize s pageSlab
  let mem := mem.setStatus s 0
  { heap with mem := slabListPush mem heap.slabFreeList s }

def slabSpaceGrow (heap : Heap) : Except Fault (Heap × Int) := do
  let (area, page) ← getPage heap.area (maxOrder - 1)
  match page with
  | none => return ({ heap with area }, -1)
  | some s => return ({ heap with area }.addPage s, 0)

/-- The part of `slab_alloc` after its loop has found and unlinked `s`. -/
def slabTake (mem : Mem) (list s sizeN : Nat) : Mem :=
  let mem := slabListRemove mem s
  let mem := mem.setStatus s 1
  if mem.size s = sizeN then
    mem
  else
    -- put the rest of the space back
    let ns := s + sizeN * slabUnit
    let mem := mem.setSize ns (mem.size s - sizeN)
    let mem := mem.setStatus ns 0
    let mem := mem.setSize s sizeN
    slabListPush mem list ns

/-- `slab_alloc`; the first argument bounds its recursion. -/
def slabAlloc : Nat → Heap → Nat → Except Fault (Heap × Option Nat)
  | 0, _, _ => throw .diverges
  | depth + 1, heap, size => do
    let sizeN := sizeUnits size
    match ← firstFit heap sizeN with
    | some s =>
      return ({ heap with mem := slabTake heap.mem heap.slabFreeList s sizeN },
        some (s + slabHeader))
    | none =>
      let (heap, grown) ← slabSpaceGrow heap
      if grown = 0 then
        return (heap, none)
      else
        slabAlloc depth heap size

/-- The two blocks touch, and are not both at the start of a 4 MB page. -/
def mergeable (mem : Mem) (ns s : Nat) : Bool :=
  (s + mem.size s * slabUnit = ns || ns + mem.size ns * slabUnit = s) &&
    (s % pageSize4MB ≠ 0 || ns % pageSize4MB ≠ 0)

/-- `_slab_free`; the first argument bounds its recursion. -/
def slabMerge (list : Nat) : Nat → Mem → Nat → Except Fault (Mem × Nat)
  | 0, _, _ => throw .diverges
  | depth + 1, mem, ns => do
    match ← slabSearch mem list (mergeable mem ns) slabFuel (mem.next list) with
    | none => return (mem, ns)
    | some s =>
      let mem := slabListRemove mem s
      if s > ns then
        slabMerge list depth (mem.setSize ns (mem.size s + mem.size ns)) ns
      else
        slabMerge list depth (mem.setSize s (mem.size s + mem.size ns)) s

/-- The test of `slab_free` for an extra empty page. -/
def extraPage (heap : Heap) (mem : Mem) (ns : Nat) : Bool :=
  ns ≠ heap.startSlab && ns % pageSize4MB = 0 && mem.size ns = pageSlab

def slabFree (heap : Heap) (p : Nat) : Except Fault Heap := do
  let (mem, ns) ← slabMerge heap.slabFreeList slabFuel heap.mem p
  let mem := mem.setStatus ns 0
  let area ← (if extraPage heap mem ns then freePage heap.area ns (maxOrder - 1) else pure heap.area)
  -- the block is pushed in either case
  return { heap with area, mem := slabListPush mem heap.slabFreeList ns }

/-! ## `kmalloc` and `kfree` -/

/-- The loop of `kmalloc` that finds the order of a number of pages. -/
def orderLoop (size : Nat) : Nat → Nat → Nat → Nat
  | 0, _, order => order
  | fuel + 1, temp, order => if temp < size then orderLoop size fuel (temp * 2) (order + 1) else order

/-- A size is at most 4 MB here, so ten doublings are enough. -/
def pageOrder (size : Nat) : Nat := orderLoop ((size + pageSize - 1) / pageSize) 11 1 0

/-- `sizeof(page_header_t)` -/
def pageHeaderSize : Nat := 12

def addHeader (depth : Nat) (heap : Heap) (pt order : Nat) : Except Fault (Heap × Int) := do
  let (heap, h) ← slabAlloc depth heap pageHeaderSize
  match h with
  | none => return (heap, -1)
  | some h => return ({ heap with pageHeader := ⟨h, pt, order⟩ :: heap.pageHeader }, 0)

def kmalloc (depth : Nat) (heap : Heap) (size : Int) : Except Fault (Heap × Option Nat) :=
  if size ≤ 0 ∨ size > pageSize4MB then
    pure (heap, none)
  else if size.toNat + slabHeader < pageSize then
    slabAlloc depth heap size.toNat
  else do
    let order := pageOrder size.toNat
    let (area, page) ← getPage heap.area order
    match page with
    | none => return ({ heap with area }, none)
    | some pt =>
      let (heap, added) ← addHeader depth { heap with area } pt order
      return (heap, if added = -1 then none else some pt)

/-- The first header that records `addr`, and the list without it. -/
def findHeader (headers : List PageHeader) (addr : Nat) : Option (PageHeader × List PageHeader) :=
  match headers.find? (·.addr == addr) with
  | none => none
  | some h => some (h, headers.eraseP (·.addr == addr))

/-- The part of `kfree` for a block of the slab allocator. -/
def kfreeSlab (heap : Heap) (p : Nat) : Except Fault Heap :=
  let header := sub32 p slabHeader
  if heap.mem.status header = 0 then
    pure heap
  else if heap.mem.size header + slabHeader < pageSize then
    slabFree heap header
  else
    pure heap

/-- `kfree` and `pop_header`, which frees the header it unlinks; the first argument bounds
    the recursion between the two. -/
def kfreeFrom : Nat → Heap → Nat → Except Fault Heap
  | 0, _, _ => throw .diverges
  | depth + 1, heap, p =>
    if p = 0 then
      pure heap
    else
      match findHeader heap.pageHeader p with
      | some (h, rest) => do
        let heap ← kfreeFrom depth { heap with pageHeader := rest } h.node
        return { heap with area := ← freePage heap.area p h.order }
      | none => kfreeSlab heap p

/-- Each call removes a header or is the last one. -/
def kfree (heap : Heap) (p : Nat) : Except Fault Heap :=
  kfreeFrom (heap.pageHeader.length + 1) heap p

/-- The heap as `slab_init` leaves it, with the sentinel at `l1` and `mem` the memory
    before. -/
def slabInit (area : FreeArea) (mem : Mem) (l1 : Nat) : Except Fault Heap := do
  let mem := mem.setNext l1 l1
  let mem := mem.setLast l1 l1
  let mem := mem.setSize l1 0
  let (area, page) ← getPage area (maxOrder - 1)
  match page with
  | none => throw .nullDeref
  | some s =>
    return { area, mem, slabFreeList := l1, startSlab := s, pageHeader := [] : Heap }.addPage s

end Illinix.Kernel
