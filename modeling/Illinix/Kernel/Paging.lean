import Illinix.Kernel.Buddy

/-! # Page tables

`_walk`, `mmap` and `freemap` of `kernel/vm.c`.  A page table is named by the address of its
page, and the words of all of them are one table, so that two directory entries with one
address share their page table.  `get_page(0)` hands out the pages of a list; that it returns
pages nobody else uses is a fact about the buddy allocator.

Addresses are numbers below `2 ^ 32`.  The processor's own view of the tables is `Paging.entry`;
flushing the TLB is left out, as each change is followed by a flush before the next access. -/

namespace Illinix.Kernel

open Function

/-- `PTE_PRESENT` -/
def ptePresent : Nat := 0x1

/-- `PTE_RW` -/
def pteRw : Nat := 0x2

/-- `PTE_US` -/
def pteUs : Nat := 0x4

/-- `GETBIT_12` -/
def getbit12 (a : Nat) : Nat := a % 2 ^ 12

/-- `ADDR_TO_PTE` -/
def addrToPte (a : Nat) : Nat := a / 2 ^ 12 % 2 ^ 20 * 2 ^ 12

/-- `PDE_MB_ADDR` of an unsigned address. -/
def pdeMbAddr (va : Nat) : Nat := va >>> 22

/-- The index of an address in its page table. -/
def pteIndex (va : Nat) : Nat := (va >>> 12) % 2 ^ 10

def present (entry : Nat) : Bool := entry.testBit 0

inductive VmFault where
  /-- the kernel stops in `panic` -/
  | panic
  /-- `pdesc` is indexed with a negative number. -/
  | pdescBounds
  /-- a page table is freed while its directory entry stays present. -/
  | tableFreed
  /-- an address that is not mapped is accessed. -/
  | pageFault
  /-- the array `mmap` of an area is read before its start. -/
  | mmapBounds
deriving DecidableEq, Repr

structure Paging where
  /-- `page_directory` -/
  directory : Nat → Nat
  /-- the words of the page at an address -/
  table : Nat → Nat → Nat
  /-- `pdesc[i].count` -/
  count : Nat → Int
  /-- the pages that `get_page(0)` returns -/
  pages : List Nat

/-- Where a `pte_t *` points to. -/
structure PtePtr where
  table : Nat
  index : Nat
deriving DecidableEq, Repr

def Paging.pte (s : Paging) (p : PtePtr) : Nat := s.table p.table p.index

def Paging.setPte (s : Paging) (p : PtePtr) (entry : Nat) : Paging :=
  { s with table := update s.table p.table (update (s.table p.table) p.index entry) }

def Paging.setCount (s : Paging) (i : Nat) (n : Int) : Paging :=
  { s with count := update s.count i n }

/-- The page table in the directory entry of `va`. -/
def Paging.ptePtr (s : Paging) (va : Nat) : PtePtr :=
  ⟨addrToPte (s.directory (pdeMbAddr va)), pteIndex va⟩

/-- The page table entry that the processor uses for `va`; bit 7 of a directory entry is
    `PDE_MB`. -/
def Paging.entry (s : Paging) (va : Nat) : Option Nat :=
  if present (s.directory (pdeMbAddr va)) ∧ ¬ (s.directory (pdeMbAddr va)).testBit 7 ∧
      present (s.pte (s.ptePtr va)) then
    some (s.pte (s.ptePtr va))
  else
    none

/-- A zeroed page table in the directory entry `i`. -/
def Paging.addTable (s : Paging) (i ptaddr flags : Nat) (pages : List Nat) : Paging :=
  { s with
    pages
    table := update s.table ptaddr fun _ => 0
    directory := update s.directory i (ptePresent ||| flags ||| addrToPte ptaddr) }

/-- `_walk(va, flags, alloc)` -/
def walk (s : Paging) (va flags : Nat) (alloc : Bool) : Option PtePtr × Paging :=
  if present (s.directory (pdeMbAddr va)) then
    (some (s.ptePtr va), s)
  else
    match alloc, s.pages with
    | false, _ => (none, s)
    | true, [] => (none, s)
    | true, ptaddr :: pages =>
      let s := s.addTable (pdeMbAddr va) ptaddr flags pages
      (some (s.ptePtr va), s)

/-- `PDE_MB_ADDR(addr)` in `mmap`, where `addr` is an `int` and the shift keeps its sign. -/
def pdescIndex (addr : Nat) : Except VmFault Nat :=
  if addr < 2 ^ 31 then pure (pdeMbAddr addr) else throw .pdescBounds

/-- The loop of `mmap` for the pages `i ..` of which `n` are left. -/
def mmapFrom (pa flags : Nat) : Nat → Nat → Nat → Paging → Except VmFault (Paging × Int)
  | 0, _, _, s => pure (s, 0)
  | n + 1, i, addr, s =>
    match walk s addr flags true with
    | (none, _) => throw .panic
    | (some pte, s) =>
      if present (s.pte pte) then
        pure (s, -1)
      else do
        let s := s.setPte pte (ptePresent ||| flags ||| (addrToPte pa + i * pageSize) % 2 ^ 32)
        let d ← pdescIndex addr
        mmapFrom pa flags n (i + 1) ((addr + pageSize) % 2 ^ 32) (s.setCount d (s.count d + 1))

def mmap (s : Paging) (va pa size flags : Nat) : Except VmFault (Paging × Int) :=
  mmapFrom pa flags (size / pageSize) 0 (addrToPte va) s

/-- The addresses of a loop `for (va = start; va < stop; va += PAGE_SIZE)`. -/
def pageRange (start stop : Nat) : List Nat :=
  (List.range ((stop - start + pageSize - 1) / pageSize)).map (start + pageSize * ·)

/-- The loop of `freemap`.  Since `count` is compared before it is decremented, a page table is
    freed only if none of its entries has been counted. -/
def freemapFrom : List Nat → Paging → Except VmFault (Paging × Int)
  | [], s => pure (s, 0)
  | addr :: addrs, s =>
    match walk s addr 0 false with
    | (none, _) => pure (s, -1)
    | (some pte, s) =>
      if present (s.pte pte) then
        let s := s.setPte pte 0
        let count := s.count (pdeMbAddr addr)
        if count = 0 then
          throw .tableFreed
        else
          freemapFrom addrs (s.setCount (pdeMbAddr addr) (count - 1))
      else
        pure (s, -1)

def freemap (s : Paging) (va size : Nat) : Except VmFault (Paging × Int) :=
  freemapFrom (pageRange va ((va + size) % 2 ^ 32)) s

/-- The processor finds a page for `va` in kernel mode.  `CR0.WP` is not set, so that a store needs no more. -/
def Paging.mapped (s : Paging) (va : Nat) : Bool :=
  present (s.directory (pdeMbAddr va)) &&
    ((s.directory (pdeMbAddr va)).testBit 7 || present (s.pte (s.ptePtr va)))

/-- `do_vidmap(screen_start)`, with `vidmap` the address of the current console: the value it returns, and the
    word it stores with the address that it stores it to.  The page of `NULL` is not mapped. -/
def doVidmap (s : Paging) (screenStart vidmap : Nat) : Except VmFault (Int × Option (Nat × Nat)) :=
  match walk s screenStart 0 false with
  -- the result of `_walk` is dereferenced without a test
  | (none, _) => throw .pageFault
  | (some pte, _) =>
    if s.pte pte &&& pteUs = 0 then
      pure (-1, none)
    -- the first and the last of the four bytes of `*screen_start`
    else if s.mapped screenStart ∧ s.mapped ((screenStart + 3) % 2 ^ 32) then
      pure (0, some (screenStart, vidmap))
    else
      throw .pageFault

/-- `page_init`, with the tables `page_table` and `vidmap_table` at the two addresses. -/
def pageInit (pageTable vidmapTable : Nat) (pages : List Nat) : Paging :=
  { directory := fun i =>
      if i = 0 then ptePresent ||| pteRw ||| addrToPte pageTable
      else if i < 16 then ptePresent ||| pteRw ||| 0x80 ||| 0x100 ||| i <<< 22
      else if i = 33 then ptePresent ||| pteRw ||| pteUs ||| addrToPte vidmapTable
      else 0
    table := fun t i =>
      if t = pageTable then
        if i = 0xB8 ∨ i = 0xD0 ∨ i = 0xD1 ∨ i = 0xD2 then ptePresent ||| pteRw ||| i <<< 12 else pteRw
      else if t = vidmapTable then
        if i = 0xB8 then ptePresent ||| pteRw ||| pteUs ||| i <<< 12 else 0
      else 0
    count := fun _ => 0
    pages }

end Illinix.Kernel
