import Illinix.Kernel.Vm

/-! # Mapping and unmapping areas

`vmdealloc` of `kernel/vm.c`, and `sys_mmap` and `sys_munmap` of `kernel/syscall.c`.  The area that `sys_mmap`
takes from `kmalloc` and the array of an area come from the list of blocks, as in
`vmalloc`.  A pointer into the list of areas is an index, and a `NULL` pointer that is followed is a page
fault, in which the kernel loops for ever. -/

namespace Illinix.Kernel

/-! ## Shrinking an area -/

/-- The loop of `vmdealloc` from the address `va` down to `newend`, with `i` entries of the array left.
    The result of `freemap` is not looked at. -/
def vmdeallocFrom (mapping : Bool) (mmap : Nat → Nat) (newend : Nat) :
    Nat → Nat → Space → Except VmFault (Space × Nat)
  | i, va, s =>
    if newend < va then
      match i with
      | 0 => throw .mmapBounds
      | i + 1 => do
        let s ← if mapping then do
            let (s, _) ← s.freemap va pageSize
            pure s
          else
            pure s
        vmdeallocFrom mapping mmap newend i (sub32 va pageSize) (s.freeUserPage (addrToPte (mmap i)))
    else
      pure (s, i)

/-- The new array of an area that has shrunk to `i` entries; `kmalloc(0)` returns `NULL`. -/
def shrinkMmap (s : Space) (mmap : Nat → Nat) (i : Nat) : Except VmFault (Space × (Nat → Nat)) :=
  if i = 0 then
    pure (s, fun _ => 0)
  else
    match s.blocks with
    | [] => throw .pageFault
    | temp :: blocks => pure ({ s with blocks }, fun j => if j < i then mmap j else temp j)

/-- `vmdealloc(vm, decsize, mapping)` -/
def vmdealloc (s : Space) (vm : Area) (decsize : Int) (mapping : Bool) : Except VmFault (Space × Area) := do
  let newend := ((vm.vmend - decsize.tdiv pageSize : Int) % 2 ^ 32).toNat
  let (s, i) ← vmdeallocFrom mapping vm.mmap newend (sub32 vm.vmend vm.vmstart / pageSize) vm.vmend s
  if newend ≠ vm.vmend then
    let (s, mmap) ← shrinkMmap s vm.mmap i
    return (s, { vm with mmap, vmend := newend })
  else
    return (s, vm)

/-! ## `sys_mmap` -/

/-- `KERNEL_PAGES * PAGE_SIZE_4MB` -/
def kernelEnd : Nat := 16 * 0x400000

/-- The `while` loop of `sys_mmap`, for the list from `t->next` on: the new area takes the place of the one at
    which the loop stops. -/
def linkArea (area : Area) : List Area → Except VmFault (List Area)
  | [] => throw .pageFault
  | [_] => pure [area]
  | next :: next' :: rest =>
    if next.vmstart < area.vmstart then do
      let linked ← linkArea area (next' :: rest)
      return next :: linked
    else
      pure (area :: next' :: rest)

/-- The new area enters the list. -/
def insertArea (area : Area) : List Area → Except VmFault (List Area)
  | [] => throw .pageFault
  | t :: next =>
    if t.vmstart > area.vmstart then
      pure (area :: t :: next)
    else do
      let linked ← linkArea area next
      return t :: linked

/-- `pagesz` in `sys_mmap` -/
def mmapPages (addr size : Nat) : Nat := (addr % pageSize + size + pageSize - 1) % 2 ^ 32 / pageSize

/-- `sys_mmap(addr, size)` of the process `t`; what `vmalloc` returns is not looked at. -/
def sysMmap (s : VmState) (t addr size : Nat) : Except VmFault (VmState × Int) :=
  if addr < kernelEnd ∨ userStackAddr < addr then
    pure (s, -1)
  else
    match s.blocks with
    -- the fields of the area are stored through the result of `kmalloc`
    | [] => throw .pageFault
    | mmap :: blocks => do
      let area : Area := ⟨mmap, addr, addr, 6⟩
      let (space, area, _) ← vmalloc { s.toSpace with blocks } area (mmapPages addr size) (pteUs ||| pteRw)
      let mapList ← insertArea area (s.vms t).mapList
      showMmap mapList
      return ({ s with toSpace := space }.setVm t { s.vms t with mapList }, 0)

/-! ## `sys_munmap` -/

/-- The loop of `sys_munmap` over the list from `area` on, with the indices of `prev` and `area`.  After the first
    turn `area` is never `map_list` again. -/
def munmapSearch (pageaddr : Nat) : List Area → Nat → Nat → Nat × Nat
  | here :: next :: rest, prev, area =>
    if here.vmstart = pageaddr then
      (prev, area)
    else
      munmapSearch pageaddr (next :: rest) (if area + 1 ≠ 0 then prev + 1 else prev) (area + 1)
  | _, prev, area => (prev, area)

/-- `size` in `sys_munmap`, as the `int` that `vmdealloc` takes. -/
def munmapSize (area : Area) : Int :=
  if sub32 area.vmend area.vmstart < 2 ^ 31 then sub32 area.vmend area.vmstart
  else sub32 area.vmend area.vmstart - 2 ^ 32

/-- `sys_munmap(addr)` of the process `t` -/
def sysMunmap (s : VmState) (t addr : Nat) : Except VmFault (VmState × Int) :=
  let areas := (s.vms t).mapList
  let pageaddr := addr % pageSize
  let (prev, index) := munmapSearch pageaddr areas 0 0
  match areas[index]? with
  | none => throw .pageFault
  | some area => do
    let mapList :=
      if index = prev then areas.drop (index + 1) else areas.take (prev + 1) ++ areas.drop (index + 1)
    let (space, _) ← vmdealloc s.toSpace area (munmapSize area) true
    showMmap mapList
    return ({ s with toSpace := space }.setVm t { s.vms t with mapList }, 0)

end Illinix.Kernel
