import Illinix.Kernel.Fs
import Illinix.Kernel.Paging

/-! # User memory

`kernel/vm.c`, the mapping part of `kernel/access.c`, `sys_sbrk`, the growth of the stack in
`do_page_fault`, `pro_loader`, and what `__exec` and `do_fork` do to the memory of the processes.
`free_vm`, which would give the frames of a process back, is called by nobody.  A process holds its
memory as a list of areas; the array `mmap` of an area is what the block from `kmalloc` holds, so
that it also has values where nothing was stored.

`get_user_page(0)` hands out the frames of a list, and `kmalloc` the blocks of another; both
return `NULL` at its end.  The page size is the only unit in which memory is copied here. -/

namespace Illinix.Kernel

open Function

/-- `vm_area_t`, without the link to the next area. -/
structure Area where
  mmap : Nat → Nat
  vmstart : Nat
  vmend : Nat
  vmflag : Nat

/-- `vmem_t` -/
structure Vmem where
  mapList : List Area
  size : Nat
  fileLength : Nat
  startBrk : Nat
  brk : Nat

/-- `VM_HEAP` -/
def vmHeap : Nat := 0x08

/-- `VM_STACK` -/
def vmStack : Nat := 0x10

structure Space extends Paging where
  /-- the frames that `get_user_page(0)` returns -/
  frames : List Nat
  /-- the bytes of the frame at an address -/
  mem : Nat → Nat → UInt8
  /-- what the blocks hold that `kmalloc` returns for `mmap` arrays -/
  blocks : List (Nat → Nat)

/-- `get_user_page(0)`; 0 is `NULL`. -/
def Space.getUserPage (s : Space) : Nat × Space :=
  match s.frames with
  | [] => (0, s)
  | pa :: frames => (pa, { s with frames })

/-- `free_user_page(addr, 0)` -/
def Space.freeUserPage (s : Space) (addr : Nat) : Space := { s with frames := addr :: s.frames }

/-- `memcpy(dest, src, PAGE_SIZE)` of two pages that are mapped. -/
def Space.memcpy (s : Space) (dest src : Nat) : Except VmFault Space :=
  match s.entry dest, s.entry src with
  | some d, some e => pure { s with mem := update s.mem (addrToPte d) (s.mem (addrToPte e)) }
  | _, _ => throw .pageFault

/-- `mmap` and `freemap` on the whole state. -/
def Space.mmap (s : Space) (va pa flags : Nat) : Except VmFault (Space × Int) := do
  let (p, r) ← Kernel.mmap s.toPaging va pa pageSize flags
  return ({ s with toPaging := p }, r)

@[inherit_doc Space.mmap]
def Space.freemap (s : Space) (va size : Nat) : Except VmFault (Space × Int) := do
  let (p, r) ← Kernel.freemap s.toPaging va size
  return ({ s with toPaging := p }, r)

def processVmInit : Vmem :=
  { mapList :=
      [⟨fun _ => 0, 0x08048000, 0x08048000, 7⟩, ⟨fun _ => 0, 0x8800000, 0x8800000, 6 + vmHeap⟩,
        ⟨fun _ => 0, 0xC000000, 0xC000000, 6 + vmStack⟩]
    size := 0
    fileLength := 0
    startBrk := 0x8800000
    brk := 0x8800000 }

/-! ## Growing an area -/

/-- The loop of `vmalloc`. -/
def vmallocFrom (flags : Nat) : List Nat → Nat → Space → Area → Except VmFault (Space × Area × Int)
  | [], _, s, vm => pure (s, vm, 0)
  | va :: vas, i, s, vm =>
    let (pa, s) := s.getUserPage
    if pa = 0 then
      pure (s, vm, -1)
    else do
      let (s, r) ← s.mmap va pa flags
      if r = -1 then
        throw .panic
      else
        vmallocFrom flags vas (i + 1) s
          { vm with mmap := update vm.mmap i (ptePresent ||| flags ||| addrToPte pa) }

/-- `vmalloc`; the new entries are stored from `mmap[0]` on. -/
def vmalloc (s : Space) (vm : Area) (incrsize : Int) (flags : Nat) :
    Except VmFault (Space × Area × Int) :=
  if incrsize < 0 then
    pure (s, vm, -1)
  else if incrsize = 0 then
    pure (s, vm, 0)
  else
    match s.blocks with
    | [] => pure (s, vm, -1)
    | temp :: blocks =>
      let length := sub32 vm.vmend vm.vmstart / pageSize
      let startva := vm.vmend
      let vmend := (vm.vmend + addrToPte (incrsize.toNat + pageSize - 1)) % 2 ^ 32
      let mmap := fun i => if i < length then vm.mmap i else temp i
      vmallocFrom flags (pageRange startva vmend) 0 { s with blocks } { vm with mmap, vmend }

/-! ## Mapping a process -/

/-- The pages of the loop in `_user_mem_mmap`, each with its entry. -/
def Area.pages (vm : Area) : List (Nat × Nat) :=
  (pageRange vm.vmstart vm.vmend).zipIdx.map fun p => (p.1, vm.mmap p.2)

/-- `_user_mem_mmap`; the result of `mmap` is added up and not used. -/
def userMemMmap : List (Nat × Nat) → Space → Except VmFault Space
  | [], s => pure s
  | (va, entry) :: rest, s => do
    let (s, _) ← s.mmap va (addrToPte entry) (getbit12 entry)
    userMemMmap rest s

/-- The loop of `create_vm`. -/
def createAreas : List Area → Space → Except VmFault (Space × List Area)
  | [], s => pure (s, [])
  | area :: rest, s => do
    let flags := if area.vmflag.testBit 1 then pteRw ||| pteUs else pteUs
    let (s, area, _) ← vmalloc s { area with vmend := area.vmstart } (area.vmend - area.vmstart) flags
    let (s, rest) ← createAreas rest s
    return (s, area :: rest)

/-- The memory of every process; threads are named by their address. -/
structure VmState extends Space where
  vms : Nat → Vmem
  init : Nat

def VmState.setVm (s : VmState) (t : Nat) (vm : Vmem) : VmState :=
  { s with vms := update s.vms t vm }

/-- `user_mem_map`, with `create_vm` for a process that has not been mapped before. -/
def userMemMap (s : VmState) (t : Nat) : Except VmFault VmState :=
  if (s.vms t).size = 0 then do
    let (space, mapList) ← createAreas (s.vms t).mapList s.toSpace
    return { s with toSpace := space }.setVm t { s.vms t with mapList, size := 1 }
  else do
    let space ← (s.vms t).mapList.foldlM (fun space area => userMemMmap area.pages space) s.toSpace
    return { s with toSpace := space }

def unmapArea (s : Space) (area : Area) : Except VmFault Space := do
  let (s, _) ← s.freemap area.vmstart (sub32 area.vmend area.vmstart)
  return s

def userMemUnmap (s : VmState) (t : Nat) : Except VmFault VmState := do
  let space ← (s.vms t).mapList.foldlM unmapArea s.toSpace
  return { s with toSpace := space }

/-- `__umap` -/
def umap (s : VmState) (src dest : Nat) : Except VmFault VmState := do
  let s ← if src ≠ s.init then userMemUnmap s src else pure s
  if dest ≠ s.init then userMemMap s dest else pure s

/-! ## Copying a process -/

/-- The address at which `vmcopy` maps its temporary page. -/
def cacheAddr : Nat := 0x7F00000

/-- The body of the loop of `vmcopy` for the page `va` with `srcarea->mmap[i]`; the entry for the
    copy is returned. -/
def vmcopyPage (s : Space) (va entry : Nat) : Except VmFault (Space × Nat) :=
  match walk s.toPaging va 0 false with
  | (none, _) => throw .panic
  | (some pte, _) =>
    if present (s.pte pte) then
      let (pa, s) := s.getUserPage
      if pa = 0 then
        throw .panic
      else do
        let s ← s.memcpy cacheAddr va
        let (s, _) ← s.freemap va pageSize
        let (s, r) ← s.mmap va pa (getbit12 entry)
        if r = -1 then
          throw .panic
        else
          let s ← s.memcpy va cacheAddr
          return (s, ptePresent ||| getbit12 entry ||| addrToPte pa)
    else
      throw .panic

/-- The loop of `vmcopy` over the pages of an area, which fills `destarea->mmap`. -/
def vmcopyPages : List (Nat × Nat) → Nat → Space → (Nat → Nat) → Except VmFault (Space × (Nat → Nat))
  | [], _, s, mmap => pure (s, mmap)
  | (va, entry) :: rest, i, s, mmap => do
    let (s, copy) ← vmcopyPage s va entry
    vmcopyPages rest (i + 1) s (update mmap i copy)

/-- The loop of `vmcopy` over the areas.  Without a block for `destarea->mmap` the first store
    goes to address 0. -/
def vmcopyAreas : List Area → Space → Except VmFault (Space × List Area)
  | [], s => pure (s, [])
  | area :: rest, s =>
    if s.blocks.isEmpty ∧ ¬ area.pages.isEmpty then
      throw .pageFault
    else do
      let (s, mmap) ← vmcopyPages area.pages 0 { s with blocks := s.blocks.tail }
        (s.blocks.headD fun _ => 0)
      let (s, rest) ← vmcopyAreas rest s
      return (s, { area with mmap } :: rest)

/-- `vmcopy(dest, src)`; the new `dest` is returned.  Its first area is allocated before the
    loop, and `junk` is what it holds. -/
def vmcopy (s : Space) (junk : Area) (src : Vmem) : Except VmFault (Space × Vmem) := do
  let (cachepa, s) := s.getUserPage
  let (s, _) ← s.mmap cacheAddr cachepa (pteUs ||| pteRw)
  let (s, mapList) ← vmcopyAreas src.mapList s
  let mapList := if src.mapList.isEmpty then [junk] else mapList
  let (s, _) ← s.freemap cacheAddr pageSize
  return (s.freeUserPage cachepa, { src with mapList })

/-! ## Growing a process -/

/-- The `while` loops that look for the first area with a flag and grow it. -/
def onFirst {α : Type} (flag : Nat) (grow : Space → Area → Except VmFault (Space × Area × α)) :
    List Area → Space → Except VmFault (Space × List Area × Option α)
  | [], s => pure (s, [], none)
  | area :: rest, s =>
    if area.vmflag &&& flag ≠ 0 then do
      let (s, area, r) ← grow s area
      return (s, area :: rest, some r)
    else do
      let (s, rest, r) ← onFirst flag grow rest s
      return (s, area :: rest, r)

/-- `show_mmap`, which reads the list while it prints it.  Behind a stack area with pages it skips the next
    one, and an empty list is a `NULL` pointer. -/
def showMmap : List Area → Except VmFault Unit
  | [] => throw .pageFault
  | [_] => pure ()
  | area :: next :: rest =>
    if sub32 area.vmend area.vmstart ≠ 0 ∧ area.vmflag &&& vmHeap = 0 ∧ area.vmflag &&& vmStack ≠ 0 then
      showMmap rest
    else
      showMmap (next :: rest)

/-- `brk % PAGE_SIZE` of an `int32_t`, added to a `uint32_t`. -/
def brkOffset (brk : Nat) : Nat :=
  if brk < 2 ^ 31 then brk % pageSize else sub32 0 ((2 ^ 32 - brk) % pageSize)

/-- `sys_sbrk(size)` of the process `t`; 0 is `NULL`. -/
def sysSbrk (s : VmState) (t size : Nat) : Except VmFault (VmState × Nat) :=
  let brk := (s.vms t).brk
  if brk % pageSize = 0 ∨ pageSize < (size + brkOffset brk) % 2 ^ 32 then do
    let (space, mapList, r) ← onFirst vmHeap (fun s heap => vmalloc s heap pageSize (pteRw ||| pteUs))
      (s.vms t).mapList s.toSpace
    let s := { s with toSpace := space }.setVm t { s.vms t with mapList }
    match r with
    | none => return (s, 0)
    | some r =>
      if r = -1 then
        return (s, 0)
      else
        showMmap mapList
        return (s.setVm t { s.vms t with brk := (brk + size) % 2 ^ 32 }, brk)
  else
    pure (s.setVm t { s.vms t with brk := (brk + size) % 2 ^ 32 }, brk)

/-- `USER_STACK_ADDR` -/
def userStackAddr : Nat := 0xC000000 - 4

/-- `USER_STACK_MAX` -/
def userStackMax : Nat := 0x400000

/-- The body of the loop in `do_page_fault` for the stack.  The old entries are copied to
    `temp + sizeof(uint32_t*)`, which is four words further; without a block for `temp` the store
    to `mmap[0]` goes to address 0. -/
def growStack (s : Space) (area : Area) : Except VmFault (Space × Area × Unit) :=
  let length := sub32 area.vmend area.vmstart / pageSize + 1
  let vmstart := sub32 area.vmstart pageSize
  let (pa, s) := s.getUserPage
  match s.blocks with
  | [] => throw .pageFault
  | temp :: blocks => do
    let mmap := fun i => if 1 < length ∧ 4 ≤ i ∧ i < 4 + length then area.mmap (i - 4) else temp i
    let (s, _) ← { s with blocks }.mmap vmstart pa (pteRw ||| pteUs)
    return (s, { area with vmstart, mmap := update mmap 0 (ptePresent ||| (pteRw ||| pteUs) ||| addrToPte pa) },
      ())

/-- `do_page_fault` of the process `t`; outside of the stack it loops for ever. -/
def doPageFault (s : VmState) (t addr : Nat) : Except VmFault VmState :=
  if addr < userStackAddr ∧ userStackAddr - userStackMax < addr then do
    let (space, mapList, r) ← onFirst vmStack growStack (s.vms t).mapList s.toSpace
    match r with
    | none => throw .panic
    | some () => return { s with toSpace := space }.setVm t { s.vms t with mapList }
  else
    throw .pageFault

/-! ## Loading a program -/

/-- `PROGRAM_IMG_BEGIN` -/
def programImgBegin : Nat := 0x08048000

/-- Stores bytes in user memory. -/
def Space.store : List UInt8 → Nat → Space → Except VmFault Space
  | [], _, s => pure s
  | b :: bytes, addr, s =>
    match s.entry (addrToPte addr) with
    | none => throw .pageFault
    | some e =>
      let page := update (s.mem (addrToPte e)) (getbit12 addr) b
      Space.store bytes (addr + 1) { s with mem := update s.mem (addrToPte e) page }

/-- An executable file: its name, the file system, what the array `header` holds before it is
    read, and whether it is the shell. -/
structure Program where
  fs : FileSystem
  fname : Nat → UInt8
  header : Nat → UInt8
  shell : Bool

/-- `magic_number` -/
def magicNumber : List UInt8 := [0x7f, 0x45, 0x4c, 0x46]

/-- The part of `pro_loader` before the memory is allocated: the inode of an executable file. -/
def Program.inode (program : Program) : Except VmFault (Option UInt32) :=
  match readDentryByName program.fs program.fname with
  | none => pure none
  | some dentry =>
    if dentry.inode.toInt32 < 0 then
      pure none
    else
      match readData program.fs dentry.inode 0 true 40 with
      | .error _ => throw .pageFault
      | .ok (r, bytes) =>
        if r < 0 then
          pure none
        else if (List.range 4).map (fun i => bytes.getD i (program.header i)) = magicNumber then
          pure (some dentry.inode)
        else
          pure none

/-- `pro_loader` for the process `t`; what `vmalloc` returns is not looked at.  A negative result
    stands for the negative results of the functions it calls. -/
def proLoader (program : Program) (s : VmState) (t : Nat) : Except VmFault (VmState × Int) := do
  match ← program.inode with
  | none => return (s, -1)
  | some inode =>
    let size := (program.fs.inodes inode).size
    let fileLength := (size + 4095) / 4096
    match (s.vms t).mapList with
    | [] => throw .pageFault
    | file :: rest =>
      let (space, file, _) ← vmalloc s.toSpace file (fileLength * 4096).toInt32.toInt (pteRw ||| pteUs)
      let vm := { s.vms t with mapList := file :: rest, fileLength := fileLength.toNat }
      match readData program.fs inode 0 true size with
      | .error _ => throw .pageFault
      | .ok (r, bytes) =>
        let space ← Space.store bytes programImgBegin space
        return ({ s with toSpace := space }.setVm t vm, if r < 0 then -1 else 0)

/-! ## Creating processes -/

/-- The memory in `__exec(parent, cmd, kthread)` after the arguments have been parsed.  When the
    program cannot be loaded, `process_free` maps the parent again. -/
def execVm (program : Program) (s : VmState) (parent child : Nat) (kthread : Bool) :
    Except VmFault (VmState × Int) := do
  let s ← umap (s.setVm child processVmInit) parent child
  let (s, errno) ← proLoader program s child
  if errno < 0 then
    return (← umap s child parent, errno)
  else if kthread then
    return (← userMemUnmap s child, 0)
  else
    return (s, 0)

/-- The memory in `do_fork(parent, kthread)`. -/
def forkVm (s : VmState) (junk : Area) (parent child : Nat) : Except VmFault VmState := do
  let s := s.setVm child processVmInit
  let (space, vm) ← vmcopy s.toSpace junk (s.vms parent)
  umap ({ s with toSpace := space }.setVm child vm) child parent

end Illinix.Kernel
