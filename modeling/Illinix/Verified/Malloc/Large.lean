import Illinix.Lib.Ensures
import Illinix.User.LargeMalloc
import Illinix.Verified.Vm.Sbrk

/-! # Large allocations

`bulk_alloc` asks `mmap` for memory anywhere, with the address `NULL`.  For `sys_mmap` this is an address of the kernel,
which it rejects; `bulk_alloc` then returns `NULL`, and `allocate` stores the size there.  Nothing is ever mapped. -/

namespace Illinix.Verified.Malloc

open Kernel Lib Verified.Vm
open User (Client chunkSize builtinClz)
open User.Client

/-! ## What a large allocation is for -/

/-- The processor finds a page for the address. -/
def Mapped (s : VmState) (a : ℕ) : Prop :=
  a < 2 ^ 32 ∧ (LargeSlot s.toPaging (pdeMbAddr a) ∨ (s.entry (addrToPte a)).isSome = true)

/-- The block at `p`, with the word in front of it, is memory that was mapped between `m` and `m'`, and belongs to none
    of the allocations `live`. -/
def OwnMemory (live : List (ℕ × ℕ)) (m m' : Client) (p size : ℕ) : Prop :=
  ∀ a, p ≤ a + 4 → a < p + size →
    (Mapped m'.vm a ∧ ¬ Mapped m.vm a) ∧ ∀ b ∈ live, ¬ (b.1 ≤ a ∧ a < b.1 + b.2)

/-- `malloc` returns `NULL` and stores nothing, or it returns memory of its own. -/
def LargeOk (clz0 : ℤ) (live : List (ℕ × ℕ)) (m : Client) (size : ℕ) : Prop :=
  ∃ p m', malloc clz0 size m = .ok (p, m') ∧
    ((p = 0 ∧ m'.stores = m.stores) ∨ (p ≠ 0 ∧ OwnMemory live m m' p size))

/-- The heap of the process is in the user part of memory. -/
structure UserHeap (m : Client) : Prop where
  tables : TablesOk m.vm.toPaging
  slots : UserSlots m.vm.toPaging
  frame : ∀ f ∈ m.vm.frames, FrameOk f
  heap : ∀ area ∈ (m.vm.vms m.thread).mapList, area.vmflag &&& vmHeap ≠ 0 →
    area.vmend % pageSize = 0 ∧ kernelEnd ≤ area.vmend ∧ area.vmend ≤ 2 ^ 31

/-! ## The first page -/

section

/-- An area may grow by `n` pages without leaving the user part. -/
def Above (n : ℕ) (area : Area) : Prop :=
  area.vmflag &&& vmHeap ≠ 0 → area.vmend % pageSize = 0 ∧ kernelEnd ≤ area.vmend ∧ area.vmend + pageSize * n < 2 ^ 32

/-- The first page is not mapped anew in `s'`. -/
structure Calm (s s' : Space) : Prop where
  tables : TablesOk s'.toPaging
  slots : UserSlots s'.toPaging
  frame : ∀ f ∈ s'.frames, FrameOk f
  first : LargeSlot s'.toPaging 0 ∨ (s'.entry 0).isSome = true → LargeSlot s.toPaging 0 ∨ (s.entry 0).isSome = true

variable {s s' s0 : Space} {area area' : Area} {n : ℕ} {r : ℤ}

theorem Calm.stored {p : Paging} {va e : ℕ} {frames : List ℕ} (calm : Calm s0 s) (above : kernelEnd ≤ va)
    (stored : Stored s.toPaging va (some e) 1 p) (fewer : ∀ f ∈ frames, f ∈ s.frames) :
    Calm s0 { s with toPaging := p, frames } where
  tables := stored.tables
  slots u page high := (stored.user u).mpr (calm.slots u page high)
  frame f mem := calm.frame f (fewer f mem)
  first mapped := by
    apply calm.first
    by_cases large : LargeSlot s.toPaging 0
    · exact .inl large
    · have user : UserPage s.toPaging 0 := ⟨by decide, large⟩
      have other : 0 ≠ va := by
        unfold kernelEnd at above
        omega
      rcases mapped with large' | entry
      · exact absurd large' ((stored.user 0).mpr user).2
      · rw [stored.entry 0 user, if_neg other] at entry
        exact .inr entry

theorem Calm.vmalloc (calm : Calm s0 s) (above : area.vmflag &&& vmHeap ≠ 0 ∧ Above (n + 1) area)
    (done : Kernel.vmalloc s area pageSize (pteRw ||| pteUs) = .ok (s', area', r)) :
    Calm s0 s' ∧ Above n area' := by
  obtain ⟨aligned, high, room⟩ := above.2 above.1
  have one : addrToPte ((pageSize : ℤ).toNat + pageSize - 1) = pageSize := by decide
  have less : area.vmend + pageSize * n < 2 ^ 32 := by
    unfold pageSize at room ⊢
    omega
  have word : (area.vmend + pageSize) % 2 ^ 32 = area.vmend + pageSize := by
    unfold pageSize at room ⊢
    omega
  have page : pageRange area.vmend (area.vmend + pageSize) = [area.vmend] := by
    have pages := pageRange_pages area.vmend 1
    rw [Nat.mul_one] at pages
    rw [pages, List.range_one, List.map_singleton, Nat.mul_zero, Nat.add_zero]
  rcases vmalloc_cases done with ⟨rfl, rfl, -⟩ | ⟨-, -, blocks, mmap, loop⟩
  · exact ⟨calm, fun _ => ⟨aligned, high, less⟩⟩
  · simp only [one, word, page] at loop
    have calm : Calm s0 { s with blocks } := ⟨calm.tables, calm.slots, calm.frame, calm.first⟩
    obtain ⟨-, stop, -⟩ := vmallocFrom_area loop
    have grown : Above n area' := by
      intro _
      rw [stop]
      dsimp only
      unfold pageSize at aligned room ⊢
      omega
    refine ⟨?_, grown⟩
    have user : UserPage s.toPaging area.vmend := by
      refine calm.slots _ ⟨aligned, ?_⟩ high
      omega
    rcases vmallocFrom_cons calm.frame loop with ⟨-, rfl, -⟩ | ⟨pa, rest, p, _, frames, entered, success, done⟩
    · exact calm
    · cases done
      have frame := calm.frame pa (frames ▸ List.mem_cons_self)
      obtain ⟨-, stored⟩ := mmap_stored calm.tables user frame.1 (by decide) (by decide) entered success
      exact calm.stored high stored fun f mem => frames ▸ List.mem_cons_of_mem _ mem

end

/-! ## Calls of the library -/

section

/-- Since `s` the first page has not been mapped anew and `k` words have been stored; the heap may still grow by `n`
    pages. -/
structure Quiet (s : VmState) (k n : ℕ) (m : Client) : Prop where
  calm : Calm s.toSpace m.vm.toSpace
  above : ∀ area ∈ (m.vm.vms m.thread).mapList, Above n area
  stored : k ≤ m.stores.length

variable {s : VmState} {k n : ℕ}

theorem load_ensures (addr : ℕ) (P : Client → Prop) : Ensures P (load addr) fun _ => P := by
  constructor
  intro m w m' holds done
  obtain ⟨b0, -, done⟩ := bind_eq_ok.mp done
  obtain ⟨b1, -, done⟩ := bind_eq_ok.mp done
  obtain ⟨b2, -, done⟩ := bind_eq_ok.mp done
  obtain ⟨b3, -, done⟩ := bind_eq_ok.mp done
  cases done
  exact holds

/-- A byte that is stored changes the contents of a frame only. -/
theorem storeByte_inv {v v' : VmState} {addr : ℕ} {b : UInt8} (done : storeByte v addr b = .ok v') :
    ∃ mem, v' = { v with mem } := by
  obtain ⟨space, stored, same⟩ := bind_eq_ok.mp done
  cases same
  unfold Space.store at stored
  split at stored
  · cases stored
  · cases stored
    exact ⟨_, rfl⟩

theorem store_inv {m m' : Client} {addr word : ℕ} {u : Unit} (done : store addr word m = .ok (u, m')) :
    ∃ mem, m' = { m with vm := { m.vm with mem }, stores := addr :: m.stores } := by
  obtain ⟨v1, first, done⟩ := bind_eq_ok.mp done
  obtain ⟨v2, second, done⟩ := bind_eq_ok.mp done
  obtain ⟨v3, third, done⟩ := bind_eq_ok.mp done
  obtain ⟨v4, fourth, done⟩ := bind_eq_ok.mp done
  cases done
  obtain ⟨_, rfl⟩ := storeByte_inv first
  obtain ⟨_, rfl⟩ := storeByte_inv second
  obtain ⟨_, rfl⟩ := storeByte_inv third
  obtain ⟨_, rfl⟩ := storeByte_inv fourth
  exact ⟨_, rfl⟩

theorem store_counts (addr word : ℕ) : Ensures (Quiet s k n) (store addr word) fun _ => Quiet s (k + 1) n := by
  constructor
  intro m u m' quiet done
  obtain ⟨mem, rfl⟩ := store_inv done
  exact ⟨⟨quiet.calm.tables, quiet.calm.slots, quiet.calm.frame, quiet.calm.first⟩, quiet.above,
    Nat.succ_le_succ quiet.stored⟩

theorem Quiet.fewer {m : Client} (quiet : Quiet s (k + 1) n m) : Quiet s k n m :=
  ⟨quiet.calm, quiet.above, Nat.le_of_succ_le quiet.stored⟩

theorem store_ensures (addr word : ℕ) : Ensures (Quiet s k n) (store addr word) fun _ => Quiet s k n :=
  (store_counts addr word).weaken fun _ _ quiet => quiet.fewer

/-- `sys_sbrk` enters at most one page, at the end of the heap. -/
theorem sysSbrk_calm {v v' : VmState} {t size r : ℕ} (calm : Calm s.toSpace v.toSpace)
    (above : ∀ area ∈ (v.vms t).mapList, Above (n + 1) area) (done : sysSbrk v t size = .ok (v', r)) :
    Calm s.toSpace v'.toSpace ∧ ∀ area ∈ (v'.vms t).mapList, Above n area := by
  have less : ∀ area ∈ (v.vms t).mapList, Above n area := by
    intro area mem flagged
    obtain ⟨aligned, high, room⟩ := above area mem flagged
    refine ⟨aligned, high, ?_⟩
    unfold pageSize at room ⊢
    omega
  simp only [Kernel.sysSbrk] at done
  split at done
  · obtain ⟨⟨space, mapList, result⟩, grown, done⟩ := bind_eq_ok.mp done
    have after : Calm s.toSpace space ∧ ∀ area ∈ mapList, Above n area := by
      rcases onFirst_ok grown with ⟨rfl, rfl, -⟩ | ⟨before, a, after, a', r', first, split, allocated, rfl, -⟩
      · exact ⟨calm, less⟩
      · have flagged : a.vmflag &&& vmHeap ≠ 0 := by simpa using List.find?_some first
        rw [split] at above less
        obtain ⟨calm', above'⟩ := calm.vmalloc ⟨flagged, above a (by simp)⟩ allocated
        refine ⟨calm', fun area mem => ?_⟩
        rw [List.mem_append, List.mem_cons] at mem
        rcases mem with mem | rfl | mem
        · exact less area (by simp [mem])
        · exact above'
        · exact less area (by simp [mem])
    split at done
    · cases done
      rw [setVm_self]
      exact after
    · split at done
      · cases done
        rw [setVm_self]
        exact after
      · obtain ⟨-, -, done⟩ := bind_eq_ok.mp done
        cases done
        rw [setVm_self, setVm_self]
        exact after
  · cases done
    rw [setVm_self]
    exact ⟨calm, less⟩

theorem sbrk_ensures (increment : ℕ) :
    Ensures (Quiet s k (n + 1)) (sbrk increment) fun _ => Quiet s k n := by
  constructor
  intro m r m' quiet done
  obtain ⟨⟨vm, r'⟩, grown, done⟩ := bind_eq_ok.mp done
  cases done
  obtain ⟨calm, above⟩ := sysSbrk_calm quiet.calm quiet.above grown
  exact ⟨calm, above, quiet.stored⟩

theorem setFlag_ensures (ptr : ℕ) : Ensures (Quiet s k n) (setFlag ptr) fun _ => Quiet s k n :=
  (load_ensures _ _).seq fun _ => store_ensures _ _

theorem slot_ensures (idx : ℤ) (P : Client → Prop) : Ensures P (slot idx) fun _ => P :=
  Ensures.get.seq fun _ => (load_ensures _ _).seq fun _ => .pure fun _ holds => holds

theorem add_ensures (idx : ℤ) (ptr : ℕ) : Ensures (Quiet s k n) (add idx ptr) fun _ => Quiet s k n := by
  unfold add
  apply (slot_ensures _ _).seq
  intro cell
  apply (load_ensures _ _).seq
  intro head
  apply (store_ensures _ _).seq
  intro _
  exact (slot_ensures _ _).seq fun _ => store_ensures _ _

theorem drop_ensures (idx : ℤ) : Ensures (Quiet s k n) (drop idx) fun _ => Quiet s k n := by
  unfold drop
  apply (slot_ensures _ _).seq
  intro cell
  apply (load_ensures _ _).seq
  intro ptr
  apply (load_ensures _ _).seq
  intro next
  apply (slot_ensures _ _).seq
  intro cell
  exact (store_ensures _ _).seq fun _ => .pure fun _ holds => holds

theorem clearWords_ensures (a i : ℕ) : Ensures (Quiet s k n) (clearWords a i) fun _ => Quiet s k n := by
  induction i with
  | zero => exact .pure fun _ holds => holds
  | succ i ih => exact ih.seq fun _ => store_ensures _ _

theorem setUpFreeList_ensures : Ensures (Quiet s k (n + 1)) setUpFreeList fun _ => Quiet s k n := by
  unfold setUpFreeList
  apply (sbrk_ensures _).seq
  intro heap
  have assigned : Ensures (Quiet s k n) (modify fun m => { m with freeList := heap } : Call Unit)
      fun _ => Quiet s k n := by
    constructor
    intro m _ m' quiet done
    cases done
    exact ⟨quiet.calm, quiet.above, quiet.stored⟩
  apply assigned.seq
  intro _
  apply Ensures.get.seq
  intro _
  apply (store_ensures _ _).seq
  intro _
  apply Ensures.get.seq
  intro _
  apply (store_ensures _ _).seq
  intro _
  apply Ensures.get.seq
  intro _
  apply (load_ensures _ _).seq
  intro index
  apply (clearWords_ensures _ _).seq
  intro _
  exact Ensures.get.seq fun _ => store_ensures _ _

theorem Quiet.shrink {m : Client} (quiet : Quiet s k (n + 1) m) : Quiet s k n m := by
  refine ⟨quiet.calm, fun area mem flagged => ?_, quiet.stored⟩
  obtain ⟨aligned, high, room⟩ := quiet.above area mem flagged
  refine ⟨aligned, high, ?_⟩
  unfold pageSize at room ⊢
  omega

theorem setUp_ensures : Ensures (Quiet s k (n + 1)) setUp fun _ => Quiet s k n := by
  unfold setUp
  apply Ensures.get.seq
  intro m
  apply Ensures.ite
  · exact fun _ => setUpFreeList_ensures
  · exact fun _ => .pure fun _ quiet => quiet.shrink

theorem listRest_ensures (clz0 : ℤ) (rest : ℕ) : Ensures (Quiet s k n) (listRest clz0 rest) fun _ => Quiet s k n := by
  unfold listRest
  apply Ensures.ite
  · intro _
    apply Ensures.get.seq
    intro _
    apply (load_ensures _ _).seq
    intro p
    exact (store_ensures _ _).seq fun _ => add_ensures _ _
  · exact fun _ => .pure fun _ holds => holds

theorem refill_ensures (clz0 : ℤ) (rest size : ℕ) :
    Ensures (Quiet s k (n + 1)) (refill clz0 rest size) fun _ => Quiet s k n := by
  unfold refill
  apply Ensures.ite
  · intro _
    apply (listRest_ensures _ _).seq
    intro _
    apply (sbrk_ensures _).seq
    intro heap
    apply Ensures.get.seq
    intro _
    apply (store_ensures _ _).seq
    intro _
    exact Ensures.get.seq fun _ => store_ensures _ _
  · exact fun _ => .pure fun _ quiet => quiet.shrink

/-- The size is stored at address 0, and the pointer behind it is returned. -/
theorem bulkBlock_ensures (size : ℕ) :
    Ensures (Quiet s k n) (bulkBlock size) fun p m => p = 4 ∧ Quiet s (k + 1) n m := by
  have null : Ensures (Quiet s k n) (bulkAlloc (wrap (size + User.sizeofSize))) fun p m => p = 0 ∧ Quiet s k n m := by
    constructor
    intro m p m' quiet done
    cases done
    exact ⟨rfl, quiet⟩
  have rest (ptr : ℕ) : Ensures (Quiet s k n) (do
      store ptr (Client.wrap (size + User.sizeofSize))
      setFlag ptr
      return Client.wrap (ptr + User.sizeofSize)) fun p m =>
        p = Client.wrap (ptr + User.sizeofSize) ∧ Quiet s (k + 1) n m := by
    apply (store_counts _ _).seq
    intro _
    exact (setFlag_ensures _).seq fun _ => .pure fun _ quiet => ⟨rfl, quiet⟩
  unfold bulkBlock
  apply null.bind
  intro ptr
  constructor
  rintro m p m' ⟨rfl, quiet⟩ done
  exact (rest 0).ends m p m' quiet done

theorem cutChunk_ensures (size : ℕ) : Ensures (Quiet s k n) (cutChunk size) fun _ => Quiet s k n := by
  unfold cutChunk
  apply Ensures.get.seq
  intro _
  apply (load_ensures _ _).seq
  intro heap
  apply Ensures.get.seq
  intro _
  apply (store_ensures _ _).seq
  intro _
  apply Ensures.get.seq
  intro _
  apply (load_ensures _ _).seq
  intro usable
  apply Ensures.get.seq
  intro _
  exact (store_ensures _ _).seq fun _ => .pure fun _ holds => holds

theorem takeBlock_ensures (idx : ℤ) (size : ℕ) :
    Ensures (Quiet s k n) (takeBlock idx size) fun _ => Quiet s k n := by
  unfold takeBlock
  apply (slot_ensures _ _).seq
  intro cell
  apply (load_ensures _ _).seq
  intro head
  exact .ite (fun _ => drop_ensures _) fun _ => cutChunk_ensures _

theorem poolBlock_ensures (idx : ℤ) (size : ℕ) :
    Ensures (Quiet s k n) (poolBlock idx size) fun _ => Quiet s (k + 1) n := by
  unfold poolBlock
  apply (takeBlock_ensures _ _).seq
  intro ptr
  apply (store_counts _ _).seq
  intro _
  exact (setFlag_ensures _).seq fun _ => .pure fun _ holds => holds

end

/-! ## Large requests -/

section

variable {s : VmState} {k n size : ℕ}

/-- A large size is one of a chunk only if the sum in `block_index` wraps around. -/
theorem large_of_blockIndex {clz0 : ℤ} (large : 4088 < size) (word : size < 2 ^ 32)
    (small : ¬ blockIndex clz0 size > User.stop) : 2 ^ 32 - 7 ≤ size := by
  by_contra less
  have sum : (size + 7) % 2 ^ 32 = size + 7 := Nat.mod_eq_of_lt (by omega)
  have bits : 12 ≤ Nat.log2 (size + 7) := (Nat.le_log2 (by omega)).mpr (by omega)
  apply small
  unfold blockIndex
  rw [if_neg (by omega), sum, if_neg (by omega)]
  unfold builtinClz User.stop
  omega

/-- A large request stores a word.  It returns the pointer behind `NULL`, unless its size wraps around. -/
theorem allocate_ensures (clz0 : ℤ) (large : 4088 < size) (word : size < 2 ^ 32) :
    Ensures (Quiet s k 2) (allocate clz0 size) fun p m => (p = 4 ∨ 2 ^ 32 - 7 ≤ size) ∧ Quiet s (k + 1) 0 m := by
  unfold allocate
  rw [if_neg (by omega)]
  apply setUp_ensures.seq
  intro _
  apply Ensures.get.seq
  intro _
  apply (load_ensures _ _).seq
  intro rest
  apply (refill_ensures _ _ _).seq
  intro _
  apply Ensures.ite
  · exact fun _ => (bulkBlock_ensures _).weaken fun _ _ done => ⟨.inl done.1, done.2⟩
  · exact fun small => (poolBlock_ensures _ _).weaken fun _ _ quiet =>
      ⟨.inr (large_of_blockIndex large word small), quiet⟩

theorem UserHeap.quiet {m : Client} (heap : UserHeap m) : Quiet m.vm m.stores.length 2 m := by
  refine ⟨⟨heap.tables, heap.slots, heap.frame, id⟩, fun area mem flagged => ?_, Nat.le_refl _⟩
  obtain ⟨aligned, high, low⟩ := heap.heap area mem flagged
  refine ⟨aligned, high, ?_⟩
  unfold pageSize
  omega

/-- The byte 8 is in the block that is returned, and it has not been mapped for it. -/
theorem not_ownMemory {live : List (ℕ × ℕ)} {m m' : Client} {p : ℕ} (large : 4088 < size)
    (pointer : p = 4 ∨ 2 ^ 32 - 7 ≤ size) (quiet : Quiet m.vm k n m') : ¬ OwnMemory live m m' p size := by
  intro own
  have bound : p + size ≤ 2 ^ 32 := by
    have last := (own (p + size - 1) (by omega) (by omega)).1.1.1
    omega
  obtain ⟨⟨new, old⟩, -⟩ := own 8 (by omega) (by omega)
  exact old ⟨by decide, quiet.calm.first new.2⟩

end

/-- No large request is served: none returns `NULL` without a store, and none returns memory that was mapped for it. -/
theorem large_malloc_never (clz0 : ℤ) (live : List (ℕ × ℕ)) {m : Client} (heap : UserHeap m) {size : ℕ}
    (large : 4088 < size) (word : size < 2 ^ 32) : ¬ LargeOk clz0 live m size := by
  rintro ⟨p, m', done, outcome⟩
  obtain ⟨pointer, quiet⟩ := (allocate_ensures clz0 large word).ends m p m' heap.quiet done
  rcases outcome with ⟨-, same⟩ | ⟨-, own⟩
  · have stored := quiet.stored
    rw [same] at stored
    omega
  · exact not_ownMemory large pointer quiet own

/-- A new process that has not allocated anything, with memory for two pages of its heap -/
def newClient : Client := ⟨{ sbrkState with blocks := [fun _ => 0, fun _ => 0] }, 0, 0, []⟩

theorem newClient_heap : UserHeap newClient where
  tables := sbrkState_start.tables
  slots := sbrkState_start.slots
  frame := sbrkState_start.frame
  heap := show ∀ area ∈ processVmInit.mapList, area.vmflag &&& vmHeap ≠ 0 →
    area.vmend % pageSize = 0 ∧ kernelEnd ≤ area.vmend ∧ area.vmend ≤ 2 ^ 31 by decide

theorem large_malloc_never_new : UserHeap newClient ∧ ¬ LargeOk 0 [] newClient 5000 :=
  ⟨newClient_heap, large_malloc_never 0 [] newClient_heap (by decide) (by decide)⟩

/-- The first request of a process for 5000 bytes ends in a page fault. -/
theorem large_malloc_faults :
    (match malloc 0 5000 newClient with
      | .ok _ => none
      | .error fault => some fault) = some .pageFault ∧ ¬ LargeOk 0 [] newClient 5000 := by
  have faults : (match malloc 0 5000 newClient with
      | .ok _ => none
      | .error fault => some fault) = some VmFault.pageFault := by decide +kernel
  refine ⟨faults, ?_⟩
  rintro ⟨p, m', done, -⟩
  rw [done] at faults
  cases faults

end Illinix.Verified.Malloc
