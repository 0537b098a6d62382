import Illinix.Lib.Run
import Illinix.User.Malloc

/-! # Blocks of `malloc`

As long as `malloc` cuts its blocks from the chunks, they lie behind one another.  When a chunk
cannot serve a request, its rest is put on a list under another index than the one that requests
of its size look at; a later, larger request then gets a block that is too short. -/

namespace Illinix.Verified.Malloc

open User List
open Kernel (sub32)
open Lib Function

/-! ## Size classes -/

theorem blockIndex_le_eight {x : Nat} (small : x ≤ 8) : blockIndex x = 5 := by
  unfold blockIndex
  exact if_pos small

theorem blockIndex_of_gt {x : Nat} (large : 8 < x) (bound : x + 7 < 2 ^ 32) : blockIndex x = Nat.log2 (x + 7) + 1 := by
  have nonzero : x + 7 ≠ 0 := by omega
  have log : Nat.log2 (x + 7) < 32 := (Nat.log2_lt nonzero).mpr bound
  unfold blockIndex builtinClz
  rw [if_neg (by omega), Nat.mod_eq_of_lt bound]
  omega

/-- The class `k` serves a request iff it leaves eight bytes. -/
theorem blockIndex_le_iff {x k : Nat} (low : 5 ≤ k) (bound : x + 7 < 2 ^ 32) : blockIndex x ≤ k ↔ x + 8 ≤ 2 ^ k := by
  have power : 2 ^ 5 ≤ 2 ^ k := Nat.pow_le_pow_right (by decide) low
  by_cases small : x ≤ 8
  · rw [blockIndex_le_eight small]
    omega
  · rw [blockIndex_of_gt (by omega) bound, Nat.succ_le_iff, Nat.log2_lt (by omega)]
    omega

theorem start_le_blockIndex {x : Nat} (bound : x + 7 < 2 ^ 32) : start ≤ blockIndex x := by
  unfold start
  by_cases small : x ≤ 8
  · exact Nat.le_of_eq (blockIndex_le_eight small).symm
  · rw [blockIndex_of_gt (by omega) bound]
    have log : 4 ≤ Nat.log2 (x + 7) := (Nat.le_log2 (by omega)).mpr (by omega)
    omega

/-- A request that a block of a chunk can serve. -/
def PoolSize (n : Nat) : Prop := 1 ≤ n ∧ n ≤ 4088

instance (n : Nat) : Decidable (PoolSize n) := inferInstanceAs (Decidable (_ ∧ _))

section

variable {n : Nat}

theorem PoolSize.start_le (ok : PoolSize n) : start ≤ blockIndex n := by
  have bound := ok.2
  exact start_le_blockIndex (by omega)

theorem PoolSize.le_stop (ok : PoolSize n) : blockIndex n ≤ stop := by
  have bound := ok.2
  apply (blockIndex_le_iff (by decide) (by omega)).mpr
  change n + 8 ≤ 2 ^ 12
  omega

/-- The size of the block for a request. -/
def blockSize (n : Nat) : Nat := 2 ^ blockIndex n

theorem PoolSize.shl1 (ok : PoolSize n) : shl1 (blockIndex n) = blockSize n := by
  have high := ok.le_stop
  unfold User.shl1 blockSize
  unfold stop at high
  rw [Nat.mod_eq_of_lt (by omega)]

theorem PoolSize.blockSize_le (ok : PoolSize n) : blockSize n ≤ chunkSize := by
  have le : 2 ^ blockIndex n ≤ 2 ^ stop := Nat.pow_le_pow_right (by decide) ok.le_stop
  exact le

theorem PoolSize.unit (ok : PoolSize n) : 32 ∣ blockSize n := by
  have dvd : 2 ^ start ∣ 2 ^ blockIndex n := Nat.pow_dvd_pow 2 ok.start_le
  exact dvd

end

/-! ## The allocator -/

section

variable (s : Heap) (idx ptr word : Nat)

@[simp] theorem store_freeList : (s.store ptr word).freeList = s.freeList := rfl

@[simp] theorem store_index : (s.store ptr word).index = s.index := rfl

@[simp] theorem store_brk : (s.store ptr word).brk = s.brk := rfl

@[simp] theorem store_munmaps : (s.store ptr word).munmaps = s.munmaps := rfl

@[simp] theorem store_mem : (s.store ptr word).mem = update s.mem ptr word := rfl

@[simp] theorem add_freeList : (add s idx ptr).freeList = s.freeList := rfl

@[simp] theorem add_index : (add s idx ptr).index = update s.index idx ptr := rfl

@[simp] theorem add_brk : (add s idx ptr).brk = s.brk := rfl

@[simp] theorem add_munmaps : (add s idx ptr).munmaps = s.munmaps := rfl

@[simp] theorem newChunk_heap : (newChunk s).heap = s.brk := rfl

@[simp] theorem newChunk_index : (newChunk s).index = s.index := rfl

@[simp] theorem newChunk_sizeUsable : (newChunk s).sizeUsable = chunkSize := rfl

@[simp] theorem newChunk_munmaps : (newChunk s).munmaps = s.munmaps := rfl

@[simp] theorem newChunk_mem : (newChunk s).mem = s.mem := rfl

@[simp] theorem add_mem : (add s idx ptr).mem = update s.mem ptr (s.index idx) := rfl

end

/-- `set_up_free_list` at the first call. -/
def ready (s : Heap) : Heap := if s.freeList = 0 then setUpFreeList s else s

theorem allocate_pool {n : Nat} (ok : PoolSize n) (s : Heap) :
    allocate s n = some (poolAlloc (refill (ready s) (blockSize n)) (blockIndex n - start) (blockSize n)) := by
  have nonzero : n ≠ 0 := Nat.ne_of_gt ok.1
  simp only [allocate, if_neg nonzero, ok.shl1, if_neg (Nat.not_lt.mpr ok.le_stop), ready]

/-- The current chunk. -/
structure ChunkOk (base : Nat) (s : Heap) : Prop where
  list : s.freeList = base
  low : base + sizeofList + len * sizeofSize + 40 ≤ s.heap
  high : s.heap + s.sizeUsable ≤ s.brk
  usable : s.sizeUsable ≤ chunkSize
  unit : 32 ∣ s.sizeUsable

section

variable {base : Nat} {s : Heap}

theorem setUpFreeList_ok (first : s.brk = base) : ChunkOk base (setUpFreeList s) := by
  subst first
  constructor <;> simp only [setUpFreeList, sbrk]
  · exact Nat.le_refl _
  · unfold sizeofList len sizeofSize chunkSize
    omega
  · exact Nat.sub_le _ _
  · decide

/-- The list that the rest of a chunk is put on. -/
def restIndex (s : Heap) : Nat := blockIndex (sub32 s.sizeUsable 8)

/-- The rest of the chunk is put on a list. -/
def RestListed (s : Heap) : Prop := 32 ≤ shl1 (restIndex s)

theorem listRest_listed (listed : RestListed s) :
    listRest s = add (s.store s.heap (shl1 (restIndex s))) (restIndex s) (s.heap + sizeofSize) := by
  unfold RestListed restIndex at listed
  unfold listRest restIndex
  rw [if_pos listed]

theorem listRest_unlisted (unlisted : ¬ RestListed s) : listRest s = s := by
  unfold RestListed restIndex at unlisted
  unfold listRest
  rw [if_neg unlisted]

/-- Putting the rest on a list changes the lists and the words of the rest only. -/
theorem listRest_frame (s : Heap) : (listRest s).freeList = s.freeList ∧ (listRest s).brk = s.brk ∧
    (listRest s).munmaps = s.munmaps ∧ (∀ idx ≠ restIndex s, (listRest s).index idx = s.index idx) ∧
    ∀ addr < s.heap, (listRest s).mem addr = s.mem addr := by
  by_cases listed : RestListed s
  · rw [listRest_listed listed]
    simp only [add_freeList, store_freeList, add_brk, store_brk, add_munmaps, store_munmaps, add_index, store_index,
      add_mem, store_mem]
    refine ⟨trivial, trivial, trivial, fun idx other => ?_, fun addr below => ?_⟩
    · exact update_of_ne other ..
    · rw [update_of_ne (by omega), update_of_ne (by omega)]
  · rw [listRest_unlisted listed]
    exact ⟨rfl, rfl, rfl, fun _ _ => rfl, fun _ _ => rfl⟩

theorem refill_enough {size : Nat} (fits : size ≤ s.sizeUsable) : refill s size = s := if_neg (Nat.not_lt.mpr fits)

theorem refill_short {size : Nat} (short : s.sizeUsable < size) : refill s size = newChunk (listRest s) :=
  if_pos short

theorem newChunk_ok (list : s.freeList = base) (low : base + sizeofList + len * sizeofSize + 40 ≤ s.brk) :
    ChunkOk base (newChunk s) where
  list := list
  low := low
  high := Nat.le_refl _
  usable := Nat.le_refl _
  unit := show 32 ∣ chunkSize by decide

theorem ChunkOk.refill (ok : ChunkOk base s) (size : Nat) : ChunkOk base (refill s size) := by
  by_cases fits : size ≤ s.sizeUsable
  · rw [refill_enough fits]
    exact ok
  · have low := ok.low
    have high := ok.high
    obtain ⟨list, brk, -⟩ := listRest_frame s
    rw [refill_short (Nat.not_le.mp fits)]
    apply newChunk_ok
    · exact list.trans ok.list
    · omega

/-- After `refill` the chunk has room for the block, behind the blocks so far. -/
theorem ChunkOk.refill_room (ok : ChunkOk base s) {size : Nat} (bound : size ≤ chunkSize) :
    size ≤ (User.refill s size).sizeUsable ∧ s.heap ≤ (User.refill s size).heap := by
  by_cases fits : size ≤ s.sizeUsable
  · rw [refill_enough fits]
    exact ⟨fits, Nat.le_refl _⟩
  · have high := ok.high
    obtain ⟨-, brk, -⟩ := listRest_frame s
    rw [refill_short (Nat.not_le.mp fits), newChunk_sizeUsable, newChunk_heap, brk]
    exact ⟨bound, by omega⟩

/-- The heap after a block has been cut from the current chunk. -/
def carve (s : Heap) (size : Nat) : Heap :=
  { s with
    heap := s.heap + size
    sizeUsable := sub32 s.sizeUsable size
    mem := Function.update s.mem s.heap (size ||| 2 ^ lastBit) }

theorem poolAlloc_carve {idx size : Nat} (none : s.index idx = 0) :
    poolAlloc s idx size = (carve s size, s.heap + sizeofSize) := by
  unfold poolAlloc
  rw [if_neg (not_not.mpr none)]
  simp only [setFlag, Heap.store, Nat.add_sub_cancel, update_self, update_idem]
  rfl

theorem ChunkOk.carve (ok : ChunkOk base s) {size : Nat} (fits : size ≤ s.sizeUsable) (unit : 32 ∣ size) :
    ChunkOk base (carve s size) := by
  have low := ok.low
  have high := ok.high
  have usable := ok.usable
  have left : sub32 s.sizeUsable size = s.sizeUsable - size := by
    unfold sub32
    unfold chunkSize at usable
    omega
  constructor
  · exact ok.list
  · change _ ≤ s.heap + size
    omega
  · change s.heap + size + sub32 s.sizeUsable size ≤ s.brk
    omega
  · change sub32 s.sizeUsable size ≤ chunkSize
    omega
  · change 32 ∣ sub32 s.sizeUsable size
    rw [left]
    exact Nat.dvd_sub ok.unit unit

end

/-! ## Runs -/

/-- The heap, with the address and the size of every block that was returned. -/
structure Blocks where
  heap : Heap
  blocks : List (Nat × Nat)

def mallocExec (s : Blocks) (n : Nat) : Option Blocks :=
  (malloc s.heap n).map fun r => ⟨r.1, s.blocks ++ [(r.2 - sizeofSize, blockSize n)]⟩

/-- The bytes of the blocks come from `sbrk`, which returned its first chunk at `base`, and each
    belongs to one block only and not to the structure `*free_list` or its array. -/
structure BlocksOk (base : Nat) (s : Blocks) : Prop where
  inside : ∀ b ∈ s.blocks, base ≤ b.1 ∧ b.1 + b.2 ≤ s.heap.brk
  disjoint : s.blocks.Pairwise fun b c => b.1 + b.2 ≤ c.1 ∨ c.1 + c.2 ≤ b.1
  structures : ∀ b ∈ s.blocks, b.1 + b.2 ≤ s.heap.freeList ∨
    s.heap.freeList + sizeofList + len * sizeofSize ≤ b.1

/-- The request does not find a block on its list, where the rest of a chunk might have been put
    before or by this call. -/
def NoneListed (s : Heap) (n : Nat) : Prop :=
  s.freeList ≠ 0 → s.index (blockIndex n - start) = 0 ∧
    (s.sizeUsable < blockSize n → restIndex s ≠ blockIndex n - start)

def MallocStep (s : Blocks) (n : Nat) (s' : Blocks) : Prop :=
  PoolSize n ∧ mallocExec s n = some s'

def CarefulMalloc (s : Blocks) (n : Nat) (s' : Blocks) : Prop :=
  NoneListed s.heap n ∧ MallocStep s n s'

/-- Nothing has been allocated yet; `sbrk` does not return `NULL`. -/
structure Untouched (base : Nat) (s : Heap) : Prop where
  list : s.freeList = 0
  brk : s.brk = base
  positive : 0 < base

/-- The blocks so far are in front of `free_list->heap`. -/
structure Behind (base : Nat) (s : Blocks) : Prop where
  start : Untouched base s.heap ∧ s.blocks = [] ∨ ChunkOk base s.heap ∧ 0 < base
  below : ∀ b ∈ s.blocks, base + sizeofList + len * sizeofSize + 40 ≤ b.1 ∧ b.1 + b.2 ≤ s.heap.heap
  disjoint : s.blocks.Pairwise fun b c => b.1 + b.2 ≤ c.1 ∨ c.1 + c.2 ≤ b.1

section

variable {base n : Nat} {s s' : Blocks}

theorem Behind.ready (inv : Behind base s) : ChunkOk base (ready s.heap) ∧ 0 < base ∧
    ∀ b ∈ s.blocks, b.1 + b.2 ≤ (Malloc.ready s.heap).heap := by
  unfold Malloc.ready
  rcases inv.start with ⟨fresh, none⟩ | ⟨chunk, positive⟩
  · rw [if_pos fresh.list, none]
    exact ⟨setUpFreeList_ok fresh.brk, fresh.positive, forall_mem_nil _⟩
  · have set : s.heap.freeList ≠ 0 := by
      rw [chunk.list]
      omega
    rw [if_neg set]
    exact ⟨chunk, positive, fun b mem => (inv.below b mem).2⟩

theorem refill_index_none {h : Heap} {size idx : Nat} (none : h.index idx = 0)
    (other : h.sizeUsable < size → restIndex h ≠ idx) : (refill h size).index idx = 0 := by
  by_cases fits : size ≤ h.sizeUsable
  · rw [refill_enough fits]
    exact none
  · have short := Nat.not_le.mp fits
    obtain ⟨-, -, -, index, -⟩ := listRest_frame h
    rw [refill_short short, newChunk_index, index idx (Ne.symm (other short))]
    exact none

theorem NoneListed.index {h : Heap} (ok : PoolSize n) (none : NoneListed h n) :
    (refill (Malloc.ready h) (blockSize n)).index (blockIndex n - User.start) = 0 := by
  have high := ok.le_stop
  unfold Malloc.ready
  by_cases first : h.freeList = 0
  · rw [if_pos first]
    apply refill_index_none
    · apply if_pos
      unfold stop at high
      unfold User.start len
      omega
    · -- the rest of the first chunk would be put on list 12, behind the array
      intro _
      have usable : (setUpFreeList h).sizeUsable = 3968 := rfl
      have rest : restIndex (setUpFreeList h) = 12 := by
        unfold restIndex
        rw [usable]
        decide +kernel
      unfold stop at high
      unfold User.start
      omega
  · rw [if_neg first]
    obtain ⟨here, other⟩ := none first
    exact refill_index_none here other

/-- A block is cut from a chunk behind all blocks so far. -/
theorem Behind.push {h : Heap} {size : Nat} (inv : Behind base s) (chunk : ChunkOk base h) (positive : 0 < base)
    (before : ∀ b ∈ s.blocks, b.1 + b.2 ≤ h.heap) (fits : size ≤ h.sizeUsable) (unit : 32 ∣ size) :
    Behind base ⟨carve h size, s.blocks ++ [(h.heap, size)]⟩ := by
  constructor
  · exact .inr ⟨chunk.carve fits unit, positive⟩
  · intro b mem
    change _ ∧ b.1 + b.2 ≤ h.heap + size
    rcases mem_append.mp mem with old | new
    · have ends := before b old
      exact ⟨(inv.below b old).1, by omega⟩
    · rw [mem_singleton.mp new]
      exact ⟨chunk.low, Nat.le_refl _⟩
  · apply pairwise_append.mpr
    refine ⟨inv.disjoint, pairwise_singleton _ _, fun b old c new => ?_⟩
    rw [mem_singleton.mp new]
    exact .inl (before b old)

theorem Behind.refill (inv : Behind base s) (ok : PoolSize n) :
    ChunkOk base (refill (Malloc.ready s.heap) (blockSize n)) ∧ 0 < base ∧
    (∀ b ∈ s.blocks, b.1 + b.2 ≤ (User.refill (Malloc.ready s.heap) (blockSize n)).heap) ∧
    blockSize n ≤ (User.refill (Malloc.ready s.heap) (blockSize n)).sizeUsable := by
  obtain ⟨chunk, positive, before⟩ := inv.ready
  obtain ⟨fits, forward⟩ := chunk.refill_room ok.blockSize_le
  exact ⟨chunk.refill _, positive, fun b mem => Nat.le_trans (before b mem) forward, fits⟩

theorem malloc_carve {h : Heap} (ok : PoolSize n) (none : NoneListed h n) :
    malloc h n = some (carve (refill (Malloc.ready h) (blockSize n)) (blockSize n),
      (refill (Malloc.ready h) (blockSize n)).heap + sizeofSize) := by
  unfold malloc
  rw [allocate_pool ok, poolAlloc_carve (none.index ok)]

theorem Behind.step (inv : Behind base s) (step : CarefulMalloc s n s') : Behind base s' := by
  obtain ⟨none, ok, done⟩ := step
  obtain ⟨chunk, positive, before, fits⟩ := inv.refill ok
  unfold mallocExec at done
  rw [malloc_carve ok none, Option.map_some, Option.some.injEq] at done
  rw [← done]
  exact inv.push chunk positive before fits ok.unit

theorem Behind.blocksOk (inv : Behind base s) : BlocksOk base s := by
  constructor
  · intro b mem
    obtain ⟨low, high⟩ := inv.below b mem
    rcases inv.start with ⟨-, none⟩ | ⟨chunk, -⟩
    · rw [none] at mem
      cases mem
    · have room := chunk.high
      exact ⟨by omega, by omega⟩
  · exact inv.disjoint
  · intro b mem
    obtain ⟨low, -⟩ := inv.below b mem
    rcases inv.start with ⟨-, none⟩ | ⟨chunk, -⟩
    · rw [none] at mem
      cases mem
    · rw [chunk.list]
      exact .inr (by omega)

end

/-- The blocks of a run are disjoint and lie in memory from `sbrk`, if no request finds the rest of a
    chunk on its list.  A further request returns a block. -/
theorem blocks_disjoint {base : Nat} {h : Heap} {sizes : List Nat} {s : Blocks} (fresh : Untouched base h)
    (run : Run CarefulMalloc ⟨h, []⟩ sizes s) :
    BlocksOk base s ∧ ∀ n, PoolSize n → ∃ s', mallocExec s n = some s' := by
  have initial : Behind base ⟨h, []⟩ := ⟨.inl ⟨fresh, rfl⟩, forall_mem_nil _, .nil⟩
  have inv := run.invariant (fun _ _ _ inv step => Behind.step inv step) initial
  refine ⟨inv.blocksOk, fun n ok => ?_⟩
  unfold mallocExec malloc
  rw [allocate_pool ok]
  exact ⟨_, rfl⟩

/-- A heap whose first chunk is at 0x8800000. -/
def emptyHeap : Heap := ⟨0, 0, fun _ => 0, 0, fun _ => 0, 0x8800000, [], []⟩

instance (s : Heap) (n : Nat) : Decidable (NoneListed s n) :=
  inferInstanceAs (Decidable (_ → _ ∧ (_ → _)))

theorem blocks_disjoint_three : ∃ s, Run CarefulMalloc ⟨emptyHeap, []⟩ [4088, 100, 100] s ∧
    BlocksOk 0x8800000 s ∧ ∀ n, PoolSize n → ∃ s', mallocExec s n = some s' := by
  have found : (attempt (fun s n => NoneListed s.heap n ∧ PoolSize n) mallocExec ⟨emptyHeap, []⟩ [4088, 100, 100]).any
      (fun _ => true) = true := by
    decide +kernel
  obtain ⟨s, run, -⟩ := exists_run CarefulMalloc (fun _ _ _ ok done => ⟨ok.1, ok.2, done⟩) found
  exact ⟨s, run, blocks_disjoint ⟨rfl, rfl, by decide⟩ run⟩

/-- After six requests 32 bytes of the first chunk are left.  They are put on the list for blocks of
    1024 bytes when the seventh request needs a new chunk, and the eighth request gets them. -/
theorem rest_overlaps : ∃ s, Run MallocStep ⟨emptyHeap, []⟩ [2040, 1016, 504, 248, 56, 24, 56, 1016] s ∧
    ¬ BlocksOk 0x8800000 s := by
  have found : (attempt (fun _ n => PoolSize n) mallocExec ⟨emptyHeap, []⟩
      [2040, 1016, 504, 248, 56, 24, 56, 1016]).any
      (fun s => ¬ s.blocks.Pairwise fun b c => b.1 + b.2 ≤ c.1 ∨ c.1 + c.2 ≤ b.1) = true := by
    decide +kernel
  obtain ⟨s, run, bad⟩ := exists_run MallocStep (fun _ _ _ ok done => ⟨ok, done⟩) found
  exact ⟨s, run, fun ok => of_decide_eq_true bad ok.disjoint⟩

end Illinix.Verified.Malloc
