import Illinix.Verified.Malloc.Blocks
import Mathlib.Data.List.Nodup

/-! # Size classes of `malloc` and `free`

A list should hold blocks of one size.  `free` computes the list of a block from the block's own
size less the header, for which `block_index` gives the next larger class; so every block that is
freed ends up on the wrong list, or in `munmap`.  Without `free` the lists stay empty, as long as
no rest of a chunk is put on one of them. -/

namespace Illinix.Verified.Malloc

open User
open Kernel (sub32)
open Lib List

/-- The heap, the blocks that were cut from chunks with the bytes that they really have, and the
    blocks that were returned and not freed, by their pointers, with the requests. -/
structure Pool where
  heap : Heap
  carved : List (Nat × Nat)
  live : List (Nat × Nat)

inductive PoolCall where
  | malloc (n : Nat)
  | free (ptr : Nat)

instance (h : Heap) : Decidable (RestListed h) := inferInstanceAs (Decidable (_ ≤ _))

/-- The rest of a chunk that becomes a free block. -/
def carvedRest (h : Heap) (size : Nat) : List (Nat × Nat) :=
  if h.sizeUsable < size ∧ RestListed h then [(h.heap, h.sizeUsable)] else []

/-- The block that is cut for a request when its list is empty. -/
def carvedBlock (h : Heap) (idx size : Nat) : List (Nat × Nat) :=
  if h.index idx ≠ 0 then [] else [(h.heap, size)]

/-- The blocks that a call of `malloc` cuts from chunks. -/
def carvedBy (h : Heap) (n : Nat) : List (Nat × Nat) :=
  carvedRest (ready h) (blockSize n) ++
    carvedBlock (refill (ready h) (blockSize n)) (blockIndex n - start) (blockSize n)

def poolExec (s : Pool) : PoolCall → Option Pool
  | .malloc n => (malloc s.heap n).map fun r => ⟨r.1, s.carved ++ carvedBy s.heap n, s.live ++ [(r.2, n)]⟩
  | .free ptr => some ⟨free s.heap ptr, s.carved, s.live.filter (·.1 ≠ ptr)⟩

/-- The calls on blocks of the pool. -/
def PoolLegal (s : Pool) : PoolCall → Prop
  | .malloc n => PoolSize n
  | .free ptr => ∃ n, (ptr, n) ∈ s.live

/-- The pointer is on the list that starts with `head`. -/
inductive OnList (h : Heap) : Nat → Nat → Prop where
  | head {p : Nat} : p ≠ 0 → OnList h p p
  | next {q p : Nat} : q ≠ 0 → OnList h (h.mem q) p → OnList h q p

/-- The blocks on list `i` have `2 ^ (i + 5)` bytes, so that a request never gets a block that is
    too short, and no block has been passed to `bulk_free`. -/
structure ClassesOk (s : Pool) : Prop where
  listed : s.heap.freeList ≠ 0 → ∀ i < len, ∀ p, OnList s.heap (s.heap.index i) p →
    (p - sizeofSize, 2 ^ (i + start)) ∈ s.carved
  returned : ∀ b ∈ s.live, ∃ bytes, (b.1 - sizeofSize, bytes) ∈ s.carved ∧ blockSize b.2 ≤ bytes
  unmapped : s.heap.munmaps = []

/-- No block is freed, and a chunk is given up only when its rest is empty or larger than 128
    bytes. -/
def PoolCareful (s : Pool) : PoolCall → Prop
  | .malloc n => s.heap.freeList ≠ 0 → s.heap.sizeUsable < blockSize n →
    s.heap.sizeUsable = 0 ∨ 128 < s.heap.sizeUsable
  | .free _ => False

def PoolStep (s : Pool) (e : PoolCall) (s' : Pool) : Prop := PoolLegal s e ∧ poolExec s e = some s'

def CarefulPoolStep (s : Pool) (e : PoolCall) (s' : Pool) : Prop := PoolCareful s e ∧ PoolStep s e s'

/-! ## Rests -/

section

variable {base : Nat} {h : Heap}

theorem sub32_eight {r : Nat} (large : 8 ≤ r) (bound : r ≤ chunkSize) : sub32 r 8 = r - 8 := by
  unfold sub32
  unfold chunkSize at bound
  omega

/-- An empty rest is not listed: the shift by 32 gives 1. -/
theorem not_listed_of_empty (empty : h.sizeUsable = 0) : ¬ RestListed h := by
  unfold RestListed restIndex
  rw [empty]
  decide +kernel

/-- A rest of more than 128 bytes is put on a list behind the array. -/
theorem len_le_restIndex (large : 128 < h.sizeUsable) (bound : h.sizeUsable ≤ chunkSize) : len ≤ restIndex h := by
  unfold restIndex
  rw [sub32_eight (by omega) bound]
  unfold chunkSize at bound
  by_contra low
  have fits := (blockIndex_le_iff (by decide) (by omega)).mp (Nat.le_of_lt_succ (Nat.not_le.mp low))
  omega

/-- A rest of up to 128 bytes is put on one of the last three lists. -/
theorem restIndex_small (chunk : ChunkOk base h) (some : h.sizeUsable ≠ 0) (small : h.sizeUsable ≤ 128) :
    RestListed h ∧ 5 ≤ restIndex h ∧ restIndex h < len := by
  have unit := chunk.unit
  have index : restIndex h = blockIndex (h.sizeUsable - 8) := by
    unfold restIndex
    rw [sub32_eight (by omega) chunk.usable]
  have low : 5 ≤ restIndex h := by
    rw [index]
    exact start_le_blockIndex (by omega)
  have high : restIndex h ≤ 7 := by
    rw [index]
    exact (blockIndex_le_iff (by decide) (by omega)).mpr (by omega)
  refine ⟨?_, low, Nat.lt_succ_of_le high⟩
  unfold RestListed shl1
  rw [Nat.mod_eq_of_lt (by omega)]
  exact Nat.pow_le_pow_right (n := 2) (by decide) low

end

/-! ## Runs without `free` -/

/-- All lists are empty, and each block that is in use was cut for its request. -/
structure Whole (base : Nat) (s : Pool) : Prop where
  chunk : ChunkOk base s.heap
  positive : 0 < base
  empty : ∀ i < len, s.heap.index i = 0
  below : ∀ c ∈ s.carved, 0 < c.2 ∧ c.1 + c.2 ≤ s.heap.heap
  nodup : (s.carved.map Prod.fst).Nodup
  size : ∀ b ∈ s.live, PoolSize b.2
  live : ∀ b ∈ s.live, (b.1 - sizeofSize, blockSize b.2) ∈ s.carved
  pointer : ∀ b ∈ s.live, b.1 ≠ 0
  header : ∀ b ∈ s.live, s.heap.mem (b.1 - sizeofSize) = blockSize b.2 ||| 2 ^ lastBit
  unmapped : s.heap.munmaps = []

/-- Before the first call. -/
def Start (base : Nat) (s : Pool) : Prop :=
  Untouched base s.heap ∧ s.carved = [] ∧ s.live = [] ∧ s.heap.munmaps = []

section

variable {base n : Nat} {s s' : Pool}

theorem OnList.ne_zero {h : Heap} {q p : Nat} (on : OnList h q p) : q ≠ 0 := by
  cases on with
  | head some => exact some
  | next some _ => exact some

theorem Whole.classesOk (inv : Whole base s) : ClassesOk s where
  listed _ i hi _ on := absurd (inv.empty i hi) on.ne_zero
  returned b mem := ⟨_, inv.live b mem, Nat.le_refl _⟩
  unmapped := inv.unmapped

theorem Start.classesOk (start : Start base s) : ClassesOk s where
  listed set := absurd start.1.list set
  returned := by
    rw [start.2.2.1]
    exact forall_mem_nil _
  unmapped := start.2.2.2

/-- The pool once `free_list` is set up. -/
def Pool.ready (s : Pool) : Pool := { s with heap := Malloc.ready s.heap }

theorem Whole.freeList_ne (inv : Whole base s) : s.heap.freeList ≠ 0 := by
  rw [inv.chunk.list]
  exact Nat.ne_of_gt inv.positive

theorem Whole.ready_eq (inv : Whole base s) : s.ready = s := by
  unfold Pool.ready Malloc.ready
  rw [if_neg inv.freeList_ne]

theorem Start.ready (start : Start base s) : Whole base s.ready := by
  obtain ⟨fresh, carved, live, unmapped⟩ := start
  have heap : (Malloc.ready s.heap) = setUpFreeList s.heap := if_pos fresh.list
  unfold Pool.ready
  rw [heap, carved, live]
  constructor
  · exact setUpFreeList_ok fresh.brk
  · exact fresh.positive
  · intro i hi
    exact if_pos hi
  · exact forall_mem_nil _
  · exact nodup_nil
  · exact forall_mem_nil _
  · exact forall_mem_nil _
  · exact forall_mem_nil _
  · exact forall_mem_nil _
  · exact unmapped

/-- What is cut at `free_list->heap` is a block of its own. -/
theorem Whole.nodup_snoc (inv : Whole base s) (bytes : Nat) :
    ((s.carved ++ [(s.heap.heap, bytes)]).map Prod.fst).Nodup := by
  rw [map_append, nodup_append]
  refine ⟨inv.nodup, nodup_singleton _, fun a old b new same => ?_⟩
  obtain ⟨c, mem, rfl⟩ := mem_map.mp old
  have here : b = s.heap.heap := mem_singleton.mp new
  have below := inv.below c mem
  omega

theorem Whole.header_lt (inv : Whole base s) {b : Nat × Nat} (mem : b ∈ s.live) : b.1 - sizeofSize < s.heap.heap := by
  have below := inv.below _ (inv.live b mem)
  omega

theorem listRest_empty {h : Heap} (bound : h.sizeUsable ≤ chunkSize)
    (careful : h.sizeUsable = 0 ∨ 128 < h.sizeUsable) {i : Nat} (hi : i < len) : (listRest h).index i = h.index i := by
  rcases careful with none | large
  · rw [listRest_unlisted (not_listed_of_empty none)]
  · obtain ⟨-, -, -, index, -⟩ := listRest_frame h
    have high := len_le_restIndex large bound
    exact index i (by omega)

theorem Whole.refill (inv : Whole base s) (size : Nat)
    (careful : s.heap.sizeUsable < size → s.heap.sizeUsable = 0 ∨ 128 < s.heap.sizeUsable) :
    Whole base ⟨refill s.heap size, s.carved ++ carvedRest s.heap size, s.live⟩ := by
  by_cases fits : size ≤ s.heap.sizeUsable
  · rw [refill_enough fits, carvedRest, if_neg (fun short => absurd short.1 (Nat.not_lt.mpr fits)), append_nil]
    exact inv
  · have short := Nat.not_le.mp fits
    have chunk := inv.chunk.refill size
    have high := inv.chunk.high
    obtain ⟨-, brk, munmaps, -, mem⟩ := listRest_frame s.heap
    have rest : carvedRest s.heap size = if RestListed s.heap then [(s.heap.heap, s.heap.sizeUsable)] else [] := by
      unfold carvedRest
      simp only [short, true_and]
    rw [rest, refill_short short] at *
    constructor
    · exact chunk
    · exact inv.positive
    · intro i hi
      rw [newChunk_index, listRest_empty inv.chunk.usable (careful short) hi]
      exact inv.empty i hi
    · intro c hc
      rw [newChunk_heap, brk]
      rcases mem_append.mp hc with old | new
      · have below := inv.below c old
        omega
      · split at new
        · next listed =>
          have some : s.heap.sizeUsable ≠ 0 := fun none => not_listed_of_empty none listed
          rw [mem_singleton.mp new]
          exact ⟨Nat.pos_of_ne_zero some, high⟩
        · cases new
    · split
      · exact inv.nodup_snoc _
      · rw [append_nil]
        exact inv.nodup
    · exact inv.size
    · intro b hb
      exact mem_append_left _ (inv.live b hb)
    · exact inv.pointer
    · intro b hb
      rw [newChunk_mem, mem _ (inv.header_lt hb)]
      exact inv.header b hb
    · rw [newChunk_munmaps, munmaps]
      exact inv.unmapped

theorem Whole.carve (inv : Whole base s) (ok : PoolSize n) (fits : blockSize n ≤ s.heap.sizeUsable) :
    Whole base ⟨carve s.heap (blockSize n), s.carved ++ [(s.heap.heap, blockSize n)],
      s.live ++ [(s.heap.heap + sizeofSize, n)]⟩ := by
  constructor
  · exact inv.chunk.carve fits ok.unit
  · exact inv.positive
  · exact inv.empty
  · intro c hc
    change 0 < c.2 ∧ c.1 + c.2 ≤ s.heap.heap + blockSize n
    rcases mem_append.mp hc with old | new
    · have below := inv.below c old
      omega
    · rw [mem_singleton.mp new]
      exact ⟨Nat.two_pow_pos _, Nat.le_refl _⟩
  · exact inv.nodup_snoc _
  · exact forall_mem_append.mpr ⟨inv.size, forall_mem_singleton.mpr ok⟩
  · refine forall_mem_append.mpr ⟨fun b old => mem_append_left _ (inv.live b old), ?_⟩
    rw [forall_mem_singleton, Nat.add_sub_cancel]
    exact mem_append_right _ mem_cons_self
  · exact forall_mem_append.mpr ⟨inv.pointer, forall_mem_singleton.mpr (Nat.succ_ne_zero _)⟩
  · intro b hb
    change (Function.update s.heap.mem s.heap.heap (blockSize n ||| 2 ^ lastBit) : Nat → Nat) _ = _
    rcases mem_append.mp hb with old | new
    · rw [Function.update_of_ne (Nat.ne_of_lt (inv.header_lt old))]
      exact inv.header b old
    · rw [mem_singleton.mp new, Nat.add_sub_cancel, Function.update_self]
  · exact inv.unmapped

theorem poolExec_malloc (ok : PoolSize n) (s : Pool) : poolExec s (.malloc n) =
      some ⟨(poolAlloc (User.refill s.ready.heap (blockSize n)) (blockIndex n - start) (blockSize n)).1,
        s.carved ++ carvedRest s.ready.heap (blockSize n) ++
          carvedBlock (User.refill s.ready.heap (blockSize n)) (blockIndex n - start) (blockSize n),
        s.live ++
          [((poolAlloc (User.refill s.ready.heap (blockSize n)) (blockIndex n - start) (blockSize n)).2, n)]⟩ := by
  change Option.map _ (allocate s.heap n) = _
  rw [allocate_pool ok, Option.map_some, carvedBy, ← append_assoc]
  rfl

theorem PoolSize.index_lt (ok : PoolSize n) : blockIndex n - start < len := by
  have high := ok.le_stop
  unfold stop at high
  unfold start len
  omega

theorem Whole.malloc (inv : Whole base s.ready) (ok : PoolSize n)
    (careful : s.ready.heap.sizeUsable < blockSize n →
      s.ready.heap.sizeUsable = 0 ∨ 128 < s.ready.heap.sizeUsable)
    (done : poolExec s (.malloc n) = some s') : Whole base s' := by
  have refilled := inv.refill (blockSize n) careful
  have room := (inv.chunk.refill_room ok.blockSize_le).1
  have none := refilled.empty _ ok.index_lt
  rw [poolExec_malloc ok, poolAlloc_carve none, carvedBlock, if_neg (not_not.mpr none), Option.some.injEq] at done
  rw [← done]
  exact refilled.carve ok room

end

/-! ## What breaks the classes -/

section

variable {base n : Nat} {s s' : Pool}

/-- A rest of up to 128 bytes is put on a list for larger blocks; the same call may take it from
    there. -/
theorem Whole.rest_broken (inv : Whole base s.ready) (ok : PoolSize n)
    (short : s.ready.heap.sizeUsable < blockSize n) (left : s.ready.heap.sizeUsable ≠ 0)
    (small : s.ready.heap.sizeUsable ≤ 128) (done : poolExec s (.malloc n) = some s') : ¬ ClassesOk s' := by
  obtain ⟨listed, low, high⟩ := restIndex_small inv.chunk left small
  have carved : carvedRest s.ready.heap (blockSize n) = [(s.ready.heap.heap, s.ready.heap.sizeUsable)] :=
    if_pos ⟨short, listed⟩
  have index : (User.refill s.ready.heap (blockSize n)).index =
      Function.update s.ready.heap.index (restIndex s.ready.heap) (s.ready.heap.heap + sizeofSize) := by
    rw [refill_short short, newChunk_index, listRest_listed listed, add_index, store_index]
  have behind : s.ready.heap.heap < (User.refill s.ready.heap (blockSize n)).heap := by
    obtain ⟨-, brk, -⟩ := listRest_frame s.ready.heap
    have room := inv.chunk.high
    rw [refill_short short, newChunk_heap, brk]
    omega
  have list := (inv.chunk.refill (blockSize n)).list
  -- the bytes of the rest are all that was cut at its address
  have only {bytes : Nat} {more : List (Nat × Nat)} (other : ∀ c ∈ more, c.1 ≠ s.ready.heap.heap)
      (mem : (s.ready.heap.heap, bytes) ∈ s.carved ++ [(s.ready.heap.heap, s.ready.heap.sizeUsable)] ++ more) :
      bytes = s.ready.heap.sizeUsable := by
    rcases mem_append.mp mem with early | late
    · rcases mem_append.mp early with old | rest
      · have below := inv.below _ old
        omega
      · exact (Prod.mk.inj (mem_singleton.mp rest)).2
    · exact absurd rfl (other _ late)
  rw [poolExec_malloc ok, carved] at done
  generalize User.refill s.ready.heap (blockSize n) = h at *
  intro classes
  by_cases same : blockIndex n - start = restIndex s.ready.heap
  · -- the request gets the rest itself
    have found : h.index (blockIndex n - start) = s.ready.heap.heap + sizeofSize := by
      rw [index, same, Function.update_self]
    have nonzero : h.index (blockIndex n - start) ≠ 0 := by
      rw [found]
      exact Nat.succ_ne_zero _
    have pointer : (poolAlloc h (blockIndex n - start) (blockSize n)).2 = s.ready.heap.heap + sizeofSize := by
      rw [poolAlloc, if_pos nonzero, ← found]
      rfl
    rw [Option.some.injEq] at done
    rw [← done, pointer, carvedBlock, if_pos nonzero] at classes
    obtain ⟨bytes, mem, enough⟩ := classes.returned _ (mem_append_right _ mem_cons_self)
    change blockSize n ≤ bytes at enough
    have all := only (forall_mem_nil _) mem
    omega
  · -- the rest stays on its list
    have none : h.index (blockIndex n - start) = 0 := by
      rw [index, Function.update_of_ne same]
      exact inv.empty _ ok.index_lt
    rw [poolAlloc_carve none, carvedBlock, if_neg (not_not.mpr none), Option.some.injEq] at done
    rw [← done] at classes
    have set : (Malloc.carve h (blockSize n)).freeList ≠ 0 := by
      change h.freeList ≠ 0
      rw [list]
      exact Nat.ne_of_gt inv.positive
    have head : (Malloc.carve h (blockSize n)).index (restIndex s.ready.heap) = s.ready.heap.heap + sizeofSize := by
      change h.index _ = _
      rw [index, Function.update_self]
    have mem := classes.listed set _ high (s.ready.heap.heap + sizeofSize)
      (by rw [head]; exact .head (Nat.succ_ne_zero _))
    have all := only (forall_mem_singleton.mpr (Nat.ne_of_gt behind)) mem
    have large : 2 ^ 10 ≤ 2 ^ (restIndex s.ready.heap + start) :=
      Nat.pow_le_pow_right (by decide) (Nat.add_le_add_right low 5)
    omega

/-- The number that `free` computes for a block is one too large. -/
theorem blockIndex_block {b : Nat} (low : 5 ≤ b) (high : b ≤ 12) : blockIndex (sub32 (2 ^ b) sizeofSize) = b + 1 := by
  have big : 2 ^ 5 ≤ 2 ^ b := Nat.pow_le_pow_right (by decide) low
  have small : 2 ^ b ≤ 2 ^ 12 := Nat.pow_le_pow_right (by decide) high
  have payload : sub32 (2 ^ b) sizeofSize = 2 ^ b - 4 := by
    unfold sub32 sizeofSize
    omega
  have upper : blockIndex (2 ^ b - 4) ≤ b + 1 := by
    apply (blockIndex_le_iff (by omega) (by omega)).mpr
    omega
  have lower : ¬ blockIndex (2 ^ b - 4) ≤ b := by
    rw [blockIndex_le_iff low (by omega)]
    omega
  rw [payload]
  omega

theorem free_block {h : Heap} {ptr b : Nat} (pointer : ptr ≠ 0) (low : 5 ≤ b) (high : b ≤ 12)
    (header : h.mem (ptr - sizeofSize) = 2 ^ b ||| 2 ^ lastBit) :
    free h ptr = if b = 12 then bulkFree (clearFlag h (ptr - sizeofSize)) (ptr - sizeofSize) (2 ^ b)
      else add (clearFlag h (ptr - sizeofSize)) (b + 1 - start) ptr := by
  have flag : checkFlag h (ptr - sizeofSize) = true := by
    unfold checkFlag
    rw [header, Nat.testBit_or, Nat.testBit_two_pow_self, Bool.or_true]
  have size : (clearFlag h (ptr - sizeofSize)).mem (ptr - sizeofSize) = 2 ^ b := by
    have bound : 2 ^ b < 2 ^ lastBit := Nat.pow_lt_pow_right (by decide) (by unfold lastBit; omega)
    unfold clearFlag
    rw [store_mem, Function.update_self, header, Nat.or_mod_two_pow, Nat.mod_self, Nat.or_zero, Nat.mod_eq_of_lt bound]
  simp only [free, if_neg pointer, flag, if_true, size, blockIndex_block low high]
  by_cases last : b = 12
  · rw [if_pos last, if_pos (by unfold stop; omega)]
  · rw [if_neg last, if_neg (by unfold stop; omega)]

/-- Every block that is freed leaves its class. -/
theorem Whole.free_broken (inv : Whole base s) {ptr : Nat} (mem : (ptr, n) ∈ s.live)
    (done : poolExec s (.free ptr) = some s') : ¬ ClassesOk s' := by
  have ok : PoolSize n := inv.size _ mem
  have low : 5 ≤ blockIndex n := ok.start_le
  have high : blockIndex n ≤ 12 := ok.le_stop
  have freed := free_block (inv.pointer _ mem) low high (inv.header _ mem)
  have same : s' = ⟨free s.heap ptr, s.carved, s.live.filter (·.1 ≠ ptr)⟩ := (Option.some.inj done).symm
  rw [same, freed]
  intro classes
  split at classes
  · -- the block is handed to `munmap`
    have unmapped := classes.unmapped
    exact append_ne_nil_of_right_ne_nil _ (cons_ne_nil _ _) unmapped
  · -- the block is on the list for blocks of twice its size
    have listed := classes.listed inv.freeList_ne (blockIndex n + 1 - start) (by unfold start len; omega) ptr
      (by rw [add_index, Function.update_self]; exact .head (inv.pointer _ mem))
    have twice := inj_on_of_nodup_map inv.nodup listed (inv.live _ mem) rfl
    have double : 2 ^ (blockIndex n + 1 - start + start) = 2 ^ blockIndex n := (Prod.mk.inj twice).2
    have exponent := (Nat.pow_right_inj (show 1 < 2 by decide)).mp double
    omega

end

/-! ## All runs -/

section

variable {base n : Nat} {s s' : Pool}

section

variable (inv : Start base s ∨ Whole base s)

include inv

theorem Whole.of_start_or : Whole base s.ready := by
  rcases inv with first | whole
  · exact first.ready
  · rw [whole.ready_eq]
    exact whole

/-- The first chunk is never given up with a short rest by the call that sets it up. -/
theorem careful_iff : PoolCareful s (.malloc n) ↔ (s.ready.heap.sizeUsable < blockSize n →
      s.ready.heap.sizeUsable = 0 ∨ 128 < s.ready.heap.sizeUsable) := by
  rcases inv with first | whole
  · have usable : s.ready.heap.sizeUsable = 3968 := by
      unfold Pool.ready Malloc.ready
      rw [if_pos first.1.list]
      rfl
    rw [usable]
    exact ⟨fun _ _ => .inr (by decide), fun _ set => absurd first.1.list set⟩
  · rw [whole.ready_eq]
    exact ⟨fun careful => careful whole.freeList_ne, fun careful _ => careful⟩

theorem Whole.step {e : PoolCall} (step : CarefulPoolStep s e s') :
    Whole base s' := by
  obtain ⟨careful, legal, done⟩ := step
  cases e with
  | malloc n => exact (Whole.of_start_or inv).malloc legal ((careful_iff inv).mp careful) done
  | free ptr => exact absurd careful id

/-- A call keeps the classes iff it is careful. -/
theorem classesOk_step_iff {e : PoolCall} (step : PoolStep s e s') :
    ClassesOk s' ↔ PoolCareful s e := by
  refine ⟨fun classes => ?_, fun careful => (Whole.step inv ⟨careful, step⟩).classesOk⟩
  obtain ⟨legal, done⟩ := step
  have whole := Whole.of_start_or inv
  cases e with
  | malloc n =>
    rw [careful_iff inv]
    intro short
    by_contra rest
    obtain ⟨left, small⟩ := not_or.mp rest
    exact whole.rest_broken legal short left (Nat.not_lt.mp small) done classes
  | free ptr =>
    obtain ⟨n, mem⟩ := legal
    rcases inv with first | whole
    · rw [first.2.2.1] at mem
      cases mem
    · exact whole.free_broken mem done classes

end

end

/-- In a run of careful calls the classes are kept, and any further call keeps them only if it is
    careful, too. -/
theorem size_classes_kept {base : Nat} {h : Heap} {calls : List PoolCall} {s : Pool} (fresh : Untouched base h)
    (unmapped : h.munmaps = []) (run : Run CarefulPoolStep ⟨h, [], []⟩ calls s) :
    ClassesOk s ∧ ∀ e s', PoolStep s e s' → (ClassesOk s' ↔ PoolCareful s e) := by
  have initial : Start base ⟨h, [], []⟩ := ⟨fresh, rfl, rfl, unmapped⟩
  have inv : Start base s ∨ Whole base s := by
    refine run.invariant (fun s e t (inv : Start base s ∨ Whole base s) step => ?_) (.inl initial)
    exact .inr (Whole.step inv step)
  refine ⟨?_, fun e s' step => classesOk_step_iff inv step⟩
  cases inv with
  | inl first => exact first.classesOk
  | inr whole => exact whole.classesOk

theorem malloc_first : ∃ s, CarefulPoolStep ⟨emptyHeap, [], []⟩ (.malloc 24) s ∧ (0x8800058, 24) ∈ s.live ∧
    s.heap.sizeUsable = 3936 := by
  refine ⟨_, ⟨fun set => absurd rfl set, show PoolSize 24 by decide, poolExec_malloc (by decide) _⟩, ?_⟩
  decide +kernel

/-- The second request gives the first chunk up, with a rest of 3936 bytes. -/
theorem size_classes_kept_two : ∃ s, Run CarefulPoolStep ⟨emptyHeap, [], []⟩ [.malloc 24, .malloc 4088] s ∧
    ClassesOk s ∧ ∀ e s', PoolStep s e s' → (ClassesOk s' ↔ PoolCareful s e) := by
  obtain ⟨s, step, -, usable⟩ := malloc_first
  have large : PoolCareful s (.malloc 4088) := fun _ _ => .inr (by rw [usable]; decide)
  have run : Run CarefulPoolStep ⟨emptyHeap, [], []⟩ [.malloc 24, .malloc 4088] _ :=
    .cons step (.cons ⟨large, show PoolSize 4088 by decide, poolExec_malloc (by decide) s⟩ (.nil _))
  exact ⟨_, run, size_classes_kept ⟨rfl, rfl, by decide⟩ rfl run⟩

/-- The block for 24 bytes has 32, and `free` puts it on the list for blocks of 64. -/
theorem freed_block_misplaced : ∃ s s', PoolStep ⟨emptyHeap, [], []⟩ (.malloc 24) s ∧
    PoolStep s (.free 0x8800058) s' ∧ ¬ ClassesOk s' := by
  obtain ⟨s, step, mem, -⟩ := malloc_first
  have whole : Whole 0x8800000 s := Whole.step (.inl ⟨⟨rfl, rfl, by decide⟩, rfl, rfl, rfl⟩) step
  exact ⟨s, _, step.2, ⟨⟨24, mem⟩, rfl⟩, whole.free_broken mem rfl⟩

end Illinix.Verified.Malloc
