import Illinix.Verified.Malloc.Blocks
import Mathlib.Data.List.Pairwise

/-! # `realloc` keeps the contents

A block is kept where it is when it is large enough, extended when it ends at `free_list->heap`, and
moved otherwise.  The extension and the new block are obtained from `malloc`; both are where they are
meant to be as long as no request finds a block on its list.  A block that was moved is put on the list
for blocks of twice its size, so that the next request of that size gets memory of its neighbours. -/

namespace Illinix.Verified.Malloc

open User List
open Kernel (sub32)
open Lib Lib.WordMemory Function List

/-! ## Calls of the user -/

/-- The blocks do not overlap. -/
def Apart (b c : Nat × Nat) : Prop := b.1 + b.2 ≤ c.1 ∨ c.1 + c.2 ≤ b.1

/-- `q` is the block `b` after `realloc(p, n)`, where `p` is its pointer: it has `n` bytes, all below the break, and
    the contents of `b`; the other blocks are neither covered by it nor changed. -/
structure ReallocOk (s : Blocks) (b : Nat × Nat) (n : Nat) (h : Heap) (q : Nat) : Prop where
  usable : n + sizeofSize ≤ h.mem (q - sizeofSize) % 2 ^ lastBit
  below : q - sizeofSize + h.mem (q - sizeofSize) % 2 ^ lastBit ≤ h.brk
  contents : ∀ i < min (b.2 - sizeofSize) n,
    byteAt h.mem (q + i) = byteAt s.heap.mem (b.1 + sizeofSize + i)
  apart : ∀ d ∈ s.blocks, d ≠ b → Apart d (q - sizeofSize, h.mem (q - sizeofSize) % 2 ^ lastBit)
  unchanged : ∀ d ∈ s.blocks, d ≠ b → ∀ a, d.1 ≤ a → a < d.1 + d.2 →
    byteAt h.mem a = byteAt s.heap.mem a
  mapped : h.munmaps = s.heap.munmaps

/-- Calls of `malloc` and `realloc`, and stores to the blocks. -/
inductive UserCall where
  | malloc (n : Nat)
  | realloc (ptr n : Nat)
  | write (addr byte : Nat)

/-- The blocks in use with the one that was returned, if it is not `NULL`. -/
def track (blocks : List (Nat × Nat)) (r : Heap × Nat) : Blocks :=
  ⟨r.1, if r.2 = 0 then blocks
    else blocks ++ [(r.2 - sizeofSize, r.1.mem (r.2 - sizeofSize) % 2 ^ lastBit)]⟩

/-- The blocks but the one of the pointer. -/
def without (blocks : List (Nat × Nat)) (ptr : Nat) : List (Nat × Nat) :=
  blocks.filter fun b => b.1 + sizeofSize ≠ ptr

def userExec (s : Blocks) : UserCall → Option Blocks
  | .malloc n => (malloc s.heap n).map (track s.blocks)
  | .realloc ptr n => (realloc s.heap ptr n).map (track (without s.blocks ptr))
  | .write addr byte => some ⟨{ s.heap with mem := setByte s.heap.mem addr byte }, s.blocks⟩

def UserLegal (s : Blocks) : UserCall → Prop
  | .malloc n => n ≤ 4088
  | .realloc ptr n => n ≤ 4088 ∧ (ptr = 0 ∨ ∃ b ∈ s.blocks, ptr = b.1 + sizeofSize)
  | .write addr _ => ∃ b ∈ s.blocks, b.1 + sizeofSize ≤ addr ∧ addr < b.1 + b.2

/-- The bytes of a block, with its header. -/
def headerSize (h : Heap) (ptr : Nat) : Nat := h.mem (ptr - sizeofSize) % 2 ^ lastBit

/-- The block is extended. -/
def Extends (h : Heap) (ptr n : Nat) : Prop :=
  ptr + (headerSize h ptr - sizeofSize) = h.heap ∧
    blockSize (n - (headerSize h ptr - sizeofSize)) ≤ h.sizeUsable

instance (h : Heap) (ptr n : Nat) : Decidable (Extends h ptr n) := inferInstanceAs (Decidable (_ ∧ _))

/-- The request to `malloc`, if there is one, finds nothing on its list. -/
def ReallocCareful (h : Heap) (ptr n : Nat) : Prop :=
  if ptr = 0 then
    n ≠ 0 → NoneListed h n
  else if n = 0 then
    -- the block is not returned with `munmap`
    NoneListed h 1 ∧ headerSize h ptr + sizeofSize ≤ 4096
  else if n + sizeofSize ≤ headerSize h ptr then
    True
  else if Extends h ptr n then
    NoneListed h (n - (headerSize h ptr - sizeofSize))
  else
    NoneListed h n

def UserCareful (s : Blocks) : UserCall → Prop
  | .malloc n => n ≠ 0 → NoneListed s.heap n
  | .realloc ptr n => ReallocCareful s.heap ptr n
  | .write _ _ => True

def UserStep (s : Blocks) (e : UserCall) (s' : Blocks) : Prop := UserLegal s e ∧ userExec s e = some s'

def CarefulUserStep (s : Blocks) (e : UserCall) (s' : Blocks) : Prop := UserCareful s e ∧ UserStep s e s'

/-! ## Flags -/

theorem or_flag {size : Nat} (small : size < 2 ^ lastBit) : size ||| 2 ^ lastBit = size + 2 ^ lastBit := by
  have sum := Nat.two_pow_add_eq_or_of_lt small 1
  rw [Nat.mul_one] at sum
  rw [Nat.or_comm, ← sum, Nat.add_comm]

theorem flagged_mod {size : Nat} (small : size < 2 ^ lastBit) : (size + 2 ^ lastBit) % 2 ^ lastBit = size := by
  rw [Nat.add_mod_right, Nat.mod_eq_of_lt small]

/-! ## The blocks in use -/

/-- The blocks in use are in front of `free_list->heap`, with their sizes in their headers. -/
structure InUse (base : Nat) (s : Blocks) : Prop extends Behind base s where
  header : ∀ b ∈ s.blocks, s.heap.mem b.1 = b.2 + 2 ^ lastBit
  size : ∀ b ∈ s.blocks, 32 ≤ b.2 ∧ b.2 < 2 ^ lastBit
  aligned : ∀ b ∈ s.blocks, 4 ∣ b.1
  brk : 4 ∣ s.heap.brk
  heap : s.heap.freeList ≠ 0 → 4 ∣ s.heap.heap

section

variable {base n : Nat} {s : Blocks} {b : Nat × Nat} {a size : Nat} {h : Heap}

theorem InUse.chunk (inv : InUse base s) (mem : b ∈ s.blocks) : ChunkOk base s.heap ∧ 0 < base := by
  rcases inv.start with ⟨-, none⟩ | chunk
  · rw [none] at mem
    cases mem
  · exact chunk

theorem InUse.le_brk (inv : InUse base s) (mem : b ∈ s.blocks) : b.1 + b.2 ≤ s.heap.brk := by
  have high := (inv.chunk mem).1.high
  exact Nat.le_trans (inv.below b mem).2 (by omega)

theorem InUse.freeList_ne (inv : InUse base s) (mem : b ∈ s.blocks) : s.heap.freeList ≠ 0 := by
  obtain ⟨chunk, positive⟩ := inv.chunk mem
  rw [chunk.list]
  exact Nat.ne_of_gt positive

theorem InUse.apart (inv : InUse base s) {d : Nat × Nat} (memd : d ∈ s.blocks) (memb : b ∈ s.blocks) (other : d ≠ b) :
    Apart d b := by
  have symmetric : Std.Symm fun b c : Nat × Nat => b.1 + b.2 ≤ c.1 ∨ c.1 + c.2 ≤ b.1 :=
    ⟨fun _ _ apart => apart.symm⟩
  exact inv.disjoint.forall memd memb other

theorem mem_without {blocks : List (Nat × Nat)} {ptr : Nat} :
    b ∈ without blocks ptr ↔ b ∈ blocks ∧ b.1 + sizeofSize ≠ ptr := by
  unfold without
  rw [mem_filter, decide_eq_true_iff]

/-- The words of the headers, and where the next block is cut, decide. -/
theorem InUse.congr (inv : InUse base s) (chunk : ChunkOk base h) (positive : 0 < base)
    (before : s.heap.heap ≤ h.heap) (brk : 4 ∣ h.brk) (heap : 4 ∣ h.heap)
    (words : ∀ b ∈ s.blocks, h.mem b.1 = s.heap.mem b.1) : InUse base ⟨h, s.blocks⟩ where
  start := .inr ⟨chunk, positive⟩
  below b mem := by
    obtain ⟨low, high⟩ := inv.below b mem
    exact ⟨low, Nat.le_trans high before⟩
  disjoint := inv.disjoint
  header b mem := (words b mem).trans (inv.header b mem)
  size := inv.size
  aligned := inv.aligned
  brk := brk
  heap _ := heap

theorem InUse.without (inv : InUse base s) (ptr : Nat) : InUse base ⟨s.heap, without s.blocks ptr⟩ where
  start := by
    rcases inv.start with ⟨fresh, none⟩ | chunk
    · refine .inl ⟨fresh, ?_⟩
      change Malloc.without s.blocks ptr = []
      rw [none]
      rfl
    · exact .inr chunk
  below b mem := inv.below b (mem_without.mp mem).1
  disjoint := inv.disjoint.filter _
  header b mem := inv.header b (mem_without.mp mem).1
  size b mem := inv.size b (mem_without.mp mem).1
  aligned b mem := inv.aligned b (mem_without.mp mem).1
  brk := inv.brk
  heap := inv.heap

theorem InUse.push (inv : InUse base s) {c : Nat × Nat} (behind : Behind base ⟨h, s.blocks ++ [c]⟩)
    (words : ∀ b ∈ s.blocks, h.mem b.1 = s.heap.mem b.1) (header : h.mem c.1 = c.2 + 2 ^ lastBit)
    (size : 32 ≤ c.2 ∧ c.2 < 2 ^ lastBit) (aligned : 4 ∣ c.1) (brk : 4 ∣ h.brk) (heap : 4 ∣ h.heap) :
    InUse base ⟨h, s.blocks ++ [c]⟩ where
  toBehind := behind
  header := forall_mem_append.mpr
    ⟨fun b old => (words b old).trans (inv.header b old), forall_mem_singleton.mpr header⟩
  size := forall_mem_append.mpr ⟨inv.size, forall_mem_singleton.mpr size⟩
  aligned := forall_mem_append.mpr ⟨inv.aligned, forall_mem_singleton.mpr aligned⟩
  brk := brk
  heap _ := heap

/-! ## `malloc` -/

/-- A call that finds nothing on its list, described from outside: the block at `a` is new, and nothing in
    front of it changes. -/
structure Fresh (base : Nat) (h : Heap) (size : Nat) (h' : Heap) (a : Nat) : Prop where
  chunk : ChunkOk base h'
  behind : (ready h).heap ≤ a
  ends : a + size = h'.heap
  words : ∀ w < (ready h).heap, h'.mem w = h.mem w
  header : h'.mem a = size + 2 ^ lastBit
  brk : 4 ∣ h'.brk
  aligned : 4 ∣ a
  munmaps : h'.munmaps = h.munmaps
  /-- without a new chunk, the block is at `free_list->heap` -/
  here : h.freeList ≠ 0 → size ≤ h.sizeUsable → a = h.heap

theorem ready_mem (h : Heap) : (ready h).mem = h.mem := by
  unfold ready
  split <;> rfl

theorem ready_munmaps (h : Heap) : (ready h).munmaps = h.munmaps := by
  unfold ready
  split <;> rfl

theorem ready_eq (set : h.freeList ≠ 0) : ready h = h := if_neg set

/-- Addresses stay multiples of 4. -/
theorem ready_aligned (brk : 4 ∣ h.brk) (heap : h.freeList ≠ 0 → 4 ∣ h.heap) :
    4 ∣ (ready h).brk ∧ 4 ∣ (ready h).heap := by
  unfold ready
  split
  · simp only [setUpFreeList, sbrk, sizeofList, len, sizeofSize, chunkSize]
    omega
  · next set => exact ⟨brk, heap set⟩

theorem refill_aligned (size : Nat) (brk : 4 ∣ h.brk) (heap : 4 ∣ h.heap) :
    4 ∣ (refill h size).brk ∧ 4 ∣ (refill h size).heap := by
  by_cases fits : size ≤ h.sizeUsable
  · rw [refill_enough fits]
    exact ⟨brk, heap⟩
  · obtain ⟨-, same, -⟩ := listRest_frame h
    rw [refill_short (Nat.not_le.mp fits), newChunk_heap, same]
    refine ⟨?_, brk⟩
    change 4 ∣ (listRest h).brk + chunkSize
    rw [same]
    exact Nat.dvd_add brk (by decide)

theorem refill_mem (size : Nat) {w : Nat} (front : w < h.heap) : (refill h size).mem w = h.mem w := by
  by_cases fits : size ≤ h.sizeUsable
  · rw [refill_enough fits]
  · obtain ⟨-, -, -, -, words⟩ := listRest_frame h
    rw [refill_short (Nat.not_le.mp fits), newChunk_mem, words w front]

theorem refill_munmaps (h : Heap) (size : Nat) : (refill h size).munmaps = h.munmaps := by
  by_cases fits : size ≤ h.sizeUsable
  · rw [refill_enough fits]
  · obtain ⟨-, -, munmaps, -⟩ := listRest_frame h
    rw [refill_short (Nat.not_le.mp fits), newChunk_munmaps, munmaps]

theorem InUse.malloc (inv : InUse base s) (ok : PoolSize n) (none : NoneListed s.heap n) :
    ∃ h a, malloc s.heap n = some (h, a + sizeofSize) ∧ Fresh base s.heap (blockSize n) h a ∧
      InUse base ⟨h, s.blocks ++ [(a, blockSize n)]⟩ := by
  obtain ⟨chunk, positive, before, fits⟩ := inv.refill ok
  obtain ⟨brk, heap⟩ := ready_aligned inv.brk inv.heap
  obtain ⟨brk, heap⟩ := refill_aligned (blockSize n) brk heap
  obtain ⟨-, forward⟩ := inv.ready.1.refill_room ok.blockSize_le
  have small : blockSize n < 2 ^ lastBit := Nat.lt_of_le_of_lt ok.blockSize_le (by decide)
  have large : 32 ≤ blockSize n := Nat.le_of_dvd (Nat.two_pow_pos _) ok.unit
  have unit : 4 ∣ blockSize n := Nat.dvd_trans (by decide) ok.unit
  have front : ∀ w < (ready s.heap).heap, (refill (ready s.heap) (blockSize n)).mem w = s.heap.mem w := by
    intro w below
    rw [refill_mem _ below, ready_mem]
  have munmaps : (refill (ready s.heap) (blockSize n)).munmaps = s.heap.munmaps := by
    rw [refill_munmaps, ready_munmaps]
  have here : s.heap.freeList ≠ 0 → blockSize n ≤ s.heap.sizeUsable →
      (refill (ready s.heap) (blockSize n)).heap = s.heap.heap := by
    intro set room
    rw [ready_eq set, refill_enough room]
  have behind := inv.toBehind.push chunk positive before fits ok.unit
  have done := malloc_carve ok none
  have ready := inv.ready.2.2
  generalize refill (Malloc.ready s.heap) (blockSize n) = r at *
  have words : ∀ w < (Malloc.ready s.heap).heap, (carve r (blockSize n)).mem w = s.heap.mem w := by
    intro w below
    change (update r.mem r.heap _ : Nat → Nat) w = _
    rw [update_of_ne (by omega), front w below]
  have header : (carve r (blockSize n)).mem r.heap = blockSize n + 2 ^ lastBit := by
    change (update r.mem r.heap _ : Nat → Nat) r.heap = _
    rw [update_self, or_flag small]
  have heap' : 4 ∣ (carve r (blockSize n)).heap := Nat.dvd_add heap unit
  refine ⟨_, _, done, ⟨chunk.carve fits ok.unit, forward, rfl, words, header, brk, heap, munmaps, here⟩, ?_⟩
  apply inv.push behind ?_ header ⟨large, small⟩ heap brk heap'
  intro b mem
  obtain ⟨positive, -⟩ := inv.size b mem
  have ends := ready b mem
  exact words b.1 (by omega)

theorem ChunkOk.congr {h' : Heap} (chunk : ChunkOk base h) (freeList : h'.freeList = h.freeList)
    (heap : h'.heap = h.heap) (usable : h'.sizeUsable = h.sizeUsable) (brk : h'.brk = h.brk) : ChunkOk base h' := by
  obtain ⟨list, low, high, bound, unit⟩ := chunk
  constructor
  · rw [freeList]
    exact list
  · rw [heap]
    exact low
  · rw [heap, usable, brk]
    exact high
  · rw [usable]
    exact bound
  · rw [usable]
    exact unit

/-- Stores to the header of a block that is not in use any more. -/
theorem InUse.store (inv : InUse base s) (mem : b ∈ s.blocks) (w : Nat) :
    InUse base ⟨s.heap.store b.1 w, Malloc.without s.blocks (b.1 + sizeofSize)⟩ := by
  obtain ⟨chunk, positive⟩ := inv.chunk mem
  refine (inv.without (b.1 + sizeofSize)).congr (h := s.heap.store b.1 w) (chunk.congr rfl rfl rfl rfl) positive
    (Nat.le_refl _) inv.brk (inv.heap (inv.freeList_ne mem)) fun d rest => ?_
  obtain ⟨-, other⟩ := mem_without.mp rest
  rw [store_mem, update_of_ne]
  exact fun same => other (congrArg (· + sizeofSize) same)

/-! ## `free` -/

/-- `free` reads the size without the flag. -/
theorem cleared_eq (small : size < 2 ^ lastBit) (header : h.mem a = size ∨ h.mem a = size + 2 ^ lastBit) :
    (if checkFlag h a then clearFlag h a else h) = h.store a size := by
  rcases header with plain | flagged
  · have unset : checkFlag h a = false := by
      unfold checkFlag
      rw [plain]
      exact Nat.testBit_lt_two_pow small
    have same : h.store a size = h := by
      unfold Heap.store
      rw [← plain, update_eq_self]
    rw [unset, same]
    rfl
  · have set : checkFlag h a = true := by
      unfold checkFlag
      rw [flagged, ← or_flag small, Nat.testBit_or, Nat.testBit_two_pow_self, Bool.or_true]
    rw [if_pos set]
    unfold clearFlag
    rw [flagged, flagged_mod small]

theorem free_eq (low : 4 ≤ size) (high : size ≤ 4092) (header : h.mem a = size ∨ h.mem a = size + 2 ^ lastBit) :
    free h (a + sizeofSize) = add (h.store a size) (blockIndex (size - 4) - start) (a + sizeofSize) := by
  have small : size < 2 ^ lastBit := Nat.lt_of_le_of_lt high (by decide)
  have payload : sub32 size sizeofSize = size - 4 := by
    unfold sub32 sizeofSize
    omega
  have index : blockIndex (size - 4) ≤ stop := by
    apply (blockIndex_le_iff (by decide) (by omega)).mpr
    change size - 4 + 8 ≤ 2 ^ 12
    omega
  have nonnull : ¬ a + sizeofSize = 0 := Nat.succ_ne_zero _
  unfold free
  rw [if_neg nonnull]
  simp only [Nat.add_sub_cancel, cleared_eq small header, store_mem, update_self, payload,
    if_neg (Nat.not_lt.mpr index)]

/-! ## Moving a block -/

/-- The words of a block in use are in front of `free_list->heap`, and not those of another block. -/
theorem InUse.word (inv : InUse base s) {d : Nat × Nat} (memd : d ∈ s.blocks) (memb : b ∈ s.blocks) (other : d ≠ b)
    (low : d.1 ≤ a) (high : a < d.1 + d.2) :
    a / 4 * 4 < s.heap.heap ∧ (a / 4 * 4 < b.1 ∨ b.1 + b.2 ≤ a / 4 * 4) := by
  obtain ⟨-, below⟩ := inv.below d memd
  have aligned := inv.aligned d memd
  have apart := inv.apart memd memb other
  unfold Apart at apart
  omega

/-- The copy of a block to a new one at `a`, and `free` of the old one. -/
structure Copied (h : Heap) (b : Nat × Nat) (a k : Nat) (h' : Heap) : Prop where
  freeList : h'.freeList = h.freeList
  heap : h'.heap = h.heap
  usable : h'.sizeUsable = h.sizeUsable
  brk : h'.brk = h.brk
  munmaps : h'.munmaps = h.munmaps
  words : ∀ v < a + sizeofSize, v ≠ b.1 → v ≠ b.1 + sizeofSize → h'.mem v = h.mem v
  contents : ∀ i < k, byteAt h'.mem (a + sizeofSize + i) = byteAt h.mem (b.1 + sizeofSize + i)

theorem copied_free {k : Nat} (aligned : 4 ∣ a) (behind : b.1 + b.2 ≤ a) (large : 32 ≤ b.2)
    (short : b.2 ≤ 4092) (header : h.mem b.1 = b.2 ∨ h.mem b.1 = b.2 + 2 ^ lastBit) (inside : k + sizeofSize ≤ b.2) :
    Copied h b a k (free (transferringData h (b.1 + sizeofSize) (a + sizeofSize) k) (b.1 + sizeofSize)) := by
  have aligned' : 4 ∣ a + sizeofSize := Nat.dvd_add aligned (by decide)
  have front : ∀ v < a + sizeofSize,
      (transferringData h (b.1 + sizeofSize) (a + sizeofSize) k).mem v = h.mem v :=
    fun v below => copy_word aligned' (.inl below)
  have size : (transferringData h (b.1 + sizeofSize) (a + sizeofSize) k).mem b.1 = b.2 ∨
      (transferringData h (b.1 + sizeofSize) (a + sizeofSize) k).mem b.1 = b.2 + 2 ^ lastBit := by
    rw [front b.1 (by unfold sizeofSize; omega)]
    exact header
  rw [free_eq (by omega) short size]
  -- only the header and the link of the old block are stored to after the copy
  have after : ∀ v ≠ b.1, v ≠ b.1 + sizeofSize →
      (add ((transferringData h (b.1 + sizeofSize) (a + sizeofSize) k).store b.1 b.2)
        (blockIndex (b.2 - 4) - start) (b.1 + sizeofSize)).mem v =
        (transferringData h (b.1 + sizeofSize) (a + sizeofSize) k).mem v := by
    intro v other link
    rw [add_mem, update_of_ne link, store_mem, update_of_ne other]
  refine ⟨rfl, rfl, rfl, rfl, rfl, fun v below other link => ?_, fun i small => ?_⟩
  · rw [after v other link, front v below]
  · have copied : byteAt (transferringData h (b.1 + sizeofSize) (a + sizeofSize) k).mem (a + sizeofSize + i) =
        byteAt h.mem (b.1 + sizeofSize + i) :=
      byteAt_copy (.inl (by omega)) small
    rw [← copied]
    apply byteAt_congr
    apply after
    · omega
    · omega

/-- What a move does: the contents are at the new block, and the other blocks are as before. -/
structure Moved (base : Nat) (s : Blocks) (b : Nat × Nat) (n k : Nat) (h : Heap) (a : Nat) : Prop where
  inUse : InUse base ⟨h, Malloc.without s.blocks (b.1 + sizeofSize) ++ [(a, blockSize n)]⟩
  behind : s.heap.heap ≤ a
  contents : ∀ i < k, byteAt h.mem (a + sizeofSize + i) = byteAt s.heap.mem (b.1 + sizeofSize + i)
  unchanged : ∀ d ∈ s.blocks, d ≠ b → ∀ x, d.1 ≤ x → x < d.1 + d.2 → byteAt h.mem x = byteAt s.heap.mem x
  munmaps : h.munmaps = s.heap.munmaps

theorem InUse.moveBlock (inv : InUse base s) (mem : b ∈ s.blocks) (ok : PoolSize n) (none : NoneListed s.heap n)
    (short : b.2 ≤ 4092) {w k : Nat} (header : w = b.2 ∨ w = b.2 + 2 ^ lastBit) {copied : Heap → Nat}
    (count : ∀ h, h.mem b.1 = w → copied h = k) (inside : k + sizeofSize ≤ b.2) :
    ∃ h a, moveBlock (s.heap.store b.1 w) (b.1 + sizeofSize) n copied = some (h, a + sizeofSize) ∧
      Moved base s b n k h a := by
  have set := inv.freeList_ne mem
  obtain ⟨-, below⟩ := inv.below b mem
  obtain ⟨large, -⟩ := inv.size b mem
  obtain ⟨h1, a, done, fresh, inUse⟩ := (inv.store mem w).malloc ok none
  have same : ready (s.heap.store b.1 w) = s.heap.store b.1 w := ready_eq set
  have behind : s.heap.heap ≤ a := by
    have behind := fresh.behind
    rw [same] at behind
    exact behind
  have words : ∀ v < s.heap.heap, h1.mem v = (s.heap.store b.1 w).mem v := by
    have words := fresh.words
    rw [same] at words
    exact words
  have size : h1.mem b.1 = w := by
    rw [words b.1 (by omega), store_mem, update_self]
  have copy := copied_free fresh.aligned (Nat.le_trans below behind) large short (by rw [size]; exact header) inside
  generalize final : free (transferringData h1 (b.1 + sizeofSize) (a + sizeofSize) k) (b.1 + sizeofSize) = h
    at copy
  have old : ∀ v < s.heap.heap, v ≠ b.1 → v ≠ b.1 + sizeofSize → h.mem v = s.heap.mem v := by
    intro v front other link
    rw [copy.words v (by omega) other link, words v front, store_mem, update_of_ne other]
  refine ⟨h, a, ?_, ?_, behind, fun i small => ?_, fun d memd other x low high => ?_, ?_⟩
  · unfold User.moveBlock
    rw [done]
    simp only [Option.bind_eq_bind, Option.bind_some, count h1 size]
    rw [final]
    rfl
  · refine inUse.congr (fresh.chunk.congr copy.freeList copy.heap copy.usable copy.brk) (inv.chunk mem).2
      (Nat.le_of_eq copy.heap.symm) ?_ ?_ fun d memd => ?_
    · rw [copy.brk]
      exact fresh.brk
    · rw [copy.heap]
      exact inUse.heap (by rw [fresh.chunk.list]; exact Nat.ne_of_gt (inv.chunk mem).2)
    · have apart : d.1 < a + sizeofSize ∧ d.1 ≠ b.1 ∧ d.1 ≠ b.1 + sizeofSize := by
        rcases mem_append.mp memd with rest | new
        · obtain ⟨memd, other⟩ := mem_without.mp rest
          have here := inv.word memd mem (fun same => other (by rw [same])) (Nat.le_refl _)
            (Nat.lt_add_of_pos_right (Nat.lt_of_lt_of_le (by decide) (inv.size d memd).1))
          unfold sizeofSize
          omega
        · rw [mem_singleton.mp new]
          unfold sizeofSize
          omega
      exact copy.words d.1 apart.1 apart.2.1 apart.2.2
  · rw [copy.contents i small]
    apply byteAt_congr
    unfold sizeofSize at *
    rw [words _ (by omega), store_mem, update_of_ne (by omega)]
  · have here := inv.word memd mem other low high
    apply byteAt_congr
    unfold sizeofSize at *
    exact old _ here.1 (by omega) (by omega)
  · rw [copy.munmaps]
    exact fresh.munmaps

/-! ## Extending a block -/

/-- What an extension by `size` bytes does. -/
structure Extended (base : Nat) (s : Blocks) (b : Nat × Nat) (size : Nat) (h : Heap) : Prop where
  inUse : InUse base ⟨h, Malloc.without s.blocks (b.1 + sizeofSize) ++ [(b.1, b.2 + size)]⟩
  words : ∀ v < s.heap.heap, v ≠ b.1 → h.mem v = s.heap.mem v
  munmaps : h.munmaps = s.heap.munmaps

theorem InUse.extendBlock (inv : InUse base s) (mem : b ∈ s.blocks) (ok : PoolSize n) (none : NoneListed s.heap n)
    (tail : b.1 + b.2 = s.heap.heap) (fits : blockSize n ≤ s.heap.sizeUsable) (short : b.2 ≤ 4092) :
    ∃ h, extendBlock (s.heap.store b.1 b.2) (b.1 + sizeofSize) n = some (h, b.1 + sizeofSize) ∧
      Extended base s b (blockSize n) h := by
  have set := inv.freeList_ne mem
  have rest := inv.store mem b.2
  obtain ⟨chunk, positive⟩ := inv.chunk mem
  obtain ⟨low, -⟩ := inv.below b mem
  obtain ⟨large, -⟩ := inv.size b mem
  have small := ok.blockSize_le
  unfold chunkSize at small
  obtain ⟨h1, a, done, fresh, inUse⟩ := rest.malloc ok none
  -- the new block is the part behind the old one
  have here : a = s.heap.heap := fresh.here set fits
  subst here
  have words : ∀ v < s.heap.heap, h1.mem v = (s.heap.store b.1 b.2).mem v := by
    have words := fresh.words
    rw [@ready_eq (s.heap.store b.1 b.2) set] at words
    exact words
  have size : h1.mem b.1 = b.2 := by
    rw [words b.1 (by omega), store_mem, update_self]
  have total : b.2 + blockSize n < 2 ^ lastBit := by
    unfold lastBit
    omega
  have sum : (h1.mem b.1 + h1.mem s.heap.heap) % 2 ^ 32 = b.2 + blockSize n + 2 ^ lastBit := by
    rw [size, fresh.header]
    unfold lastBit
    omega
  have flagged : (b.2 + blockSize n + 2 ^ lastBit) ||| 2 ^ lastBit = b.2 + blockSize n + 2 ^ lastBit := by
    rw [← or_flag total, Nat.or_assoc, Nat.or_self]
  have kept : ∀ v < s.heap.heap, v ≠ b.1 →
      (h1.store b.1 (b.2 + blockSize n + 2 ^ lastBit)).mem v = s.heap.mem v := by
    intro v front other
    rw [store_mem, update_of_ne other, words v front, store_mem, update_of_ne other]
  refine ⟨h1.store b.1 (b.2 + blockSize n + 2 ^ lastBit), ?_, ?_, kept, fresh.munmaps⟩
  · unfold User.extendBlock
    rw [done]
    simp only [Option.bind_eq_bind, Option.bind_some, Nat.add_sub_cancel, sum, setFlag, store_mem,
      update_self, flagged]
    simp only [Heap.store, update_idem]
    rfl
  · refine rest.push ⟨.inr ⟨?_, positive⟩, fun d memd => ?_, ?_⟩ (fun d memd => ?_) ?_ ⟨?_, total⟩
      (inv.aligned b mem) fresh.brk ?_
    · exact fresh.chunk.congr rfl rfl rfl rfl
    · have ends := fresh.ends
      change _ ∧ _ ≤ h1.heap
      rcases mem_append.mp memd with old | new
      · obtain ⟨lowd, highd⟩ := rest.below d old
        change d.1 + d.2 ≤ s.heap.heap at highd
        exact ⟨lowd, by omega⟩
      · rw [mem_singleton.mp new]
        exact ⟨low, by change b.1 + (b.2 + blockSize n) ≤ _; omega⟩
    · apply pairwise_append.mpr
      refine ⟨rest.disjoint, pairwise_singleton _ _, fun d old c new => ?_⟩
      obtain ⟨memd, other⟩ := mem_without.mp old
      have apart := inv.apart memd mem (fun same => other (by rw [same]))
      obtain ⟨-, below⟩ := inv.below d memd
      have positive := (inv.size d memd).1
      rw [mem_singleton.mp new]
      unfold Apart at apart
      left
      change d.1 + d.2 ≤ b.1
      omega
    · obtain ⟨memd, other⟩ := mem_without.mp memd
      have apart : d.1 ≠ b.1 := fun same => other (by rw [same])
      change (update h1.mem b.1 _ : Nat → Nat) d.1 = _
      obtain ⟨-, below⟩ := inv.below d memd
      have positive := (inv.size d memd).1
      rw [update_of_ne apart, words d.1 (by omega)]
    · exact update_self ..
    · change 32 ≤ b.2 + blockSize n
      omega
    · exact inUse.heap (by rw [fresh.chunk.list]; exact Nat.ne_of_gt positive)

/-! ## `realloc` -/

theorem InUse.headerSize (inv : InUse base s) (mem : b ∈ s.blocks) : headerSize s.heap (b.1 + sizeofSize) = b.2 := by
  unfold Malloc.headerSize
  rw [Nat.add_sub_cancel, inv.header b mem, flagged_mod (inv.size b mem).2]

theorem InUse.clearFlag (inv : InUse base s) (mem : b ∈ s.blocks) :
    clearFlag s.heap b.1 = s.heap.store b.1 b.2 := by
  unfold User.clearFlag
  rw [inv.header b mem, flagged_mod (inv.size b mem).2]

theorem usableSize_eq (header : h.mem a = size) (large : 4 ≤ size) (small : size < 2 ^ 32) :
    usableSize h (a + sizeofSize) = size - sizeofSize := by
  unfold usableSize sub32
  rw [Nat.add_sub_cancel, header]
  unfold sizeofSize
  omega

/-- The three cases of `realloc` on a block in use. -/
theorem InUse.realloc_eq (inv : InUse base s) (mem : b ∈ s.blocks) (ok : PoolSize n) :
    realloc s.heap (b.1 + sizeofSize) n = if n + sizeofSize ≤ b.2 then some (s.heap, b.1 + sizeofSize)
      else if b.1 + b.2 = s.heap.heap ∧ blockSize (n - (b.2 - sizeofSize)) ≤ s.heap.sizeUsable then
        User.extendBlock (s.heap.store b.1 b.2) (b.1 + sizeofSize) (n - (b.2 - sizeofSize))
      else
        User.moveBlock (s.heap.store b.1 b.2) (b.1 + sizeofSize) n (usableSize · (b.1 + sizeofSize)) := by
  obtain ⟨large, small⟩ := inv.size b mem
  obtain ⟨positive, bound⟩ := ok
  have nonnull : ¬ b.1 + sizeofSize = 0 := Nat.succ_ne_zero _
  have header : (s.heap.store b.1 b.2).mem b.1 = b.2 := update_self ..
  have usable := usableSize_eq header (by omega) (Nat.lt_trans small (by decide))
  have restored : setFlag (s.heap.store b.1 b.2) b.1 = s.heap := by
    unfold setFlag
    rw [header, or_flag small, ← inv.header b mem]
    unfold Heap.store
    rw [update_idem, update_eq_self]
  unfold realloc
  rw [if_neg nonnull, if_neg (by omega)]
  simp only [Nat.add_sub_cancel, inv.clearFlag mem, usable, restored]
  by_cases keeps : n + sizeofSize ≤ b.2
  · rw [if_pos keeps, if_pos (by omega)]
  · have needed : sub32 n (b.2 - sizeofSize) = n - (b.2 - sizeofSize) := by
      unfold sub32
      omega
    have request : PoolSize (n - (b.2 - sizeofSize)) := by
      unfold PoolSize
      omega
    have next : b.1 + sizeofSize + (b.2 - sizeofSize) = b.1 + b.2 := by
      unfold sizeofSize at *
      omega
    rw [if_neg keeps, if_neg (by omega), needed, request.shl1, next]
    rfl

theorem InUse.again (inv : InUse base s) (mem : b ∈ s.blocks) :
    InUse base ⟨s.heap, Malloc.without s.blocks (b.1 + sizeofSize) ++ [b]⟩ := by
  have rest := inv.without (b.1 + sizeofSize)
  refine rest.push ⟨rest.start.imp (fun fresh => ?_) id, ?_, ?_⟩ (fun _ _ => rfl) (inv.header b mem)
    (inv.size b mem) (inv.aligned b mem) inv.brk (inv.heap (inv.freeList_ne mem))
  · exact absurd fresh.1.list (inv.freeList_ne mem)
  · exact forall_mem_append.mpr ⟨rest.below, forall_mem_singleton.mpr (inv.below b mem)⟩
  · apply pairwise_append.mpr
    refine ⟨rest.disjoint, pairwise_singleton _ _, fun d old c new => ?_⟩
    obtain ⟨memd, other⟩ := mem_without.mp old
    rw [mem_singleton.mp new]
    exact inv.apart memd mem (fun same => other (by rw [same]))

theorem track_eq {blocks : List (Nat × Nat)} (header : h.mem a = size + 2 ^ lastBit)
    (small : size < 2 ^ lastBit) : track blocks (h, a + sizeofSize) = ⟨h, blocks ++ [(a, size)]⟩ := by
  unfold track
  rw [if_neg (show ¬ a + sizeofSize = 0 from Nat.succ_ne_zero _), Nat.add_sub_cancel, header, flagged_mod small]

theorem blockSize_room {n : Nat} (ok : PoolSize n) : n + 8 ≤ blockSize n := by
  have bound := ok.2
  exact (blockIndex_le_iff ok.start_le (by omega)).mp (Nat.le_refl _)

theorem InUse.realloc (inv : InUse base s) (mem : b ∈ s.blocks) (ok : PoolSize n)
    (careful : ReallocCareful s.heap (b.1 + sizeofSize) n) :
    ∃ h q, realloc s.heap (b.1 + sizeofSize) n = some (h, q) ∧ ReallocOk s b n h q ∧
      InUse base (track (Malloc.without s.blocks (b.1 + sizeofSize)) (h, q)) := by
  obtain ⟨large, small⟩ := inv.size b mem
  have nonnull : ¬ b.1 + sizeofSize = 0 := Nat.succ_ne_zero _
  have positive := ok.1
  have bound := ok.2
  have extends_iff : Extends s.heap (b.1 + sizeofSize) n ↔
      b.1 + b.2 = s.heap.heap ∧ blockSize (n - (b.2 - sizeofSize)) ≤ s.heap.sizeUsable := by
    have next : b.1 + sizeofSize + (b.2 - sizeofSize) = b.1 + b.2 := by
      unfold sizeofSize
      omega
    unfold Extends
    rw [inv.headerSize mem, next]
  unfold ReallocCareful at careful
  rw [if_neg nonnull, if_neg (by omega), inv.headerSize mem] at careful
  rw [inv.realloc_eq mem ok]
  by_cases keeps : n + sizeofSize ≤ b.2
  · rw [if_pos keeps]
    have size : s.heap.mem (b.1 + sizeofSize - sizeofSize) % 2 ^ lastBit = b.2 := inv.headerSize mem
    refine ⟨s.heap, b.1 + sizeofSize, rfl, ⟨?_, ?_, fun _ _ => rfl, ?_, fun _ _ _ _ _ _ => rfl, rfl⟩, ?_⟩
    · rw [size]
      exact keeps
    · rw [size]
      exact inv.le_brk mem
    · intro d memd other
      rw [size, Nat.add_sub_cancel]
      exact inv.apart memd mem other
    · rw [track_eq (inv.header b mem) small]
      exact inv.again mem
  · have short : b.2 ≤ 4092 := by
      unfold sizeofSize at keeps
      omega
    rw [if_neg keeps]
    rw [if_neg keeps] at careful
    by_cases tail : b.1 + b.2 = s.heap.heap ∧ blockSize (n - (b.2 - sizeofSize)) ≤ s.heap.sizeUsable
    · have request : PoolSize (n - (b.2 - sizeofSize)) := by
        unfold PoolSize
        unfold sizeofSize at *
        omega
      have room := blockSize_room request
      rw [if_pos (extends_iff.mpr tail)] at careful
      obtain ⟨h, done, ext⟩ := inv.extendBlock mem request careful tail.1 tail.2 short
      have last := mem_append_right (Malloc.without s.blocks (b.1 + sizeofSize))
        (mem_singleton_self (b.1, b.2 + blockSize (n - (b.2 - sizeofSize))))
      have header := ext.inUse.header _ last
      have total := (ext.inUse.size _ last).2
      have size : h.mem (b.1 + sizeofSize - sizeofSize) % 2 ^ lastBit =
          b.2 + blockSize (n - (b.2 - sizeofSize)) := ext.inUse.headerSize last
      rw [if_pos tail, done]
      refine ⟨h, b.1 + sizeofSize, rfl, ⟨?_, ?_, fun i few => ?_, ?_, ?_, ext.munmaps⟩, ?_⟩
      · rw [size]
        unfold sizeofSize at *
        omega
      · rw [size]
        exact ext.inUse.le_brk last
      · apply byteAt_congr
        unfold sizeofSize at *
        exact ext.words _ (by omega) (by omega)
      · intro d memd other
        have apart := inv.apart memd mem other
        obtain ⟨-, below⟩ := inv.below d memd
        have some := (inv.size d memd).1
        rw [size, Nat.add_sub_cancel]
        unfold Apart at *
        left
        change d.1 + d.2 ≤ b.1
        omega
      · intro d memd other a low high
        have here := inv.word memd mem other low high
        apply byteAt_congr
        exact ext.words _ here.1 (by omega)
      · rw [track_eq header total]
        exact ext.inUse
    · rw [if_neg (fun ext => tail (extends_iff.mp ext))] at careful
      obtain ⟨h, a, done, moved⟩ := inv.moveBlock mem ok careful short (.inl rfl)
        (fun h header => usableSize_eq header (by omega) (Nat.lt_trans small (by decide)))
        (Nat.le_of_eq (Nat.sub_add_cancel (by unfold sizeofSize; omega)))
      have last := mem_append_right (Malloc.without s.blocks (b.1 + sizeofSize))
        (mem_singleton_self (a, blockSize n))
      have header := moved.inUse.header _ last
      have total := (moved.inUse.size _ last).2
      have size : h.mem (a + sizeofSize - sizeofSize) % 2 ^ lastBit = blockSize n := moved.inUse.headerSize last
      have room := blockSize_room ok
      rw [if_neg tail, done]
      refine ⟨h, a + sizeofSize, rfl, ⟨?_, ?_, fun i few => ?_, ?_, moved.unchanged, moved.munmaps⟩, ?_⟩
      · rw [size]
        unfold sizeofSize
        omega
      · rw [size]
        exact moved.inUse.le_brk last
      · exact moved.contents i (by omega)
      · intro d memd other
        obtain ⟨-, below⟩ := inv.below d memd
        have behind := moved.behind
        rw [size, Nat.add_sub_cancel]
        left
        change d.1 + d.2 ≤ a
        omega
      · rw [track_eq header total]
        exact moved.inUse

/-- `realloc(p, 0)` moves the first bytes to a block of the smallest class. -/
theorem InUse.realloc_zero (inv : InUse base s) (mem : b ∈ s.blocks)
    (careful : ReallocCareful s.heap (b.1 + sizeofSize) 0) :
    ∃ h q, User.realloc s.heap (b.1 + sizeofSize) 0 = some (h, q) ∧
      InUse base (track (Malloc.without s.blocks (b.1 + sizeofSize)) (h, q)) := by
  obtain ⟨large, -⟩ := inv.size b mem
  have nonnull : ¬ b.1 + sizeofSize = 0 := Nat.succ_ne_zero _
  have same : s.heap.store b.1 (b.2 + 2 ^ lastBit) = s.heap := by
    unfold Heap.store
    rw [← inv.header b mem, update_eq_self]
  unfold ReallocCareful at careful
  rw [if_neg nonnull, if_pos rfl, inv.headerSize mem] at careful
  obtain ⟨none, short⟩ := careful
  have count : ∀ h : Heap, h.mem b.1 = b.2 + 2 ^ lastBit → (fun _ : Heap => 24) h = 24 := fun _ _ => rfl
  obtain ⟨h, a, done, moved⟩ := inv.moveBlock mem (show PoolSize 1 by decide) none
    (by unfold sizeofSize at short; omega) (.inr rfl) count (by unfold sizeofSize; omega)
  have last := mem_append_right (Malloc.without s.blocks (b.1 + sizeofSize))
    (mem_singleton_self (a, blockSize 1))
  rw [same] at done
  unfold User.realloc
  rw [if_neg nonnull, if_pos rfl, done]
  refine ⟨h, a + sizeofSize, rfl, ?_⟩
  rw [track_eq (moved.inUse.header _ last) (moved.inUse.size _ last).2]
  exact moved.inUse

theorem InUse.malloc_step (inv : InUse base s) (bound : n ≤ 4088) (careful : n ≠ 0 → NoneListed s.heap n) :
    ∃ r, User.malloc s.heap n = some r ∧ InUse base (track s.blocks r) := by
  by_cases zero : n = 0
  · subst zero
    exact ⟨(s.heap, 0), rfl, inv⟩
  · obtain ⟨h, a, done, fresh, inUse⟩ := inv.malloc ⟨Nat.pos_of_ne_zero zero, bound⟩ (careful zero)
    have last := mem_append_right s.blocks (mem_singleton_self (a, blockSize n))
    refine ⟨_, done, ?_⟩
    rw [track_eq fresh.header (inUse.size _ last).2]
    exact inUse

theorem InUse.write (inv : InUse base s) (mem : b ∈ s.blocks) {addr : Nat} (low : b.1 + sizeofSize ≤ addr)
    (high : addr < b.1 + b.2) (byte : Nat) :
    InUse base ⟨{ s.heap with mem := setByte s.heap.mem addr byte }, s.blocks⟩ := by
  obtain ⟨chunk, positive⟩ := inv.chunk mem
  refine inv.congr (chunk.congr rfl rfl rfl rfl) positive (Nat.le_refl _) inv.brk (inv.heap (inv.freeList_ne mem))
    fun d memd => ?_
  change (update s.heap.mem _ _ : Nat → Nat) d.1 = _
  rw [update_of_ne]
  by_cases same : d = b
  · rw [same] at *
    unfold sizeofSize at low
    omega
  · have apart := inv.apart memd mem same
    unfold Apart at apart
    unfold sizeofSize at low
    omega

theorem without_null (blocks : List (Nat × Nat)) : Malloc.without blocks 0 = blocks := by
  unfold Malloc.without
  rw [filter_eq_self]
  intro b _
  exact decide_eq_true (Nat.succ_ne_zero _)

theorem InUse.step {s' : Blocks} {e : UserCall} (inv : InUse base s) (step : CarefulUserStep s e s') :
    InUse base s' := by
  obtain ⟨careful, legal, done⟩ := step
  cases e with
  | malloc n =>
    obtain ⟨r, result, inUse⟩ := inv.malloc_step legal careful
    unfold userExec at done
    simp only [result, Option.map_some, Option.some.injEq] at done
    rw [← done]
    exact inUse
  | realloc ptr n =>
    obtain ⟨bound, null | ⟨b, mem, rfl⟩⟩ := legal
    · subst null
      obtain ⟨r, result, inUse⟩ := inv.malloc_step bound careful
      unfold userExec User.realloc at done
      simp only [if_true, result, without_null, Option.map_some, Option.some.injEq] at done
      rw [← done]
      exact inUse
    · obtain ⟨h, q, result, inUse⟩ : ∃ h q, User.realloc s.heap (b.1 + sizeofSize) n = some (h, q) ∧
          InUse base (track (Malloc.without s.blocks (b.1 + sizeofSize)) (h, q)) := by
        by_cases zero : n = 0
        · subst zero
          exact inv.realloc_zero mem careful
        · obtain ⟨h, q, result, -, inUse⟩ := inv.realloc mem ⟨Nat.pos_of_ne_zero zero, bound⟩ careful
          exact ⟨h, q, result, inUse⟩
      unfold userExec at done
      simp only [result, Option.map_some, Option.some.injEq] at done
      rw [← done]
      exact inUse
  | write addr byte =>
    obtain ⟨b, mem, low, high⟩ := legal
    cases done
    exact inv.write mem low high byte

end

/-! ## All runs -/

/-- In every state reached by `malloc` and `realloc`, with the user's stores to the blocks in between,
    `realloc` of a block in use preserves the data, if no request finds a block on its list. -/
theorem realloc_preserves {base : Nat} {h : Heap} {calls : List UserCall} {s : Blocks} (fresh : Untouched base h)
    (aligned : 4 ∣ base) (run : Run CarefulUserStep ⟨h, []⟩ calls s) {b : Nat × Nat} (live : b ∈ s.blocks) {n : Nat}
    (ok : PoolSize n) (careful : ReallocCareful s.heap (b.1 + sizeofSize) n) :
    ∃ h' q, realloc s.heap (b.1 + sizeofSize) n = some (h', q) ∧ ReallocOk s b n h' q := by
  have initial : InUse base ⟨h, []⟩ := by
    refine ⟨⟨.inl ⟨fresh, rfl⟩, forall_mem_nil _, .nil⟩, forall_mem_nil _, forall_mem_nil _,
      forall_mem_nil _, ?_, fun set => absurd fresh.list set⟩
    rw [fresh.brk]
    exact aligned
  have inv := run.invariant (fun _ _ _ inv step => InUse.step inv step) initial
  obtain ⟨h', q, done, preserved, -⟩ := inv.realloc live ok careful
  exact ⟨h', q, done, preserved⟩

instance (h : Heap) (ptr n : Nat) : Decidable (ReallocCareful h ptr n) :=
  inferInstanceAs (Decidable (if ptr = 0 then n ≠ 0 → NoneListed h n
    else if n = 0 then NoneListed h 1 ∧ headerSize h ptr + sizeofSize ≤ 4096
    else if n + sizeofSize ≤ headerSize h ptr then True
    else if Extends h ptr n then NoneListed h (n - (headerSize h ptr - sizeofSize))
    else NoneListed h n))

instance (s : Blocks) (e : UserCall) : Decidable (UserCareful s e) :=
  match e with
  | .malloc n => inferInstanceAs (Decidable (n ≠ 0 → NoneListed s.heap n))
  | .realloc ptr n => inferInstanceAs (Decidable (ReallocCareful s.heap ptr n))
  | .write _ _ => inferInstanceAs (Decidable True)

instance (s : Blocks) (e : UserCall) : Decidable (UserLegal s e) :=
  match e with
  | .malloc n => inferInstanceAs (Decidable (n ≤ 4088))
  | .realloc _ _ => inferInstanceAs (Decidable (_ ∧ (_ ∨ _)))
  | .write _ _ => inferInstanceAs (Decidable (∃ b ∈ s.blocks, _ ∧ _))

/-- The first of two blocks is moved, with what was stored to it. -/
theorem realloc_preserves_moved : ∃ s, Run CarefulUserStep ⟨emptyHeap, []⟩
      [.malloc 24, .malloc 24, .write 0x8800058 7] s ∧
    ∃ h q, realloc s.heap 0x8800058 56 = some (h, q) ∧ ReallocOk s (0x8800054, 32) 56 h q := by
  have found : (attempt (fun s e => UserCareful s e ∧ UserLegal s e) userExec ⟨emptyHeap, []⟩
      [.malloc 24, .malloc 24, .write 0x8800058 7]).any
      (fun s => (0x8800054, 32) ∈ s.blocks ∧ ReallocCareful s.heap 0x8800058 56) = true := by
    decide +kernel
  obtain ⟨s, run, good⟩ := exists_run CarefulUserStep (fun _ _ _ ok done => ⟨ok.1, ok.2, done⟩) found
  obtain ⟨live, careful⟩ := of_decide_eq_true good
  exact ⟨s, run, realloc_preserves ⟨rfl, rfl, by decide⟩ (by decide) run live (by decide) careful⟩

/-- The first of three blocks is moved and put on the list for blocks of 64 bytes.  The third block is then
    moved to its 32 bytes, and runs over the second. -/
theorem realloc_covers_neighbour : ∃ s, Run UserStep ⟨emptyHeap, []⟩
      [.malloc 24, .malloc 24, .malloc 24, .realloc 0x8800058 56] s ∧ (0x8800094, 32) ∈ s.blocks ∧
    ∃ h q, realloc s.heap 0x8800098 56 = some (h, q) ∧ ¬ ReallocOk s (0x8800094, 32) 56 h q := by
  have found : (attempt UserLegal userExec ⟨emptyHeap, []⟩
      [.malloc 24, .malloc 24, .malloc 24, .realloc 0x8800058 56]).any
      (fun s => (0x8800094, 32) ∈ s.blocks ∧ (0x8800074, 32) ∈ s.blocks ∧
        (realloc s.heap 0x8800098 56).any fun r =>
          r.2 = 0x8800058 ∧ r.1.mem 0x8800054 % 2 ^ lastBit = 64) = true := by
    decide +kernel
  obtain ⟨s, run, bad⟩ := exists_run UserStep (fun _ _ _ ok done => ⟨ok, done⟩) found
  obtain ⟨third, second, result⟩ := of_decide_eq_true bad
  cases done : realloc s.heap 0x8800098 56 with
  | none =>
    rw [done] at result
    cases result
  | some r =>
  rw [done] at result
  obtain ⟨pointer, size⟩ := of_decide_eq_true result
  obtain ⟨h, q⟩ := r
  refine ⟨s, run, third, h, q, done, fun preserved => ?_⟩
  have apart := preserved.apart (0x8800074, 32) second (by decide)
  subst pointer
  change Apart _ (0x8800054, h.mem 0x8800054 % 2 ^ lastBit) at apart
  rw [size] at apart
  revert apart
  unfold Apart
  decide

end Illinix.Verified.Malloc
