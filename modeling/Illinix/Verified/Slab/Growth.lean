import Illinix.Verified.Slab.Ownership

/-! # When the slab heap grows

`slab_alloc` tests the result of `slab_space_grow` the wrong way round: after a page has been
added it returns `NULL`, and when no page can be had it calls itself again, for ever.  So it
serves a request exactly if a block is free when it is called.

A request for a whole page needs a second block, for the header that records the page.  When
`slab_alloc` returns `NULL` for the header, `kmalloc` returns `NULL` as well and forgets the page. -/

namespace Illinix.Verified.Slab

open Kernel Lib List
open Verified.Buddy (Block Client KernelInv blockSize blockSize_pos freeBlocks blocks
  blocks_cover blocks_nodup getPage_none)

variable {heap heap' : Heap} {pages : List ℕ} {free live : List Extent} {taken : List Block}
  {s : HeapClient}

/-! ## `slab_alloc` -/

/-- The buddy allocator has a page for the slab heap. -/
def CanGrow (heap : Heap) : Prop := ∃ area p, getPage heap.area (maxOrder - 1) = .ok (area, some p)

/-- The block whose payload is at `p` has room for `size` bytes, on the heap as it is or after it
    has grown. -/
def HasRoom (heap : Heap) (size p : ℕ) : Prop :=
  ∃ h s, (h = heap ∨ slabSpaceGrow heap = .ok (h, 0)) ∧ p = s + slabHeader ∧
    size + slabHeader ≤ h.mem.size s * slabUnit

/-- `slab_alloc` returns: with a block of `size` bytes if there is one or the heap can grow, and
    with `NULL` only otherwise. -/
def Serves (heap : Heap) (size : ℕ) : Prop :=
  ∃ depth heap' r, slabAlloc depth heap size = .ok (heap', r) ∧
    (fits heap (sizeUnits size) = true ∨ CanGrow heap → ∃ p, r = some p ∧ HasRoom heap size p) ∧
    (r = none → ¬ (fits heap (sizeUnits size) = true ∨ CanGrow heap))

theorem fits_iff {n : ℕ} : fits heap n = true ↔ ∃ s, firstFit heap n = .ok (some s) := by
  rw [fits]
  split
  · next found => simp [found]
  · next other =>
    simp only [Bool.false_eq_true, false_iff, not_exists]
    exact fun s found => other s found

theorem slabSearch_some {mem : Mem} {list : ℕ} {test : ℕ → Bool} {fuel start s : ℕ}
    (found : slabSearch mem list test fuel start = .ok (some s)) : test s = true := by
  induction fuel generalizing start with
  | zero => cases found
  | succ fuel ih =>
    rw [slabSearch] at found
    split at found
    · cases found
    · split at found
      · next pass =>
        cases found
        exact pass
      · exact ih found

theorem sizeUnits_room (size : ℕ) : size + slabHeader ≤ sizeUnits size * slabUnit := by
  simp only [sizeUnits, slabHeader, slabUnit]
  omega

/-- A call that had to grow the heap has returned `NULL`. -/
theorem Serves.fits {size : ℕ} (serves : Serves heap size) : fits heap (sizeUnits size) = true := by
  obtain ⟨depth, heap', r, done, -, null⟩ := serves
  cases slabAlloc_inv done with
  | inl fit =>
    obtain ⟨s, found, -⟩ := fit
    exact fits_iff.mpr ⟨s, found⟩
  | inr grown =>
    obtain ⟨-, rfl, area, p, page, -⟩ := grown
    exact absurd (.inr ⟨area, p, page⟩) (null rfl)

/-- `slab_alloc` does what is expected of it exactly if some block of the free list is large
    enough. -/
theorem slabAlloc_serves_iff (heap : Heap) (size : ℕ) :
    Serves heap size ↔ fits heap (sizeUnits size) = true := by
  refine ⟨Serves.fits, fun fit => ?_⟩
  obtain ⟨s, found⟩ := fits_iff.mp fit
  have enough : sizeUnits size ≤ heap.mem.size s := by simpa using slabSearch_some found
  refine ⟨1, _, some (s + slabHeader), by rw [slabAlloc, found]; rfl, fun _ => ?_, by simp⟩
  exact ⟨_, rfl, heap, s, .inl rfl, rfl,
    (sizeUnits_room size).trans (Nat.mul_le_mul_right slabUnit enough)⟩

/-- The first page is used up, and the buddy allocator has pages for a request of one page and for the
    slab heap. -/
theorem exists_full : ∃ s0 s p live, HeapInitial exampleImage s0 ∧
    Run HeapStep s0 (replicate 1024 (.kmalloc 4079)) s ∧
    HeapInv s [p] [] live [] ∧ CanGrow s.heap ∧
    ∃ area pt, getPage s.heap.area 0 = .ok (area, some pt) ∧ CanGrow { s.heap with area } := by
  obtain ⟨s0, area, area1, area2, initial, -, inv, page, single, next⟩ := exampleImage_pages
  obtain ⟨s, live, run, inv', same, -⟩ := inv.fill 1024 le_rfl
  -- 1024 blocks of 4096 bytes leave nothing of the page
  rw [← same] at page single
  exact ⟨s0, s, _, live, initial, run, inv', ⟨area, _, page⟩, area1, _, single, area2, _, next⟩

/-- After 1024 requests the first page is used up.  A request that comes then gets `NULL`, although the
    buddy allocator has a page. -/
theorem slabAlloc_full_page : ∃ s0 s, HeapInitial exampleImage s0 ∧
    Run HeapStep s0 (replicate 1024 (.kmalloc 4079)) s ∧ CanGrow s.heap ∧
    (∃ heap', slabAlloc 1 s.heap 4079 = .ok (heap', none)) ∧ ¬ Serves s.heap 4079 := by
  obtain ⟨s0, s, p, live, initial, run, inv, grow, -⟩ := exists_full
  have full : ¬ fits s.heap (sizeUnits 4079) = true := by
    rw [fits, inv.rep.rep.firstFit_spec]
    simp
  obtain ⟨area, q, got⟩ := id grow
  exact ⟨s0, s, initial, run, grow, ⟨_, (inv.rep.alloc_grow 0 rfl got).1⟩,
    fun serves => full serves.fits⟩

/-! ## The bytes that are free -/

def blockBytes (bs : List Block) : ℕ := (bs.map fun b => blockSize b.order).sum

theorem blockBytes_cons (b : Block) (bs : List Block) :
    blockBytes (b :: bs) = blockSize b.order + blockBytes bs := by
  rw [blockBytes, map_cons, sum_cons, blockBytes]

theorem blockBytes_append (bs cs : List Block) :
    blockBytes (bs ++ cs) = blockBytes bs + blockBytes cs := by
  simp [blockBytes]

/-- The bytes on the free lists of both allocators. -/
def freeBytes (heap : Heap) : ℕ :=
  blockBytes (freeBlocks heap.area) + ((freeSlabs heap).map Extent.len).sum

def blockExtent (b : Block) : Extent := ⟨b.addr, blockSize b.order⟩

theorem kernelInv_partition {c : Client} (inv : KernelInv c) :
    Partition (Extent.Has ⟨reservedPages * pageSize4MB, (kernelPages - reservedPages) * pageSize4MB⟩)
      ((blocks c).map blockExtent) := by
  refine ⟨fun e he => ?_, fun a => ?_, ?_⟩
  · obtain ⟨b, -, rfl⟩ := mem_map.mp he
    exact blockSize_pos _
  · constructor
    · rintro ⟨lower, upper⟩
      obtain ⟨b, ⟨hb, has⟩, -⟩ := blocks_cover inv.client (a := a) (by rwa [inv.startAddr])
        (by rwa [inv.areaEnd])
      exact ⟨blockExtent b, mem_map_of_mem hb, has⟩
    · rintro ⟨e, he, has⟩
      obtain ⟨b, hb, rfl⟩ := mem_map.mp he
      obtain ⟨lower, upper, -⟩ := inv.mem_block hb
      exact ⟨lower.trans has.1, has.2.trans_le upper⟩
  · refine pairwise_map.mpr ((blocks_nodup inv.client).imp_of_mem fun {b c} hb hc ne => ?_)
    refine Extent.apart_of_disjoint (blockSize_pos _) (blockSize_pos _) fun a first second => ne ?_
    exact inv.eq_of_has hb hc first second

theorem kernelInv_bytes {c : Client} (inv : KernelInv c) :
    blockBytes (freeBlocks c.area) + blockBytes c.held = (kernelPages - reservedPages) * pageSize4MB := by
  have whole : Partition
      (Extent.Has ⟨reservedPages * pageSize4MB, (kernelPages - reservedPages) * pageSize4MB⟩)
      [⟨reservedPages * pageSize4MB, (kernelPages - reservedPages) * pageSize4MB⟩] :=
    ⟨by simp [kernelPages, reservedPages, pageSize4MB], by simp, pairwise_singleton _ _⟩
  have total := (kernelInv_partition inv).sum_len whole
  rw [map_map, blocks, map_append, sum_append, map_singleton, sum_singleton] at total
  exact total

namespace HeapRep

theorem balance (h : HeapRep heap pages free live taken) :
    freeBytes heap + blockBytes (pages.map pageBlock) + blockBytes taken =
      (kernelPages - reservedPages) * pageSize4MB + (free.map Extent.len).sum := by
  have bytes : blockBytes (freeBlocks heap.area) + blockBytes (pages.map pageBlock ++ taken) = _ :=
    kernelInv_bytes h.area
  rw [blockBytes_append] at bytes
  rw [freeBytes, h.rep.freeSlabs_eq]
  omega

theorem freeBytes_grown {p : ℕ} (h : HeapRep heap pages free live taken) {taken' : List Block}
    (grown : HeapRep heap' (p :: pages) (free ++ [pageExtent p]) live taken') :
    freeBytes heap' + blockBytes taken' = freeBytes heap + blockBytes taken := by
  have before := h.balance
  have after := grown.balance
  have page : blockBytes ((p :: pages).map pageBlock) = pageSize4MB + blockBytes (pages.map pageBlock) :=
    blockBytes_cons _ _
  have slab : ((free ++ [pageExtent p]).map Extent.len).sum = (free.map Extent.len).sum + pageSize4MB := by
    simp [pageExtent]
  omega

end HeapRep

/-- `kmalloc` obtains a page block for the request. -/
def ObtainsPage (heap : Heap) (size : ℤ) : Prop :=
  (0 < size ∧ size ≤ pageSize4MB ∧ ¬ size.toNat + slabHeader < pageSize) ∧
    ∃ area pt, getPage heap.area (pageOrder size.toNat) = .ok (area, some pt)

namespace HeapRep

theorem alloc_null (h : HeapRep heap pages free live taken) {depth size : ℕ}
    (failed : slabAlloc depth heap size = .ok (heap', none)) :
    ∃ p, HeapRep heap' (p :: pages) (free ++ [pageExtent p]) live taken := by
  cases slabAlloc_inv failed with
  | inl fit =>
    obtain ⟨_, _, result, _⟩ := fit
    cases result
  | inr grown =>
    obtain ⟨found, _, area, p, page, rfl⟩ := grown
    rw [h.rep.firstFit_spec] at found
    exact ⟨p, (h.alloc_grow 0 (Option.map_eq_none_iff.mp (Except.ok.inj found)) page).2⟩

/-- A call of `kmalloc` that returns `NULL` changes the number of free bytes only if it has obtained a
    page: then the bytes of the page are missing. -/
theorem kmalloc_null (h : HeapRep heap pages free live taken) {depth : ℕ} {size : ℤ}
    (failed : kmalloc depth heap size = .ok (heap', none)) :
    ¬ ObtainsPage heap size ∧ freeBytes heap' = freeBytes heap ∨ ObtainsPage heap size ∧
        freeBytes heap' + blockSize (pageOrder size.toNat) = freeBytes heap := by
  rw [kmalloc] at failed
  by_cases outside : size ≤ 0 ∨ size > pageSize4MB
  · rw [if_pos outside] at failed
    cases failed
    refine .inl ⟨fun obtains => ?_, rfl⟩
    have := obtains.1
    omega
  · rw [if_neg outside] at failed
    by_cases small : size.toNat + slabHeader < pageSize
    · -- the page that the heap has grown by is on its free list
      rw [if_pos small] at failed
      obtain ⟨p, grown⟩ := h.alloc_null failed
      refine .inl ⟨fun obtains => obtains.1.2.2 small, ?_⟩
      have := h.freeBytes_grown grown
      omega
    · rw [if_neg small] at failed
      obtain ⟨⟨area, page⟩, got, rest⟩ := bind_eq_ok.mp failed
      cases page with
      | none =>
        cases rest
        cases (getPage_none got).1
        refine .inl ⟨fun obtains => ?_, rfl⟩
        obtain ⟨_, _, _, found⟩ := obtains
        cases got.symm.trans found
      | some pt =>
        right
        refine ⟨⟨⟨by omega, by omega, small⟩, area, pt, got⟩, ?_⟩
        have rep := h.takePage got
        obtain ⟨⟨heap1, added⟩, header, result⟩ := bind_eq_ok.mp rest
        obtain ⟨⟨heap2, node⟩, alloc, header⟩ := bind_eq_ok.mp header
        cases node with
        | some node =>
          cases header
          cases result
        | none =>
          -- the heap has grown for the header; the page of the request is on neither list
          cases header
          cases result
          obtain ⟨p, grown⟩ := rep.alloc_null alloc
          have moved := rep.freeBytes_grown grown
          have before := h.balance
          have after := rep.balance
          rw [blockBytes_cons] at after
          simp only at after
          omega

end HeapRep

/-- The page is there and its header is not. -/
theorem kmalloc_no_header {depth : ℕ} {size : ℤ} {area : FreeArea} {pt : ℕ}
    (large : 0 < size ∧ size ≤ pageSize4MB ∧ ¬ size.toNat + slabHeader < pageSize)
    (got : getPage heap.area (pageOrder size.toNat) = .ok (area, some pt))
    (full : slabAlloc depth { heap with area } pageHeaderSize = .ok (heap', none)) :
    kmalloc depth heap size = .ok (heap', none) := by
  rw [kmalloc, if_neg (by omega), if_neg large.2.2]
  simp only [got, addHeader, full, ok_bind, pure_eq_ok, if_true]

/-- A failing `kmalloc` keeps the number of free bytes exactly if it has not obtained a page. -/
theorem kmalloc_null_keeps_iff (h : HeapRep heap pages free live taken) {depth : ℕ} {size : ℤ}
    (failed : kmalloc depth heap size = .ok (heap', none)) :
    freeBytes heap' = freeBytes heap ↔ ¬ ObtainsPage heap size := by
  have positive := blockSize_pos (pageOrder size.toNat)
  cases h.kmalloc_null failed with
  | inl kept => simp [kept]
  | inr lost =>
    have ne : freeBytes heap' ≠ freeBytes heap := by omega
    simp [ne, lost.1]

/-- The page that the slab heap grows by is counted on its free list. -/
theorem kmalloc_null_keeps_iff_grown : ∃ s0 s heap', HeapInitial exampleImage s0 ∧
    Run HeapStep s0 (replicate 1024 (.kmalloc 4079)) s ∧
    kmalloc 1 s.heap 4079 = .ok (heap', none) ∧ freeBytes heap' = freeBytes s.heap := by
  obtain ⟨s0, s, p, live, initial, run, inv, ⟨area, q, grow⟩, -⟩ := exists_full
  have failed : kmalloc 1 s.heap 4079 = .ok (({ s.heap with area } : Heap).addPage q, none) := by
    exact (inv.rep.alloc_grow 0 rfl grow).1
  have small : ¬ ObtainsPage s.heap 4079 := fun obtains => absurd obtains.1 (by decide)
  exact ⟨s0, s, _, initial, run, failed, (kmalloc_null_keeps_iff inv.rep failed).mpr small⟩

/-- A request for one page when the first page of the slab heap is used up: the page is taken, there is no
    room for its header, and 4096 bytes are gone. -/
theorem kmalloc_loses_page : ∃ s0 s heap', HeapInitial exampleImage s0 ∧
    Run HeapStep s0 (replicate 1024 (.kmalloc 4079)) s ∧
    kmalloc 1 s.heap 4096 = .ok (heap', none) ∧ freeBytes heap' + 4096 = freeBytes s.heap := by
  obtain ⟨s0, s, p, live, initial, run, inv, -, area, pt, got, area', q, grow⟩ := exists_full
  have rep := @HeapRep.takePage _ _ _ _ _ inv.rep 0 _ _ got
  have full : slabAlloc 1 { s.heap with area } pageHeaderSize =
      .ok (({ s.heap with area := area' } : Heap).addPage q, none) := (rep.alloc_grow 0 rfl grow).1
  have failed : kmalloc 1 s.heap 4096 = .ok (({ s.heap with area := area' } : Heap).addPage q, none) :=
    kmalloc_no_header (by decide) got full
  refine ⟨s0, s, _, initial, run, failed, ?_⟩
  cases inv.rep.kmalloc_null failed with
  | inl kept => exact absurd ⟨by decide, area, pt, got⟩ kept.1
  | inr lost => exact lost.2

end Illinix.Verified.Slab
