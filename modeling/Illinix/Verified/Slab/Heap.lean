import Illinix.Verified.Slab.Memory
import Illinix.Verified.Buddy.KernelArea

/-! # The slab heap over the buddy allocator

`HeapRep heap pages free live taken` describes a heap whose slab blocks fill the 4 MB pages
at `pages`, each of which is an order-10 block taken from the buddy allocator; `taken` are
the other blocks taken from it.  `slab_alloc` and `slab_free` keep the description as long
as the first leaves no rest of a single unit and the second hands no page back. -/

namespace Illinix.Verified.Slab

open Kernel Lib List
open Verified.Buddy (Block Client KernelInv blockSize freeBlocks blocks sub32_of_le
  getPage_none)

/-- The addresses of the 4 MB pages at `pages`. -/
def InPages (pages : List ℕ) (a : ℕ) : Prop := ∃ p ∈ pages, p ≤ a ∧ a < p + pageSize4MB

def pageBlock (p : ℕ) : Block := ⟨maxOrder - 1, p⟩

def pageExtent (p : ℕ) : Extent := ⟨p, pageSize4MB⟩

/-- The pointer `kmalloc` returns for a block. -/
def payload (b : Extent) : ℕ := b.start + slabHeader

structure HeapRep (heap : Heap) (pages : List ℕ) (free live : List Extent) (taken : List Block) :
    Prop where
  rep : SlabRep heap.mem heap.slabFreeList (InPages pages) free [] live
  area : KernelInv ⟨heap.area, pages.map pageBlock ++ taken⟩
  small : ∀ b ∈ live, slabHeader < b.len ∧ b.len ≤ pageSize
  sentinel : heap.slabFreeList + slabHeader ≤ reservedPages * pageSize4MB

/-- What the slab operations never change. -/
structure SameRoots (heap heap' : Heap) : Prop where
  slabFreeList : heap'.slabFreeList = heap.slabFreeList
  startSlab : heap'.startSlab = heap.startSlab
  pageHeader : heap'.pageHeader = heap.pageHeader

theorem SameRoots.trans {heap1 heap2 heap3 : Heap} (first : SameRoots heap1 heap2)
    (second : SameRoots heap2 heap3) : SameRoots heap1 heap3 :=
  ⟨second.slabFreeList.trans first.slabFreeList, second.startSlab.trans first.startSlab,
    second.pageHeader.trans first.pageHeader⟩

theorem inPages_cons (p : ℕ) (pages : List ℕ) :
    InPages (p :: pages) = fun a => (pageExtent p).Has a ∨ InPages pages a := by
  funext a
  simp [InPages, Extent.Has, pageExtent]

theorem pageBlock_has {p a : ℕ} : (pageBlock p).Has a ↔ p ≤ a ∧ a < p + pageSize4MB := .rfl

theorem sizeUnits_bounds {size : ℕ} (positive : 0 < size) (small : size + slabHeader < pageSize) :
    slabHeader < sizeUnits size * slabUnit ∧ sizeUnits size * slabUnit ≤ pageSize := by
  simp only [sizeUnits, slabHeader, slabUnit, pageSize] at *
  omega

variable {heap heap' : Heap} {pages : List ℕ} {free live : List Extent} {taken : List Block}
  {b : Extent}

/-- What a call of `slab_alloc` that returns has done: it has cut a block, or it has grown the
    heap and returned `NULL`.  A call that could not grow the heap starts over unchanged. -/
theorem slabAlloc_inv {depth size : ℕ} {r : Option ℕ} (done : slabAlloc depth heap size = .ok (heap', r)) :
    (∃ s, firstFit heap (sizeUnits size) = .ok (some s) ∧ r = some (s + slabHeader) ∧
      heap' = { heap with mem := slabTake heap.mem heap.slabFreeList s (sizeUnits size) }) ∨
    (firstFit heap (sizeUnits size) = .ok none ∧ r = none ∧
      ∃ area p, getPage heap.area (maxOrder - 1) = .ok (area, some p) ∧
        heap' = ({ heap with area } : Heap).addPage p) := by
  induction depth with
  | zero => cases done
  | succ depth ih =>
    obtain ⟨found, fit, rest⟩ := bind_eq_ok.mp done
    cases found with
    | some s =>
      cases rest
      exact .inl ⟨s, fit, rfl, rfl⟩
    | none =>
      obtain ⟨⟨heap1, grown⟩, grow, rest⟩ := bind_eq_ok.mp rest
      obtain ⟨⟨area, page⟩, got, result⟩ := bind_eq_ok.mp grow
      cases page with
      | none =>
        cases result
        cases (getPage_none got).1
        exact ih rest
      | some p =>
        cases result
        cases rest
        exact .inr ⟨fit, rfl, area, p, got, rfl⟩

namespace HeapRep

theorem addPage (heap : Heap) {p : ℕ} (rep : SlabRep heap.mem heap.slabFreeList (InPages pages) free [] live)
    (inv : KernelInv ⟨heap.area, pageBlock p :: (pages.map pageBlock ++ taken)⟩)
    (sentinel : heap.slabFreeList + slabHeader ≤ reservedPages * pageSize4MB) :
    SlabRep (heap.addPage p).mem heap.slabFreeList (InPages (p :: pages)) (free ++ [pageExtent p]) []
      live := by
  have member : pageBlock p ∈ blocks ⟨heap.area, pageBlock p :: (pages.map pageBlock ++ taken)⟩ := by
    simp [blocks]
  obtain ⟨lower, upper, _⟩ := inv.mem_block member
  have fresh : pageBlock p ∉ pages.map pageBlock := by
    have := inv.client.nodup
    rw [nodup_cons, mem_append, not_or] at this
    exact this.1.1
  have outside : ∀ a, (pageExtent p).Has a → ¬ InPages pages a := by
    rintro a ha ⟨q, hq, hqa⟩
    have other : pageBlock q ∈ blocks ⟨heap.area, pageBlock p :: (pages.map pageBlock ++ taken)⟩ := by
      simp only [blocks, mem_append, mem_cons]
      exact .inr (.inr (.inl (mem_map_of_mem hq)))
    have same := inv.eq_of_has member other (pageBlock_has.mpr ha) (pageBlock_has.mpr hqa)
    exact fresh (same ▸ mem_map_of_mem hq)
  rw [inPages_cons]
  have adopted := rep.adopt (b := pageExtent p) (v := pageSlab)
    (show pageSlab * slabUnit = pageSize4MB by decide) (show slabHeader ≤ pageSize4MB by decide)
    (sentinel.trans lower) upper outside
  exact (adopted.setStatus 0).push

section

variable (h : HeapRep heap pages free live taken)

include h

theorem takePage {order pt : ℕ} {area : FreeArea} (got : getPage heap.area order = .ok (area, some pt)) :
    HeapRep { heap with area } pages free live (⟨order, pt⟩ :: taken) := by
  obtain ⟨area', page', got', inv⟩ := h.area.getPage_spec order
  rw [got] at got'
  cases got'
  have moved : ((⟨order, pt⟩ : Block) :: (pages.map pageBlock ++ taken)).Perm
      (pages.map pageBlock ++ ⟨order, pt⟩ :: taken) := perm_middle.symm
  exact ⟨h.rep, inv.perm moved, h.small, h.sentinel⟩

theorem alloc_fit (depth : ℕ) {size : ℕ}
    (positive : 0 < size) (small : size + slabHeader < pageSize)
    (pick : free.find? (fun b => sizeUnits size * slabUnit ≤ b.len) = some b)
    (sliver : b.len ≠ (sizeUnits size + 1) * slabUnit) :
    let heap' := { heap with mem := slabTake heap.mem heap.slabFreeList b.start (sizeUnits size) }
    slabAlloc (depth + 1) heap size = .ok (heap', some (payload b)) ∧
      HeapRep heap' pages (free.erase b ++ remainder b (sizeUnits size))
        (⟨b.start, sizeUnits size * slabUnit⟩ :: live) taken := by
  intro heap'
  have bounds := sizeUnits_bounds positive small
  have found := h.rep.firstFit_spec (sizeUnits size)
  rw [pick] at found
  refine ⟨by rw [slabAlloc, found]; rfl, ?_, h.area, ?_, h.sentinel⟩
  · obtain ⟨fits, left, right, rfl, before⟩ := find?_eq_some_iff_append.mp pick
    have notBefore : b ∉ left := fun hb => by simpa [fits] using before b hb
    rw [erase_append_right _ notBefore, erase_cons_head]
    exact h.rep.take bounds.1.le (by simpa using fits) sliver
  · simp only [mem_cons]
    rintro c (rfl | old)
    exacts [bounds, h.small c old]

/-- `slab_alloc` when none is: it grows the heap and returns `NULL`. -/
theorem alloc_grow (depth : ℕ) {size p : ℕ} {area : FreeArea}
    (none : free.find? (fun b => sizeUnits size * slabUnit ≤ b.len) = none)
    (page : getPage heap.area (maxOrder - 1) = .ok (area, some p)) :
    let heap' := ({ heap with area } : Heap).addPage p
    slabAlloc (depth + 1) heap size = .ok (heap', Option.none) ∧
      HeapRep heap' (p :: pages) (free ++ [pageExtent p]) live taken := by
  intro heap'
  have found := h.rep.firstFit_spec (sizeUnits size)
  rw [none] at found
  obtain ⟨area', r, got, inv⟩ := h.area.getPage_spec (maxOrder - 1)
  rw [page] at got
  cases got
  refine ⟨?_, ?_, inv, h.small, h.sentinel⟩
  · rw [slabAlloc, found, Option.map_none, ok_bind, slabSpaceGrow, page, ok_bind]
    rfl
  · exact addPage { heap with area } h.rep inv h.sentinel

theorem alloc_cases {depth size : ℕ} {r : Option ℕ}
    (positive : 0 < size) (small : size + slabHeader < pageSize)
    (sliver : ∀ b, free.find? (fun b => sizeUnits size * slabUnit ≤ b.len) = some b →
      b.len ≠ (sizeUnits size + 1) * slabUnit)
    (done : slabAlloc depth heap size = .ok (heap', r)) :
    SameRoots heap heap' ∧
    ((∃ b, r = some (payload b) ∧ heap'.area = heap.area ∧
        free.find? (fun b => sizeUnits size * slabUnit ≤ b.len) = some b ∧
        HeapRep heap' pages (free.erase b ++ remainder b (sizeUnits size))
          (⟨b.start, sizeUnits size * slabUnit⟩ :: live) taken) ∨
      (r = none ∧ free.find? (fun b => sizeUnits size * slabUnit ≤ b.len) = none ∧
        ∃ p, HeapRep heap' (p :: pages) (free ++ [pageExtent p]) live taken)) := by
  have spec := h.rep.firstFit_spec (sizeUnits size)
  cases slabAlloc_inv done with
  | inl fit =>
    obtain ⟨s, found, rfl, rfl⟩ := fit
    rw [spec] at found
    obtain ⟨b, pick, rfl⟩ := Option.map_eq_some_iff.mp (Except.ok.inj found)
    exact ⟨⟨rfl, rfl, rfl⟩, .inl ⟨b, rfl, rfl, pick, (h.alloc_fit 0 positive small pick (sliver b pick)).2⟩⟩
  | inr grown =>
    obtain ⟨found, rfl, area, p, page, rfl⟩ := grown
    rw [spec] at found
    have none := Option.map_eq_none_iff.mp (Except.ok.inj found)
    exact ⟨⟨rfl, rfl, rfl⟩, .inr ⟨rfl, none, p, (h.alloc_grow 0 none page).2⟩⟩

theorem free_merge (hb : b ∈ live) : ∃ mem, slabMerge heap.slabFreeList slabFuel heap.mem b.start =
        .ok (mem, (rejoin free b).2.start) ∧
      SlabRep mem heap.slabFreeList (InPages pages) (rejoin free b).1
        [(rejoin free b).2] (live.erase b) ∧
      ∀ a, Quiet (heap.slabFreeList :: (free ++ [b]).map Extent.start) a → mem a = heap.mem a :=
  (h.rep.release hb).merge slabFuel h.rep.length_lt

end

end HeapRep

/-- The test of `slab_free` for an extra page, on the merged block. -/
def ExtraPage (heap : Heap) (b : Extent) : Prop :=
  b.start ≠ heap.startSlab ∧ b.start % pageSize4MB = 0 ∧ b.len = pageSize4MB

theorem extraPage_iff (heap : Heap) {mem : Mem} (size : mem.size b.start * slabUnit = b.len) :
    extraPage heap mem b.start = true ↔ ExtraPage heap b := by
  have whole : mem.size b.start = pageSlab ↔ b.len = pageSize4MB := by
    simp only [slabUnit, pageSlab, pageSize4MB] at size ⊢
    omega
  simp only [extraPage, ExtraPage, Bool.and_eq_true, decide_eq_true_eq, whole, and_assoc]

/-- Freeing the block before `p` would take the branch of `slab_free` that calls
    `free_page`. -/
def handsBack (heap : Heap) (p : ℕ) : Bool :=
  match slabMerge heap.slabFreeList slabFuel heap.mem (sub32 p slabHeader) with
  | .ok (mem, ns) => extraPage heap (mem.setStatus ns 0) ns
  | .error _ => false

namespace HeapRep

section

variable (h : HeapRep heap pages free live taken) (hb : b ∈ live)

include h hb

theorem header_addr : sub32 (payload b) slabHeader = b.start := by
  have inside := (h.rep.partition.cover (b.start + 1)).mpr ⟨b, by simp [hb], by
    have := h.rep.header b (by simp [hb])
    simp only [slabHeader, Extent.Has] at *
    omega⟩
  have := h.rep.bounded _ inside
  rw [payload, sub32_of_le (Nat.le_add_left _ _) (by
    simp only [kernelPages, pageSize4MB, slabHeader] at *
    omega), Nat.add_sub_cancel]

theorem handsBack_iff : handsBack heap (payload b) = true ↔ ExtraPage heap (rejoin free b).2 := by
  obtain ⟨mem, merged, rep, -⟩ := h.free_merge hb
  rw [handsBack, h.header_addr hb, merged]
  exact extraPage_iff heap ((rep.setStatus 0).size _ (by simp))

theorem free_kept (kept : ¬ ExtraPage heap (rejoin free b).2) :
    ∃ mem heap', slabMerge heap.slabFreeList slabFuel heap.mem b.start =
        .ok (mem, (rejoin free b).2.start) ∧
      heap'.mem = slabListPush (mem.setStatus (rejoin free b).2.start 0)
        heap.slabFreeList (rejoin free b).2.start ∧
      SameRoots heap heap' ∧ slabFree heap b.start = .ok heap' ∧
      HeapRep heap' pages ((rejoin free b).1 ++ [(rejoin free b).2]) (live.erase b) taken := by
  obtain ⟨mem, merged, rep, -⟩ := h.free_merge hb
  replace rep := rep.setStatus 0
  have test := (extraPage_iff heap (rep.size _ (by simp))).not.mpr kept
  refine ⟨mem, { heap with mem := slabListPush _ heap.slabFreeList _ }, merged, rfl, ⟨rfl, rfl, rfl⟩, ?_,
    rep.push, h.area, fun c hc => h.small c (mem_of_mem_erase hc), h.sentinel⟩
  rw [slabFree, merged, ok_bind]
  simp only [if_neg test, pure_eq_ok, ok_bind]

/-- `slab_free` of the last live block of an extra page: the page goes to the buddy
    allocator and stays on the free list. -/
theorem free_handsBack (extra : ExtraPage heap (rejoin free b).2) {area : FreeArea}
    (freed : freePage heap.area (rejoin free b).2.start (maxOrder - 1) = .ok area) :
    ∃ mem, slabFree heap b.start = .ok { heap with area, mem } ∧ SlabRep mem heap.slabFreeList (InPages pages)
        ((rejoin free b).1 ++ [(rejoin free b).2]) [] (live.erase b) := by
  obtain ⟨mem, merged, rep, -⟩ := h.free_merge hb
  replace rep := rep.setStatus 0
  have test := (extraPage_iff heap (rep.size _ (by simp))).mpr extra
  refine ⟨_, ?_, rep.push⟩
  rw [slabFree, merged, ok_bind]
  simp only [if_pos test, freed, pure_eq_ok, ok_bind]

end

end HeapRep

end Illinix.Verified.Slab
