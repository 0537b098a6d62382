import Illinix.Verified.Slab.Coalesce
import Illinix.Verified.Slab.Ownership

/-! # Blocks across a page boundary

`_slab_free` joins two blocks that touch unless both start a 4 MB page.  This keeps two whole
pages apart, but not the end of one page and the start of the next.  A block reaches over a
boundary exactly when a `kfree` joins it with a block of another page. -/

namespace Illinix.Verified.Slab

open Kernel Lib List
open Verified.Buddy (Block KernelInv)

/-- A block with bytes of two pages. -/
def Straddles (b : Extent) : Prop :=
  b.start / pageSize4MB ≠ (b.start + b.len - 1) / pageSize4MB

/-- The blocks of the slab heap: those on the free list, and those handed out to clients or as
    headers of pages. -/
def slabs (s : HeapClient) : List Extent :=
  freeSlabs s.heap ++ liveSlabs s.heap (s.small ++ s.heap.pageHeader.map PageHeader.node)

def InOwnPages (s : HeapClient) : Prop := ∀ b ∈ slabs s, ¬ Straddles b

/-- Freeing the block before `p` would take a block of another page off the free list. -/
def joinsPages (heap : Heap) (p : ℕ) : Bool :=
  match slabMerge heap.slabFreeList slabFuel heap.mem (sub32 p slabHeader) with
  | .ok (mem, _) => (freeSlabs heap).any fun s => s ∉ freeSlabs { heap with mem } ∧
      s.start / pageSize4MB ≠ sub32 p slabHeader / pageSize4MB
  | .error _ => false

/-- The request joins no blocks of different pages. -/
def StaysInPage (heap : Heap) : HeapRequest → Prop
  | .kfree p => joinsPages heap (slabPointer heap p) = false
  | _ => True

variable {heap : Heap} {pages : List ℕ} {free live free' live' : List Extent}
  {taken leaked : List Block} {b c : Extent} {s t : HeapClient} {r : HeapRequest}

/-! ## Extents and pages -/

theorem page_eq (inside : ¬ Straddles b) {a : ℕ} (ha : b.Has a) :
    a / pageSize4MB = b.start / pageSize4MB := by
  simp only [Straddles, Extent.Has, pageSize4MB] at *
  omega

theorem not_straddles_part (inside : ¬ Straddles b) (lower : b.start ≤ c.start)
    (upper : c.start + c.len ≤ b.start + b.len) (positive : 0 < c.len) : ¬ Straddles c := by
  simp only [Straddles, pageSize4MB] at *
  omega

theorem not_straddles_page {p : ℕ} (aligned : p % pageSize4MB = 0) : ¬ Straddles (pageExtent p) := by
  simp only [Straddles, pageExtent, pageSize4MB] at *
  omega

/-- What is cut from a block stays in its page, and so does the rest. -/
theorem not_straddles_remainder {n : ℕ} (inside : ¬ Straddles b) (fits : n * slabUnit ≤ b.len)
    (hc : c ∈ remainder b n) : ¬ Straddles c := by
  rw [remainder] at hc
  split at hc
  · cases hc
  · next more =>
    obtain rfl := mem_singleton.mp hc
    refine not_straddles_part inside (Nat.le_add_right _ _) ?_ ?_
    · simp only
      omega
    · simp only
      omega

/-! ## One request -/

namespace HeapRep

theorem joinsPages_iff (h : HeapRep heap pages free live taken) (hb : b ∈ live) :
    joinsPages heap (payload b) = true ↔ ∃ s ∈ free, s ∉ (rejoin free b).1 ∧
      s.start / pageSize4MB ≠ b.start / pageSize4MB := by
  obtain ⟨mem, merged, rep, -⟩ := h.free_merge hb
  have after : freeSlabs { heap with mem } = (rejoin free b).1 := SlabRep.freeSlabs_eq rep
  rw [joinsPages, h.header_addr hb, merged]
  simp [after, h.rep.freeSlabs_eq]

/-- Blocks that lie in their pages are joined to one that does unless one of them comes from another
    page. -/
theorem straddles_merged (h : HeapRep heap pages free live taken) (hb : b ∈ live)
    (inside : ∀ c ∈ free ++ live, ¬ Straddles c) :
    Straddles (rejoin free b).2 ↔ joinsPages heap (payload b) = true := by
  rw [h.joinsPages_iff hb]
  obtain ⟨mem, merged, rep, -⟩ := h.free_merge hb
  have old := (h.rep.release hb).partition
  have has := old.has_joined rep.partition fun x hx => (coalesce_sublist _ _ _).subset hx
  have positive := rep.partition.positive (rejoin free b).2 (by simp)
  have own : (rejoin free b).2.Has b.start :=
    (has _).mpr (.inl ⟨le_rfl, Nat.lt_add_of_pos_right (old.positive b (by simp))⟩)
  generalize rejoin free b = m at *
  constructor
  · intro straddles
    by_contra none
    push Not at none
    -- every byte of the joined block is in the page of `b`
    have page : ∀ a, m.2.Has a → a / pageSize4MB = b.start / pageSize4MB := by
      intro a ha
      rcases (has a).mp ha with hba | ⟨x, hx, gone, hxa⟩
      · exact page_eq (inside b (by simp [hb])) hba
      · rw [page_eq (inside x (by simp [hx])) hxa]
        exact none x hx gone
    apply straddles
    rw [page m.2.start ⟨le_rfl, by omega⟩, page (m.2.start + m.2.len - 1) ⟨by omega, by omega⟩]
  · rintro ⟨x, hx, gone, other⟩
    by_contra single
    have first : x.Has x.start := ⟨le_rfl, Nat.lt_add_of_pos_right (old.positive x (by simp [hx]))⟩
    rw [page_eq single ((has _).mpr (.inr ⟨x, hx, gone, first⟩)), page_eq single own] at other
    exact other rfl

end HeapRep

theorem HeapInv.inOwnPages_iff (inv : HeapInv s pages free live leaked) :
    InOwnPages s ↔ ∀ b ∈ free ++ live, ¬ Straddles b := by
  have same : ∀ b, b ∈ slabs s ↔ b ∈ free ++ live := fun b => inv.mem_slabs
  simp only [InOwnPages, same]

/-- Only a `kfree` that joins pages takes a block out of its page. -/
theorem BlockChange.inside_iff (change : BlockChange heap free live r free' live')
    (h : HeapRep heap pages free live taken) (inside : ∀ b ∈ free ++ live, ¬ Straddles b) :
    (∀ b ∈ free' ++ live', ¬ Straddles b) ↔ StaysInPage heap r := by
  cases change with
  | same keeps =>
    cases r with
    | kfree p => exact absurd rfl (keeps p)
    | _ => exact ⟨fun _ => trivial, fun _ => inside⟩
  | cut mem positive fits =>
    refine ⟨fun _ => trivial, fun _ c hc => ?_⟩
    -- the block that is cut, and the rest of it, lie in a block of one page
    have whole := inside _ (mem_append_left _ mem)
    simp only [mem_append, mem_cons] at hc
    rcases hc with (old | rest) | rfl | old
    · exact inside c (mem_append_left _ (mem_of_mem_erase old))
    · exact not_straddles_remainder whole fits rest
    · exact not_straddles_part whole le_rfl (Nat.add_le_add_left fits _) (Nat.mul_pos positive (by decide))
    · exact inside c (mem_append_right _ old)
  | grow aligned =>
    refine ⟨fun _ => trivial, fun _ c hc => ?_⟩
    simp only [mem_append, mem_singleton] at hc
    rcases hc with (old | rfl) | old
    · exact inside c (mem_append_left _ old)
    · exact not_straddles_page aligned
    · exact inside c (mem_append_right _ old)
  | join mem pointer =>
    -- only the joined block is new
    rw [StaysInPage, ← pointer, Bool.eq_false_iff, Ne, ← h.straddles_merged mem inside]
    refine ⟨fun all => all _ (by simp), fun merged c hc => ?_⟩
    simp only [mem_append, mem_singleton] at hc
    rcases hc with (old | rfl) | old
    · exact inside c (mem_append_left _ ((coalesce_sublist _ _ _).subset old))
    · exact merged
    · exact inside c (mem_append_right _ (mem_of_mem_erase old))

/-! ## Runs -/

/-- In every run of careful requests that join no pages, each block lies in its page; and a careful
    request that comes next keeps this exactly if it joins no pages. -/
theorem slabs_in_own_pages {image : KernelImage} {s0 : HeapClient} {events : List HeapRequest}
    (init : HeapInitial image s0)
    (run : Run (fun s r t => HeapStep s r t ∧ Careful s.heap r ∧ StaysInPage s.heap r) s0 events s) :
    InOwnPages s ∧ ∀ r t, HeapStep s r t → Careful s.heap r →
      (InOwnPages t ↔ StaysInPage s.heap r) := by
  have next : ∀ {s r t}, HeapOwned s → InOwnPages s → HeapStep s r t → Careful s.heap r →
      HeapOwned t ∧ (InOwnPages t ↔ StaysInPage s.heap r) := by
    rintro s r t ⟨pages, free, live, leaked, inv⟩ inside step careful
    obtain ⟨pages', free', live', leaked', inv', change⟩ := inv.step careful step
    refine ⟨⟨_, _, _, _, inv'⟩, ?_⟩
    rw [inv'.inOwnPages_iff]
    exact change.inside_iff inv.rep (inv.inOwnPages_iff.mp inside)
  have reached : HeapOwned s ∧ InOwnPages s := by
    obtain ⟨p, -, -, -, inv⟩ := init.inv
    have first : InOwnPages s0 := by
      rw [inv.inOwnPages_iff]
      intro b hb
      obtain rfl := List.mem_singleton.mp (by simpa using hb)
      exact not_straddles_page (inv.page_aligned (List.mem_singleton_self p))
    have kept : ∀ u r v, HeapOwned u ∧ InOwnPages u →
        HeapStep u r v ∧ Careful u.heap r ∧ StaysInPage u.heap r → HeapOwned v ∧ InOwnPages v := by
      intro u r v reached step
      obtain ⟨owned, same⟩ := next reached.1 reached.2 step.1 step.2.1
      exact ⟨owned, same.mpr step.2.2⟩
    exact run.invariant kept ⟨⟨_, _, _, _, inv⟩, first⟩
  exact ⟨reached.2, fun r t step careful => (next reached.1 reached.2 step careful).2⟩

instance (heap : Heap) : DecidablePred (StaysInPage heap)
  | .kfree _ => inferInstanceAs (Decidable (_ = _))
  | .kmalloc _ | .getPage _ | .freePage _ => inferInstanceAs (Decidable True)

/-- Two blocks of the first page are freed in the order in which they were cut; the second is joined with
    the first and with the rest of the page. -/
theorem slabs_in_own_pages_example : ∃ s0 s, HeapInitial exampleImage s0 ∧
    Run (fun s r t => HeapStep s r t ∧ Careful s.heap r ∧ StaysInPage s.heap r) s0
      [.kmalloc 9, .kmalloc 9, .kfree 0x800010, .kfree 0x800030] s ∧ InOwnPages s := by
  have executed : bootRun (fun s r => Careful s.heap r ∧ StaysInPage s.heap r)
      [.kmalloc 9, .kmalloc 9, .kfree 0x800010, .kfree 0x800030] (fun _ => true) = true := by
    decide +kernel
  obtain ⟨s0, s, initial, run, -⟩ := exists_bootRun executed
  exact ⟨s0, s, initial, run, (slabs_in_own_pages initial run).1⟩

/-! ## Two pages that touch -/

/-- Fill the first page, let the next request obtain the page behind it, cut a block from the start of
    this page, and free the last block of the first page and then the first one of the second. -/
def boundaryRun : List HeapRequest :=
  List.replicate 1023 (.kmalloc 4079) ++
    [.kmalloc 4079, .kmalloc 4079, .kmalloc 4079, .kfree 0xBFF010, .kfree 0xC00010]

namespace HeapInv

/-- `kfree` of a block that is not joined to one at the start of a page. -/
theorem kfree_joins (inv : HeapInv s pages free live leaked) (hb : b ∈ live)
    (held : payload b ∈ s.small) (merged : rejoin free b = (free', c))
    (off : c.start % pageSize4MB ≠ 0) :
    ∃ t, HeapStep s (.kfree (payload b)) t ∧ t.small = s.small.erase (payload b) ∧
      HeapInv t pages (free' ++ [c]) (live.erase b) leaked := by
  have careful : Careful s.heap (.kfree (payload b)) := by
    rw [inv.careful_kfree hb, merged]
    exact fun extra => off extra.2.1
  obtain ⟨-, t, -, -, -, done, small, inv'⟩ := inv.kfree_small hb held careful 1
  rw [merged] at inv'
  exact ⟨t, ⟨.inl held, 1, done⟩, small, inv'⟩

theorem boundaryRun_straddles {area : FreeArea} (inv : HeapInv s [0x800000] [pageExtent 0x800000] [] [])
    (page : getPage s.heap.area (maxOrder - 1) = .ok (area, some 0xC00000)) :
    ∃ t, Run HeapStep s boundaryRun t ∧ ⟨0xBFF000, 0x401000⟩ ∈ slabs t := by
  have positive : (0 : ℤ) < 4079 := by decide
  have small : (4079 : ℤ).toNat + slabHeader < pageSize := by decide
  obtain ⟨t1, live, full, inv1, area1, -⟩ := inv.fill 1023 (by decide)
  have last : unfilled 0x800000 1023 = [⟨0xBFF000, 4096⟩] := by decide
  rw [last] at inv1
  obtain ⟨t2, cut2, small2, area2, -, inv2⟩ := inv1.kmalloc_fit (b := ⟨0xBFF000, 4096⟩) positive small
    (by decide) (by decide)
  obtain ⟨t3, grow, small3, -, -, inv3⟩ := inv2.kmalloc_grow positive small (by decide)
    (by rw [area2, area1]; exact page)
  obtain ⟨t4, cut4, small4, -, -, inv4⟩ := inv3.kmalloc_fit (b := pageExtent 0xC00000) positive small
    (by decide) (by decide)
  have held : t4.small = 0xC00010 :: 0xBFF010 :: t1.small := by
    rw [small4, small3, small2]
    rfl
  -- the last block of the first page has no free neighbour
  have alone : rejoin [⟨0xC01000, 0x3FF000⟩] ⟨0xBFF000, 4096⟩ =
      ([⟨0xC01000, 0x3FF000⟩], ⟨0xBFF000, 4096⟩) := by decide
  obtain ⟨t5, free5, small5, inv5⟩ := inv4.kfree_joins (b := ⟨0xBFF000, 4096⟩)
    (mem_cons_of_mem _ (mem_cons_self ..)) (by rw [held]; simp [payload, slabHeader]) alone
    (by decide)
  -- the first block of the second page has one on each side
  have both : rejoin [⟨0xC01000, 0x3FF000⟩, ⟨0xBFF000, 4096⟩] ⟨0xC00000, 4096⟩ =
      ([], ⟨0xBFF000, 0x401000⟩) := by decide
  obtain ⟨t6, free6, -, inv6⟩ := inv5.kfree_joins (b := ⟨0xC00000, 4096⟩)
    ((mem_erase_of_ne (by decide)).mpr (mem_cons_self ..))
    (by rw [small5, held]; simp [payload, slabHeader]) both (by decide)
  refine ⟨t6, full.append (.cons cut2 (.cons grow (.cons cut4 (.cons free5 (.cons free6 (.nil _)))))), ?_⟩
  rw [slabs, inv6.rep.rep.freeSlabs_eq]
  simp

end HeapInv

/-- The two blocks on the sides of the boundary at 12 MB become one. -/
theorem slab_straddles_boundary : ∃ s0 s, HeapInitial exampleImage s0 ∧ Run HeapStep s0 boundaryRun s ∧
    ⟨0xBFF000, 0x401000⟩ ∈ slabs s ∧ Straddles ⟨0xBFF000, 0x401000⟩ ∧ ¬ InOwnPages s := by
  obtain ⟨s0, area, -, -, initial, -, inv, page, -, -⟩ := exampleImage_pages
  obtain ⟨t, run, member⟩ := inv.boundaryRun_straddles page
  have across : Straddles ⟨0xBFF000, 0x401000⟩ := by
    simp [Straddles, pageSize4MB]
  exact ⟨s0, t, initial, run, member, across, fun inside => inside _ member across⟩

end Illinix.Verified.Slab
