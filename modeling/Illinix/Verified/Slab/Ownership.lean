import Illinix.Verified.Slab.Integrity

/-! # Pages change owner

A byte of the managed memory is free in the buddy allocator, or lies in a 4 MB page that the
slab allocator tracks, and a careful run keeps the two apart.  The branch of `slab_free` that
hands an extra page back does not: it calls `free_page` and then pushes the page on
`slab_free_list` all the same. -/

namespace Illinix.Verified.Slab

open Kernel Lib List
open Verified.Buddy (Block KernelInv blocks blocks_nodup blocks_cover freeBlocks)

def BuddyFree (s : HeapClient) (a : ℕ) : Prop := ∃ b ∈ freeBlocks s.heap.area, b.Has a

/-- The byte lies in a 4 MB page with a block of the slab heap: one on the free list, or one
    handed out by `kmalloc` to a client or as the header of a page. -/
def SlabTracked (s : HeapClient) (a : ℕ) : Prop :=
  ∃ b ∈ freeSlabs s.heap ++ liveSlabs s.heap (s.small ++ s.heap.pageHeader.map PageHeader.node),
    ∃ x, b.Has x ∧ x / pageSize4MB = a / pageSize4MB

variable {heap : Heap} {pages : List ℕ} {free live : List Extent} {leaked : List Block}
  {s t : HeapClient}

namespace HeapInv

section

variable (inv : HeapInv s pages free live leaked)

include inv

theorem mem_slabs {b : Extent} :
    b ∈ freeSlabs s.heap ++ liveSlabs s.heap (s.small ++ s.heap.pageHeader.map PageHeader.node) ↔
      b ∈ free ++ live := by
  rw [inv.rep.rep.freeSlabs_eq, mem_append, mem_append, (inv.rep.rep.liveSlabs_perm inv.pointers).mem_iff]

/-- Every tracked byte lies in a page taken from the buddy allocator. -/
theorem tracked {a : ℕ} (h : SlabTracked s a) :
    InPages pages a := by
  obtain ⟨b, hb, x, has, same⟩ := h
  have member : b ∈ free ++ [] ++ live := by
    rw [append_nil]
    exact inv.mem_slabs.mp hb
  obtain ⟨p, hp, inside⟩ := (inv.rep.rep.partition.cover x).mpr ⟨b, member, has⟩
  have aligned := inv.page_aligned hp
  refine ⟨p, hp, ?_⟩
  simp only [pageSize4MB] at *
  omega

theorem apart {a : ℕ} (untaken : BuddyFree s a) :
    ¬ SlabTracked s a := by
  intro h
  obtain ⟨p, hp, inside⟩ := inv.tracked h
  obtain ⟨b, hb, has⟩ := untaken
  have page : pageBlock p ∈ pages.map pageBlock := mem_map_of_mem hp
  have same : b = pageBlock p := by
    refine inv.rep.area.eq_of_has ?_ ?_ has (pageBlock_has.mpr inside)
    · exact mem_append_left _ hb
    · exact mem_append_right _ (mem_append_left _ page)
  have nodup := blocks_nodup inv.rep.area.client
  exact (nodup_append.mp nodup).2.2 b hb (pageBlock p) (mem_append_left _ page) same

end

end HeapInv

def HeapOwned (s : HeapClient) : Prop := ∃ pages free live leaked, HeapInv s pages free live leaked

theorem HeapInitial.owned {image : KernelImage} (initial : HeapInitial image s) : HeapOwned s := by
  obtain ⟨p, -, -, -, inv⟩ := initial.inv
  exact ⟨_, _, _, _, inv⟩

theorem HeapOwned.step {r : HeapRequest} (owned : HeapOwned s) (careful : Careful s.heap r)
    (step : HeapStep s r t) : HeapOwned t := by
  obtain ⟨pages, free, live, leaked, inv⟩ := owned
  obtain ⟨pages', free', live', leaked', inv', -⟩ := inv.step careful step
  exact ⟨pages', free', live', leaked', inv'⟩

/-- In every run of careful requests, no byte is free in the buddy allocator and tracked by
    the slab allocator. -/
theorem heap_ownership_disjoint {image : KernelImage} {s0 : HeapClient} {events : List HeapRequest}
    (init : HeapInitial image s0)
    (run : Run (fun s r t => HeapStep s r t ∧ Careful s.heap r) s0 events s) (a : ℕ) :
    ¬ (BuddyFree s a ∧ SlabTracked s a) := by
  have owned : HeapOwned s :=
    run.invariant (fun _ _ _ owned step => owned.step step.2 step.1) init.owned
  obtain ⟨pages, free, live, leaked, inv⟩ := owned
  rintro ⟨untaken, tracked⟩
  exact inv.apart untaken tracked

instance (heap : Heap) : DecidablePred (Careful heap)
  | .kmalloc _ => inferInstanceAs (Decidable (_ → _ → _))
  | .kfree _ => inferInstanceAs (Decidable (_ = _))
  | .getPage _ | .freePage _ => inferInstanceAs (Decidable True)

/-- A block of the first page is taken and freed again, with a page taken in between. -/
theorem heap_ownership_disjoint_example : ∃ s0 s, HeapInitial exampleImage s0 ∧
    Run (fun s r t => HeapStep s r t ∧ Careful s.heap r) s0
      [.kmalloc 9, .getPage 3, .kfree 0x800010] s ∧
    ¬ (BuddyFree s 0x800000 ∧ SlabTracked s 0x800000) := by
  have executed : bootRun (fun s r => Careful s.heap r) [.kmalloc 9, .getPage 3, .kfree 0x800010]
      (fun _ => true) = true := by
    decide +kernel
  obtain ⟨s0, s, initial, run, -⟩ := exists_bootRun executed
  exact ⟨s0, s, initial, run, heap_ownership_disjoint initial run _⟩

/-! ## A page that is handed back -/

namespace HeapInv

theorem kmalloc_fit (inv : HeapInv s pages free live leaked) {size : ℤ} {b : Extent}
    (positive : 0 < size) (small : size.toNat + slabHeader < pageSize)
    (pick : free.find? (fun b => sizeUnits size.toNat * slabUnit ≤ b.len) = some b)
    (sliver : b.len ≠ (sizeUnits size.toNat + 1) * slabUnit) :
    ∃ t, HeapStep s (.kmalloc size) t ∧ t.small = payload b :: s.small ∧
      t.heap.area = s.heap.area ∧ SameRoots s.heap t.heap ∧
      HeapInv t pages (free.erase b ++ remainder b (sizeUnits size.toNat))
        (⟨b.start, sizeUnits size.toNat * slabUnit⟩ :: live) leaked := by
  obtain ⟨alloc, _⟩ := inv.rep.alloc_fit 0 (by omega) small pick sliver
  have done := kmalloc_small_eq positive small alloc
  have careful : Careful s.heap (.kmalloc size) := fun _ _ => by
    rw [requestUnits, if_pos small]
    refine (inv.rep.leavesSliver_iff _).mpr fun c found => ?_
    cases pick.symm.trans found
    exact sliver
  obtain ⟨same, cases'⟩ := inv.kmalloc_small positive small careful done
  cases cases' with
  | inl fit =>
    obtain ⟨c, held, area, found, inv'⟩ := fit
    cases pick.symm.trans found
    exact ⟨_, ⟨trivial, 1, done⟩, held, area, same, inv'⟩
  | inr grown =>
    cases pick.symm.trans grown.2.1

/-- A request that none can serve, while the buddy allocator has a page left. -/
theorem kmalloc_grow (inv : HeapInv s pages free live leaked) {size : ℤ} {area : FreeArea} {p : ℕ}
    (positive : 0 < size) (small : size.toNat + slabHeader < pageSize)
    (none : free.find? (fun b => sizeUnits size.toNat * slabUnit ≤ b.len) = none)
    (page : getPage s.heap.area (maxOrder - 1) = .ok (area, some p)) :
    ∃ t, HeapStep s (.kmalloc size) t ∧ t.small = s.small ∧ t.heap.area = area ∧
      SameRoots s.heap t.heap ∧ HeapInv t (p :: pages) (free ++ [pageExtent p]) live leaked := by
  obtain ⟨alloc, rep⟩ := inv.rep.alloc_grow 0 none page
  exact ⟨_, ⟨trivial, 1, kmalloc_small_eq positive small alloc⟩, rfl, rfl, ⟨rfl, rfl, rfl⟩,
    rep, inv.pointers, inv.large⟩

end HeapInv

/-- What is left of the page at `p` after `k` requests of a page each. -/
def unfilled (p k : ℕ) : List Extent :=
  if k < 1024 then [⟨p + k * pageSize, pageSize4MB - k * pageSize⟩] else []

theorem unfilled_find {p k : ℕ} (lt : k < 1024) :
    (unfilled p k).find? (fun b => sizeUnits 4079 * slabUnit ≤ b.len) =
      some ⟨p + k * pageSize, pageSize4MB - k * pageSize⟩ := by
  have enough : sizeUnits 4079 * slabUnit ≤ pageSize4MB - k * pageSize := by
    simp only [sizeUnits, slabHeader, slabUnit, pageSize4MB, pageSize]
    omega
  simp [unfilled, lt, enough]

theorem unfilled_succ {p k : ℕ} (lt : k < 1024) :
    (unfilled p k).erase ⟨p + k * pageSize, pageSize4MB - k * pageSize⟩ ++
      remainder ⟨p + k * pageSize, pageSize4MB - k * pageSize⟩ (sizeUnits 4079) =
      unfilled p (k + 1) := by
  have units : sizeUnits 4079 * slabUnit = pageSize := by decide
  have next : p + k * pageSize + pageSize = p + (k + 1) * pageSize := by ring
  have rest : pageSize4MB - k * pageSize - pageSize = pageSize4MB - (k + 1) * pageSize := by
    rw [Nat.sub_sub, Nat.succ_mul]
  simp only [unfilled, remainder, if_pos lt, units, erase_cons_head, nil_append, next, rest]
  by_cases last : k + 1 < 1024
  · rw [if_pos last, if_neg]
    simp only [pageSize4MB, pageSize]
    omega
  · rw [if_neg last, if_pos]
    simp only [pageSize4MB, pageSize]
    omega

theorem HeapInv.fill {p : ℕ} (inv : HeapInv s [p] [pageExtent p] [] []) (k : ℕ) (le : k ≤ 1024) :
    ∃ t live, Run HeapStep s (List.replicate k (.kmalloc 4079)) t ∧
      HeapInv t [p] (unfilled p k) live [] ∧ t.heap.area = s.heap.area ∧ SameRoots s.heap t.heap := by
  induction k with
  | zero => exact ⟨s, [], .nil s, by simpa [unfilled, pageExtent] using inv, rfl, ⟨rfl, rfl, rfl⟩⟩
  | succ k ih =>
    obtain ⟨t, live, run, inv', area, roots⟩ := ih (by omega)
    have lt : k < 1024 := by omega
    have sliver : pageSize4MB - k * pageSize ≠ (sizeUnits 4079 + 1) * slabUnit := by
      simp only [sizeUnits, slabHeader, slabUnit, pageSize4MB, pageSize]
      omega
    obtain ⟨u, step, _, area', roots', next⟩ :=
      inv'.kmalloc_fit (by decide : (0 : ℤ) < 4079) (by decide) (unfilled_find lt) sliver
    refine ⟨u, _, ?_, unfilled_succ lt ▸ next, area'.trans area, roots.trans roots'⟩
    rw [replicate_succ']
    exact run.snoc step

namespace HeapInv

/-- When `kfree` hands a page back, the page is free and tracked at once. -/
theorem kfree_handsBack (inv : HeapInv s pages free live leaked) {b : Extent} (hb : b ∈ live)
    (held : payload b ∈ s.small) (extra : ExtraPage s.heap (rejoin free b).2) :
    ∃ t, HeapStep s (.kfree (payload b)) t ∧ BuddyFree t (rejoin free b).2.start ∧
      SlabTracked t (rejoin free b).2.start := by
  obtain ⟨_, freed⟩ := inv.rep.kfree_slab s.heap.pageHeader.length hb header_taken
  have member := inv.extra_mem hb extra
  have len := extra.2.2
  generalize merged : rejoin free b = m at *
  have perm := ((perm_cons_erase member).map pageBlock).append_right
    (s.heap.pageHeader.map headerBlock ++ leaked ++ s.held)
  have before := inv.rep.area.perm perm
  obtain ⟨area, done, after⟩ := before.freePage_spec
  obtain ⟨mem, result, rep⟩ := inv.rep.free_handsBack hb (merged ▸ extra) (merged ▸ done)
  rw [merged] at rep
  refine ⟨⟨{ s.heap with area, mem }, s.small.erase (payload b), s.large.erase (payload b), s.held⟩,
    ⟨.inl held, 1, ?_⟩, ?_, ?_⟩
  · rw [heapExec, kfree, freed, result]
    rfl
  · -- the page was apart from every other block that is taken
    have page : pageBlock m.2.start ∈ blocks ⟨s.heap.area, pageBlock m.2.start ::
        ((pages.erase m.2.start).map pageBlock ++
          (s.heap.pageHeader.map headerBlock ++ leaked ++ s.held))⟩ := by simp [blocks]
    have first : (pageBlock m.2.start).Has m.2.start := pageBlock_has.mpr ⟨le_rfl, by
      simp [pageSize4MB]⟩
    obtain ⟨lower, upper, _⟩ := before.mem_block page
    obtain ⟨c, ⟨hc, has⟩, _⟩ := blocks_cover after.client (a := m.2.start)
      (by rw [after.startAddr]; exact lower)
      (by rw [after.areaEnd]; exact first.2.trans_le upper)
    cases mem_append.mp hc with
    | inl untaken => exact ⟨c, untaken, has⟩
    | inr taken =>
      have same := before.eq_of_has (mem_append_right _ (mem_cons_of_mem _ taken)) page has first
      exact absurd (same ▸ taken) (nodup_cons.mp before.client.nodup).1
  · refine ⟨m.2, ?_, m.2.start, ⟨le_rfl, by rw [len]; simp [pageSize4MB]⟩, rfl⟩
    have list : freeSlabs { s.heap with area, mem } = m.1 ++ [m.2] := SlabRep.freeSlabs_eq rep
    rw [list]
    simp

end HeapInv

/-- Fill the first page, let the next request obtain a second one, cut a block from it and
    free this block again. -/
def handBackRun (q : ℕ) : List HeapRequest :=
  List.replicate 1024 (.kmalloc 4079) ++ [.kmalloc 4079, .kmalloc 8, .kfree (q + slabHeader)]

theorem coalesce_page {q : ℕ} (aligned : q % pageSize4MB = 0) :
    rejoin [⟨q + 24, pageSize4MB - 24⟩] ⟨q, 24⟩ = ([], ⟨q, pageSize4MB⟩) := by
  have off : (q + 24) % pageSize4MB ≠ 0 := by
    simp only [pageSize4MB] at aligned ⊢
    omega
  have touch : touching ⟨q, 24⟩ ⟨q + 24, pageSize4MB - 24⟩ = true := by simp [touching, off]
  have sum : 24 + (pageSize4MB - 24) = pageSize4MB := by decide
  rw [rejoin, length_singleton, coalesce, find?_cons_of_pos touch]
  simp only [erase_cons_head, coalesce, joined]
  rw [Nat.min_eq_right (Nat.le_add_right _ _), Nat.add_comm, sum]

theorem HeapInv.handBackRun_violates {p q : ℕ} {area : FreeArea}
    (inv : HeapInv s [p] [pageExtent p] [] []) (start : s.heap.startSlab = p)
    (page : getPage s.heap.area (maxOrder - 1) = .ok (area, some q)) (ne : q ≠ p)
    (aligned : q % pageSize4MB = 0) :
    ∃ t, Run HeapStep s (handBackRun q) t ∧ BuddyFree t q ∧ SlabTracked t q := by
  obtain ⟨t1, live, full, inv1, area1, roots1⟩ := inv.fill 1024 le_rfl
  rw [← area1] at page
  obtain ⟨t2, grow, _, _, roots2, inv2⟩ := inv1.kmalloc_grow (by decide : (0 : ℤ) < 4079) (by decide)
    (by simp [unfilled]) page
  have empty : unfilled p 1024 ++ [pageExtent q] = [pageExtent q] := by simp [unfilled]
  rw [empty] at inv2
  have three : sizeUnits (8 : ℤ).toNat = 3 := by decide
  obtain ⟨t3, cut, small, _, roots3, inv3⟩ := inv2.kmalloc_fit (b := pageExtent q)
    (by decide : (0 : ℤ) < 8) (by decide) (by rw [three]; rfl)
    (by rw [three]; simp [pageExtent, pageSize4MB, slabUnit])
  have rest : [pageExtent q].erase (pageExtent q) ++ remainder (pageExtent q) 3 =
      [⟨q + 24, pageSize4MB - 24⟩] := by
    simp [remainder, pageExtent, pageSize4MB, slabUnit]
  rw [three, rest] at inv3
  have merged := coalesce_page aligned
  have root : t3.heap.startSlab = p := by
    rw [((roots1.trans roots2).trans roots3).startSlab, start]
  obtain ⟨t4, back, violated⟩ := inv3.kfree_handsBack (b := ⟨q, 24⟩) (mem_cons_self ..)
    (by rw [small]; exact mem_cons_self ..)
    (by
      rw [merged]
      exact ⟨by rw [root]; exact ne, aligned, rfl⟩)
  rw [merged] at violated
  exact ⟨t4, full.append (.cons grow (.cons cut (.cons back (.nil _)))), violated⟩

/-- From the initial heap the second page is the one at 12 MB; if a request for a single page comes first,
    this is cut from it, and the second page of the heap is the one at 16 MB. -/
theorem exampleImage_pages : ∃ s0 area area1 area2, HeapInitial exampleImage s0 ∧
    s0.heap.startSlab = 0x800000 ∧ HeapInv s0 [0x800000] [pageExtent 0x800000] [] [] ∧
    getPage s0.heap.area (maxOrder - 1) = .ok (area, some 0xC00000) ∧
    getPage s0.heap.area 0 = .ok (area1, some 0xC00000) ∧
    getPage area1 (maxOrder - 1) = .ok (area2, some 0x1000000) := by
  have executed : okAnd (slabInit kmallocInit (fun _ => 0) 0x400000) (fun heap =>
      heap.startSlab = 0x800000 &&
      okAnd (getPage heap.area (maxOrder - 1)) (fun result => result.2 = some 0xC00000) &&
      okAnd (getPage heap.area 0) fun first => first.2 = some 0xC00000 &&
        okAnd (getPage first.1 (maxOrder - 1)) fun result => result.2 = some 0x1000000) = true := by
    decide +kernel
  obtain ⟨heap, init, executed⟩ := okAnd_iff.mp executed
  simp only [Bool.and_eq_true, decide_eq_true_eq] at executed
  obtain ⟨⟨start, whole⟩, single⟩ := executed
  obtain ⟨⟨area, page⟩, got, second⟩ := okAnd_iff.mp whole
  obtain ⟨⟨area1, page1⟩, got1, rest⟩ := okAnd_iff.mp single
  simp only [Bool.and_eq_true, decide_eq_true_eq] at second rest
  obtain ⟨rfl, rest⟩ := rest
  obtain ⟨⟨area2, page2⟩, got2, third⟩ := okAnd_iff.mp rest
  simp only [decide_eq_true_eq] at third
  subst second third
  have initial : HeapInitial exampleImage ⟨heap, [], [], []⟩ := ⟨init, rfl, rfl, rfl⟩
  obtain ⟨p, root, -, -, inv⟩ := initial.inv
  obtain rfl : p = 0x800000 := root.symm.trans start
  exact ⟨_, area, area1, area2, initial, start, inv, got, got1, got2⟩

theorem heap_ownership_violated : ∃ s0 s, HeapInitial exampleImage s0 ∧
    Run HeapStep s0 (handBackRun 0xC00000) s ∧ BuddyFree s 0xC00000 ∧ SlabTracked s 0xC00000 := by
  obtain ⟨s0, area, -, -, initial, start, inv, page, -, -⟩ := exampleImage_pages
  obtain ⟨t, run, violated⟩ := inv.handBackRun_violates start page (by decide) (by decide)
  exact ⟨s0, t, initial, run, violated⟩

end Illinix.Verified.Slab
