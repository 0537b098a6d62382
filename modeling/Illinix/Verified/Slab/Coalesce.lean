import Illinix.Verified.Slab.Heap

/-! # `slab_free` coalesces

`_slab_free` looks for a neighbour, takes it off the list and starts over with the joined
block.  On a free list whose blocks lie in one page and do not touch each other, it joins
the neighbours of the block it frees, at most one on each side, and nothing else. -/

namespace Illinix.Verified.Slab

open Kernel Lib List

/-- Two blocks with a gap between them. -/
def Spread (b c : Extent) : Prop := b.Apart c ∧ ¬ b.Adjacent c

variable {heap : Heap} {free : List Extent} {b s ns x : Extent}

/-! ## The list of blocks -/

theorem touching_iff :
    touching b s = true ↔ b.Adjacent s ∧ ¬ (s.start % pageSize4MB = 0 ∧ b.start % pageSize4MB = 0) := by
  simp only [touching, Extent.Adjacent, Bool.and_eq_true, Bool.or_eq_true, decide_eq_true_eq]
  omega

theorem coalesce_sublist (n : ℕ) (free : List Extent) (b : Extent) :
    (coalesce n free b).1.Sublist free := by
  fun_induction coalesce n free b with
  | case1 free b => exact .refl _
  | case2 n free b none => exact .refl _
  | case3 n free b s pick ih => exact ih.trans erase_sublist

/-- The search ends with a block that touches none of the list. -/
theorem not_touching_coalesce {n : ℕ} (enough : free.length ≤ n) :
    ∀ s ∈ (coalesce n free b).1, touching (coalesce n free b).2 s = false := by
  fun_induction coalesce n free b with
  | case1 free b => simp [length_eq_zero_iff.mp (Nat.le_zero.mp enough)]
  | case2 n free b none =>
    intro s hs
    simpa using find?_eq_none.mp none s hs
  | case3 n free b s pick ih =>
    apply ih
    rw [length_erase_of_mem (mem_of_find?_eq_some pick)]
    omega

/-- A block that is not next to the freed one stays on the list: among blocks that do not
    touch each other, joining one neighbour creates no new one. -/
theorem mem_coalesce {near : Extent → Prop} (n : ℕ)
    (spread : free.Pairwise fun b c => ¬ b.Adjacent c)
    (neighbour : ∀ x ∈ free, x.Adjacent b → near x) (hx : x ∈ free) (far : ¬ near x) :
    x ∈ (coalesce n free b).1 := by
  fun_induction coalesce n free b with
  | case1 free b => exact hx
  | case2 n free b none => exact hx
  | case3 n free b s pick ih =>
    have member := mem_of_find?_eq_some pick
    have touch := (touching_iff.mp (find?_some pick)).1
    have gone : near s := neighbour s member touch.symm
    have ne : x ≠ s := fun same => far (same ▸ gone)
    -- no block that is left touches `s`
    have apart : ∀ y ∈ free.erase s, ¬ s.Adjacent y := by
      have perm := perm_cons_erase member
      have spread' := (perm.pairwise_iff fun {_ _} h => mt Extent.Adjacent.symm h).mp spread
      exact (pairwise_cons.mp spread').1
    refine ih (spread.sublist erase_sublist) (fun y hy adjacent => ?_)
      ((mem_erase_of_ne ne).mpr hx)
    -- the joined block has no other ends than the two it is made of
    have beside : y.Adjacent s ∨ y.Adjacent b := by
      simp only [Extent.Adjacent, joined] at touch adjacent ⊢
      omega
    cases beside with
    | inl beside => exact absurd beside.symm (apart y hy)
    | inr beside => exact neighbour y (mem_of_mem_erase hy) beside

/-! ## One page -/

/-- `start_slab` is a page of kernel memory, and the sentinel, static data of the kernel,
    lies below it. -/
structure StartSlab (heap : Heap) : Prop where
  aligned : heap.startSlab % pageSize4MB = 0
  sentinel : heap.slabFreeList + slabHeader ≤ heap.startSlab
  bounded : heap.startSlab + pageSize4MB ≤ kernelPages * pageSize4MB

/-- A block of two units or more inside the page at `start_slab`, with its length in its
    header. -/
structure SlabIn (heap : Heap) (b : Extent) : Prop where
  header : 2 * slabUnit ≤ b.len
  lower : heap.startSlab ≤ b.start
  upper : b.start + b.len ≤ heap.startSlab + pageSize4MB
  size : heap.mem.size b.start * slabUnit = b.len

/-- The free list links the blocks of `free`. -/
def Listed (heap : Heap) (free : List Extent) : Prop :=
  slabLinks.Ring heap.mem heap.slabFreeList (free.map Extent.start)

/-- The blocks on the list and the one to be freed, without the rest of the page. -/
theorem slabRep_of_listed (page : StartSlab heap) (listed : Listed heap free)
    (inside : ∀ b ∈ ns :: free, SlabIn heap b) (apart : (ns :: free).Pairwise Extent.Apart) :
    SlabRep heap.mem heap.slabFreeList (fun a => ∃ b ∈ ns :: free, b.Has a) free [ns] [] := by
  have perm : (ns :: free).Perm (free ++ [ns] ++ []) := by
    rw [append_nil]
    exact perm_append_singleton ns free |>.symm
  have member : ∀ b ∈ free ++ [ns] ++ [], SlabIn heap b := fun b hb => inside b (perm.mem_iff.mpr hb)
  have partition : Partition (fun a => ∃ b ∈ ns :: free, b.Has a) (ns :: free) := by
    refine ⟨fun b hb => ?_, fun a => .rfl, apart⟩
    have := (inside b hb).header
    simp only [slabUnit] at this
    omega
  refine ⟨partition.perm perm, ?_, fun b hb => (member b hb).header, fun b hb => ?_,
    fun b hb => (member b hb).size, by simp, listed⟩
  · rintro a ⟨b, hb, has⟩
    exact has.2.trans_le ((inside b hb).upper.trans page.bounded)
  · exact page.sentinel.trans (member b hb).lower

/-- Blocks that cover part of the page lie in the page. -/
theorem bounds_of_cover {mem : Mem} {list : ℕ} {free' hand : List Extent}
    (inside : ∀ b ∈ ns :: free, SlabIn heap b)
    (rep : SlabRep mem list (fun a => ∃ b ∈ ns :: free, b.Has a) free' hand [])
    (hb : b ∈ free' ++ hand ++ []) :
    heap.startSlab ≤ b.start ∧ b.start + b.len ≤ heap.startSlab + pageSize4MB := by
  have positive := rep.partition.positive b hb
  obtain ⟨c, hc, first⟩ := (rep.partition.cover b.start).mpr ⟨b, hb, le_rfl, by omega⟩
  obtain ⟨d, hd, last⟩ := (rep.partition.cover (b.start + b.len - 1)).mpr ⟨b, hb, by omega, by omega⟩
  exact ⟨(inside c hc).lower.trans first.1, by have := (inside d hd).upper; have := last.2; omega⟩

/-- What `slab_free` makes of the free list. -/
structure Merged (heap heap' : Heap) (free free' : List Extent) (ns : Extent) : Prop where
  listed : Listed heap' free'
  inside : ∀ b ∈ free', SlabIn heap' b
  spread : free'.Pairwise Spread
  cover : ∀ a, (∃ b ∈ free', b.Has a) ↔ (∃ b ∈ free, b.Has a) ∨ ns.Has a
  kept : ∀ b ∈ free, ¬ b.Adjacent ns →
    b ∈ free' ∧ heap'.mem.status b.start = heap.mem.status b.start

/-- In the page at `start_slab`, `slab_free` returns with the blocks joined that touch. -/
theorem slabFree_coalesces (page : StartSlab heap) (listed : Listed heap free)
    (inside : ∀ b ∈ ns :: free, SlabIn heap b) (spread : free.Pairwise Spread)
    (apart : ∀ b ∈ free, ns.Apart b) :
    ∃ heap' free', slabFree heap ns.start = .ok heap' ∧ Merged heap heap' free free' ns := by
  have rep := slabRep_of_listed page listed inside
    (pairwise_cons.mpr ⟨apart, spread.imp And.left⟩)
  obtain ⟨mem, merged, rep', same⟩ := rep.merge slabFuel rep.length_lt
  have untouched := not_touching_coalesce (b := ns) (le_refl free.length)
  have sublist := coalesce_sublist free.length free ns
  have kept : ∀ b ∈ free, ¬ b.Adjacent ns → b ∈ (coalesce free.length free ns).1 := fun b hb =>
    mem_coalesce free.length (spread.imp And.right) (fun _ _ adjacent => adjacent) hb
  generalize coalesce free.length free ns = m at merged rep' untouched sublist kept
  have status := rep'.setStatus 0
  have bounds := fun b (hb : b ∈ m.1 ++ [m.2] ++ []) => bounds_of_cover inside status hb
  have aligned := page.aligned
  -- the only block of the page that starts at a page boundary is the first one
  have first : ∀ b ∈ m.1 ++ [m.2] ++ [], b.start % pageSize4MB = 0 → b.start = heap.startSlab := by
    intro b hb start
    have := bounds b hb
    have := status.partition.positive b hb
    simp only [pageSize4MB] at *
    omega
  have startNe : ∀ c ∈ m.1, c.start ≠ m.2.start := fun c hc => status.listed_ne hc (by simp)
  have kind : ¬ ExtraPage heap m.2 := fun extra => extra.1 (first m.2 (by simp) extra.2.1)
  have test := (extraPage_iff heap (status.size m.2 (by simp))).not.mpr kind
  have pushed := status.push
  refine ⟨{ heap with mem := slabListPush (mem.setStatus m.2.start 0) heap.slabFreeList m.2.start },
    m.1 ++ [m.2], ?_, pushed.ring, fun b hb => ?_, ?_, fun a => ?_, fun b hb far => ?_⟩
  · rw [slabFree, merged, ok_bind]
    simp only [if_neg test, pure_eq_ok, ok_bind]
  · have := bounds b (by simpa using hb)
    exact ⟨pushed.header b (by simpa using hb), this.1, this.2, pushed.size b (by simpa using hb)⟩
  · rw [pairwise_append]
    refine ⟨spread.sublist sublist, pairwise_singleton _ _, fun c hc d hd => ?_⟩
    obtain rfl := mem_singleton.mp hd
    refine ⟨status.partition.apart_of_ne (by simp [hc]) (by simp) fun eq => startNe c hc (by rw [eq]),
      fun adjacent => ?_⟩
    have free := mt touching_iff.mpr (by simpa using untouched c hc)
    refine free ⟨adjacent.symm, fun both => startNe c hc ?_⟩
    rw [first c (by simp [hc]) both.1, first m.2 (by simp) both.2]
  · rw [← show (∃ b ∈ m.1 ++ [m.2] ++ [], b.Has a) ↔ ∃ b ∈ m.1 ++ [m.2], b.Has a by
      rw [append_nil], ← status.partition.cover a]
    simp only [mem_cons, exists_eq_or_imp]
    exact or_comm
  · have stays := kept b hb far
    refine ⟨mem_append_left _ stays, ?_⟩
    have ne : b.start + 4 ≠ m.2.start + 4 := fun eq => startNe b stays (by omega)
    have before := rep.status_quiet (b := b) (by simp [hb])
    have after := status.status_quiet (b := b) (by simp [stays])
    rw [append_nil] at before after
    show slabListPush (mem.setStatus m.2.start 0) heap.slabFreeList m.2.start (b.start + 4) = _
    rw [status.push_quiet after, Mem.setStatus, Function.update_of_ne ne]
    exact same _ before

/-- Two free blocks of two and four units with an allocated one of three units between
    them. -/
def threeBlocks : Heap where
  area := kmallocInit
  mem a := ([(0x40000C, 0x800000), (0x400008, 0x800028), (0x800000, 2), (0x800008, 0x400000),
    (0x80000C, 0x800028), (0x800010, 3), (0x800014, 1), (0x800028, 4), (0x800030, 0x800000),
    (0x800034, 0x400000)].lookup a).getD 0
  slabFreeList := 0x400000
  startSlab := 0x800000
  pageHeader := []

theorem slabFree_coalesces_three : ∃ heap' free', slabFree threeBlocks 0x800010 = .ok heap' ∧
    Merged threeBlocks heap' [⟨0x800000, 16⟩, ⟨0x800028, 32⟩] free' ⟨0x800010, 24⟩ := by
  have page : StartSlab threeBlocks := ⟨by decide, by decide, by decide⟩
  have listed : Listed threeBlocks [⟨0x800000, 16⟩, ⟨0x800028, 32⟩] := by
    refine ⟨⟨⟨?_, ?_⟩, ⟨?_, ?_⟩, ?_, ?_⟩, ?_, ?_⟩ <;> decide
  have inside : ∀ b ∈ [⟨0x800010, 24⟩, ⟨0x800000, 16⟩, ⟨0x800028, 32⟩], SlabIn threeBlocks b := by
    intro b hb
    simp only [mem_cons, not_mem_nil, or_false] at hb
    rcases hb with rfl | rfl | rfl <;> exact ⟨by decide, by decide, by decide, by decide⟩
  exact slabFree_coalesces page listed inside (by simp [Spread, Extent.Apart, Extent.Adjacent])
    (by simp [Extent.Apart])

end Illinix.Verified.Slab
