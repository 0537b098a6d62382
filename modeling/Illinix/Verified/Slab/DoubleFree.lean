import Illinix.Verified.Slab.Pages

/-! # Freeing a block twice

`kfree` ignores a block whose header says that it is free.  `slab_free` writes this into the header of
the joined block only: when the freed block has been joined to one on its left, its old header,
now in the middle of a free block, still looks like that of an allocated one, and a second
`kfree` puts it on the list once more.  Frees of other blocks do not touch the old header. -/

namespace Illinix.Verified.Slab

open Kernel Lib List Function
open Verified.Buddy (Block KernelInv sub32_of_le)

variable {heap : Heap} {pages : List ℕ} {free live hand : List Extent} {taken leaked : List Block}
  {mem : Mem} {list : ℕ} {R : ℕ → Prop} {b c M : Extent} {h : ℕ} {s t u : HeapClient}

/-! ## Old headers -/

/-- The header at `h` lies in the block `M`, as its header or behind it. -/
structure Within (M : Extent) (h : ℕ) : Prop where
  edge : M.start = h ∨ M.start + slabHeader ≤ h
  room : h + slabHeader ≤ M.start + M.len

namespace SlabRep

section

variable (rep : SlabRep mem list R free hand live) (hM : M ∈ free ++ hand ++ live) (within : Within M h)

include rep hM within

/-- A header inside of a block shares no word with the header of a block. -/
theorem clear_within (inner : M.start ≠ h) (hc : c ∈ free ++ hand ++ live) {k j : ℕ}
    (hk : k < 16) (hj : j < 16) : h + k ≠ c.start + j := by
  have edge := within.edge.resolve_left inner
  have room := within.room
  have enough := rep.header c hc
  simp only [slabHeader] at edge room enough
  by_cases same : c = M
  · subst same
    omega
  · -- another block ends before `M` or starts behind it
    have apart := rep.partition.apart_of_ne hc hM same
    simp only [Extent.Apart] at apart
    omega

theorem quiet_inner (inner : M.start ≠ h) {k : ℕ} (hk : k < 16) :
    Quiet (list :: (free ++ hand ++ live).map Extent.start) (h + k) := by
  intro y hy
  cases mem_cons.mp hy with
  | inl sentinel =>
    have edge := within.edge.resolve_left inner
    have below := rep.below M hM
    simp only [slabHeader, slabLinks] at edge below ⊢
    omega
  | inr node =>
    obtain ⟨c, hc, rfl⟩ := mem_map.mp node
    have word := fun j hj => rep.clear_within hM within inner hc (j := j) hk hj
    exact ⟨word 0 (by decide), word 12 (by decide), word 8 (by decide)⟩

/-- The status of an old header is neither a size nor a link. -/
theorem quiet_status : Quiet (list :: (free ++ hand ++ live).map Extent.start) (h + 4) := by
  by_cases own : M.start = h
  · rw [← own]
    exact rep.status_quiet hM
  · exact rep.quiet_inner hM within own (by decide)

end

end SlabRep

theorem coalesce_start_mem (n : ℕ) (free : List Extent) (b : Extent) :
    ∃ x ∈ free ++ [b], (coalesce n free b).2.start = x.start := by
  fun_induction coalesce n free b with
  | case1 free b => exact ⟨b, by simp, rfl⟩
  | case2 n free b none => exact ⟨b, by simp, rfl⟩
  | case3 n free b s pick ih =>
    obtain ⟨x, hx, start⟩ := ih
    rw [start]
    rw [mem_append, mem_singleton] at hx
    cases hx with
    | inl old => exact ⟨x, mem_append_left _ (mem_of_mem_erase old), rfl⟩
    | inr new =>
      subst new
      cases joined_start s b with
      | inl first => exact ⟨s, mem_append_left _ (mem_of_find?_eq_some pick), first⟩
      | inr second => exact ⟨b, by simp, second⟩

namespace HeapRep

theorem within_merged (rep : HeapRep heap pages free live taken) (hb : b ∈ live)
    (hM : M ∈ free ++ [b]) (gone : M ∉ (rejoin free b).1) (within : Within M h) :
    Within (rejoin free b).2 h ∧ (M.start ≠ h → (rejoin free b).2.start ≠ h) := by
  obtain ⟨_, _, after, _⟩ := rep.free_merge hb
  have before := rep.rep.release hb
  have has := before.partition.has_joined after.partition fun x hx => (coalesce_sublist _ _ _).subset hx
  have covered : ∀ a, M.Has a → (rejoin free b).2.Has a := by
    intro a ha
    rw [has]
    cases mem_append.mp hM with
    | inl old => exact .inr ⟨M, old, gone, ha⟩
    | inr own => exact .inl (mem_singleton.mp own ▸ ha)
  obtain ⟨x, hx, start⟩ : ∃ x ∈ free ++ [b], (rejoin free b).2.start = x.start := coalesce_start_mem ..
  have member : ∀ c ∈ free ++ [b], c ∈ free ++ [b] ++ live.erase b := fun c hc =>
    mem_append_left _ hc
  have positive := before.partition.positive M (member M hM)
  have enough := before.header x (member x hx)
  obtain ⟨edge, room⟩ := within
  have first := covered M.start ⟨le_rfl, by omega⟩
  have last := covered (M.start + M.len - 1) ⟨by omega, by omega⟩
  simp only [Extent.Has, slabHeader] at first last enough edge room
  -- a part that starts further left is a whole header away
  have left : x.start = M.start ∨ x.start + 16 ≤ M.start := by
    by_cases same : x = M
    · exact .inl (by rw [same])
    · have apart := before.partition.apart_of_ne (member x hx) (member M hM) same
      simp only [Extent.Apart] at apart
      omega
  refine ⟨⟨?_, ?_⟩, ?_⟩
  · simp only [slabHeader]
    omega
  · simp only [slabHeader]
    omega
  · omega

section

variable (rep : HeapRep heap pages free live taken) (hb : b ∈ live)
  (merged : slabMerge heap.slabFreeList slabFuel heap.mem b.start = .ok (mem, (rejoin free b).2.start))

include rep hb merged

/-- What `slab_free` writes after merging: the links of the list, and the status of the joined block. -/
theorem freed_frame {a : ℕ} (quiet : Quiet (heap.slabFreeList :: ((rejoin free b).1 ++
      [(rejoin free b).2]).map Extent.start) a)
    (ne : a ≠ (rejoin free b).2.start + 4) :
    slabListPush (mem.setStatus (rejoin free b).2.start 0) heap.slabFreeList
      (rejoin free b).2.start a = mem a := by
  obtain ⟨mem', merged', after, _⟩ := rep.free_merge hb
  cases merged.symm.trans merged'
  rw [(after.setStatus 0).push_quiet quiet, Mem.setStatus, update_of_ne ne]

/-- A word that is no size and no link, before or after, is kept unless it is the status of the joined
    block. -/
theorem freed_word {a : ℕ}
    (before : Quiet (heap.slabFreeList :: (free ++ [b] ++ live.erase b).map Extent.start) a)
    (after : Quiet (heap.slabFreeList :: ((rejoin free b).1 ++ [(rejoin free b).2]).map Extent.start) a)
    (ne : a ≠ (rejoin free b).2.start + 4) :
    slabListPush (mem.setStatus (rejoin free b).2.start 0) heap.slabFreeList
      (rejoin free b).2.start a = heap.mem a := by
  obtain ⟨mem', merged', _, same⟩ := rep.free_merge hb
  cases merged.symm.trans merged'
  rw [rep.freed_frame hb merged after ne]
  exact same a (before.blocks (subset_append_left _ _))

theorem freed_status : (slabListPush (mem.setStatus (rejoin free b).2.start 0) heap.slabFreeList
      (rejoin free b).2.start).status (rejoin free b).2.start = 0 := by
  obtain ⟨mem', merged', after, _⟩ := rep.free_merge hb
  cases merged.symm.trans merged'
  have quiet := (after.setStatus 0).status_quiet (b := (rejoin free b).2) (by simp)
  rw [Mem.status, (after.setStatus 0).push_quiet (quiet.blocks (subset_append_left _ _)),
    Mem.setStatus, update_self]

end

end HeapRep

/-! ## Frees -/

/-- What `kfree` takes for the header of an allocated block. -/
def LooksLive (heap : Heap) (h : ℕ) : Prop :=
  heap.mem.status h ≠ 0 ∧ heap.mem.size h + slabHeader < pageSize

/-- `_slab_free` joins the block before `p` to one on its left, and leaves in its old header a size that is
    below a page. -/
def absorbed (heap : Heap) (p : ℕ) : Bool :=
  match slabMerge heap.slabFreeList slabFuel heap.mem (sub32 p slabHeader) with
  | .ok (mem, ns) =>
    ns ≠ sub32 p slabHeader ∧ mem.size (sub32 p slabHeader) + slabHeader < pageSize
  | .error _ => false

namespace HeapInv

theorem quiet_listed {free' live' : List Extent} (roots : SameRoots s.heap t.heap) {a : ℕ}
    (quiet : Quiet (t.heap.slabFreeList :: (free' ++ [] ++ live').map Extent.start) a) :
    Quiet (s.heap.slabFreeList :: free'.map Extent.start) a := by
  rw [← roots.slabFreeList]
  exact quiet.blocks (by simp)

section

variable (inv : HeapInv s pages free live leaked) (hb : b ∈ live) (hp : payload b ∈ s.small)
  (careful : Careful s.heap (.kfree (payload b)))

include inv hb hp careful

/-- The first `kfree`: the old header lies in a free block.  It looks like that of an allocated block if it
    has been absorbed. -/
theorem kfree_first : ∃ t free' live' M, heapExec 1 s (.kfree (payload b)) = .ok t ∧
      HeapInv t pages free' live' leaked ∧ M ∈ free' ∧ Within M b.start ∧
      (M.start = b.start → t.heap.mem.status b.start = 0) ∧
      (LooksLive t.heap b.start ↔ absorbed s.heap (payload b) = true) := by
  obtain ⟨mem, t, merged, memory, roots, done, -, inv'⟩ := inv.kfree_small hb hp careful 1
  have before := inv.rep.rep.release hb
  have own : b ∈ free ++ [b] ++ live.erase b := by simp
  have start : Within b b.start := ⟨.inl rfl, Nat.add_le_add_left (before.header b own) _⟩
  have gone : b ∉ (rejoin free b).1 := by
    intro kept
    exact before.listed_ne ((coalesce_sublist _ _ _).subset kept) (by simp) rfl
  obtain ⟨within, -⟩ := inv.rep.within_merged hb (by simp) gone start
  refine ⟨t, _, _, _, done, inv', mem_append_right _ (mem_singleton_self _), within, fun leads => ?_, ?_⟩
  · rw [memory, ← leads]
    exact inv.rep.freed_status hb merged
  rw [absorbed, inv.rep.header_addr hb, merged]
  -- the status is cleared in the header of the joined block only
  by_cases leads : (rejoin free b).2.start = b.start
  · have zero := inv.rep.freed_status hb merged
    rw [← memory, leads] at zero
    simp [LooksLive, zero, leads]
  · have member : (rejoin free b).2 ∈ (rejoin free b).1 ++
        [(rejoin free b).2] ++ [] ++ live.erase b := by simp
    have size : t.heap.mem.size b.start = mem.size b.start := by
      show t.heap.mem (b.start + 0) = mem (b.start + 0)
      rw [memory]
      exact inv.rep.freed_frame hb merged
        (quiet_listed roots (inv'.rep.rep.quiet_inner member within leads (by decide)))
        (inv'.rep.rep.clear_within member within leads member (by decide) (by decide))
    have status : t.heap.mem.status b.start = 1 := by
      rw [← inv.rep.rep.status b hb]
      show t.heap.mem (b.start + 4) = s.heap.mem (b.start + 4)
      rw [memory]
      exact inv.rep.freed_word hb merged (before.quiet_status own start)
        (quiet_listed roots (inv'.rep.rep.quiet_status member within)) (by omega)
    simp [LooksLive, size, status, leads]

/-- The blocks after `kfree` of a slab pointer, and where an old header is then.  Its status is not set
    again, and its words are not written at all if it is not the header of a free block. -/
theorem kfree_within (hM : M ∈ free) (within : Within M h) :
    ∃ t free' live' M', heapExec 1 s (.kfree (payload b)) = .ok t ∧
      HeapInv t pages free' live' leaked ∧ M' ∈ free' ∧ Within M' h ∧
      (s.heap.mem.status h = 0 → t.heap.mem.status h = 0) ∧
      (M.start ≠ h → M'.start ≠ h ∧ t.heap.mem.size h = s.heap.mem.size h ∧
        t.heap.mem.status h = s.heap.mem.status h) := by
  obtain ⟨mem, t, merged, memory, roots, done, -, inv'⟩ := inv.kfree_small hb hp careful 1
  obtain ⟨M', hM', within', other⟩ : ∃ M' ∈ (rejoin free b).1 ++
      [(rejoin free b).2], Within M' h ∧ (M.start ≠ h → M'.start ≠ h) := by
    by_cases kept : M ∈ (rejoin free b).1
    · exact ⟨M, mem_append_left _ kept, within, id⟩
    · exact ⟨_, by simp, inv.rep.within_merged hb (mem_append_left _ hM) kept within⟩
  have member : M ∈ free ++ [b] ++ live.erase b := by simp [hM]
  have member' : M' ∈ (rejoin free b).1 ++ [(rejoin free b).2] ++ [] ++
      live.erase b := by
    rw [append_nil]
    exact mem_append_left _ hM'
  have before := inv.rep.rep.release hb
  have after := inv'.rep.rep
  have inner : M.start ≠ h → M'.start ≠ h ∧ t.heap.mem.size h = s.heap.mem.size h ∧
      t.heap.mem.status h = s.heap.mem.status h := by
    intro inner
    -- no block has its header there, before or after
    have word : ∀ k < 16, t.heap.mem (h + k) = s.heap.mem (h + k) := by
      intro k hk
      rw [memory]
      exact inv.rep.freed_word hb merged (before.quiet_inner member within inner hk)
        (quiet_listed roots (after.quiet_inner member' within' (other inner) hk))
        (after.clear_within member' within' (other inner) (by simp) hk (by decide))
    exact ⟨other inner, word 0 (by decide), word 4 (by decide)⟩
  refine ⟨t, _, _, M', done, inv', hM', within', fun zero => ?_, inner⟩
  by_cases leads : (rejoin free b).2.start = h
  · rw [memory, ← leads]
    exact inv.rep.freed_status hb merged
  · show t.heap.mem (h + 4) = 0
    rw [memory, inv.rep.freed_word hb merged (before.quiet_status member within)
      (quiet_listed roots (after.quiet_status member' within')) (by omega)]
    exact zero

end

end HeapInv

/-! ## Freeing the middle of a free block -/

namespace SlabRep

theorem write_inner (rep : SlabRep mem list R free hand live) (hM : M ∈ free ++ hand ++ live)
    (within : Within M h) (inner : M.start ≠ h) (v : ℕ) :
    SlabRep (mem.setSize h v) list R free hand live := by
  have quiet := rep.quiet_inner hM within inner (k := 0) (by decide)
  have other : ∀ c ∈ free ++ hand ++ live, ∀ j < 16, mem.setSize h v (c.start + j) = mem (c.start + j) :=
    fun c hc j hj =>
      update_of_ne (rep.clear_within hM within inner hc (k := 0) (by decide) hj).symm _ _
  refine rep.transfer (.refl _) (fun c hc => other c hc 0 (by decide)) (fun c hc => ?_) ?_
  · exact (other c (mem_append_right _ hc) 4 (by decide)).trans (rep.status c hc)
  · exact rep.ring_update fun y hy => (quiet.blocks (by simp) y hy).2

/-- What `_slab_free` joins to a header inside of a free block lies behind it. -/
theorem merge_inner (depth : ℕ) (rep : SlabRep mem list R free hand live) (hM : M ∈ free)
    (within : Within M h) (inner : M.start ≠ h) {mem' : Mem} {ns : ℕ}
    (merged : slabMerge list depth mem h = .ok (mem', ns)) : ns = h := by
  induction depth generalizing mem free hand with
  | zero => cases merged
  | succ depth ih =>
    rw [slabMerge, rep.search (fun c => mergeable mem h c.start) (mergeable mem h) fun _ _ => rfl,
      ok_bind] at merged
    cases pick : free.find? fun c => mergeable mem h c.start with
    | none =>
      rw [pick] at merged
      cases merged
      rfl
    | some c =>
      obtain ⟨touch, left, right, rfl, -⟩ := find?_eq_some_iff_append.mp pick
      have hM' : M ∈ left ++ c :: right ++ hand ++ live := mem_append_left _ (mem_append_left _ hM)
      have hc : c ∈ left ++ c :: right ++ hand ++ live := by simp
      have edge := within.edge.resolve_left inner
      have room := within.room
      -- no block ends where the header is
      have behind : h < c.start := by
        have size := rep.size c hc
        simp only [mergeable, Bool.and_eq_true, Bool.or_eq_true, decide_eq_true_eq, size] at touch
        simp only [slabHeader] at edge room
        by_cases same : c = M
        · subst same
          omega
        · have apart := rep.partition.apart_of_ne hc hM' same
          simp only [Extent.Apart] at apart
          omega
      have kept : M ∈ left ++ right := by
        have ne : M ≠ c := by
          rintro rfl
          omega
        simpa [ne] using hM
      rw [pick] at merged
      simp only [Option.map_some, gt_iff_lt, if_pos behind] at merged
      exact ih (rep.remove.write_inner (mem_append_left _ (mem_append_left _ kept)) within inner _)
        kept merged

end SlabRep

theorem slabFree_inv {heap' : Heap} {p : ℕ} (done : slabFree heap p = .ok heap') :
    ∃ mem ns, slabMerge heap.slabFreeList slabFuel heap.mem p = .ok (mem, ns) ∧
      heap'.mem.last heap.slabFreeList = ns := by
  obtain ⟨⟨mem, ns⟩, merged, rest⟩ := bind_eq_ok.mp done
  obtain ⟨area, -, rest⟩ := bind_eq_ok.mp rest
  cases rest
  exact ⟨mem, ns, merged, update_self ..⟩

/-! ## The second free -/

/-- The requests for blocks below a page. -/
def SmallRequest : HeapRequest → Prop
  | .kmalloc size => size ≤ 4079
  | .kfree _ => True
  | _ => False

/-- The free list with its sentinel, and the headers of all blocks, are the same. -/
structure Unchanged (s : HeapClient) (heap' : Heap) : Prop where
  list : freeSlabs heap' = freeSlabs s.heap
  sentinel : ∀ k < slabHeader,
    heap'.mem (s.heap.slabFreeList + k) = s.heap.mem (s.heap.slabFreeList + k)
  header : ∀ b ∈ slabs s, ∀ k < slabHeader, heap'.mem (b.start + k) = s.heap.mem (b.start + k)

/-- `kfree` of `p` returns and changes no block. -/
def Harmless (s : HeapClient) (p : ℕ) : Prop := ∃ heap', kfree s.heap p = .ok heap' ∧ Unchanged s heap'

/-- A pointer into the slab heap has been freed: its header is in a free block, and its status is 0 if it
    is the header of this block. -/
structure Freed (s : HeapClient) (h : ℕ) : Prop where
  described : ∃ pages free live leaked, HeapInv s pages free live leaked ∧
    ∃ M ∈ free, Within M h ∧ (M.start = h → s.heap.mem.status h = 0)
  noPages : s.large = []

theorem large_step {r : HeapRequest} (step : HeapStep s r t) (small : SmallRequest r)
    (noPages : s.large = []) : t.large = [] := by
  obtain ⟨-, depth, done⟩ := step
  cases r with
  | kmalloc size =>
    obtain ⟨⟨heap', p⟩, -, done⟩ := bind_eq_ok.mp done
    have below : size.toNat + slabHeader < pageSize := by
      simp only [SmallRequest] at small
      simp only [slabHeader, pageSize]
      omega
    simp only [if_pos below] at done
    cases done
    exact noPages
  | kfree p =>
    obtain ⟨heap', -, done⟩ := bind_eq_ok.mp done
    cases done
    simp [noPages]
  | getPage order => exact small.elim
  | freePage block => exact small.elim

namespace Freed

/-- Freeing other blocks leaves the old header as `kfree` sees it. -/
theorem step {p : ℕ} (freed : Freed s h) (careful : Careful s.heap (.kfree p))
    (step : HeapStep s (.kfree p) t) : Freed t h ∧ (LooksLive t.heap h ↔ LooksLive s.heap h) := by
  have noPages := large_step step trivial freed.noPages
  obtain ⟨⟨pages, free, live, leaked, inv, M, hM, within, own⟩, empty⟩ := freed
  obtain ⟨legal, depth, done⟩ := step
  have held : p ∈ s.small := legal.resolve_right (by simp [empty])
  obtain ⟨b, hb, rfl⟩ := inv.pointer_live held
  obtain ⟨t', free', live', M', done', inv', hM', within', zero, other⟩ :=
    inv.kfree_within hb held careful hM within
  obtain rfl : t = t' := Except.ok.inj (done.symm.trans done')
  -- the header of the free block has status 0 and keeps it; inside of the block nothing is written
  by_cases leads : M.start = h
  · have freed := zero (own leads)
    exact ⟨⟨⟨pages, free', live', leaked, inv', M', hM', within', fun _ => freed⟩, noPages⟩,
      by simp [LooksLive, freed, own leads]⟩
  · obtain ⟨inner, size, status⟩ := other leads
    exact ⟨⟨⟨pages, free', live', leaked, inv', M', hM', within', fun eq => (inner eq).elim⟩, noPages⟩,
      by rw [LooksLive, LooksLive, size, status]⟩

/-- A second `kfree` is harmless unless the old header still looks like that of an allocated block. -/
theorem harmless_iff (freed : Freed s h) : Harmless s (h + slabHeader) ↔ ¬ LooksLive s.heap h := by
  obtain ⟨⟨pages, free, live, leaked, inv, M, hM, within, own⟩, noPages⟩ := freed
  have member : M ∈ free ++ [] ++ live := by simp [hM]
  have address : sub32 (h + slabHeader) slabHeader = h := by
    obtain ⟨edge, room⟩ := within
    simp only [slabHeader] at edge room
    have inside := (inv.rep.rep.partition.cover h).mpr ⟨M, member, by omega, by omega⟩
    have bounded := inv.rep.rep.bounded h inside
    simp only [kernelPages, pageSize4MB] at bounded
    rw [sub32_of_le (Nat.le_add_left _ _) (by simp only [slabHeader]; omega), Nat.add_sub_cancel]
  -- no page is recorded, so the pointer goes to the slab allocator
  have call : kfree s.heap (h + slabHeader) = if s.heap.mem.status h = 0 then .ok s.heap
      else if s.heap.mem.size h + slabHeader < pageSize then slabFree s.heap h else .ok s.heap := by
    have perm := inv.large
    rw [noPages] at perm
    rw [kfree, kfreeFrom, if_neg (by simp [slabHeader]), map_eq_nil_iff.mp perm.eq_nil]
    simp [findHeader, kfreeSlab, address]
  constructor
  · rintro ⟨heap', done, unchanged⟩ ⟨status, size⟩
    have inner : M.start ≠ h := fun leads => status (own leads)
    rw [call, if_neg status, if_pos size] at done
    obtain ⟨mem, ns, merged, last⟩ := slabFree_inv done
    obtain rfl := inv.rep.rep.merge_inner _ hM within inner merged
    -- the old header would be on the list
    have listed := inv.rep.rep.ring.seg.last_mem
    have same : s.heap.mem (s.heap.slabFreeList + slabLinks.last) = ns :=
      (unchanged.sentinel 8 (by decide)).symm.trans last
    rw [same] at listed
    have quiet := inv.rep.rep.quiet_inner member within inner (k := 0) (by decide)
    exact (quiet.blocks (by simp) ns listed).1 (Nat.add_zero _)
  · intro dead
    refine ⟨s.heap, ?_, rfl, fun _ _ => rfl, fun _ _ _ _ => rfl⟩
    rw [call]
    by_cases status : s.heap.mem.status h = 0
    · rw [if_pos status]
    · rw [if_neg status, if_neg fun size => dead ⟨status, size⟩]

end Freed

theorem Freed.first {p : ℕ} (inv : HeapInv s pages free live leaked) (noPages : s.large = [])
    (careful : Careful s.heap (.kfree p)) (step : HeapStep s (.kfree p) t) :
    ∃ h, p = h + slabHeader ∧ Freed t h ∧ (LooksLive t.heap h ↔ absorbed s.heap p = true) := by
  have noPages' := large_step step trivial noPages
  obtain ⟨legal, depth, done⟩ := step
  have held : p ∈ s.small := legal.resolve_right (by simp [noPages])
  obtain ⟨b, hb, rfl⟩ := inv.pointer_live held
  obtain ⟨t', free', live', M, done', inv', hM, within, own, looks⟩ := inv.kfree_first hb held careful
  obtain rfl : t = t' := Except.ok.inj (done.symm.trans done')
  exact ⟨b.start, rfl, ⟨⟨pages, free', live', leaked, inv', M, hM, within, own⟩, noPages'⟩, looks⟩

def IsFree : HeapRequest → Prop
  | .kfree _ => True
  | _ => False

/-- A second `kfree` of `p`, with any other frees in between, is harmless exactly if the first one did not
    join the block to one on its left. -/
theorem double_kfree_iff {image : KernelImage} {s0 s t u : HeapClient} {before between : List HeapRequest}
    {p : ℕ} (init : HeapInitial image s0)
    (reached : Run (fun s r t => HeapStep s r t ∧ SmallRequest r ∧ Careful s.heap r) s0 before s)
    (first : HeapStep s (.kfree p) t) (careful : Careful s.heap (.kfree p))
    (frees : Run (fun s r t => HeapStep s r t ∧ IsFree r ∧ Careful s.heap r) t between u) :
    Harmless u p ↔ absorbed s.heap p = false := by
  obtain ⟨⟨pages, free, live, leaked, inv⟩, noPages⟩ : HeapOwned s ∧ s.large = [] := by
    have kept : ∀ u r v, HeapOwned u ∧ u.large = [] →
        HeapStep u r v ∧ SmallRequest r ∧ Careful u.heap r → HeapOwned v ∧ v.large = [] := by
      rintro u r v ⟨owned, empty⟩ ⟨step, small, careful⟩
      exact ⟨owned.step careful step, large_step step small empty⟩
    exact reached.invariant kept ⟨init.owned, init.2.2.1⟩
  obtain ⟨h, rfl, freed, looks⟩ := Freed.first inv noPages careful first
  -- the frees in between leave the old header as the first one left it
  have later : Freed u h ∧ (LooksLive u.heap h ↔ absorbed s.heap (h + slabHeader) = true) := by
    have kept : ∀ v r w, Freed v h ∧ (LooksLive v.heap h ↔ absorbed s.heap (h + slabHeader) = true) →
        HeapStep v r w ∧ IsFree r ∧ Careful v.heap r →
        Freed w h ∧ (LooksLive w.heap h ↔ absorbed s.heap (h + slabHeader) = true) := by
      rintro v r w ⟨freed, looks⟩ ⟨step, free, careful⟩
      cases r with
      | kfree q =>
        obtain ⟨freed', same⟩ := freed.step careful step
        exact ⟨freed', same.trans looks⟩
      | kmalloc _ => exact free.elim
      | getPage _ => exact free.elim
      | freePage _ => exact free.elim
    exact frees.invariant kept ⟨freed, looks⟩
  rw [later.1.harmless_iff, later.2, Bool.not_eq_true]

instance : DecidablePred SmallRequest
  | .kmalloc size => inferInstanceAs (Decidable (size ≤ 4079))
  | .kfree _ => inferInstanceAs (Decidable True)
  | .getPage _ | .freePage _ => inferInstanceAs (Decidable False)

instance : DecidablePred IsFree
  | .kfree _ => inferInstanceAs (Decidable True)
  | .kmalloc _ | .getPage _ | .freePage _ => inferInstanceAs (Decidable False)

/-- The first block of the page is freed, then the one behind it; the header of the first one stays that of
    a free block. -/
theorem double_kfree_iff_first : ∃ s0 s t u, HeapInitial exampleImage s0 ∧
    Run (fun s r t => HeapStep s r t ∧ SmallRequest r ∧ Careful s.heap r) s0 [.kmalloc 9, .kmalloc 9] s ∧
    HeapStep s (.kfree 0x800010) t ∧
    Run (fun s r t => HeapStep s r t ∧ IsFree r ∧ Careful s.heap r) t [.kfree 0x800030] u ∧
    Harmless u 0x800010 := by
  have executed : bootRun (fun s r => SmallRequest r ∧ Careful s.heap r) [.kmalloc 9, .kmalloc 9] (fun s =>
      (decide (HeapLegal s (.kfree 0x800010) ∧ Careful s.heap (.kfree 0x800010)) &&
        !absorbed s.heap 0x800010) &&
      okAnd (heapExec 1 s (.kfree 0x800010)) fun t =>
        (heapRun (fun s r => IsFree r ∧ Careful s.heap r) t [.kfree 0x800030]).any fun _ => true) = true := by
    decide +kernel
  obtain ⟨s0, s, initial, run, passed⟩ := exists_bootRun executed
  simp only [Bool.and_eq_true, decide_eq_true_eq, Bool.not_eq_true'] at passed
  obtain ⟨⟨⟨legal, careful⟩, apart⟩, freed⟩ := passed
  obtain ⟨t, done, freed⟩ := okAnd_iff.mp freed
  obtain ⟨u, frees, -⟩ := exists_heapRun freed
  exact ⟨s0, s, t, u, initial, run, ⟨legal, 1, done⟩, frees,
    (double_kfree_iff initial run ⟨legal, 1, done⟩ careful frees).mpr apart⟩

/-- The second block of a page is freed after the first and joined to it; freed once more, it is on the list
    next to the block that contains it. -/
theorem double_kfree_listed : ∃ s0 t heap', HeapInitial exampleImage s0 ∧
    Run (fun s r t => HeapStep s r t ∧ SmallRequest r) s0
      [.kmalloc 9, .kmalloc 9, .kmalloc 9, .kfree 0x800010, .kfree 0x800030] t ∧
    kfree t.heap 0x800030 = .ok heap' ∧
    freeSlabs t.heap = [⟨0x800060, 0x3FFFA0⟩, ⟨0x800000, 64⟩] ∧
    freeSlabs heap' = [⟨0x800060, 0x3FFFA0⟩, ⟨0x800000, 64⟩, ⟨0x800020, 32⟩] ∧
    ¬ Harmless t 0x800030 := by
  have executed : bootRun (fun _ r => SmallRequest r)
      [.kmalloc 9, .kmalloc 9, .kmalloc 9, .kfree 0x800010, .kfree 0x800030] (fun t =>
        okAnd (kfree t.heap 0x800030) fun heap' =>
          freeSlabs t.heap = [⟨0x800060, 0x3FFFA0⟩, ⟨0x800000, 64⟩] ∧
          freeSlabs heap' = [⟨0x800060, 0x3FFFA0⟩, ⟨0x800000, 64⟩, ⟨0x800020, 32⟩]) = true := by
    decide +kernel
  obtain ⟨s0, t, initial, run, freed⟩ := exists_bootRun executed
  obtain ⟨heap', done, lists⟩ := okAnd_iff.mp freed
  obtain ⟨list, list'⟩ := of_decide_eq_true lists
  refine ⟨s0, t, heap', initial, run, done, list, list', ?_⟩
  rintro ⟨heap'', done', unchanged⟩
  cases done.symm.trans done'
  have same := unchanged.list
  rw [list, list'] at same
  exact absurd same (by decide)

end Illinix.Verified.Slab
