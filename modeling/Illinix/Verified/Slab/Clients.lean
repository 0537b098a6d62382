import Illinix.Verified.Slab.Heap

/-! # Clients of `kmalloc` and of the page allocator

A client state is a heap with the pointers and blocks that have been handed out.  Two
requests break the description of the heap: a `kmalloc` that leaves a rest of one unit,
whose header does not fit, and a `kfree` that makes `slab_free` hand a page back.  `Careful`
excludes them; every other request keeps the invariant. -/

namespace Illinix.Verified.Slab

open Kernel Lib List
open Verified.Buddy (Block Client KernelInv blockSize blockSize_pos freeBlocks blocks
  getPage_none perm_cons_eraseP)

structure HeapClient where
  heap : Heap
  /-- pointers from `kmalloc` into the slab heap. -/
  small : List ℕ
  /-- pages from `kmalloc`. -/
  large : List ℕ
  /-- blocks from `get_page`. -/
  held : List Block

inductive HeapRequest where
  | kmalloc (size : ℤ)
  | kfree (p : ℕ)
  | getPage (order : ℤ)
  | freePage (block : Block)

def heapExec (depth : ℕ) (s : HeapClient) : HeapRequest → Except Fault HeapClient
  | .kmalloc size => do
    let (heap, p) ← kmalloc depth s.heap size
    if size.toNat + slabHeader < pageSize then
      return { s with heap, small := p.toList ++ s.small }
    else
      return { s with heap, large := p.toList ++ s.large }
  | .kfree p => do
    return { s with heap := ← kfree s.heap p, small := s.small.erase p, large := s.large.erase p }
  | .getPage order => do
    let (area, p) ← getPage s.heap.area order
    return { s with
      heap := { s.heap with area }, held := p.toList.map (Block.mk order.toNat) ++ s.held }
  | .freePage block => do
    let area ← freePage s.heap.area block.addr block.order
    return { s with heap := { s.heap with area }, held := s.held.erase block }

/-- Clients free only what they hold. -/
def HeapLegal (s : HeapClient) : HeapRequest → Prop
  | .kfree p => p ∈ s.small ∨ p ∈ s.large
  | .freePage block => block ∈ s.held
  | _ => True

/-- A request that returns, with whatever recursion depth `slab_alloc` needs. -/
def HeapStep (s : HeapClient) (r : HeapRequest) (t : HeapClient) : Prop :=
  HeapLegal s r ∧ ∃ depth, heapExec depth s r = .ok t

/-! ## Careful requests -/

/-- The block that `slab_alloc` finds has one unit more than it takes. -/
def leavesSliver (heap : Heap) (sizeN : ℕ) : Bool :=
  match firstFit heap sizeN with
  | .ok (some s) => heap.mem.size s = sizeN + 1
  | _ => false

/-- The units `kmalloc` asks of the slab heap: for the request itself, or for the header of
    the page it returns. -/
def requestUnits (size : ℤ) : ℕ :=
  if size.toNat + slabHeader < pageSize then sizeUnits size.toNat else sizeUnits pageHeaderSize

/-- The slab block that `kfree` gives back: the one at `p`, or the header of the page. -/
def slabPointer (heap : Heap) (p : ℕ) : ℕ :=
  match findHeader heap.pageHeader p with
  | none => p
  | some (h, _) => h.node

def Careful (heap : Heap) : HeapRequest → Prop
  | .kmalloc size => 0 < size → size ≤ pageSize4MB → leavesSliver heap (requestUnits size) = false
  | .kfree p => handsBack heap (slabPointer heap p) = false
  | _ => True

/-! ## The invariant -/

def headerBlock (h : PageHeader) : Block := ⟨h.order, h.addr⟩

/-- `leaked` are the pages that `kmalloc` has obtained and lost when their header could not
    be allocated. -/
structure HeapInv (s : HeapClient) (pages : List ℕ) (free live : List Extent)
    (leaked : List Block) : Prop where
  rep : HeapRep s.heap pages free live (s.heap.pageHeader.map headerBlock ++ leaked ++ s.held)
  pointers : (live.map payload).Perm (s.small ++ s.heap.pageHeader.map PageHeader.node)
  large : (s.heap.pageHeader.map PageHeader.addr).Perm s.large

/-- What a request does to the free and to the live blocks: a block is cut from a free one, a page
    is added, or a live block is joined to its free neighbours. -/
inductive BlockChange (heap : Heap) (free live : List Extent) :
    HeapRequest → List Extent → List Extent → Prop where
  | same {r : HeapRequest} (keeps : ∀ p, r ≠ .kfree p) : BlockChange heap free live r free live
  | cut {size : ℤ} {b : Extent} {n : ℕ} (mem : b ∈ free) (positive : 0 < n)
      (fits : n * slabUnit ≤ b.len) :
      BlockChange heap free live (.kmalloc size) (free.erase b ++ remainder b n)
        (⟨b.start, n * slabUnit⟩ :: live)
  | grow {size : ℤ} {p : ℕ} (aligned : p % pageSize4MB = 0) :
      BlockChange heap free live (.kmalloc size) (free ++ [pageExtent p]) live
  | join {p : ℕ} {b : Extent} (mem : b ∈ live) (pointer : payload b = slabPointer heap p) :
      BlockChange heap free live (.kfree p)
        ((coalesce free.length free b).1 ++ [(coalesce free.length free b).2]) (live.erase b)

variable {heap heap' : Heap} {pages : List ℕ} {free live : List Extent} {taken leaked : List Block}
  {b : Extent} {s t : HeapClient}

section

variable (h : HeapRep heap pages free live taken)

include h

theorem HeapRep.leavesSliver_iff (n : ℕ) : leavesSliver heap n = false ↔
      ∀ b, free.find? (fun b => n * slabUnit ≤ b.len) = some b → b.len ≠ (n + 1) * slabUnit := by
  have found := h.rep.firstFit_spec n
  cases pick : free.find? (fun b => n * slabUnit ≤ b.len) with
  | none => simp [leavesSliver, found, pick]
  | some b =>
    have size := h.rep.size b (by simp [mem_of_find?_eq_some pick])
    have same : heap.mem.size b.start = n + 1 ↔ b.len = (n + 1) * slabUnit := by
      simp only [slabUnit] at size ⊢
      omega
    rw [leavesSliver, found, pick]
    simp [same]

/-- A block taken from the buddy allocator for another use does not start in the payload of
    a slab block. -/
theorem HeapRep.addr_ne {c : Block} (hc : c ∈ taken) (hb : b ∈ live) : c.addr ≠ payload b := by
  intro same
  have enough := (h.small b hb).1
  obtain ⟨q, hq, hqa⟩ : InPages pages (payload b) := (h.rep.partition.cover _).mpr
    ⟨b, by simp [hb], Nat.le_add_right _ _, Nat.add_lt_add_left enough _⟩
  have page : pageBlock q ∈ pages.map pageBlock := mem_map_of_mem hq
  have equal : pageBlock q = c := by
    refine h.area.eq_of_has (a := payload b) ?_ ?_ (pageBlock_has.mpr hqa) ?_
    · simp only [blocks, mem_append]
      exact .inr (.inl page)
    · simp only [blocks, mem_append]
      exact .inr (.inr hc)
    · exact ⟨same.le, same ▸ Nat.lt_add_of_pos_right (blockSize_pos _)⟩
  exact (nodup_append.mp h.area.client.nodup).2.2 _ page c hc equal

end

/-! ## `kfree` -/

theorem findHeader_none {headers : List PageHeader} {p : ℕ} (absent : ∀ h ∈ headers, h.addr ≠ p) :
    findHeader headers p = none := by
  have : headers.find? (·.addr == p) = none := by
    rw [find?_eq_none]
    intro h hh
    simpa using absent h hh
  rw [findHeader, this]

theorem findHeader_some {headers : List PageHeader} {p : ℕ} (present : p ∈ headers.map PageHeader.addr) :
    ∃ h rest, findHeader headers p = some (h, rest) ∧ h.addr = p ∧ headers.Perm (h :: rest) := by
  obtain ⟨header, member, addr⟩ := mem_map.mp present
  obtain ⟨h, found⟩ : ∃ h, headers.find? (·.addr == p) = some h := by
    rw [← Option.isSome_iff_exists, find?_isSome]
    exact ⟨header, member, by simpa using addr⟩
  have same : h.addr = p := by simpa using find?_some found
  exact ⟨h, _, by rw [findHeader, found], same, perm_cons_eraseP found⟩

theorem HeapRep.kfree_slab (h : HeapRep heap pages free live taken) (depth : ℕ) (hb : b ∈ live)
    (headers : ∀ h ∈ heap.pageHeader, headerBlock h ∈ taken) :
    findHeader heap.pageHeader (payload b) = none ∧
      kfreeFrom (depth + 1) heap (payload b) = slabFree heap b.start := by
  have absent : findHeader heap.pageHeader (payload b) = none :=
    findHeader_none fun header hh => h.addr_ne (headers header hh) hb
  have address := h.header_addr hb
  have status : heap.mem.status b.start ≠ 0 := by
    rw [h.rep.status b hb]
    decide
  have size : heap.mem.size b.start + slabHeader < pageSize := by
    have words := h.rep.size b (by simp [hb])
    have bound := (h.small b hb).2
    simp only [slabUnit, slabHeader, pageSize] at *
    omega
  have nonzero : payload b ≠ 0 := by
    simp [payload, slabHeader]
  refine ⟨absent, ?_⟩
  rw [kfreeFrom, if_neg nonzero, absent]
  simp only [kfreeSlab, address, if_neg status, if_pos size]

theorem pointers_erase {small nodes : List ℕ} (pointers : (live.map payload).Perm (small ++ nodes))
    (hb : b ∈ live) (hp : payload b ∈ small) :
    ((live.erase b).map payload).Perm (small.erase (payload b) ++ nodes) := by
  have blocks := (perm_cons_erase hb).map payload
  have held := (perm_cons_erase hp).append_right nodes
  exact (blocks.symm.trans (pointers.trans held)).cons_inv

namespace HeapInv

variable {depth p : ℕ} {size : ℤ}

theorem header_taken :
    ∀ h ∈ s.heap.pageHeader, headerBlock h ∈ s.heap.pageHeader.map headerBlock ++ leaked ++ s.held := by
  intro h hh
  simp only [mem_append]
  exact .inl (.inl (mem_map_of_mem hh))

section

variable (inv : HeapInv s pages free live leaked)

include inv

theorem page_aligned (hp : p ∈ pages) : p % pageSize4MB = 0 := by
  obtain ⟨_, _, aligned⟩ := inv.rep.area.mem_block (b := pageBlock p) (by
    simp only [blocks, mem_append]
    exact .inr (.inl (mem_map_of_mem hp)))
  exact Nat.mod_eq_zero_of_dvd aligned

/-- A block that `kfree` takes for an extra page is at the start of a page. -/
theorem extra_mem (hb : b ∈ live) (extra : ExtraPage s.heap (rejoin free b).2) : (rejoin free b).2.start ∈ pages := by
  obtain ⟨_, _, rep, -⟩ := inv.rep.free_merge hb
  have positive := rep.partition.positive (rejoin free b).2 (by simp)
  obtain ⟨p, hp, inside⟩ := (rep.partition.cover _).mpr
    ⟨(rejoin free b).2, by simp, le_rfl, Nat.lt_add_of_pos_right positive⟩
  have aligned := inv.page_aligned hp
  have aligned' := extra.2.1
  have same : (rejoin free b).2.start = p := by
    simp only [pageSize4MB] at *
    omega
  rw [same]
  exact hp

theorem slabPointer_eq (hb : b ∈ live) : slabPointer s.heap (payload b) = payload b := by
  rw [slabPointer, (inv.rep.kfree_slab 0 hb header_taken).1]

theorem careful_kfree (hb : b ∈ live) :
    Careful s.heap (.kfree (payload b)) ↔ ¬ ExtraPage s.heap (rejoin free b).2 := by
  rw [Careful, inv.slabPointer_eq hb, Bool.eq_false_iff, Ne, inv.rep.handsBack_iff hb]

theorem pointer_live (hp : p ∈ s.small) : ∃ b ∈ live, payload b = p :=
  mem_map.mp (inv.pointers.mem_iff.mpr (mem_append_left _ hp))

theorem kfree_small (hb : b ∈ live)
    (hp : payload b ∈ s.small) (careful : Careful s.heap (.kfree (payload b))) (depth : ℕ) :
    ∃ mem t, slabMerge s.heap.slabFreeList slabFuel s.heap.mem b.start =
        .ok (mem, (rejoin free b).2.start) ∧
      t.heap.mem = slabListPush (mem.setStatus (rejoin free b).2.start 0)
        s.heap.slabFreeList (rejoin free b).2.start ∧
      SameRoots s.heap t.heap ∧ heapExec depth s (.kfree (payload b)) = .ok t ∧
      t.small = s.small.erase (payload b) ∧
      HeapInv t pages ((rejoin free b).1 ++ [(rejoin free b).2]) (live.erase b) leaked := by
  obtain ⟨_, freed⟩ := inv.rep.kfree_slab s.heap.pageHeader.length hb header_taken
  obtain ⟨mem, heap', merged, memory, same, done, rep⟩ :=
    inv.rep.free_kept hb ((inv.careful_kfree hb).mp careful)
  -- a page is never at the address of a slab pointer
  have notLarge : payload b ∉ s.large := by
    intro h
    obtain ⟨header, hh, addr⟩ := mem_map.mp (inv.large.mem_iff.mpr h)
    exact inv.rep.addr_ne (header_taken header hh) hb addr
  refine ⟨mem, ⟨heap', s.small.erase (payload b), s.large.erase (payload b), s.held⟩, merged, memory,
    same, ?_, rfl, ?_, ?_, ?_⟩
  · rw [heapExec, kfree, freed, done]
    rfl
  · simpa only [same.pageHeader] using rep
  · rw [same.pageHeader]
    exact pointers_erase inv.pointers hb hp
  · rw [same.pageHeader, erase_of_not_mem notLarge]
    exact inv.large

theorem kfree_large (hp : p ∈ s.large) (careful : Careful s.heap (.kfree p)) (depth : ℕ) :
    ∃ t b, heapExec depth s (.kfree p) = .ok t ∧ b ∈ live ∧ payload b = slabPointer s.heap p ∧
      HeapInv t pages ((rejoin free b).1 ++ [(rejoin free b).2]) (live.erase b) leaked := by
  obtain ⟨header, rest, lookup, addr, perm⟩ := findHeader_some (inv.large.mem_iff.mpr hp)
  -- the header itself lies in the slab heap
  obtain ⟨b, hb, node⟩ : ∃ b ∈ live, payload b = header.node := by
    have : header.node ∈ live.map payload := inv.pointers.mem_iff.mpr (mem_append_right _
      (mem_map_of_mem (perm.mem_iff.mpr (mem_cons_self ..))))
    simpa using this
  have rep : HeapRep { s.heap with pageHeader := rest } pages free live
      (s.heap.pageHeader.map headerBlock ++ leaked ++ s.held) :=
    ⟨inv.rep.rep, inv.rep.area, inv.rep.small, inv.rep.sentinel⟩
  obtain ⟨_, freed⟩ := rep.kfree_slab rest.length hb fun h hh =>
    header_taken h (perm.mem_iff.mpr (mem_cons_of_mem _ hh))
  have kept : ¬ ExtraPage s.heap (rejoin free b).2 := by
    rw [Careful, slabPointer, lookup] at careful
    rw [← inv.rep.handsBack_iff hb, node]
    simpa using careful
  obtain ⟨_, heap', _, _, same, done, rep'⟩ := rep.free_kept hb kept
  have blocksPerm : (pages.map pageBlock ++ (s.heap.pageHeader.map headerBlock ++ leaked ++ s.held)).Perm
      (headerBlock header :: (pages.map pageBlock ++ (rest.map headerBlock ++ leaked ++ s.held))) := by
    refine .trans (.append_left _ ?_) perm_middle
    exact ((perm.map headerBlock).append_right leaked).append_right s.held
  obtain ⟨area, page, inv'⟩ := (rep'.area.perm blocksPerm).freePage_spec
  have member : header ∈ s.heap.pageHeader := perm.mem_iff.mpr (mem_cons_self ..)
  have notSmall : p ∉ s.small := by
    intro h
    obtain ⟨c, hc, same⟩ := inv.pointer_live h
    exact inv.rep.addr_ne (header_taken header member) hc (addr.trans same.symm)
  have nonzero : p ≠ 0 := by
    have inside := inv.rep.area.mem_block (b := headerBlock header) (by
      simp only [blocks, mem_append]
      exact .inr (.inr (.inl (.inl (mem_map_of_mem member)))))
    have lower := inside.1
    simp only [headerBlock, addr, reservedPages, pageSize4MB] at lower
    omega
  have headers : heap'.pageHeader = rest := same.pageHeader
  refine ⟨⟨{ heap' with area }, s.small.erase p, s.large.erase p, s.held⟩, b, ?_, hb,
    by rw [node, slabPointer, lookup], ?_, ?_, ?_⟩
  · have page' : freePage heap'.area p header.order = .ok area := by
      rw [← addr]
      exact page
    rw [node] at freed
    rw [heapExec, kfree, perm.length_eq, length_cons, kfreeFrom, if_neg nonzero, lookup]
    simp only [freed, done, ok_bind, page', pure_eq_ok]
  · exact ⟨rep'.rep, by simpa [headers] using inv', rep'.small, rep'.sentinel⟩
  · rw [erase_of_not_mem notSmall, headers]
    have blocks := (perm_cons_erase hb).map payload
    have held := (inv.pointers.trans ((perm.map PageHeader.node).append_left _)).trans perm_middle
    rw [map_cons, node] at blocks
    exact (blocks.symm.trans held).cons_inv
  · rw [headers]
    have recorded := (perm.map PageHeader.addr).symm.trans inv.large
    rw [map_cons, addr] at recorded
    exact (recorded.trans (perm_cons_erase hp)).cons_inv

end

theorem kmalloc_small_eq {r : Option ℕ} (positive : 0 < size) (small : size.toNat + slabHeader < pageSize)
    (alloc : slabAlloc depth s.heap size.toNat = .ok (heap', r)) :
    heapExec depth s (.kmalloc size) = .ok { s with heap := heap', small := r.toList ++ s.small } := by
  have inRange : ¬ (size ≤ 0 ∨ size > pageSize4MB) := by
    simp only [slabHeader, pageSize, pageSize4MB] at *
    omega
  rw [heapExec, kmalloc, if_neg inRange, if_pos small, alloc, ok_bind]
  simp only [if_pos small, pure_eq_ok]

section

variable (inv : HeapInv s pages free live leaked)

include inv

theorem kmalloc_small (positive : 0 < size) (small : size.toNat + slabHeader < pageSize)
    (careful : Careful s.heap (.kmalloc size)) (done : heapExec depth s (.kmalloc size) = .ok t) :
    SameRoots s.heap t.heap ∧
    ((∃ b, t.small = payload b :: s.small ∧ t.heap.area = s.heap.area ∧
        free.find? (fun b => sizeUnits size.toNat * slabUnit ≤ b.len) = some b ∧
        HeapInv t pages (free.erase b ++ remainder b (sizeUnits size.toNat))
          (⟨b.start, sizeUnits size.toNat * slabUnit⟩ :: live) leaked) ∨
      (t.small = s.small ∧ free.find? (fun b => sizeUnits size.toNat * slabUnit ≤ b.len) = none ∧
        ∃ p, HeapInv t (p :: pages) (free ++ [pageExtent p]) live leaked)) := by
  have inRange : ¬ (size ≤ 0 ∨ size > pageSize4MB) := by
    simp only [slabHeader, pageSize, pageSize4MB] at *
    omega
  have sliver := (inv.rep.leavesSliver_iff _).mp (careful positive (by omega))
  rw [requestUnits, if_pos small] at sliver
  simp only [heapExec, kmalloc, if_neg inRange, if_pos small, bind_eq_ok] at done
  obtain ⟨⟨heap', r⟩, alloc, result⟩ := done
  cases result
  obtain ⟨same, cases'⟩ := inv.rep.alloc_cases (by omega) small sliver alloc
  refine ⟨same, ?_⟩
  cases cases' with
  | inl fit =>
    obtain ⟨b, rfl, area, pick, rep⟩ := fit
    refine .inl ⟨b, rfl, area, pick, ?_, ?_, ?_⟩
    · simpa only [same.pageHeader] using rep
    · rw [same.pageHeader]
      exact inv.pointers.cons (payload b)
    · simpa only [same.pageHeader] using inv.large
  | inr grown =>
    obtain ⟨rfl, none, p, rep⟩ := grown
    refine .inr ⟨rfl, none, p, ?_, ?_, ?_⟩
    · simpa only [same.pageHeader] using rep
    · rw [same.pageHeader]
      exact inv.pointers
    · simpa only [same.pageHeader] using inv.large

/-- `kmalloc` of a page or more: the page is recorded in a header from the slab heap, or
    lost when there is none. -/
theorem kmalloc_large (positive : 0 < size) (le : size ≤ pageSize4MB)
    (large : ¬ size.toNat + slabHeader < pageSize)
    (careful : Careful s.heap (.kmalloc size)) (done : heapExec depth s (.kmalloc size) = .ok t) :
    ∃ pages' free' live' leaked', HeapInv t pages' free' live' leaked' ∧
      BlockChange s.heap free live (.kmalloc size) free' live' := by
  have inRange : ¬ (size ≤ 0 ∨ size > pageSize4MB) := by omega
  have sliver := (inv.rep.leavesSliver_iff _).mp (careful positive le)
  rw [requestUnits, if_neg large] at sliver
  simp only [heapExec, kmalloc, if_neg inRange, if_neg large, bind_eq_ok] at done
  obtain ⟨⟨heap', r⟩, ⟨⟨area, page⟩, got, rest⟩, result⟩ := done
  cases result
  cases page with
  | none =>
    cases rest
    cases (getPage_none got).1
    exact ⟨pages, free, live, leaked, ⟨inv.rep, inv.pointers, inv.large⟩, .same (by simp)⟩
  | some pt =>
    simp only [addHeader, bind_eq_ok] at rest
    obtain ⟨⟨heap1, added⟩, ⟨⟨heap2, node⟩, alloc, header⟩, returned⟩ := rest
    have rep := inv.rep.takePage got
    obtain ⟨same, cases'⟩ := rep.alloc_cases (by decide) (by decide) sliver alloc
    have headers : heap2.pageHeader = s.heap.pageHeader := same.pageHeader
    cases cases' with
    | inl fit =>
      obtain ⟨b, rfl, _, pick, rep'⟩ := fit
      cases header
      cases returned
      refine ⟨pages, _, _, leaked, ⟨⟨rep'.rep, ?_, rep'.small, rep'.sentinel⟩, ?_, ?_⟩,
        .cut (mem_of_find?_eq_some pick) (by decide) (by simpa using find?_some pick)⟩
      · rw [headers]
        exact rep'.area
      · rw [headers]
        exact (inv.pointers.cons (payload b)).trans perm_middle.symm
      · rw [headers]
        exact inv.large.cons pt
    | inr grown =>
      obtain ⟨rfl, _, p, rep'⟩ := grown
      cases header
      cases returned
      have inv' : HeapInv { s with heap := heap2 } (p :: pages) (free ++ [pageExtent p]) live
          (⟨pageOrder size.toNat, pt⟩ :: leaked) := by
        refine ⟨?_, ?_, ?_⟩
        · rw [headers]
          refine { rep' with area := rep'.area.perm (Perm.append_left _ ?_) }
          rw [append_assoc, append_assoc, cons_append]
          exact perm_middle.symm
        · rw [headers]
          exact inv.pointers
        · rw [headers]
          exact inv.large
      exact ⟨_, _, _, _, inv', .grow (inv'.page_aligned (mem_cons_self ..))⟩

theorem getPage_step {order : ℤ}
    (done : heapExec depth s (.getPage order) = .ok t) : HeapInv t pages free live leaked := by
  simp only [heapExec, bind_eq_ok] at done
  obtain ⟨⟨area, page⟩, got, result⟩ := done
  cases result
  obtain ⟨area', page', got', taken⟩ := inv.rep.area.getPage_spec order
  rw [got] at got'
  cases got'
  refine ⟨⟨inv.rep.rep, taken.perm ?_, inv.rep.small, inv.rep.sentinel⟩, inv.pointers, inv.large⟩
  -- the new block moves behind the blocks of the heap
  simp only [← append_assoc]
  refine .append_right _ ?_
  simp only [append_assoc]
  exact perm_append_comm.trans (by simp)

theorem freePage_step {block : Block} (member : block ∈ s.held)
    (done : heapExec depth s (.freePage block) = .ok t) :
    HeapInv t pages free live leaked := by
  simp only [heapExec, bind_eq_ok] at done
  obtain ⟨area, freed, result⟩ := done
  cases result
  have moved : (pages.map pageBlock ++ (s.heap.pageHeader.map headerBlock ++ leaked ++ s.held)).Perm
      (block :: (pages.map pageBlock ++
        (s.heap.pageHeader.map headerBlock ++ leaked ++ s.held.erase block))) := by
    refine .trans (.append_left _ ?_) perm_middle
    exact ((perm_cons_erase member).append_left _).trans perm_middle
  obtain ⟨area', freed', inv'⟩ := (inv.rep.area.perm moved).freePage_spec
  rw [freed] at freed'
  cases freed'
  exact ⟨⟨inv.rep.rep, inv', inv.rep.small, inv.rep.sentinel⟩, inv.pointers, inv.large⟩

theorem step {r : HeapRequest} (careful : Careful s.heap r) (step : HeapStep s r t) :
    ∃ pages' free' live' leaked', HeapInv t pages' free' live' leaked' ∧
      BlockChange s.heap free live r free' live' := by
  obtain ⟨legal, depth, done⟩ := step
  cases r with
  | kmalloc size =>
    by_cases inRange : size ≤ 0 ∨ size > pageSize4MB
    · simp only [heapExec, kmalloc, if_pos inRange, pure_eq_ok, ok_bind] at done
      split at done
      · cases done
        exact ⟨pages, free, live, leaked, ⟨inv.rep, inv.pointers, inv.large⟩, .same (by simp)⟩
      · cases done
        exact ⟨pages, free, live, leaked, ⟨inv.rep, inv.pointers, inv.large⟩, .same (by simp)⟩
    · by_cases small : size.toNat + slabHeader < pageSize
      · obtain ⟨_, cases'⟩ := inv.kmalloc_small (by omega) small careful done
        cases cases' with
        | inl fit =>
          obtain ⟨b, _, _, pick, inv'⟩ := fit
          have positive : 0 < sizeUnits size.toNat := by
            simp only [sizeUnits, slabHeader, slabUnit]
            omega
          exact ⟨_, _, _, _, inv', .cut (mem_of_find?_eq_some pick) positive (by simpa using find?_some pick)⟩
        | inr grown =>
          obtain ⟨_, _, p, inv'⟩ := grown
          exact ⟨_, _, _, _, inv', .grow (inv'.page_aligned (mem_cons_self ..))⟩
      · exact inv.kmalloc_large (by omega) (by omega) small careful done
  | kfree p =>
    cases legal with
    | inl held =>
      obtain ⟨b, hb, rfl⟩ := inv.pointer_live held
      obtain ⟨_, t', _, _, _, done', _, inv'⟩ := inv.kfree_small hb held careful depth
      rw [done] at done'
      cases done'
      exact ⟨_, _, _, _, inv', .join hb (inv.slabPointer_eq hb).symm⟩
    | inr held =>
      obtain ⟨t', b, done', hb, pointer, inv'⟩ := inv.kfree_large held careful depth
      rw [done] at done'
      cases done'
      exact ⟨_, _, _, _, inv', .join hb pointer⟩
  | getPage order => exact ⟨_, _, _, _, inv.getPage_step done, .same (by simp)⟩
  | freePage block => exact ⟨_, _, _, _, inv.freePage_step legal done, .same (by simp)⟩

end

end HeapInv

end Illinix.Verified.Slab
