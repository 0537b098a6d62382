import Illinix.Verified.Slab.Clients

/-! # Integrity of one slab page

The blocks of the heap, read from memory: the free ones by walking the list from its
sentinel, the live ones from the pointers that clients hold.  As long as no `kmalloc` leaves
a rest of one unit, every header lies in its own block, the blocks fill the page, and an
operation leaves the size and status words of the other live blocks alone.  A rest of one
unit breaks this: its header covers the first words of the block that follows. -/

namespace Illinix.Verified.Slab

open Kernel Lib List
open Verified.Buddy (Block KernelInv blocks kernelInit kernelInit_inv)

/-! ## Blocks as memory has them -/

/-- The nodes from `s` to the sentinel. -/
def slabNodes (mem : Mem) (list : ℕ) : ℕ → ℕ → List ℕ
  | 0, _ => []
  | fuel + 1, s => if s = list then [] else s :: slabNodes mem list fuel (mem.next s)

def blockAt (mem : Mem) (s : ℕ) : Extent := ⟨s, mem.size s * slabUnit⟩

def freeSlabs (heap : Heap) : List Extent :=
  (slabNodes heap.mem heap.slabFreeList slabFuel (heap.mem.next heap.slabFreeList)).map
    (blockAt heap.mem)

def liveSlabs (heap : Heap) (pointers : List ℕ) : List Extent :=
  pointers.map fun p => blockAt heap.mem (p - slabHeader)

variable {mem : Mem} {list : ℕ} {heap : Heap} {pages : List ℕ} {free live : List Extent}
  {taken leaked : List Block} {s t : HeapClient}

theorem slabNodes_seg {nodes : List ℕ} {fuel start : ℕ} (seg : slabLinks.Seg mem start nodes list)
    (sentinel : list ∉ nodes) (enough : nodes.length < fuel) :
    slabNodes mem list fuel (mem.next start) = nodes := by
  induction nodes generalizing fuel start with
  | nil =>
    obtain ⟨fuel, rfl⟩ := Nat.exists_eq_succ_of_ne_zero (by omega : fuel ≠ 0)
    have next : mem.next start = list := seg.1
    rw [slabNodes, if_pos next]
  | cons x nodes ih =>
    obtain ⟨fuel, rfl⟩ := Nat.exists_eq_succ_of_ne_zero (by omega : fuel ≠ 0)
    have next : mem.next start = x := seg.1.1
    rw [mem_cons, not_or] at sentinel
    rw [slabNodes, next, if_neg (Ne.symm sentinel.1),
      ih seg.2 sentinel.2 (by simp only [length_cons] at enough; omega)]

namespace SlabRep

variable {R : ℕ → Prop} {hand : List Extent}

theorem blockAt_start (rep : SlabRep mem list R free hand live) {b : Extent}
    (hb : b ∈ free ++ hand ++ live) : blockAt mem b.start = b := by
  rw [blockAt, rep.size b hb]

theorem freeSlabs_eq (rep : SlabRep heap.mem heap.slabFreeList R free hand live) :
    freeSlabs heap = free := by
  rw [freeSlabs, slabNodes_seg rep.ring.seg (nodup_cons.mp rep.ring.nodup).1
    (by rw [length_map]; exact rep.length_lt), map_map]
  exact (map_congr_left fun b hb => rep.blockAt_start (by simp [hb])).trans (map_id _)

theorem liveSlabs_perm (rep : SlabRep heap.mem heap.slabFreeList R free hand live) {pointers : List ℕ}
    (held : (live.map payload).Perm pointers) : (liveSlabs heap pointers).Perm live := by
  refine (held.map _).symm.trans (.of_eq ?_)
  rw [map_map]
  refine (map_congr_left fun b hb => ?_).trans (map_id _)
  exact rep.blockAt_start (by simp [hb])

end SlabRep

/-! ## The initial heap -/

/-- What the slab allocator finds at start-up: the sentinel is static data of the kernel
    image, below the memory it manages. -/
structure KernelImage where
  l1 : ℕ
  mem : Mem
  below : l1 + slabHeader ≤ reservedPages * pageSize4MB

/-- The state after `kmalloc_init`, with nothing handed out. -/
def HeapInitial (image : KernelImage) (s : HeapClient) : Prop :=
  slabInit kmallocInit image.mem image.l1 = .ok s.heap ∧ s.small = [] ∧ s.large = [] ∧ s.held = []

theorem emptyRing {l1 : ℕ} (mem : Mem) :
    SlabRep (((mem.setNext l1 l1).setLast l1 l1).setSize l1 0) l1 (InPages []) [] [] [] := by
  refine ⟨⟨by simp, fun a => by simp [InPages], .nil⟩, ?_, ?_, ?_, ?_, ?_, ⟨⟨?_, ?_⟩, ?_, ?_⟩⟩
  all_goals simp [InPages, slabLinks, Mem.setNext, Mem.setLast, Mem.setSize]

theorem HeapInitial.inv {image : KernelImage} (initial : HeapInitial image s) :
    ∃ p, s.heap.startSlab = p ∧ s.heap.slabFreeList = image.l1 ∧ s.heap.pageHeader = [] ∧
      HeapInv s [p] [pageExtent p] [] [] := by
  obtain ⟨init, small, large, held⟩ := initial
  have kernel : KernelInv ⟨kmallocInit, []⟩ := ⟨kernelInit_inv, .refl _⟩
  obtain ⟨area, page, got, inv⟩ := kernel.getPage_spec (maxOrder - 1)
  simp only [slabInit, got, ok_bind] at init
  cases page with
  | none => cases init
  | some p =>
    obtain ⟨heap, small', large', held'⟩ := s
    subst small large held
    cases init
    refine ⟨p, rfl, rfl, rfl, ⟨?_, inv, by simp, image.below⟩, ?_, ?_⟩
    · exact HeapRep.addPage ⟨area, _, image.l1, p, []⟩ (emptyRing image.mem) inv image.below
    · exact .nil
    · exact .nil

/-! ## Runs on one page -/

/-- Some block of the free list is large enough. -/
def fits (heap : Heap) (sizeN : ℕ) : Bool :=
  match firstFit heap sizeN with
  | .ok (some _) => true
  | _ => false

/-- Requests that the first page serves. -/
def OnePage (s : HeapClient) : HeapRequest → Prop
  | .kmalloc size => 1 ≤ size ∧ size ≤ 4079 ∧ fits s.heap (sizeUnits size.toNat) = true
  | .kfree _ => True
  | _ => False

def SlabStep (s : HeapClient) (r : HeapRequest) (t : HeapClient) : Prop :=
  HeapStep s r t ∧ OnePage s r

/-- The request does not cut a block one unit before its end. -/
def NoSliver (s : HeapClient) : HeapRequest → Prop
  | .kmalloc size => leavesSliver s.heap (sizeUnits size.toNat) = false
  | _ => True

structure OnePageInv (s : HeapClient) (free live : List Extent) : Prop where
  inv : HeapInv s [s.heap.startSlab] free live []
  headers : s.heap.pageHeader = []

namespace OnePageInv

theorem initial {image : KernelImage} (init : HeapInitial image s) :
    OnePageInv s [pageExtent s.heap.startSlab] [] := by
  obtain ⟨p, start, _, headers, inv⟩ := init.inv
  subst start
  exact ⟨inv, headers⟩

section

variable (h : OnePageInv s free live)

include h

/-- The only block that starts a page is the first one. -/
theorem not_extra {b : Extent} (hb : b ∈ live) : ¬ ExtraPage s.heap (rejoin free b).2 := by
  intro extra
  exact extra.1 (mem_singleton.mp (h.inv.extra_mem hb extra))

theorem fits_some {n : ℕ} (fit : fits s.heap n = true) :
    ∃ b, free.find? (fun b => n * slabUnit ≤ b.len) = some b := by
  have found := h.inv.rep.rep.firstFit_spec n
  cases pick : free.find? (fun b => n * slabUnit ≤ b.len) with
  | some b => exact ⟨b, rfl⟩
  | none => simp [fits, found, pick] at fit

theorem step {r : HeapRequest} (step : SlabStep s r t) (noSliver : NoSliver s r) :
    ∃ free' live', OnePageInv t free' live' ∧ ∀ b ∈ live, r ≠ .kfree (payload b) → b ∈ live' := by
  obtain ⟨⟨legal, depth, done⟩, onePage⟩ := step
  cases r with
  | kmalloc size =>
    obtain ⟨lower, upper, fit⟩ := onePage
    have small : size.toNat + slabHeader < pageSize := by
      simp only [slabHeader, pageSize]
      omega
    have careful : Careful s.heap (.kmalloc size) := fun _ _ => by
      rw [requestUnits, if_pos small]
      exact noSliver
    obtain ⟨same, cases'⟩ := h.inv.kmalloc_small (by omega) small careful done
    obtain ⟨b, pick⟩ := h.fits_some fit
    cases cases' with
    | inl taken =>
      obtain ⟨c, _, _, _, inv⟩ := taken
      rw [← same.startSlab] at inv
      exact ⟨_, _, ⟨inv, same.pageHeader.trans h.headers⟩, fun b hb _ => mem_cons_of_mem _ hb⟩
    | inr grown =>
      obtain ⟨_, none, _⟩ := grown
      rw [pick] at none
      cases none
  | kfree p =>
    have large : s.large = [] := by
      have := h.inv.large
      rw [h.headers] at this
      exact this.symm.eq_nil
    have held : p ∈ s.small := by
      cases legal with
      | inl held => exact held
      | inr held => simp [large] at held
    obtain ⟨b, hb, rfl⟩ := h.inv.pointer_live held
    obtain ⟨_, t', _, _, same, done', _, inv⟩ :=
      h.inv.kfree_small hb held ((h.inv.careful_kfree hb).mpr (h.not_extra hb)) depth
    rw [done] at done'
    cases done'
    rw [← same.startSlab] at inv
    refine ⟨_, _, ⟨inv, same.pageHeader.trans h.headers⟩, fun c hc other => ?_⟩
    exact (mem_erase_of_ne fun eq => other (by rw [eq])).mpr hc
  | getPage order => exact onePage.elim
  | freePage block => exact onePage.elim

end

end OnePageInv

def InOnePage (s : HeapClient) : Prop := ∃ free live, OnePageInv s free live

theorem InOnePage.of_run {image : KernelImage} {s0 : HeapClient} {events : List HeapRequest}
    (init : HeapInitial image s0)
    (run : Run (fun s r t => SlabStep s r t ∧ NoSliver s r) s0 events s) : InOnePage s := by
  refine run.invariant (fun u r v inv step => ?_) ⟨_, _, .initial init⟩
  obtain ⟨free, live, h⟩ := inv
  obtain ⟨free', live', h', _⟩ := h.step step.1 step.2
  exact ⟨free', live', h'⟩

/-- The blocks of the heap, as memory has them. -/
def slabBlocks (s : HeapClient) : List Extent := freeSlabs s.heap ++ liveSlabs s.heap s.small

/-- Every block holds its own header, and the blocks fill the first page. -/
structure SlabIntact (s : HeapClient) : Prop where
  header : ∀ b ∈ slabBlocks s, slabHeader ≤ b.len
  tiling : Partition (pageExtent s.heap.startSlab).Has (slabBlocks s)

theorem OnePageInv.intact (h : OnePageInv s free live) : SlabIntact s := by
  have pointers := h.inv.pointers
  rw [h.headers, map_nil, append_nil] at pointers
  have perm : (free ++ [] ++ live).Perm (slabBlocks s) := by
    rw [append_nil, slabBlocks, h.inv.rep.rep.freeSlabs_eq]
    exact (h.inv.rep.rep.liveSlabs_perm pointers).symm.append_left free
  refine ⟨fun b hb => h.inv.rep.rep.header b (perm.mem_iff.mpr hb), ?_⟩
  have page : InPages [s.heap.startSlab] = (pageExtent s.heap.startSlab).Has := by
    funext a
    simp [InPages, Extent.Has, pageExtent]
  rw [← page]
  exact h.inv.rep.rep.partition.perm perm

/-- In every run that leaves no rest of one unit, the page is intact, and a request changes
    the size and status words of no live block but the one it frees. -/
theorem slab_page_intact {image : KernelImage} {s0 : HeapClient} {events : List HeapRequest}
    (init : HeapInitial image s0)
    (run : Run (fun s r t => SlabStep s r t ∧ NoSliver s r) s0 events s) :
    SlabIntact s ∧
    ∀ r t, SlabStep s r t → NoSliver s r → ∀ p ∈ s.small, r ≠ .kfree p →
      t.heap.mem.size (p - slabHeader) = s.heap.mem.size (p - slabHeader) ∧
      t.heap.mem.status (p - slabHeader) = s.heap.mem.status (p - slabHeader) := by
  obtain ⟨free, live, h⟩ := InOnePage.of_run init run
  refine ⟨h.intact, fun r t step noSliver p hp other => ?_⟩
  obtain ⟨b, hb, rfl⟩ := h.inv.pointer_live hp
  obtain ⟨free', live', h', kept⟩ := h.step step noSliver
  have hb' := kept b hb other
  -- both states determine the two words from the same block
  have size := h.inv.rep.rep.size b (by simp [hb])
  have size' := h'.inv.rep.rep.size b (by simp [hb'])
  rw [payload, Nat.add_sub_cancel, h.inv.rep.rep.status b hb, h'.inv.rep.rep.status b hb']
  simp only [slabUnit] at size size'
  exact ⟨by omega, rfl⟩

/-! ## Runs that are executed -/

instance (s : HeapClient) : DecidablePred (HeapLegal s)
  | .kmalloc _ | .getPage _ => inferInstanceAs (Decidable True)
  | .kfree _ => inferInstanceAs (Decidable (_ ∨ _))
  | .freePage _ => inferInstanceAs (Decidable (_ ∈ _))

instance (s : HeapClient) : DecidablePred (OnePage s)
  | .kmalloc _ => inferInstanceAs (Decidable (_ ∧ _ ∧ _))
  | .kfree _ => inferInstanceAs (Decidable True)
  | .getPage _ | .freePage _ => inferInstanceAs (Decidable False)

instance (s : HeapClient) : DecidablePred (NoSliver s)
  | .kmalloc _ => inferInstanceAs (Decidable (_ = _))
  | .kfree _ | .getPage _ | .freePage _ => inferInstanceAs (Decidable True)

/-- Executes legal requests that satisfy a further condition. -/
def heapRun (Allowed : HeapClient → HeapRequest → Prop) [∀ s r, Decidable (Allowed s r)] (s : HeapClient) :
    List HeapRequest → Option HeapClient :=
  attempt (fun s r => HeapLegal s r ∧ Allowed s r) (fun s r => (heapExec 1 s r).toOption) s

def exampleImage : KernelImage := ⟨0x400000, fun _ => 0, by decide⟩

/-- Executes the requests in the initial heap. -/
def bootRun (Allowed : HeapClient → HeapRequest → Prop) [∀ s r, Decidable (Allowed s r)]
    (requests : List HeapRequest) (test : HeapClient → Bool) : Bool :=
  okAnd (slabInit kmallocInit (fun _ => 0) 0x400000) fun heap =>
    (heapRun Allowed ⟨heap, [], [], []⟩ requests).any test

section

variable {Allowed : HeapClient → HeapRequest → Prop} [∀ s r, Decidable (Allowed s r)] {test : HeapClient → Bool}
  {requests : List HeapRequest}

theorem exists_heapRun (found : (heapRun Allowed s requests).any test = true) :
    ∃ t, Run (fun s r t => HeapStep s r t ∧ Allowed s r) s requests t ∧ test t = true :=
  exists_run _ (fun _ _ _ pass done => ⟨⟨pass.1, 1, toOption_eq_some.mp done⟩, pass.2⟩) found

theorem exists_bootRun (found : bootRun Allowed requests test = true) : ∃ s0 s, HeapInitial exampleImage s0 ∧
    Run (fun s r t => HeapStep s r t ∧ Allowed s r) s0 requests s ∧ test s = true := by
  obtain ⟨heap, init, executed⟩ := okAnd_iff.mp found
  exact ⟨⟨heap, [], [], []⟩, _, ⟨init, rfl, rfl, rfl⟩, (exists_heapRun executed).choose_spec⟩

end

/-- Two blocks of four units, the first of them freed, and one of three units cut from the
    end of the page. -/
theorem slab_page_intact_example : ∃ s0 s t, HeapInitial exampleImage s0 ∧
    Run (fun s r t => SlabStep s r t ∧ NoSliver s r) s0
      [.kmalloc 9, .kmalloc 9, .kfree 0x800010] s ∧
    SlabStep s (.kmalloc 1) t ∧ NoSliver s (.kmalloc 1) ∧ SlabIntact s ∧
    t.heap.mem.size 0x800020 = s.heap.mem.size 0x800020 := by
  have executed : bootRun (fun s r => OnePage s r ∧ NoSliver s r) [.kmalloc 9, .kmalloc 9, .kfree 0x800010]
      (fun s => 0x800030 ∈ s.small &&
        (heapRun (fun s r => OnePage s r ∧ NoSliver s r) s [.kmalloc 1]).any fun _ => true) = true := by
    decide +kernel
  obtain ⟨s0, s, initial, run, passed⟩ := exists_bootRun executed
  obtain ⟨held, last⟩ := Bool.and_eq_true_iff.mp passed
  obtain ⟨t, _ | ⟨⟨step, page, noSliver⟩, ⟨⟩⟩, -⟩ := exists_heapRun last
  simp only [← and_assoc] at run
  obtain ⟨intact, kept⟩ := slab_page_intact initial run
  exact ⟨s0, s, t, initial, run, ⟨step, page⟩, noSliver, intact,
    (kept _ t ⟨step, page⟩ noSliver 0x800030 (of_decide_eq_true held) (by simp)).1⟩

/-- The block of three units that follows is cut from the freed one: the header of the unit
    that remains at `0x800018` reaches into the live block at `0x800020` and overwrites its
    size and its status. -/
theorem slab_page_overwritten : ∃ s0 s t, HeapInitial exampleImage s0 ∧
    Run SlabStep s0 [.kmalloc 9, .kmalloc 9, .kfree 0x800010, .kmalloc 1] s ∧
    SlabStep s (.kmalloc 1) t ∧ ⟨0x800018, 8⟩ ∈ slabBlocks t ∧
    0x800030 ∈ s.small ∧ s.heap.mem.size 0x800020 = 4 ∧ s.heap.mem.status 0x800020 = 1 ∧
    t.heap.mem.size 0x800020 = 0x800058 ∧ t.heap.mem.status 0x800020 = 0x400000 := by
  have executed : bootRun OnePage [.kmalloc 9, .kmalloc 9, .kfree 0x800010, .kmalloc 1] (fun s =>
      (heapRun OnePage s [.kmalloc 1]).any fun t => ⟨0x800018, 8⟩ ∈ slabBlocks t ∧
        0x800030 ∈ s.small ∧ s.heap.mem.size 0x800020 = 4 ∧ s.heap.mem.status 0x800020 = 1 ∧
        t.heap.mem.size 0x800020 = 0x800058 ∧ t.heap.mem.status 0x800020 = 0x400000) = true := by
    decide +kernel
  obtain ⟨s0, s, initial, run, last⟩ := exists_bootRun executed
  obtain ⟨t, _ | ⟨step, ⟨⟩⟩, words⟩ := exists_heapRun last
  exact ⟨s0, s, t, initial, run, step, of_decide_eq_true words⟩

end Illinix.Verified.Slab
