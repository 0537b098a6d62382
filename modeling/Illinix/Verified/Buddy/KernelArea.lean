import Illinix.Verified.Buddy.Clients

/-! # The kernel area

Every run of `get_page` and `free_page` from the lists that `kmalloc_init` builds keeps
the blocks a tiling of `[8 MB, 64 MB)`, keeps the bitmaps in step with the free lists,
and never faults.  Since a coalesced family of cells is determined by the pages it
covers, the free lists depend only on the blocks that are held, not on the history. -/

namespace Illinix.Verified.Buddy

open Kernel List
open Lib (Run ok_bind bind_eq_ok)
open Lib.Dyadic (Cell Tiles Coalesced Region)

/-! ## Blocks and bytes -/

def Block.Has (b : Block) (a : ℕ) : Prop := b.addr ≤ a ∧ a < b.addr + blockSize b.order

def freeBlocks (area : FreeArea) : List Block :=
  (List.range (maxOrder + 1)).flatMap fun o => (area.freeList o).map fun b => ⟨o, b.addr⟩

/-- The blocks on the free lists together with the blocks held by clients. -/
def blocks (s : Client) : List Block := freeBlocks s.area ++ s.held

variable {area : FreeArea} {n : ℕ} {held : Cell → Prop} {heldBlocks : List Block} {s u : Client}

theorem has_page_iff {start a : ℕ} (le : start ≤ a) (c : Cell) : c.Has ((a - start) / pageSize) ↔
      blockAddr start c ≤ a ∧ a < blockAddr start c + blockSize c.order := by
  have positive := blockSize_pos c.order
  rw [Cell.Has, Nat.div_div_eq_div_mul, ← blockSize, Nat.div_eq_iff positive, blockAddr]
  omega

theorem mem_freeBlocks (inv : AreaInv area n held noneWrong) (b : Block) :
    b ∈ freeBlocks area ↔ ∃ i, b.addr = blockAddr area.startAddr ⟨b.order, i⟩ ∧
      isFree area ⟨b.order, i⟩ = true := by
  obtain ⟨o, a⟩ := b
  simp only [freeBlocks, mem_flatMap, mem_range, mem_map, Block.mk.injEq]
  constructor
  · rintro ⟨o', _, node, hnode, rfl, rfl⟩
    obtain ⟨i, addr⟩ := inv.nodes o' node hnode
    exact ⟨i, addr, isFree_iff.mpr ⟨node, hnode, addr⟩⟩
  · rintro ⟨i, addr, free⟩
    obtain ⟨node, hnode, nodeAddr⟩ := isFree_iff.mp free
    have := inv.tiles.order_le _ (.inl free)
    exact ⟨o, by simp only at this; omega, node, hnode, rfl, nodeAddr.trans addr.symm⟩

theorem freeBlocks_nodup (inv : AreaInv area n held noneWrong) : (freeBlocks area).Nodup := by
  refine nodup_flatMap.mpr ⟨fun o _ => ?_, ?_⟩
  · have : ((area.freeList o).map fun b => Block.mk o b.addr) =
        ((area.freeList o).map Buddy.addr).map (Block.mk o) := by simp
    rw [this]
    exact (inv.nodup o).map fun x y h => by simpa using h
  · refine nodup_range.imp fun {x y} ne => ?_
    simp only [Function.onFun, disjoint_left, mem_map]
    rintro b ⟨node, _, rfl⟩ ⟨node', _, same⟩
    exact ne (congrArg Block.order same).symm

theorem mem_blocks (inv : ClientInv n s) (b : Block) :
    b ∈ blocks s ↔ ∃ i, b.addr = blockAddr s.area.startAddr ⟨b.order, i⟩ ∧
      (isFree s.area ⟨b.order, i⟩ = true ∨ HeldCell s ⟨b.order, i⟩) := by
  rw [blocks, mem_append, mem_freeBlocks inv.area]
  constructor
  · rintro (⟨i, addr, free⟩ | member)
    · exact ⟨i, addr, .inl free⟩
    · obtain ⟨_, i, addr⟩ := inv.aligned b member
      exact ⟨i, addr, .inr (by rw [HeldCell, ← addr]; exact member)⟩
  · rintro ⟨i, addr, free | member⟩
    · exact .inl ⟨i, addr, free⟩
    · rw [HeldCell, ← addr] at member
      exact .inr member

theorem blocks_nodup (inv : ClientInv n s) : (blocks s).Nodup := by
  refine List.Nodup.append (freeBlocks_nodup inv.area) inv.nodup ?_
  intro b free member
  obtain ⟨i, addr, hfree⟩ := (mem_freeBlocks inv.area b).mp free
  exact inv.area.unheld _ hfree (by rw [HeldCell, ← addr]; exact member)

theorem blocks_cover (inv : ClientInv n s) {a : ℕ} (lower : s.area.startAddr ≤ a)
    (upper : a < s.area.startAddr + n * pageSize) : ∃! b, b ∈ blocks s ∧ b.Has a := by
  have page : (a - s.area.startAddr) / pageSize < n := by
    rw [Nat.div_lt_iff_lt_mul (by decide)]
    omega
  obtain ⟨c, member, has⟩ := inv.area.tiles.cover _ page
  refine ⟨⟨c.order, blockAddr s.area.startAddr c⟩, ⟨?_, (has_page_iff lower c).mp has⟩, ?_⟩
  · exact (mem_blocks inv _).mpr ⟨c.index, rfl, member⟩
  · rintro b ⟨hb, hbHas⟩
    obtain ⟨i, addr, hmember⟩ := (mem_blocks inv b).mp hb
    have hhas := (has_page_iff lower ⟨b.order, i⟩).mpr (by rw [← addr]; exact hbHas)
    have same := inv.area.tiles.disjoint _ _ _ hmember member hhas has
    rw [← same, ← addr]

/-! ## The free lists are a function of the held blocks -/

theorem region_iff (inv : ClientInv n s) (p : ℕ) :
    Region (fun c => isFree s.area c = true) p ↔ p < n ∧ ∀ c, HeldCell s c → ¬ c.Has p := by
  constructor
  · rintro ⟨c, free, has⟩
    refine ⟨inv.area.tiles.inside c (.inl free) p has, fun d hd hdp => ?_⟩
    have same := inv.area.tiles.disjoint c d p (.inl free) (.inr hd) has hdp
    exact inv.area.unheld c free (same ▸ hd)
  · rintro ⟨lt, unheld⟩
    obtain ⟨c, member, has⟩ := inv.area.tiles.cover p lt
    cases member with
    | inl free => exact ⟨c, free, has⟩
    | inr held => exact absurd has (unheld c held)

section

variable (first : ClientInv n s) (second : ClientInv n u) (geometry : SameGeometry s.area u.area)
  (same : ∀ b, b ∈ u.held ↔ b ∈ s.held)

include first second geometry same

theorem isFree_determined (c : Cell) :
    isFree u.area c = isFree s.area c := by
  have cells : ∀ c, HeldCell u c ↔ HeldCell s c := fun c => by
    rw [HeldCell, HeldCell, same, geometry.startAddr]
  have regions : ∀ p, Region (fun c => isFree u.area c = true) p ↔
      Region (fun c => isFree s.area c = true) p := fun p => by
    simp only [region_iff first, region_iff second, cells]
  rw [Bool.eq_iff_iff]
  exact second.area.coalesced.unique first.area.coalesced regions c

theorem freeBlocks_determined : (freeBlocks u.area).Perm (freeBlocks s.area) := by
  rw [perm_ext_iff_of_nodup (freeBlocks_nodup second.area) (freeBlocks_nodup first.area)]
  intro b
  simp only [mem_freeBlocks first.area, mem_freeBlocks second.area, geometry.startAddr,
    isFree_determined first second geometry same]

theorem bitMap_determined {o w : ℕ} (ho : o < maxOrder) (hw : w < s.area.bmsize o) :
    u.area.bitMap o w = s.area.bitMap o w := by
  refine BitVec.eq_of_getLsbD_eq fun k hk => ?_
  have word : (32 * w + k) / 32 = w := by omega
  have position : (32 * w + k) % 32 = k := by omega
  have left := second.area.bits o (32 * w + k) ho (by rw [word, geometry.bmsize]; exact hw)
  have right := first.area.bits o (32 * w + k) ho (by rw [word]; exact hw)
  have free := isFree_determined first second geometry same
  simp only [bit, pairFree, word, position] at left right
  rw [left, right, free, free]

end

/-! ## Runs from `kmalloc_init` -/

def kernelInit : Client := ⟨kmallocInit, []⟩

/-- The pages of `[8 MB, 64 MB)`. -/
def kernelAreaPages : ℕ := (kernelPages - reservedPages) * pageSize4MB / pageSize

theorem bmsizeInit_widening : Widening bmsizeInit := by
  refine Widening.of_double fun o ho => ?_
  have : o < 10 := by simp only [maxOrder] at ho; omega
  interval_cases o <;> decide

theorem bmsizeInit_inBounds {o page : ℕ} (below : o < maxOrder) (inside : page < kernelAreaPages) :
    page / 2 ^ (o + 1) / 32 < bmsizeInit o := by
  have : o < 11 := below
  have pages : page < 14336 := inside
  interval_cases o <;> simp [bmsizeInit, maxOrder, maxBmsize] <;> omega

theorem blockSize_dvd_start {o : ℕ} (le : o ≤ maxOrder) :
    blockSize o ∣ reservedPages * pageSize4MB := by
  exact Nat.mul_dvd_mul_left _ (pow_dvd_pow 2 le)

theorem kernelInit_bmsize : kmallocInit.bmsize = bmsizeInit := by
  rw [kmallocInit, foldl_keeps FreeArea.bmsize]
  exact fun _ _ => rfl

theorem bitMap_kmallocInit (o w : ℕ) : kmallocInit.bitMap o w = 0 := by
  rw [kmallocInit, foldl_keeps FreeArea.bitMap]
  exact fun _ _ => rfl

theorem kernelInit_startAddr : kmallocInit.startAddr = reservedPages * pageSize4MB := by
  rw [kmallocInit, foldl_keeps FreeArea.startAddr]
  exact fun _ _ => rfl

theorem kernelInit_inv : ClientInv kernelAreaPages kernelInit := by
  have top : (kmallocInit.freeList maxOrder).map Buddy.addr =
      (range 7).map fun i => blockAddr kmallocInit.startAddr ⟨maxOrder, i⟩ := by
    exact foldl_freeList_top (fun area i => by simp) _ _
  refine initial_inv ?_ top ?_ ?_ ?_ ?_
  · intro o ho
    exact foldl_keeps (fun area => area.freeList o) (fun area i => freeListPush_of_ne _ _ ho) _ _
  · -- each node is pushed at the address of its block
    intro _
    apply foldlRecOn (motive := fun area : FreeArea => ∀ b ∈ area.freeList maxOrder, b.ptr = b.addr)
    · intro b hb
      cases hb
    · intro area placed i _ b hb
      rw [freeListPush_self, mem_append, mem_singleton] at hb
      cases hb with
      | inl old => exact placed b old
      | inr new => rw [new]
  · exact bitMap_kmallocInit
  · rw [kernelInit_startAddr]
    norm_num [reservedPages, pageSize4MB, pageSize, maxOrder]
  · exact bmsizeInit_widening

/-- The area stays where `kmalloc_init` put it, and every request is inside its bitmaps. -/
structure KernelInv (s : Client) : Prop where
  client : ClientInv kernelAreaPages s
  geometry : SameGeometry kmallocInit s.area

namespace KernelInv

theorem inBounds (inv : KernelInv s) {r : Request} (legal : Legal s r) : InBounds s.area r := by
  have page : ∀ {o : ℕ} {c : Cell}, o < maxOrder → (isFree s.area c = true ∨ HeldCell s c) →
      PairInBounds s.area o (blockAddr s.area.startAddr c) := by
    intro o c below member
    rw [pairInBounds_iff (inv.client.area.addr_lt member), inv.geometry.bmsize, kernelInit_bmsize]
    exact bmsizeInit_inBounds below (inv.client.area.tiles.inside c member _ c.has_first)
  cases r with
  | get order =>
    intro nonneg lt i b pick
    obtain ⟨_, node⟩ := chosen_mem pick
    obtain ⟨x, addr⟩ := inv.client.area.nodes i b node
    rw [addr]
    exact page (by omega) (.inl (isFree_iff.mpr ⟨b, node, addr⟩))
  | free block =>
    obtain ⟨below, x, addr⟩ := inv.client.aligned block legal
    rw [InBounds, addr]
    exact page below (.inr (by rw [HeldCell, ← addr]; exact legal))

theorem exec_ok (inv : KernelInv s) {r : Request} (legal : Legal s r) :
    ∃ t, exec s r = .ok t ∧ KernelInv t := by
  obtain ⟨t, done, client, geometry⟩ := exec_spec inv.client legal (inv.inBounds legal)
  exact ⟨t, done, client, inv.geometry.trans geometry⟩

theorem of_run {events : List Request} (run : Run Step kernelInit events s) : KernelInv s := by
  refine run.invariant (fun t r u inv step => ?_) ⟨kernelInit_inv, .refl _⟩
  obtain ⟨v, done, inv'⟩ := inv.exec_ok step.1
  rw [step.2] at done
  cases done
  exact inv'

section

variable (inv : KernelInv s)

include inv

theorem startAddr : s.area.startAddr = reservedPages * pageSize4MB := by
  rw [inv.geometry.startAddr, kernelInit_startAddr]

theorem areaEnd :
    s.area.startAddr + kernelAreaPages * pageSize = kernelPages * pageSize4MB := by
  rw [inv.startAddr]
  norm_num [kernelAreaPages, kernelPages, reservedPages, pageSize4MB, pageSize]

theorem mem_block {b : Block} (hb : b ∈ blocks s) : reservedPages * pageSize4MB ≤ b.addr ∧
      b.addr + blockSize b.order ≤ kernelPages * pageSize4MB ∧ blockSize b.order ∣ b.addr := by
  obtain ⟨i, addr, member⟩ := (mem_blocks inv.client b).mp hb
  have last := inv.client.area.end_le member
  have order := inv.client.area.tiles.order_le _ member
  rw [inv.areaEnd, ← addr] at last
  rw [addr, blockAddr, inv.startAddr] at last ⊢
  exact ⟨Nat.le_add_right _ _, last, Nat.dvd_add (blockSize_dvd_start order) (Nat.dvd_mul_left _ _)⟩

theorem pair_free {o j : ℕ} :
    (isFree s.area ⟨o, 2 * j⟩ = true ↔ ⟨o, blockAddr s.area.startAddr ⟨o + 1, j⟩⟩ ∈ freeBlocks s.area) ∧
    (isFree s.area ⟨o, 2 * j + 1⟩ = true ↔
      ⟨o, blockAddr s.area.startAddr ⟨o + 1, j⟩ + blockSize o⟩ ∈ freeBlocks s.area) := by
  rw [mem_freeBlocks inv.client.area, mem_freeBlocks inv.client.area, ← blockAddr_right, ← blockAddr_left]
  simp [blockAddr_inj]

theorem user : s.area.user = false := by
  rw [inv.geometry.user, kmallocInit, foldl_keeps FreeArea.user]
  exact fun _ _ => rfl

end

/-- `get_page` on an area whose blocks `held` are taken. -/
theorem getPage_spec (inv : KernelInv ⟨area, heldBlocks⟩) (order : ℤ) :
    ∃ area' r, getPage area order = .ok (area', r) ∧
      KernelInv ⟨area', r.toList.map (Block.mk order.toNat) ++ heldBlocks⟩ := by
  obtain ⟨t, done, inv'⟩ := inv.exec_ok (r := .get order) trivial
  have kernel : area.user = false := inv.user
  simp only [exec, getBlock, kernel, bind_eq_ok] at done
  obtain ⟨⟨area', r⟩, got, rest⟩ := done
  refine ⟨area', r, got, ?_⟩
  cases r with
  | none =>
    cases rest
    exact inv'
  | some p =>
    cases rest
    exact inv'

theorem freePage_spec {b : Block} (inv : KernelInv ⟨area, b :: heldBlocks⟩) :
    ∃ area', freePage area b.addr b.order = .ok area' ∧ KernelInv ⟨area', heldBlocks⟩ := by
  obtain ⟨t, done, inv'⟩ := inv.exec_ok (r := .free b) (mem_cons_self ..)
  have kernel : area.user = false := inv.user
  simp only [exec, freeBlock, kernel, bind_eq_ok, erase_cons_head] at done
  obtain ⟨area', freed, rest⟩ := done
  cases rest
  exact ⟨area', freed, inv'⟩

theorem perm (inv : KernelInv ⟨area, heldBlocks⟩) {heldBlocks' : List Block}
    (h : heldBlocks.Perm heldBlocks') : KernelInv ⟨area, heldBlocks'⟩ := by
  refine ⟨⟨inv.client.area.congr_held fun c => ?_, h.nodup_iff.mp inv.client.nodup,
    fun b hb => inv.client.aligned b (h.mem_iff.mpr hb), inv.client.widening⟩, inv.geometry⟩
  exact h.mem_iff.symm

theorem eq_of_has (inv : KernelInv s) {b c : Block} (hb : b ∈ blocks s) (hc : c ∈ blocks s) {a : ℕ}
    (hba : b.Has a) (hca : c.Has a) : b = c := by
  have inside := inv.mem_block hb
  obtain ⟨_, _, unique⟩ := blocks_cover inv.client (a := a)
    (by rw [inv.startAddr]; exact inside.1.trans hba.1)
    (by rw [inv.areaEnd]; exact hba.2.trans_le inside.2.1)
  rw [unique b ⟨hb, hba⟩, unique c ⟨hc, hca⟩]

end KernelInv

/-- The bit of the pair at `a` is the exclusive or of its two blocks being free, and the
    two are never both free. -/
def PairInStep (area : FreeArea) (o a : ℕ) : Prop :=
  (bit area o ((a - area.startAddr) / blockSize (o + 1)) = true ↔
    Xor (⟨o, a⟩ ∈ freeBlocks area) (⟨o, a + blockSize o⟩ ∈ freeBlocks area)) ∧
  ¬ (⟨o, a⟩ ∈ freeBlocks area ∧ ⟨o, a + blockSize o⟩ ∈ freeBlocks area)

/-- What holds between two requests. -/
structure KernelBuddySafe (s : Client) : Prop where
  nodup : (blocks s).Nodup
  inside : ∀ b ∈ blocks s, reservedPages * pageSize4MB ≤ b.addr ∧
    b.addr + blockSize b.order ≤ kernelPages * pageSize4MB
  /-- every byte of `[8 MB, 64 MB)` lies in exactly one block. -/
  tiling : ∀ a, reservedPages * pageSize4MB ≤ a → a < kernelPages * pageSize4MB →
    ∃! b, b ∈ blocks s ∧ b.Has a
  aligned : ∀ b ∈ blocks s, blockSize b.order ∣ b.addr
  pairs : ∀ o a, o < maxOrder → reservedPages * pageSize4MB ≤ a → a < kernelPages * pageSize4MB →
    blockSize (o + 1) ∣ a → PairInStep s.area o a
  /-- a request runs to its end: its bitmap accesses are inside the `bmsize` words of
      their order and `remove_from_free` finds the buddy. -/
  faultFree : ∀ r, Legal s r → ∃ t, exec s r = .ok t

theorem KernelInv.pairs (inv : KernelInv s) {o a : ℕ} (below : o < maxOrder)
    (lower : reservedPages * pageSize4MB ≤ a) (upper : a < kernelPages * pageSize4MB)
    (aligned : blockSize (o + 1) ∣ a) : PairInStep s.area o a := by
  obtain ⟨j, offset⟩ := Nat.dvd_sub aligned (blockSize_dvd_start below)
  have addr : a = blockAddr s.area.startAddr ⟨o + 1, j⟩ := by
    rw [blockAddr, inv.startAddr, Nat.mul_comm j, ← offset, Nat.add_sub_cancel' lower]
  have page : j * 2 ^ (o + 1) < kernelAreaPages := by
    have last := inv.areaEnd
    rw [inv.startAddr] at last
    have : j * 2 ^ (o + 1) * pageSize < kernelAreaPages * pageSize := by
      calc j * 2 ^ (o + 1) * pageSize = a - reservedPages * pageSize4MB := by
            rw [offset, blockSize]; ring
        _ < kernelAreaPages * pageSize := by omega
    exact Nat.lt_of_mul_lt_mul_right this
  have word : j / 32 < s.area.bmsize o := by
    rw [inv.geometry.bmsize, kernelInit_bmsize]
    have := bmsizeInit_inBounds below page
    rwa [Nat.mul_div_cancel _ (by positivity)] at this
  have bits := inv.client.area.bits o j below word
  have apart := inv.client.area.apart o j below
  rw [PairInStep, inv.startAddr, offset, Nat.mul_div_cancel_left _ (blockSize_pos _), bits, addr,
    ← inv.pair_free.1, ← inv.pair_free.2]
  refine ⟨?_, apart⟩
  simp only [pairFree, noneWrong, Bool.xor_false, Xor]
  cases isFree s.area ⟨o, 2 * j⟩ <;> cases isFree s.area ⟨o, 2 * j + 1⟩ <;> simp

/-- The invariant of the kernel's buddy allocator over every run of its clients. -/
theorem kernel_buddy_safe {events : List Request} (run : Run Step kernelInit events s) :
    KernelBuddySafe s := by
  have inv := KernelInv.of_run run
  refine ⟨blocks_nodup inv.client, fun b hb => ?_, fun a lower upper => ?_, fun b hb => ?_,
    fun o a below lower upper aligned => inv.pairs below lower upper aligned, fun r legal => ?_⟩
  · exact ⟨(inv.mem_block hb).1, (inv.mem_block hb).2.1⟩
  · rw [← inv.areaEnd] at upper
    rw [← inv.startAddr] at lower
    exact blocks_cover inv.client lower upper
  · exact (inv.mem_block hb).2.2
  · obtain ⟨t, done, _⟩ := inv.exec_ok legal
    exact ⟨t, done⟩

/-- Two requests of different orders, with what is held afterwards. -/
theorem kernel_buddy_safe_example : ∃ s, Run Step kernelInit [.get 0, .get 3] s ∧
    s.held = [⟨3, 0x808000⟩, ⟨0, 0x800000⟩] ∧ KernelBuddySafe s := by
  have run : ∀ s, exec kernelInit (.get 0) >>= (exec · (.get 3)) = .ok s →
      Run Step kernelInit [.get 0, .get 3] s := by
    intro s done
    obtain ⟨t, first, second⟩ := bind_eq_ok.mp done
    exact .cons ⟨trivial, first⟩ (.cons ⟨trivial, second⟩ (.nil _))
  have := run _ rfl
  exact ⟨_, this, by decide, kernel_buddy_safe this⟩

theorem getPage_none {order : ℤ} {area' : FreeArea} (done : getPage area order = .ok (area', none)) :
    area' = area ∧ (¬ (order ≥ maxOrder ∨ order < 0) → ∀ o ∈ ordersFrom order.toNat, area.freeList o = []) := by
  by_cases outside : order ≥ maxOrder ∨ order < 0
  · rw [getPage, if_pos outside] at done
    cases done
    exact ⟨rfl, absurd outside⟩
  · rw [getPage, if_neg outside] at done
    obtain ⟨⟨area1, found⟩, loop, result⟩ := bind_eq_ok.mp done
    cases pick : chosen area (ordersFrom order.toNat) with
    | none =>
      rw [getPageLoop_none order.toNat pick] at loop
      cases loop
      cases result
      exact ⟨rfl, fun _ => freeList_of_chosen_none pick⟩
    | some choice =>
      obtain ⟨rest, _, unrolled⟩ := getPageLoop_some order.toNat pick
      rw [unrolled] at loop
      obtain ⟨split, _, last⟩ := bind_eq_ok.mp loop
      cases last
      cases result

/-! ## Coalescing -/

/-- The seven blocks that `kmalloc_init` indexes. -/
def initialBlocks : List Block :=
  (List.range 7).map fun i => ⟨maxOrder, reservedPages * pageSize4MB + i * (2 * pageSize4MB)⟩

theorem freeBlocks_kmallocInit : freeBlocks kmallocInit = initialBlocks := by decide

/-- Two states of the kernel area with the same blocks held. -/
theorem KernelInv.determined (inv : KernelInv s) (inv' : KernelInv u) (same : ∀ b, b ∈ u.held ↔ b ∈ s.held) :
    (freeBlocks u.area).Perm (freeBlocks s.area) ∧
      ∀ o w, o < maxOrder → w < bmsizeInit o → u.area.bitMap o w = s.area.bitMap o w := by
  have geometry : SameGeometry s.area u.area := ⟨inv'.geometry.startAddr.trans inv.geometry.startAddr.symm,
      inv'.geometry.bmsize.trans inv.geometry.bmsize.symm,
      inv'.geometry.user.trans inv.geometry.user.symm⟩
  refine ⟨freeBlocks_determined inv.client inv'.client geometry same, fun o w below word => ?_⟩
  refine bitMap_determined inv.client inv'.client geometry same below ?_
  rwa [inv.geometry.bmsize, kernelInit_bmsize]

theorem KernelInv.getPage_freePage (inv : KernelInv s) {order : ℤ} {area : FreeArea} {p : ℕ}
    (got : getPage s.area order = .ok (area, some p)) :
    ∃ area', freePage area p order.toNat = .ok area' ∧ (freeBlocks area').Perm (freeBlocks s.area) ∧
      ∀ o w, o < maxOrder → w < bmsizeInit o → area'.bitMap o w = s.area.bitMap o w := by
  obtain ⟨area1, r, got', inv'⟩ := inv.getPage_spec order
  rw [got] at got'
  cases got'
  obtain ⟨area', freed, inv2⟩ := inv'.freePage_spec
  exact ⟨area', freed, inv.determined inv2 fun b => .rfl⟩

/-- Giving back what was just obtained restores the free blocks and the bitmaps, and when
    nothing is held any more the area is as `kmalloc_init` built it. -/
theorem kernel_buddy_coalesces {events : List Request} (run : Run Step kernelInit events s) :
    (∀ order area p, getPage s.area order = .ok (area, some p) →
      ∃ area', freePage area p order.toNat = .ok area' ∧
        (freeBlocks area').Perm (freeBlocks s.area) ∧
        ∀ o w, o < maxOrder → w < bmsizeInit o → area'.bitMap o w = s.area.bitMap o w) ∧
    (s.held = [] → (freeBlocks s.area).Perm initialBlocks ∧
      ∀ o w, o < maxOrder → w < bmsizeInit o → s.area.bitMap o w = 0) := by
  have inv := KernelInv.of_run run
  refine ⟨fun order area p got => inv.getPage_freePage got, fun none => ?_⟩
  have initial : KernelInv kernelInit := ⟨kernelInit_inv, .refl _⟩
  obtain ⟨free, bits⟩ := initial.determined inv fun b => by rw [none]; rfl
  refine ⟨freeBlocks_kmallocInit ▸ free, fun o w below word => ?_⟩
  rw [bits o w below word]
  exact bitMap_kmallocInit o w

/-- Two blocks given back in the order they were obtained. -/
theorem kernel_buddy_coalesces_example : ∃ s,
    Run Step kernelInit [.get 0, .get 3, .free ⟨0, 0x800000⟩, .free ⟨3, 0x808000⟩] s ∧
    (freeBlocks s.area).Perm initialBlocks := by
  have run : ∀ t u v w, exec kernelInit (.get 0) = .ok t → exec t (.get 3) = .ok u →
      ⟨0, 0x800000⟩ ∈ u.held → exec u (.free ⟨0, 0x800000⟩) = .ok v →
      ⟨3, 0x808000⟩ ∈ v.held → exec v (.free ⟨3, 0x808000⟩) = .ok w →
      Run Step kernelInit [.get 0, .get 3, .free ⟨0, 0x800000⟩, .free ⟨3, 0x808000⟩] w :=
    fun t u v w first second holds third holds' fourth =>
      .cons ⟨trivial, first⟩ (.cons ⟨trivial, second⟩ (.cons ⟨holds, third⟩
        (.cons ⟨holds', fourth⟩ (.nil _))))
  have := run _ _ _ _ rfl rfl (by decide) rfl (by decide) rfl
  exact ⟨_, this, ((kernel_buddy_coalesces this).2 (by decide)).1⟩

/-- The free blocks and the bitmaps depend on the blocks that are held, not on the requests that led there. -/
theorem buddy_history_irrelevant {events events' : List Request} (run : Run Step kernelInit events s)
    (run' : Run Step kernelInit events' u) (same : ∀ b, b ∈ u.held ↔ b ∈ s.held) :
    (freeBlocks u.area).Perm (freeBlocks s.area) ∧
      ∀ o w, o < maxOrder → w < bmsizeInit o → u.area.bitMap o w = s.area.bitMap o w :=
  (KernelInv.of_run run).determined (KernelInv.of_run run') same

/-- A page is held, with or without a larger block that has been split and merged again. -/
theorem buddy_history_irrelevant_page : ∃ s u, Run Step kernelInit [.get 0] s ∧
    Run Step kernelInit [.get 0, .get 3, .free ⟨3, 0x808000⟩] u ∧ (freeBlocks u.area).Perm (freeBlocks s.area) := by
  have run : ∀ s t u, exec kernelInit (.get 0) = .ok s → exec s (.get 3) = .ok t →
      ⟨3, 0x808000⟩ ∈ t.held → exec t (.free ⟨3, 0x808000⟩) = .ok u → Run Step kernelInit [.get 0] s ∧
        Run Step kernelInit [.get 0, .get 3, .free ⟨3, 0x808000⟩] u :=
    fun s t u first second holds third => ⟨.cons ⟨trivial, first⟩ (.nil _),
      .cons ⟨trivial, first⟩ (.cons ⟨trivial, second⟩ (.cons ⟨holds, third⟩ (.nil _)))⟩
  obtain ⟨short, long⟩ := run _ _ _ rfl rfl (by decide) rfl
  exact ⟨_, _, short, long, (buddy_history_irrelevant short long fun b => .rfl).1⟩

/-- No request fails that could be served: when an aligned block of the area has no byte in common with the
    blocks held, `get_page` returns a block of its order, since free buddies are always merged. -/
theorem get_page_complete {events : List Request} (run : Run Step kernelInit events s) {order i : ℕ}
    (below : order < maxOrder) (inside : (i + 1) * 2 ^ order ≤ kernelAreaPages)
    (unheld : ∀ b ∈ s.held, ∀ a, b.Has a →
      ¬ (Block.mk order (reservedPages * pageSize4MB + i * blockSize order)).Has a) :
    ∃ area p, getPage s.area order = .ok (area, some p) := by
  have inv := KernelInv.of_run run
  have free : ∀ p, (Cell.mk order i).Has p → Region (fun c => isFree s.area c = true) p := by
    intro p has
    have page := (Cell.has_iff _ p).mp has
    refine (region_iff inv.client p).mpr ⟨by simp only at page; omega, fun c held mine => ?_⟩
    -- the first byte of the page is in both blocks
    have lower : s.area.startAddr ≤ s.area.startAddr + p * pageSize := Nat.le_add_right ..
    have number : (s.area.startAddr + p * pageSize - s.area.startAddr) / pageSize = p := by
      rw [Nat.add_sub_cancel_left, Nat.mul_div_cancel _ (by decide)]
    refine unheld _ held _ ((has_page_iff lower c).mp (number.symm ▸ mine)) ?_
    rw [← inv.startAddr]
    exact (has_page_iff lower ⟨order, i⟩).mp (number.symm ▸ has)
  obtain ⟨d, member, large, -⟩ := inv.client.area.coalesced.exists_cover order i below.le free
  obtain ⟨area, r, done, -⟩ := inv.getPage_spec order
  cases r with
  | some p => exact ⟨area, p, done⟩
  | none =>
    have top := inv.client.area.tiles.order_le d (.inl member)
    have empty := (getPage_none done).2 (by omega) d.order (by
      rw [ordersFrom, Int.toNat_natCast, mem_range'_1]
      omega)
    obtain ⟨b, listed, -⟩ := isFree_iff.mp member
    rw [empty] at listed
    cases listed

/-- A page is held, and the block of 4 MB behind the first one is free. -/
theorem get_page_complete_largest : ∃ s, Run Step kernelInit [.get 0] s ∧ s.held = [⟨0, 0x800000⟩] ∧
    ∃ area p, getPage s.area 10 = .ok (area, some p) := by
  have run : ∀ s, exec kernelInit (.get 0) = .ok s → Run Step kernelInit [.get 0] s :=
    fun s done => .cons ⟨trivial, done⟩ (.nil _)
  have := run _ rfl
  refine ⟨_, this, by decide, get_page_complete this (i := 1) (by decide) (by decide) ?_⟩
  intro b held a has mine
  cases mem_singleton.mp held
  simp [Block.Has, blockSize, pageSize, reservedPages, pageSize4MB] at has mine
  omega

end Illinix.Verified.Buddy
