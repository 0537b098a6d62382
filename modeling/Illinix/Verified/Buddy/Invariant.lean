import Illinix.Kernel.Buddy
import Illinix.Lib.Dyadic

/-! # The buddy invariant

A block of order `o` at address `start + i * 4096 * 2 ^ o` is the dyadic cell `⟨o, i⟩` of
pages.  `AreaInv area n held wrong` says that the free cells and the cells in `held` tile
the `n` pages of the area, that no two buddies are both free, and that the bit of each
pair is the parity of its free blocks, except on the pairs marked by `wrong`.  The marks
carry the invariant through `buddy_split` and `_free_page`, which change a free list and
its bit in separate steps. -/

namespace Illinix.Verified.Buddy

open Kernel Function List
open Lib.Dyadic (Cell Tiles Coalesced Region)

/-! ## Block addresses -/

def blockSize (order : ℕ) : ℕ := pageSize * 2 ^ order

def blockAddr (start : ℕ) (c : Cell) : ℕ := start + c.index * blockSize c.order

theorem blockSize_pos (order : ℕ) : 0 < blockSize order := by
  simp [blockSize, pageSize]

theorem blockSize_succ (order : ℕ) : blockSize (order + 1) = 2 * blockSize order := by
  simp only [blockSize, pow_succ]
  ring

theorem buddySize_eq (order : ℕ) : buddySize order = 2 * blockSize order := by
  simp only [buddySize, blockSize, Nat.shiftLeft_eq]
  ring

theorem buddySize_half (order : ℕ) : buddySize order / 2 = blockSize order := by
  rw [buddySize_eq, Nat.mul_div_cancel_left _ (by decide)]

theorem buddySize_quarter (order : ℕ) : buddySize (order + 1) / 4 = blockSize order := by
  rw [buddySize_eq, blockSize_succ, ← Nat.mul_assoc]
  exact Nat.mul_div_cancel_left _ (by decide)

theorem blockAddr_left (start order index : ℕ) :
    blockAddr start ⟨order, 2 * index⟩ = blockAddr start ⟨order + 1, index⟩ := by
  simp only [blockAddr, blockSize_succ]
  ring

theorem blockAddr_right (start order index : ℕ) : blockAddr start ⟨order, 2 * index + 1⟩ =
      blockAddr start ⟨order + 1, index⟩ + blockSize order := by
  simp only [blockAddr, blockSize_succ]
  ring

theorem blockAddr_inj {start order i j : ℕ} :
    blockAddr start ⟨order, i⟩ = blockAddr start ⟨order, j⟩ ↔ i = j := by
  simp [blockAddr, (blockSize_pos order).ne']

theorem sub32_of_le {a b : ℕ} (le : b ≤ a) (small : a < 2 ^ 32) : sub32 a b = a - b := by
  simp only [sub32]
  omega

/-! ## Free lists -/

section

variable (area : FreeArea) (order : ℕ) (list : List Buddy) (b : Buddy)

@[simp] theorem setFreeList_self : (area.setFreeList order list).freeList order = list := update_self ..

@[simp] theorem freeListPush_self : (area.freeListPush order b).freeList order = area.freeList order ++ [b] :=
  update_self ..

@[simp] theorem setFreeList_startAddr : (area.setFreeList order list).startAddr = area.startAddr := rfl

@[simp] theorem freeListPush_startAddr : (area.freeListPush order b).startAddr = area.startAddr := rfl

variable {order} {o : ℕ} (ne : o ≠ order)

include ne

theorem setFreeList_of_ne : (area.setFreeList order list).freeList o = area.freeList o := update_of_ne ne ..

theorem freeListPush_of_ne : (area.freeListPush order b).freeList o = area.freeList o := update_of_ne ne ..

end

/-! ## Free cells and bits -/

def isFree (area : FreeArea) (c : Cell) : Bool :=
  (area.freeList c.order).any (·.addr == blockAddr area.startAddr c)

theorem isFree_iff {area : FreeArea} {c : Cell} :
    isFree area c = true ↔ ∃ b ∈ area.freeList c.order, b.addr = blockAddr area.startAddr c := by
  simp [isFree]

def bit (area : FreeArea) (order index : ℕ) : Bool :=
  (area.bitMap order (index / 32)).getLsbD (index % 32)

/-- The parity of the free blocks of a pair. -/
def pairFree (area : FreeArea) (order index : ℕ) : Bool :=
  isFree area ⟨order, 2 * index⟩ ^^ isFree area ⟨order, 2 * index + 1⟩

/-- Mark, or unmark, the pair of `c`. -/
def toggle (c : Cell) (wrong : ℕ → ℕ → Bool) (order index : ℕ) : Bool :=
  wrong order index ^^ decide (order = c.order ∧ index = c.index / 2)

def noneWrong (_ _ : ℕ) : Bool := false

theorem toggle_toggle (c : Cell) (wrong : ℕ → ℕ → Bool) : toggle c (toggle c wrong) = wrong := by
  funext order index
  simp [toggle]

structure AreaInv (area : FreeArea) (n : ℕ) (held : Cell → Prop) (wrong : ℕ → ℕ → Bool) :
    Prop where
  nodes : ∀ o b, b ∈ area.freeList o → ∃ i, b.addr = blockAddr area.startAddr ⟨o, i⟩
  inPlace : area.user = false → ∀ o b, b ∈ area.freeList o → b.ptr = b.addr
  nodup : ∀ o, ((area.freeList o).map Buddy.addr).Nodup
  tiles : Tiles n maxOrder fun c => isFree area c = true ∨ held c
  unheld : ∀ c, isFree area c = true → ¬ held c
  apart : ∀ o i, o < maxOrder →
    ¬ (isFree area ⟨o, 2 * i⟩ = true ∧ isFree area ⟨o, 2 * i + 1⟩ = true)
  bits : ∀ o j, o < maxOrder → j / 32 < area.bmsize o →
    bit area o j = (pairFree area o j ^^ wrong o j)
  bound : area.startAddr + n * pageSize ≤ 2 ^ 32

namespace AreaInv

variable {area : FreeArea} {n : ℕ} {held : Cell → Prop} {wrong : ℕ → ℕ → Bool} {c : Cell}

section

variable (inv : AreaInv area n held wrong)

include inv

theorem end_le (member : isFree area c = true ∨ held c) :
    blockAddr area.startAddr c + blockSize c.order ≤ area.startAddr + n * pageSize := by
  have positive : 0 < 2 ^ c.order := by positivity
  have last : c.Has ((c.index + 1) * 2 ^ c.order - 1) := by
    rw [Cell.has_iff, Nat.add_mul]
    omega
  have fits : (c.index + 1) * 2 ^ c.order ≤ n := by
    have := inv.tiles.inside c member _ last
    omega
  calc blockAddr area.startAddr c + blockSize c.order
      = area.startAddr + (c.index + 1) * 2 ^ c.order * pageSize := by
        simp only [blockAddr, blockSize]; ring
    _ ≤ area.startAddr + n * pageSize := by gcongr

theorem addr_lt (member : isFree area c = true ∨ held c) :
    blockAddr area.startAddr c < 2 ^ 32 := by
  have := inv.end_le member
  have := inv.bound
  have := blockSize_pos c.order
  omega

theorem coalesced :
    Coalesced maxOrder fun c => isFree area c = true where
  order_le c hc := inv.tiles.order_le c (.inl hc)
  disjoint c d p hc hd := inv.tiles.disjoint c d p (.inl hc) (.inl hd)
  apart := inv.apart

theorem congr_held {held' : Cell → Prop} (same : ∀ c, held' c ↔ held c) : AreaInv area n held' wrong := by
  have : held' = held := funext fun c => propext (same c)
  rwa [this]

theorem descriptors (live : List ℕ) (next : ℕ) :
    AreaInv { area with descriptors := live, nextDescriptor := next } n held wrong :=
  ⟨inv.nodes, inv.inPlace, inv.nodup, inv.tiles, inv.unheld, inv.apart, inv.bits, inv.bound⟩

end

end AreaInv

/-! ## One step on a bit -/

/-- What no operation changes. -/
structure SameGeometry (area area' : FreeArea) : Prop where
  startAddr : area'.startAddr = area.startAddr
  bmsize : area'.bmsize = area.bmsize
  user : area'.user = area.user

theorem SameGeometry.refl (area : FreeArea) : SameGeometry area area := ⟨rfl, rfl, rfl⟩

theorem SameGeometry.trans {a b c : FreeArea} (ab : SameGeometry a b) (bc : SameGeometry b c) :
    SameGeometry a c :=
  ⟨bc.startAddr.trans ab.startAddr, bc.bmsize.trans ab.bmsize, bc.user.trans ab.user⟩

variable {area : FreeArea} {n : ℕ} {held : Cell → Prop} {wrong : ℕ → ℕ → Bool}
  {c : Cell} {b : Buddy}

theorem pairIndex_eq (addr : b.addr = blockAddr area.startAddr c)
    (small : blockAddr area.startAddr c < 2 ^ 32) : pairIndex area b c.order = c.index / 2 := by
  have le : area.startAddr ≤ blockAddr area.startAddr c := Nat.le_add_right _ _
  have offset : blockAddr area.startAddr c - area.startAddr = c.index * blockSize c.order :=
    Nat.add_sub_cancel_left _ _
  rw [pairIndex, addr, sub32_of_le le small, offset, buddySize_eq]
  exact Nat.mul_div_mul_right _ _ (blockSize_pos _)

theorem getLsbD_xor_bit (word : BitVec 32) {k m : ℕ} (hm : m < 32) :
    (word ^^^ (1#32 <<< k)).getLsbD m = (word.getLsbD m ^^ decide (m = k)) := by
  simp only [BitVec.getLsbD_xor, BitVec.getLsbD_shiftLeft, BitVec.getLsbD_one, hm, decide_true, Bool.true_and]
  congr 1
  by_cases same : m = k
  · simp [same]
  · by_cases lt : m < k
    · simp [lt, same]
    · have : m - k ≠ 0 := by omega
      simp [lt, same, this]

theorem bit_flipBit (area : FreeArea) (order index o j : ℕ) :
    bit (area.flipBit order index) o j = (bit area o j ^^ decide (o = order ∧ j = index)) := by
  by_cases sameOrder : o = order
  · subst sameOrder
    by_cases sameWord : j / 32 = index / 32
    · simp only [bit, FreeArea.flipBit, update_self, sameWord, true_and]
      rw [getLsbD_xor_bit _ (Nat.mod_lt _ (by decide))]
      congr 2
      exact propext ⟨fun h => by omega, fun h => by rw [h]⟩
    · have : j ≠ index := fun h => sameWord (by rw [h])
      simp [bit, FreeArea.flipBit, update_of_ne sameWord, this]
  · simp [bit, FreeArea.flipBit, sameOrder]

theorem flipBitMap_spec (inv : AreaInv area n held wrong)
    (addr : b.addr = blockAddr area.startAddr c) (small : blockAddr area.startAddr c < 2 ^ 32)
    (inBounds : c.index / 2 / 32 < area.bmsize c.order) :
    ∃ area', flipBitMap area b c.order = .ok area' ∧ AreaInv area' n held (toggle c wrong) ∧
      area'.freeList = area.freeList ∧ SameGeometry area area' := by
  have index := pairIndex_eq addr small
  refine ⟨area.flipBit c.order (c.index / 2), ?_, ?_, rfl, ⟨rfl, rfl, rfl⟩⟩
  · rw [flipBitMap]
    simp only [index, inBounds, if_true]
  · refine ⟨inv.nodes, inv.inPlace, inv.nodup, inv.tiles, inv.unheld, inv.apart, ?_, inv.bound⟩
    intro o j ho hj
    rw [bit_flipBit, inv.bits o j ho hj, toggle, Bool.xor_assoc]
    rfl

theorem isSplit_spec (inv : AreaInv area n held noneWrong)
    (addr : b.addr = blockAddr area.startAddr c) (member : held c) (below : c.order < maxOrder)
    (inBounds : c.index / 2 / 32 < area.bmsize c.order) :
    isSplit area b c.order = .ok (isFree area c.sibling) := by
  have index := pairIndex_eq addr (inv.addr_lt (.inr member))
  have free : isFree area c = false := by
    by_contra h
    exact inv.unheld c (by simpa using h) member
  have correct := inv.bits c.order (c.index / 2) below inBounds
  rw [isSplit]
  simp only [index, inBounds, if_true]
  refine congrArg Except.ok (correct.trans ?_)
  simp only [pairFree, noneWrong, Bool.xor_false]
  obtain ⟨o, i⟩ := c
  simp only [Cell.sibling] at free ⊢
  by_cases even : i % 2 = 0
  · have : 2 * (i / 2) = i := by omega
    simp [even, this, free]
  · have : 2 * (i / 2) + 1 = i := by omega
    have : 2 * (i / 2) = i - 1 := by omega
    simp_all

/-! ## One step on a free list -/

/-- If exactly the membership of `c` changes then exactly the parity of its pair does. -/
theorem pairFree_toggle {area area' : FreeArea}
    (change : ∀ d, isFree area' d = (isFree area d ^^ decide (d = c))) (o j : ℕ) :
    pairFree area' o j = (pairFree area o j ^^ decide (o = c.order ∧ j = c.index / 2)) := by
  have once : decide (o = c.order ∧ j = c.index / 2) =
      (decide (Cell.mk o (2 * j) = c) ^^ decide (Cell.mk o (2 * j + 1) = c)) := by
    obtain ⟨order, index⟩ := c
    by_cases same : o = order
    · by_cases even : index % 2 = 0
      · have left : (2 * j = index) = (j = index / 2) := by simp only [eq_iff_iff]; omega
        have right : (2 * j + 1 = index) = False := by simp only [eq_iff_iff, iff_false]; omega
        simp [left, right]
      · have left : (2 * j = index) = False := by simp only [eq_iff_iff, iff_false]; omega
        have right : (2 * j + 1 = index) = (j = index / 2) := by simp only [eq_iff_iff]; omega
        simp [left, right]
    · simp [same]
  simp only [pairFree, change, once]
  cases isFree area ⟨o, 2 * j⟩ <;> cases isFree area ⟨o, 2 * j + 1⟩ <;> simp

/-- The bit of the pair is wrong then if it was right before. -/
theorem AreaInv.bits_toggle {area' : FreeArea} (inv : AreaInv area n held wrong)
    (change : ∀ d, isFree area' d = (isFree area d ^^ decide (d = c))) {o j : ℕ} (ho : o < maxOrder)
    (hj : j / 32 < area.bmsize o) : bit area o j = (pairFree area' o j ^^ toggle c wrong o j) := by
  rw [pairFree_toggle change, toggle, inv.bits o j ho hj]
  generalize decide (o = c.order ∧ j = c.index / 2) = t
  cases pairFree area o j <;> cases wrong o j <;> cases t <;> rfl

theorem isFree_push (addr : b.addr = blockAddr area.startAddr c) (fresh : isFree area c = false) (d : Cell) :
    isFree (area.freeListPush c.order b) d = (isFree area d ^^ decide (d = c)) := by
  by_cases same : d.order = c.order
  · by_cases eq : d = c
    · subst eq
      simp only [fresh, decide_true, Bool.xor_true, Bool.not_false]
      exact isFree_iff.mpr ⟨b, by simp, addr⟩
    · have other : (b.addr == blockAddr area.startAddr d) = false := by
        obtain ⟨o, i⟩ := d
        obtain ⟨o', i'⟩ := c
        subst same
        simp only [Cell.mk.injEq, true_and] at eq
        simp [addr, blockAddr_inj, Ne.symm eq]
      simp [isFree, same, other, eq]
  · have : d ≠ c := fun h => same (by rw [h])
    simp [isFree, freeListPush_of_ne _ _ same, this]

/-- Putting a cell on its free list releases it from `held` and makes the bit of its
    pair wrong. -/
theorem push_spec (inv : AreaInv area n held wrong) (addr : b.addr = blockAddr area.startAddr c)
    (ptr : area.user = false → b.ptr = b.addr) (member : held c)
    (lonely : c.order < maxOrder → isFree area c.sibling = false) :
    AreaInv (area.freeListPush c.order b) n (fun d => held d ∧ d ≠ c) (toggle c wrong) := by
  have fresh : isFree area c = false := by
    by_contra h
    exact inv.unheld c (by simpa using h) member
  have change := isFree_push addr fresh
  have free : ∀ d, isFree (area.freeListPush c.order b) d = true ↔ isFree area d = true ∨ d = c := by
    intro d
    rw [change]
    by_cases eq : d = c
    · simp [eq, fresh]
    · simp [eq]
  -- a node of the new lists is a node of the old ones or `b`
  have mem : ∀ o x, x ∈ (area.freeListPush c.order b).freeList o →
      x ∈ area.freeList o ∨ (o = c.order ∧ x = b) := by
    intro o x hx
    by_cases same : o = c.order
    · subst same
      simpa using hx
    · rw [freeListPush_of_ne _ _ same] at hx
      exact .inl hx
  refine ⟨?_, ?_, ?_, ?_, ?_, ?_, ?_, inv.bound⟩
  · intro o x hx
    cases mem o x hx with
    | inl old => exact inv.nodes _ _ old
    | inr new =>
      obtain ⟨rfl, rfl⟩ := new
      exact ⟨c.index, addr⟩
  · intro kernel o x hx
    cases mem o x hx with
    | inl old => exact inv.inPlace kernel _ _ old
    | inr new => exact new.2 ▸ ptr kernel
  · intro o
    by_cases same : o = c.order
    · subst same
      rw [freeListPush_self, map_append]
      refine List.Nodup.append (inv.nodup _) (nodup_singleton _) ?_
      rw [map_singleton, disjoint_singleton]
      intro old
      obtain ⟨x, hx, hxaddr⟩ := mem_map.mp old
      have : isFree area c = true := isFree_iff.mpr ⟨x, hx, hxaddr.trans addr⟩
      simp [this] at fresh
    · rw [freeListPush_of_ne _ _ same]
      exact inv.nodup o
  · refine inv.tiles.congr fun d => ?_
    rw [free]
    by_cases same : d = c
    · simp [same, member]
    · simp [same]
  · intro d hd
    cases (free d).mp hd with
    | inl old => exact fun h => inv.unheld d old h.1
    | inr new => exact fun h => h.2 new
  · intro o i ho both
    rw [free, free] at both
    obtain ⟨left | left, right | right⟩ := both
    · exact inv.apart o i ho ⟨left, right⟩
    · -- the new block is the right one of the pair, its sibling was free already
      subst right
      have := lonely ho
      simp [Cell.sibling, Nat.add_mod, left] at this
    · subst left
      have := lonely ho
      simp [Cell.sibling, right] at this
    · subst left
      simp at right
  · exact fun o j ho hj => inv.bits_toggle change ho hj

/-- Unlinking the node of a free cell hands the cell to `held` and makes the bit of its
    pair wrong. -/
theorem remove_spec (inv : AreaInv area n held wrong) (free : isFree area c = true)
    {rest : List Buddy} (sublist : rest.Sublist (area.freeList c.order))
    (members : ∀ x, x ∈ rest ↔ x ∈ area.freeList c.order ∧ x.addr ≠ blockAddr area.startAddr c) :
    AreaInv (area.setFreeList c.order rest) n (fun d => held d ∨ d = c) (toggle c wrong) := by
  have sub : ∀ o x, x ∈ (area.setFreeList c.order rest).freeList o → x ∈ area.freeList o := by
    intro o x hx
    by_cases same : o = c.order
    · subst same
      rw [setFreeList_self] at hx
      exact sublist.subset hx
    · rwa [setFreeList_of_ne _ _ same] at hx
  have after : ∀ d, isFree (area.setFreeList c.order rest) d = true ↔ isFree area d = true ∧ d ≠ c := by
    intro d
    rw [isFree_iff, isFree_iff]
    by_cases same : d.order = c.order
    · simp only [same, setFreeList_self, setFreeList_startAddr, members]
      constructor
      · rintro ⟨x, ⟨hx, hne⟩, haddr⟩
        exact ⟨⟨x, hx, haddr⟩, fun h => hne (h ▸ haddr)⟩
      · rintro ⟨⟨x, hx, haddr⟩, hne⟩
        refine ⟨x, ⟨hx, ?_⟩, haddr⟩
        intro h
        obtain ⟨o, i⟩ := d
        subst same
        rw [haddr, blockAddr_inj] at h
        exact hne (by rw [h])
    · have : d ≠ c := fun h => same (by rw [h])
      simp [setFreeList_of_ne _ _ same, this]
  have change : ∀ d, isFree (area.setFreeList c.order rest) d = (isFree area d ^^ decide (d = c)) := by
    intro d
    rw [Bool.eq_iff_iff, after]
    by_cases eq : d = c
    · simp [eq, free]
    · simp [eq]
  refine ⟨?_, ?_, ?_, ?_, ?_, ?_, ?_, inv.bound⟩
  · exact fun o x hx => inv.nodes o x (sub o x hx)
  · exact fun kernel o x hx => inv.inPlace kernel o x (sub o x hx)
  · intro o
    by_cases same : o = c.order
    · subst same
      rw [setFreeList_self]
      exact (inv.nodup c.order).sublist (sublist.map Buddy.addr)
    · rw [setFreeList_of_ne _ _ same]
      exact inv.nodup o
  · refine inv.tiles.congr fun d => ?_
    rw [after]
    by_cases same : d = c
    · simp [same, free]
    · simp [same]
  · intro d hd member
    obtain ⟨hd, hne⟩ := (after d).mp hd
    cases member with
    | inl old => exact inv.unheld d hd old
    | inr new => exact hne new
  · intro o i ho both
    rw [after, after] at both
    exact inv.apart o i ho ⟨both.1.1, both.2.1⟩
  · exact fun o j ho hj => inv.bits_toggle change ho hj

end Illinix.Verified.Buddy
