import Illinix.Verified.Buddy.Invariant
import Illinix.Lib.Except

/-! # Splitting and merging keep the buddy invariant

One specification for each function of the allocator: `buddySplit_spec` and
`freePageFrom_spec` follow the recursion of the source and carry the block in hand as a
held cell; `getPageLoop_spec` and `freePageAt_spec` are what clients see. -/

namespace Illinix.Verified.Buddy

open Kernel List
open Lib (ok_bind pure_eq_ok throw_eq_error)
open Lib.Dyadic (Cell Tiles)

variable {area : FreeArea} {n : ℕ} {held : Cell → Prop} {wrong : ℕ → ℕ → Bool}
  {b : Buddy} {c : Cell} {i o order x : ℕ} {orders : List ℕ}

namespace AreaInv

theorem retile {held' : Cell → Prop} (inv : AreaInv area n held wrong)
    (tiles : Tiles n maxOrder fun c => isFree area c = true ∨ held' c)
    (unheld : ∀ c, isFree area c = true → ¬ held' c) : AreaInv area n held' wrong :=
  ⟨inv.nodes, inv.inPlace, inv.nodup, tiles, unheld, inv.apart, inv.bits, inv.bound⟩

theorem congr_wrong {wrong' : ℕ → ℕ → Bool} (inv : AreaInv area n held wrong)
    (same : ∀ o j, o < maxOrder → wrong' o j = wrong o j) : AreaInv area n held wrong' where
  nodes := inv.nodes
  inPlace := inv.inPlace
  nodup := inv.nodup
  tiles := inv.tiles
  unheld := inv.unheld
  apart := inv.apart
  bits o j ho hj := by rw [same o j ho]; exact inv.bits o j ho hj
  bound := inv.bound

theorem not_member {c d : Cell} {p : ℕ} (inv : AreaInv area n held wrong) (hc : held c)
    (order : d.order ≠ c.order) (hcp : c.Has p) (hdp : d.Has p) :
    ¬ (isFree area d = true ∨ held d) := by
  intro hd
  have same := inv.tiles.disjoint d c p hd (.inr hc) hdp hcp
  exact order (by rw [same])

theorem splitHeld {o i : ℕ} (inv : AreaInv area n (fun d => held d ∨ d = ⟨o + 1, i⟩) wrong)
    (fresh : ¬ held ⟨o + 1, i⟩) :
    AreaInv area n (fun d => (held d ∨ d = ⟨o, 2 * i⟩) ∨ d = ⟨o, 2 * i + 1⟩) wrong ∧
      ¬ held ⟨o, 2 * i⟩ ∧ ¬ held ⟨o, 2 * i + 1⟩ := by
  have left := inv.not_member (d := ⟨o, 2 * i⟩) (.inr rfl) (by simp)
    (Cell.has_iff_halves.mpr (.inl (Cell.has_first _))) (Cell.has_first _)
  have right := inv.not_member (d := ⟨o, 2 * i + 1⟩) (.inr rfl) (by simp)
    (Cell.has_iff_halves.mpr (.inr (Cell.has_first _))) (Cell.has_first _)
  have whole : isFree area ⟨o + 1, i⟩ ≠ true := fun h => inv.unheld _ h (.inr rfl)
  refine ⟨inv.retile ?_ ?_, fun h => left (.inr (.inl h)), fun h => right (.inr (.inl h))⟩
  · refine (inv.tiles.split (.inr (.inr rfl))).congr fun d => ?_
    by_cases same : d = ⟨o + 1, i⟩
    · subst same
      simp [fresh, whole]
    · simp [same, or_assoc]
  · intro d free member
    obtain (old | rfl) | rfl := member
    · exact inv.unheld d free (.inl old)
    · exact left (.inl free)
    · exact right (.inl free)

theorem mergeHeld {c : Cell} (below : c.order < maxOrder)
    (inv : AreaInv area n (fun d => (held d ∨ d = c) ∨ d = c.sibling) wrong)
    (fresh : ¬ held c) (freshSibling : ¬ held c.sibling) :
    AreaInv area n (fun d => held d ∨ d = c.parent) wrong ∧ ¬ held c.parent := by
  have parent := inv.not_member (d := c.parent) (.inl (.inr rfl)) (by simp [Cell.parent])
    (Cell.has_first _) (Cell.has_parent (Cell.has_first _))
  have whole : isFree area c ≠ true := fun h => inv.unheld _ h (.inl (.inr rfl))
  have whole' : isFree area c.sibling ≠ true := fun h => inv.unheld _ h (.inr rfl)
  refine ⟨inv.retile ?_ ?_, fun h => parent (.inr (.inl (.inl h)))⟩
  · refine (inv.tiles.merge (.inr (.inl (.inr rfl))) (.inr (.inr rfl)) below).congr fun d => ?_
    by_cases same : d = c
    · subst same
      simp [fresh, whole, Cell.parent]
    by_cases same' : d = c.sibling
    · subst same'
      simp [freshSibling, whole']
    · simp [same, same', or_assoc]
  · intro d free member
    cases member with
    | inl old => exact inv.unheld d free (.inl (.inl old))
    | inr new => exact parent (.inl (new ▸ free))

end AreaInv

/-! ## Splitting -/

theorem rightHalf_spec (inv : AreaInv area n held wrong) (order : ℕ) :
    AreaInv (rightHalf area b order).1 n held wrong ∧ SameGeometry area (rightHalf area b order).1 := by
  unfold rightHalf
  cases area.user with
  | true => exact ⟨inv.descriptors _ _, ⟨rfl, rfl, rfl⟩⟩
  | false => exact ⟨inv, SameGeometry.refl _⟩

theorem rightHalf_node (addr : b.addr = blockAddr area.startAddr ⟨o + 1, x⟩)
    (ptr : area.user = false → b.ptr = b.addr) :
    (rightHalf area b (o + 1)).2.addr = blockAddr area.startAddr ⟨o, 2 * x + 1⟩ ∧ (area.user = false →
        (rightHalf area b (o + 1)).2.ptr = (rightHalf area b (o + 1)).2.addr) := by
  unfold rightHalf
  rw [buddySize_quarter, blockAddr_right]
  cases user : area.user with
  | true => simp [FreeArea.getBuddy, addr]
  | false => simp [ptr user, addr]

/-- The bit of the pair of the block in hand is made right, unless its order has no bitmap. -/
theorem splitFlip_spec (le : o ≤ maxOrder)
    (inv : AreaInv area n (fun d => held d ∨ d = ⟨o, x⟩) (toggle ⟨o, x⟩ noneWrong))
    (addr : b.addr = blockAddr area.startAddr ⟨o, x⟩)
    (inBounds : o < maxOrder → x / 2 / 32 < area.bmsize o) :
    ∃ area', (if o ≠ maxOrder then flipBitMap (rightHalf area b o).1 b o
        else pure (rightHalf area b o).1) = .ok area' ∧
      AreaInv area' n (fun d => held d ∨ d = ⟨o, x⟩) noneWrong ∧ SameGeometry area area' := by
  obtain ⟨inv', geometry⟩ := rightHalf_spec (b := b) inv o
  by_cases top : o = maxOrder
  · -- the mark of the top order stands for no bit
    refine ⟨_, by simp [top], ?_, geometry⟩
    refine inv'.congr_wrong fun o' j ho => ?_
    have : o' ≠ o := by omega
    simp [toggle, noneWrong, this]
  · obtain ⟨area', flipped, inv3, _, geometry'⟩ := flipBitMap_spec inv' (c := ⟨o, x⟩) (b := b)
      (by rw [geometry.startAddr]; exact addr) (inv'.addr_lt (.inr (.inr rfl)))
      (by rw [geometry.bmsize]; exact inBounds (by omega))
    rw [toggle_toggle] at inv3
    exact ⟨area', by simpa [top] using flipped, inv3, geometry.trans geometry'⟩

/-- The right half of the block in hand goes to its free list; the bit of the pair is wrong then. -/
theorem splitPush_spec (inv : AreaInv area n (fun d => held d ∨ d = ⟨o + 1, x⟩) noneWrong)
    (fresh : ¬ held ⟨o + 1, x⟩)
    (addr : b.addr = blockAddr area.startAddr ⟨o, 2 * x + 1⟩)
    (ptr : area.user = false → b.ptr = b.addr) :
    AreaInv (area.freeListPush o b) n (fun d => held d ∨ d = ⟨o, 2 * x⟩)
        (toggle ⟨o, 2 * x⟩ noneWrong) ∧ ¬ held ⟨o, 2 * x⟩ := by
  obtain ⟨halves, freshLeft, freshRight⟩ := inv.splitHeld fresh
  have leftHeld : isFree area ⟨o, 2 * x⟩ = false := by
    by_contra h
    exact halves.unheld _ (by simpa using h) (.inl (.inr rfl))
  have pushed := push_spec (c := ⟨o, 2 * x + 1⟩) halves addr ptr (.inr rfl)
    (by intro _; simpa [Cell.sibling, Nat.add_mod] using leftHeld)
  -- both halves have the same bit
  have marks : toggle ⟨o, 2 * x + 1⟩ noneWrong = toggle ⟨o, 2 * x⟩ noneWrong := by
    have : (2 * x + 1) / 2 = 2 * x / 2 := by omega
    funext o j
    simp [toggle, this]
  rw [marks] at pushed
  refine ⟨pushed.congr_held fun d => ?_, freshLeft⟩
  by_cases same : d = ⟨o, 2 * x + 1⟩
  · subst same
    simp [freshRight]
  · simp [same]

/-- `buddy_split` cuts the block in hand down to the target order and returns its first
    part; the bit of the pair of the block in hand is wrong on entry. -/
theorem buddySplit_spec {tar : ℕ} (below : tar < maxOrder) :
    ∀ (cur x : ℕ) (area : FreeArea) (b : Buddy), tar ≤ cur → cur ≤ maxOrder →
      AreaInv area n (fun d => held d ∨ d = ⟨cur, x⟩) (toggle ⟨cur, x⟩ noneWrong) →
      ¬ held ⟨cur, x⟩ → b.addr = blockAddr area.startAddr ⟨cur, x⟩ →
      (area.user = false → b.ptr = b.addr) →
      (∀ o, tar ≤ o → o ≤ cur → o < maxOrder → x * 2 ^ (cur - o) / 2 / 32 < area.bmsize o) →
      ∃ area', buddySplit area b tar cur = .ok (area', b) ∧
        AreaInv area' n (fun d => held d ∨ d = ⟨tar, x * 2 ^ (cur - tar)⟩) noneWrong ∧
        ¬ held ⟨tar, x * 2 ^ (cur - tar)⟩ ∧ SameGeometry area area' := by
  intro cur
  -- induction on the order of the block in hand
  induction cur with
  | zero =>
    intro x area b le leMax inv fresh addr ptr inBounds
    obtain rfl : tar = 0 := by omega
    obtain ⟨area', flipped, inv', geometry⟩ := splitFlip_spec leMax inv addr
      fun _ => by simpa using inBounds 0 le le below
    rw [if_pos (by decide)] at flipped
    refine ⟨area', ?_, by simpa using inv', by simpa using fresh, geometry⟩
    rw [buddySplit, if_pos rfl, flipped, ok_bind, pure_eq_ok]
  | succ cur ih =>
    intro x area b le leMax inv fresh addr ptr inBounds
    obtain ⟨area', flipped, inv', geometry⟩ := splitFlip_spec leMax inv addr
      fun notTop => by simpa using inBounds (cur + 1) le le_rfl notTop
    by_cases done : cur + 1 = tar
    · subst done
      have notTop : cur + 1 ≠ maxOrder := by omega
      rw [if_pos notTop] at flipped
      refine ⟨area', ?_, by simpa using inv', by simpa using fresh, geometry⟩
      rw [buddySplit, if_pos rfl, flipped, ok_bind, pure_eq_ok]
    · obtain ⟨halfAddr, halfPtr⟩ := rightHalf_node addr ptr
      obtain ⟨inHand, freshLeft⟩ := splitPush_spec inv' fresh
        (by rw [geometry.startAddr]; exact halfAddr) (by rw [geometry.user]; exact halfPtr)
      have steps : ∀ o ≤ cur, 2 * x * 2 ^ (cur - o) = x * 2 ^ (cur + 1 - o) := by
        intro o ho
        rw [show cur + 1 - o = cur - o + 1 by omega, pow_succ]
        ring
      obtain ⟨area3, split, result, freshResult, geometry3⟩ := ih (2 * x) _ b (by omega)
        (by omega) inHand freshLeft
        (by
          change b.addr = blockAddr area'.startAddr _
          rw [geometry.startAddr, blockAddr_left]
          exact addr)
        (by
          change area'.user = false → _
          rw [geometry.user]
          exact ptr)
        (by
          intro o ho hcur hmax
          rw [steps o hcur]
          change _ < area'.bmsize o
          rw [geometry.bmsize]
          exact inBounds o ho (by omega) hmax)
      rw [steps tar (by omega)] at result freshResult
      refine ⟨area3, ?_, result, freshResult, geometry.trans ⟨geometry3.startAddr,
        geometry3.bmsize, geometry3.user⟩⟩
      rw [buddySplit, if_neg done, flipped, ok_bind, split]

/-- The block the loop of `get_page` takes: the head of the first nonempty free list. -/
def chosen (area : FreeArea) : List ℕ → Option (ℕ × Buddy)
  | [] => none
  | i :: orders =>
    match area.freeList i with
    | [] => chosen area orders
    | b :: _ => some (i, b)

theorem chosen_mem (h : chosen area orders = some (i, b)) : i ∈ orders ∧ b ∈ area.freeList i := by
  induction orders with
  | nil => simp [chosen] at h
  | cons j orders ih =>
    cases list : area.freeList j with
    | nil =>
      simp only [chosen, list] at h
      exact ⟨mem_cons_of_mem _ (ih h).1, (ih h).2⟩
    | cons head rest =>
      simp only [chosen, list, Option.some.injEq, Prod.mk.injEq] at h
      obtain ⟨rfl, rfl⟩ := h
      simp [list]

theorem freeList_of_chosen_none (h : chosen area orders = none) : ∀ i ∈ orders, area.freeList i = [] := by
  induction orders with
  | nil => simp
  | cons j orders ih =>
    cases list : area.freeList j with
    | nil =>
      simp only [chosen, list] at h
      exact forall_mem_cons.mpr ⟨list, ih h⟩
    | cons head rest => simp [chosen, list] at h

theorem getPageLoop_none (order : ℕ) (h : chosen area orders = none) :
    getPageLoop area order orders = .ok (area, none) := by
  induction orders with
  | nil => rfl
  | cons j orders ih =>
    cases list : area.freeList j with
    | nil =>
      simp only [chosen, list] at h
      simp only [getPageLoop, FreeArea.freeListPop, list, ih h]
    | cons head rest => simp [chosen, list] at h

theorem getPageLoop_some (order : ℕ) (h : chosen area orders = some (i, b)) :
    ∃ rest, area.freeList i = b :: rest ∧ getPageLoop area order orders =
        (buddySplit (area.setFreeList i rest) b order i >>= fun result => .ok (result.1, some result.2)) := by
  induction orders with
  | nil => simp [chosen] at h
  | cons j orders ih =>
    cases list : area.freeList j with
    | nil =>
      simp only [chosen, list] at h
      obtain ⟨rest, eq, loop⟩ := ih h
      exact ⟨rest, eq, by simpa only [getPageLoop, FreeArea.freeListPop, list] using loop⟩
    | cons head rest =>
      simp only [chosen, list, Option.some.injEq, Prod.mk.injEq] at h
      obtain ⟨rfl, rfl⟩ := h
      exact ⟨rest, list, by simp only [getPageLoop, FreeArea.freeListPop, list]; rfl⟩

/-- Taking a block out of the free lists hands its first `2 ^ order` pages to the client. -/
theorem getPageLoop_spec (inv : AreaInv area n held noneWrong) (below : order < maxOrder)
    (range : ∀ j ∈ orders, order ≤ j ∧ j ≤ maxOrder)
    (h : chosen area orders = some (i, b)) (addr : b.addr = blockAddr area.startAddr ⟨i, x⟩)
    (inBounds : ∀ o, order ≤ o → o ≤ i → o < maxOrder → x * 2 ^ (i - o) / 2 / 32 < area.bmsize o) :
    ∃ area', getPageLoop area order orders = .ok (area', some b) ∧
      AreaInv area' n (fun d => held d ∨ d = ⟨order, x * 2 ^ (i - order)⟩) noneWrong ∧
      ¬ held ⟨order, x * 2 ^ (i - order)⟩ ∧ SameGeometry area area' ∧
      (area.user = false → b.ptr = b.addr) := by
  obtain ⟨member, node⟩ := chosen_mem h
  obtain ⟨le, leMax⟩ := range i member
  obtain ⟨rest, list, loop⟩ := getPageLoop_some order h
  have free : isFree area ⟨i, x⟩ = true := isFree_iff.mpr ⟨b, node, addr⟩
  have ptr : area.user = false → b.ptr = b.addr := fun kernel => inv.inPlace kernel i b node
  have nodup := inv.nodup i
  rw [list, map_cons, nodup_cons] at nodup
  have taken := remove_spec inv free (c := ⟨i, x⟩)
    (show rest.Sublist (area.freeList i) by rw [list]; exact sublist_cons_self b rest)
    (by
      intro y
      rw [list, ← addr]
      constructor
      · intro hy
        exact ⟨mem_cons_of_mem _ hy, fun same => nodup.1 (same ▸ mem_map_of_mem hy)⟩
      · rintro ⟨hy, hne⟩
        cases mem_cons.mp hy with
        | inl same => exact absurd (by rw [same]) hne
        | inr hy => exact hy)
  obtain ⟨area', split, inv', fresh, geometry⟩ := buddySplit_spec below i x _ b le leMax taken
    (inv.unheld _ free) addr ptr inBounds
  refine ⟨area', ?_, inv', fresh, ⟨geometry.startAddr, geometry.bmsize, geometry.user⟩, ptr⟩
  rw [loop, split, ok_bind]

/-- The pages a split block starts with are the ones it is handed out at. -/
theorem blockAddr_split (start x : ℕ) (le : order ≤ i) :
    blockAddr start ⟨order, x * 2 ^ (i - order)⟩ = blockAddr start ⟨i, x⟩ := by
  obtain ⟨k, rfl⟩ := Nat.exists_eq_add_of_le le
  simp only [blockAddr, blockSize, Nat.add_sub_cancel_left, pow_add]
  ring

/-! ## Merging -/

theorem isLeftBuddy_eq (addr : b.addr = blockAddr area.startAddr c)
    (ptr : area.user = false → b.ptr = b.addr) (small : blockAddr area.startAddr c < 2 ^ 32) :
    isLeftBuddy area b c.order = (c.index % 2 == 0) := by
  have position : (if area.user then b.addr else b.ptr) = blockAddr area.startAddr c := by
    cases user : area.user with
    | true => simp [addr]
    | false => simp [ptr user, addr]
  have le : area.startAddr ≤ blockAddr area.startAddr c := Nat.le_add_right _ _
  have offset : blockAddr area.startAddr c - area.startAddr = c.index * blockSize c.order :=
    Nat.add_sub_cancel_left _ _
  simp only [isLeftBuddy, position, buddySize_half, sub32_of_le le small, offset,
    Nat.mul_div_cancel _ (blockSize_pos c.order)]

/-- The address `remove_from_free` looks for is the one of the sibling. -/
theorem siblingAddr_eq (addr : b.addr = blockAddr area.startAddr c) :
    (if (c.index % 2 == 0) = true then b.addr + buddySize c.order / 2
      else b.addr - buddySize c.order / 2) = blockAddr area.startAddr c.sibling := by
  rw [buddySize_half, addr]
  by_cases even : c.index % 2 = 0
  · simp only [even, beq_self_eq_true, if_true, Cell.sibling, blockAddr]
    ring
  · obtain ⟨k, hk⟩ := Nat.exists_eq_add_of_le' (show 1 ≤ c.index by omega)
    rw [if_neg (by simpa using even)]
    simp only [Cell.sibling, if_neg even, blockAddr]
    rw [hk, Nat.add_sub_cancel, Nat.add_mul, Nat.one_mul, ← Nat.add_assoc, Nat.add_sub_cancel]

theorem blockAddr_parent (start : ℕ) (c : Cell) :
    (if c.index % 2 = 0 then blockAddr start c else blockAddr start c.sibling) =
      blockAddr start c.parent := by
  obtain ⟨o, i⟩ := c
  rw [Cell.parent, ← blockAddr_left]
  by_cases even : i % 2 = 0
  · have : 2 * (i / 2) = i := by omega
    simp [even, this]
  · have : 2 * (i / 2) = i - 1 := by omega
    simp [Cell.sibling, even, this]

/-- A search and a removal with the same test take the same element. -/
theorem perm_cons_eraseP {α : Type*} {test : α → Bool} {list : List α} {x : α}
    (found : list.find? test = some x) : list.Perm (x :: list.eraseP test) := by
  obtain ⟨pass, left, right, rfl, before⟩ := find?_eq_some_iff_append.mp found
  rw [eraseP_append_right _ fun y hy => by simpa using before y hy, eraseP_cons_of_pos pass]
  exact perm_middle

theorem mem_eraseP_addr {list : List Buddy} (nodup : (list.map Buddy.addr).Nodup) (a : ℕ)
    (y : Buddy) : y ∈ list.eraseP (·.addr == a) ↔ y ∈ list ∧ y.addr ≠ a := by
  induction list with
  | nil => simp
  | cons head rest ih =>
    rw [map_cons, nodup_cons] at nodup
    by_cases same : head.addr = a
    · rw [eraseP_cons_of_pos (by simpa using same)]
      constructor
      · intro hy
        exact ⟨mem_cons_of_mem _ hy, fun h =>
          nodup.1 (same.trans h.symm ▸ mem_map_of_mem hy)⟩
      · rintro ⟨hy, hne⟩
        cases mem_cons.mp hy with
        | inl h => exact absurd (h ▸ same) hne
        | inr h => exact h
    · rw [eraseP_cons_of_neg (by simpa using same), mem_cons, ih nodup.2, mem_cons]
      constructor
      · rintro (rfl | ⟨hy, hne⟩)
        · exact ⟨.inl rfl, same⟩
        · exact ⟨.inr hy, hne⟩
      · rintro ⟨rfl | hy, hne⟩
        · exact .inl rfl
        · exact .inr ⟨hy, hne⟩

theorem AreaInv.kfreeIfUser (inv : AreaInv area n held wrong) (t : Buddy) :
    AreaInv (if area.user then area.kfreeBuddy t else area) n held wrong ∧
      SameGeometry area (if area.user then area.kfreeBuddy t else area) := by
  cases area.user with
  | true => exact ⟨inv.descriptors _ _, ⟨rfl, rfl, rfl⟩⟩
  | false => exact ⟨inv, SameGeometry.refl _⟩

theorem removeFromFree_spec (inv : AreaInv area n held wrong)
    (addr : b.addr = blockAddr area.startAddr c) (ptr : area.user = false → b.ptr = b.addr)
    (member : held c) (free : isFree area c.sibling = true) :
    ∃ area' t, removeFromFree area b c.order = (area', some t) ∧
      AreaInv area' n (fun d => held d ∨ d = c.sibling) (toggle c wrong) ∧
      SameGeometry area area' ∧ t.addr = blockAddr area.startAddr c.parent ∧
      (area.user = false → t.ptr = t.addr) := by
  have left := isLeftBuddy_eq addr ptr (inv.addr_lt (.inr member))
  have target := siblingAddr_eq addr
  obtain ⟨node, nodeMem, nodeAddr⟩ := isFree_iff.mp free
  have nodup := inv.nodup c.order
  -- the walk over the free list finds the node of the sibling
  cases found : (area.freeList c.order).find? (·.addr == blockAddr area.startAddr c.sibling) with
  | none =>
    rw [find?_eq_none] at found
    exact absurd (by simpa using nodeAddr) (found node nodeMem)
  | some t =>
    have tMem := mem_of_find?_eq_some found
    have tAddr : t.addr = blockAddr area.startAddr c.sibling := by
      simpa using find?_some found
    have removed : AreaInv (area.setFreeList c.order
        ((area.freeList c.order).eraseP (·.addr == blockAddr area.startAddr c.sibling))) n
        (fun d => held d ∨ d = c.sibling) (toggle c.sibling wrong) :=
      remove_spec inv free (c := c.sibling) eraseP_sublist (mem_eraseP_addr nodup _)
    have marks : toggle c.sibling wrong = toggle c wrong := by
      have half : c.sibling.index / 2 = c.index / 2 := by
        simp only [Cell.sibling]
        split <;> omega
      funext o j
      simp only [toggle, half]
      rfl
    rw [marks] at removed
    rw [removeFromFree]
    simp only [left, target, found]
    by_cases even : c.index % 2 = 0
    · obtain ⟨inv', geometry⟩ := removed.kfreeIfUser t
      refine ⟨_, b, by rw [if_pos (by simpa using even)], inv', ⟨geometry.startAddr, geometry.bmsize,
        geometry.user⟩, ?_, ptr⟩
      rw [addr, ← blockAddr_parent, if_pos even]
    · obtain ⟨inv', geometry⟩ := removed.kfreeIfUser b
      refine ⟨_, t, by rw [if_neg (by simpa using even)], inv', ⟨geometry.startAddr, geometry.bmsize,
        geometry.user⟩, ?_, fun kernel => inv.inPlace kernel _ _ tMem⟩
      rw [tAddr, ← blockAddr_parent, if_neg even]

/-- `_free_page` returns the block in hand to the free lists, merged with its buddies as
    far as they are free. -/
theorem freePageFrom_spec :
    ∀ (above order x : ℕ) (area : FreeArea) (b : Buddy) (held : Cell → Prop), order + above = maxOrder →
      AreaInv area n (fun d => held d ∨ d = ⟨order, x⟩) noneWrong → ¬ held ⟨order, x⟩ →
      b.addr = blockAddr area.startAddr ⟨order, x⟩ → (area.user = false → b.ptr = b.addr) →
      (∀ o, order ≤ o → o < maxOrder → x / 2 ^ (o - order) / 2 / 32 < area.bmsize o) →
      ∃ area', freePageFrom area b order above = .ok area' ∧
        AreaInv area' n held noneWrong ∧ SameGeometry area area' := by
  intro above
  -- induction on the number of levels that may still be merged
  induction above with
  | zero =>
    intro order x area b held total inv fresh addr ptr _
    have pushed := push_spec (c := ⟨order, x⟩) inv addr ptr (.inr rfl)
      (fun h => absurd h (by simp only; omega))
    refine ⟨_, rfl, ?_, ⟨rfl, rfl, rfl⟩⟩
    refine (pushed.congr_wrong fun o j ho => ?_).congr_held fun d => ?_
    · have : o ≠ order := by omega
      simp [toggle, noneWrong, this]
    · by_cases same : d = ⟨order, x⟩
      · simp [same, fresh]
      · simp [same]
  | succ above ih =>
    intro order x area b held total inv fresh addr ptr inBounds
    have below : order < maxOrder := by omega
    have bound : x / 2 / 32 < area.bmsize order := by
      simpa using inBounds order le_rfl below
    have small := inv.addr_lt (c := ⟨order, x⟩) (.inr (.inr rfl))
    have test := isSplit_spec (c := ⟨order, x⟩) inv addr (.inr rfl) below bound
    cases sibling : isFree area (Cell.mk order x).sibling with
    | false =>
      have pushed := push_spec (c := ⟨order, x⟩) inv addr ptr (.inr rfl) (fun _ => sibling)
      obtain ⟨area', flipped, inv', _, geometry⟩ := flipBitMap_spec (c := ⟨order, x⟩) (b := b) pushed
        addr small bound
      rw [toggle_toggle] at inv'
      refine ⟨area', ?_, inv'.congr_held fun d => ?_, ⟨geometry.startAddr, geometry.bmsize, geometry.user⟩⟩
      · rw [freePageFrom, test, sibling, ok_bind]
        simpa using flipped
      · by_cases same : d = ⟨order, x⟩
        · simp [same, fresh]
        · simp [same]
    | true =>
      obtain ⟨area1, flipped, inv1, lists, geometry1⟩ := flipBitMap_spec (c := ⟨order, x⟩) (b := b)
        inv addr small bound
      have free : isFree area1 (Cell.mk order x).sibling = true := by
        rw [← sibling, isFree, isFree, lists, geometry1.startAddr]
      obtain ⟨area2, t, unlinked, inv2, geometry2, tAddr, tPtr⟩ := removeFromFree_spec
        (c := ⟨order, x⟩) (b := b) inv1 (by rw [geometry1.startAddr]; exact addr)
        (by rw [geometry1.user]; exact ptr) (.inr rfl) free
      rw [toggle_toggle] at inv2
      have freshSibling : ¬ held (Cell.mk order x).sibling := fun h => inv.unheld _ sibling (.inl h)
      obtain ⟨merged, freshParent⟩ := inv2.mergeHeld below fresh freshSibling
      have geometry := geometry1.trans geometry2
      obtain ⟨area', rest, inv', geometry'⟩ := ih (order + 1) (x / 2) area2 t held (by omega)
        merged freshParent
        (by rw [geometry2.startAddr]; exact tAddr)
        (by rw [geometry2.user]; exact tPtr)
        (by
          intro o ho hmax
          have half : x / 2 / 2 ^ (o - (order + 1)) = x / 2 ^ (o - order) := by
            rw [Nat.div_div_eq_div_mul, ← pow_succ']
            congr 2
            omega
          rw [half, geometry.bmsize]
          exact inBounds o (by omega) hmax)
      refine ⟨area', ?_, inv', geometry.trans geometry'⟩
      rw [freePageFrom, test, sibling, ok_bind]
      rw [if_neg (by simp), flipped, ok_bind, unlinked]
      exact rest

theorem freePageAt_spec (le : order ≤ maxOrder)
    (inv : AreaInv area n (fun d => held d ∨ d = ⟨order, x⟩) noneWrong) (fresh : ¬ held ⟨order, x⟩)
    (addr : b.addr = blockAddr area.startAddr ⟨order, x⟩)
    (ptr : area.user = false → b.ptr = b.addr)
    (inBounds : ∀ o, order ≤ o → o < maxOrder → x / 2 ^ (o - order) / 2 / 32 < area.bmsize o) :
    ∃ area', freePageAt area b order = .ok area' ∧ AreaInv area' n held noneWrong ∧
      SameGeometry area area' := by
  rw [freePageAt, if_pos le]
  exact freePageFrom_spec _ order x area b held (by omega) inv fresh addr ptr inBounds

end Illinix.Verified.Buddy
