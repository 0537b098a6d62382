import Illinix.Verified.Buddy.Operations
import Illinix.Lib.Run

/-! # Clients of a buddy allocator

A client state is a free area with the blocks that have been handed out.  Clients ask
for a block of some order or give back a block they hold, with the order they obtained
it with; `exec` runs the request on the kernel area or on the user area.

`InBounds` is the condition under which a request touches only words of the bitmaps:
it looks at the pair of the requested order only, since a pair that contains a block is
at least as far inside the bitmap of its order (`Widening`). -/

namespace Illinix.Verified.Buddy

open Kernel List
open Lib (Run ok_bind error_bind pure_eq_ok)
open Lib.Dyadic (Cell Tiles)

structure Block where
  order : ℕ
  addr : ℕ
deriving DecidableEq, Repr

structure Client where
  area : FreeArea
  held : List Block

inductive Request where
  | get (order : ℤ)
  | free (block : Block)
deriving DecidableEq

def getBlock (area : FreeArea) (order : ℤ) : Except Fault (FreeArea × Option ℕ) :=
  if area.user then getUserPage area order else getPage area order

def freeBlock (area : FreeArea) (block : Block) : Except Fault FreeArea :=
  if area.user then freeUserPage area block.addr block.order
  else freePage area block.addr block.order

def exec (s : Client) : Request → Except Fault Client
  | .get order => do
    let (area, found) ← getBlock s.area order
    match found with
    | none => return ⟨area, s.held⟩
    | some p => return ⟨area, ⟨order.toNat, p⟩ :: s.held⟩
  | .free block => do
    return ⟨← freeBlock s.area block, s.held.erase block⟩

/-- Clients free only what they hold. -/
def Legal (s : Client) : Request → Prop
  | .get _ => True
  | .free block => block ∈ s.held

def Step (s : Client) (r : Request) (t : Client) : Prop := Legal s r ∧ exec s r = .ok t

/-! ## Bounds of the bitmaps -/

/-- The bit of the pair of this block lies in the bitmap of its order. -/
def PairInBounds (area : FreeArea) (order addr : ℕ) : Prop :=
  sub32 addr area.startAddr / buddySize order / 32 < area.bmsize order

instance (area : FreeArea) (order addr : ℕ) : Decidable (PairInBounds area order addr) :=
  inferInstanceAs (Decidable (_ < _))

def InBounds (area : FreeArea) : Request → Prop
  | .get order => 0 ≤ order → order < maxOrder → ∀ i b,
      chosen area (ordersFrom order.toNat) = some (i, b) → PairInBounds area order.toNat b.addr
  | .free block => PairInBounds area block.order block.addr

/-- Going up in order, a page stays inside the bitmaps. -/
def Widening (bmsize : ℕ → ℕ) : Prop :=
  ∀ o o' page, o ≤ o' → o' < maxOrder →
    page / 2 ^ (o + 1) / 32 < bmsize o → page / 2 ^ (o' + 1) / 32 < bmsize o'

theorem Widening.of_double {bmsize : ℕ → ℕ}
    (double : ∀ o, o + 1 < maxOrder → bmsize o ≤ 2 * bmsize (o + 1)) : Widening bmsize := by
  intro o o' page le
  induction o', le using Nat.le_induction with
  | base => exact fun _ h => h
  | succ o' _ ih =>
    intro below h
    have size := double o' below
    rw [show 2 ^ (o' + 1 + 1) = 2 ^ (o' + 1) * 2 from pow_succ _ _, ← Nat.div_div_eq_div_mul]
    omega

variable {area : FreeArea} {n : ℕ} {held : Cell → Prop}

theorem pairInBounds_iff {c : Cell} {order : ℕ} (small : blockAddr area.startAddr c < 2 ^ 32) :
    PairInBounds area order (blockAddr area.startAddr c) ↔
      c.index * 2 ^ c.order / 2 ^ (order + 1) / 32 < area.bmsize order := by
  have le : area.startAddr ≤ blockAddr area.startAddr c := Nat.le_add_right _ _
  have offset : blockAddr area.startAddr c - area.startAddr = c.index * 2 ^ c.order * pageSize := by
    simp only [blockAddr, blockSize, Nat.add_sub_cancel_left]
    ring
  have size : buddySize order = 2 ^ (order + 1) * pageSize := by
    rw [buddySize_eq, blockSize, pow_succ]
    ring
  rw [PairInBounds, sub32_of_le le small, offset, size,
    Nat.mul_div_mul_right _ _ (show 0 < pageSize by decide)]

theorem ordersFrom_range {order : ℕ} : ∀ j ∈ ordersFrom order, order ≤ j ∧ j ≤ maxOrder := by
  intro j hj
  simp only [ordersFrom, mem_range'_1] at hj
  omega

/-! ## Requests keep the invariant -/

theorem getBlock_spec {order : ℤ} (inv : AreaInv area n held noneWrong)
    (widening : Widening area.bmsize) (inBounds : InBounds area (.get order)) :
    getBlock area order = .ok (area, none) ∨ ∃ area' x, 0 ≤ order ∧ order.toNat < maxOrder ∧
        getBlock area order = .ok (area', some (blockAddr area.startAddr ⟨order.toNat, x⟩)) ∧
        AreaInv area' n (fun d => held d ∨ d = ⟨order.toNat, x⟩) noneWrong ∧
        ¬ held ⟨order.toNat, x⟩ ∧ SameGeometry area area' := by
  by_cases outside : order ≥ maxOrder ∨ order < 0
  · left
    simp only [getBlock, getUserPage, getPage, if_pos outside, pure_eq_ok, ite_self]
  have nonneg : 0 ≤ order := by omega
  have lt : order < maxOrder := by omega
  have below : order.toNat < maxOrder := by omega
  cases pick : chosen area (ordersFrom order.toNat) with
  | none =>
    left
    have loop := getPageLoop_none order.toNat pick
    simp [getBlock, getUserPage, getPage, loop]
  | some found =>
    right
    obtain ⟨i, b⟩ := found
    obtain ⟨member, node⟩ := chosen_mem pick
    obtain ⟨le, leMax⟩ := ordersFrom_range i member
    obtain ⟨x, addr⟩ := inv.nodes i b node
    have small := inv.addr_lt (.inl (isFree_iff.mpr ⟨b, node, addr⟩))
    have first := inBounds nonneg lt i b pick
    rw [addr, pairInBounds_iff small] at first
    obtain ⟨area', loop, inv', fresh, geometry, ptr⟩ := getPageLoop_spec inv below ordersFrom_range
      pick addr (by
        intro o ho hi hmax
        have wide := widening order.toNat o (x * 2 ^ i) ho hmax first
        have shift : x * 2 ^ (i - o) / 2 = x * 2 ^ i / 2 ^ (o + 1) := by
          obtain ⟨k, rfl⟩ := Nat.exists_eq_add_of_le hi
          rw [Nat.add_sub_cancel_left, pow_succ, ← Nat.div_div_eq_div_mul, pow_add,
            Nat.mul_comm (2 ^ o), ← Nat.mul_assoc, Nat.mul_div_cancel _ (by positivity)]
        rw [shift]
        exact wide)
    have result : b.addr = blockAddr area.startAddr ⟨order.toNat, x * 2 ^ (i - order.toNat)⟩ := by
      rw [blockAddr_split _ _ le, addr]
    cases user : area.user with
    | true =>
      refine ⟨area'.kfreeBuddy b, _, nonneg, below, ?_, inv'.descriptors _ _, fresh,
        ⟨geometry.startAddr, geometry.bmsize, geometry.user⟩⟩
      simp [getBlock, getUserPage, user, if_neg outside, loop, result]
    | false =>
      refine ⟨area', _, nonneg, below, ?_, inv', fresh, geometry⟩
      simp [getBlock, getPage, user, if_neg outside, loop, ptr user, result]

theorem freeBlock_spec {order x : ℕ} (inv : AreaInv area n held noneWrong)
    (widening : Widening area.bmsize) (below : order < maxOrder) (member : held ⟨order, x⟩)
    (inBounds : PairInBounds area order (blockAddr area.startAddr ⟨order, x⟩)) :
    ∃ area', freeBlock area ⟨order, blockAddr area.startAddr ⟨order, x⟩⟩ = .ok area' ∧
      AreaInv area' n (fun d => held d ∧ d ≠ ⟨order, x⟩) noneWrong ∧ SameGeometry area area' := by
  have small := inv.addr_lt (.inr member)
  rw [pairInBounds_iff small] at inBounds
  have bounds : ∀ o, order ≤ o → o < maxOrder → x / 2 ^ (o - order) / 2 / 32 < area.bmsize o := by
    intro o ho hmax
    have wide := widening order o (x * 2 ^ order) ho hmax inBounds
    have shift : x / 2 ^ (o - order) / 2 = x * 2 ^ order / 2 ^ (o + 1) := by
      obtain ⟨k, rfl⟩ := Nat.exists_eq_add_of_le ho
      rw [Nat.add_sub_cancel_left, Nat.div_div_eq_div_mul, show order + k + 1 = k + 1 + order by omega,
        pow_add 2 (k + 1) order, Nat.mul_div_mul_right _ _ (by positivity), pow_succ]
    rw [shift]
    exact wide
  have inHand : AreaInv area n (fun d => (held d ∧ d ≠ ⟨order, x⟩) ∨ d = ⟨order, x⟩) noneWrong :=
    inv.congr_held fun d => by
      by_cases same : d = ⟨order, x⟩
      · simp [same, member]
      · simp [same]
  cases user : area.user with
  | true =>
    have described : AreaInv (area.getBuddy (blockAddr area.startAddr ⟨order, x⟩)).1 n
        (fun d => (held d ∧ d ≠ ⟨order, x⟩) ∨ d = ⟨order, x⟩) noneWrong := inHand.descriptors _ _
    obtain ⟨area', freed, inv', geometry⟩ := freePageAt_spec
      (b := (area.getBuddy (blockAddr area.startAddr ⟨order, x⟩)).2) below.le described
      (fun h => h.2 rfl) rfl (fun h => by simp [FreeArea.getBuddy, user] at h) bounds
    refine ⟨area', ?_, inv', ⟨geometry.startAddr, geometry.bmsize, geometry.user⟩⟩
    rw [freeBlock, if_pos user]
    exact freed
  | false =>
    obtain ⟨area', freed, inv', geometry⟩ := freePageAt_spec
      (b := ⟨blockAddr area.startAddr ⟨order, x⟩, blockAddr area.startAddr ⟨order, x⟩⟩) below.le
      inHand (fun h => h.2 rfl) rfl (fun _ => rfl) bounds
    refine ⟨area', ?_, inv', geometry⟩
    rw [freeBlock, if_neg (by simp [user])]
    exact freed

def HeldCell (s : Client) (c : Cell) : Prop :=
  ⟨c.order, blockAddr s.area.startAddr c⟩ ∈ s.held

structure ClientInv (n : ℕ) (s : Client) : Prop where
  area : AreaInv s.area n (HeldCell s) noneWrong
  nodup : s.held.Nodup
  aligned : ∀ b ∈ s.held, b.order < maxOrder ∧
    ∃ i, b.addr = blockAddr s.area.startAddr ⟨b.order, i⟩
  widening : Widening s.area.bmsize

theorem exec_spec {s : Client} {r : Request} (inv : ClientInv n s) (legal : Legal s r)
    (inBounds : InBounds s.area r) :
    ∃ t, exec s r = .ok t ∧ ClientInv n t ∧ SameGeometry s.area t.area := by
  cases r with
  | get order =>
    cases getBlock_spec inv.area inv.widening inBounds with
    | inl none =>
      refine ⟨s, ?_, inv, SameGeometry.refl _⟩
      rw [exec, none, ok_bind]
      rfl
    | inr some =>
      obtain ⟨area', x, _, below, got, inv', fresh, geometry⟩ := some
      refine ⟨⟨area', ⟨order.toNat, blockAddr s.area.startAddr ⟨order.toNat, x⟩⟩ :: s.held⟩, ?_, ?_, geometry⟩
      · rw [exec, got, ok_bind]
        rfl
      · refine ⟨inv'.congr_held fun d => ?_, nodup_cons.mpr ⟨fresh, inv.nodup⟩, ?_, ?_⟩
        · simp only [HeldCell, geometry.startAddr, mem_cons, Block.mk.injEq]
          constructor
          · rintro (⟨order', addr⟩ | old)
            · obtain ⟨o, i⟩ := d
              subst order'
              exact .inr (by rw [blockAddr_inj.mp addr])
            · exact .inl old
          · rintro (old | rfl)
            · exact .inr old
            · exact .inl ⟨rfl, rfl⟩
        · intro b hb
          cases mem_cons.mp hb with
          | inl new => exact ⟨new ▸ below, x, by rw [new, geometry.startAddr]⟩
          | inr old => simpa only [geometry.startAddr] using inv.aligned b old
        · simpa only [geometry.bmsize] using inv.widening
  | free block =>
    obtain ⟨below, x, addr⟩ := inv.aligned block legal
    obtain ⟨order, address⟩ := block
    simp only at addr below
    subst addr
    obtain ⟨area', freed, inv', geometry⟩ := freeBlock_spec inv.area inv.widening below legal inBounds
    refine ⟨⟨area', s.held.erase ⟨order, blockAddr s.area.startAddr ⟨order, x⟩⟩⟩, ?_, ?_, geometry⟩
    · rw [exec, freed, ok_bind]
      rfl
    · refine ⟨inv'.congr_held fun d => ?_, inv.nodup.erase _, ?_, ?_⟩
      · simp only [HeldCell, geometry.startAddr, inv.nodup.mem_erase_iff]
        constructor
        · rintro ⟨ne, old⟩
          exact ⟨old, fun same => ne (by rw [same])⟩
        · rintro ⟨old, ne⟩
          refine ⟨fun same => ne ?_, old⟩
          obtain ⟨o, i⟩ := d
          simp only [Block.mk.injEq] at same
          obtain ⟨rfl, addr⟩ := same
          rw [blockAddr_inj.mp addr]
      · intro b hb
        simpa only [geometry.startAddr] using inv.aligned b (mem_of_mem_erase hb)
      · simpa only [geometry.bmsize] using inv.widening

/-! ## Initial states -/

theorem foldl_freeList_top {push : FreeArea → ℕ → FreeArea}
    (appended : ∀ area i, ((push area i).freeList maxOrder).map Buddy.addr =
      (area.freeList maxOrder).map Buddy.addr ++ [i])
    (addrs : List ℕ) (area : FreeArea) :
    ((addrs.foldl push area).freeList maxOrder).map Buddy.addr =
      (area.freeList maxOrder).map Buddy.addr ++ addrs := by
  induction addrs generalizing area with
  | nil => simp
  | cons i addrs ih => rw [foldl_cons, ih, appended, append_assoc]; rfl

/-- A part of the area that the loop over the highest order never writes. -/
theorem foldl_keeps {α : Type*} {push : FreeArea → ℕ → FreeArea} (field : FreeArea → α)
    (kept : ∀ area i, field (push area i) = field area) (addrs : List ℕ) (area : FreeArea) :
    field (addrs.foldl push area) = field area := by
  induction addrs generalizing area with
  | nil => rfl
  | cons i addrs ih => rw [foldl_cons, ih, kept]

/-- An area whose only free blocks are the first `k` blocks of the highest order. -/
theorem initial_inv {k : ℕ} (others : ∀ o ≠ maxOrder, area.freeList o = [])
    (top : (area.freeList maxOrder).map Buddy.addr =
      (List.range k).map fun i => blockAddr area.startAddr ⟨maxOrder, i⟩)
    (inPlace : area.user = false → ∀ b ∈ area.freeList maxOrder, b.ptr = b.addr)
    (zero : ∀ o w, area.bitMap o w = 0) (bound : area.startAddr + k * 2 ^ maxOrder * pageSize ≤ 2 ^ 32)
    (widening : Widening area.bmsize) : ClientInv (k * 2 ^ maxOrder) ⟨area, []⟩ := by
  have free : ∀ c, isFree area c = true ↔ c.order = maxOrder ∧ c.index < k := by
    rintro ⟨o, i⟩
    by_cases same : o = maxOrder
    · subst same
      have mem : isFree area ⟨maxOrder, i⟩ = true ↔
          blockAddr area.startAddr ⟨maxOrder, i⟩ ∈ (area.freeList maxOrder).map Buddy.addr := by
        rw [isFree_iff, mem_map]
      rw [mem, top, mem_map]
      simp [blockAddr_inj]
    · simp [isFree, others o same, same]
  refine ⟨⟨?_, ?_, ?_, ?_, ?_, ?_, ?_, bound⟩, nodup_nil, by simp, widening⟩
  · intro o b hb
    by_cases same : o = maxOrder
    · subst same
      have := mem_map_of_mem (f := Buddy.addr) hb
      rw [top, mem_map] at this
      obtain ⟨i, _, addr⟩ := this
      exact ⟨i, addr.symm⟩
    · simp [others o same] at hb
  · intro kernel o b hb
    by_cases same : o = maxOrder
    · subst same
      exact inPlace kernel b hb
    · simp [others o same] at hb
  · intro o
    by_cases same : o = maxOrder
    · subst same
      rw [top]
      exact nodup_range.map fun i j h => blockAddr_inj.mp h
    · simp [others o same]
  · refine ⟨?_, ?_, ?_, ?_⟩
    · rintro c (hc | hc)
      · exact ((free c).mp hc).1.le
      · simp [HeldCell] at hc
    · rintro c (hc | hc) p hp
      · obtain ⟨order, index⟩ := (free c).mp hc
        have := ((Cell.has_iff c p).mp hp).2
        rw [order] at this
        exact this.trans_le (Nat.mul_le_mul_right _ index)
      · simp [HeldCell] at hc
    · intro p hp
      refine ⟨⟨maxOrder, p / 2 ^ maxOrder⟩, .inl ((free _).mpr ⟨rfl, ?_⟩), rfl⟩
      exact (Nat.div_lt_iff_lt_mul (by positivity)).mpr hp
    · rintro c d p (hc | hc) (hd | hd) hcp hdp
      · exact Cell.eq_of_has (((free c).mp hc).1.trans ((free d).mp hd).1.symm) hcp hdp
      all_goals simp [HeldCell] at *
  · intro c _ hc
    simp [HeldCell] at hc
  · intro o i ho both
    have := ((free _).mp both.1).1
    simp only at this
    omega
  · intro o j ho _
    have none : ∀ i, isFree area ⟨o, i⟩ = false := by
      intro i
      by_contra h
      have := ((free ⟨o, i⟩).mp (by simpa using h)).1
      simp only at this
      omega
    simp [bit, pairFree, noneWrong, none, zero]

end Illinix.Verified.Buddy
