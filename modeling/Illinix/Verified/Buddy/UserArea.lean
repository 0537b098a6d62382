import Illinix.Verified.Buddy.Clients

/-! # The user area

`user_mem_init` indexes 24 blocks of 8 MB in `[64 MB, 256 MB)` but gives each bitmap the
words for a single one of them.  A request for a block whose pair lies beyond those words
runs into the fault; every other request is served.  `InBounds` separates the two cases by
the block alone: the head of the first nonempty free list for `get_user_page`, the block
handed in for `free_user_page`. -/

namespace Illinix.Verified.Buddy

open Kernel
open Lib (Run ok_bind error_bind pure_eq_ok bind_eq_ok)
open Lib.Dyadic (Cell)

/-! ## Requests outside the bitmaps -/

section

variable {area area' : FreeArea} {b : Buddy} {order tar : ℕ}

/-- The fault of a bitmap access. -/
def OutOfBounds {α : Type} (result : Except Fault α) : Prop :=
  ∃ order index, result = .error (.bitMapBounds order index)

theorem OutOfBounds.bind {α β : Type} {result : Except Fault α} (fault : OutOfBounds result)
    (next : α → Except Fault β) : OutOfBounds (result >>= next) := by
  obtain ⟨order, index, error⟩ := fault
  exact ⟨order, index, by rw [error, error_bind]⟩

theorem flipBitMap_outOfBounds (outside : ¬ PairInBounds area order b.addr) :
    OutOfBounds (flipBitMap area b order) :=
  ⟨order, pairIndex area b order, if_neg outside⟩

theorem flipBitMap_cases (area : FreeArea) (b : Buddy) (order : ℕ) :
    OutOfBounds (flipBitMap area b order) ∨
      ∃ area', flipBitMap area b order = .ok area' ∧ SameGeometry area area' := by
  by_cases inside : PairInBounds area order b.addr
  · exact .inr ⟨_, if_pos inside, ⟨rfl, rfl, rfl⟩⟩
  · exact .inl (flipBitMap_outOfBounds inside)

theorem rightHalf_geometry (area : FreeArea) (b : Buddy) (order : ℕ) :
    SameGeometry area (rightHalf area b order).1 := by
  unfold rightHalf
  split
  · exact ⟨rfl, rfl, rfl⟩
  · exact .refl _

theorem SameGeometry.pairInBounds (geometry : SameGeometry area area') (order addr : ℕ) :
    PairInBounds area' order addr ↔ PairInBounds area order addr := by
  rw [PairInBounds, PairInBounds, geometry.startAddr, geometry.bmsize]

theorem flipBitMap_rightHalf_outOfBounds (outside : ¬ PairInBounds area order b.addr) :
    OutOfBounds (flipBitMap (rightHalf area b order).1 b order) := by
  apply flipBitMap_outOfBounds
  rwa [(rightHalf_geometry area b order).pairInBounds]

/-- A split that ends at a pair outside its bitmap faults there, or on the way. -/
theorem buddySplit_outOfBounds (cur : ℕ) (area : FreeArea) (le : tar ≤ cur)
    (outside : ¬ PairInBounds area tar b.addr) : OutOfBounds (buddySplit area b tar cur) := by
  induction cur generalizing area with
  | zero =>
    obtain rfl : tar = 0 := by omega
    exact (flipBitMap_rightHalf_outOfBounds outside).bind _
  | succ cur ih =>
    by_cases same : cur + 1 = tar
    · subst same
      rw [buddySplit, if_pos rfl]
      exact (flipBitMap_rightHalf_outOfBounds outside).bind _
    · rw [buddySplit, if_neg same]
      have next : ∀ split, SameGeometry (rightHalf area b (cur + 1)).1 split → OutOfBounds (buddySplit
            (split.freeListPush cur (rightHalf area b (cur + 1)).2) b tar cur) := by
        intro split geometry
        have moved : ¬ PairInBounds split tar b.addr := by
          rwa [((rightHalf_geometry area b (cur + 1)).trans geometry).pairInBounds]
        exact ih _ (by omega) moved
      split
      · cases flipBitMap_cases (rightHalf area b (cur + 1)).1 b (cur + 1) with
        | inl fault => exact fault.bind _
        | inr flipped =>
          obtain ⟨split, done, geometry⟩ := flipped
          rw [done, ok_bind]
          exact next split geometry
      · exact next _ (.refl _)

theorem getPageLoop_outOfBounds {orders : List ℕ} {i : ℕ} (range : ∀ j ∈ orders, order ≤ j)
    (pick : chosen area orders = some (i, b)) (outside : ¬ PairInBounds area order b.addr) :
    OutOfBounds (getPageLoop area order orders) := by
  obtain ⟨member, _⟩ := chosen_mem pick
  obtain ⟨rest, _, loop⟩ := getPageLoop_some order pick
  rw [loop]
  exact (buddySplit_outOfBounds i (area.setFreeList i rest) (range i member) outside).bind _

theorem freePageAt_outOfBounds (below : order < maxOrder)
    (outside : ¬ PairInBounds area order b.addr) : OutOfBounds (freePageAt area b order) := by
  rw [freePageAt, if_pos below.le, show maxOrder - order = (maxOrder - order - 1) + 1 by omega, freePageFrom]
  exact OutOfBounds.bind ⟨order, pairIndex area b order, if_neg outside⟩ _

theorem exec_outOfBounds {n : ℕ} {s : Client} {r : Request} (inv : ClientInv n s)
    (legal : Legal s r) (outside : ¬ InBounds s.area r) : OutOfBounds (exec s r) := by
  cases r with
  | get order =>
    simp only [InBounds, not_forall] at outside
    obtain ⟨nonneg, lt, i, b, pick, outside⟩ := outside
    have loop := getPageLoop_outOfBounds (fun j hj => (ordersFrom_range j hj).1) pick outside
    have accepted : ¬ (order ≥ maxOrder ∨ order < 0) := by omega
    refine OutOfBounds.bind ?_ _
    rw [getBlock]
    split
    · rw [getUserPage, if_neg accepted]
      exact loop.bind _
    · rw [getPage, if_neg accepted]
      exact loop.bind _
  | free block =>
    obtain ⟨below, _⟩ := inv.aligned block legal
    refine OutOfBounds.bind ?_ _
    rw [freeBlock]
    split
    · exact freePageAt_outOfBounds below outside
    · exact freePageAt_outOfBounds below outside

end

/-! ## Runs from `user_mem_init` -/

def userInit : Client := ⟨userMemInit, []⟩

/-- The pages of `[64 MB, 256 MB)`. -/
def userAreaPages : ℕ := (maxPhysPages - kernelPages) * pageSize4MB / pageSize

theorem userBmsize_widening : Widening userBmsize := by
  refine Widening.of_double fun o ho => ?_
  have : o < 10 := by simp only [maxOrder] at ho; omega
  interval_cases o <;> decide

theorem userMemInit_startAddr : userMemInit.startAddr = kernelPages * pageSize4MB := by
  rw [userMemInit, foldl_keeps FreeArea.startAddr]
  exact fun _ _ => rfl

theorem userInit_inv : ClientInv userAreaPages userInit := by
  have top : (userMemInit.freeList maxOrder).map Buddy.addr =
      (List.range 24).map fun i => blockAddr userMemInit.startAddr ⟨maxOrder, i⟩ := by
    exact foldl_freeList_top (fun area i => by simp [FreeArea.getBuddy]) _ _
  refine initial_inv ?_ top ?_ ?_ ?_ ?_
  · intro o ho
    exact foldl_keeps (fun area => area.freeList o)
      (fun area i => by simp [FreeArea.getBuddy, freeListPush_of_ne _ _ ho]) _ _
  · intro kernel
    cases kernel
  · intro o w
    rw [userMemInit, foldl_keeps FreeArea.bitMap]
    exact fun _ _ => rfl
  · rw [userMemInit_startAddr]
    norm_num [kernelPages, pageSize4MB, pageSize, maxOrder]
  · exact userBmsize_widening

variable {s : Client}

/-- A run gets through only requests that stay inside the bitmaps, so the invariant
    holds wherever it has got to. -/
theorem user_run_inv {events : List Request} (run : Run Step userInit events s) :
    ClientInv userAreaPages s := by
  refine run.invariant (fun t r u inv step => ?_) userInit_inv
  by_cases inside : InBounds t.area r
  · obtain ⟨v, done, inv', _⟩ := exec_spec inv step.1 inside
    rw [step.2] at done
    cases done
    exact inv'
  · obtain ⟨order, index, fault⟩ := exec_outOfBounds inv step.1 inside
    rw [step.2] at fault
    cases fault

/-- In every state of a run, a request is served when the pair of its block lies in the
    bitmap of its order, and otherwise accesses a word outside a bitmap. -/
theorem user_request_bounds {events : List Request} (run : Run Step userInit events s)
    {r : Request} (legal : Legal s r) :
    (InBounds s.area r ↔ ∃ t, exec s r = .ok t) ∧
    (¬ InBounds s.area r ↔ ∃ order index, exec s r = .error (.bitMapBounds order index)) := by
  have inv := user_run_inv run
  have served : InBounds s.area r → ∃ t, exec s r = .ok t := fun inside => by
    obtain ⟨t, done, _⟩ := exec_spec inv legal inside
    exact ⟨t, done⟩
  have faults : ¬ InBounds s.area r → OutOfBounds (exec s r) := exec_outOfBounds inv legal
  refine ⟨⟨served, ?_⟩, ⟨faults, ?_⟩⟩
  · rintro ⟨t, done⟩
    by_contra outside
    obtain ⟨order, index, fault⟩ := faults outside
    rw [done] at fault
    cases fault
  · rintro ⟨order, index, fault⟩ inside
    obtain ⟨t, done⟩ := served inside
    rw [done] at fault
    cases fault

/-- The first page is obtained inside the bitmaps. -/
theorem user_request_bounds_first : ∃ t, exec userInit (.get 0) = .ok t :=
  (user_request_bounds (.nil _) (r := .get 0) trivial).1.mp (by
    intro _ _ i b pick
    have head : chosen userInit.area (ordersFrom 0) = some (11, ⟨0, 0x4000000⟩) := by decide
    rw [show (0 : ℤ).toNat = 0 from rfl, head] at pick
    cases pick
    decide)

/-- Two requests for 4 MB use up the first block of 8 MB; the next page comes from the
    second one, whose pairs of order 5 start at bit 32 of a bitmap of one word. -/
theorem user_third_request_faults : ∃ s, Run Step userInit [.get 10, .get 10] s ∧
    exec s (.get 0) = .error (.bitMapBounds 5 32) ∧ s.area.bmsize 5 = 1 := by
  have run : ∀ t s, exec userInit (.get 10) = .ok t → exec t (.get 10) = .ok s →
      Run Step userInit [.get 10, .get 10] s :=
    fun t s first second => .cons ⟨trivial, first⟩ (.cons ⟨trivial, second⟩ (.nil _))
  exact ⟨_, run _ _ rfl rfl, rfl, rfl⟩

end Illinix.Verified.Buddy
