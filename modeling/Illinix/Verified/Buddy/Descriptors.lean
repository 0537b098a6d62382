import Illinix.Verified.Buddy.UserArea

/-! # Descriptors of user blocks

A node of a user free list is a descriptor from `kmalloc`.  `Ledger` accounts for all of them: a live
descriptor is on a free list, in the hand of a call that has taken it off one or not yet put it on
one, or lost.  Frees keep the books balanced, whichever side of a pair they merge into.
`buddy_split` obtains the descriptor of the right half before it compares the orders, and drops the last
one: each `get_user_page` that finds a block loses one descriptor. -/

namespace Illinix.Verified.Buddy

open Kernel List
open Lib (Run bind_eq_ok okAnd okAnd_iff)

/-- The descriptors on the free lists, one for each block. -/
def listed (area : FreeArea) : List ℕ :=
  (range (maxOrder + 1)).flatMap fun o => (area.freeList o).map Buddy.ptr

/-- The order of a request is in range, and there is a block on the lists that it looks through. -/
def FindsBlock (area : FreeArea) (order : ℤ) : Prop :=
  0 ≤ order ∧ order < maxOrder ∧ ∃ o ∈ ordersFrom order.toNat, area.freeList o ≠ []

instance (area : FreeArea) (order : ℤ) : Decidable (FindsBlock area order) :=
  inferInstanceAs (Decidable (_ ∧ _ ∧ ∃ o ∈ ordersFrom order.toNat, area.freeList o ≠ []))

structure Ledger (area : FreeArea) (hand lost : List ℕ) : Prop where
  user : area.user = true
  nodup : area.descriptors.Nodup
  old : ∀ d ∈ area.descriptors, d < area.nextDescriptor
  accounts : area.descriptors.Perm (hand ++ (lost ++ listed area))

variable {area area' : FreeArea} {hand lost : List ℕ} {b t : Buddy} {order d : ℕ}

/-! ## The free lists -/

theorem listed_setFreeList (area : FreeArea) (le : order ≤ maxOrder) (list : List Buddy) :
    ((area.freeList order).map Buddy.ptr ++ listed (area.setFreeList order list)).Perm
      (list.map Buddy.ptr ++ listed area) := by
  have member : order ∈ range (maxOrder + 1) := mem_range.mpr (by omega)
  -- the descriptors of one order, and those of the others, which do not change
  have split : ∀ area : FreeArea, (listed area).Perm ((area.freeList order).map Buddy.ptr ++
      ((range (maxOrder + 1)).erase order).flatMap fun o => (area.freeList o).map Buddy.ptr) :=
    fun area => (perm_cons_erase member).flatMap_right _
  have others : ((range (maxOrder + 1)).erase order).flatMap
      (fun o => ((area.setFreeList order list).freeList o).map Buddy.ptr) =
      ((range (maxOrder + 1)).erase order).flatMap fun o => (area.freeList o).map Buddy.ptr := by
    refine flatMap_congr fun o ho => ?_
    have ne : o ≠ order := ((nodup_range).mem_erase_iff.mp ho).1
    rw [setFreeList_of_ne area list ne]
  have after := split (area.setFreeList order list)
  rw [others, setFreeList_self] at after
  refine (after.append_left _).trans (.trans ?_ ((split area).symm.append_left _))
  simp only [← append_assoc]
  exact perm_append_comm.append_right _

namespace Ledger

theorem push (ledger : Ledger area (b.ptr :: hand) lost) (le : order ≤ maxOrder) :
    Ledger (area.freeListPush order b) hand lost := by
  have own : (b.ptr :: listed area).Perm (listed (area.freeListPush order b)) := by
    have moved := listed_setFreeList area le (area.freeList order ++ [b])
    rw [map_append, append_assoc] at moved
    exact ((perm_append_left_iff _).mp moved).symm
  refine ⟨ledger.user, ledger.nodup, ledger.old, ledger.accounts.trans ?_⟩
  refine .trans ?_ ((own.append_left lost).append_left hand)
  exact perm_middle.symm.trans (perm_middle.symm.append_left hand)

theorem remove (ledger : Ledger area hand lost) (le : order ≤ maxOrder) {rest : List Buddy}
    (perm : (area.freeList order).Perm (t :: rest)) :
    Ledger (area.setFreeList order rest) (t.ptr :: hand) lost := by
  have moved := ((perm.map Buddy.ptr).append_right _).symm.trans (listed_setFreeList area le rest)
  have own : (t.ptr :: listed (area.setFreeList order rest)).Perm (listed area) :=
    (perm_append_left_iff _).mp (perm_middle.trans moved)
  refine ⟨ledger.user, ledger.nodup, ledger.old, ledger.accounts.trans ?_⟩
  refine ((own.symm.append_left lost).append_left hand).trans ?_
  exact (perm_middle.append_left hand).trans perm_middle

/-! ## Descriptors -/

theorem getBuddy (ledger : Ledger area hand lost) (addr : ℕ) :
    Ledger (area.getBuddy addr).1 ((area.getBuddy addr).2.ptr :: hand) lost := by
  refine ⟨ledger.user, ?_, ?_, ledger.accounts.cons _⟩
  · refine nodup_cons.mpr ⟨fun member => ?_, ledger.nodup⟩
    exact lt_irrefl _ (ledger.old _ member)
  · intro d hd
    cases mem_cons.mp hd with
    | inl fresh =>
      rw [fresh]
      exact Nat.lt_succ_self _
    | inr old => exact Nat.lt_succ_of_lt (ledger.old d old)

theorem kfreeBuddy (ledger : Ledger area (b.ptr :: hand) lost) : Ledger (area.kfreeBuddy b) hand lost := by
  refine ⟨ledger.user, ledger.nodup.erase _, fun d hd => ledger.old d (mem_of_mem_erase hd), ?_⟩
  have rest := ledger.accounts.erase b.ptr
  rwa [cons_append, erase_cons_head] at rest

theorem drop (ledger : Ledger area (d :: hand) lost) : Ledger area hand (d :: lost) :=
  ⟨ledger.user, ledger.nodup, ledger.old, ledger.accounts.trans perm_middle.symm⟩

theorem flipBitMap (ledger : Ledger area hand lost) (done : flipBitMap area b order = .ok area') :
    Ledger area' hand lost := by
  by_cases inside : PairInBounds area order b.addr
  · have flipped : Kernel.flipBitMap area b order = .ok (area.flipBit order (pairIndex area b order)) :=
      if_pos inside
    cases done.symm.trans flipped
    exact ⟨ledger.user, ledger.nodup, ledger.old, ledger.accounts⟩
  · obtain ⟨_, _, fault⟩ := flipBitMap_outOfBounds inside
    cases done.symm.trans fault

theorem rightHalf (ledger : Ledger area hand lost) (b : Buddy) (order : ℕ) :
    Ledger (rightHalf area b order).1 ((rightHalf area b order).2.ptr :: hand) lost := by
  rw [Kernel.rightHalf, if_pos ledger.user]
  exact ledger.getBuddy _

/-! ## `get_user_page` -/

/-- The right half at the target order is dropped. -/
theorem split_last {result : FreeArea × Buddy} (ledger : Ledger area hand lost)
    (done : (do return (← Kernel.flipBitMap (Kernel.rightHalf area b order).1 b order, b)) = .ok result) :
    result.2 = b ∧ ∃ d, Ledger result.1 hand (d :: lost) := by
  obtain ⟨area', flipped, rest⟩ := bind_eq_ok.mp done
  cases rest
  exact ⟨rfl, _, ((ledger.rightHalf b order).flipBitMap flipped).drop⟩

/-- Each level of a split lists the descriptor that it obtains, except for the last. -/
theorem buddySplit {tar cur : ℕ} {result : FreeArea × Buddy} (ledger : Ledger area hand lost)
    (le : cur ≤ maxOrder) (done : buddySplit area b tar cur = .ok result) :
    result.2 = b ∧ ∃ d, Ledger result.1 hand (d :: lost) := by
  induction cur generalizing area with
  | zero =>
    rw [Kernel.buddySplit] at done
    by_cases last : 0 = tar
    · rw [if_pos last] at done
      exact ledger.split_last done
    · rw [if_neg last] at done
      cases done
  | succ cur ih =>
    rw [Kernel.buddySplit] at done
    by_cases last : cur + 1 = tar
    · rw [if_pos last] at done
      exact ledger.split_last done
    · rw [if_neg last] at done
      obtain ⟨split, flipped, rest⟩ := bind_eq_ok.mp done
      have half := ledger.rightHalf b (cur + 1)
      -- the bit map is flipped below the top order only, and holds no descriptors
      have kept : Ledger split ((Kernel.rightHalf area b (cur + 1)).2.ptr :: hand) lost := by
        by_cases top : cur + 1 ≠ maxOrder
        · rw [if_pos top] at flipped
          exact half.flipBitMap flipped
        · rw [if_neg top] at flipped
          cases flipped
          exact half
      exact ih (kept.push (by omega)) (by omega) rest

theorem getPageLoop {orders : List ℕ} {found : Option Buddy} (ledger : Ledger area hand lost)
    (range : ∀ i ∈ orders, i ≤ maxOrder)
    (done : getPageLoop area order orders = .ok (area', found)) :
    ((¬ ∃ i ∈ orders, area.freeList i ≠ []) ∧ found = none ∧ Ledger area' hand lost) ∨
      (∃ i ∈ orders, area.freeList i ≠ []) ∧
        ∃ b d, found = some b ∧ Ledger area' (b.ptr :: hand) (d :: lost) := by
  induction orders with
  | nil =>
    cases done
    exact .inl ⟨by simp, rfl, ledger⟩
  | cons i orders ih =>
    rw [Kernel.getPageLoop] at done
    cases list : area.freeList i with
    | nil =>
      simp only [FreeArea.freeListPop, list] at done
      have others : (∃ j ∈ i :: orders, area.freeList j ≠ []) ↔ ∃ j ∈ orders, area.freeList j ≠ [] := by
        simp [list]
      rw [others]
      exact ih (fun j hj => range j (mem_cons_of_mem _ hj)) done
    | cons temp rest =>
      simp only [FreeArea.freeListPop, list] at done
      obtain ⟨⟨area1, b⟩, split, result⟩ := bind_eq_ok.mp done
      cases result
      have le := range i (mem_cons_self ..)
      obtain ⟨same, d, after⟩ := (ledger.remove le (.of_eq list)).buddySplit le split
      cases same
      exact .inr ⟨⟨i, mem_cons_self .., by simp [list]⟩, b, d, rfl, after⟩

/-- A request that finds a block is paid for with a descriptor. -/
theorem getUserPage {order : ℤ} {page : Option ℕ} (ledger : Ledger area [] lost)
    (done : getUserPage area order = .ok (area', page)) :
    ∃ lost', Ledger area' [] lost' ∧
      lost'.length = lost.length + if FindsBlock area order then 1 else 0 := by
  rw [Kernel.getUserPage] at done
  by_cases refused : order ≥ maxOrder ∨ order < 0
  · rw [if_pos refused] at done
    cases done
    have finds : ¬ FindsBlock area order := by
      rintro ⟨pos, below, -⟩
      omega
    exact ⟨lost, ledger, by rw [if_neg finds, Nat.add_zero]⟩
  · rw [if_neg refused] at done
    obtain ⟨⟨area1, found⟩, loop, result⟩ := bind_eq_ok.mp done
    cases ledger.getPageLoop (fun i hi => (ordersFrom_range i hi).2) loop with
    | inl empty =>
      obtain ⟨none, rfl, after⟩ := empty
      cases result
      exact ⟨lost, after, by rw [if_neg fun finds => none finds.2.2, Nat.add_zero]⟩
    | inr split =>
      obtain ⟨some, temp, d, rfl, after⟩ := split
      cases result
      have finds : FindsBlock area order := ⟨by omega, by omega, some⟩
      exact ⟨d :: lost, after.kfreeBuddy, by rw [if_pos finds, length_cons]⟩

/-! ## `free_user_page` -/

/-- A merge frees the descriptor of the right block and keeps that of the left one. -/
theorem removeFromFree (ledger : Ledger area (b.ptr :: hand) lost) (le : order ≤ maxOrder)
    (done : removeFromFree area b order = (area', some t)) : Ledger area' (t.ptr :: hand) lost := by
  simp only [Kernel.removeFromFree] at done
  generalize (if isLeftBuddy area b order = true then b.addr + buddySize order / 2
    else b.addr - buddySize order / 2) = b2 at done
  split at done
  · cases done
  · next pair found =>
    have taken := ledger.remove le (perm_cons_eraseP found)
    have user : (area.setFreeList order _).user = true := taken.user
    simp only [user, if_true] at done
    split at done
    · -- `b` is the left block, and `pair` is freed
      cases done
      exact taken.kfreeBuddy
    · -- `pair` is the left block, and `b` is freed
      cases done
      exact kfreeBuddy { taken with accounts := taken.accounts.trans ((Perm.swap _ _ _).append_right _) }

/-- Every level of a free keeps the books. -/
theorem freePageFrom {above : ℕ} (ledger : Ledger area (b.ptr :: hand) lost)
    (le : order + above ≤ maxOrder) (done : freePageFrom area b order above = .ok area') :
    Ledger area' hand lost := by
  induction above generalizing area b order with
  | zero =>
    cases done
    exact ledger.push (by omega)
  | succ above ih =>
    rw [Kernel.freePageFrom] at done
    obtain ⟨split, -, rest⟩ := bind_eq_ok.mp done
    by_cases whole : ¬ split = true
    · -- the other block of the pair is in use
      rw [if_pos whole] at rest
      exact (ledger.push (by omega)).flipBitMap rest
    · rw [if_neg whole] at rest
      obtain ⟨area1, flipped, rest⟩ := bind_eq_ok.mp rest
      cases merged : Kernel.removeFromFree area1 b order with
      | mk area2 left =>
        rw [merged] at rest
        cases left with
        | none => cases rest
        | some t =>
          exact ih ((ledger.flipBitMap flipped).removeFromFree (by omega) merged) (by omega) rest

theorem freeUserPage {addr : ℕ} (ledger : Ledger area [] lost)
    (done : freeUserPage area addr order = .ok area') : Ledger area' [] lost := by
  rw [Kernel.freeUserPage] at done
  simp only [freePageAt] at done
  split at done
  · exact (ledger.getBuddy addr).freePageFrom (by omega) done
  · cases done

end Ledger

/-! ## Runs from `user_mem_init` -/

theorem userMemInit_ledger : Ledger userMemInit [] [] := by
  apply foldlRecOn (motive := fun area => Ledger area [] [])
  · exact ⟨rfl, .nil, by simp, by simp [listed]⟩
  · intro area ledger addr _
    exact (ledger.getBuddy addr).push le_rfl

/-- A call with the page it returns, `none` for `NULL`. -/
inductive UserCall where
  | getUserPage (order : ℤ) (page : Option ℕ)
  | freeUserPage (addr order : ℕ)
deriving DecidableEq

/-- A call that completes, with any arguments. -/
def UserStep (area : FreeArea) : UserCall → FreeArea → Prop
  | .getUserPage order page, area' => getUserPage area order = .ok (area', page)
  | .freeUserPage addr order, area' => freeUserPage area addr order = .ok area'

/-- A request that finds a block; a `free_user_page` takes none. -/
def Takes (area : FreeArea) : UserCall → Prop
  | .getUserPage order _ => FindsBlock area order
  | .freeUserPage _ _ => False

instance (area : FreeArea) : DecidablePred (Takes area)
  | .getUserPage order _ => inferInstanceAs (Decidable (FindsBlock area order))
  | .freeUserPage _ _ => inferInstanceAs (Decidable False)

def KeepingStep (area : FreeArea) (call : UserCall) (area' : FreeArea) : Prop :=
  ¬ Takes area call ∧ UserStep area call area'

/-- Each block on a free list has a descriptor of its own, and there are no others. -/
structure Balanced (area : FreeArea) : Prop where
  count : area.descriptors.length = (listed area).length
  nodup : (listed area).Nodup
  reachable : ∀ d, d ∈ area.descriptors ↔ d ∈ listed area

/-- A call that completes has one outcome. -/
theorem UserStep.unique {call : UserCall} {area1 area2 : FreeArea} (first : UserStep area call area1)
    (second : UserStep area call area2) : area1 = area2 := by
  cases call with
  | getUserPage order page =>
    cases first.symm.trans second
    rfl
  | freeUserPage addr order =>
    cases first.symm.trans second
    rfl

theorem Ledger.step {call : UserCall} (ledger : Ledger area [] lost) (step : UserStep area call area') :
    ∃ lost', Ledger area' [] lost' ∧ lost'.length = lost.length + if Takes area call then 1 else 0 := by
  cases call with
  | getUserPage order page =>
    obtain ⟨lost', ledger', length⟩ := ledger.getUserPage step
    exact ⟨lost', ledger', length⟩
  | freeUserPage addr order => exact ⟨lost, ledger.freeUserPage step, by simp [Takes]⟩

/-- No descriptor comes back, so that none is lost in a run exactly if none is lost in any step. -/
theorem Ledger.run {calls : List UserCall} (ledger : Ledger area [] lost)
    (run : Run UserStep area calls area') :
    ∃ lost', Ledger area' [] lost' ∧ lost.length ≤ lost'.length ∧
      (lost'.length = lost.length ↔ Run KeepingStep area calls area') := by
  induction run generalizing lost with
  | nil area => exact ⟨lost, ledger, le_rfl, fun _ => .nil area, fun _ => rfl⟩
  | @cons area area1 area' call calls step _ ih =>
    obtain ⟨lost1, ledger1, length1⟩ := ledger.step step
    obtain ⟨lost2, ledger2, le, same⟩ := ih ledger1
    by_cases takes : Takes area call
    · rw [if_pos takes] at length1
      refine ⟨lost2, ledger2, by omega, fun equal => by omega, fun whole => ?_⟩
      cases whole with
      | cons step' _ => exact absurd takes step'.1
    · rw [if_neg takes, Nat.add_zero] at length1
      refine ⟨lost2, ledger2, length1 ▸ le, ?_⟩
      rw [← length1, same]
      refine ⟨fun rest => .cons ⟨takes, step⟩ rest, fun whole => ?_⟩
      cases whole with
      | cons step' rest => exact step.unique step'.2 ▸ rest

theorem Ledger.balanced_iff (ledger : Ledger area [] lost) : Balanced area ↔ lost = [] := by
  have accounts := ledger.accounts
  rw [nil_append] at accounts
  constructor
  · intro balanced
    have length := accounts.length_eq
    rw [balanced.count, length_append] at length
    exact length_eq_zero_iff.mp (by omega)
  · rintro rfl
    exact ⟨accounts.length_eq, accounts.nodup_iff.mp ledger.nodup, fun d => accounts.mem_iff⟩

/-- The descriptors are balanced after a run of completed calls exactly if no `get_user_page` of an order in
    range found a block on the lists.  Each call that does loses one descriptor. -/
theorem user_descriptors_balanced_iff {calls : List UserCall} (run : Run UserStep userMemInit calls area) :
    (Balanced area ↔ Run KeepingStep userMemInit calls area) ∧
      ∀ call area', UserStep area call area' →
        area'.descriptors.length + (listed area).length =
          area.descriptors.length + (listed area').length + if Takes area call then 1 else 0 := by
  obtain ⟨lost, ledger, -, same⟩ := userMemInit_ledger.run run
  constructor
  · rw [ledger.balanced_iff, ← same, length_nil, length_eq_zero_iff]
  · intro call area' step
    obtain ⟨lost', ledger', length⟩ := ledger.step step
    have before := ledger.accounts.length_eq
    have after := ledger'.accounts.length_eq
    simp only [nil_append, length_append] at before after
    omega

/-- A request that is refused, and a block of 4 MB that is freed. -/
theorem user_descriptors_balanced_iff_freed : ∃ area,
    Run UserStep userMemInit [.getUserPage 11 none, .freeUserPage 0x4000000 10] area ∧ Balanced area := by
  obtain ⟨area, freed⟩ : ∃ area, freeUserPage userMemInit 0x4000000 10 = .ok area := ⟨_, rfl⟩
  have run : Run UserStep userMemInit [.getUserPage 11 none, .freeUserPage 0x4000000 10] area :=
    .cons (t := userMemInit) rfl (.cons freed (.nil _))
  have kept : Run KeepingStep userMemInit [.getUserPage 11 none, .freeUserPage 0x4000000 10] area :=
    .cons (t := userMemInit) ⟨fun finds => absurd finds.2.1 (by decide), rfl⟩ (.cons ⟨id, freed⟩ (.nil _))
  exact ⟨area, run, (user_descriptors_balanced_iff run).1.mpr kept⟩

/-- The first page: eleven descriptors are listed for the halves that are split off, and a twelfth is not. -/
theorem user_descriptor_lost : ∃ area,
    Run UserStep userMemInit [.getUserPage 0 (some 0x4000000)] area ∧
    area.descriptors.length = 35 ∧ (listed area).length = 34 ∧ ¬ Balanced area := by
  have found : okAnd (getUserPage userMemInit 0) (fun r => r.2 = some 0x4000000 ∧
      r.1.descriptors.length = 35 ∧ (listed r.1).length = 34) = true := by decide +kernel
  obtain ⟨⟨area, page⟩, done, passed⟩ := okAnd_iff.mp found
  obtain ⟨rfl, descriptors, blocks⟩ := of_decide_eq_true passed
  refine ⟨area, .cons done (.nil _), descriptors, blocks, fun balanced => ?_⟩
  have count : 35 = 34 := descriptors.symm.trans (balanced.count.trans blocks)
  cases count

end Illinix.Verified.Buddy
