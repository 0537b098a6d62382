import Illinix.Verified.Vm.Areas

/-! # Growing the stack

`do_page_fault` puts a page in front of the stack area and shifts the array of the area by one entry.  It copies the
old entries four words further than it should, because `sizeof` is added to a pointer to words, and one
entry too many.  The stack grows as it should only once, when the area is empty. -/

namespace Illinix.Verified.Vm

open Kernel Lib List Function

/-- The stack of a process before a page fault: its pages are mapped as the array says, the frame of a mapped page is
    not free, and the area lies above the kernel. -/
structure StackReady (s : VmState) (t : Nat) (before : List Area) (stack : Area) (after : List Area) : Prop where
  areas : (s.vms t).mapList = before ++ stack :: after
  others : ∀ a ∈ before, a.vmflag &&& vmStack = 0
  flagged : stack.vmflag &&& vmStack ≠ 0
  start : PageAddr stack.vmstart
  stop : PageAddr stack.vmend
  order : stack.vmstart ≤ stack.vmend
  above : kernelEnd < stack.vmstart
  array : Represents s.toPaging stack
  tables : TablesOk s.toPaging
  slots : UserSlots s.toPaging
  frame : ∀ f ∈ s.frames, FrameOk f
  nodup : s.frames.Nodup
  fresh : ∀ u e, s.entry u = some e → addrToPte e ∉ s.frames

/-- The stack area has grown by one page at its start.  `temp` is what the block for the new array held, and the memory
    behind it. -/
structure Deepened (s : Space) (stack : Area) (temp : Nat → Nat) (s' : Space) (stack' : Area) : Prop where
  start : stack'.vmstart + pageSize = stack.vmstart
  stop : stack'.vmend = stack.vmend
  /-- The new page is mapped to a frame that was free, as `mmap[0]` says. -/
  mapped : s'.entry stack'.vmstart = some (stack'.mmap 0)
  fresh : addrToPte (stack'.mmap 0) ∈ s.frames ∧ addrToPte (stack'.mmap 0) ∉ s'.frames
  shifted : ∀ k < Area.size stack, stack'.mmap (k + 1) = stack.mmap k
  /-- Nothing is written behind the words of the block. -/
  within : ∀ i, Area.size stack + 1 ≤ i → stack'.mmap i = temp i

/-- What `do_page_fault` is for, whatever the block holds that `kmalloc` returns. -/
def StackGrows (s : VmState) (t addr : Nat) (before : List Area) (stack : Area) (after : List Area) : Prop :=
  ∀ temp, ∃ s' stack', doPageFault { s with blocks := temp :: s.blocks } t addr = .ok s' ∧
    (s'.vms t).mapList = before ++ stack' :: after ∧ Deepened s.toSpace stack temp s'.toSpace stack'

/-- The array that `do_page_fault` builds for the new stack area, before the new entry is stored. -/
def copiedMmap (stack : Area) (temp : Nat → Nat) : Nat → Nat := fun i =>
  if 1 < sub32 stack.vmend stack.vmstart / pageSize + 1 ∧ 4 ≤ i ∧
    i < 4 + (sub32 stack.vmend stack.vmstart / pageSize + 1)
  then stack.mmap (i - 4) else temp i

/-- The stack area after the fault. -/
def deeper (stack : Area) (temp : Nat → Nat) (pa : Nat) : Area :=
  { stack with
    vmstart := sub32 stack.vmstart pageSize
    mmap := update (copiedMmap stack temp) 0 (ptePresent ||| (pteRw ||| pteUs) ||| addrToPte pa) }

theorem deeper_behind (stack : Area) (temp : Nat → Nat) (pa : Nat) {i : Nat} (later : i ≠ 0) :
    (deeper stack temp pa).mmap i = copiedMmap stack temp i := update_of_ne later ..

/-- `growStack` is one call of `mmap`, whose result is not looked at. -/
theorem growStack_eq (s : Space) (stack : Area) (temp : Nat → Nat) (blocks : List (Nat → Nat)) :
    growStack { s with blocks := temp :: blocks } stack =
      mmap s.toPaging (sub32 stack.vmstart pageSize) s.getUserPage.1 pageSize (pteRw ||| pteUs) >>= fun p =>
        pure ({ s with toPaging := p.1, frames := s.getUserPage.2.frames, blocks },
          deeper stack temp s.getUserPage.1, ()) := by
  obtain ⟨paging, frames, mem, old⟩ := s
  cases frames with
  | nil =>
    simp only [growStack, Space.getUserPage, Space.mmap]
    cases mmap paging (sub32 stack.vmstart pageSize) 0 pageSize (pteRw ||| pteUs) with
    | error e => rfl
    | ok p => rfl
  | cons pa rest =>
    simp only [growStack, Space.getUserPage, Space.mmap]
    cases mmap paging (sub32 stack.vmstart pageSize) pa pageSize (pteRw ||| pteUs) with
    | error e => rfl
    | ok p => rfl

theorem stackFlags : pteRw ||| pteUs < 2 ^ 12 ∧ (pteRw ||| pteUs).testBit 7 = false := by decide

section

variable {s : VmState} {t addr : Nat} {before after : List Area} {stack : Area} {temp : Nat → Nat}

section

variable (ready : StackReady s t before stack after)

include ready

theorem doPageFault_eq (inside : addr < userStackAddr ∧ userStackAddr - userStackMax < addr) :
    doPageFault { s with blocks := temp :: s.blocks } t addr =
      mmap s.toPaging (sub32 stack.vmstart pageSize) s.getUserPage.1 pageSize (pteRw ||| pteUs) >>= fun p =>
        pure ({ s with toPaging := p.1, frames := s.getUserPage.2.frames }.setVm t
          { s.vms t with mapList := before ++ deeper stack temp s.getUserPage.1 :: after }) := by
  unfold doPageFault
  rw [if_pos inside]
  show (onFirst vmStack growStack (s.vms t).mapList _ >>= _) = _
  rw [ready.areas, onFirst_append ready.others ready.flagged]
  have grown := growStack_eq s.toSpace stack temp s.blocks
  show (growStack { s.toSpace with blocks := temp :: s.blocks } stack >>= _) >>= _ = _
  rw [grown]
  cases mmap s.toPaging (sub32 stack.vmstart pageSize) s.getUserPage.1 pageSize (pteRw ||| pteUs) with
  | error e => rfl
  | ok p => rfl

theorem doPageFault_ok
    (inside : addr < userStackAddr ∧ userStackAddr - userStackMax < addr) {s' : VmState} {stack' : Area}
    (done : doPageFault { s with blocks := temp :: s.blocks } t addr = .ok s')
    (areas : (s'.vms t).mapList = before ++ stack' :: after) :
    stack' = deeper stack temp s.getUserPage.1 ∧ s'.frames = s.getUserPage.2.frames ∧
      ∃ r, mmap s.toPaging (sub32 stack.vmstart pageSize) s.getUserPage.1 pageSize (pteRw ||| pteUs) =
        .ok (s'.toPaging, r) := by
  rw [doPageFault_eq ready inside] at done
  obtain ⟨⟨p, r⟩, entered, same⟩ := bind_eq_ok.mp done
  cases same
  rw [setVm_self, append_cancel_left_eq, cons.injEq] at areas
  exact ⟨areas.1.symm, rfl, r, entered⟩

theorem StackReady.below :
    ∃ va, sub32 stack.vmstart pageSize = va ∧ stack.vmstart - pageSize = va ∧ va + pageSize = stack.vmstart ∧
      UserPage s.toPaging va := by
  obtain ⟨aligned, bound⟩ := ready.start
  have above := ready.above
  have down : sub32 stack.vmstart pageSize + pageSize = stack.vmstart := by
    unfold sub32 pageSize kernelEnd at *
    omega
  refine ⟨_, rfl, Nat.sub_eq_of_eq_add down.symm, down, ready.slots _ ?_ ?_⟩
  · unfold PageAddr pageSize at *
    omega
  · unfold kernelEnd pageSize at *
    omega

theorem StackReady.size :
    sub32 stack.vmend stack.vmstart / pageSize = Area.size stack := by
  have bound := ready.stop.2
  have order := ready.order
  unfold Area.size sub32
  congr 1
  omega

/-- With pages in the stack the last word that is copied lies behind the block. -/
theorem copiedMmap_behind (some : 0 < Area.size stack) :
    copiedMmap stack temp (4 + Area.size stack) = stack.mmap (Area.size stack) := by
  unfold copiedMmap
  rw [ready.size, if_pos (by omega), Nat.add_sub_cancel_left]

theorem copiedMmap_empty (none : Area.size stack = 0) :
    copiedMmap stack temp = temp := by
  funext i
  unfold copiedMmap
  rw [ready.size, none]
  exact if_neg fun copied => absurd copied.1 (Nat.lt_irrefl 1)

/-- A stack that grows as it should has no pages. -/
theorem StackGrows.empty (inside : addr < userStackAddr ∧ userStackAddr - userStackMax < addr)
    (grows : StackGrows s t addr before stack after) : Area.size stack = 0 := by
  by_contra some
  -- memory that differs from the word that is copied there
  obtain ⟨s', stack', done, areas, deepened⟩ := grows fun _ => stack.mmap (Area.size stack) + 1
  obtain ⟨rfl, -, -⟩ := doPageFault_ok ready inside done areas
  have behind := deepened.within (4 + Area.size stack) (by omega)
  rw [deeper_behind _ _ _ (by omega), copiedMmap_behind ready (Nat.pos_of_ne_zero some)] at behind
  omega

end

/-- When `mmap` of the page below the stack succeeds. -/
structure PageBelow (s : Space) (stack : Area) : Prop where
  frames : s.frames ≠ []
  unused : s.entry (stack.vmstart - pageSize) = none
  table : present (s.directory (pdeMbAddr (stack.vmstart - pageSize))) = true ∨ s.pages ≠ []
  low : stack.vmstart ≤ 2 ^ 31

section

variable (ready : StackReady s t before stack after)
  (inside : addr < userStackAddr ∧ userStackAddr - userStackMax < addr)

include ready inside

theorem StackGrows.pageBelow
    (grows : StackGrows s t addr before stack after) : PageBelow s.toSpace stack := by
  obtain ⟨s', stack', done, areas, deepened⟩ := grows fun _ => 0
  obtain ⟨rfl, -, r, entered⟩ := doPageFault_ok ready inside done areas
  have kept := deepened.mapped
  obtain ⟨va, word, page, down, user⟩ := ready.below
  change s'.entry (sub32 stack.vmstart pageSize) = _ at kept
  rw [word] at entered kept
  cases frames : s.frames with
  | nil =>
    have taken := deepened.fresh.1
    rw [frames] at taken
    cases taken
  | cons pa rest =>
    have frame : FrameOk pa := ready.frame pa (frames ▸ mem_cons_self)
    rw [Space.getUserPage_cons frames] at entered
    have unused : s.entry va = none := by
      cases mapped : s.entry va with
      | none => rfl
      | some e =>
        rw [mmap_mapped user mapped] at entered
        have same : s.toPaging = s'.toPaging := congrArg Prod.fst (Except.ok.inj entered)
        rw [← same] at kept
        exact absurd deepened.fresh.1 (ready.fresh _ _ kept)
    have table : present (s.directory (pdeMbAddr va)) = true ∨ s.pages ≠ [] := by
      by_contra neither
      obtain ⟨absent, noPages⟩ := not_or.mp neither
      rw [mmap_panics user.1 absent (Decidable.not_not.mp noPages)] at entered
      cases entered
    have low : stack.vmstart ≤ 2 ^ 31 := by
      have result := mmap_page ready.tables user unused table frame.1 stackFlags.1 stackFlags.2
      split at result
      · next lower =>
        have aligned := ready.start.1
        unfold pageSize at *
        omega
      · rw [result] at entered
        cases entered
    refine ⟨frames ▸ cons_ne_nil _ _, ?_, ?_, low⟩
    · rw [page]
      exact unused
    · rw [page]
      exact table

theorem stackGrows_of_empty (empty : Area.size stack = 0)
    (supply : PageBelow s.toSpace stack) : StackGrows s t addr before stack after := by
  intro temp
  obtain ⟨va, word, page, down, user⟩ := ready.below
  obtain ⟨some, unused, table, low⟩ := supply
  rw [page] at unused table
  obtain ⟨pa, rest, frames⟩ := exists_cons_of_ne_nil some
  have frame : FrameOk pa := ready.frame pa (frames ▸ mem_cons_self)
  have result := mmap_page ready.tables user unused table frame.1 stackFlags.1 stackFlags.2
  have lower : va < 2 ^ 31 := by
    unfold pageSize at down
    omega
  rw [if_pos lower] at result
  obtain ⟨p, entered, stored⟩ := result
  have fault := @doPageFault_eq _ _ _ _ _ _ temp ready inside
  rw [word, Space.getUserPage_cons frames, entered, ok_bind] at fault
  have start : (deeper stack temp pa).vmstart = va := word
  have first : (deeper stack temp pa).mmap 0 = ptePresent ||| (pteRw ||| pteUs) ||| pa := by
    simp only [deeper, update_self, addrToPte_of_page frame.1]
  have taken : addrToPte ((deeper stack temp pa).mmap 0) = pa := by
    rw [first, addrToPte_word stackFlags.1 frame.1]
  refine ⟨_, deeper stack temp pa, fault, by rw [setVm_self], ?_⟩
  constructor
  · rw [start]
    exact down
  · rfl
  · rw [start, first]
    exact (stored.entry _ user).trans (if_pos rfl)
  · rw [taken, frames]
    have nodup := ready.nodup
    rw [frames] at nodup
    exact ⟨mem_cons_self, (nodup_cons.mp nodup).1⟩
  · intro k hk
    rw [empty] at hk
    exact absurd hk (Nat.not_lt_zero k)
  · intro i hi
    rw [deeper_behind _ _ _ (by omega), copiedMmap_empty ready empty]

end

end

/-- A page fault in the window of the stack grows the stack as it should if and only if the stack has no page yet and
    the page below it can be mapped. -/
theorem stack_grows_iff {s : VmState} {t addr : Nat} {before after : List Area} {stack : Area}
    (ready : StackReady s t before stack after)
    (inside : addr < userStackAddr ∧ userStackAddr - userStackMax < addr) :
    StackGrows s t addr before stack after ↔ Area.size stack = 0 ∧ PageBelow s.toSpace stack :=
  ⟨fun grows => ⟨grows.empty ready inside, grows.pageBelow ready inside⟩,
    fun cond => stackGrows_of_empty ready inside cond.1 cond.2⟩

/-- A stack of `n` pages below 0xC000000. -/
def stackArea (n : Nat) : Area := ⟨fun _ => 0x4000007, 0xC000000 - pageSize * n, 0xC000000, 6 + vmStack⟩

/-- A process with the stack only; one page is mapped. -/
def stackState (va n : Nat) : VmState :=
  { toPaging := oneTable va 0x4000007
    frames := [0x5000000]
    mem := fun _ _ => 0
    blocks := []
    vms := fun _ => { processVmInit with mapList := [stackArea n] }
    init := 1 }

theorem stackState_ready {va n : Nat} (small : n ≤ 1) (array : Represents (oneTable va 0x4000007) (stackArea n)) :
    StackReady (stackState va n) 0 [] (stackArea n) [] where
  areas := rfl
  others := forall_mem_nil _
  flagged := show (6 + vmStack) &&& vmStack ≠ 0 by decide
  start := by
    show PageAddr (0xC000000 - pageSize * n)
    unfold PageAddr pageSize
    omega
  stop := show PageAddr 0xC000000 by decide
  order := Nat.sub_le _ _
  above := by
    show kernelEnd < 0xC000000 - pageSize * n
    unfold kernelEnd pageSize
    omega
  array := array
  tables := oneTable_tables
  slots _ hu _ := oneTable_user hu
  frame := show ∀ f ∈ [0x5000000], FrameOk f by decide
  nodup := nodup_singleton _
  fresh := by
    intro u e mapped
    rw [oneTable_entry mapped]
    show addrToPte 0x4000007 ∉ [0x5000000]
    decide

/-- The first page of a stack. -/
theorem stack_grows_first : StackGrows (stackState 0x8800000 0) 0 0xBFFFFF0 [] (stackArea 0) [] := by
  have ready := @stackState_ready 0x8800000 0 (by decide) fun _ none => absurd none (Nat.not_lt_zero _)
  refine (stack_grows_iff ready (by decide)).mpr ⟨rfl, List.cons_ne_nil _ _, ?_, .inr (List.cons_ne_nil _ _), ?_⟩
  · show (oneTable 0x8800000 0x4000007).entry 0xBFFF000 = none
    decide +kernel
  · show 0xC000000 ≤ 2 ^ 31
    decide

/-- The second page: `mmap[1]` is not the entry of the old page but what the block held, and the old entry has been
    written behind the two words of the block. -/
theorem second_stack_page_lost : StackReady (stackState 0xBFFF000 1) 0 [] (stackArea 1) [] ∧
    (∃ s', doPageFault { stackState 0xBFFF000 1 with blocks := [fun _ => 0] } 0 0xBFFEFF0 = .ok s' ∧
      (s'.vms 0).mapList.map (fun a => (a.vmstart, a.mmap 1, a.mmap 4)) = [(0xBFFE000, 0, 0x4000007)]) ∧
    ¬ StackGrows (stackState 0xBFFF000 1) 0 0xBFFEFF0 [] (stackArea 1) [] := by
  have array : Represents (oneTable 0xBFFF000 0x4000007) (stackArea 1) := by
    intro k hk
    have zero : k = 0 := Nat.lt_one_iff.mp hk
    subst zero
    decide +kernel
  have ready := @stackState_ready 0xBFFF000 1 (by decide) array
  have found : okAnd (doPageFault { stackState 0xBFFF000 1 with blocks := [fun _ => 0] } 0 0xBFFEFF0)
      (fun s' => (s'.vms 0).mapList.map (fun a => (a.vmstart, a.mmap 1, a.mmap 4)) =
        [(0xBFFE000, 0, 0x4000007)]) = true := by
    decide +kernel
  obtain ⟨s', done, out⟩ := okAnd_iff.mp found
  refine ⟨ready, ⟨s', done, of_decide_eq_true out⟩, fun grows => ?_⟩
  exact absurd (grows.empty ready (by decide)) (by decide)

end Illinix.Verified.Vm
