import Illinix.Verified.Vm.Mapping
import Mathlib.Data.Nat.Bitwise

/-! # The pointer that `vidmap` checks

`do_vidmap` looks at the `PTE_US` bit of the word that `_walk` finds for the pointer and then stores
through it.  For the processor an address is accessible from user mode if its directory entry is
present and open to users and either maps 4 MB itself or leads to a page table entry that is present
and open to users.  `slot` lists what the directory can hold for an address: the check is right
for a page table entry that agrees with its directory entry, and for a kernel page of 4 MB only by
chance, since the word then comes from the memory of the page.  The page tables that `mmap` makes
for users are of the first kind; a pointer into a part of the directory without a table is not checked
at all.  Nor is the page of the last byte, if the four bytes of the pointer lie in two pages. -/

namespace Illinix.Verified.Vm

open Kernel Lib

variable {s : Paging} {va vidmap : Nat}

/-! ## The view of the processor -/

/-- What the directory holds for an address: nothing, a page of 4 MB, or a page table; with the word that
    `_walk` leads to. -/
inductive Slot where
  | absent
  | large (entry word : Nat)
  | table (entry pte : Nat)
deriving DecidableEq, Repr

def slot (s : Paging) (va : Nat) : Slot :=
  let entry := s.directory (pdeMbAddr va)
  if present entry then
    if entry.testBit 7 then .large entry (s.pte (s.ptePtr va)) else .table entry (s.pte (s.ptePtr va))
  else
    .absent

/-- The processor translates the address in user mode. -/
def Slot.Accessible : Slot → Prop
  | .absent => False
  | .large entry _ => userBit entry
  | .table entry pte => userBit entry ∧ present pte ∧ userBit pte

/-- A word is stored only through an accessible address; for any other address the call returns -1. -/
def Checks (s : Paging) (va vidmap : Nat) : Prop :=
  (∀ result stored, doVidmap s va vidmap = .ok (result, some stored) → (slot s va).Accessible) ∧
    (¬ (slot s va).Accessible → doVidmap s va vidmap = .ok (-1, none))

/-! ## The check -/

/-- The check is right: there is an entry to look at, and one that is open to users belongs to an accessible
    address. -/
def Slot.Checkable : Slot → Prop
  | .absent => False
  | .large entry word => userBit word → userBit entry
  | .table entry pte => userBit pte → userBit entry ∧ present pte

theorem slot_present (there : present (s.directory (pdeMbAddr va)) = true) :
    slot s va = if (s.directory (pdeMbAddr va)).testBit 7 then
        .large (s.directory (pdeMbAddr va)) (s.pte (s.ptePtr va))
      else .table (s.directory (pdeMbAddr va)) (s.pte (s.ptePtr va)) := by
  simp [slot, there]

theorem and_pteUs (entry : Nat) : entry &&& pteUs = 0 ↔ userBit entry = false := by
  have bit : pteUs = 2 ^ 2 := rfl
  rw [bit, Nat.and_two_pow, userBit]
  cases entry.testBit 2 with
  | false => simp
  | true => simp

theorem doVidmap_absent (absent : present (s.directory (pdeMbAddr va)) = false) :
    doVidmap s va vidmap = .error .pageFault := by
  simp [doVidmap, walk, absent]

theorem doVidmap_present (there : present (s.directory (pdeMbAddr va)) = true) : doVidmap s va vidmap =
      if userBit (s.pte (s.ptePtr va)) then
        if s.mapped va ∧ s.mapped ((va + 3) % 2 ^ 32) then .ok (0, some (va, vidmap)) else .error .pageFault
      else .ok (-1, none) := by
  simp only [doVidmap, walk, if_pos there, and_pteUs]
  cases userBit (s.pte (s.ptePtr va)) with
  | false => rfl
  | true => rfl

/-- Where there is an entry, the call is right if the word it looks at is open to users for accessible
    addresses only. -/
theorem checks_present (there : present (s.directory (pdeMbAddr va)) = true) :
    Checks s va vidmap ↔ (userBit (s.pte (s.ptePtr va)) = true → (slot s va).Accessible) := by
  unfold Checks
  rw [doVidmap_present there]
  cases userBit (s.pte (s.ptePtr va)) with
  | false =>
    refine ⟨fun _ open' => (nomatch open'), fun _ => ⟨fun result stored done => ?_, fun _ => rfl⟩⟩
    cases done
  | true =>
    refine ⟨fun ⟨_, refused⟩ _ => ?_, fun accessible => ⟨fun _ _ _ => accessible rfl, fun not => ?_⟩⟩
    · -- the call does not return -1
      by_contra closed
      have done := refused closed
      rw [if_pos rfl] at done
      split at done
      · cases done
      · cases done
    · exact absurd (accessible rfl) not

/-- An accessible page is mapped, also for the kernel. -/
theorem mapped_of_accessible (accessible : (slot s va).Accessible) : s.mapped va = true := by
  unfold slot at accessible
  simp only at accessible
  split at accessible
  · next there =>
    split at accessible
    · next large => simp [Paging.mapped, there, large]
    · simp [Paging.mapped, there, accessible.2.1]
  · exact accessible.elim

theorem mapped_congr {va' : Nat} (page : va / pageSize = va' / pageSize) : s.mapped va = s.mapped va' := by
  have index : va >>> 12 = va' >>> 12 := by
    rw [Nat.shiftRight_eq_div_pow, Nat.shiftRight_eq_div_pow]
    exact page
  have slot : pdeMbAddr va = pdeMbAddr va' := by
    show va >>> (12 + 10) = va' >>> (12 + 10)
    rw [Nat.shiftRight_add, Nat.shiftRight_add, index]
  have pte : s.ptePtr va = s.ptePtr va' := by
    rw [Paging.ptePtr, Paging.ptePtr, slot, pteIndex, pteIndex, index]
  rw [Paging.mapped, Paging.mapped, slot, pte]

/-- A check that is right lets no store fault whose four bytes lie in one page. -/
theorem Checks.returns (checks : Checks s va vidmap) (address : va < 2 ^ 32)
    (inside : va % pageSize + 4 ≤ pageSize) : ∃ r, doVidmap s va vidmap = .ok r := by
  by_cases accessible : (slot s va).Accessible
  · have first := mapped_of_accessible accessible
    have there : present (s.directory (pdeMbAddr va)) = true := (Bool.and_eq_true_iff.mp first).1
    have page : va / pageSize = (va + 3) % 2 ^ 32 / pageSize := by
      rw [pageSize] at inside ⊢
      omega
    rw [doVidmap_present there, ← mapped_congr page]
    split
    · rw [if_pos ⟨first, first⟩]
      exact ⟨_, rfl⟩
    · exact ⟨_, rfl⟩
  · exact ⟨_, checks.2 accessible⟩

/-- `do_vidmap` checks its pointer exactly if the directory has an entry for it, and the word that `_walk`
    leads to is open to users for accessible addresses only. -/
theorem doVidmap_checks_iff (s : Paging) (va vidmap : Nat) :
    Checks s va vidmap ↔ (slot s va).Checkable := by
  by_cases there : present (s.directory (pdeMbAddr va)) = true
  · rw [checks_present there]
    rw [slot_present there]
    split
    · exact .rfl
    · simp only [Slot.Accessible, Slot.Checkable]
      tauto
  · rw [Bool.not_eq_true] at there
    have missing : slot s va = .absent := by simp [slot, there]
    rw [missing]
    constructor
    · intro checks
      have done := checks.2 (missing ▸ id)
      rw [doVidmap_absent there] at done
      cases done
    · intro checkable
      exact checkable.elim

/-! ## The page tables of users -/

/-- `page_init` leaves the slots behind the kernel empty but for the video memory. -/
theorem pageInit_openTables {pageTable vidmapTable : Nat} {pages : List Nat}
    (apart : vidmapTable ≠ pageTable) (page : PageAddr vidmapTable) (supply : ∀ t ∈ pages, PageAddr t) :
    OpenTables (16 ≤ ·) (pageInit pageTable vidmapTable pages) := by
  have video : ∀ d, 16 ≤ d → present ((pageInit pageTable vidmapTable pages).directory d) = true →
      (pageInit pageTable vidmapTable pages).directory d = ptePresent ||| (pteRw ||| pteUs) ||| vidmapTable := by
    intro d mine there
    have behind : ¬ d = 0 ∧ ¬ d < 16 := ⟨by omega, by omega⟩
    simp only [pageInit, if_neg behind.1, if_neg behind.2] at there ⊢
    split at there
    · next slot =>
      rw [if_pos slot, addrToPte_of_page page]
      rfl
    · cases there
  refine ⟨fun d mine there => ?_, fun d mine there i => ?_, supply⟩
  · rw [video d mine there, userBit, Nat.testBit_or]
    rfl
  · rw [video d mine there, addrToPte_word (by decide) page]
    simp only [pageInit, if_neg apart, if_true]
    split
    · intro _
      simp [present, ptePresent]
    · decide

/-- In every state that `mmap` for users and `freemap` reach after `page_init`, an address behind the kernel
    is checked if its slot has a page table, and the call returns if the four bytes lie in one page. -/
theorem mapped_slots_checked {pageTable vidmapTable : Nat} {pages : List Nat} {u : Paging}
    {calls : List MapCall} (apart : vidmapTable ≠ pageTable) (page : PageAddr vidmapTable)
    (supply : ∀ t ∈ pages, PageAddr t)
    (run : Run (fun s call s' => OpensPages call ∧ ∃ r, call.exec s = .ok (s', r))
      (pageInit pageTable vidmapTable pages) calls u)
    (behind : 16 ≤ pdeMbAddr va) (there : present (u.directory (pdeMbAddr va)) = true) :
    Checks u va vidmap ∧
      (va < 2 ^ 32 → va % pageSize + 4 ≤ pageSize → ∃ r, doVidmap u va vidmap = .ok r) := by
  have kept : ∀ s call s', OpenTables (16 ≤ ·) s →
      OpensPages call ∧ (∃ r, call.exec s = .ok (s', r)) → OpenTables (16 ≤ ·) s' := by
    rintro s call s' h ⟨user, r, done⟩
    exact h.exec user done
  have reached := run.invariant kept (pageInit_openTables apart page supply)
  have checks : Checks u va vidmap := by
    rw [checks_present there]
    intro open'
    have entry := reached.directory _ behind there
    rw [slot_present there]
    split
    · exact entry
    · exact ⟨entry, reached.words _ behind there _ open', open'⟩
  exact ⟨checks, checks.returns⟩

/-- The first page of a program is mapped, and a pointer into it is checked. -/
theorem mapped_slots_checked_program : ∃ u, (MapCall.mmap 0x8048000 0x4000000 pageSize 6).exec
      (pageInit 0x410000 0x411000 [0x800000]) = .ok (u, 0) ∧ Checks u 0x8048010 0x84B8000 ∧
      ∃ r, doVidmap u 0x8048010 0x84B8000 = .ok r := by
  have found : okAnd ((MapCall.mmap 0x8048000 0x4000000 pageSize 6).exec (pageInit 0x410000 0x411000 [0x800000]))
      (fun p => p.2 = 0 ∧ present (p.1.directory 32) = true) = true := by
    decide +kernel
  obtain ⟨⟨u, r⟩, done, test⟩ := okAnd_iff.mp found
  obtain ⟨rfl, there⟩ := of_decide_eq_true test
  have user : OpensPages (.mmap 0x8048000 0x4000000 pageSize 6) := ⟨by decide, by decide⟩
  obtain ⟨checks, returns⟩ : Checks u 0x8048010 0x84B8000 ∧ _ :=
    mapped_slots_checked (by decide) (by decide) (by decide) (.cons ⟨user, 0, done⟩ (.nil u)) (by decide) there
  exact ⟨u, done, checks, returns (by decide) (by decide)⟩

/-- The tables after `page_init`, with `word` at the start of each page behind the first 8 MB. -/
def bootWith (word : Nat) : Paging :=
  { pageInit 0x410000 0x411000 [] with
    table := fun page index =>
      if page < 0x800000 then (pageInit 0x410000 0x411000 []).table page index
      else if index = 0 then word else 0 }

/-- A pointer without a directory entry: `NULL` is dereferenced.  A pointer to the start of the slab heap when
    its first block has four units: the word of the size has the bit, and the header is overwritten. -/
theorem vidmap_kernel_pointer :
    (slot (bootWith 4) 0xF000000 = .absent ∧
      doVidmap (bootWith 4) 0xF000000 0x84B8000 = .error .pageFault ∧
      ¬ Checks (bootWith 4) 0xF000000 0x84B8000) ∧
    (¬ (slot (bootWith 4) 0x800000).Accessible ∧
      doVidmap (bootWith 4) 0x800000 0x84B8000 = .ok (0, some (0x800000, 0x84B8000)) ∧
      ¬ Checks (bootWith 4) 0x800000 0x84B8000) := by
  have absent : doVidmap (bootWith 4) 0xF000000 0x84B8000 = .error .pageFault := by decide
  have kernel : ¬ (slot (bootWith 4) 0x800000).Accessible := by
    show ¬ userBit 0x800183 = true
    decide
  have stored : doVidmap (bootWith 4) 0x800000 0x84B8000 = .ok (0, some (0x800000, 0x84B8000)) := by decide
  refine ⟨⟨by decide, absent, ?_⟩, kernel, stored, ?_⟩
  · rintro ⟨-, refused⟩
    cases absent.symm.trans (refused id)
  · rintro ⟨only, -⟩
    exact kernel (only _ _ stored)

end Illinix.Verified.Vm
