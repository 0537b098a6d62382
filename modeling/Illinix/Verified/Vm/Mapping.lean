import Illinix.Lib.Run
import Illinix.Verified.Vm.Switch

/-! # The algebra of mappings

`mmap` and `freemap` change the translation of the addresses in their range and of no others,
across the borders of page tables and with tables made on the way.  `pdesc[d].count` follows the
present entries of slot `d` through every call, also one that stops half way with -1; so
`freemap`, which frees a table when it finds the count at 0, never does. -/

namespace Illinix.Verified.Vm

open Kernel Lib Finset

variable {s s' : Paging} {va d : Nat}

/-! ## Translations -/

/-- The entry by which the processor translates an address: that of the page, or the directory entry of
    a 4 MB page. -/
def translation (s : Paging) (x : Nat) : Option Nat :=
  if present (s.directory (pdeMbAddr x)) ∧ (s.directory (pdeMbAddr x)).testBit 7 then
    some (s.directory (pdeMbAddr x))
  else
    s.entry x

/-- The page of an address. -/
def pageOf (x : Nat) : Nat := x / pageSize * pageSize

theorem pageAddr_pageOf {x : Nat} (bound : x < 2 ^ 32) : PageAddr (pageOf x) := by
  unfold PageAddr pageOf pageSize
  omega

theorem pdeMbAddr_pageOf (x : Nat) : pdeMbAddr (pageOf x) = pdeMbAddr x := by
  unfold pdeMbAddr pageOf pageSize
  omega

theorem pteIndex_pageOf (x : Nat) : pteIndex (pageOf x) = pteIndex x := by
  unfold pteIndex pageOf pageSize
  omega

theorem entry_pageOf (s : Paging) (x : Nat) : s.entry (pageOf x) = s.entry x := by
  unfold Paging.entry Paging.ptePtr
  rw [pdeMbAddr_pageOf, pteIndex_pageOf]

theorem translation_of_user {x : Nat} (user : UserPage s (pageOf x)) : translation s x = s.entry x := by
  refine if_neg fun large => user.2 ?_
  rw [pdeMbAddr_pageOf]
  exact large

/-- The addresses of the range are translated by `value`, page by page, and all others as before. -/
def Changed (s : Paging) (va size : Nat) (value : Nat → Option Nat) (s' : Paging) : Prop :=
  ∀ x < 2 ^ 32, translation s' x =
    if va ≤ x ∧ x < va + size then value ((x - va) / pageSize) else translation s x

/-- Storing an entry changes the translation of one page. -/
theorem Stored.changed {value : Option Nat} {delta : Int} (stored : Stored s va value delta s')
    (hva : UserPage s va) : Changed s va pageSize (fun _ => value) s' := by
  intro x bound
  have page : pageOf x = va ↔ va ≤ x ∧ x < va + pageSize := by
    have aligned := hva.1.1
    unfold pageOf pageSize
    omega
  by_cases large : LargeSlot s (pdeMbAddr x)
  · -- a 4 MB page, whose directory entry stays
    have same := stored.old _ large.1
    have other : ¬(va ≤ x ∧ x < va + pageSize) := by
      intro inside
      apply hva.2
      rw [← page.mpr inside, pdeMbAddr_pageOf]
      exact large
    have entry : translation s x = some (s.directory (pdeMbAddr x)) := if_pos large
    rw [if_neg other, entry, translation, same]
    exact if_pos large
  · have user : UserPage s (pageOf x) := by
      refine ⟨pageAddr_pageOf bound, ?_⟩
      rw [pdeMbAddr_pageOf]
      exact large
    rw [translation_of_user ((stored.user _).mpr user), translation_of_user user, ← entry_pageOf,
      stored.entry _ user, entry_pageOf]
    by_cases inside : va ≤ x ∧ x < va + pageSize
    · rw [if_pos (page.mpr inside), if_pos inside]
    · rw [if_neg fun same => inside (page.mp same), if_neg inside]

theorem Changed.cons {s'' : Paging} {size : Nat} {value : Nat → Option Nat}
    (first : Changed s va pageSize (fun _ => value 0) s')
    (rest : Changed s' (va + pageSize) size (fun k => value (k + 1)) s'') :
    Changed s va (pageSize + size) value s'' := by
  intro x bound
  rw [rest x bound, first x bound]
  by_cases inside : va ≤ x ∧ x < va + (pageSize + size)
  · rw [if_pos inside]
    by_cases here : x < va + pageSize
    · have zero : (x - va) / pageSize = 0 := by
        apply Nat.div_eq_of_lt
        omega
      rw [if_neg (by omega), if_pos ⟨inside.1, here⟩, zero]
    · have next : (x - (va + pageSize)) / pageSize + 1 = (x - va) / pageSize := by
        unfold pageSize at here ⊢
        omega
      rw [if_pos (by omega), ← next]
  · rw [if_neg inside, if_neg (by omega), if_neg (by omega)]

theorem Changed.nil (s : Paging) (va : Nat) (value : Nat → Option Nat) : Changed s va 0 value s :=
  fun x _ => (if_neg (by omega)).symm

/-! ## The counts -/

/-- Page `i` of the slot `d`. -/
def pageAt (d i : Nat) : Nat := d * 2 ^ 22 + i * 2 ^ 12

/-- The number of present entries in the page table of a slot. -/
def presentEntries (s : Paging) (d : Nat) : Nat :=
  if present (s.directory d) then
    ((range 1024).filter fun i => present (s.table (addrToPte (s.directory d)) i) = true).card
  else
    0

/-- The pages of a slot that are mapped. -/
def mappedIn (s : Paging) (d : Nat) : Finset Nat :=
  (range 1024).filter fun i => s.entry (pageAt d i) ≠ none

theorem pageAt_slot {i : Nat} (hi : i < 1024) : pdeMbAddr (pageAt d i) = d ∧ pteIndex (pageAt d i) = i := by
  unfold pdeMbAddr pteIndex pageAt
  omega

theorem pageAddr_pageAt {i : Nat} (hd : d < 2 ^ 10) (hi : i < 1024) : PageAddr (pageAt d i) := by
  unfold PageAddr pageAt
  omega

theorem pageAt_index (hva : PageAddr va) : pageAt (pdeMbAddr va) (pteIndex va) = va := by
  have aligned := hva.1
  unfold pageAt pdeMbAddr pteIndex
  omega

theorem pteIndex_lt (va : Nat) : pteIndex va < 1024 := Nat.mod_lt _ (by decide)

theorem presentEntries_eq (small : ¬ LargeSlot s d) : presentEntries s d = (mappedIn s d).card := by
  unfold presentEntries mappedIn
  by_cases there : present (s.directory d) = true
  · rw [if_pos there]
    refine congrArg card (filter_congr fun i hi => ?_)
    obtain ⟨slot, index⟩ := pageAt_slot (d := d) (mem_range.mp hi)
    have table : HasTable s (pdeMbAddr (pageAt d i)) := by
      rw [slot]
      exact ⟨there, Bool.eq_false_iff.mpr fun large => small ⟨there, large⟩⟩
    have entry : s.pte (s.ptePtr (pageAt d i)) = s.table (addrToPte (s.directory d)) i := by
      unfold Paging.pte Paging.ptePtr
      rw [slot, index]
    rw [entry_of_hasTable table, entry]
    split
    · next mapped => simp [mapped]
    · next absent => simp [absent]
  · rw [if_neg there, eq_comm, card_eq_zero, filter_eq_empty_iff]
    intro i hi
    have absent : ¬ present (s.directory (pdeMbAddr (pageAt d i))) = true := by
      rw [(pageAt_slot (mem_range.mp hi)).1]
      exact there
    rw [entry_of_absent absent]
    simp

section

variable {value : Option Nat} {delta : Int} (stored : Stored s va value delta s') (hd : d < 2 ^ 10)
  (small : ¬ LargeSlot s d)

include hd small in
theorem userPage_pageAt {i : Nat} (hi : i < 1024) : UserPage s (pageAt d i) := by
  refine ⟨pageAddr_pageAt hd hi, ?_⟩
  rw [(pageAt_slot hi).1]
  exact small

include stored hd small in
theorem Stored.mappedIn_of_ne (other : d ≠ pdeMbAddr va) : mappedIn s' d = mappedIn s d := by
  refine filter_congr fun i hi => ?_
  have inside := mem_range.mp hi
  rw [stored.entry _ (userPage_pageAt hd small inside), if_neg]
  rintro rfl
  exact other (pageAt_slot inside).1.symm

include stored in
theorem Stored.mem_mappedIn (hva : UserPage s va) {i : Nat} :
    i ∈ mappedIn s' (pdeMbAddr va) ↔
      if i = pteIndex va then value ≠ none else i ∈ mappedIn s (pdeMbAddr va) := by
  unfold mappedIn
  rw [mem_filter, mem_filter, mem_range]
  by_cases inside : i < 1024
  · have user := userPage_pageAt (pdeMbAddr_lt hva.1) hva.2 inside
    have same : pageAt (pdeMbAddr va) i = va ↔ i = pteIndex va := by
      constructor
      · intro eq
        rw [← eq, (pageAt_slot inside).2]
      · rintro rfl
        exact pageAt_index hva.1
    rw [stored.entry _ user]
    by_cases index : i = pteIndex va
    · rw [if_pos (same.mpr index), if_pos index]
      exact and_iff_right inside
    · rw [if_neg (same.not.mpr index), if_neg index]
  · have other : i ≠ pteIndex va := by
      rintro rfl
      exact inside (pteIndex_lt va)
    rw [if_neg other]
    exact iff_of_false (fun h => inside h.1) (fun h => inside h.1)

end

/-- The slots in `slots` are not used for 4 MB pages, and the count of each is the number of present
    entries in its table.  An empty slot that has never been used is such a slot. -/
structure Mapping (slots : Nat → Prop) (s : Paging) : Prop where
  tables : TablesOk s
  slot : ∀ d, slots d → d < 2 ^ 10 ∧ ¬ LargeSlot s d
  counted : ∀ d, slots d → s.count d = presentEntries s d

section

variable {slots : Nat → Prop}

theorem Mapping.user (inv : Mapping slots s) (page : PageAddr va) (mine : slots (pdeMbAddr va)) :
    UserPage s va := ⟨page, (inv.slot _ mine).2⟩

theorem Mapping.count_eq (inv : Mapping slots s) (mine : slots d) : s.count d = (mappedIn s d).card := by
  rw [inv.counted d mine, presentEntries_eq (inv.slot d mine).2]

/-- The slots stay free of 4 MB pages. -/
theorem Stored.slot {value : Option Nat} {delta : Int} (stored : Stored s va value delta s')
    (inv : Mapping slots s) (mine : slots d) : ¬ LargeSlot s' d := by
  obtain ⟨hd, small⟩ := inv.slot d mine
  have first : 0 < 1024 := by decide
  have user := (stored.user _).mpr (userPage_pageAt hd small first)
  have kept := user.2
  rw [(pageAt_slot first).1] at kept
  exact kept

/-- The count of a slot follows its entries when a page is entered or removed. -/
theorem Stored.mapping {value : Option Nat} {delta : Int} (stored : Stored s va value delta s')
    (inv : Mapping slots s)
    (card : ((mappedIn s' (pdeMbAddr va)).card : Int) = (mappedIn s (pdeMbAddr va)).card + delta) :
    Mapping slots s' where
  tables := stored.tables
  slot d mine := ⟨(inv.slot d mine).1, stored.slot inv mine⟩
  counted d mine := by
    rw [presentEntries_eq (stored.slot inv mine), stored.count, inv.count_eq mine]
    by_cases same : d = pdeMbAddr va
    · subst same
      rw [if_pos rfl, card]
    · obtain ⟨hd, small⟩ := inv.slot d mine
      rw [if_neg same, stored.mappedIn_of_ne hd small same]

theorem index_mem_mappedIn (hva : PageAddr va) :
    pteIndex va ∈ mappedIn s (pdeMbAddr va) ↔ s.entry va ≠ none := by
  unfold mappedIn
  rw [mem_filter, mem_range, pageAt_index hva]
  exact and_iff_right (pteIndex_lt va)

theorem Stored.mapping_add {e : Nat} (stored : Stored s va (some e) 1 s') (inv : Mapping slots s)
    (hva : UserPage s va) (absent : s.entry va = none) : Mapping slots s' := by
  refine stored.mapping inv ?_
  have new : pteIndex va ∉ mappedIn s (pdeMbAddr va) := fun there => (index_mem_mappedIn hva.1).mp there absent
  have inserted : mappedIn s' (pdeMbAddr va) = insert (pteIndex va) (mappedIn s (pdeMbAddr va)) := by
    ext i
    rw [stored.mem_mappedIn hva, mem_insert]
    split
    · next same => simp [same]
    · next other => simp [other]
  rw [inserted, card_insert_of_notMem new]
  rfl

theorem Stored.mapping_remove {e : Nat} (stored : Stored s va none (-1) s') (inv : Mapping slots s)
    (hva : UserPage s va) (mapped : s.entry va = some e) : Mapping slots s' := by
  refine stored.mapping inv ?_
  have old : pteIndex va ∈ mappedIn s (pdeMbAddr va) := by
    rw [index_mem_mappedIn hva.1, mapped]
    exact nofun
  have erased : mappedIn s' (pdeMbAddr va) = (mappedIn s (pdeMbAddr va)).erase (pteIndex va) := by
    ext i
    rw [stored.mem_mappedIn hva, mem_erase]
    split
    · next same => simp [same]
    · next other => simp [other]
  have positive := card_pos.mpr ⟨_, old⟩
  rw [erased, card_erase_of_mem old]
  omega

theorem Mapping.count_ne_zero {e : Nat} (inv : Mapping slots s) (page : PageAddr va)
    (mine : slots (pdeMbAddr va)) (mapped : s.entry va = some e) : s.count (pdeMbAddr va) ≠ 0 := by
  have old : pteIndex va ∈ mappedIn s (pdeMbAddr va) := by
    rw [index_mem_mappedIn page, mapped]
    exact nofun
  have positive := card_pos.mpr ⟨_, old⟩
  rw [inv.count_eq mine]
  omega

end

/-! ## Whole ranges -/

/-- Whole pages of the user range, in the given slots. -/
structure UserRange (slots : Nat → Prop) (va size : Nat) : Prop where
  start : va % pageSize = 0
  whole : size % pageSize = 0
  stop : va + size ≤ 0xC000000
  slot : ∀ k, pageSize * k < size → slots (pdeMbAddr (va + pageSize * k))

/-- Flags that fit into an entry and do not make the directory entry, which gets them as well, a 4 MB
    page. -/
def FlagsOk (flags : Nat) : Prop := flags < 2 ^ 12 ∧ flags.testBit 7 = false

instance (flags : Nat) : Decidable (FlagsOk flags) := inferInstanceAs (Decidable (_ ∧ _))

section

variable {slots : Nat → Prop} {n i pa flags : Nat}

section

variable (range : UserRange slots va (pageSize * (n + 1)))

include range

theorem UserRange.page : PageAddr va := by
  have start := range.start
  have stop := range.stop
  unfold PageAddr
  unfold pageSize at *
  omega

theorem UserRange.first : slots (pdeMbAddr va) := range.slot 0 (by unfold pageSize; omega)

theorem UserRange.low : va < 2 ^ 31 ∧ (va + pageSize) % 2 ^ 32 = va + pageSize := by
  have stop := range.stop
  unfold pageSize at *
  omega

end

theorem next_page (va k : Nat) : va + pageSize * (k + 1) = va + pageSize + pageSize * k := by
  rw [Nat.mul_succ]
  omega

theorem UserRange.tail (range : UserRange slots va (pageSize * (n + 1))) :
    UserRange slots (va + pageSize) (pageSize * n) := by
  obtain ⟨start, -, stop, slot⟩ := range
  refine ⟨?_, Nat.mul_mod_right _ _, ?_, fun k hk => ?_⟩
  · rw [Nat.add_mod_right]
    exact start
  · unfold pageSize at *
    omega
  · have later := slot (k + 1) (by unfold pageSize at *; omega)
    rw [next_page] at later
    exact later

theorem UserRange.user {k : Nat} (range : UserRange slots va (pageSize * n)) (inv : Mapping slots s)
    (hk : k < n) : UserPage s (va + pageSize * k) := by
  refine inv.user ?_ (range.slot k ?_)
  · have start := range.start
    have stop := range.stop
    unfold PageAddr
    unfold pageSize at *
    omega
  · unfold pageSize
    omega

theorem Stored.entry_later {value : Option Nat} {delta : Int} {k : Nat} (stored : Stored s va value delta s')
    (inv : Mapping slots s) (range : UserRange slots va (pageSize * (n + 1))) (hk : k < n) :
    s'.entry (va + pageSize + pageSize * k) = s.entry (va + pageSize * (k + 1)) := by
  have user := range.user inv (k := k + 1) (by omega)
  rw [← next_page, stored.entry _ user, if_neg]
  unfold pageSize
  omega

/-- The loop of `mmap` keeps the counts, wherever it ends; when it gets to the end, the pages were not
    mapped before and are mapped now. -/
theorem mmapFrom_run {r : Int} (ok : FlagsOk flags) (inv : Mapping slots s)
    (range : UserRange slots va (pageSize * n)) (done : mmapFrom pa flags n i va s = .ok (s', r)) :
    Mapping slots s' ∧ (r = 0 → (∀ k < n, s.entry (va + pageSize * k) = none) ∧
      Changed s va (pageSize * n) (fun k =>
        some (ptePresent ||| flags ||| (addrToPte pa + (i + k) * pageSize) % 2 ^ 32)) s') := by
  induction n generalizing i va s with
  | zero =>
    cases done
    exact ⟨inv, fun _ => ⟨nofun, .nil s' va _⟩⟩
  | succ n ih =>
    have hva := inv.user range.page range.first
    cases entry : s.entry va with
    | some e =>
      rw [mmapFrom_mapped hva entry] at done
      cases done
      exact ⟨inv, fun success => absurd success (by decide)⟩
    | none =>
      by_cases supply : present (s.directory (pdeMbAddr va)) = true ∨ s.pages ≠ []
      · have page := @mmapFrom_page s va inv.tables hva entry supply pa flags ok.1 ok.2 n i
        rw [if_pos range.low.1, range.low.2] at page
        obtain ⟨s1, step, stored⟩ := page
        rw [step] at done
        obtain ⟨inv', rest⟩ := ih (stored.mapping_add inv hva entry) range.tail done
        refine ⟨inv', fun success => ?_⟩
        obtain ⟨absent, changed⟩ := rest success
        refine ⟨fun k hk => ?_, ?_⟩
        · cases k with
          | zero => exact entry
          | succ k =>
            rw [← stored.entry_later inv range (by omega)]
            exact absent k (by omega)
        · rw [Nat.mul_succ, Nat.add_comm]
          refine Changed.cons (stored.changed hva) ?_
          have shift (k : Nat) : i + 1 + k = i + (k + 1) := by omega
          simp only [shift] at changed
          exact changed
      · obtain ⟨noTable, noPages⟩ := not_or.mp supply
        rw [mmapFrom_panics noTable (Decidable.not_not.mp noPages)] at done
        cases done

/-- The number of pages from `va` on that are mapped, up to the first one that is not. -/
def mappedRun (s : Paging) (va : Nat) : Nat → Nat
  | 0 => 0
  | n + 1 => if s.entry va ≠ none then mappedRun s (va + pageSize) n + 1 else 0

theorem mappedRun_congr {va' : Nat}
    (same : ∀ k < n, s'.entry (va' + pageSize * k) = s.entry (va + pageSize * k)) :
    mappedRun s' va' n = mappedRun s va n := by
  induction n generalizing va va' with
  | zero => rfl
  | succ n ih =>
    have first : s'.entry va' = s.entry va := same 0 (Nat.succ_pos n)
    have rest : mappedRun s' (va' + pageSize) n = mappedRun s (va + pageSize) n := by
      refine ih fun k hk => ?_
      have later := same (k + 1) (by omega)
      rw [next_page, next_page] at later
      exact later
    simp only [mappedRun, first, rest]

theorem mappedRun_full (full : ∀ k < n, s.entry (va + pageSize * k) ≠ none) : mappedRun s va n = n := by
  induction n generalizing va with
  | zero => rfl
  | succ n ih =>
    have first : s.entry va ≠ none := full 0 (Nat.succ_pos n)
    rw [mappedRun, if_pos first, ih]
    intro k hk
    rw [← next_page]
    exact full (k + 1) (by omega)

/-- The loop of `freemap` returns, and frees no page table.  It removes the pages up to the first one that
    is not mapped. -/
theorem freemapFrom_run (inv : Mapping slots s) (range : UserRange slots va (pageSize * n)) :
    ∃ s' r, freemapFrom ((List.range n).map (va + pageSize * ·)) s = .ok (s', r) ∧ Mapping slots s' ∧
      Changed s va (pageSize * mappedRun s va n) (fun _ => none) s' ∧
      (mappedRun s va n = n → r = 0) := by
  induction n generalizing va s with
  | zero => exact ⟨s, 0, rfl, inv, .nil s va _, fun _ => rfl⟩
  | succ n ih =>
    have hva := inv.user range.page range.first
    rw [pages_succ]
    cases entry : s.entry va with
    | none =>
      have stop : mappedRun s va (n + 1) = 0 := if_neg (not_not.mpr entry)
      rw [stop]
      exact ⟨s, -1, freemapFrom_unmapped hva entry _, inv, .nil s va _, fun full => nomatch full⟩
    | some e =>
      have page := freemapFrom_page inv.tables hva entry ((List.range n).map (va + pageSize + pageSize * ·))
      rw [if_neg (inv.count_ne_zero range.page range.first entry)] at page
      obtain ⟨s1, step, stored⟩ := page
      obtain ⟨s', r, done, inv', changed, success⟩ := ih (stored.mapping_remove inv hva entry) range.tail
      -- the page that was removed is not looked at again
      have rest : mappedRun s1 (va + pageSize) n = mappedRun s (va + pageSize) n := by
        refine mappedRun_congr fun k hk => ?_
        rw [stored.entry_later inv range hk, next_page]
      have go : mappedRun s va (n + 1) = mappedRun s (va + pageSize) n + 1 := by
        rw [mappedRun, if_pos]
        rw [entry]
        exact nofun
      rw [rest] at changed success
      refine ⟨s', r, step.trans done, inv', ?_, fun full => success (by omega)⟩
      rw [go, Nat.mul_succ, Nat.add_comm]
      exact Changed.cons (stored.changed hva) changed

end

/-! ## Calls -/

inductive MapCall where
  | mmap (va pa size flags : Nat)
  | freemap (va size : Nat)
deriving DecidableEq, Repr

def MapCall.exec (s : Paging) : MapCall → Except VmFault (Paging × Int)
  | .mmap va pa size flags => Kernel.mmap s va pa size flags
  | .freemap va size => Kernel.freemap s va size

def MapLegal (slots : Nat → Prop) : MapCall → Prop
  | .mmap va pa size flags => UserRange slots va size ∧ PageAddr pa ∧ FlagsOk flags
  | .freemap va size => UserRange slots va size

/-- A call that maps pages for users or removes them. -/
def OpensPages : MapCall → Prop
  | .mmap _ _ _ flags => UserFlags flags
  | .freemap _ _ => True

/-- A call that returns, with 0 or -1. -/
def MapStep (slots : Nat → Prop) (s : Paging) (call : MapCall) (s' : Paging) : Prop :=
  MapLegal slots call ∧ ∃ r, call.exec s = .ok (s', r)

/-- The slots are empty and have not been used. -/
structure Unused (slots : Nat → Prop) (s : Paging) : Prop where
  tables : TablesOk s
  slot : ∀ d, slots d → d < 2 ^ 10 ∧ ¬ present (s.directory d) = true ∧ s.count d = 0

section

variable {slots : Nat → Prop} {size : Nat}

theorem Unused.mapping (h : Unused slots s) : Mapping slots s where
  tables := h.tables
  slot d mine := ⟨(h.slot d mine).1, fun large => (h.slot d mine).2.1 large.1⟩
  counted d mine := by
    obtain ⟨-, absent, zero⟩ := h.slot d mine
    rw [zero, presentEntries, if_neg absent]
    rfl

section

variable (range : UserRange slots va size)

include range

theorem UserRange.pages : ∃ n, size = pageSize * n := Nat.dvd_of_mod_eq_zero range.whole

theorem mmap_run {pa flags : Nat} {r : Int} (page : PageAddr pa)
    (ok : FlagsOk flags) (inv : Mapping slots s) (done : mmap s va pa size flags = .ok (s', r)) :
    Mapping slots s' ∧ (r = 0 → (∀ k, pageSize * k < size → s.entry (va + pageSize * k) = none) ∧
      Changed s va size (fun k => some (ptePresent ||| flags ||| (pa + k * pageSize) % 2 ^ 32)) s') := by
  obtain ⟨n, rfl⟩ := range.pages
  have start : addrToPte va = va := by
    have aligned := range.start
    have stop := range.stop
    unfold addrToPte
    unfold pageSize at *
    omega
  have count : pageSize * n / pageSize = n := Nat.mul_div_cancel_left n (by decide)
  unfold mmap at done
  rw [start, count] at done
  obtain ⟨inv', rest⟩ := mmapFrom_run ok inv range done
  refine ⟨inv', fun success => ?_⟩
  obtain ⟨absent, changed⟩ := rest success
  simp only [Nat.zero_add, addrToPte_of_page page] at changed
  exact ⟨fun k hk => absent k (by unfold pageSize at hk; omega), changed⟩

theorem freemap_run (inv : Mapping slots s) :
    ∃ s' r, freemap s va size = .ok (s', r) ∧ Mapping slots s' ∧
      Changed s va (pageSize * mappedRun s va (size / pageSize)) (fun _ => none) s' ∧
      (mappedRun s va (size / pageSize) = size / pageSize → r = 0) := by
  obtain ⟨n, rfl⟩ := range.pages
  have top : (va + pageSize * n) % 2 ^ 32 = va + pageSize * n := by
    have stop := range.stop
    omega
  unfold freemap
  rw [top, pageRange_pages, Nat.mul_div_cancel_left n (by decide)]
  exact freemapFrom_run inv range

theorem freemap_full (inv : Mapping slots s)
    (full : ∀ k, pageSize * k < size → s.entry (va + pageSize * k) ≠ none) :
    ∃ s', freemap s va size = .ok (s', 0) ∧ Changed s va size (fun _ => none) s' := by
  obtain ⟨s', r, done, -, changed, success⟩ := freemap_run range inv
  have whole : pageSize * (size / pageSize) = size := Nat.mul_div_cancel' (Nat.dvd_of_mod_eq_zero range.whole)
  have all : mappedRun s va (size / pageSize) = size / pageSize := by
    refine mappedRun_full fun k hk => full k ?_
    unfold pageSize at *
    omega
  rw [all, whole] at changed
  rw [success all] at done
  exact ⟨s', done, changed⟩

end

theorem MapStep.mapping {call : MapCall} (step : MapStep slots s call s') (inv : Mapping slots s) :
    Mapping slots s' := by
  obtain ⟨legal, r, done⟩ := step
  cases call with
  | mmap va pa size flags => exact (mmap_run legal.1 legal.2.1 legal.2.2 inv done).1
  | freemap va size =>
    obtain ⟨s1, r1, done1, inv', -⟩ := freemap_run legal inv
    cases done1.symm.trans done
    exact inv'

/-- An address of the range is translated by the entry of its page. -/
theorem UserRange.translation {x : Nat} (range : UserRange slots va size) (inv : Mapping slots s)
    (low : va ≤ x) (high : x < va + size) :
    Vm.translation s x = s.entry (va + pageSize * ((x - va) / pageSize)) := by
  have start := range.start
  have stop := range.stop
  have page : pageOf x = va + pageSize * ((x - va) / pageSize) := by
    unfold pageOf
    unfold pageSize at *
    omega
  have user : UserPage s (pageOf x) := by
    refine inv.user (pageAddr_pageOf (by omega)) ?_
    rw [page]
    apply range.slot
    unfold pageSize at *
    omega
  rw [translation_of_user user, ← entry_pageOf, page]

theorem OpenTables.exec {call : MapCall} {r : Int} (h : OpenTables slots s) (user : OpensPages call)
    (done : call.exec s = .ok (s', r)) : OpenTables slots s' := by
  cases call with
  | mmap va pa size flags => exact h.mmapFrom user done
  | freemap va size => exact h.freemapFrom done

theorem OpenTables.run {calls : List MapCall} (h : OpenTables slots s) (run : Run (MapStep slots) s calls s')
    (user : ∀ call ∈ calls, OpensPages call) : OpenTables slots s' := by
  induction run with
  | nil _ => exact h
  | cons step _ ih =>
    rw [List.forall_mem_cons] at user
    exact ih (h.exec user.1 step.2.choose_spec) user.2

theorem UserRange.translation_page {k : Nat} (range : UserRange slots va size) (inv : Mapping slots s)
    (hk : pageSize * k < size) :
    Vm.translation s (va + pageSize * k) = s.entry (va + pageSize * k) := by
  rw [range.translation inv (Nat.le_add_right _ _) (by omega), Nat.add_sub_cancel_left,
    Nat.mul_div_cancel_left _ (by decide)]

/-- After any sequence of calls on slots that were empty: the counts are right and no page table in use
    can be handed out again; `mmap` and `freemap` change the translations of their range
    and no others, and undo each other; `freemap` always returns, as it finds no table to free; and if all pages
    were opened to users, so are the tables. -/
theorem mapping_algebra {u : Paging} {calls : List MapCall} (start : Unused slots s)
    (run : Run (MapStep slots) s calls u) :
    (∀ d, slots d → u.count d = presentEntries u d ∧
      (present (u.directory d) = true → addrToPte (u.directory d) ∉ u.pages)) ∧
    (∀ va pa size flags u', UserRange slots va size → PageAddr pa → FlagsOk flags →
      mmap u va pa size flags = .ok (u', 0) →
      Changed u va size (fun k => some (ptePresent ||| flags ||| (pa + k * pageSize) % 2 ^ 32)) u' ∧
      ∃ u'', freemap u' va size = .ok (u'', 0) ∧ ∀ x < 2 ^ 32, translation u'' x = translation u x) ∧
    (∀ va size, UserRange slots va size → (∀ x, va ≤ x → x < va + size → translation u x ≠ none) →
      ∃ u', freemap u va size = .ok (u', 0) ∧ Changed u va size (fun _ => none) u') ∧
    (∀ va size, UserRange slots va size → ∃ u' r, freemap u va size = .ok (u', r)) ∧
    ((∀ call ∈ calls, OpensPages call) →
      ∀ d, slots d → present (u.directory d) = true → userBit (u.directory d) = true) := by
  have inv : Mapping slots u := run.invariant (fun _ _ _ inv step => step.mapping inv) start.mapping
  refine ⟨fun d mine => ⟨inv.counted d mine, fun there => ?_⟩,
    fun va pa size flags u' range page ok done => ?_, fun va size range full => ?_,
    fun va size range => ?_, fun user => ?_⟩
  · obtain ⟨hd, small⟩ := inv.slot d mine
    exact inv.tables.fresh d hd ⟨there, Bool.eq_false_iff.mpr fun large => small ⟨there, large⟩⟩
  · obtain ⟨inv', rest⟩ := mmap_run range page ok inv done
    obtain ⟨absent, changed⟩ := rest rfl
    refine ⟨changed, ?_⟩
    have mapped (x : Nat) (low : va ≤ x) (high : x < va + size) : translation u' x ≠ none := by
      have stop := range.stop
      rw [changed x (by omega), if_pos ⟨low, high⟩]
      exact nofun
    obtain ⟨u'', freed, removed⟩ := freemap_full range inv' fun k hk => by
      rw [← range.translation_page inv' hk]
      exact mapped _ (Nat.le_add_right _ _) (by omega)
    refine ⟨u'', freed, fun x bound => ?_⟩
    rw [removed x bound]
    by_cases inside : va ≤ x ∧ x < va + size
    · rw [if_pos inside, range.translation inv inside.1 inside.2, absent]
      unfold pageSize at *
      omega
    · rw [if_neg inside, changed x bound, if_neg inside]
  · refine freemap_full range inv fun k hk => ?_
    rw [← range.translation_page inv hk]
    exact full _ (Nat.le_add_right _ _) (by omega)
  · obtain ⟨u', r, freed, -⟩ := freemap_run range inv
    exact ⟨u', r, freed⟩
  · have empty (d : Nat) (mine : slots d) : ¬ present (s.directory d) = true := (start.slot d mine).2.1
    have opened : OpenTables slots s := ⟨fun d mine there => absurd there (empty d mine),
      fun d mine there => absurd there (empty d mine), start.tables.page⟩
    exact (opened.run run user).directory

/-- The slots on both sides of the address 128 MB. -/
def borderSlots (d : Nat) : Prop := d = 31 ∨ d = 32

/-- The tables at boot, with two pages for new page tables. -/
def bootPaging : Paging := pageInit 0x1000 0x2000 [0x3000, 0x4000]

theorem bootPaging_unused : Unused borderSlots bootPaging where
  tables := pageInit_tables (by decide) (by decide)
  slot d mine := by
    cases mine with
    | inl first =>
      subst first
      decide
    | inr second =>
      subst second
      decide

theorem borderSlots_range : UserRange borderSlots 0x7FFF000 0x2000 where
  start := by decide
  whole := by decide
  stop := by decide
  slot k hk := by
    have two : ∀ k < 2, pdeMbAddr (0x7FFF000 + pageSize * k) = 31 ∨
        pdeMbAddr (0x7FFF000 + pageSize * k) = 32 := by
      decide
    refine two k ?_
    unfold pageSize at hk
    omega

/-- Two pages in two slots, which get their page tables. -/
theorem mapping_algebra_border : ∃ u,
    Run (MapStep borderSlots) bootPaging [.mmap 0x7FFF000 0x4000000 0x2000 6] u ∧
    u.pages = [] ∧ u.count 32 = presentEntries u 32 ∧ (∃ u' r, freemap u 0x7FFF000 0x2000 = .ok (u', r)) ∧
    (present (u.directory 32) = true → userBit (u.directory 32) = true) := by
  have found : okAnd (MapCall.exec bootPaging (.mmap 0x7FFF000 0x4000000 0x2000 6))
      (fun p => p.1.pages = []) = true := by
    decide +kernel
  obtain ⟨⟨u, r⟩, done, empty⟩ := okAnd_iff.mp found
  have run : Run (MapStep borderSlots) bootPaging [.mmap 0x7FFF000 0x4000000 0x2000 6] u :=
    .cons ⟨⟨borderSlots_range, by decide, by decide⟩, r, done⟩ (.nil u)
  obtain ⟨counts, -, -, frees, opened⟩ := mapping_algebra bootPaging_unused run
  exact ⟨u, run, of_decide_eq_true empty, (counts 32 (.inr rfl)).1, frees _ _ borderSlots_range,
    opened (List.forall_mem_singleton.mpr ⟨by decide, by decide⟩) 32 (.inr rfl)⟩

end

/-! ## Empty tables -/

section

variable {slots : Nat → Prop} {size : Nat}

/-- `freemap` changes neither the directory nor the free pages. -/
theorem freemapFrom_directory {l : List Nat} {r : Int} (done : freemapFrom l s = .ok (s', r)) :
    s'.directory = s.directory ∧ s'.pages = s.pages := by
  induction l generalizing s with
  | nil =>
    cases done
    exact ⟨rfl, rfl⟩
  | cons addr l ih =>
    by_cases there : present (s.directory (pdeMbAddr addr)) = true
    · have walked : walk s addr 0 false = (some (s.ptePtr addr), s) := by
        unfold walk
        rw [if_pos there]
      simp only [freemapFrom, walked] at done
      split at done
      · split at done
        · cases done
        · obtain ⟨directory, pages⟩ := ih done
          exact ⟨directory, pages⟩
      · cases done
        exact ⟨rfl, rfl⟩
    · have walked : walk s addr 0 false = (none, s) := by
        unfold walk
        rw [if_neg there]
      simp only [freemapFrom, walked] at done
      cases done
      exact ⟨rfl, rfl⟩

/-- The last present entry of the page table of a slot is removed. -/
def Emptied (s : Paging) (d : Nat) (s' : Paging) : Prop :=
  0 < presentEntries s d ∧ presentEntries s' d = 0

/-- The page of a page table is given back once, and its slot no longer points to it. -/
def Released (s : Paging) (d : Nat) (s' : Paging) : Prop :=
  s'.pages.count (addrToPte (s.directory d)) = s.pages.count (addrToPte (s.directory d)) + 1 ∧
    ¬ (present (s'.directory d) = true ∧ addrToPte (s'.directory d) = addrToPte (s.directory d))

theorem Changed.mem_mappedIn {n i : Nat} (changed : Changed s va n (fun _ => none) s') (hd : d < 2 ^ 10)
    (small : ¬ LargeSlot s d) (small' : ¬ LargeSlot s' d) :
    i ∈ mappedIn s' d ↔ i ∈ mappedIn s d ∧ ¬ (va ≤ pageAt d i ∧ pageAt d i < va + n) := by
  unfold mappedIn
  rw [mem_filter, mem_filter, and_assoc]
  refine and_congr_right fun hi => ?_
  have inside := mem_range.mp hi
  have page := pageAddr_pageAt hd inside
  have whole : pageOf (pageAt d i) = pageAt d i := by
    have aligned := page.1
    unfold pageOf pageSize
    omega
  have user := userPage_pageAt hd small inside
  have user' := userPage_pageAt hd small' inside
  have entry := changed (pageAt d i) page.2
  rw [translation_of_user (whole.symm ▸ user'), translation_of_user (whole.symm ▸ user)] at entry
  rw [entry]
  by_cases removed : va ≤ pageAt d i ∧ pageAt d i < va + n
  · rw [if_pos removed]
    exact iff_of_false (fun absent => absent rfl) (fun left => left.2 removed)
  · rw [if_neg removed]
    exact (and_iff_left removed).symm

/-- A table is emptied when the pages that are removed are all it has. -/
theorem emptied_iff {n : Nat} (inv : Mapping slots s) (inv' : Mapping slots s')
    (changed : Changed s va n (fun _ => none) s') (mine : slots d) :
    Emptied s d s' ↔ (mappedIn s d).Nonempty ∧
      ∀ i ∈ mappedIn s d, va ≤ pageAt d i ∧ pageAt d i < va + n := by
  obtain ⟨hd, small⟩ := inv.slot d mine
  obtain ⟨-, small'⟩ := inv'.slot d mine
  unfold Emptied
  rw [presentEntries_eq small, presentEntries_eq small', card_pos, card_eq_zero,
    eq_empty_iff_forall_notMem]
  refine and_congr_right fun _ => forall_congr' fun i => ?_
  rw [changed.mem_mappedIn hd small small', not_and, not_not]

/-- After any sequence of calls, a `freemap` releases the page tables that it empties if and only if it
    empties none: each slot with a page keeps one outside of what is removed. -/
theorem empty_tables_released_iff {u : Paging} {calls : List MapCall} (start : Unused slots s)
    (run : Run (MapStep slots) s calls u) (range : UserRange slots va size) :
    ∃ u' r, freemap u va size = .ok (u', r) ∧ ((∀ d, slots d → Emptied u d u' → Released u d u') ↔
      ∀ d, slots d → (mappedIn u d).Nonempty → ∃ i ∈ mappedIn u d,
        ¬ (va ≤ pageAt d i ∧ pageAt d i < va + pageSize * mappedRun u va (size / pageSize))) := by
  have inv : Mapping slots u := run.invariant (fun _ _ _ inv step => step.mapping inv) start.mapping
  obtain ⟨u', r, done, inv', changed, -⟩ := freemap_run range inv
  have pages : u'.pages = u.pages := (freemapFrom_directory done).2
  refine ⟨u', r, done, ?_⟩
  constructor
  · intro released d mine some
    by_contra none
    have emptied : Emptied u d u' := by
      rw [emptied_iff inv inv' changed mine]
      refine ⟨some, fun i hi => ?_⟩
      by_contra left
      exact none ⟨i, hi, left⟩
    have once := (released d mine emptied).1
    rw [pages] at once
    omega
  · intro left d mine emptied
    obtain ⟨some, removed⟩ := (emptied_iff inv inv' changed mine).mp emptied
    obtain ⟨i, hi, outside⟩ := left d mine some
    exact absurd (removed i hi) outside

/-- One of two pages of a table is removed. -/
theorem empty_tables_released_half : ∃ u u' r,
    Run (MapStep borderSlots) bootPaging [.mmap 0x7FFE000 0x4000000 0x2000 6] u ∧
    freemap u 0x7FFE000 0x1000 = .ok (u', r) ∧
    ∀ d, borderSlots d → Emptied u d u' → Released u d u' := by
  have found : okAnd (MapCall.exec bootPaging (.mmap 0x7FFE000 0x4000000 0x2000 6)) (fun p =>
      1023 ∈ mappedIn p.1 31 ∧ mappedRun p.1 0x7FFE000 1 = 1 ∧ mappedIn p.1 32 = ∅) = true := by
    decide +kernel
  obtain ⟨⟨u, r⟩, done, result⟩ := okAnd_iff.mp found
  obtain ⟨second, one, none⟩ := of_decide_eq_true result
  have both : UserRange borderSlots 0x7FFE000 0x2000 := by
    refine ⟨by decide, by decide, by decide, fun k hk => .inl ?_⟩
    have slot : ∀ k < 2, pdeMbAddr (0x7FFE000 + pageSize * k) = 31 := by decide
    refine slot k ?_
    unfold pageSize at hk
    omega
  have first : UserRange borderSlots 0x7FFE000 0x1000 :=
    ⟨by decide, by decide, by decide, fun k hk => both.slot k (by omega)⟩
  have run : Run (MapStep borderSlots) bootPaging [.mmap 0x7FFE000 0x4000000 0x2000 6] u :=
    .cons ⟨⟨both, by decide, by decide⟩, r, done⟩ (.nil u)
  obtain ⟨u', r', freed, iff⟩ := empty_tables_released_iff bootPaging_unused run first
  refine ⟨u, u', r', run, freed, iff.mpr fun d mine some => ?_⟩
  cases mine with
  | inl same =>
    subst same
    refine ⟨1023, second, fun removed => ?_⟩
    have single : (0x1000 : Nat) / pageSize = 1 := by decide
    rw [single, one] at removed
    exact absurd removed (by decide)
  | inr same =>
    subst same
    rw [none] at some
    exact absurd some not_nonempty_empty

/-- Two pages are mapped and removed again: the tables are empty then, but still in the directory, and no
    page has been given back. -/
theorem emptied_table_stays : Unused borderSlots bootPaging ∧ ∃ u u' r,
    Run (MapStep borderSlots) bootPaging [.mmap 0x7FFF000 0x4000000 0x2000 6] u ∧
    freemap u 0x7FFF000 0x2000 = .ok (u', r) ∧ Emptied u 32 u' ∧ ¬ Released u 32 u' := by
  have found : okAnd (MapCall.exec bootPaging (.mmap 0x7FFF000 0x4000000 0x2000 6)) (fun p =>
      okAnd (freemap p.1 0x7FFF000 0x2000) fun q =>
        0 < presentEntries p.1 32 ∧ presentEntries q.1 32 = 0) = true := by
    decide +kernel
  obtain ⟨⟨u, r⟩, mapped, rest⟩ := okAnd_iff.mp found
  obtain ⟨⟨u', r'⟩, freed, result⟩ := okAnd_iff.mp rest
  have emptied : 0 < presentEntries u 32 ∧ presentEntries u' 32 = 0 := of_decide_eq_true result
  have pages : u'.pages = u.pages := (freemapFrom_directory freed).2
  refine ⟨bootPaging_unused, u, u', r', .cons ⟨⟨borderSlots_range, by decide, by decide⟩, r, mapped⟩ (.nil u),
    freed, emptied, fun released => ?_⟩
  have once := released.1
  rw [pages] at once
  omega

end

end Illinix.Verified.Vm
