import Illinix.Kernel.Vm
import Illinix.Lib.Except

/-! # What the page tables map

The two levels of tables are one partial map from page addresses to entries.  Entering and
removing an entry are updates of that map at one page, whatever tables they go through. -/

namespace Illinix.Verified.Vm

open Kernel Lib Function List

/-! ## Words -/

/-- The address of a page. -/
def PageAddr (u : Nat) : Prop := u % 2 ^ 12 = 0 ∧ u < 2 ^ 32

instance (u : Nat) : Decidable (PageAddr u) := inferInstanceAs (Decidable (_ ∧ _))

theorem addrToPte_of_page {u : Nat} (hu : PageAddr u) : addrToPte u = u := by
  obtain ⟨aligned, bound⟩ := hu
  unfold addrToPte
  omega

theorem pageAddr_addrToPte (a : Nat) : PageAddr (addrToPte a) := by
  unfold PageAddr addrToPte
  omega

section

variable {flags pa : Nat}

section

variable (low : flags < 2 ^ 12) (hpa : PageAddr pa)

include low hpa

theorem word_eq : ptePresent ||| flags ||| pa = pa + (ptePresent ||| flags) := by
  have small : ptePresent ||| flags < 2 ^ 12 := Nat.or_lt_two_pow (by decide) low
  obtain ⟨q, rfl⟩ : ∃ q, pa = 2 ^ 12 * q := Nat.dvd_of_mod_eq_zero hpa.1
  rw [Nat.or_comm, Nat.two_pow_add_eq_or_of_lt small]

theorem addrToPte_word : addrToPte (ptePresent ||| flags ||| pa) = pa := by
  have small : ptePresent ||| flags < 2 ^ 12 := Nat.or_lt_two_pow (by decide) low
  obtain ⟨aligned, bound⟩ := hpa
  rw [word_eq low ⟨aligned, bound⟩]
  unfold addrToPte
  omega

theorem getbit12_word : getbit12 (ptePresent ||| flags ||| pa) = ptePresent ||| flags := by
  have small : ptePresent ||| flags < 2 ^ 12 := Nat.or_lt_two_pow (by decide) low
  obtain ⟨aligned, bound⟩ := hpa
  rw [word_eq low ⟨aligned, bound⟩]
  unfold getbit12
  omega

end

@[simp] theorem present_word (flags pa : Nat) : present (ptePresent ||| flags ||| pa) = true := by
  simp [present, ptePresent]

theorem testBit_word (hpa : PageAddr pa) :
    (ptePresent ||| flags ||| pa).testBit 7 = flags.testBit 7 := by
  obtain ⟨q, rfl⟩ : ∃ q, pa = 2 ^ 12 * q := Nat.dvd_of_mod_eq_zero hpa.1
  have one : ptePresent.testBit 7 = false := by decide
  rw [Nat.testBit_or, Nat.testBit_or, Nat.testBit_two_pow_mul, one]
  simp

/-- A present entry is the word made of its flags and its page. -/
theorem word_of_entry {e : Nat} (bound : e < 2 ^ 32) (there : present e = true) :
    ptePresent ||| getbit12 e ||| addrToPte e = e := by
  have low : getbit12 e < 2 ^ 12 := Nat.mod_lt _ (by decide)
  have flags : ptePresent ||| getbit12 e = getbit12 e := by
    apply Nat.eq_of_testBit_eq
    intro i
    cases i with
    | zero =>
      have odd : (getbit12 e).testBit 0 = true := by
        unfold getbit12
        rw [Nat.testBit_mod_two_pow, there.symm]
        rfl
      rw [Nat.testBit_or, odd, Bool.or_true]
    | succ i =>
      have zero : ptePresent.testBit (i + 1) = false := by
        rw [Nat.testBit_succ]
        exact Nat.zero_testBit i
      rw [Nat.testBit_or, zero, Bool.false_or]
  rw [word_eq low (pageAddr_addrToPte e), flags]
  unfold addrToPte getbit12
  omega

end

/-! ## Slots -/

theorem pdeMbAddr_lt {u : Nat} (hu : PageAddr u) : pdeMbAddr u < 2 ^ 10 := by
  obtain ⟨-, bound⟩ := hu
  unfold pdeMbAddr
  omega

/-- A page is determined by its directory slot and its index in the table. -/
theorem eq_of_slot {u v : Nat} (hu : PageAddr u) (hv : PageAddr v)
    (slot : pdeMbAddr u = pdeMbAddr v) (index : pteIndex u = pteIndex v) : u = v := by
  obtain ⟨alignedU, -⟩ := hu
  obtain ⟨alignedV, -⟩ := hv
  unfold pdeMbAddr at slot
  unfold pteIndex at index
  omega

/-- Slot `i` of the directory is a 4 MB page. -/
def LargeSlot (s : Paging) (i : Nat) : Prop :=
  present (s.directory i) = true ∧ (s.directory i).testBit 7 = true

/-- A page of a slot that 4 MB pages do not use. -/
def UserPage (s : Paging) (u : Nat) : Prop := PageAddr u ∧ ¬ LargeSlot s (pdeMbAddr u)

/-- Slot `i` of the directory holds a page table. -/
def HasTable (s : Paging) (i : Nat) : Prop :=
  present (s.directory i) = true ∧ (s.directory i).testBit 7 = false

theorem UserPage.hasTable {s : Paging} {u : Nat} (hu : UserPage s u)
    (there : present (s.directory (pdeMbAddr u)) = true) : HasTable s (pdeMbAddr u) :=
  ⟨there, Bool.eq_false_iff.mpr fun large => hu.2 ⟨there, large⟩⟩

/-- No two slots share a page table, and the pages that `get_page` returns are not page
    tables. -/
structure TablesOk (s : Paging) : Prop where
  apart : ∀ i < 2 ^ 10, ∀ j < 2 ^ 10, HasTable s i → HasTable s j → i ≠ j →
    addrToPte (s.directory i) ≠ addrToPte (s.directory j)
  fresh : ∀ i < 2 ^ 10, HasTable s i → addrToPte (s.directory i) ∉ s.pages
  nodup : s.pages.Nodup
  page : ∀ t ∈ s.pages, PageAddr t

section

variable {s : Paging} {u va : Nat}

theorem entry_of_absent (absent : ¬ present (s.directory (pdeMbAddr u)) = true) : s.entry u = none :=
  if_neg fun there => absent there.1

theorem entry_of_hasTable (table : HasTable s (pdeMbAddr u)) :
    s.entry u = if present (s.pte (s.ptePtr u)) then some (s.pte (s.ptePtr u)) else none := by
  unfold Paging.entry
  simp [table.1, table.2]

theorem pte_setPte (s : Paging) (p q : PtePtr) (e : Nat) :
    (s.setPte p e).pte q = if q = p then e else s.pte q := by
  obtain ⟨t, i⟩ := p
  obtain ⟨t', i'⟩ := q
  unfold Paging.setPte Paging.pte
  by_cases table : t' = t
  · by_cases index : i' = i
    · simp [table, index]
    · simp [table, index]
  · simp [table]

/-- Two pages do not share an entry, as no two slots share a table. -/
theorem ptePtr_inj (ok : TablesOk s) (hu : PageAddr u) (hva : PageAddr va)
    (mine : HasTable s (pdeMbAddr u)) (table : HasTable s (pdeMbAddr va)) :
    s.ptePtr u = s.ptePtr va ↔ u = va := by
  constructor
  · intro same
    have tables := congrArg PtePtr.table same
    have indices := congrArg PtePtr.index same
    refine eq_of_slot hu hva ?_ indices
    by_contra differ
    exact ok.apart _ (pdeMbAddr_lt hu) _ (pdeMbAddr_lt hva) mine table differ tables
  · rintro rfl
    rfl

/-- Storing an entry changes the map at one page. -/
theorem entry_setPte (ok : TablesOk s) (hva : PageAddr va) (table : HasTable s (pdeMbAddr va))
    (e : Nat) (hu : UserPage s u) :
    (s.setPte (s.ptePtr va) e).entry u =
      if u = va then (if present e then some e else none) else s.entry u := by
  by_cases there : present (s.directory (pdeMbAddr u)) = true
  · have mine := hu.hasTable there
    have same : (s.setPte (s.ptePtr va) e).ptePtr u = s.ptePtr u := rfl
    rw [entry_of_hasTable (s := s.setPte (s.ptePtr va) e) mine, entry_of_hasTable mine, same, pte_setPte]
    by_cases page : u = va
    · rw [if_pos ((ptePtr_inj ok hu.1 hva mine table).mpr page), if_pos page]
    · rw [if_neg fun shared => page ((ptePtr_inj ok hu.1 hva mine table).mp shared), if_neg page]
  · have absent : ¬ present ((s.setPte (s.ptePtr va) e).directory (pdeMbAddr u)) = true := there
    rw [entry_of_absent absent, entry_of_absent there, if_neg]
    rintro rfl
    exact there table.1

@[simp] theorem entry_setCount (s : Paging) (i : Nat) (n : Int) (u : Nat) :
    (s.setCount i n).entry u = s.entry u := rfl

theorem TablesOk.setPte (ok : TablesOk s) (p : PtePtr) (e : Nat) : TablesOk (s.setPte p e) := { ok with }

theorem TablesOk.setCount (ok : TablesOk s) (i : Nat) (n : Int) : TablesOk (s.setCount i n) := { ok with }

end

/-! ## New page tables -/

section

variable {s : Paging} {va flags t : Nat} {pages : List Nat}

theorem addTable_directory (i : Nat) :
    (s.addTable i t flags pages).directory i = ptePresent ||| flags ||| addrToPte t :=
  update_self ..

theorem addTable_directory_of_ne {i j : Nat} (other : j ≠ i) :
    (s.addTable i t flags pages).directory j = s.directory j :=
  update_of_ne other ..

variable (ok : TablesOk s) (supply : s.pages = t :: pages) (low : flags < 2 ^ 12)
  (small : flags.testBit 7 = false)

include small in
theorem addTable_hasTable (i : Nat) : HasTable (s.addTable i t flags pages) i := by
  unfold HasTable
  rw [addTable_directory]
  exact ⟨present_word _ _, (testBit_word (pageAddr_addrToPte t)).trans small⟩

theorem addTable_hasTable_of_ne {i j : Nat} (other : j ≠ i) :
    HasTable (s.addTable i t flags pages) j ↔ HasTable s j := by
  unfold HasTable
  rw [addTable_directory_of_ne other]

include ok supply low in
theorem addTable_table (i : Nat) : addrToPte ((s.addTable i t flags pages).directory i) = t := by
  have page : PageAddr t := ok.page t (supply ▸ mem_cons_self)
  rw [addTable_directory, addrToPte_of_page page, addrToPte_word low page]

include ok supply low in
theorem TablesOk.addTable (i : Nat) : TablesOk (s.addTable i t flags pages) := by
  have mine := addTable_table ok supply low i
  have old : ∀ j < 2 ^ 10, j ≠ i → HasTable (s.addTable i t flags pages) j →
      addrToPte ((s.addTable i t flags pages).directory j) ∉ t :: pages := by
    intro j hj other table
    rw [addTable_hasTable_of_ne other] at table
    rw [addTable_directory_of_ne other, ← supply]
    exact ok.fresh j hj table
  have nodup : (t :: pages).Nodup := supply ▸ ok.nodup
  constructor
  · intro j hj k hk tableJ tableK differ
    by_cases first : j = i
    · have second : k ≠ i := fun same => differ (first.trans same.symm)
      intro same
      apply old k hk second tableK
      rw [← same, first, mine]
      exact mem_cons_self
    · by_cases second : k = i
      · intro same
        apply old j hj first tableJ
        rw [same, second, mine]
        exact mem_cons_self
      · rw [addTable_hasTable_of_ne first] at tableJ
        rw [addTable_hasTable_of_ne second] at tableK
        rw [addTable_directory_of_ne first, addTable_directory_of_ne second]
        exact ok.apart j hj k hk tableJ tableK differ
  · intro j hj table
    by_cases same : j = i
    · rw [same, mine]
      exact (nodup_cons.mp nodup).1
    · exact fun later => old j hj same table (mem_cons_of_mem _ later)
  · exact (nodup_cons.mp nodup).2
  · intro u hu
    exact ok.page u (supply ▸ mem_cons_of_mem _ hu)

include ok supply low small in
/-- A new page table maps nothing. -/
theorem entry_addTable (absent : ¬ present (s.directory (pdeMbAddr va)) = true) {u : Nat}
    (hu : UserPage s u) : (s.addTable (pdeMbAddr va) t flags pages).entry u = s.entry u := by
  have mine := addTable_table ok supply low (pdeMbAddr va)
  by_cases same : pdeMbAddr u = pdeMbAddr va
  · have before : ¬ present (s.directory (pdeMbAddr u)) = true := by
      rw [same]
      exact absent
    have table : HasTable (s.addTable (pdeMbAddr va) t flags pages) (pdeMbAddr u) := by
      rw [same]
      exact addTable_hasTable small _
    rw [entry_of_absent before, entry_of_hasTable table]
    have zero : (s.addTable (pdeMbAddr va) t flags pages).pte
        ((s.addTable (pdeMbAddr va) t flags pages).ptePtr u) = 0 := by
      unfold Paging.ptePtr
      rw [same, mine]
      change (update s.table t (fun _ => 0) : Nat → Nat → Nat) t (pteIndex u) = 0
      rw [update_self]
    rw [zero]
    rfl
  · by_cases there : present (s.directory (pdeMbAddr u)) = true
    · have table := hu.hasTable there
      have other : addrToPte (s.directory (pdeMbAddr u)) ≠ t := by
        intro reused
        apply ok.fresh _ (pdeMbAddr_lt hu.1) table
        rw [reused, supply]
        exact mem_cons_self
      have kept : (s.addTable (pdeMbAddr va) t flags pages).pte
          ((s.addTable (pdeMbAddr va) t flags pages).ptePtr u) = s.pte (s.ptePtr u) := by
        unfold Paging.ptePtr
        rw [addTable_directory_of_ne same]
        change (update s.table t (fun _ => 0) : Nat → Nat → Nat) _ _ = _
        rw [update_of_ne other]
        rfl
      rw [entry_of_hasTable ((addTable_hasTable_of_ne same).mpr table), entry_of_hasTable table, kept]
    · rw [entry_of_absent there, entry_of_absent]
      rw [addTable_directory_of_ne same]
      exact there

end

/-! ## Entering and removing a page -/

/-- `s'` maps `va` to `value` and every other page as `s` does; `delta` entries of its slot have
    been counted. -/
structure Stored (s : Paging) (va : Nat) (value : Option Nat) (delta : Int) (s' : Paging) : Prop where
  tables : TablesOk s'
  entry : ∀ u, UserPage s u → s'.entry u = if u = va then value else s.entry u
  user : ∀ u, UserPage s' u ↔ UserPage s u
  slots : ∀ i, present (s'.directory i) = true ↔ present (s.directory i) = true ∨ i = pdeMbAddr va
  old : ∀ i, present (s.directory i) = true → s'.directory i = s.directory i
  pages : s'.pages = if present (s.directory (pdeMbAddr va)) then s.pages else s.pages.tail
  count : ∀ i, s'.count i = if i = pdeMbAddr va then s.count i + delta else s.count i

section

variable {s : Paging} {va : Nat}

/-- A page table for `va` is there after `_walk` with `alloc`; nothing new is mapped. -/
structure Walked (s : Paging) (va : Nat) (s' : Paging) : Prop where
  tables : TablesOk s'
  table : HasTable s' (pdeMbAddr va)
  entry : ∀ u, UserPage s u → s'.entry u = s.entry u
  user : ∀ u, UserPage s' u ↔ UserPage s u
  slots : ∀ i, present (s'.directory i) = true ↔ present (s.directory i) = true ∨ i = pdeMbAddr va
  old : ∀ i, present (s.directory i) = true → s'.directory i = s.directory i
  pages : s'.pages = if present (s.directory (pdeMbAddr va)) then s.pages else s.pages.tail
  count : s'.count = s.count

theorem walk_alloc (ok : TablesOk s) (hva : UserPage s va)
    (supply : present (s.directory (pdeMbAddr va)) = true ∨ s.pages ≠ []) {flags : Nat}
    (low : flags < 2 ^ 12) (small : flags.testBit 7 = false) :
    ∃ s', walk s va flags true = (some (s'.ptePtr va), s') ∧ Walked s va s' := by
  unfold walk
  by_cases there : present (s.directory (pdeMbAddr va)) = true
  · rw [if_pos there]
    refine ⟨s, rfl, ok, hva.hasTable there, fun _ _ => rfl, fun _ => .rfl, fun i => ?_, fun _ _ => rfl,
      ?_, rfl⟩
    · constructor
      · exact .inl
      · rintro (before | rfl)
        · exact before
        · exact there
    · rw [if_pos there]
  · rw [if_neg there]
    cases pages : s.pages with
    | nil => exact absurd pages (supply.resolve_left there)
    | cons t rest =>
      have table := @addTable_hasTable s flags t rest small (pdeMbAddr va)
      refine ⟨s.addTable (pdeMbAddr va) t flags rest, rfl, ok.addTable pages low _, table,
        fun u hu => entry_addTable ok pages low small there hu, fun u => ?_, fun i => ?_, fun i before => ?_,
        ?_, rfl⟩
      · -- the new directory entry is not a 4 MB page, and neither was the absent one
        apply and_congr_right
        intro _
        by_cases same : pdeMbAddr u = pdeMbAddr va
        · rw [same]
          refine iff_of_true (fun large => ?_) fun large => there large.1
          cases large.2.symm.trans table.2
        · unfold LargeSlot
          rw [addTable_directory_of_ne same]
      · by_cases same : i = pdeMbAddr va
        · rw [same]
          exact iff_of_true table.1 (.inr rfl)
        · rw [addTable_directory_of_ne same]
          exact ⟨.inl, fun either => either.resolve_right same⟩
      · apply addTable_directory_of_ne
        rintro rfl
        exact there before
      · rw [if_neg there, pages]
        rfl

section

variable (ok : TablesOk s) (hva : UserPage s va) (absent : s.entry va = none)
  (supply : present (s.directory (pdeMbAddr va)) = true ∨ s.pages ≠ [])

include ok hva absent supply

theorem mmapFrom_page {pa flags : Nat} (low : flags < 2 ^ 12) (small : flags.testBit 7 = false) (n i : Nat) :
    if va < 2 ^ 31 then
      ∃ s', mmapFrom pa flags (n + 1) i va s = mmapFrom pa flags n (i + 1) ((va + pageSize) % 2 ^ 32) s' ∧
        Stored s va (some (ptePresent ||| flags ||| (addrToPte pa + i * pageSize) % 2 ^ 32)) 1 s'
    else
      mmapFrom pa flags (n + 1) i va s = .error .pdescBounds := by
  obtain ⟨s1, found, walked⟩ := walk_alloc ok hva supply low small
  have absent1 : ¬ present (s1.pte (s1.ptePtr va)) = true := by
    intro there
    have mapped := entry_of_hasTable walked.table
    rw [if_pos there, walked.entry va hva, absent] at mapped
    cases mapped
  simp only [mmapFrom, found, if_neg absent1]
  generalize (addrToPte pa + i * pageSize) % 2 ^ 32 = frame
  split
  · next low =>
    simp only [pdescIndex, if_pos low, pure_eq_ok, ok_bind]
    refine ⟨_, rfl, ?_⟩
    constructor
    · exact (walked.tables.setPte _ _).setCount _ _
    · intro u hu
      have hu1 := (walked.user u).mpr hu
      have stored := entry_setPte walked.tables hva.1 walked.table (ptePresent ||| flags ||| frame) hu1
      rw [if_pos (present_word flags frame), walked.entry u hu] at stored
      rw [entry_setCount]
      exact stored
    · exact walked.user
    · exact walked.slots
    · exact walked.old
    · exact walked.pages
    · intro i
      change (update s1.count (pdeMbAddr va) _ : Nat → Int) i = _
      rw [← walked.count]
      by_cases same : i = pdeMbAddr va
      · rw [if_pos same, same, update_self]
        rfl
      · rw [if_neg same, update_of_ne same]
  · next high => simp only [pdescIndex, if_neg high, throw_eq_error, error_bind]

theorem mmap_page {pa flags : Nat}
    (hpa : PageAddr pa) (low : flags < 2 ^ 12) (small : flags.testBit 7 = false) :
    if va < 2 ^ 31 then
      ∃ s', mmap s va pa pageSize flags = .ok (s', 0) ∧ Stored s va (some (ptePresent ||| flags ||| pa)) 1 s'
    else
      mmap s va pa pageSize flags = .error .pdescBounds := by
  have one : pageSize / pageSize = 1 := by decide
  have frame : (addrToPte pa + 0 * pageSize) % 2 ^ 32 = pa := by
    rw [addrToPte_of_page hpa, Nat.zero_mul, Nat.add_zero, Nat.mod_eq_of_lt hpa.2]
  have page := @mmapFrom_page s va ok hva absent supply pa flags low small 0 0
  rw [frame] at page
  unfold mmap
  rw [one, addrToPte_of_page hva.1]
  exact page

end

theorem walk_of_entry {e : Nat} (hva : UserPage s va) (mapped : s.entry va = some e) :
    HasTable s (pdeMbAddr va) ∧ walk s va 0 false = (some (s.ptePtr va), s) ∧
      present (s.pte (s.ptePtr va)) = true := by
  have there : present (s.directory (pdeMbAddr va)) = true := by
    by_contra absent
    rw [entry_of_absent absent] at mapped
    cases mapped
  refine ⟨hva.hasTable there, ?_, ?_⟩
  · unfold walk
    rw [if_pos there]
  · by_contra absent
    rw [entry_of_hasTable (hva.hasTable there), if_neg absent] at mapped
    cases mapped

theorem mmapFrom_mapped {e : Nat} (hva : UserPage s va) (mapped : s.entry va = some e) (pa flags n i : Nat) :
    mmapFrom pa flags (n + 1) i va s = .ok (s, -1) := by
  obtain ⟨table, -, found⟩ := walk_of_entry hva mapped
  have walked : walk s va flags true = (some (s.ptePtr va), s) := by
    unfold walk
    rw [if_pos table.1]
  simp only [mmapFrom, walked, if_pos found, pure_eq_ok]

theorem mmap_mapped {e : Nat} (hva : UserPage s va) (mapped : s.entry va = some e) (pa flags : Nat) :
    mmap s va pa pageSize flags = .ok (s, -1) := by
  have one : pageSize / pageSize = 1 := by decide
  unfold mmap
  rw [one, addrToPte_of_page hva.1]
  exact mmapFrom_mapped hva mapped pa flags 0 0

/-- Without a page table `_walk` returns `NULL`, and `mmap` panics. -/
theorem mmapFrom_panics (absent : ¬ present (s.directory (pdeMbAddr va)) = true) (noPages : s.pages = [])
    (pa flags n i : Nat) : mmapFrom pa flags (n + 1) i va s = .error .panic := by
  have walked : walk s va flags true = (none, s) := by
    unfold walk
    rw [if_neg absent, noPages]
  simp only [mmapFrom, walked, throw_eq_error]

@[inherit_doc mmapFrom_panics]
theorem mmap_panics (hva : PageAddr va) (absent : ¬ present (s.directory (pdeMbAddr va)) = true)
    (noPages : s.pages = []) (pa flags : Nat) : mmap s va pa pageSize flags = .error .panic := by
  have one : pageSize / pageSize = 1 := by decide
  unfold mmap
  rw [one, addrToPte_of_page hva]
  exact mmapFrom_panics absent noPages pa flags 0 0

theorem freemapFrom_page (ok : TablesOk s) (hva : UserPage s va) {e : Nat} (mapped : s.entry va = some e)
    (rest : List Nat) :
    if s.count (pdeMbAddr va) = 0 then
      freemapFrom (va :: rest) s = .error .tableFreed
    else
      ∃ s', freemapFrom (va :: rest) s = freemapFrom rest s' ∧ Stored s va none (-1) s' := by
  obtain ⟨table, walked, found⟩ := walk_of_entry hva mapped
  have there := table.1
  simp only [freemapFrom, walked, if_pos found]
  by_cases zero : s.count (pdeMbAddr va) = 0
  · rw [if_pos zero]
    exact if_pos zero
  · rw [if_neg zero]
    refine ⟨_, if_neg zero, ?_⟩
    constructor
    · exact (ok.setPte _ _).setCount _ _
    · intro u hu
      rw [entry_setCount]
      exact entry_setPte ok hva.1 table 0 hu
    · exact fun u => .rfl
    · intro i
      constructor
      · exact .inl
      · rintro (before | rfl)
        · exact before
        · exact there
    · exact fun i _ => rfl
    · rw [if_pos there]
      rfl
    · intro i
      change (update s.count (pdeMbAddr va) _ : Nat → Int) i = _
      by_cases same : i = pdeMbAddr va
      · rw [if_pos same, same, update_self]
        rfl
      · rw [if_neg same, update_of_ne same]

theorem freemapFrom_unmapped (hva : UserPage s va) (absent : s.entry va = none) (rest : List Nat) :
    freemapFrom (va :: rest) s = .ok (s, -1) := by
  by_cases there : present (s.directory (pdeMbAddr va)) = true
  · have walked : walk s va 0 false = (some (s.ptePtr va), s) := by
      unfold walk
      rw [if_pos there]
    have empty : ¬ present (s.pte (s.ptePtr va)) = true := by
      intro mapped
      rw [entry_of_hasTable (hva.hasTable there), if_pos mapped] at absent
      cases absent
    simp only [freemapFrom, walked, if_neg empty, pure_eq_ok]
  · have walked : walk s va 0 false = (none, s) := by
      unfold walk
      rw [if_neg there]
    simp only [freemapFrom, walked, pure_eq_ok]

end

/-! ## The page tables of users -/

/-- The bit `PTE_US` of an entry. -/
def userBit (entry : Nat) : Bool := entry.testBit 2

/-- Flags that open a page to users. -/
def UserFlags (flags : Nat) : Prop := flags < 2 ^ 12 ∧ userBit flags = true

/-- The tables of the slots in `slots` are open to users, and so is no entry that is not present. -/
structure OpenTables (slots : Nat → Prop) (s : Paging) : Prop where
  directory : ∀ d, slots d → present (s.directory d) = true → userBit (s.directory d) = true
  words : ∀ d, slots d → present (s.directory d) = true → ∀ i,
    userBit (s.table (addrToPte (s.directory d)) i) = true →
      present (s.table (addrToPte (s.directory d)) i) = true
  supply : ∀ t ∈ s.pages, PageAddr t

namespace OpenTables

variable {slots : Nat → Prop} {s s' : Paging} {flags : Nat}

section

variable (h : OpenTables slots s)

include h

theorem setPte (p : PtePtr) {e : Nat}
    (sound : userBit e = true → present e = true) : OpenTables slots (s.setPte p e) := by
  refine ⟨h.directory, fun d mine there i => ?_, h.supply⟩
  have word : (s.setPte p e).table (addrToPte (s.directory d)) i =
      if (⟨addrToPte (s.directory d), i⟩ : PtePtr) = p then e else s.table (addrToPte (s.directory d)) i :=
    pte_setPte s p ⟨addrToPte (s.directory d), i⟩ e
  show userBit ((s.setPte p e).table (addrToPte (s.directory d)) i) = true →
    present ((s.setPte p e).table (addrToPte (s.directory d)) i) = true
  rw [word]
  split
  · exact sound
  · exact h.words d mine there i

theorem setCount (d : Nat) (n : Int) : OpenTables slots (s.setCount d n) := ⟨h.directory, h.words, h.supply⟩

/-- A new table has no entries, and its directory entry has the flags. -/
theorem addTable (user : UserFlags flags) {t : Nat} {pages : List Nat}
    (supply : s.pages = t :: pages) (d : Nat) : OpenTables slots (s.addTable d t flags pages) := by
  have page : PageAddr t := h.supply t (supply ▸ List.mem_cons_self)
  have zeroed : ∀ i, (s.addTable d t flags pages).table t i = 0 := fun i => by simp [Paging.addTable]
  have other : ∀ u i, u ≠ t → (s.addTable d t flags pages).table u i = s.table u i := fun u i ne => by
    simp [Paging.addTable, ne]
  refine ⟨fun e mine there => ?_, fun e mine there i => ?_, fun u hu => ?_⟩
  · by_cases same : e = d
    · have bit := user.2
      unfold userBit at bit ⊢
      rw [same, addTable_directory, Nat.testBit_or, Nat.testBit_or, bit]
      simp
    · rw [addTable_directory_of_ne same] at there ⊢
      exact h.directory e mine there
  · -- no entry of the new table is open to users, and the other tables are as before
    by_cases new : addrToPte ((s.addTable d t flags pages).directory e) = t
    · rw [new, zeroed]
      decide
    · have same : e ≠ d := by
        rintro rfl
        rw [addTable_directory, addrToPte_of_page page, addrToPte_word user.1 page] at new
        exact new rfl
      rw [other _ _ new]
      rw [addTable_directory_of_ne same] at there ⊢
      exact h.words e mine there i
  · exact h.supply u (supply ▸ List.mem_cons_of_mem _ hu)

theorem walk {va : Nat} {r : Option PtePtr} {alloc : Bool}
    (user : alloc = true → UserFlags flags) (done : walk s va flags alloc = (r, s')) :
    OpenTables slots s' := by
  unfold Kernel.walk at done
  split at done
  · cases done
    exact h
  · split at done
    · cases done
      exact h
    · cases done
      exact h
    · next t pages _ supply =>
      cases done
      exact h.addTable (user rfl) supply _

/-- The word that `mmap` stores is present. -/
theorem mmapFrom {pa n i va : Nat} {r : Int} (user : UserFlags flags)
    (done : mmapFrom pa flags n i va s = .ok (s', r)) : OpenTables slots s' := by
  induction n generalizing i va s with
  | zero =>
    cases done
    exact h
  | succ n ih =>
    rw [Kernel.mmapFrom] at done
    split at done
    · cases done
    · next pte s1 found =>
      have walked := h.walk (fun _ => user) found
      split at done
      · cases done
        exact walked
      · obtain ⟨d, -, rest⟩ := bind_eq_ok.mp done
        exact ih ((walked.setPte pte fun _ => present_word _ _).setCount _ _) rest

theorem freemapFrom {addrs : List Nat} {r : Int}
    (done : freemapFrom addrs s = .ok (s', r)) : OpenTables slots s' := by
  induction addrs generalizing s with
  | nil =>
    cases done
    exact h
  | cons addr addrs ih =>
    rw [Kernel.freemapFrom] at done
    split at done
    · cases done
      exact h
    · next pte s1 found =>
      have walked := h.walk (fun alloc => by cases alloc) found
      split at done
      · have cleared : OpenTables slots (s1.setPte pte 0) := walked.setPte pte (by decide)
        simp only at done
        split at done
        · cases done
        · exact ih (cleared.setCount _ _) done
      · cases done
        exact walked

end

end OpenTables

/-! ## Ranges -/

theorem pageRange_pages (start n : Nat) :
    pageRange start (start + pageSize * n) = (range n).map (start + pageSize * ·) := by
  have count : (start + pageSize * n - start + pageSize - 1) / pageSize = n := by
    unfold pageSize
    omega
  unfold pageRange
  rw [count]

theorem pages_succ (start n : Nat) : (range (n + 1)).map (start + pageSize * ·) =
    start :: (range n).map (start + pageSize + pageSize * ·) := by
  rw [range_succ_eq_map, map_cons, map_map]
  refine congrArg (start :: ·) (map_congr_left fun k _ => ?_)
  show start + pageSize * (k + 1) = start + pageSize + pageSize * k
  rw [Nat.mul_succ]
  omega

end Illinix.Verified.Vm
