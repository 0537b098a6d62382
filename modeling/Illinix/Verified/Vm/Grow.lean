import Illinix.Verified.Vm.Frames

/-! # Growing an area

The array `mmap` of an area holds the page table entries of its pages, for the time when the
process is not mapped.  `vmalloc` copies the old entries into a larger array and then stores the
new ones from index 0 on, over the copies; the array is right only if the area was empty. -/

namespace Illinix.Verified.Vm

open Kernel Lib List

variable {flags : Nat} {incrsize : Int} {s : Space} {vm : Area}

/-- The number of pages of an area. -/
def Area.size (vm : Area) : Nat := (vm.vmend - vm.vmstart) / pageSize

/-- The array holds the page table entries of the pages. -/
def Represents (s : Paging) (vm : Area) : Prop :=
  ∀ k < Area.size vm, s.entry (vm.vmstart + pageSize * k) = some (vm.mmap k)

/-- The number of pages for `incrsize` bytes. -/
def pagesFor (incrsize : Int) : Nat := (incrsize.toNat + pageSize - 1) / pageSize

/-- The area before it grows: its pages are mapped as the array says, and neither its pages nor those
    it is to get are in a slot of 4 MB pages.  The free frames are distinct and not in use. -/
structure GrowReady (s : Space) (vm : Area) (incrsize : Int) (flags : Nat) : Prop where
  start : PageAddr vm.vmstart
  stop : PageAddr vm.vmend
  order : vm.vmstart ≤ vm.vmend
  array : Represents s.toPaging vm
  tables : TablesOk s.toPaging
  user : ∀ u, PageAddr u → vm.vmstart ≤ u → u < vm.vmend + pageSize * pagesFor incrsize → UserPage s.toPaging u
  frame : ∀ f ∈ s.frames, FrameOk f
  nodup : s.frames.Nodup
  fresh : ∀ k < Area.size vm, addrToPte (vm.mmap k) ∉ s.frames
  size : 0 < incrsize ∧ incrsize < 2 ^ 31
  flags : flags < 2 ^ 12 ∧ flags.testBit 7 = false

/-- The area has grown by `n` pages. -/
structure Grown (s : Space) (vm : Area) (n : Nat) (s' : Space) (vm' : Area) : Prop where
  start : vm'.vmstart = vm.vmstart
  stop : vm'.vmend = vm.vmend + pageSize * n
  /-- A new page is mapped to a frame that was free. -/
  mapped : ∀ j < n, ∃ e, s'.entry (vm.vmend + pageSize * j) = some e ∧ addrToPte e ∈ s.frames ∧
    addrToPte e ∉ s'.frames
  distinct : ∀ j < n, ∀ k < n, ∀ e e', s'.entry (vm.vmend + pageSize * j) = some e →
    s'.entry (vm.vmend + pageSize * k) = some e' → addrToPte e = addrToPte e' → j = k
  array : Represents s'.toPaging vm'
  kept : ∀ k < Area.size vm, vm'.mmap k = vm.mmap k

/-! ## The pages of the loop -/

section

variable {flags : Nat} {i : Nat} {r : Int} {s s' : Space} {vm vm' : Area}

/-- A call of `mmap` that succeeds has entered the page, which is in the lower half of the address space. -/
theorem mmap_stored {s s' : Paging} {va pa : Nat} (ok : TablesOk s) (hva : UserPage s va)
    (hpa : PageAddr pa) (low : flags < 2 ^ 12) (small : flags.testBit 7 = false)
    (done : mmap s va pa pageSize flags = .ok (s', r)) (success : r ≠ -1) :
    va < 2 ^ 31 ∧ Stored s va (some (ptePresent ||| flags ||| pa)) 1 s' := by
  cases mapped : s.entry va with
  | some e =>
    rw [mmap_mapped hva mapped] at done
    cases done
    exact absurd rfl success
  | none =>
    by_cases supply : present (s.directory (pdeMbAddr va)) = true ∨ s.pages ≠ []
    · have page := mmap_page ok hva mapped supply hpa low small
      split at page
      · next lower =>
        obtain ⟨s1, entered, stored⟩ := page
        rw [entered] at done
        cases done
        exact ⟨lower, stored⟩
      · rw [page] at done
        cases done
    · obtain ⟨absent, noPages⟩ := not_or.mp supply
      rw [mmap_panics hva.1 absent (Decidable.not_not.mp noPages)] at done
      cases done

section

variable (low : flags < 2 ^ 12) (small : flags.testBit 7 = false) (ok : TablesOk s.toPaging)

include low small ok

theorem vmallocFrom_page {va : Nat} (user : UserPage s.toPaging va)
    (frame : ∀ f ∈ s.frames, FrameOk f) (done : vmallocFrom flags [va] i s vm = .ok (s', vm', r)) :
    if s.frames = [] then r = -1
    else ∃ pa rest, s.frames = pa :: rest ∧ s'.frames = rest ∧ va < 2 ^ 31 ∧
      Stored s.toPaging va (some (ptePresent ||| flags ||| pa)) 1 s'.toPaging := by
  rcases vmallocFrom_cons frame done with ⟨none, -, failed⟩ | ⟨pa, rest, p, n, frames, entered, success, done⟩
  · rw [if_pos none]
    exact failed
  · rw [frames, forall_mem_cons] at frame
    rw [frames, if_neg (cons_ne_nil _ _)]
    cases done
    exact ⟨pa, rest, rfl, rfl, mmap_stored ok user frame.1.1 low small entered success⟩

/-- The loop of `vmalloc` keeps what other pages are mapped to, whatever it returns. -/
theorem vmallocFrom_others {vas : List Nat} (user : ∀ va ∈ vas, UserPage s.toPaging va)
    (frame : ∀ f ∈ s.frames, FrameOk f) (done : vmallocFrom flags vas i s vm = .ok (s', vm', r)) {u : Nat}
    (hu : UserPage s.toPaging u) (other : u ∉ vas) : s'.entry u = s.entry u := by
  induction vas generalizing i s vm with
  | nil =>
    cases done
    rfl
  | cons va vas ih =>
    rcases vmallocFrom_cons frame done with ⟨-, rfl, -⟩ | ⟨pa, rest, p, n, frames, entered, success, done⟩
    · rfl
    · rw [frames, forall_mem_cons] at frame
      rw [forall_mem_cons] at user
      obtain ⟨differ, later⟩ := not_or.mp (mt mem_cons.mpr other)
      have stored := (mmap_stored ok user.1 frame.1.1 low small entered success).2
      have kept := @ih (i + 1) { s with toPaging := p, frames := rest } _ stored.tables
        (fun u hu => (stored.user u).mpr (user.2 u hu)) frame.2 done ((stored.user u).mpr hu) later
      rw [kept, stored.entry u hu, if_neg differ]

theorem vmallocFrom_mapped {vas : List Nat} (user : ∀ va ∈ vas, UserPage s.toPaging va)
    (nodup : vas.Nodup) (frame : ∀ f ∈ s.frames, FrameOk f)
    (done : vmallocFrom flags vas i s vm = .ok (s', vm', 0)) :
    vas.length ≤ s.frames.length ∧ (∀ p ∈ vas.zipIdx i, s'.entry p.1 = some (vm'.mmap p.2)) ∧
    ∀ j < i, vm'.mmap j = vm.mmap j := by
  induction vas generalizing i s vm with
  | nil =>
    cases done
    exact ⟨Nat.zero_le _, forall_mem_nil _, fun _ _ => rfl⟩
  | cons va vas ih =>
    rcases vmallocFrom_cons frame done with ⟨-, -, failed⟩ | ⟨pa, rest, p, n, frames, entered, success, done⟩
    · cases failed
    · rw [frames, forall_mem_cons] at frame
      rw [forall_mem_cons] at user
      obtain ⟨unused, nodup⟩ := nodup_cons.mp nodup
      have stored := (mmap_stored ok user.1 frame.1.1 low small entered success).2
      have user' : ∀ u ∈ vas, UserPage p u := fun u hu => (stored.user u).mpr (user.2 u hu)
      obtain ⟨enough, entries, before⟩ :=
        @ih (i + 1) { s with toPaging := p, frames := rest } _ stored.tables user' nodup frame.2 done
      have first : s'.entry va = some (vm'.mmap i) := by
        have kept := vmallocFrom_others (s := { s with toPaging := p, frames := rest }) low small
          stored.tables user' frame.2 done ((stored.user va).mpr user.1) unused
        rw [kept, stored.entry va user.1, if_pos rfl, before i (Nat.lt_succ_self i)]
        simp only [Function.update_self, addrToPte_of_page frame.1.1]
      refine ⟨?_, ?_, fun j hj => ?_⟩
      · rw [frames]
        exact Nat.succ_le_succ enough
      · rw [zipIdx_cons, forall_mem_cons]
        exact ⟨first, entries⟩
      · rw [before j (Nat.lt_succ_of_lt hj)]
        simp only [Function.update_of_ne (Nat.ne_of_lt hj)]

end

end

/-! ## The call -/

section

variable {s s' : Space} {vm vm' : Area} {incrsize : Int} {flags : Nat}

theorem addrToPte_pages (bound : incrsize < 2 ^ 31) :
    addrToPte (incrsize.toNat + pageSize - 1) = pageSize * pagesFor incrsize := by
  unfold addrToPte pagesFor pageSize
  omega

theorem pagesFor_pos (size : 0 < incrsize) : 0 < pagesFor incrsize := by
  unfold pagesFor pageSize
  omega

/-- What is known of a call that returns 0: the pages of the loop are mapped to the first free
    frames, and the array holds their entries from index 0 on. -/
structure Allocated (s : Space) (vas : List Nat) (s' : Space) (vm' : Area) : Prop where
  taken : s.frames = (List.range' 0 vas.length).map (fun j => addrToPte (vm'.mmap j)) ++ s'.frames
  entry : ∀ p ∈ vas.zipIdx, s'.entry p.1 = some (vm'.mmap p.2)

theorem vmalloc_allocated (ready : GrowReady s vm incrsize flags)
    (done : vmalloc s vm incrsize flags = .ok (s', vm', 0)) :
    vm'.vmstart = vm.vmstart ∧ vm'.vmend = (vm.vmend + pageSize * pagesFor incrsize) % 2 ^ 32 ∧
      Allocated s (pageRange vm.vmend vm'.vmend) s' vm' := by
  obtain ⟨-, -, ⟨-, other⟩ | ⟨zero, -⟩ | ⟨-, other⟩⟩ | ⟨-, -, blocks, mmap, loop⟩ := vmalloc_cases done
  · cases other
  · exact absurd zero (Int.ne_of_gt ready.size.1)
  · cases other
  rw [addrToPte_pages ready.size.2] at loop
  have user : ∀ va ∈ pageRange vm.vmend ((vm.vmend + pageSize * pagesFor incrsize) % 2 ^ 32),
      UserPage s.toPaging va := by
    intro va mem
    obtain ⟨i, hi, rfl⟩ := mem_pageRange.mp mem
    have stop := ready.stop
    have order := ready.order
    apply ready.user
    · unfold PageAddr pageSize at *
      omega
    · omega
    · unfold pageSize at *
      omega
  obtain ⟨enough, entry, -⟩ := vmallocFrom_mapped ready.flags.1 ready.flags.2 (s := { s with blocks }) ready.tables
    user (pageRange_nodup _ _) ready.frame loop
  obtain ⟨start, stop, -⟩ := vmallocFrom_area loop
  obtain ⟨taken, -⟩ := vmallocFrom_frames ready.flags.1 (s := { s with blocks }) ready.frame enough loop
  refine ⟨start, stop, ?_, ?_⟩
  · rw [stop]
    exact taken
  · rw [stop]
    exact entry

theorem Allocated.first {vas : List Nat} (all : Allocated s vas s' vm') (some : vas ≠ []) :
    addrToPte (vm'.mmap 0) ∈ s.frames := by
  obtain ⟨va, rest, rfl⟩ := exists_cons_of_ne_nil some
  rw [all.taken]
  apply mem_append_left
  exact mem_cons_self

theorem Allocated.entry_at {start n j : Nat} (all : Allocated s (pageRange start (start + pageSize * n)) s' vm')
    (hj : j < n) : s'.entry (start + pageSize * j) = some (vm'.mmap j) := by
  apply all.entry (start + pageSize * j, j)
  rw [mem_zipIdx_iff_getElem?, pageRange_pages, getElem?_map, getElem?_range hj]
  rfl

theorem Allocated.frames {start n : Nat} (all : Allocated s (pageRange start (start + pageSize * n)) s' vm') :
    s.frames = (List.range n).map (fun j => addrToPte (vm'.mmap j)) ++ s'.frames := by
  have taken := all.taken
  rw [pageRange_pages, length_map, length_range, ← range_eq_range'] at taken
  exact taken

section

variable (ready : GrowReady s vm incrsize flags) (done : vmalloc s vm incrsize flags = .ok (s', vm', 0))

include ready done

theorem grown_of_empty (empty : vm.vmend = vm.vmstart)
    (room : vm.vmend + pageSize * pagesFor incrsize < 2 ^ 32) : Grown s vm (pagesFor incrsize) s' vm' := by
  obtain ⟨start, stop, all⟩ := vmalloc_allocated ready done
  rw [Nat.mod_eq_of_lt room] at stop
  rw [stop] at all
  have nodup := ready.nodup
  rw [all.frames, nodup_append] at nodup
  constructor
  · exact start
  · exact stop
  · intro j hj
    have new : addrToPte (vm'.mmap j) ∈ (range (pagesFor incrsize)).map fun j => addrToPte (vm'.mmap j) :=
      mem_map_of_mem (mem_range.mpr hj)
    refine ⟨_, all.entry_at hj, ?_, fun free => nodup.2.2 _ new _ free rfl⟩
    rw [all.frames]
    exact mem_append_left _ new
  · intro j hj k hk e e' atJ atK same
    rw [all.entry_at hj, Option.some.injEq] at atJ
    rw [all.entry_at hk, Option.some.injEq] at atK
    rw [← atJ, ← atK] at same
    exact inj_on_of_nodup_map nodup.1 (mem_range.mpr hj) (mem_range.mpr hk) same
  · intro k hk
    have size : Area.size vm' = pagesFor incrsize := by
      unfold Area.size
      rw [start, stop, empty]
      unfold pageSize
      omega
    rw [start, ← empty]
    exact all.entry_at (size ▸ hk)
  · intro k hk
    unfold Area.size at hk
    rw [empty, Nat.sub_self] at hk
    exact absurd hk (Nat.not_lt_zero k)

theorem empty_of_grown (grown : Grown s vm (pagesFor incrsize) s' vm') :
    vm.vmend = vm.vmstart ∧ vm.vmend + pageSize * pagesFor incrsize < 2 ^ 32 := by
  obtain ⟨start, stop, all⟩ := vmalloc_allocated ready done
  have room : vm.vmend + pageSize * pagesFor incrsize < 2 ^ 32 := by
    rw [← grown.stop, stop]
    exact Nat.mod_lt _ (by decide)
  refine ⟨?_, room⟩
  by_contra some
  have one : 0 < Area.size vm := by
    have aligned := ready.start.1
    have aligned' := ready.stop.1
    have order := ready.order
    unfold Area.size pageSize
    omega
  apply ready.fresh 0 one
  -- the entry of the first page has been overwritten
  rw [← grown.kept 0 one]
  apply all.first
  rw [grown.stop, pageRange_pages]
  intro none
  rw [map_eq_nil_iff, range_eq_nil] at none
  exact absurd none (Nat.ne_of_gt (pagesFor_pos ready.size.1))

end

end

/-- `vmalloc` keeps the array of an area in step with the page tables if and only if the area was
    empty (and does not grow past the end of the address space). -/
theorem area_grows_iff {s s' : Space} {vm vm' : Area} {incrsize : Int} {flags : Nat}
    (ready : GrowReady s vm incrsize flags) (done : vmalloc s vm incrsize flags = .ok (s', vm', 0)) :
    Grown s vm (pagesFor incrsize) s' vm' ↔
      vm.vmend = vm.vmstart ∧ vm.vmend + pageSize * pagesFor incrsize < 2 ^ 32 :=
  ⟨empty_of_grown ready done, fun cond => grown_of_empty ready done cond.1 cond.2⟩

/-- A page of another area is mapped; two frames are free. -/
def growSpace : Space :=
  { toPaging := oneTable 0x8800000 0x4000007
    frames := [0x5000000, 0x5001000]
    mem := fun _ _ => 0
    blocks := [fun _ => 0] }

/-- An area of `n` pages up to `stop`, the first of them that of `growSpace`. -/
def growArea (n stop : Nat) : Area := ⟨fun _ => 0x4000007, stop - pageSize * n, stop, 6 + vmHeap⟩

theorem growArea_ready {n stop : Nat} (start : PageAddr (stop - pageSize * n))
    (page : PageAddr stop) (array : Represents growSpace.toPaging (growArea n stop))
    (size : 0 < incrsize ∧ incrsize < 2 ^ 31) (low : flags < 2 ^ 12 ∧ flags.testBit 7 = false) :
    GrowReady growSpace (growArea n stop) incrsize flags where
  start := start
  stop := page
  order := Nat.sub_le _ _
  array := array
  tables := oneTable_tables
  user _ hu _ _ := oneTable_user hu
  frame := by decide
  nodup := by decide
  fresh _ _ := show addrToPte 0x4000007 ∉ [0x5000000, 0x5001000] by decide
  size := size
  flags := low

theorem growArea_represents : Represents growSpace.toPaging (growArea 1 0x8801000) := by
  intro k hk
  have zero : k = 0 := Nat.lt_one_iff.mp hk
  subst zero
  decide +kernel

theorem vmalloc_returns (found : okAnd (vmalloc s vm incrsize flags) (fun p => p.2.2 = 0) = true) :
    ∃ s' vm', vmalloc s vm incrsize flags = .ok (s', vm', 0) := by
  obtain ⟨⟨s', vm', r⟩, done, zero⟩ := okAnd_iff.mp found
  have returned : r = 0 := of_decide_eq_true zero
  exact ⟨s', vm', returned ▸ done⟩

/-- An empty area grows by two pages. -/
theorem area_grows_empty : ∃ s' vm', vmalloc growSpace (growArea 0 0x8801000) 5000 6 = .ok (s', vm', 0) ∧
    Grown growSpace (growArea 0 0x8801000) 2 s' vm' := by
  have ready : GrowReady growSpace (growArea 0 0x8801000) 5000 6 :=
    growArea_ready (by decide) (by decide) (fun _ none => absurd none (Nat.not_lt_zero _)) (by decide) (by decide)
  obtain ⟨s', vm', done⟩ := @vmalloc_returns 6 5000 growSpace (growArea 0 0x8801000) (by decide +kernel)
  exact ⟨s', vm', done, (area_grows_iff ready done).mpr ⟨rfl, by decide⟩⟩

/-- The second growth of an area loses the entry of its first page. -/
theorem second_growth_overwrites : GrowReady growSpace (growArea 1 0x8801000) 4096 6 ∧
    ∃ s' vm', vmalloc growSpace (growArea 1 0x8801000) 4096 6 = .ok (s', vm', 0) ∧
      ¬ Grown growSpace (growArea 1 0x8801000) 1 s' vm' := by
  have ready : GrowReady growSpace (growArea 1 0x8801000) 4096 6 :=
    growArea_ready (by decide) (by decide) growArea_represents (by decide) (by decide)
  obtain ⟨s', vm', done⟩ := @vmalloc_returns 6 4096 growSpace (growArea 1 0x8801000) (by decide +kernel)
  exact ⟨ready, s', vm', done, fun grown => absurd (empty_of_grown ready done grown).1 (by decide)⟩

/-! ## A growth that fails -/

/-- The area, the page tables and the free frames are as before. -/
structure Unchanged (s : Space) (vm : Area) (s' : Space) (vm' : Area) : Prop where
  stop : vm'.vmend = vm.vmend
  entries : ∀ k < Area.size vm, vm'.mmap k = vm.mmap k
  tables : s'.toPaging = s.toPaging
  frames : s'.frames.Perm s.frames

/-- The end of an area that is to grow is never its old end. -/
theorem vmend_moves {stop : Nat} (size : 0 < incrsize ∧ incrsize < 2 ^ 31) :
    (stop + addrToPte (incrsize.toNat + pageSize - 1)) % 2 ^ 32 ≠ stop := by
  unfold addrToPte pageSize
  omega

/-- A call of `vmalloc` that fails leaves everything as it was if and only if it fails before its loop: the
    size is negative, or there is no block for the array. -/
theorem failed_growth_atomic_iff {s s' : Space} {vm vm' : Area} {incrsize : Int} {flags : Nat}
    (bound : incrsize < 2 ^ 31) (done : vmalloc s vm incrsize flags = .ok (s', vm', -1)) :
    Unchanged s vm s' vm' ↔ incrsize < 0 ∨ s.blocks = [] := by
  rcases vmalloc_cases done with ⟨rfl, rfl, why⟩ | ⟨size, some, blocks, mmap, loop⟩
  · have early : incrsize < 0 ∨ s'.blocks = [] := by
      rcases why with ⟨negative, -⟩ | ⟨-, other⟩ | ⟨none, -⟩
      · exact .inl negative
      · cases other
      · exact .inr none
    exact iff_of_true ⟨rfl, fun _ _ => rfl, rfl, .refl _⟩ early
  · -- the end has moved before the first page is looked for
    obtain ⟨-, stop, -⟩ := vmallocFrom_area loop
    refine iff_of_false (fun same => ?_) (not_or.mpr ⟨Int.not_lt.mpr (Int.le_of_lt size), some⟩)
    exact vmend_moves ⟨size, bound⟩ (stop.symm.trans same.stop)

/-- A growth by a page, for which `kmalloc` has no block. -/
theorem failed_growth_atomic_block :
    vmalloc { growSpace with blocks := [] } (growArea 1 0x8801000) 4096 6 =
        .ok ({ growSpace with blocks := [] }, growArea 1 0x8801000, -1) ∧
      Unchanged { growSpace with blocks := [] } (growArea 1 0x8801000) { growSpace with blocks := [] }
        (growArea 1 0x8801000) := by
  have done : vmalloc { growSpace with blocks := [] } (growArea 1 0x8801000) 4096 6 =
    .ok ({ growSpace with blocks := [] }, growArea 1 0x8801000, -1) := rfl
  exact ⟨done, (failed_growth_atomic_iff (by decide) done).mpr (.inr rfl)⟩

/-- Two frames are free, and a growth by three pages ends with two of them mapped and the end of the area three
    pages further. -/
theorem failed_growth_moves : ∃ s' vm', vmalloc growSpace (growArea 1 0x8801000) 12288 6 = .ok (s', vm', -1) ∧
    vm'.vmend = 0x8804000 ∧ s'.frames = [] ∧ s'.entry 0x8801000 = some 0x5000007 ∧
    ¬ Unchanged growSpace (growArea 1 0x8801000) s' vm' := by
  have found : okAnd (vmalloc growSpace (growArea 1 0x8801000) 12288 6) (fun p => p.2.2 = -1 ∧
      p.2.1.vmend = 0x8804000 ∧ p.1.frames = [] ∧ p.1.entry 0x8801000 = some 0x5000007) = true := by
    decide +kernel
  obtain ⟨⟨s', vm', r⟩, done, out⟩ := okAnd_iff.mp found
  obtain ⟨rfl, stop, frames, entry⟩ := of_decide_eq_true out
  refine ⟨s', vm', done, stop, frames, entry, fun same => ?_⟩
  have moved := stop.symm.trans same.stop
  exact absurd moved (by decide)

end Illinix.Verified.Vm
