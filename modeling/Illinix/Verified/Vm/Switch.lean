import Illinix.Verified.Vm.Tables
import Mathlib.Data.Finset.Card

/-! # Switching the mapped process

`__umap(from, to)` takes the pages of one process out of the page tables and enters those of
another.  Both loops go area by area and page by page; the tables then map exactly the pages
that have not been taken out yet, or that have already been entered.

The pages of a process are below 2 GB: no call of the kernel makes an area above.  There `mmap`, which
keeps its address in an `int`, would count a page at a negative index of `pdesc`. -/

namespace Illinix.Verified.Vm

open Kernel Lib List

/-- The pages of a process with their entries, in the order of the loops. -/
def pagesOf (vm : Vmem) : List (Nat × Nat) := vm.mapList.flatMap Area.pages

/-- The area is made of whole pages, and `mmap` holds a page table entry for each. -/
structure AreaOk (vm : Area) : Prop where
  start : PageAddr vm.vmstart
  stop : PageAddr vm.vmend
  order : vm.vmstart ≤ vm.vmend
  entry : ∀ p ∈ vm.pages, p.2 < 2 ^ 32 ∧ present p.2 = true ∧ p.2.testBit 7 = false

/-- The areas are disjoint and lie in slots that 4 MB pages do not use, and outside of the pages
    `kernel` that the kernel has mapped for itself.  (`_walk` gives a directory entry the flags
    of a page, so that one with bit 7 would make its slot a 4 MB page.) -/
structure VmOk (kernel : Nat → Prop) (s : Paging) (vm : Vmem) : Prop where
  area : ∀ a ∈ vm.mapList, AreaOk a
  disjoint : vm.mapList.Pairwise fun a b => a.vmend ≤ b.vmstart ∨ b.vmend ≤ a.vmstart
  user : ∀ p ∈ pagesOf vm, UserPage s p.1 ∧ ¬ kernel p.1

/-- The tables map exactly the pages in `l`, apart from those of the kernel.  `pdesc` counts the
    entries of the slots below 2 GB. -/
structure Maps (kernel : Nat → Prop) (s : Paging) (l : List (Nat × Nat)) : Prop where
  entry : ∀ u, UserPage s u → ¬ kernel u → s.entry u = l.lookup u
  counted : ∀ i, s.count i = if i < 2 ^ 9 then (l.countP fun p => pdeMbAddr p.1 = i : Int) else 0

/-- The directory slots of the pages in `l` that have no page table. -/
def missing (s : Paging) (l : List (Nat × Nat)) : Finset Nat :=
  (l.map fun p => pdeMbAddr p.1).toFinset.filter fun i => ¬ present (s.directory i) = true

/-- `get_page` has a page for each page table that has to be created. -/
def Supplied (s : Paging) (l : List (Nat × Nat)) : Prop := (missing s l).card ≤ s.pages.length

/-- Every page of the process is below 2 GB. -/
def Low (vm : Vmem) : Prop := ∀ p ∈ pagesOf vm, p.1 < 2 ^ 31

/-! ## Pages of an area -/

theorem mem_pageRange {start stop u : Nat} :
    u ∈ pageRange start stop ↔ ∃ i < (stop - start + pageSize - 1) / pageSize, start + pageSize * i = u := by
  unfold pageRange
  rw [mem_map]
  simp only [mem_range]

theorem pageRange_nodup (start stop : Nat) : (pageRange start stop).Nodup := by
  refine List.Nodup.map ?_ nodup_range
  intro i j same
  change start + pageSize * i = start + pageSize * j at same
  unfold pageSize at same
  omega

theorem pages_fst (vm : Area) : vm.pages.map Prod.fst = pageRange vm.vmstart vm.vmend := by
  unfold Area.pages
  rw [map_map]
  exact zipIdx_map_fst 0 _

theorem bounds_of_mem_pageRange {start stop u : Nat} (hu : u ∈ pageRange start stop) :
    start ≤ u ∧ u < stop := by
  obtain ⟨i, hi, rfl⟩ := mem_pageRange.mp hu
  unfold pageSize at *
  omega

theorem VmOk.nodup {kernel : Nat → Prop} {s : Paging} {vm : Vmem} (ok : VmOk kernel s vm) :
    ((pagesOf vm).map Prod.fst).Nodup := by
  have areas := ok.area
  have disjoint := ok.disjoint
  unfold pagesOf
  generalize vm.mapList = l at areas disjoint
  induction l with
  | nil => exact nodup_nil
  | cons a l ih =>
    rw [pairwise_cons] at disjoint
    rw [flatMap_cons, map_append, nodup_append]
    refine ⟨pages_fst a ▸ pageRange_nodup _ _, ih (fun b hb => areas b (mem_cons_of_mem _ hb)) disjoint.2, ?_⟩
    rintro u hu v hv rfl
    rw [pages_fst] at hu
    obtain ⟨p, hp, rfl⟩ := mem_map.mp hv
    obtain ⟨b, hb, mem⟩ := mem_flatMap.mp hp
    have later : p.1 ∈ pageRange b.vmstart b.vmend := pages_fst b ▸ mem_map_of_mem mem
    have left := bounds_of_mem_pageRange hu
    have right := bounds_of_mem_pageRange later
    cases disjoint.1 b hb with
    | inl before => omega
    | inr after => omega

/-- `freemap` of a whole area visits its pages. -/
theorem AreaOk.freemap {vm : Area} (ok : AreaOk vm) (s : Paging) :
    freemap s vm.vmstart (sub32 vm.vmend vm.vmstart) = freemapFrom (vm.pages.map Prod.fst) s := by
  have start := ok.start.2
  have stop := ok.stop.2
  have back : (vm.vmstart + sub32 vm.vmend vm.vmstart) % 2 ^ 32 = vm.vmend := by
    unfold sub32
    omega
  unfold Kernel.freemap
  rw [back, pages_fst]

/-! ## One page -/

section

variable {l : List (Nat × Nat)} {p : Nat × Nat} {u : Nat}

theorem lookup_cons_eq (new : p.1 ∉ l.map Prod.fst) :
    l.lookup u = if u = p.1 then none else (p :: l).lookup u := by
  obtain ⟨va, e⟩ := p
  split
  · next same =>
    rw [lookup_eq_none_iff]
    intro q hq
    rw [bne_iff_ne, same]
    rintro rfl
    exact new (mem_map.mpr ⟨q, hq, rfl⟩)
  · next other => rw [lookup_cons, beq_false_of_ne other]

theorem lookup_concat_eq (new : p.1 ∉ l.map Prod.fst) :
    (l ++ [p]).lookup u = if u = p.1 then some p.2 else l.lookup u := by
  obtain ⟨va, e⟩ := p
  rw [lookup_append]
  split
  · next same =>
    have absent : l.lookup va = none := by
      rw [lookup_cons_eq new, if_pos rfl]
    rw [same, absent, lookup_cons_self]
    rfl
  · next other =>
    rw [lookup_cons, beq_false_of_ne other]
    exact Option.or_none

end

section

variable {kernel : Nat → Prop} {s s' : Paging} {l : List (Nat × Nat)} {p : Nat × Nat}
  {delta : Int} {va : Nat} {value : Option Nat}

theorem high_slot {u : Nat} : pdeMbAddr u < 2 ^ 9 ↔ u < 2 ^ 31 := by
  unfold pdeMbAddr
  omega

/-- A mapped page is counted exactly below 2 GB. -/
theorem Maps.count_head (maps : Maps kernel s (p :: l)) :
    s.count (pdeMbAddr p.1) = 0 ↔ ¬ p.1 < 2 ^ 31 := by
  rw [maps.counted, ← high_slot]
  split
  · next low =>
    rw [countP_cons_of_pos (by simp)]
    refine iff_of_false ?_ fun high => high low
    omega
  · next high => exact iff_of_true rfl high

theorem Maps.remove (maps : Maps kernel s (p :: l)) (new : p.1 ∉ l.map Prod.fst) (low : p.1 < 2 ^ 31)
    (stored : Stored s p.1 none (-1) s') : Maps kernel s' l := by
  constructor
  · intro u hu notKernel
    rw [stored.user] at hu
    rw [stored.entry u hu, lookup_cons_eq new, maps.entry u hu notKernel]
  · intro i
    rw [stored.count, maps.counted]
    by_cases same : i = pdeMbAddr p.1
    · rw [if_pos same, if_pos (same ▸ high_slot.mpr low), if_pos (same ▸ high_slot.mpr low),
        countP_cons_of_pos (by simp [same])]
      omega
    · rw [if_neg same, countP_cons_of_neg (by simpa using Ne.symm same)]

theorem Maps.add (maps : Maps kernel s l) (new : p.1 ∉ l.map Prod.fst) (low : p.1 < 2 ^ 31)
    (stored : Stored s p.1 (some p.2) 1 s') : Maps kernel s' (l ++ [p]) := by
  constructor
  · intro u hu notKernel
    rw [stored.user] at hu
    rw [stored.entry u hu, lookup_concat_eq new, maps.entry u hu notKernel]
  · intro i
    rw [stored.count, maps.counted, countP_append]
    by_cases same : i = pdeMbAddr p.1
    · rw [if_pos same, if_pos (same ▸ high_slot.mpr low), if_pos (same ▸ high_slot.mpr low), countP_singleton]
      simp [same]
    · rw [if_neg same, countP_singleton]
      simp [Ne.symm same]

/-- `s'` is reached from `s` by entering and removing pages of processes. -/
structure Kept (kernel : Nat → Prop) (s s' : Paging) : Prop where
  tables : TablesOk s'
  user : ∀ u, UserPage s' u ↔ UserPage s u
  kernel : ∀ u, UserPage s u → kernel u → s'.entry u = s.entry u
  slots : ∀ i, present (s.directory i) = true → present (s'.directory i) = true

theorem Kept.refl (ok : TablesOk s) : Kept kernel s s :=
  ⟨ok, fun _ => .rfl, fun _ _ _ => rfl, fun _ there => there⟩

theorem Kept.trans {s'' : Paging} (first : Kept kernel s s') (second : Kept kernel s' s'') :
    Kept kernel s s'' := by
  constructor
  · exact second.tables
  · exact fun u => (second.user u).trans (first.user u)
  · intro u hu mine
    exact (second.kernel u ((first.user u).mpr hu) mine).trans (first.kernel u hu mine)
  · exact fun i there => second.slots i (first.slots i there)

theorem Stored.kept (stored : Stored s va value delta s') (notKernel : ¬ kernel va) : Kept kernel s s' := by
  refine ⟨stored.tables, stored.user, fun u hu mine => ?_, fun i there => (stored.slots i).mpr (.inl there)⟩
  rw [stored.entry u hu, if_neg]
  rintro rfl
  exact notKernel mine

theorem mem_missing {i : Nat} :
    i ∈ missing s l ↔ (∃ p ∈ l, pdeMbAddr p.1 = i) ∧ ¬ present (s.directory i) = true := by
  unfold missing
  rw [Finset.mem_filter, mem_toFinset, mem_map]

theorem Stored.missing_iff {i : Nat}
    (stored : Stored s va value delta s') : i ∈ missing s' l ↔ i ∈ missing s l ∧ i ≠ pdeMbAddr va := by
  rw [mem_missing, mem_missing, stored.slots, not_or, and_assoc]

theorem Stored.supplied (stored : Stored s va value delta s')
    (there : present (s.directory (pdeMbAddr va)) = true)
    (enough : Supplied s l) : Supplied s' l := by
  unfold Supplied
  rw [stored.pages, if_pos there]
  refine Nat.le_trans (Finset.card_le_card fun i hi => ?_) enough
  exact (stored.missing_iff.mp hi).1

/-- Entering the first page uses up at most its part of the supply. -/
theorem Stored.supplied_tail (stored : Stored s p.1 value delta s')
    (enough : Supplied s (p :: l)) : Supplied s' l := by
  have fewer : missing s' l ⊆ missing s (p :: l) := by
    intro i hi
    obtain ⟨⟨q, hq, slot⟩, absent⟩ := mem_missing.mp (stored.missing_iff.mp hi).1
    exact mem_missing.mpr ⟨⟨q, mem_cons_of_mem _ hq, slot⟩, absent⟩
  unfold Supplied at enough ⊢
  rw [stored.pages]
  split
  · exact Nat.le_trans (Finset.card_le_card fewer) enough
  · next absent =>
    have first : pdeMbAddr p.1 ∈ missing s (p :: l) := mem_missing.mpr ⟨⟨p, mem_cons_self, rfl⟩, absent⟩
    have rest : missing s' l ⊆ (missing s (p :: l)).erase (pdeMbAddr p.1) :=
      fun i hi => Finset.mem_erase.mpr ⟨(stored.missing_iff.mp hi).2, fewer hi⟩
    have count := Finset.card_le_card rest
    rw [Finset.card_erase_of_mem first] at count
    rw [length_tail]
    omega

theorem Supplied.head (enough : Supplied s (p :: l)) :
    present (s.directory (pdeMbAddr p.1)) = true ∨ s.pages ≠ [] := by
  by_cases there : present (s.directory (pdeMbAddr p.1)) = true
  · exact .inl there
  · right
    intro none
    have first : pdeMbAddr p.1 ∈ missing s (p :: l) := mem_missing.mpr ⟨⟨p, mem_cons_self, rfl⟩, there⟩
    have positive := Finset.card_pos.mpr ⟨_, first⟩
    unfold Supplied at enough
    rw [none] at enough
    exact Nat.not_le_of_lt positive enough

theorem hasSlot_of_entry {e : Nat} (mapped : s.entry va = some e) :
    present (s.directory (pdeMbAddr va)) = true := by
  by_contra absent
  rw [entry_of_absent absent] at mapped
  cases mapped

end

/-! ## Loops -/

section

variable {kernel : Nat → Prop}

theorem freemapFrom_pages {s : Paging} (ok : TablesOk s) {l rest : List (Nat × Nat)}
    (maps : Maps kernel s (l ++ rest)) (nodup : ((l ++ rest).map Prod.fst).Nodup)
    (user : ∀ p ∈ l, UserPage s p.1 ∧ ¬ kernel p.1) (low : ∀ p ∈ l, p.1 < 2 ^ 31) :
    ∃ s', freemapFrom (l.map Prod.fst) s = .ok (s', 0) ∧ Maps kernel s' rest ∧ Kept kernel s s' ∧
      (∀ l, Supplied s l → Supplied s' l) := by
  induction l generalizing s with
  | nil =>
    exact ⟨s, rfl, maps, .refl ok, fun _ enough => enough⟩
  | cons p l ih =>
    rw [cons_append] at maps nodup
    rw [map_cons, nodup_cons] at nodup
    rw [forall_mem_cons] at user low
    obtain ⟨⟨hp, notKernel⟩, user⟩ := user
    have mapped : s.entry p.1 = some p.2 := by
      rw [maps.entry p.1 hp notKernel]
      exact lookup_cons_self
    have page := freemapFrom_page ok hp mapped (l.map Prod.fst)
    simp only [maps.count_head] at page
    rw [if_neg (not_not.mpr low.1)] at page
    obtain ⟨s1, done, stored⟩ := page
    have kept := stored.kept notKernel
    obtain ⟨s', done', maps', kept', supplied⟩ := ih stored.tables (maps.remove nodup.1 low.1 stored) nodup.2
      (fun q hq => ⟨(kept.user q.1).mpr (user q hq).1, (user q hq).2⟩) low.2
    refine ⟨s', done.trans done', maps', kept.trans kept', fun l enough => supplied l ?_⟩
    exact stored.supplied (hasSlot_of_entry mapped) enough

theorem userMemMmap_pages {s : Space} (ok : TablesOk s.toPaging) {before l : List (Nat × Nat)}
    (maps : Maps kernel s.toPaging before) (nodup : ((before ++ l).map Prod.fst).Nodup)
    (user : ∀ p ∈ l, UserPage s.toPaging p.1 ∧ ¬ kernel p.1)
    (entries : ∀ p ∈ l, p.2 < 2 ^ 32 ∧ present p.2 = true ∧ p.2.testBit 7 = false)
    (low : ∀ p ∈ l, p.1 < 2 ^ 31) (enough : Supplied s.toPaging l) :
    ∃ s', userMemMmap l s = .ok { s with toPaging := s' } ∧ Maps kernel s' (before ++ l) ∧
      Kept kernel s.toPaging s' := by
  induction l generalizing s before with
  | nil =>
    exact ⟨s.toPaging, rfl, by rwa [append_nil], .refl ok⟩
  | cons p l ih =>
    rw [forall_mem_cons] at user entries low
    obtain ⟨⟨hp, notKernel⟩, user⟩ := user
    obtain ⟨⟨bound, there, small⟩, entries⟩ := entries
    have new : p.1 ∉ before.map Prod.fst := by
      rw [map_append, nodup_append] at nodup
      intro old
      exact nodup.2.2 p.1 old p.1 mem_cons_self rfl
    have absent : s.entry p.1 = none := by
      rw [maps.entry p.1 hp notKernel, lookup_cons_eq new, if_pos rfl]
    have bits : getbit12 p.2 < 2 ^ 12 := Nat.mod_lt _ (by decide)
    have flags : (getbit12 p.2).testBit 7 = false := by
      unfold getbit12
      rw [Nat.testBit_mod_two_pow, small, Bool.and_false]
    have page := mmap_page ok hp absent enough.head (pageAddr_addrToPte p.2) bits flags
    rw [word_of_entry bound there, if_pos low.1] at page
    obtain ⟨va, e⟩ := p
    obtain ⟨s1, done, stored⟩ := page
    have kept := stored.kept notKernel
    have nodup' : ((before ++ [(va, e)] ++ l).map Prod.fst).Nodup := by
      rw [append_assoc]
      exact nodup
    obtain ⟨s', done', maps', kept'⟩ := ih (s := { s with toPaging := s1 }) stored.tables
      (maps.add new low.1 stored) nodup' (fun q hq => ⟨(kept.user q.1).mpr (user q hq).1, (user q hq).2⟩)
      entries low.2 (stored.supplied_tail enough)
    rw [append_assoc] at maps'
    refine ⟨s', ?_, maps', kept.trans kept'⟩
    unfold userMemMmap Space.mmap
    simp only [done, ok_bind, pure_eq_ok]
    exact done'

/-- The loop of `user_mem_unmap` over the areas of a process. -/
theorem unmapAreas {s : Space} (ok : TablesOk s.toPaging) {areas : List Area}
    (good : ∀ a ∈ areas, AreaOk a) (maps : Maps kernel s.toPaging (areas.flatMap Area.pages))
    (nodup : ((areas.flatMap Area.pages).map Prod.fst).Nodup)
    (user : ∀ p ∈ areas.flatMap Area.pages, UserPage s.toPaging p.1 ∧ ¬ kernel p.1)
    (low : ∀ p ∈ areas.flatMap Area.pages, p.1 < 2 ^ 31) :
    ∃ s', areas.foldlM unmapArea s = .ok { s with toPaging := s' } ∧ Maps kernel s' [] ∧
      Kept kernel s.toPaging s' ∧ (∀ l, Supplied s.toPaging l → Supplied s' l) := by
  induction areas generalizing s with
  | nil =>
    exact ⟨s.toPaging, rfl, maps, .refl ok, fun _ enough => enough⟩
  | cons a areas ih =>
    rw [flatMap_cons] at maps nodup user low
    rw [forall_mem_cons] at good
    rw [forall_mem_append] at user low
    obtain ⟨s1, done, maps1, kept, supplied⟩ := freemapFrom_pages ok maps nodup user.1 low.1
    have nodup' : ((areas.flatMap Area.pages).map Prod.fst).Nodup := by
      rw [map_append, nodup_append] at nodup
      exact nodup.2.1
    obtain ⟨s', done', maps', kept', supplied'⟩ := ih (s := { s with toPaging := s1 }) kept.tables good.2 maps1
      nodup' (fun q hq => ⟨(kept.user q.1).mpr (user.2 q hq).1, (user.2 q hq).2⟩) low.2
    refine ⟨s', ?_, maps', kept.trans kept', fun l enough => supplied' l (supplied l enough)⟩
    rw [foldlM_cons, unmapArea, Space.freemap, good.1.freemap, done]
    exact done'

theorem userMemMmap_append (l l' : List (Nat × Nat)) (s : Space) :
    userMemMmap (l ++ l') s = userMemMmap l s >>= userMemMmap l' := by
  induction l generalizing s with
  | nil => rfl
  | cons p l ih => simp only [cons_append, userMemMmap, ih, bind_assoc]

/-- The loop of `user_mem_map` over the areas of a process. -/
theorem mapAreas (areas : List Area) (s : Space) :
    areas.foldlM (fun space area => userMemMmap area.pages space) s =
      userMemMmap (areas.flatMap Area.pages) s := by
  induction areas generalizing s with
  | nil => rfl
  | cons a areas ih => simp only [foldlM_cons, flatMap_cons, userMemMmap_append, ih]

end

/-! ## Switching -/

section

variable {kernel : Nat → Prop} {s : VmState} {t : Nat}

theorem VmOk.kept {p p' : Paging} {vm : Vmem} (ok : VmOk kernel p vm) (kept : Kept kernel p p') :
    VmOk kernel p' vm :=
  { ok with user := fun q hq => ⟨(kept.user q.1).mpr (ok.user q hq).1, (ok.user q hq).2⟩ }

theorem userMemUnmap_spec (tables : TablesOk s.toPaging) (ok : VmOk kernel s.toPaging (s.vms t))
    (maps : Maps kernel s.toPaging (pagesOf (s.vms t))) (low : Low (s.vms t)) :
    ∃ p, userMemUnmap s t = .ok { s with toPaging := p } ∧ Maps kernel p [] ∧
      Kept kernel s.toPaging p ∧ ∀ l, Supplied s.toPaging l → Supplied p l := by
  obtain ⟨p, done, rest⟩ := unmapAreas tables ok.area maps ok.nodup ok.user low
  refine ⟨p, ?_, rest⟩
  unfold userMemUnmap
  rw [done]
  rfl

theorem userMemMap_spec (tables : TablesOk s.toPaging) (ok : VmOk kernel s.toPaging (s.vms t))
    (mapped : (s.vms t).size ≠ 0) (maps : Maps kernel s.toPaging [])
    (enough : Supplied s.toPaging (pagesOf (s.vms t))) (low : Low (s.vms t)) :
    ∃ p, userMemMap s t = .ok { s with toPaging := p } ∧
      Maps kernel p (pagesOf (s.vms t)) ∧ Kept kernel s.toPaging p := by
  have entries : ∀ p ∈ pagesOf (s.vms t), p.2 < 2 ^ 32 ∧ present p.2 = true ∧ p.2.testBit 7 = false := by
    intro p hp
    obtain ⟨a, ha, mem⟩ := mem_flatMap.mp hp
    exact (ok.area a ha).entry p mem
  obtain ⟨p, done, rest⟩ := userMemMmap_pages tables maps ok.nodup ok.user entries low enough
  refine ⟨p, ?_, rest⟩
  unfold userMemMap
  rw [if_neg mapped, mapAreas]
  exact congrArg (· >>= _) done

theorem umap_low {a b : Nat} (ha : a ≠ s.init) (hb : b ≠ s.init) (size : (s.vms b).size ≠ 0)
    (tables : TablesOk s.toPaging) (okA : VmOk kernel s.toPaging (s.vms a))
    (okB : VmOk kernel s.toPaging (s.vms b)) (maps : Maps kernel s.toPaging (pagesOf (s.vms a)))
    (enough : Supplied s.toPaging (pagesOf (s.vms b))) (lowA : Low (s.vms a)) (lowB : Low (s.vms b)) :
    ∃ p, umap s a b = .ok { s with toPaging := p } ∧ Maps kernel p (pagesOf (s.vms b)) ∧
      Kept kernel s.toPaging p := by
  obtain ⟨p, unmapped, none, kept, supplied⟩ := userMemUnmap_spec tables okA maps lowA
  obtain ⟨p', mapped, maps', kept'⟩ := userMemMap_spec (s := { s with toPaging := p }) kept.tables
    (okB.kept kept) size none (supplied _ enough) lowB
  refine ⟨p', ?_, maps', kept.trans kept'⟩
  unfold umap
  rw [if_pos ha, unmapped, ok_bind]
  exact (if_pos hb).trans mapped

theorem Maps.supplied {p p' : Paging} {vm : Vmem} (maps : Maps kernel p (pagesOf vm)) (ok : VmOk kernel p vm)
    (kept : Kept kernel p p') : Supplied p' (pagesOf vm) := by
  have none : missing p' (pagesOf vm) = ∅ := by
    rw [Finset.eq_empty_iff_forall_notMem]
    intro i hi
    obtain ⟨⟨q, hq, rfl⟩, absent⟩ := mem_missing.mp hi
    obtain ⟨user, notKernel⟩ := ok.user q hq
    cases mapped : p.entry q.1 with
    | some e => exact absent (kept.slots _ (hasSlot_of_entry mapped))
    | none =>
      rw [maps.entry q.1 user notKernel, lookup_eq_none_iff] at mapped
      exact absurd rfl (bne_iff_ne.mp (mapped q hq))
  unfold Supplied
  rw [none]
  exact Nat.zero_le _

end

/-- A switch from one process to another maps exactly the pages of the other, and the switch back restores every
    entry. -/
theorem umap_switches {kernel : Nat → Prop} {s : VmState} {a b : Nat} (ha : a ≠ s.init) (hb : b ≠ s.init)
    (sizeA : (s.vms a).size ≠ 0) (sizeB : (s.vms b).size ≠ 0) (lowA : Low (s.vms a)) (lowB : Low (s.vms b))
    (tables : TablesOk s.toPaging) (okA : VmOk kernel s.toPaging (s.vms a))
    (okB : VmOk kernel s.toPaging (s.vms b)) (maps : Maps kernel s.toPaging (pagesOf (s.vms a)))
    (enough : Supplied s.toPaging (pagesOf (s.vms b))) :
    ∃ s1 s2, umap s a b = .ok s1 ∧ Maps kernel s1.toPaging (pagesOf (s.vms b)) ∧
      umap s1 b a = .ok s2 ∧ Maps kernel s2.toPaging (pagesOf (s.vms a)) ∧
      ∀ u, UserPage s.toPaging u → s2.entry u = s.entry u := by
  obtain ⟨p, there, mapsB, kept⟩ := umap_low ha hb sizeB tables okA okB maps enough lowA lowB
  obtain ⟨p', back, mapsA, kept'⟩ := umap_low (s := { s with toPaging := p }) hb ha sizeA kept.tables
    (okB.kept kept) (okA.kept kept) mapsB (maps.supplied okA kept) lowB lowA
  refine ⟨_, _, there, mapsB, back, mapsA, fun u hu => ?_⟩
  have hu' : UserPage p' u := ((kept.trans kept').user u).mpr hu
  by_cases mine : kernel u
  · exact (kept.trans kept').kernel u hu mine
  · exact (mapsA.entry u hu' mine).trans (maps.entry u hu mine).symm

/-! ## Boot -/

theorem pageInit_tables {pageTable vidmapTable : Nat} {pages : List Nat}
    (apart : (pageTable :: vidmapTable :: pages).Nodup)
    (page : ∀ t ∈ pageTable :: vidmapTable :: pages, PageAddr t) :
    TablesOk (pageInit pageTable vidmapTable pages) := by
  rw [forall_mem_cons, forall_mem_cons] at page
  obtain ⟨pageP, pageV, page⟩ := page
  rw [nodup_cons, nodup_cons, mem_cons, not_or] at apart
  obtain ⟨⟨differ, freshP⟩, freshV, nodup⟩ := apart
  -- slots 1 .. 15 are 4 MB pages
  have slots : ∀ i, HasTable (pageInit pageTable vidmapTable pages) i →
      i = 0 ∧ addrToPte ((pageInit pageTable vidmapTable pages).directory i) = pageTable ∨
      i = 33 ∧ addrToPte ((pageInit pageTable vidmapTable pages).directory i) = vidmapTable := by
    intro i table
    obtain ⟨there, small⟩ := table
    by_cases first : i = 0
    · left
      refine ⟨first, ?_⟩
      rw [first]
      change addrToPte (ptePresent ||| pteRw ||| addrToPte pageTable) = pageTable
      rw [addrToPte_of_page pageP, addrToPte_word (by decide) pageP]
    · by_cases vidmap : i = 33
      · right
        refine ⟨vidmap, ?_⟩
        rw [vidmap]
        change addrToPte (ptePresent ||| (pteRw ||| pteUs) ||| addrToPte vidmapTable) = vidmapTable
        rw [addrToPte_of_page pageV, addrToPte_word (by decide) pageV]
      · unfold pageInit at there small
        simp only [if_neg first, if_neg vidmap] at there small
        split at there
        · next large =>
          rw [if_pos large] at small
          simp only [Nat.testBit_or, Bool.or_eq_false_iff] at small
          exact absurd small.1.1.2 (by decide)
        · cases there
  constructor
  · intro i _ j _ tableI tableJ other
    rcases slots i tableI with ⟨rfl, first⟩ | ⟨rfl, first⟩
    · rcases slots j tableJ with ⟨rfl, second⟩ | ⟨rfl, second⟩
      · exact absurd rfl other
      · rw [first, second]
        exact differ
    · rcases slots j tableJ with ⟨rfl, second⟩ | ⟨rfl, second⟩
      · rw [first, second]
        exact Ne.symm differ
      · exact absurd rfl other
  · intro i _ table
    rcases slots i table with ⟨-, same⟩ | ⟨-, same⟩
    · rw [same]
      exact freshP
    · rw [same]
      exact freshV
  · exact nodup
  · exact page

/-! ## Processes with one page each -/

/-- A process with one page. -/
def onePage (va frame : Nat) : Vmem := ⟨[⟨fun _ => frame + 7, va, va + pageSize, 6⟩], 1, 1, 0, 0⟩

/-- Page tables that map one page. -/
def oneTable (va e : Nat) : Paging :=
  { directory := fun i => if i = pdeMbAddr va then 0x1007 else 0
    table := fun t j => if t = 0x1000 ∧ j = pteIndex va then e else 0
    count := fun i => if i = pdeMbAddr va then 1 else 0
    pages := [0x2000] }

/-- Process 1 is mapped. -/
def twoVms : VmState :=
  { toPaging := oneTable 0x8048000 0x4000007
    frames := []
    mem := fun _ _ => 0
    blocks := []
    vms := fun t =>
      if t = 1 then onePage 0x8048000 0x4000000 else onePage 0x8049000 0x4001000
    init := 0 }

theorem onePage_pages (va frame : Nat) : pagesOf (onePage va frame) = [(va, frame + 7)] := by
  unfold pagesOf onePage Area.pages pageRange pageSize
  simp

section

variable {va e : Nat}

theorem oneTable_user {u : Nat} (page : PageAddr u) : UserPage (oneTable va e) u := by
  refine ⟨page, fun large => ?_⟩
  obtain ⟨there, big⟩ := large
  change (if pdeMbAddr u = pdeMbAddr va then 0x1007 else 0 : Nat).testBit 7 = true at big
  split at big
  · cases big
  · cases big

theorem onePage_ok {u frame : Nat} (page : PageAddr u) (stop : u + pageSize < 2 ^ 32)
    (entry : frame + 7 < 2 ^ 32 ∧ present (frame + 7) = true ∧ (frame + 7).testBit 7 = false) :
    VmOk (fun _ => False) (oneTable va e) (onePage u frame) := by
  constructor
  · intro a ha
    rw [mem_singleton.mp ha]
    constructor
    · exact page
    · refine ⟨?_, stop⟩
      have aligned := page.1
      change (u + 4096) % 2 ^ 12 = 0
      omega
    · exact Nat.le_add_right u pageSize
    · intro p hp
      have mem : p ∈ pagesOf (onePage u frame) := mem_flatMap.mpr ⟨_, ha, mem_singleton.mp ha ▸ hp⟩
      rw [onePage_pages, mem_singleton] at mem
      rw [mem]
      exact entry
  · exact pairwise_singleton _ _
  · intro p hp
    rw [onePage_pages, mem_singleton] at hp
    rw [hp]
    exact ⟨oneTable_user page, fun mine => mine⟩

theorem oneTable_slot {i : Nat} (table : HasTable (oneTable va e) i) : i = pdeMbAddr va := by
  by_contra other
  have there := table.1
  change present (if i = pdeMbAddr va then 0x1007 else 0) = true at there
  rw [if_neg other] at there
  cases there

theorem oneTable_tables : TablesOk (oneTable va e) := by
  constructor
  · intro i _ j _ tableI tableJ differ
    exact absurd ((oneTable_slot tableI).trans (oneTable_slot tableJ).symm) differ
  · intro i _ table
    rw [oneTable_slot table]
    change addrToPte (if pdeMbAddr va = pdeMbAddr va then 0x1007 else 0) ∉ [0x2000]
    rw [if_pos rfl]
    decide
  · exact nodup_singleton _
  · intro t ht
    rw [mem_singleton.mp ht]
    exact ⟨rfl, by decide⟩

/-- Whatever is mapped has the one entry. -/
theorem oneTable_entry {u e' : Nat} (mapped : (oneTable va e).entry u = some e') : e' = e := by
  unfold Paging.entry at mapped
  split at mapped
  · next there =>
    have word : (oneTable va e).pte ((oneTable va e).ptePtr u) = e' := Option.some.inj mapped
    have found := there.2.2
    rw [word] at found
    change (if _ ∧ _ then e else 0) = e' at word
    split at word
    · exact word.symm
    · rw [← word] at found
      cases found
  · cases mapped

theorem oneTable_maps (page : PageAddr va) (low : va < 2 ^ 31) (there : present e = true) :
    Maps (fun _ => False) (oneTable va e) [(va, e)] := by
  have found : (oneTable va e).directory (pdeMbAddr va) = 0x1007 := if_pos rfl
  constructor
  · intro u hu _
    by_cases slot : pdeMbAddr u = pdeMbAddr va
    · have table : HasTable (oneTable va e) (pdeMbAddr u) := by
        unfold HasTable
        rw [slot, found]
        exact ⟨rfl, rfl⟩
      have address : addrToPte ((oneTable va e).directory (pdeMbAddr u)) = 0x1000 := by
        rw [slot, found]
        rfl
      have value : (oneTable va e).pte ((oneTable va e).ptePtr u) = if pteIndex u = pteIndex va then e else 0 := by
        change (if addrToPte ((oneTable va e).directory (pdeMbAddr u)) = 0x1000 ∧ pteIndex u = pteIndex va then e
          else 0) = _
        rw [address]
        simp
      rw [entry_of_hasTable table, value, lookup_cons]
      by_cases same : u = va
      · rw [same, if_pos rfl, if_pos there, beq_self_eq_true]
      · have index : pteIndex u ≠ pteIndex va := fun index => same (eq_of_slot hu.1 page slot index)
        rw [if_neg index, beq_false_of_ne same]
        rfl
    · have other : u ≠ va := fun same => slot (congrArg pdeMbAddr same)
      rw [lookup_cons, beq_false_of_ne other]
      apply entry_of_absent
      change ¬ present (if pdeMbAddr u = pdeMbAddr va then 0x1007 else 0) = true
      rw [if_neg slot]
      decide
  · intro i
    change (if i = pdeMbAddr va then 1 else 0 : Int) = _
    by_cases slot : i = pdeMbAddr va
    · rw [if_pos slot, if_pos (slot ▸ high_slot.mpr low)]
      simp [slot]
    · simp [slot, Ne.symm slot]

theorem oneTable_supplied {u frame : Nat} : Supplied (oneTable va e) (pagesOf (onePage u frame)) := by
  rw [onePage_pages]
  refine Nat.le_trans (Finset.card_filter_le _ _) ?_
  exact Nat.le_refl 1

end

/-- From process 1 to process 2 and back. -/
theorem umap_switches_pair :
    ∃ s1 s2, umap twoVms 1 2 = .ok s1 ∧ Maps (fun _ => False) s1.toPaging [(0x8049000, 0x4001007)] ∧
      umap s1 2 1 = .ok s2 ∧ Maps (fun _ => False) s2.toPaging [(0x8048000, 0x4000007)] ∧
      ∀ u, UserPage twoVms.toPaging u → s2.entry u = twoVms.entry u := by
  have low : Low (twoVms.vms 1) ∧ Low (twoVms.vms 2) := by
    unfold Low
    decide
  exact umap_switches (s := twoVms) (a := 1) (b := 2) (by decide) (by decide) (by decide) (by decide) low.1 low.2
    oneTable_tables (onePage_ok (by decide) (by decide) (by decide))
    (onePage_ok (by decide) (by decide) (by decide)) (oneTable_maps (by decide) (by decide) (by decide))
    oneTable_supplied

end Illinix.Verified.Vm
