import Illinix.Verified.Vm.Switch

/-! # Copying the memory of a process

`vmcopy` copies page by page: it saves a page to a temporary page, puts a new frame in its place
and copies the bytes back.  The temporary page is at a fixed user address, so that the copy is
right exactly if the process has no page there. -/

namespace Illinix.Verified.Vm

open Kernel Lib Function List

/-! ## Order of the pages -/

section

variable {kernel : Nat → Prop} {l l' : List (Nat × Nat)}

theorem lookup_eq_some {u e : Nat} (nodup : (l.map Prod.fst).Nodup) :
    l.lookup u = some e ↔ (u, e) ∈ l := by
  induction l with
  | nil => simp
  | cons p l ih =>
    obtain ⟨va, e'⟩ := p
    rw [map_cons, nodup_cons] at nodup
    rw [mem_cons, lookup_cons]
    by_cases same : u = va
    · rw [same, beq_self_eq_true]
      constructor
      · intro found
        cases found
        exact .inl rfl
      · rintro (found | later)
        · cases found
          rfl
        · exact absurd (mem_map_of_mem (f := Prod.fst) later) nodup.1
    · rw [beq_false_of_ne same]
      refine (ih nodup.2).trans ⟨.inr, fun either => either.resolve_left ?_⟩
      intro first
      cases first
      exact same rfl

/-- The order in which the pages are listed does not matter. -/
theorem Maps.perm {s : Paging} (maps : Maps kernel s l) (nodup : (l.map Prod.fst).Nodup)
    (perm : l.Perm l') : Maps kernel s l' := by
  have nodup' : (l'.map Prod.fst).Nodup := (perm.map Prod.fst).nodup_iff.mp nodup
  constructor
  · intro u hu notKernel
    rw [maps.entry u hu notKernel]
    apply Option.ext
    intro e
    rw [lookup_eq_some nodup, lookup_eq_some nodup', perm.mem_iff]
  · intro i
    rw [maps.counted, perm.countP_eq]

end

/-! ## One page -/

/-- The entry of the copy of a page in the frame `f`. -/
def copyEntry (e f : Nat) : Nat := ptePresent ||| getbit12 e ||| f

/-- A page table entry of a process. -/
def EntryOk (e : Nat) : Prop := e < 2 ^ 32 ∧ present e = true ∧ e.testBit 7 = false

/-- A frame that `get_user_page` returns. -/
def FrameOk (f : Nat) : Prop := PageAddr f ∧ f ≠ 0

instance (f : Nat) : Decidable (FrameOk f) := inferInstanceAs (Decidable (_ ∧ _))

section

variable {e f : Nat}

theorem getbit12_lt (e : Nat) : getbit12 e < 2 ^ 12 := Nat.mod_lt _ (by decide)

theorem EntryOk.flags (ok : EntryOk e) : (getbit12 e).testBit 7 = false := by
  unfold getbit12
  rw [Nat.testBit_mod_two_pow, ok.2.2, Bool.and_false]

theorem EntryOk.present_flags (ok : EntryOk e) : ptePresent ||| getbit12 e = getbit12 e := by
  have word := getbit12_word (getbit12_lt e) (pageAddr_addrToPte e)
  rw [word_of_entry ok.1 ok.2.1] at word
  exact word.symm

theorem addrToPte_copyEntry (e : Nat) (hf : PageAddr f) : addrToPte (copyEntry e f) = f :=
  addrToPte_word (getbit12_lt e) hf

theorem copyEntry_ok (ok : EntryOk e) (hf : PageAddr f) : EntryOk (copyEntry e f) := by
  refine ⟨?_, present_word _ _, (testBit_word hf).trans ok.flags⟩
  have word := word_eq (getbit12_lt e) hf
  have low : ptePresent ||| getbit12 e < 2 ^ 12 := Nat.or_lt_two_pow (by decide) (getbit12_lt e)
  obtain ⟨aligned, bound⟩ := hf
  unfold copyEntry
  omega

end

section

variable {kernel : Nat → Prop} {s : Space} {p : Nat × Nat} {rest : List (Nat × Nat)}

theorem freemap_one {q : Paging} {va : Nat} (top : va + pageSize < 2 ^ 32) :
    freemap q va pageSize = freemapFrom [va] q := by
  have range : pageRange va ((va + pageSize) % 2 ^ 32) = [va] := by
    rw [Nat.mod_eq_of_lt top]
    unfold pageRange pageSize
    simp
  unfold freemap
  rw [range]

theorem Space.memcpy_mapped {dest src d e : Nat} (hd : s.entry dest = some d) (he : s.entry src = some e) :
    s.memcpy dest src = .ok { s with mem := update s.mem (addrToPte d) (s.mem (addrToPte e)) } := by
  unfold Space.memcpy
  rw [hd, he]
  rfl

/-- What one round of the loop does to the memory, with `cf` the frame at the temporary address:
    the bytes go through `cf` to the new frame, unless the page is the temporary one itself. -/
def copyMem (mem : Nat → Nat → UInt8) (cf : Nat) (p : Nat × Nat) (f : Nat) : Nat → Nat → UInt8 :=
  if p.1 = cacheAddr then
    mem
  else
    Function.update (Function.update mem cf (mem (addrToPte p.2))) f (mem (addrToPte p.2))

/-- The second copy reads from the temporary frame what the first one wrote there. -/
theorem copyMem_eq (mem : Nat → Nat → UInt8) {ce f : Nat} (own : p.1 = cacheAddr → ce = p.2)
    (hf : PageAddr f) :
    update (update mem (addrToPte ce) (mem (addrToPte p.2))) (addrToPte (copyEntry p.2 f))
      (update mem (addrToPte ce) (mem (addrToPte p.2))
        (addrToPte (if p.1 = cacheAddr then copyEntry p.2 f else ce))) =
      copyMem mem (addrToPte ce) p f := by
  unfold copyMem
  by_cases same : p.1 = cacheAddr
  · -- both copies are from a page to itself
    rw [if_pos same, if_pos same, own same, update_eq_self, update_eq_self]
  · rw [if_neg same, if_neg same, update_self, addrToPte_copyEntry _ hf]

/-- `freemap` and `mmap` of one page give it the frame `f`. -/
theorem remap_page {q : Paging} (ok : TablesOk q) (maps : Maps kernel q (p :: rest))
    (nodup : ((p :: rest).map Prod.fst).Nodup) (user : UserPage q p.1 ∧ ¬ kernel p.1)
    (entry : EntryOk p.2) (low : p.1 < 2 ^ 31) {f : Nat} (hf : PageAddr f) :
    ∃ q1 q2, freemapFrom [p.1] q = .ok (q1, 0) ∧ mmap q1 p.1 f pageSize (getbit12 p.2) = .ok (q2, 0) ∧
      Maps kernel q2 ((p.1, copyEntry p.2 f) :: rest) ∧ Kept kernel q q2 ∧
      ∀ u, UserPage q u → q2.entry u = if u = p.1 then some (copyEntry p.2 f) else q.entry u := by
  rw [map_cons, nodup_cons] at nodup
  have mapped : q.entry p.1 = some p.2 := by
    rw [maps.entry p.1 user.1 user.2]
    exact lookup_cons_self
  have page := freemapFrom_page ok user.1 mapped []
  rw [if_neg fun zero => maps.count_head.mp zero low] at page
  obtain ⟨q1, freed, stored1⟩ := page
  have absent : q1.entry p.1 = none := by
    rw [stored1.entry p.1 user.1, if_pos rfl]
  have there : present (q1.directory (pdeMbAddr p.1)) = true := (stored1.slots _).mpr (.inr rfl)
  have entered := mmap_page stored1.tables ((stored1.user p.1).mpr user.1) absent (.inl there) hf
    (getbit12_lt p.2) entry.flags
  rw [if_pos low] at entered
  obtain ⟨q2, entered, stored2⟩ := entered
  refine ⟨q1, q2, freed, entered, ?_, (stored1.kept user.2).trans (stored2.kept user.2), fun u hu => ?_⟩
  · have added := (maps.remove nodup.1 low stored1).add (p := (p.1, copyEntry p.2 f)) nodup.1 low stored2
    refine added.perm ?_ (perm_append_singleton _ _)
    rw [((perm_append_singleton _ _).map Prod.fst).nodup_iff]
    exact nodup_cons.mpr nodup
  · rw [stored2.entry u ((stored1.user u).mpr hu)]
    by_cases same : u = p.1
    · rw [if_pos same, if_pos same]
      rfl
    · rw [if_neg same, if_neg same, stored1.entry u hu, if_neg same]

theorem vmcopyPage_spec (ok : TablesOk s.toPaging) (maps : Maps kernel s.toPaging (p :: rest))
    (nodup : ((p :: rest).map Prod.fst).Nodup) (user : UserPage s.toPaging p.1 ∧ ¬ kernel p.1)
    (entry : EntryOk p.2) (top : p.1 + pageSize < 2 ^ 32)
    (userCache : UserPage s.toPaging cacheAddr ∧ ¬ kernel cacheAddr) {ce : Nat}
    (cached : (p :: rest).lookup cacheAddr = some ce) {f : Nat} {fs : List Nat}
    (frames : s.frames = f :: fs) (hf : FrameOk f) :
    (¬ p.1 < 2 ^ 31 → vmcopyPage s p.1 p.2 = .error .tableFreed) ∧
    (p.1 < 2 ^ 31 → ∃ q, vmcopyPage s p.1 p.2 =
        .ok ({ s with toPaging := q, frames := fs, mem := copyMem s.mem (addrToPte ce) p f },
          copyEntry p.2 f) ∧
      Maps kernel q ((p.1, copyEntry p.2 f) :: rest) ∧ Kept kernel s.toPaging q) := by
  have mapped : s.entry p.1 = some p.2 := by
    rw [maps.entry p.1 user.1 user.2]
    exact lookup_cons_self
  have mappedCache : s.entry cacheAddr = some ce := (maps.entry _ userCache.1 userCache.2).trans cached
  obtain ⟨table, walked, found⟩ := walk_of_entry user.1 mapped
  have got : s.getUserPage = (f, { s with frames := fs }) := by
    unfold Space.getUserPage
    rw [frames]
  have copied := Space.memcpy_mapped (s := { s with frames := fs }) mappedCache mapped
  unfold vmcopyPage
  simp only [walked, if_pos found, got, if_neg hf.2, copied, ok_bind, Space.freemap, freemap_one top]
  constructor
  · intro high
    have page := freemapFrom_page ok user.1 mapped []
    rw [if_pos (maps.count_head.mpr high)] at page
    simp only [page, error_bind]
  · intro low
    obtain ⟨q1, q2, freed, entered, maps2, kept, entries⟩ := remap_page ok maps nodup user entry low hf.1
    refine ⟨q2, ?_, maps2, kept⟩
    have new : q2.entry p.1 = some (copyEntry p.2 f) := by
      rw [entries p.1 user.1, if_pos rfl]
    have newCache : q2.entry cacheAddr = some (if p.1 = cacheAddr then copyEntry p.2 f else ce) := by
      rw [entries cacheAddr userCache.1]
      by_cases same : p.1 = cacheAddr
      · rw [if_pos same, if_pos same.symm]
      · rw [if_neg same, if_neg (Ne.symm same)]
        exact mappedCache
    have back := Space.memcpy_mapped (s := { s with
        toPaging := q2, frames := fs
        mem := update s.mem (addrToPte ce) (s.mem (addrToPte p.2)) }) new newCache
    have bytes := copyMem_eq s.mem (fun same => Option.some.inj (mappedCache.symm.trans (same ▸ mapped))) hf.1
    have fine : ¬ (0 : Int) = -1 := by decide
    simp only [freed, ok_bind, pure_eq_ok, Space.mmap, entered, if_neg fine, back, bytes,
      addrToPte_of_page hf.1]
    rfl

end

/-! ## The loops -/

/-- The pages of the copy, with the frames `fs`. -/
def copies (l : List (Nat × Nat)) (fs : List Nat) : List (Nat × Nat) :=
  l.zipWith (fun p f => (p.1, copyEntry p.2 f)) fs

/-- The frames `fs` hold what the frames of `l` held, and apart from the temporary frame `cf`
    nothing else has changed. -/
structure Copied (mem : Nat → Nat → UInt8) (cf : Nat) (l : List (Nat × Nat)) (fs : List Nat)
    (mem' : Nat → Nat → UInt8) : Prop where
  bytes : ∀ c ∈ l.zip fs, mem' c.2 = mem (addrToPte c.1.2)
  other : ∀ g ≠ cf, g ∉ fs → mem' g = mem g

/-- A page of a process. -/
structure PageOk (kernel : Nat → Prop) (s : Paging) (p : Nat × Nat) : Prop where
  user : UserPage s p.1
  notKernel : ¬ kernel p.1
  entry : EntryOk p.2
  top : p.1 + pageSize < 2 ^ 32

/-- The pages `l` are yet to be copied; `rest` are the other pages that are mapped. -/
structure Copying (kernel : Nat → Prop) (s : Paging) (l rest : List (Nat × Nat)) : Prop where
  tables : TablesOk s
  maps : Maps kernel s (l ++ rest)
  nodup : ((l ++ rest).map Prod.fst).Nodup
  page : ∀ p ∈ l, PageOk kernel s p
  cache : UserPage s cacheAddr ∧ ¬ kernel cacheAddr

/-- The frames of the copies are `fs`, and the temporary page is mapped by `ce`. -/
structure CopyReady (kernel : Nat → Prop) (s : Paging) (ce : Nat) (l rest : List (Nat × Nat))
    (fs : List Nat) : Prop extends Copying kernel s l rest where
  cached : (cacheAddr, ce) ∈ rest
  frame : ∀ f ∈ fs, FrameOk f
  fresh : (addrToPte ce :: fs).Nodup
  apart : ∀ p ∈ l, addrToPte p.2 ∉ addrToPte ce :: fs
  count : fs.length = l.length

section

variable {kernel : Nat → Prop} {ce : Nat} {fs fs' : List Nat} {l l' rest : List (Nat × Nat)} {s : Paging}

theorem copies_fst (count : fs.length = l.length) : (copies l fs).map Prod.fst = l.map Prod.fst := by
  unfold copies
  rw [map_zipWith]
  induction l generalizing fs with
  | nil => rfl
  | cons p l ih =>
    cases fs with
    | nil => cases count
    | cons f fs => rw [zipWith_cons_cons, map_cons, ih (Nat.succ.inj count)]

theorem CopyReady.lookup (ready : CopyReady kernel s ce l rest fs) : (l ++ rest).lookup cacheAddr = some ce :=
  (lookup_eq_some ready.nodup).mpr (mem_append_right _ ready.cached)

theorem CopyReady.ne_cache (ready : CopyReady kernel s ce l rest fs) {p : Nat × Nat}
    (hp : p ∈ l) : p.1 ≠ cacheAddr := by
  have nodup := ready.nodup
  rw [map_append, nodup_append] at nodup
  exact nodup.2.2 p.1 (mem_map_of_mem hp) cacheAddr (mem_map_of_mem (f := Prod.fst) ready.cached)

theorem Copying.next {q : Paging} {todo : List (Nat × Nat)}
    (copying : Copying kernel s (l ++ todo) rest) (same : l'.map Prod.fst = l.map Prod.fst)
    (maps : Maps kernel q (l' ++ (todo ++ rest))) (kept : Kept kernel s q) :
    Copying kernel q todo (l' ++ rest) := by
  have perm : (l' ++ (todo ++ rest)).Perm (todo ++ (l' ++ rest)) := perm_append_comm_assoc ..
  have nodup : ((l' ++ (todo ++ rest)).map Prod.fst).Nodup := by
    have before := copying.nodup
    rw [append_assoc, map_append] at before
    rw [map_append, same]
    exact before
  constructor
  · exact kept.tables
  · exact maps.perm nodup perm
  · exact (perm.map Prod.fst).nodup_iff.mp nodup
  · intro p hp
    have page := copying.page p (mem_append_right _ hp)
    exact { page with user := (kept.user p.1).mpr page.user }
  · exact ⟨(kept.user _).mpr copying.cache.1, copying.cache.2⟩

theorem copies_append (count : fs.length = l.length) :
    copies (l ++ l') (fs ++ fs') = copies l fs ++ copies l' fs' :=
  zipWith_append count.symm

theorem copied_page (mem : Nat → Nat → UInt8) {cf f : Nat} {p : Nat × Nat} (notCache : p.1 ≠ cacheAddr) :
    Copied mem cf [p] [f] (copyMem mem cf p f) := by
  unfold copyMem
  rw [if_neg notCache]
  constructor
  · intro c hc
    rw [mem_singleton.mp hc, update_self]
  · intro g notTemp old
    rw [update_of_ne fun same => old (mem_singleton.mpr same), update_of_ne notTemp]

theorem Copied.append {mem mem1 mem2 : Nat → Nat → UInt8} {cf : Nat} (count : fs.length = l.length)
    (fresh : (cf :: (fs ++ fs')).Nodup)
    (apart : ∀ p ∈ l', addrToPte p.2 ∉ cf :: fs) (first : Copied mem cf l fs mem1)
    (second : Copied mem1 cf l' fs' mem2) : Copied mem cf (l ++ l') (fs ++ fs') mem2 := by
  rw [nodup_cons, mem_append, not_or, nodup_append] at fresh
  obtain ⟨⟨notFirst, notSecond⟩, -, -, differ⟩ := fresh
  constructor
  · intro c hc
    rw [zip_append count.symm, mem_append] at hc
    cases hc with
    | inl before =>
      have mine := (of_mem_zip before).2
      have notTemp : c.2 ≠ cf := fun same => notFirst (same ▸ mine)
      have notLater : c.2 ∉ fs' := fun later => differ _ mine _ later rfl
      rw [second.other c.2 notTemp notLater, first.bytes c before]
    | inr after =>
      have old := apart c.1 (of_mem_zip after).1
      rw [mem_cons, not_or] at old
      rw [second.bytes c after, first.other _ old.1 old.2]
  · intro g notTemp old
    rw [mem_append, not_or] at old
    rw [second.other g notTemp old.2, first.other g notTemp old.1]

section

variable {s q : Paging} {l l' rest : List (Nat × Nat)} {fs fs' : List Nat}

section

variable (ready : CopyReady kernel s ce (l ++ l') rest (fs ++ fs')) (count : fs.length = l.length)

include ready count

theorem CopyReady.left : CopyReady kernel s ce l (l' ++ rest) fs := by
  have sub : (addrToPte ce :: fs).Sublist (addrToPte ce :: (fs ++ fs')) :=
    (sublist_append_left fs fs').cons_cons _
  constructor
  · constructor
    · exact ready.tables
    · rw [← append_assoc]
      exact ready.maps
    · rw [← append_assoc]
      exact ready.nodup
    · exact fun p hp => ready.page p (mem_append_left _ hp)
    · exact ready.cache
  · exact mem_append_right _ ready.cached
  · exact fun f hf => ready.frame f (mem_append_left _ hf)
  · exact ready.fresh.sublist sub
  · exact fun p hp old => ready.apart p (mem_append_left _ hp) (sub.subset old)
  · exact count

theorem CopyReady.right (maps : Maps kernel q (copies l fs ++ (l' ++ rest)))
    (kept : Kept kernel s q) : CopyReady kernel q ce l' (copies l fs ++ rest) fs' := by
  have sub : (addrToPte ce :: fs').Sublist (addrToPte ce :: (fs ++ fs')) :=
    (sublist_append_right fs fs').cons_cons _
  constructor
  · exact ready.toCopying.next (copies_fst count) maps kept
  · exact mem_append_right _ ready.cached
  · exact fun f hf => ready.frame f (mem_append_right _ hf)
  · exact ready.fresh.sublist sub
  · exact fun p hp old => ready.apart p (mem_append_right _ hp) (sub.subset old)
  · have both := ready.count
    rw [length_append, length_append] at both
    omega

end

end

/-- The pages `l` have been copied to the frames `fs`; the tables are `q` and the memory `mem'`. -/
structure CopyDone (kernel : Nat → Prop) (ce : Nat) (l rest : List (Nat × Nat)) (fs : List Nat) (s : Paging)
    (mem : Nat → Nat → UInt8) (q : Paging) (mem' : Nat → Nat → UInt8) : Prop where
  maps : Maps kernel q (copies l fs ++ rest)
  kept : Kept kernel s q
  copied : Copied mem (addrToPte ce) l fs mem'

section

variable {s q q' : Paging} {mem mem1 mem2 : Nat → Nat → UInt8} {l l' rest : List (Nat × Nat)}
  {fs fs' : List Nat}

theorem CopyReady.done (ready : CopyReady kernel s ce [] rest fs) :
    fs = [] ∧ CopyDone kernel ce [] rest fs s mem s mem := by
  refine ⟨eq_nil_of_length_eq_zero ready.count, ready.maps, .refl ready.tables, ?_⟩
  exact ⟨fun c hc => absurd hc not_mem_nil, fun _ _ _ => rfl⟩

theorem CopyDone.append (first : CopyDone kernel ce l (l' ++ rest) fs s mem q mem1)
    (ready : CopyReady kernel s ce (l ++ l') rest (fs ++ fs')) (count : fs.length = l.length)
    (second : CopyDone kernel ce l' (copies l fs ++ rest) fs' q mem1 q' mem2) :
    CopyDone kernel ce (l ++ l') rest (fs ++ fs') s mem q' mem2 := by
  have right := ready.right count first.maps first.kept
  constructor
  · rw [copies_append count, append_assoc]
    refine second.maps.perm ?_ (perm_append_comm_assoc ..)
    rw [map_append, copies_fst right.count, ← map_append]
    exact right.nodup
  · exact first.kept.trans second.kept
  · refine first.copied.append count ready.fresh (fun p hp old => ?_) second.copied
    apply ready.apart p (mem_append_right _ hp)
    exact ((sublist_append_left fs fs').cons_cons _).subset old

end

theorem vmcopyPages_spec {s : Space} (ready : CopyReady kernel s.toPaging ce l rest fs)
    (frames : s.frames = fs ++ fs') (i : Nat)
    (m : Nat → Nat) :
    ((¬ ∀ p ∈ l, p.1 < 2 ^ 31) → vmcopyPages l i s m = .error .tableFreed) ∧
    ((∀ p ∈ l, p.1 < 2 ^ 31) → ∃ q mem' m',
      vmcopyPages l i s m = .ok ({ s with toPaging := q, frames := fs', mem := mem' }, m') ∧
      CopyDone kernel ce l rest fs s.toPaging s.mem q mem' ∧
      ((l.map Prod.fst).zipIdx i).map (fun c => (c.1, m' c.2)) = copies l fs ∧ ∀ j < i, m' j = m j) := by
  induction l generalizing s rest fs i m with
  | nil =>
    refine ⟨fun high => absurd (fun p hp => absurd hp not_mem_nil) high, fun _ => ?_⟩
    obtain ⟨rfl, copied⟩ := ready.done
    refine ⟨s.toPaging, s.mem, m, ?_, copied, rfl, fun _ _ => rfl⟩
    rw [← nil_append fs', ← frames]
    rfl
  | cons p l ih =>
    cases fs with
    | nil => cases ready.count
    | cons f fs =>
      have page := ready.page p mem_cons_self
      have first := vmcopyPage_spec ready.tables ready.maps ready.nodup ⟨page.user, page.notKernel⟩
        page.entry page.top ready.cache ready.lookup frames (ready.frame f mem_cons_self)
      have notCache := ready.ne_cache (mem_cons_self (a := p) (l := l))
      obtain ⟨va, e⟩ := p
      unfold vmcopyPages
      by_cases low : va < 2 ^ 31
      · obtain ⟨q, done, maps, kept⟩ := first.2 low
        have ready : CopyReady kernel s.toPaging ce ([(va, e)] ++ l) rest ([f] ++ fs) := ready
        have later := ih (s := { s with
            toPaging := q, frames := fs ++ fs', mem := copyMem s.mem (addrToPte ce) (va, e) f })
          (ready.right rfl maps kept) rfl (i + 1) (update m i (copyEntry e f))
        rw [done, ok_bind]
        refine ⟨fun high => later.1 fun lows => high ?_, fun lows => ?_⟩
        · exact forall_mem_cons.mpr ⟨low, lows⟩
        · obtain ⟨q', mem', m', done', copied, array, before⟩ := later.2 (forall_mem_cons.mp lows).2
          have one : CopyDone kernel ce [(va, e)] (l ++ rest) [f] s.toPaging s.mem q _ :=
            ⟨maps, kept, copied_page s.mem notCache⟩
          refine ⟨q', mem', m', done', one.append ready rfl copied, ?_, ?_⟩
          · rw [map_cons, zipIdx_cons, map_cons, array, before i (Nat.lt_succ_self i), update_self]
            rfl
          · intro j hj
            rw [before j (Nat.lt_succ_of_lt hj), update_of_ne (Nat.ne_of_lt hj)]
      · refine ⟨fun _ => ?_, fun lows => absurd (lows (va, e) mem_cons_self) low⟩
        have fails := first.1 low
        rw [fails, error_bind]

theorem vmcopyAreas_spec {s : Space} {areas : List Area}
    (ready : CopyReady kernel s.toPaging ce (areas.flatMap Area.pages) rest fs)
    (frames : s.frames = fs ++ fs') (blocks : areas.length ≤ s.blocks.length) :
    ((¬ ∀ p ∈ areas.flatMap Area.pages, p.1 < 2 ^ 31) → vmcopyAreas areas s = .error .tableFreed) ∧
    ((∀ p ∈ areas.flatMap Area.pages, p.1 < 2 ^ 31) → ∃ q mem' areas', vmcopyAreas areas s =
        .ok (⟨q, fs', mem', s.blocks.drop areas.length⟩, areas') ∧
      CopyDone kernel ce (areas.flatMap Area.pages) rest fs s.toPaging s.mem q mem' ∧
      areas'.flatMap Area.pages = copies (areas.flatMap Area.pages) fs ∧
      areas'.map (fun a => (a.vmstart, a.vmend, a.vmflag)) =
        areas.map (fun a => (a.vmstart, a.vmend, a.vmflag))) := by
  induction areas generalizing s rest fs with
  | nil =>
    refine ⟨fun high => absurd (fun p hp => absurd hp not_mem_nil) high, fun _ => ?_⟩
    obtain ⟨rfl, copied⟩ := ready.done
    refine ⟨s.toPaging, s.mem, [], ?_, copied, rfl, rfl⟩
    rw [← nil_append fs', ← frames]
    rfl
  | cons a areas ih =>
    -- the frames are divided as the pages are
    obtain ⟨fs1, fs2, split, count1⟩ : ∃ fs1 fs2, fs = fs1 ++ fs2 ∧ fs1.length = a.pages.length := by
      refine ⟨fs.take a.pages.length, fs.drop a.pages.length, (take_append_drop _ _).symm, ?_⟩
      have count := ready.count
      rw [flatMap_cons, length_append] at count
      rw [length_take]
      omega
    subst split
    have some : ¬ (s.blocks.isEmpty = true ∧ ¬ a.pages.isEmpty = true) := by
      intro none
      rw [isEmpty_iff.mp none.1] at blocks
      cases blocks
    have tail : areas.length ≤ s.blocks.tail.length := by
      rw [length_tail]
      exact Nat.le_sub_one_of_lt blocks
    obtain ⟨fails, copies1⟩ := vmcopyPages_spec (s := { s with blocks := s.blocks.tail })
      (ready.left count1) (frames.trans (append_assoc ..)) 0 (s.blocks.headD fun _ => 0)
    unfold vmcopyAreas
    rw [if_neg some, flatMap_cons, forall_mem_append]
    by_cases lows : ∀ p ∈ a.pages, p.1 < 2 ^ 31
    · obtain ⟨q, mem1, m, done, copied1, array, -⟩ := copies1 lows
      obtain ⟨fails2, copies2⟩ := ih
        (s := { s with blocks := s.blocks.tail, toPaging := q, frames := fs2 ++ fs', mem := mem1 })
        (ready.right count1 copied1.maps copied1.kept) rfl tail
      rw [done, ok_bind]
      refine ⟨fun high => ?_, fun all => ?_⟩
      · have later := fails2 fun all => high ⟨lows, all⟩
        simp only [later, error_bind]
      · obtain ⟨q', mem2, areas', done', copied2, pages, shape⟩ := copies2 all.2
        refine ⟨q', mem2, { a with mmap := m } :: areas', ?_, copied1.append ready count1 copied2, ?_, ?_⟩
        · simp only [done', ok_bind, pure_eq_ok, length_cons, drop_tail]
        · have mine : ({ a with mmap := m } : Area).pages = copies a.pages fs1 := by
            rw [← array, pages_fst]
            rfl
          rw [flatMap_cons, mine, pages, copies_append count1]
        · rw [map_cons, map_cons, shape]
    · refine ⟨fun _ => ?_, fun all => absurd all.1 lows⟩
      rw [fails lows, error_bind]

end

section

variable {l : List (Nat × Nat)} {fs : List Nat}

theorem copies_frames (count : fs.length = l.length) (page : ∀ f ∈ fs, PageAddr f) :
    (copies l fs).map (fun d => addrToPte d.2) = fs := by
  induction l generalizing fs with
  | nil => exact (eq_nil_of_length_eq_zero count).symm
  | cons p l ih =>
    cases fs with
    | nil => cases count
    | cons f fs =>
      rw [forall_mem_cons] at page
      change addrToPte (copyEntry p.2 f) :: (copies l fs).map (fun d => addrToPte d.2) = f :: fs
      rw [addrToPte_copyEntry p.2 page.1, ih (Nat.succ.inj count) page.2]

theorem copies_same {mem mem' : Nat → Nat → UInt8} (count : fs.length = l.length)
    (page : ∀ f ∈ fs, PageAddr f) (entry : ∀ p ∈ l, EntryOk p.2)
    (bytes : ∀ c ∈ l.zip fs, mem' c.2 = mem (addrToPte c.1.2)) :
    List.Forall₂ (fun d p => d.1 = p.1 ∧ getbit12 d.2 = getbit12 p.2 ∧
      mem' (addrToPte d.2) = mem (addrToPte p.2)) (copies l fs) l := by
  induction l generalizing fs with
  | nil =>
    exact .nil
  | cons p l ih =>
    cases fs with
    | nil => cases count
    | cons f fs =>
      rw [forall_mem_cons] at page entry
      rw [zip_cons_cons, forall_mem_cons] at bytes
      refine .cons ⟨rfl, (getbit12_word (getbit12_lt _) page.1).trans entry.1.present_flags, ?_⟩
        (ih (Nat.succ.inj count) page.2 entry.2 bytes.2)
      rw [addrToPte_copyEntry p.2 page.1]
      exact bytes.1

theorem copies_ok (page : ∀ f ∈ fs, PageAddr f) (entry : ∀ p ∈ l, EntryOk p.2) :
    ∀ d ∈ copies l fs, EntryOk d.2 := by
  induction l generalizing fs with
  | nil => exact fun d hd => absurd hd not_mem_nil
  | cons p l ih =>
    cases fs with
    | nil => exact fun d hd => absurd hd not_mem_nil
    | cons f fs =>
      rw [forall_mem_cons] at page entry
      change ∀ d ∈ (p.1, copyEntry p.2 f) :: copies l fs, EntryOk d.2
      rw [forall_mem_cons]
      exact ⟨copyEntry_ok entry.1 page.1, ih page.2 entry.2⟩

end

/-! ## The whole copy -/

/-- `dest` is a copy of `src` in frames of its own, and `s'` the state after it was made. -/
structure IsCopy (s s' : Space) (src dest : Vmem) : Prop where
  shape : dest.mapList.map (fun a => (a.vmstart, a.vmend, a.vmflag)) =
    src.mapList.map (fun a => (a.vmstart, a.vmend, a.vmflag))
  distinct : ((pagesOf dest).map fun d => addrToPte d.2).Nodup
  apart : ∀ d ∈ pagesOf dest, ∀ p ∈ pagesOf src, addrToPte d.2 ≠ addrToPte p.2
  same : List.Forall₂ (fun d p => d.1 = p.1 ∧ getbit12 d.2 = getbit12 p.2 ∧
    s'.mem (addrToPte d.2) = s.mem (addrToPte p.2)) (pagesOf dest) (pagesOf src)
  kept : ∀ p ∈ pagesOf src, s'.mem (addrToPte p.2) = s.mem (addrToPte p.2)
  /-- the temporary frame is free again -/
  released : s.frames.Perm ((pagesOf dest).map (fun d => addrToPte d.2) ++ s'.frames)

/-- Process `a` is mapped and forks the process `c`.  `get_user_page` returns fresh frames, and
    there is memory for a page table and for the arrays. -/
structure ForkReady (kernel : Nat → Prop) (s : VmState) (a c : Nat) : Prop where
  parent : a ≠ s.init
  child : c ≠ s.init
  differ : a ≠ c
  size : (s.vms a).size ≠ 0
  tables : TablesOk s.toPaging
  ok : VmOk kernel s.toPaging (s.vms a)
  maps : Maps kernel s.toPaging (pagesOf (s.vms a))
  cache : UserPage s.toPaging cacheAddr ∧ ¬ kernel cacheAddr
  supply : present (s.directory (pdeMbAddr cacheAddr)) = true ∨ s.pages ≠ []
  enough : (pagesOf (s.vms a)).length < s.frames.length
  frame : ∀ f ∈ s.frames, FrameOk f
  nodup : s.frames.Nodup
  apart : ∀ p ∈ pagesOf (s.vms a), addrToPte p.2 ∉ s.frames
  blocks : (s.vms a).mapList.length ≤ s.blocks.length

/-- `vmcopy` makes a copy for `c`, and the following `__umap(c, a)` makes the tables map `a`
    again. -/
def ForkCopies (kernel : Nat → Prop) (s : VmState) (junk : Area) (a c : Nat) : Prop :=
  ∃ space dest s', vmcopy s.toSpace junk (s.vms a) = .ok (space, dest) ∧
    IsCopy s.toSpace space (s.vms a) dest ∧
    umap ({ s with toSpace := space }.setVm c dest) c a = .ok s' ∧
    Maps kernel s'.toPaging (pagesOf (s.vms a)) ∧
    ∀ u, UserPage s.toPaging u → s'.entry u = s.entry u

section

variable {kernel : Nat → Prop} {s : VmState} {a c : Nat}
  {cf : Nat} {dest src : Vmem} {fs : List Nat} {junk : Area} {q : Paging}

theorem VmOk.pageOk {vm : Vmem} (ok : VmOk kernel q vm) {p : Nat × Nat}
    (hp : p ∈ pagesOf vm) : PageOk kernel q p := by
  obtain ⟨area, harea, mem⟩ := mem_flatMap.mp hp
  have good := ok.area area harea
  have inside := bounds_of_mem_pageRange (pages_fst area ▸ mem_map_of_mem mem)
  refine ⟨(ok.user p hp).1, (ok.user p hp).2, good.entry p mem, ?_⟩
  have stop := good.stop
  unfold PageAddr at stop
  unfold pageSize
  omega

/-- The entry of the temporary page. -/
def cacheEntry (cf : Nat) : Nat := ptePresent ||| (pteUs ||| pteRw) ||| cf

theorem addrToPte_cacheEntry (hcf : PageAddr cf) : addrToPte (cacheEntry cf) = cf :=
  addrToPte_word (by decide) hcf

section

variable (ready : ForkReady kernel s a c) (free : ∀ p ∈ pagesOf (s.vms a), p.1 ≠ cacheAddr)

include ready free

theorem ForkReady.cacheMapped (hcf : PageAddr cf) :
    ∃ q, mmap s.toPaging cacheAddr cf pageSize (pteUs ||| pteRw) = .ok (q, 0) ∧
      Maps kernel q (pagesOf (s.vms a) ++ [(cacheAddr, cacheEntry cf)]) ∧ Kept kernel s.toPaging q := by
  have new : cacheAddr ∉ (pagesOf (s.vms a)).map Prod.fst := by
    intro old
    obtain ⟨p, hp, same⟩ := mem_map.mp old
    exact free p hp same
  have absent : s.entry cacheAddr = none := by
    rw [ready.maps.entry _ ready.cache.1 ready.cache.2, lookup_cons_eq (p := (cacheAddr, 0)) new, if_pos rfl]
  have page := mmap_page ready.tables ready.cache.1 absent ready.supply hcf
    (show pteUs ||| pteRw < 2 ^ 12 by decide) (by decide)
  obtain ⟨q, done, stored⟩ := page
  exact ⟨q, done, ready.maps.add (p := (cacheAddr, cacheEntry cf)) new
    (show cacheAddr < 2 ^ 31 by decide) stored, stored.kept ready.cache.2⟩

theorem ForkReady.copyReady {fs' : List Nat}
    (frames : s.frames = cf :: (fs ++ fs')) (count : fs.length = (pagesOf (s.vms a)).length)
    (maps : Maps kernel q (pagesOf (s.vms a) ++ [(cacheAddr, cacheEntry cf)])) (kept : Kept kernel s.toPaging q) :
    CopyReady kernel q (cacheEntry cf) (pagesOf (s.vms a)) [(cacheAddr, cacheEntry cf)] fs := by
  have hcf : FrameOk cf := ready.frame cf (frames ▸ mem_cons_self)
  have sub : (cf :: fs).Sublist s.frames := by
    rw [frames]
    exact (sublist_append_left fs fs').cons_cons _
  constructor
  · constructor
    · exact kept.tables
    · exact maps
    · rw [map_append, nodup_append]
      refine ⟨ready.ok.nodup, nodup_singleton _, ?_⟩
      rintro u hu v hv rfl
      obtain ⟨p, hp, same⟩ := mem_map.mp hu
      exact free p hp (same.trans (mem_singleton.mp hv))
    · exact fun p hp => (ready.ok.kept kept).pageOk hp
    · exact ⟨(kept.user _).mpr ready.cache.1, ready.cache.2⟩
  · exact mem_cons_self
  · exact fun f hf => ready.frame f (sub.subset (mem_cons_of_mem _ hf))
  · rw [addrToPte_cacheEntry hcf.1]
    exact ready.nodup.sublist sub
  · intro p hp old
    rw [addrToPte_cacheEntry hcf.1] at old
    exact ready.apart p hp (sub.subset old)
  · exact count

end

theorem VmOk.copy (ok : VmOk kernel q src) (page : ∀ f ∈ fs, PageAddr f)
    (count : fs.length = (pagesOf src).length)
    (pages : pagesOf dest = copies (pagesOf src) fs)
    (shape : dest.mapList.map (fun a => (a.vmstart, a.vmend, a.vmflag)) =
      src.mapList.map (fun a => (a.vmstart, a.vmend, a.vmflag))) : VmOk kernel q dest := by
  constructor
  · intro d hd
    have mem := mem_map_of_mem (f := fun a : Area => (a.vmstart, a.vmend, a.vmflag)) hd
    rw [shape] at mem
    obtain ⟨a, ha, same⟩ := mem_map.mp mem
    have start : a.vmstart = d.vmstart := congrArg Prod.fst same
    have stop : a.vmend = d.vmend := congrArg (fun r => r.2.1) same
    have good := ok.area a ha
    refine ⟨start ▸ good.start, stop ▸ good.stop, start ▸ stop ▸ good.order, fun p hp => ?_⟩
    have mem : p ∈ pagesOf dest := mem_flatMap.mpr ⟨d, hd, hp⟩
    rw [pages] at mem
    exact copies_ok page (fun r hr => (ok.pageOk hr).entry) p mem
  · have disjoint : (src.mapList.map fun a => (a.vmstart, a.vmend, a.vmflag)).Pairwise
        fun a b => a.2.1 ≤ b.1 ∨ b.2.1 ≤ a.1 := pairwise_map.mpr ok.disjoint
    rw [← shape] at disjoint
    exact pairwise_map.mp disjoint
  · intro d hd
    have mem := mem_map_of_mem (f := Prod.fst) hd
    rw [pages, copies_fst count] at mem
    obtain ⟨p, hp, same⟩ := mem_map.mp mem
    rw [← same]
    exact ok.user p hp

theorem ForkReady.split (ready : ForkReady kernel s a c) :
    ∃ cf fs fs', s.frames = cf :: (fs ++ fs') ∧ fs.length = (pagesOf (s.vms a)).length := by
  have enough := ready.enough
  cases frames : s.frames with
  | nil =>
    rw [frames] at enough
    cases enough
  | cons cf rest =>
    refine ⟨cf, rest.take (pagesOf (s.vms a)).length, rest.drop (pagesOf (s.vms a)).length, ?_, ?_⟩
    · rw [take_append_drop]
    · rw [frames, length_cons] at enough
      rw [length_take]
      exact Nat.min_eq_left (Nat.le_of_lt_succ enough)

theorem ForkReady.start (ready : ForkReady kernel s a c) (free : ∀ p ∈ pagesOf (s.vms a), p.1 ≠ cacheAddr) :
    ∃ cf fs fs' q, s.frames = cf :: (fs ++ fs') ∧ PageAddr cf ∧
      s.getUserPage = (cf, { s.toSpace with frames := fs ++ fs' }) ∧
      mmap s.toPaging cacheAddr cf pageSize (pteUs ||| pteRw) = .ok (q, 0) ∧ Kept kernel s.toPaging q ∧
      CopyReady kernel q (cacheEntry cf) (pagesOf (s.vms a)) [(cacheAddr, cacheEntry cf)] fs := by
  obtain ⟨cf, fs, fs', frames, count⟩ := ready.split
  have hcf : FrameOk cf := ready.frame cf (frames ▸ mem_cons_self)
  obtain ⟨q, mapped, maps, kept⟩ := ready.cacheMapped free hcf.1
  refine ⟨cf, fs, fs', q, frames, hcf.1, ?_, mapped, kept, ready.copyReady free frames count maps kept⟩
  unfold Space.getUserPage
  rw [frames]

theorem freemap_cache {ce : Nat} {l : List (Nat × Nat)} (tables : TablesOk q)
    (cache : UserPage q cacheAddr ∧ ¬ kernel cacheAddr) (maps : Maps kernel q (l ++ [(cacheAddr, ce)]))
    (nodup : ((l ++ [(cacheAddr, ce)]).map Prod.fst).Nodup) :
    ∃ q', freemap q cacheAddr pageSize = .ok (q', 0) ∧ Maps kernel q' l ∧ Kept kernel q q' := by
  have perm : (l ++ [(cacheAddr, ce)]).Perm ([(cacheAddr, ce)] ++ l) := perm_append_comm
  have page := freemapFrom_pages tables (maps.perm nodup perm) ((perm.map Prod.fst).nodup_iff.mp nodup)
    (forall_mem_singleton.mpr cache) (forall_mem_singleton.mpr (show cacheAddr < 2 ^ 31 by decide))
  obtain ⟨q', removed, maps', kept, -⟩ := page
  refine ⟨q', ?_, maps', kept⟩
  exact removed

theorem Copied.isCopy {s s' : Space} {fs' : List Nat}
    (copied : Copied s.mem cf (pagesOf src) fs s'.mem) (count : fs.length = (pagesOf src).length)
    (page : ∀ f ∈ fs, PageAddr f) (entry : ∀ p ∈ pagesOf src, EntryOk p.2) (fresh : (cf :: fs).Nodup)
    (apart : ∀ p ∈ pagesOf src, addrToPte p.2 ∉ cf :: fs)
    (pages : pagesOf dest = copies (pagesOf src) fs)
    (shape : dest.mapList.map (fun a => (a.vmstart, a.vmend, a.vmflag)) =
      src.mapList.map (fun a => (a.vmstart, a.vmend, a.vmflag)))
    (before : s.frames = cf :: (fs ++ fs')) (after : s'.frames = cf :: fs') : IsCopy s s' src dest := by
  have new : (pagesOf dest).map (fun d => addrToPte d.2) = fs := by
    rw [pages, copies_frames count page]
  constructor
  · exact shape
  · rw [new]
    exact (nodup_cons.mp fresh).2
  · intro d hd p hp same
    have mine := mem_map_of_mem (f := fun d => addrToPte d.2) hd
    rw [new, same] at mine
    exact apart p hp (mem_cons_of_mem _ mine)
  · rw [pages]
    exact copies_same count page entry copied.bytes
  · intro p hp
    have old := apart p hp
    rw [mem_cons, not_or] at old
    exact copied.other _ old.1 old.2
  · rw [new, before, after]
    exact perm_middle.symm

/-- `vmcopy` of a process below 2 GB with no page at the temporary address. -/
theorem ForkReady.vmcopy_ok (ready : ForkReady kernel s a c) (areas : (s.vms a).mapList ≠ [])
    (free : ∀ p ∈ pagesOf (s.vms a), p.1 ≠ cacheAddr) (low : Low (s.vms a)) (junk : Area) :
    ∃ space dest, vmcopy s.toSpace junk (s.vms a) = .ok (space, dest) ∧
      IsCopy s.toSpace space (s.vms a) dest ∧ Kept kernel s.toPaging space.toPaging ∧
      Maps kernel space.toPaging (pagesOf dest) ∧ VmOk kernel s.toPaging dest := by
  obtain ⟨cf, fs, fs', q0, frames, hcf, got, mapped, kept0, copy⟩ := ready.start free
  obtain ⟨q1, mem', mapList, done, ⟨maps1, kept1, copied⟩, pages, shape⟩ :=
    (vmcopyAreas_spec (s := ⟨q0, fs ++ fs', s.mem, s.blocks⟩) copy rfl ready.blocks).2 low
  have page : ∀ f ∈ fs, PageAddr f := fun f hf => (copy.frame f hf).1
  have count := copy.count
  have kept := kept0.trans kept1
  have nodup : ((copies (pagesOf (s.vms a)) fs ++ [(cacheAddr, cacheEntry cf)]).map Prod.fst).Nodup := by
    have before := copy.nodup
    rw [map_append] at before ⊢
    rw [copies_fst count]
    exact before
  obtain ⟨q2, removed, maps2, kept2⟩ := freemap_cache kept.tables
    ⟨(kept.user _).mpr ready.cache.1, ready.cache.2⟩ maps1 nodup
  refine ⟨⟨q2, cf :: fs', mem', s.blocks.drop (s.vms a).mapList.length⟩, { s.vms a with mapList }, ?_, ?_,
    kept.trans kept2, ?_, ready.ok.copy page count pages shape⟩
  · have some : ¬ (s.vms a).mapList.isEmpty = true := fun none => areas (isEmpty_iff.mp none)
    unfold vmcopy
    simp only [got, Space.mmap, mapped, ok_bind, pure_eq_ok, done, Space.freemap, removed, if_neg some]
    rfl
  · have fresh := copy.fresh
    have apart := copy.apart
    rw [addrToPte_cacheEntry hcf] at copied fresh apart
    exact copied.isCopy count page (fun p hp => (copy.page p hp).entry) fresh apart pages shape frames rfl
  · unfold pagesOf
    rw [pages]
    exact maps2

theorem IsCopy.low {s s' : Space} (copy : IsCopy s s' src dest) (low : Low src) : Low dest := by
  have fst : (pagesOf dest).map Prod.fst = (pagesOf src).map Prod.fst := by
    rw [← forall₂_eq_eq_eq, forall₂_map_left_iff, forall₂_map_right_iff]
    exact copy.same.imp fun _ _ same => same.1
  intro d hd
  have mem := mem_map_of_mem (f := Prod.fst) hd
  rw [fst] at mem
  obtain ⟨p, hp, same⟩ := mem_map.mp mem
  rw [← same]
  exact low p hp

theorem ForkReady.forkCopies (ready : ForkReady kernel s a c) (areas : (s.vms a).mapList ≠ [])
    (free : ∀ p ∈ pagesOf (s.vms a), p.1 ≠ cacheAddr) (low : Low (s.vms a)) (junk : Area) :
    ForkCopies kernel s junk a c := by
  obtain ⟨space, dest, done, copy, kept, maps, ok⟩ := ready.vmcopy_ok areas free low junk
  have back := @umap_low kernel ({ s with toSpace := space }.setVm c dest) c a ready.child ready.parent
  have child : ({ s with toSpace := space }.setVm c dest).vms c = dest := update_self ..
  have parent : ({ s with toSpace := space }.setVm c dest).vms a = s.vms a := update_of_ne ready.differ ..
  rw [child, parent] at back
  obtain ⟨q, switched, maps', kept'⟩ := back ready.size kept.tables (ok.kept kept) (ready.ok.kept kept) maps
    (ready.maps.supplied ready.ok kept) (copy.low low) low
  refine ⟨space, dest, _, done, copy, switched, maps', fun u hu => ?_⟩
  have hu' : UserPage q u := ((kept.trans kept').user u).mpr hu
  by_cases mine : kernel u
  · exact (kept.trans kept').kernel u hu mine
  · exact (maps'.entry u hu' mine).trans (ready.maps.entry u hu mine).symm

theorem vmcopy_inv {s space : Space} (done : vmcopy s junk src = .ok (space, dest)) : ∃ q r s1 mapList,
      mmap s.getUserPage.2.toPaging cacheAddr s.getUserPage.1 pageSize (pteUs ||| pteRw) = .ok (q, r) ∧
      vmcopyAreas src.mapList { s.getUserPage.2 with toPaging := q } = .ok (s1, mapList) ∧
      space.mem = s1.mem ∧ space.frames = s.getUserPage.1 :: s1.frames ∧
      dest = { src with mapList := if src.mapList.isEmpty then [junk] else mapList } := by
  unfold vmcopy at done
  obtain ⟨⟨s0, r⟩, mapped, done⟩ := bind_eq_ok.mp done
  obtain ⟨⟨q, r'⟩, entered, same⟩ := bind_eq_ok.mp mapped
  cases same
  obtain ⟨⟨s1, mapList⟩, copied, done⟩ := bind_eq_ok.mp done
  obtain ⟨⟨s2, r2⟩, removed, done⟩ := bind_eq_ok.mp done
  obtain ⟨⟨q2, r'⟩, -, same⟩ := bind_eq_ok.mp removed
  cases same
  cases done
  exact ⟨q, r, s1, mapList, entered, copied, rfl, rfl, rfl⟩

/-- A process without areas gets a copy with one. -/
theorem ForkCopies.areas (copies : ForkCopies kernel s junk a c) : (s.vms a).mapList ≠ [] := by
  obtain ⟨space, dest, -, done, copy, -⟩ := copies
  obtain ⟨-, -, -, mapList, -, -, -, -, rfl⟩ := vmcopy_inv done
  intro none
  have shape := copy.shape
  rw [none] at shape
  cases shape

/-- `freemap` frees the page table of a page above 2 GB. -/
theorem ForkReady.low (ready : ForkReady kernel s a c)
    (free : ∀ p ∈ pagesOf (s.vms a), p.1 ≠ cacheAddr) (copies : ForkCopies kernel s junk a c) :
    Low (s.vms a) := by
  obtain ⟨space, dest, -, done, -⟩ := copies
  obtain ⟨cf, fs, fs', q0, -, -, got, mapped, -, copy⟩ := ready.start free
  obtain ⟨q, r, s1, mapList, entered, copied, -⟩ := vmcopy_inv done
  rw [got] at entered copied
  cases entered.symm.trans mapped
  by_contra high
  have fails := (vmcopyAreas_spec (s := ⟨q0, fs ++ fs', s.mem, s.blocks⟩) copy rfl ready.blocks).1 high
  cases copied.symm.trans fails

end

/-! ## A page at the temporary address -/

/-- The process has a page at the temporary address, and only the frame `star` of this page holds
    other bytes than 0.  The pages in `l` are yet to be copied. -/
structure Spoiled (kernel : Nat → Prop) (star : Nat) (q : Paging) (frames : List Nat)
    (mem : Nat → Nat → UInt8) (l rest : List (Nat × Nat)) : Prop extends Copying kernel q l rest where
  cached : cacheAddr ∈ (l ++ rest).map Prod.fst
  enough : l.length ≤ frames.length
  frame : ∀ f ∈ frames, FrameOk f
  source : ∀ p ∈ l, p.1 ≠ cacheAddr → addrToPte p.2 ≠ star
  zero : ∀ g ≠ star, mem g = fun _ => 0

section

variable {kernel : Nat → Prop} {star : Nat} {p : Nat × Nat} {rest : List (Nat × Nat)} {s s' : Space}

theorem copyMem_zero {mem : Nat → Nat → UInt8} (zero : ∀ g ≠ star, mem g = fun _ => 0)
    (source : p.1 ≠ cacheAddr → addrToPte p.2 ≠ star) (cf f : Nat) :
    ∀ g ≠ star, copyMem mem cf p f g = fun _ => 0 := by
  intro g other
  unfold copyMem
  split
  · exact zero g other
  · next notCache =>
    have bytes := zero _ (source notCache)
    by_cases new : g = f
    · rw [new, update_self, bytes]
    · rw [update_of_ne new]
      by_cases temp : g = cf
      · rw [temp, update_self, bytes]
      · rw [update_of_ne temp, zero g other]

theorem Spoiled.step {l : List (Nat × Nat)} {copy : Nat}
    (spoiled : Spoiled kernel star s.toPaging s.frames s.mem (p :: l) rest)
    (done : vmcopyPage s p.1 p.2 = .ok (s', copy)) :
    Spoiled kernel star s'.toPaging s'.frames s'.mem l ((p.1, copy) :: rest) := by
  have page := spoiled.page p mem_cons_self
  obtain ⟨⟨u, ce⟩, mem, at_⟩ := mem_map.mp spoiled.cached
  change u = cacheAddr at at_
  have cached := (lookup_eq_some spoiled.nodup).mpr (at_ ▸ mem)
  have enough := spoiled.enough
  cases frames : s.frames with
  | nil =>
    rw [frames] at enough
    cases enough
  | cons f fs =>
    have frame := spoiled.frame
    rw [frames, forall_mem_cons] at frame
    rw [frames] at enough
    obtain ⟨high, low⟩ := vmcopyPage_spec spoiled.tables spoiled.maps spoiled.nodup
      ⟨page.user, page.notKernel⟩ page.entry page.top spoiled.cache cached frames frame.1
    by_cases below : p.1 < 2 ^ 31
    · obtain ⟨q, done', maps, kept⟩ := low below
      cases done.symm.trans done'
      constructor
      · exact @Copying.next _ [p] [(p.1, copyEntry p.2 f)] _ _ _ _ spoiled.toCopying rfl maps kept
      · have perm : (l ++ (p.1, copyEntry p.2 f) :: rest).Perm ((p.1, copyEntry p.2 f) :: (l ++ rest)) :=
          perm_middle
        exact (perm.map Prod.fst).mem_iff.mpr spoiled.cached
      · exact Nat.le_of_succ_le_succ enough
      · exact frame.2
      · exact fun r hr => spoiled.source r (mem_cons_of_mem _ hr)
      · exact copyMem_zero spoiled.zero (spoiled.source p mem_cons_self) _ _
    · cases done.symm.trans (high below)

/-- The loop over the pages of an area, with the pages `later` of the areas after it. -/
theorem Spoiled.pages {l later : List (Nat × Nat)} {i : Nat} {m m' : Nat → Nat}
    (spoiled : Spoiled kernel star s.toPaging s.frames s.mem (l ++ later) rest)
    (done : vmcopyPages l i s m = .ok (s', m')) :
    ∃ rest', Spoiled kernel star s'.toPaging s'.frames s'.mem later rest' := by
  induction l generalizing s rest i m with
  | nil =>
    cases done
    exact ⟨rest, spoiled⟩
  | cons p l ih =>
    unfold vmcopyPages at done
    obtain ⟨⟨s1, copy⟩, first, done⟩ := bind_eq_ok.mp done
    exact ih (spoiled.step first) done

theorem Spoiled.areas {areas areas' : List Area}
    (spoiled : Spoiled kernel star s.toPaging s.frames s.mem (areas.flatMap Area.pages) rest)
    (done : vmcopyAreas areas s = .ok (s', areas')) :
    ∀ g ≠ star, s'.mem g = fun _ => 0 := by
  induction areas generalizing s areas' rest with
  | nil =>
    cases done
    exact spoiled.zero
  | cons a areas ih =>
    unfold vmcopyAreas at done
    split at done
    · cases done
    · obtain ⟨⟨s1, m⟩, first, done⟩ := bind_eq_ok.mp done
      obtain ⟨⟨s2, rest'⟩, later, same⟩ := bind_eq_ok.mp done
      cases same
      obtain ⟨rest', spoiled'⟩ := Spoiled.pages (s := { s with blocks := s.blocks.tail }) spoiled first
      exact ih spoiled' later

theorem Space.getUserPage_snd (s : Space) : s.getUserPage.2 = { s with frames := s.frames.tail } := by
  obtain ⟨q, frames, mem, blocks⟩ := s
  cases frames with
  | nil => rfl
  | cons pa frames => rfl

theorem ForkReady.spoiled {s : VmState} {a c : Nat} (ready : ForkReady kernel s a c)
    (distinct : ((pagesOf (s.vms a)).map fun p => addrToPte p.2).Nodup) (hp : p ∈ pagesOf (s.vms a))
    (cached : p.1 = cacheAddr) (zero : ∀ g ≠ addrToPte p.2, s.mem g = fun _ => 0) :
    Spoiled kernel (addrToPte p.2) s.toPaging s.frames.tail s.mem (pagesOf (s.vms a)) [] := by
  have enough := ready.enough
  constructor
  · constructor
    · exact ready.tables
    · rw [append_nil]
      exact ready.maps
    · rw [append_nil]
      exact ready.ok.nodup
    · exact fun p hp => ready.ok.pageOk hp
    · exact ready.cache
  · rw [append_nil]
    exact mem_map.mpr ⟨p, hp, cached⟩
  · rw [length_tail]
    omega
  · exact fun f hf => ready.frame f (mem_of_mem_tail hf)
  · intro r hr other same
    have mine := inj_on_of_nodup_map distinct hr hp same
    exact other (mine ▸ cached)
  · exact zero

theorem ForkReady.cache_free {s : VmState} {a c : Nat} (ready : ForkReady kernel s a c)
    (distinct : ((pagesOf (s.vms a)).map fun p => addrToPte p.2).Nodup) (hp : p ∈ pagesOf (s.vms a))
    (cached : p.1 = cacheAddr) (ones : s.mem = fun g _ => if g = addrToPte p.2 then 1 else 0) (junk : Area) :
    ¬ ForkCopies kernel s junk a c := by
  rintro ⟨space, dest, -, done, copy, -⟩
  have zero : ∀ g ≠ addrToPte p.2, s.mem g = fun _ => 0 := by
    intro g other
    rw [ones]
    exact funext fun _ => if_neg other
  have mapped : s.entry cacheAddr = some p.2 := by
    rw [ready.maps.entry _ ready.cache.1 ready.cache.2, lookup_eq_some ready.ok.nodup, ← cached]
    exact hp
  have spoiled := ready.spoiled distinct hp cached zero
  obtain ⟨q, r, s1, mapList, entered, copied, bytes, -⟩ := vmcopy_inv done
  rw [Space.getUserPage_snd] at entered copied
  cases entered.symm.trans (mmap_mapped ready.cache.1 mapped _ _)
  have after := Spoiled.areas (s := { s.toSpace with frames := s.frames.tail }) spoiled copied
  -- the copy of the page holds zeros
  obtain ⟨d, hd, same⟩ : ∃ d ∈ pagesOf dest, space.mem (addrToPte d.2) = s.mem (addrToPte p.2) := by
    obtain ⟨i, hi, rfl⟩ := getElem_of_mem hp
    have bound : i < (pagesOf dest).length := copy.same.length_eq ▸ hi
    exact ⟨_, get_mem (pagesOf dest) ⟨i, bound⟩, (copy.same.get bound hi).2.2⟩
  rw [bytes, after _ (copy.apart d hd p hp), ones] at same
  have first : (0 : UInt8) = if addrToPte p.2 = addrToPte p.2 then 1 else 0 := congrFun same 0
  rw [if_pos rfl] at first
  exact absurd first (by decide)

end

theorem ForkReady.withMem {kernel : Nat → Prop} {s : VmState} {a c : Nat} (ready : ForkReady kernel s a c)
    (mem : Nat → Nat → UInt8) : ForkReady kernel { s with mem } a c :=
  ⟨ready.parent, ready.child, ready.differ, ready.size, ready.tables, ready.ok, ready.maps, ready.cache,
    ready.supply, ready.enough, ready.frame, ready.nodup, ready.apart, ready.blocks⟩

/-- Whatever the pages hold, `vmcopy` makes a copy of the process in frames of its own and
    `__umap` then restores the tables, if the process has an area, no page at the temporary
    address and all pages below 2 GB.  If no frame is mapped twice, it does so only then. -/
theorem fork_copies_iff {kernel : Nat → Prop} {s : VmState} {a c : Nat} (ready : ForkReady kernel s a c)
    (junk : Area) :
    ((s.vms a).mapList ≠ [] ∧ (∀ p ∈ pagesOf (s.vms a), p.1 ≠ cacheAddr) ∧ Low (s.vms a) →
      ∀ mem, ForkCopies kernel { s with mem } junk a c) ∧
    (((pagesOf (s.vms a)).map fun p => addrToPte p.2).Nodup →
      (∀ mem, ForkCopies kernel { s with mem } junk a c) →
      (s.vms a).mapList ≠ [] ∧ (∀ p ∈ pagesOf (s.vms a), p.1 ≠ cacheAddr) ∧ Low (s.vms a)) := by
  constructor
  · rintro ⟨areas, free, low⟩ mem
    exact (ready.withMem mem).forkCopies areas free low junk
  · intro distinct always
    have free : ∀ p ∈ pagesOf (s.vms a), p.1 ≠ cacheAddr := by
      intro p hp cached
      exact (ready.withMem fun g _ => if g = addrToPte p.2 then 1 else 0).cache_free distinct hp cached rfl
        junk (always _)
    exact ⟨(always s.mem).areas, free, ready.low free (always s.mem)⟩

/-- Process 1 has one page, at `va`, which is mapped. -/
def oneProcess (va : Nat) (mem : Nat → Nat → UInt8) : VmState :=
  { toPaging := oneTable va 0x4000007
    frames := [0x5000000, 0x5001000]
    mem := mem
    blocks := [fun _ => 0]
    vms := fun _ => onePage va 0x4000000
    init := 0 }

theorem oneProcess_ready {va : Nat} {mem : Nat → Nat → UInt8} (page : PageAddr va) (low : va < 2 ^ 31) :
    ForkReady (fun _ => False) (oneProcess va mem) 1 2 := by
  have pages : pagesOf ((oneProcess va mem).vms 1) = [(va, 0x4000007)] := onePage_pages _ _
  have stop : va + pageSize < 2 ^ 32 := by
    unfold pageSize
    omega
  constructor
  · exact Nat.one_ne_zero
  · exact Nat.succ_ne_zero 1
  · decide
  · exact Nat.one_ne_zero
  · exact oneTable_tables
  · exact onePage_ok page stop (by decide)
  · rw [pages]
    exact oneTable_maps page low (by decide)
  · exact ⟨oneTable_user (by decide), fun mine => mine⟩
  · exact .inr (cons_ne_nil _ _)
  · rw [pages]
    exact Nat.lt_succ_self 1
  · change ∀ f ∈ [0x5000000, 0x5001000], FrameOk f
    rw [forall_mem_cons, forall_mem_singleton]
    exact ⟨⟨by decide, by decide⟩, ⟨by decide, by decide⟩⟩
  · change [0x5000000, 0x5001000].Nodup
    decide
  · rw [pages]
    intro p hp
    rw [mem_singleton.mp hp]
    change addrToPte 0x4000007 ∉ [0x5000000, 0x5001000]
    decide
  · exact Nat.le_refl 1

/-- A program with one page. -/
theorem fork_copies_program :
    ForkReady (fun _ => False) (oneProcess 0x8048000 fun _ _ => 0) 1 2 ∧
    ∀ mem, ForkCopies (fun _ => False) (oneProcess 0x8048000 mem) ⟨fun _ => 0, 0, 0, 0⟩ 1 2 := by
  have ready := @oneProcess_ready 0x8048000 (fun _ _ => 0) (by decide) (by decide)
  refine ⟨ready, (fork_copies_iff ready ⟨fun _ => 0, 0, 0, 0⟩).1 ⟨List.cons_ne_nil _ _, ?_, ?_⟩⟩
  · decide
  · unfold Low
    decide

/-- A program that has its page where `vmcopy` puts the temporary one: the copy does not hold
    what the page held. -/
theorem fork_loses_page :
    ForkReady (fun _ => False) (oneProcess 0x7F00000 fun g _ => if g = 0x4000000 then 1 else 0) 1 2 ∧
    ∀ junk, ¬ ForkCopies (fun _ => False) (oneProcess 0x7F00000 fun g _ => if g = 0x4000000 then 1 else 0)
      junk 1 2 := by
  have ready := @oneProcess_ready 0x7F00000 (fun g _ => if g = 0x4000000 then 1 else 0) (by decide)
    (by decide)
  refine ⟨ready, fun junk => ready.cache_free (p := (0x7F00000, 0x4000007)) ?_ ?_ rfl ?_ junk⟩
  · exact List.nodup_singleton _
  · exact List.mem_singleton_self _
  · rfl

end Illinix.Verified.Vm
