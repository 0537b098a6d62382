import Illinix.Kernel.Mmap
import Illinix.Verified.Vm.Grow
import Mathlib.Data.List.DropRight

/-! # Mapping and unmapping areas

`vmdealloc` mixes bytes and pages, `sys_mmap` passes a number of pages to `vmalloc`, which counts bytes, and
replaces an area of the list where it should insert one, and `sys_munmap` looks for the offset of the address in its
page and loses every area before the one at which it stops.  What remains true is stated here with its
exact condition. -/

namespace Illinix.Verified.Vm

open Kernel Lib List

variable {addr size t : Nat} {s s' : VmState}

/-! ## Shrinking an area -/

section

variable {s s' : Space} {vm vm' : Area} {decsize : Int} {mapping : Bool}

/-- The area has shrunk by `decsize` bytes: its last pages are not mapped any more, unless the process is not mapped
    at all, and their frames are free. -/
structure Shrunk (s : Space) (vm : Area) (decsize : Int) (mapping : Bool) (s' : Space) (vm' : Area) : Prop where
  start : vm'.vmstart = vm.vmstart
  stop : (vm'.vmend : Int) = vm.vmend - decsize
  unmapped : mapping = true → ∀ u, UserPage s.toPaging u →
    s'.entry u = if vm'.vmend ≤ u ∧ u < vm.vmend then none else s.entry u
  untouched : mapping = false → s'.toPaging = s.toPaging
  frames : s'.frames.Perm ((range' (Area.size vm') (decsize / pageSize).toNat).map
    (fun k => addrToPte (vm.mmap k)) ++ s.frames)
  kept : ∀ k < Area.size vm', vm'.mmap k = vm.mmap k

/-- The end of the area after `vmdealloc`: the number of pages is taken off, not their size. -/
theorem vmdealloc_vmend (done : vmdealloc s vm decsize mapping = .ok (s', vm')) :
    (vm'.vmend : Int) = (vm.vmend - decsize.tdiv pageSize) % 2 ^ 32 := by
  have word : (((vm.vmend - decsize.tdiv pageSize : Int) % 2 ^ 32).toNat : Int) =
      (vm.vmend - decsize.tdiv pageSize) % 2 ^ 32 :=
    Int.toNat_of_nonneg (Int.emod_nonneg _ (by decide))
  obtain ⟨⟨s1, i⟩, -, done⟩ := bind_eq_ok.mp done
  simp only at done
  split at done
  · obtain ⟨⟨s2, mmap⟩, -, done⟩ := bind_eq_ok.mp done
    cases done
    exact word
  · next same =>
    cases done
    rw [← word]
    exact congrArg _ (Decidable.not_not.mp same).symm

theorem vmdealloc_zero (bound : vm.vmend < 2 ^ 32) : vmdealloc s vm 0 mapping = .ok (s, vm) := by
  have same : ((vm.vmend - (0 : Int).tdiv pageSize : Int) % 2 ^ 32).toNat = vm.vmend := by
    rw [Int.zero_tdiv]
    omega
  unfold vmdealloc
  rw [same]
  have loop : vmdeallocFrom mapping vm.mmap vm.vmend (sub32 vm.vmend vm.vmstart / pageSize) vm.vmend s =
      .ok (s, sub32 vm.vmend vm.vmstart / pageSize) := by
    unfold vmdeallocFrom
    exact if_neg (Nat.lt_irrefl _)
  simp only [loop, ok_bind]
  exact if_neg fun differ => differ rfl

end

/-- `vmdealloc` shrinks an area by a number of pages if and only if that number is 0. -/
theorem area_shrinks_iff (s : Space) {vm : Area} {decsize : Int} (mapping : Bool) (bound : vm.vmend < 2 ^ 32)
    (whole : decsize % pageSize = 0) :
    (∃ s' vm', vmdealloc s vm decsize mapping = .ok (s', vm') ∧ Shrunk s vm decsize mapping s' vm') ↔
      decsize = 0 := by
  constructor
  · rintro ⟨s', vm', done, shrunk⟩
    have stop := vmdealloc_vmend done
    -- the multiple of the page size that the two ends differ by is too small to be one of 2 ^ 32
    obtain ⟨pages, rfl⟩ := Int.dvd_of_emod_eq_zero whole
    rw [Int.mul_tdiv_cancel_left _ (show (pageSize : Int) ≠ 0 by decide)] at stop
    have low := shrunk.stop
    unfold pageSize at *
    omega
  · rintro rfl
    refine ⟨s, vm, vmdealloc_zero bound, rfl, (Int.sub_zero _).symm, fun _ u _ => ?_, fun _ => rfl, .refl _,
      fun _ _ => rfl⟩
    rw [if_neg fun within => Nat.not_lt.mpr within.1 within.2]

theorem area_shrinks_zero : Represents growSpace.toPaging (growArea 1 0x8801000) ∧
    ∃ s' vm', vmdealloc growSpace (growArea 1 0x8801000) 0 true = .ok (s', vm') ∧
      Shrunk growSpace (growArea 1 0x8801000) 0 true s' vm' :=
  ⟨growArea_represents, (area_shrinks_iff growSpace true (by decide) (by decide)).mpr rfl⟩

/-- An area of one page that is to lose it: the frame is free and the page is still mapped to it. -/
theorem shrunk_page_mapped : Represents growSpace.toPaging (growArea 1 0x8801000) ∧
    ∃ s' vm', vmdealloc growSpace (growArea 1 0x8801000) 4096 true = .ok (s', vm') ∧ vm'.vmend = 0x8800fff ∧
      0x4000000 ∈ s'.frames ∧ s'.entry 0x8800000 = some 0x4000007 ∧
      ¬ Shrunk growSpace (growArea 1 0x8801000) 4096 true s' vm' := by
  have found : okAnd (vmdealloc growSpace (growArea 1 0x8801000) 4096 true) (fun p => p.2.vmend = 0x8800fff ∧
      0x4000000 ∈ p.1.frames ∧ p.1.entry 0x8800000 = some 0x4000007) = true := by
    decide +kernel
  obtain ⟨⟨s', vm'⟩, done, out⟩ := okAnd_iff.mp found
  obtain ⟨stop, free, mapped⟩ := of_decide_eq_true out
  refine ⟨growArea_represents, s', vm', done, stop, free, mapped, fun shrunk => ?_⟩
  have moved := shrunk.stop
  rw [stop] at moved
  exact absurd moved (by decide)

/-! ## Inserting an area -/

/-- The areas are sorted by their start. -/
def Sorted (areas : List Area) : Prop := areas.Pairwise fun a b => a.vmstart ≤ b.vmstart

/-- The new list holds every area of the old one and one new area at `addr`, and is sorted. -/
def Inserted (addr : Nat) (old new : List Area) : Prop :=
  ∃ area, area.vmstart = addr ∧ new.Perm (area :: old) ∧ Sorted new

section

variable {area : Area} {areas areas' : List Area}

theorem linkArea_length (done : linkArea area areas = .ok areas') : areas'.length = areas.length := by
  induction areas generalizing areas' with
  | nil => cases done
  | cons next rest ih =>
    cases rest with
    | nil =>
      cases done
      rfl
    | cons next' rest =>
      unfold linkArea at done
      split at done
      · obtain ⟨linked, more, same⟩ := bind_eq_ok.mp done
        cases same
        simp only [length_cons, ih more]
      · cases done
        rfl

/-- What `insertArea` does: the area goes in front of the list, or replaces one behind its head. -/
theorem insertArea_ok (done : insertArea area areas = .ok areas') : ∃ head rest, areas = head :: rest ∧
    if area.vmstart < head.vmstart then areas' = area :: areas else areas'.length = areas.length := by
  cases areas with
  | nil => cases done
  | cons head rest =>
    refine ⟨head, rest, rfl, ?_⟩
    simp only [insertArea] at done
    split at done
    · next first =>
      cases done
      rw [if_pos first]
    · next later =>
      obtain ⟨linked, replaced, same⟩ := bind_eq_ok.mp done
      cases same
      rw [if_neg later, length_cons, linkArea_length replaced, length_cons]

end

theorem sysMmap_ok (done : sysMmap s t addr size = .ok (s', 0)) : kernelEnd ≤ addr ∧ addr ≤ userStackAddr ∧
    ∃ mmap blocks space area r mapList, s.blocks = mmap :: blocks ∧
      vmalloc { s.toSpace with blocks } ⟨mmap, addr, addr, 6⟩ (mmapPages addr size) (pteUs ||| pteRw) =
        .ok (space, area, r) ∧ insertArea area (s.vms t).mapList = .ok mapList ∧
      s' = { s with toSpace := space }.setVm t { s.vms t with mapList } := by
  unfold sysMmap at done
  split at done
  · cases done
  · next inside =>
    split at done
    · cases done
    · next mmap blocks taken =>
      obtain ⟨⟨space, area, r⟩, allocated, done⟩ := bind_eq_ok.mp done
      obtain ⟨mapList, inserted, done⟩ := bind_eq_ok.mp done
      obtain ⟨-, -, done⟩ := bind_eq_ok.mp done
      cases done
      exact ⟨by omega, by omega, mmap, blocks, space, area, r, mapList, taken, allocated, inserted, rfl⟩

theorem vmalloc_vmstart {s s' : Space} {vm vm' : Area} {incrsize r : Int} {flags : Nat}
    (done : vmalloc s vm incrsize flags = .ok (s', vm', r)) : vm'.vmstart = vm.vmstart := by
  rcases vmalloc_cases done with ⟨-, rfl, -⟩ | ⟨-, -, blocks, mmap, loop⟩
  · rfl
  · exact (vmallocFrom_area loop).1

/-- `sys_mmap` keeps the areas of a process, and their order, if and only if the new one goes in front of them;
    any other insertion drops an area. -/
theorem mmap_keeps_areas_iff {s s' : VmState} {t addr size : Nat}
    (sorted : Sorted (s.vms t).mapList) (done : sysMmap s t addr size = .ok (s', 0)) :
    Inserted addr (s.vms t).mapList (s'.vms t).mapList ↔
      ∃ head rest, (s.vms t).mapList = head :: rest ∧ addr < head.vmstart := by
  obtain ⟨-, -, _, _, space, area, r, mapList, -, allocated, inserted, rfl⟩ := sysMmap_ok done
  have start : area.vmstart = addr := vmalloc_vmstart allocated
  obtain ⟨head, rest, old, new⟩ := insertArea_ok inserted
  rw [start] at new
  rw [setVm_self]
  split at new
  · next first =>
    refine iff_of_true ⟨area, start, new ▸ .refl _, ?_⟩ ⟨head, rest, old, first⟩
    show Sorted mapList
    rw [new, old]
    rw [old] at sorted
    refine pairwise_cons.mpr ⟨?_, sorted⟩
    rw [start, forall_mem_cons]
    refine ⟨Nat.le_of_lt first, fun b hb => ?_⟩
    exact Nat.le_trans (Nat.le_of_lt first) ((pairwise_cons.mp sorted).1 b hb)
  · next later =>
    refine iff_of_false ?_ ?_
    · -- as many areas as before, so that one of them is missing
      rintro ⟨area', -, same, -⟩
      have more : mapList.length = (s.vms t).mapList.length + 1 := same.length_eq
      omega
    · rintro ⟨head', rest', old', first⟩
      cases old.symm.trans old'
      exact later first

/-- A process with the areas, mapped as in `growSpace`, and memory for one new area. -/
def mmapState (areas : List Area) : VmState :=
  { toSpace := { growSpace with blocks := [fun _ => 0, fun _ => 0] },
    vms := fun _ => { processVmInit with mapList := areas }, init := 1 }

theorem sysMmap_returns (found : okAnd (sysMmap s t addr size) (fun p => p.2 = 0) = true) :
    ∃ s', sysMmap s t addr size = .ok (s', 0) := by
  obtain ⟨⟨s', r⟩, done, zero⟩ := okAnd_iff.mp found
  have returned : r = 0 := of_decide_eq_true zero
  exact ⟨s', returned ▸ done⟩

theorem mmap_keeps_areas_front :
    ∃ s', sysMmap (mmapState [growArea 0 0x8804000]) 0 0x8802000 4096 = .ok (s', 0) ∧
      Inserted 0x8802000 [growArea 0 0x8804000] (s'.vms 0).mapList := by
  have sorted : Sorted ((mmapState [growArea 0 0x8804000]).vms 0).mapList := pairwise_singleton _ _
  obtain ⟨s', done⟩ :=
    @sysMmap_returns 0x8802000 4096 0 (mmapState [growArea 0 0x8804000]) (by decide +kernel)
  exact ⟨s', done, (mmap_keeps_areas_iff sorted done).mpr ⟨_, _, rfl, by decide⟩⟩

/-- An area between the heap and the stack of a new process takes the place of the stack. -/
theorem mmap_drops_stack : Sorted processVmInit.mapList ∧
    ∃ s', sysMmap (mmapState processVmInit.mapList) 0 0x8802000 4096 = .ok (s', 0) ∧
      (s'.vms 0).mapList.map Area.vmstart = [0x8048000, 0x8800000, 0x8802000] ∧
      ¬ Inserted 0x8802000 processVmInit.mapList (s'.vms 0).mapList := by
  have found : okAnd (sysMmap (mmapState processVmInit.mapList) 0 0x8802000 4096) (fun p => p.2 = 0 ∧
      (p.1.vms 0).mapList.map Area.vmstart = [0x8048000, 0x8800000, 0x8802000]) = true := by
    decide +kernel
  obtain ⟨⟨s', r⟩, done, out⟩ := okAnd_iff.mp found
  obtain ⟨rfl, starts⟩ := of_decide_eq_true out
  have sorted : Sorted processVmInit.mapList := by
    unfold Sorted processVmInit
    decide
  refine ⟨sorted, s', done, starts, ?_⟩
  rintro ⟨area, -, same, -⟩
  have three : (s'.vms 0).mapList.length = 3 := by
    rw [← length_map (f := Area.vmstart), starts]
    rfl
  have four : 3 = 4 := three.symm.trans same.length_eq
  exact absurd four (by decide)

/-! ## The pages of a new area -/

/-- No page above the kernel is in a slot of a 4 MB page, as `page_init` leaves the directory. -/
def UserSlots (s : Paging) : Prop := ∀ u, PageAddr u → kernelEnd ≤ u → UserPage s u

/-- The range is inside the user part of memory, none of its pages is mapped, and there is a frame for each of
    them, and memory for the area and its array. -/
structure MmapReady (s : VmState) (addr size : Nat) : Prop where
  some : 0 < size
  tables : TablesOk s.toPaging
  slots : UserSlots s.toPaging
  unused : ∀ u, PageAddr u → addrToPte addr ≤ u → u < addr + size → s.entry u = none
  frame : ∀ f ∈ s.frames, FrameOk f
  enough : (addr % pageSize + size + pageSize - 1) / pageSize ≤ s.frames.length
  block : s.blocks.tail ≠ []

/-- Every byte of the range is in a page that is present and that the user may access. -/
def RangeMapped (s : Paging) (addr size : Nat) : Prop :=
  ∀ b, addr ≤ b → b < addr + size → ∃ e, s.entry b = some e ∧ e.testBit 2 = true

/-- The processor uses one entry for all bytes of a page. -/
theorem entry_addrToPte (s : Paging) {b : Nat} (bound : b < 2 ^ 32) : s.entry (addrToPte b) = s.entry b := by
  have slot : pdeMbAddr (addrToPte b) = pdeMbAddr b := by
    unfold pdeMbAddr addrToPte
    omega
  have index : pteIndex (addrToPte b) = pteIndex b := by
    unfold pteIndex addrToPte
    omega
  unfold Paging.entry Paging.ptePtr
  rw [slot, index]

/-- So the loop of `vmalloc` may as well run over the pages of its addresses. -/
theorem vmallocFrom_addrToPte (flags : Nat) (vas : List Nat) (i : Nat) (s : Space) (vm : Area) :
    vmallocFrom flags (vas.map addrToPte) i s vm = vmallocFrom flags vas i s vm := by
  induction vas generalizing i s vm with
  | nil => rfl
  | cons va vas ih =>
    simp only [map_cons, vmallocFrom, Space.mmap, Kernel.mmap, addrToPte_of_page (pageAddr_addrToPte va), ih]

section

variable {s s' : VmState} {t addr size : Nat}

/-- The addresses of the loop of `vmalloc` are in the pages from that of `addr` on. -/
theorem pages_addrToPte (n : Nat) (bound : addr + pageSize * n < 2 ^ 32) :
    ((range n).map (addr + pageSize * ·)).map addrToPte =
      (range n).map (addrToPte addr + pageSize * ·) := by
  rw [map_map]
  apply map_congr_left
  intro k hk
  have less := mem_range.mp hk
  show addrToPte (addr + pageSize * k) = addrToPte addr + pageSize * k
  unfold addrToPte pageSize at *
  omega

theorem OpenTables.vmallocFrom {slots : Nat → Prop} {flags i : Nat} {vas : List Nat} {s s' : Space} {vm vm' : Area}
    {r : Int} (h : OpenTables slots s.toPaging) (user : UserFlags flags) (frame : ∀ f ∈ s.frames, FrameOk f)
    (done : vmallocFrom flags vas i s vm = .ok (s', vm', r)) : OpenTables slots s'.toPaging := by
  induction vas generalizing i s vm with
  | nil =>
    cases done
    exact h
  | cons va vas ih =>
    rcases vmallocFrom_cons frame done with ⟨-, rfl, -⟩ | ⟨pa, rest, p, n, frames, entered, -, done⟩
    · exact h
    · rw [frames, forall_mem_cons] at frame
      exact @ih (i + 1) { s with toPaging := p, frames := rest } _ (h.mmapFrom user entered) frame.2 done

/-- What a call of `sys_mmap` that returns 0 has mapped: as many pages as `vmalloc` takes the number of pages of the
    range, as bytes, to be. -/
theorem sysMmap_mapped (ready : MmapReady s addr size) (done : sysMmap s t addr size = .ok (s', 0)) :
    ∃ n, n = pagesFor (mmapPages addr size) ∧
      (∀ u, UserPage s.toPaging u → u ∉ (range n).map (addrToPte addr + pageSize * ·) →
        s'.entry u = s.entry u) ∧
      (n = 1 → ∃ e, s'.entry (addrToPte addr) = some e ∧ e.testBit 2 = true) := by
  obtain ⟨low, high, _, blocks, space, area, r, mapList, taken, allocated, -, rfl⟩ := sysMmap_ok done
  refine ⟨_, rfl, ?_⟩
  show (∀ u, UserPage s.toPaging u → _ → space.entry u = s.entry u) ∧
    (_ → ∃ e, space.entry (addrToPte addr) = some e ∧ e.testBit 2 = true)
  have small : (mmapPages addr size : Int) < 2 ^ 20 := by
    unfold mmapPages pageSize
    omega
  rcases vmalloc_cases allocated with ⟨rfl, -, why⟩ | ⟨pos, -, blocks, mmap, loop⟩
  · refine ⟨fun _ _ _ => rfl, fun one => ?_⟩
    rcases why with ⟨negative, -⟩ | ⟨zero, -⟩ | ⟨none, -⟩
    · omega
    · rw [zero] at one
      cases one
    · have block := ready.block
      rw [taken] at block
      exact absurd none block
  · have room : addr + pageSize * pagesFor (mmapPages addr size) < 2 ^ 32 := by
      unfold pagesFor pageSize userStackAddr at *
      omega
    rw [addrToPte_pages (by omega), Nat.mod_eq_of_lt room, ← vmallocFrom_addrToPte, pageRange_pages,
      pages_addrToPte _ room] at loop
    generalize pagesFor (mmapPages addr size) = n at *
    have user : ∀ va ∈ (range n).map (addrToPte addr + pageSize * ·), UserPage s.toPaging va := by
      intro va mem
      obtain ⟨k, hk, rfl⟩ := mem_map.mp mem
      have less := mem_range.mp hk
      apply ready.slots
      · unfold PageAddr addrToPte pageSize at *
        omega
      · unfold kernelEnd addrToPte pageSize at *
        omega
    refine ⟨fun u hu other => ?_, ?_⟩
    · exact vmallocFrom_others (s := { s.toSpace with blocks }) (by decide) (by decide) ready.tables user
        ready.frame loop hu other
    · rintro rfl
      have list : (range 1).map (addrToPte addr + pageSize * ·) = [addrToPte addr] := by simp
      rw [list] at loop user
      have hva := user (addrToPte addr) (mem_singleton.mpr rfl)
      have page := vmallocFrom_page (s := { s.toSpace with blocks }) (by decide) (by decide) ready.tables hva
        ready.frame loop
      have frames : s.frames ≠ [] := by
        apply ne_nil_of_length_pos
        refine Nat.lt_of_lt_of_le ?_ ready.enough
        have some := ready.some
        unfold pageSize
        omega
      rw [if_neg frames] at page
      obtain ⟨pa, rest, -, -, -, stored⟩ := page
      refine ⟨_, (stored.entry _ hva).trans (if_pos rfl), ?_⟩
      rw [Nat.testBit_or, show (ptePresent ||| (pteUs ||| pteRw)).testBit 2 = true by decide, Bool.true_or]

end

/-- `sys_mmap` maps the range it is asked for if and only if the range is within one page.  Tables that are open to
    users stay so, and new ones are. -/
theorem mmap_range_iff {s s' : VmState} {t addr size : Nat} (ready : MmapReady s addr size)
    (done : sysMmap s t addr size = .ok (s', 0)) :
    (RangeMapped s'.toPaging addr size ↔ addr % pageSize + size ≤ pageSize) ∧
      ∀ slots, OpenTables slots s.toPaging → OpenTables slots s'.toPaging := by
  obtain ⟨low, high, _, _, space, area, r, mapList, -, allocated, -, rfl⟩ := sysMmap_ok done
  obtain ⟨n, count, others, one⟩ := sysMmap_mapped ready done
  refine ⟨⟨?_, ?_⟩, fun slots h => ?_⟩
  · intro mapped
    by_contra larger
    -- the first page behind those that have been mapped
    have within : pageSize * n < addr % pageSize + size := by
      unfold pagesFor mmapPages pageSize at *
      omega
    have bound : n ≤ 256 := by
      rw [count]
      unfold pagesFor mmapPages pageSize
      omega
    have hu : PageAddr (addrToPte addr + pageSize * n) := by
      unfold PageAddr addrToPte pageSize userStackAddr at *
      omega
    have user : UserPage s.toPaging (addrToPte addr + pageSize * n) := by
      apply ready.slots _ hu
      unfold kernelEnd addrToPte pageSize userStackAddr at *
      omega
    have new : addrToPte addr + pageSize * n ∉ (range n).map (addrToPte addr + pageSize * ·) := by
      intro mem
      obtain ⟨k, hk, same⟩ := mem_map.mp mem
      have less := mem_range.mp hk
      unfold pageSize at same
      omega
    have byte : ∃ b, addr ≤ b ∧ b < addr + size ∧ b < 2 ^ 32 ∧ addrToPte b = addrToPte addr + pageSize * n := by
      refine ⟨max addr (addrToPte addr + pageSize * n), ?_, ?_, ?_, ?_⟩ <;>
        unfold addrToPte pageSize userStackAddr at * <;> omega
    obtain ⟨b, from_addr, before, word, page⟩ := byte
    obtain ⟨e, entry, -⟩ := mapped b from_addr before
    rw [← entry_addrToPte _ word, page, others _ user new, ready.unused _ hu (Nat.le_add_right _ _)] at entry
    · cases entry
    · unfold addrToPte pageSize at *
      omega
  · intro small b from_addr before
    have single : n = 1 := by
      unfold pagesFor mmapPages pageSize at *
      omega
    have page : addrToPte b = addrToPte addr := by
      unfold addrToPte pageSize at *
      omega
    have word : b < 2 ^ 32 := by
      unfold pageSize userStackAddr at *
      omega
    rw [← entry_addrToPte _ word, page]
    exact one single
  · show OpenTables slots space.toPaging
    rcases vmalloc_cases allocated with ⟨rfl, -⟩ | ⟨-, -, blocks, mmap, loop⟩
    · exact h
    · exact OpenTables.vmallocFrom (s := { s.toSpace with blocks }) h ⟨by decide, by decide⟩ ready.frame loop

/-- In `growSpace` nothing is mapped from 0x8802000 to 0x8804000. -/
theorem mmapState_ready (some : 0 < size) (low : 0x8802000 ≤ addr) (high : addr + size ≤ 0x8804000) :
    MmapReady (mmapState processVmInit.mapList) addr size where
  some := some
  tables := oneTable_tables
  slots _ hu _ := oneTable_user hu
  unused := by
    intro u hu from_page before
    have either : u = 0x8802000 ∨ u = 0x8803000 := by
      unfold PageAddr addrToPte at *
      omega
    cases either with
    | inl first =>
      rw [first]
      decide +kernel
    | inr second =>
      rw [second]
      decide +kernel
  frame := by decide
  enough := by
    show _ ≤ 2
    unfold pageSize
    omega
  block := cons_ne_nil _ _

theorem mmap_range_page :
    ∃ s', sysMmap (mmapState processVmInit.mapList) 0 0x8802004 100 = .ok (s', 0) ∧
      RangeMapped s'.toPaging 0x8802004 100 := by
  have ready := @mmapState_ready 0x8802004 100 (by decide) (by decide) (by decide)
  obtain ⟨s', done⟩ :=
    @sysMmap_returns 0x8802004 100 0 (mmapState processVmInit.mapList) (by decide +kernel)
  exact ⟨s', done, (mmap_range_iff ready done).1.mpr (by decide)⟩

/-- A range of two pages: `vmalloc` is asked for two bytes. -/
theorem mmap_second_page_missing : MmapReady (mmapState processVmInit.mapList) 0x8802000 0x2000 ∧
    ∃ s', sysMmap (mmapState processVmInit.mapList) 0 0x8802000 0x2000 = .ok (s', 0) ∧
      s'.entry 0x8803000 = none ∧ ¬ RangeMapped s'.toPaging 0x8802000 0x2000 := by
  have ready := @mmapState_ready 0x8802000 0x2000 (by decide) (by decide) (by decide)
  have found : okAnd (sysMmap (mmapState processVmInit.mapList) 0 0x8802000 0x2000)
      (fun p => p.2 = 0 ∧ p.1.entry 0x8803000 = none) = true := by
    decide +kernel
  obtain ⟨⟨s', r⟩, done, out⟩ := okAnd_iff.mp found
  obtain ⟨rfl, none⟩ := of_decide_eq_true out
  refine ⟨ready, s', done, none, fun mapped => ?_⟩
  obtain ⟨e, entry, -⟩ := mapped 0x8803000 (by decide) (by decide)
  cases none.symm.trans entry

/-! ## Removing an area -/

/-- What `sys_munmap` is for: the area at the page of the address is taken out of the list; without one, the call
    fails and changes nothing. -/
structure Removes (s : VmState) (t addr : Nat) : Prop where
  unlinks : ∀ a ∈ (s.vms t).mapList, a.vmstart = addrToPte addr →
    ∃ s' before area after, sysMunmap s t addr = .ok (s', 0) ∧ (s.vms t).mapList = before ++ area :: after ∧
      area.vmstart = addrToPte addr ∧ (s'.vms t).mapList = before ++ after
  fails : (∀ a ∈ (s.vms t).mapList, a.vmstart ≠ addrToPte addr) →
    ∃ s', sysMunmap s t addr = .ok (s', -1) ∧ (s'.vms t).mapList = (s.vms t).mapList ∧
      s'.toPaging = s.toPaging ∧ s'.frames.Perm s.frames

/-- The search moves `prev` along with `area`. -/
theorem munmapSearch_same (pageaddr n : Nat) (areas : List Area) :
    ∃ k, munmapSearch pageaddr areas n n = (k, k) ∧ n ≤ k := by
  induction areas generalizing n with
  | nil => exact ⟨n, rfl, Nat.le_refl n⟩
  | cons here rest ih =>
    cases rest with
    | nil => exact ⟨n, rfl, Nat.le_refl n⟩
    | cons next rest =>
      unfold munmapSearch
      split
      · exact ⟨n, rfl, Nat.le_refl n⟩
      · obtain ⟨k, found, le⟩ := ih (n + 1)
        exact ⟨k, found, Nat.le_of_succ_le le⟩

/-- The search stops at the first of several areas only if that one starts at the offset. -/
theorem munmapSearch_zero {pageaddr : Nat} {head : Area} {rest : List Area} (more : rest ≠ []) :
    munmapSearch pageaddr (head :: rest) 0 0 = (0, 0) ↔ head.vmstart = pageaddr := by
  obtain ⟨next, rest, rfl⟩ := exists_cons_of_ne_nil more
  unfold munmapSearch
  split
  · next here => exact iff_of_true rfl here
  · next other =>
    refine iff_of_false (fun stop => ?_) other
    obtain ⟨k, found, le⟩ := munmapSearch_same pageaddr 1 (next :: rest)
    rw [if_pos (Nat.succ_ne_zero 0), found] at stop
    cases stop
    cases le

/-- `show_mmap` skips the area behind this one. -/
def Skips (area : Area) : Bool :=
  sub32 area.vmend area.vmstart ≠ 0 ∧ area.vmflag &&& vmHeap = 0 ∧ area.vmflag &&& vmStack ≠ 0

/-- `show_mmap` ends where it comes to the last area: behind an even number, in a row, of areas that skip one. -/
theorem showMmap_iff (areas : List Area) :
    showMmap areas = .ok () ↔ areas ≠ [] ∧ (areas.dropLast.rtakeWhile Skips).length % 2 = 0 := by
  fun_induction showMmap areas with
  | case1 => simp [throw_eq_error]
  | case2 => simp [pure_eq_ok]
  | case3 area next rest skips ih =>
    have here : Skips area = true := decide_eq_true skips
    rw [ih]
    cases rest with
    | nil => simp [rtakeWhile, here]
    | cons last rest =>
      simp only [dropLast_cons_cons, rtakeWhile, reverse_cons, append_assoc, takeWhile_append, length_reverse]
      generalize (last :: rest).dropLast = front
      by_cases all : (takeWhile Skips front.reverse).length = front.length
      · cases behind : Skips next <;> simp [all, here, behind]
      · simp [all]
  | case4 area next rest other ih =>
    have here : Skips area = false := decide_eq_false other
    rw [ih]
    simp only [dropLast_cons_cons, rtakeWhile, reverse_cons, takeWhile_append, length_reverse]
    generalize (next :: rest).dropLast = front
    by_cases all : (takeWhile Skips front.reverse).length = front.length <;> simp [all, here]

/-- What a call of `sys_munmap` that returns has done: every area up to the one at which the search stopped is
    gone. -/
theorem sysMunmap_ok {r : Int} (done : sysMunmap s t addr = .ok (s', r)) :
    r = 0 ∧ ∃ k area p, munmapSearch (addr % pageSize) (s.vms t).mapList 0 0 = (k, k) ∧
      (s.vms t).mapList[k]? = some area ∧ vmdealloc s.toSpace area (munmapSize area) true = .ok p ∧
      showMmap ((s.vms t).mapList.drop (k + 1)) = .ok () ∧
      (s'.vms t).mapList = (s.vms t).mapList.drop (k + 1) := by
  obtain ⟨k, found, -⟩ := munmapSearch_same (addr % pageSize) 0 (s.vms t).mapList
  simp only [sysMunmap, found, if_pos] at done
  split at done
  · cases done
  · next area here =>
    obtain ⟨p, freed, done⟩ := bind_eq_ok.mp done
    obtain ⟨⟨⟩, shown, done⟩ := bind_eq_ok.mp done
    cases done
    exact ⟨rfl, k, area, p, found, here, freed, shown, by rw [setVm_self]⟩

/-- The only element whose removal leaves the tail of a list is its head, or one that is equal to it. -/
theorem eq_of_cons_append {α : Type} {head a : α} {before after : List α}
    (same : head :: (before ++ after) = before ++ a :: after) : head = a := by
  induction before generalizing head with
  | nil => exact (cons.inj same).1
  | cons b before ih =>
    obtain ⟨rfl, rest⟩ := cons.inj same
    exact ih rest

/-- `sys_munmap` does what it is for if and only if it is called with address 0 and the first of several areas
    starts there (and neither freeing its pages nor printing the others stops the kernel: the number of stack areas
    with pages directly before the last area is even). -/
theorem munmap_removes_iff (s : VmState) (t addr : Nat) : Removes s t addr ↔
    addr % 2 ^ 32 = 0 ∧ ∃ head rest, (s.vms t).mapList = head :: rest ∧ head.vmstart = 0 ∧
      (∃ p, vmdealloc s.toSpace head (munmapSize head) true = .ok p) ∧
      rest ≠ [] ∧ (rest.dropLast.rtakeWhile Skips).length % 2 = 0 := by
  constructor
  · intro removes
    by_cases none : ∀ a ∈ (s.vms t).mapList, a.vmstart ≠ addrToPte addr
    · obtain ⟨s', done, -⟩ := removes.fails none
      cases (sysMunmap_ok done).1
    · simp only [not_forall, Decidable.not_not] at none
      obtain ⟨a, ha, page⟩ := none
      obtain ⟨s', before, area, after, done, split, start, left⟩ := removes.unlinks a ha page
      obtain ⟨-, k, here, p, found, at_k, freed, shown, dropped⟩ := sysMunmap_ok done
      -- one area is gone, so that the search has stopped at the first one
      have lengths : (before ++ after).length = (before ++ area :: after).length - (k + 1) := by
        rw [← left, dropped, length_drop, split]
      have within : k < (before ++ area :: after).length := split ▸ (List.getElem?_eq_some_iff.mp at_k).1
      have first : k = 0 := by
        rw [length_append, length_append, length_cons] at lengths
        rw [length_append, length_cons] at within
        omega
      subst first
      obtain ⟨head, rest, areas⟩ : ∃ head rest, (s.vms t).mapList = head :: rest :=
        exists_cons_of_ne_nil (ne_nil_of_mem ha)
      rw [areas, getElem?_cons_zero, Option.some.injEq] at at_k
      rw [areas, drop_succ_cons, drop_zero] at shown dropped
      subst at_k
      have moved : head :: (before ++ after) = before ++ area :: after := by
        rw [← split, areas, ← left, dropped]
      have same := eq_of_cons_append moved
      have printed := (showMmap_iff rest).mp shown
      rw [areas, munmapSearch_zero printed.1, same, start] at found
      have zero : addr % 2 ^ 32 = 0 ∧ addrToPte addr = 0 := by
        unfold addrToPte pageSize at *
        omega
      exact ⟨zero.1, head, rest, areas, by rw [same, start, zero.2], ⟨p, freed⟩, printed⟩
  · rintro ⟨zero, head, rest, areas, start, ⟨p, freed⟩, more, even⟩
    have page : addrToPte addr = 0 := by
      unfold addrToPte
      omega
    have offset : addr % pageSize = 0 := by
      unfold pageSize
      omega
    have found : munmapSearch (addr % pageSize) (head :: rest) 0 0 = (0, 0) :=
      (munmapSearch_zero more).mpr (by rw [start, offset])
    constructor
    · intro a _ _
      refine ⟨{ s with toSpace := p.1 }.setVm t { s.vms t with mapList := rest }, [], head, rest, ?_, areas, ?_, ?_⟩
      · simp only [sysMunmap, areas, found]
        change (vmdealloc s.toSpace head (munmapSize head) true >>= _) = _
        rw [freed, ok_bind]
        change (showMmap rest >>= _) = _
        rw [(showMmap_iff rest).mpr ⟨more, even⟩, ok_bind]
        rfl
      · rw [start, page]
      · rw [setVm_self, nil_append]
    · intro none
      exact absurd (start.trans page.symm) (none head (areas ▸ mem_cons_self))

/-- `sys_munmap` of the heap of a new process loses all areas and does not return. -/
theorem munmap_loses_areas : (∃ a ∈ processVmInit.mapList, a.vmstart = addrToPte 0x8800000) ∧
    sysMunmap (mmapState processVmInit.mapList) 0 0x8800000 = .error .pageFault ∧
    ¬ Removes (mmapState processVmInit.mapList) 0 0x8800000 := by
  have fault : sysMunmap (mmapState processVmInit.mapList) 0 0x8800000 = .error .pageFault := rfl
  have heap : ∃ a ∈ processVmInit.mapList, a.vmstart = addrToPte 0x8800000 :=
    ⟨_, mem_cons_of_mem _ mem_cons_self, rfl⟩
  refine ⟨heap, fault, fun removes => ?_⟩
  obtain ⟨a, ha, start⟩ := heap
  obtain ⟨s', -, -, -, done, -⟩ := removes.unlinks a ha start
  cases fault.symm.trans done

end Illinix.Verified.Vm
