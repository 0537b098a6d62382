import Illinix.Verified.Vm.Areas

/-! # The break

`sys_sbrk` grows the heap by one page or not at all: by one page if the break is at the end of a page, or if the request
goes past the end of the page of the break.  The heap is in step with the break as long as each
request ends in the page that the call has mapped. -/

namespace Illinix.Verified.Vm

open Kernel Lib List

/-- The memory of a process as `process_vm_init` leaves it. -/
structure SbrkStart (s : VmState) (t : Nat) : Prop where
  init : s.vms t = processVmInit
  tables : TablesOk s.toPaging
  slots : UserSlots s.toPaging
  frame : ∀ f ∈ s.frames, FrameOk f

/-- A call of `sys_sbrk` that succeeds: the request, and what the call returns. -/
def SbrkStep (t : Nat) (s : VmState) (call : Nat × Nat) (s' : VmState) : Prop :=
  call.1 < 2 ^ 32 ∧ sysSbrk s t call.1 = .ok (s', call.2) ∧ call.2 ≠ 0

/-- Every byte below the break is in the heap area and in a page that is mapped, and the heap has no full page behind
    the break. -/
def Covers (s : VmState) (t : Nat) : Prop :=
  ∃ heap, (s.vms t).mapList.find? (fun a => a.vmflag &&& vmHeap ≠ 0) = some heap ∧
    (∀ b, (s.vms t).startBrk ≤ b → b < (s.vms t).brk →
      (heap.vmstart ≤ b ∧ b < heap.vmend) ∧ ∃ e, s.entry b = some e) ∧
    ¬ ∃ p, PageAddr p ∧ (s.vms t).brk ≤ p ∧ p + pageSize ≤ heap.vmend

/-- The request ends in the page that `sys_sbrk` adds or in the one of the break. -/
def FitsPage (brk size : Nat) : Prop :=
  (brk % pageSize = 0 ∧ 0 < size ∧ size ≤ pageSize) ∨ (0 < brk % pageSize ∧ brk % pageSize + size ≤ 2 * pageSize)

instance (brk size : Nat) : Decidable (FitsPage brk size) := inferInstanceAs (Decidable (_ ∨ _))

/-- A call of `sys_sbrk` whose request fits. -/
def CarefulSbrk (t : Nat) (s : VmState) (call : Nat × Nat) (s' : VmState) : Prop :=
  SbrkStep t s call s' ∧ FitsPage (s.vms t).brk call.1

/-- The heap of the process ends at `stop`, and its pages are mapped.  This holds after every call, whatever was
    requested. -/
structure HeapAt (s : VmState) (t stop : Nat) : Prop where
  areas : ∃ file array stack, file.vmflag &&& vmHeap = 0 ∧
    (s.vms t).mapList = [file, ⟨array, 0x8800000, stop, 6 + vmHeap⟩, stack]
  startBrk : (s.vms t).startBrk = 0x8800000
  page : stop % pageSize = 0
  order : 0x8800000 ≤ stop
  low : stop ≤ 2 ^ 31
  mapped : ∀ u, PageAddr u → 0x8800000 ≤ u → u < stop → ∃ e, s.entry u = some e
  tables : TablesOk s.toPaging
  slots : UserSlots s.toPaging
  frame : ∀ f ∈ s.frames, FrameOk f

theorem SbrkStart.heapAt {s : VmState} {t : Nat} (start : SbrkStart s t) : HeapAt s t 0x8800000 := by
  obtain ⟨init, tables, slots, frame⟩ := start
  refine ⟨⟨_, _, _, ?_, by rw [init]; rfl⟩, by rw [init]; rfl, by decide, Nat.le_refl _, by decide,
    fun u _ above below => absurd below (Nat.not_lt.mpr above), tables, slots, frame⟩
  decide

section

variable {s s' : VmState} {t stop size r : Nat}

/-- The heap covers the break if the break is in its last page, or at its end. -/
theorem HeapAt.covers_iff (heap : HeapAt s t stop) (above : 0x8800000 ≤ (s.vms t).brk) :
    Covers s t ↔ (s.vms t).brk ≤ stop ∧ stop < (s.vms t).brk + pageSize := by
  obtain ⟨file, array, stack, other, areas⟩ := heap.areas
  have found : (s.vms t).mapList.find? (fun a => a.vmflag &&& vmHeap ≠ 0) =
      some ⟨array, 0x8800000, stop, 6 + vmHeap⟩ := by
    have flagged : decide ((6 + vmHeap) &&& vmHeap ≠ 0) = true := by decide
    rw [areas, find?_cons_of_neg (by simpa using other)]
    exact find?_cons_of_pos flagged
  have aligned := heap.page
  have low := heap.low
  have order := heap.order
  constructor
  · rintro ⟨area, first, bytes, full⟩
    rw [found, Option.some.injEq] at first
    subst first
    refine ⟨Nat.not_lt.mp fun beyond => ?_, Nat.not_le.mp fun large => ?_⟩
    · -- the first byte behind the heap has been granted
      have granted := (bytes stop (by rw [heap.startBrk]; exact order) beyond).1.2
      exact absurd granted (Nat.lt_irrefl stop)
    · apply full
      refine ⟨stop - pageSize, ?_, by omega, ?_⟩
      · unfold PageAddr pageSize at *
        omega
      · show stop - pageSize + pageSize ≤ stop
        omega
  · rintro ⟨le, tight⟩
    refine ⟨_, found, fun b from_start before => ?_, ?_⟩
    · rw [heap.startBrk] at from_start
      have inside : b < stop := Nat.lt_of_lt_of_le before le
      obtain ⟨e, entry⟩ := heap.mapped (addrToPte b) (pageAddr_addrToPte b)
        (by unfold addrToPte; omega) (by unfold addrToPte; omega)
      rw [entry_addrToPte s.toPaging (by omega)] at entry
      exact ⟨⟨from_start, inside⟩, e, entry⟩
    · rintro ⟨p, -, behind, within⟩
      change p + pageSize ≤ stop at within
      omega

theorem HeapAt.vmalloc_page (heap : HeapAt s t stop) {array : Nat → Nat} {space : Space} {area : Area} {result : Int}
    (grown : vmalloc s.toSpace ⟨array, 0x8800000, stop, 6 + vmHeap⟩ pageSize (pteRw ||| pteUs) =
      .ok (space, area, result)) (success : result ≠ -1) :
    (∃ array', area = ⟨array', 0x8800000, stop + pageSize, 6 + vmHeap⟩) ∧ stop < 2 ^ 31 ∧
      (∃ pa, s.frames = pa :: space.frames) ∧
      ∃ e, Stored s.toPaging stop (some e) 1 space.toPaging := by
  have low := heap.low
  have user : UserPage s.toPaging stop := by
    have aligned := heap.page
    have order := heap.order
    apply heap.slots
    · unfold PageAddr pageSize at *
      omega
    · unfold kernelEnd
      omega
  have one : addrToPte ((pageSize : Int).toNat + pageSize - 1) = pageSize := by decide
  have word : (stop + pageSize) % 2 ^ 32 = stop + pageSize := by
    unfold pageSize
    omega
  have page : pageRange stop (stop + pageSize) = [stop] := by
    have pages := pageRange_pages stop 1
    rw [Nat.mul_one] at pages
    rw [pages, range_one, map_singleton, Nat.mul_zero, Nat.add_zero]
  rcases vmalloc_cases grown with ⟨-, -, ⟨-, failed⟩ | ⟨zero, -⟩ | ⟨-, failed⟩⟩ | ⟨-, -, blocks, mmap, loop⟩
  · exact absurd failed success
  · exact absurd zero (by decide)
  · exact absurd failed success
  · simp only [one, word, page] at loop
    obtain ⟨start, stop', flag⟩ := vmallocFrom_area loop
    have entered := vmallocFrom_page (s := { s.toSpace with blocks }) (by decide) (by decide) heap.tables user
      heap.frame loop
    split at entered
    · exact absurd entered success
    · obtain ⟨pa, rest, frames, rfl, lower, stored⟩ := entered
      obtain ⟨array', _, _, _⟩ := area
      exact ⟨⟨array', by rw [Area.mk.injEq]; exact ⟨rfl, start, stop', flag⟩⟩, lower, ⟨pa, frames⟩, _, stored⟩

theorem HeapAt.sysSbrk (heap : HeapAt s t stop) (done : sysSbrk s t size = .ok (s', r)) (success : r ≠ 0) :
    r = (s.vms t).brk ∧ (s'.vms t).brk = ((s.vms t).brk + size) % 2 ^ 32 ∧
      ((NeedsPage (s.vms t) size ∧ HeapAt s' t (stop + pageSize)) ∨
        (¬ NeedsPage (s.vms t) size ∧ HeapAt s' t stop)) := by
  obtain ⟨file, array, stack, other, areas⟩ := heap.areas
  simp only [Kernel.sysSbrk] at done
  split at done
  · next needs =>
    rw [areas] at done
    have first := @onFirst_append s.toSpace _ _ (fun s heap => vmalloc s heap pageSize (pteRw ||| pteUs)) [file] [stack]
      ⟨array, 0x8800000, stop, 6 + vmHeap⟩ (forall_mem_singleton.mpr other) (show (6 + vmHeap) &&& vmHeap ≠ 0 by decide)
    rw [singleton_append] at first
    rw [first] at done
    obtain ⟨⟨space, mapList, result⟩, grown, done⟩ := bind_eq_ok.mp done
    obtain ⟨⟨space', area, result'⟩, allocated, same⟩ := bind_eq_ok.mp grown
    cases same
    simp only at done
    split at done
    · cases done
      exact absurd rfl success
    · next mapped =>
      obtain ⟨-, -, done⟩ := bind_eq_ok.mp done
      cases done
      obtain ⟨⟨array', rfl⟩, lower, ⟨pa, frames⟩, e, stored⟩ := heap.vmalloc_page allocated mapped
      have aligned := heap.page
      have order := heap.order
      refine ⟨rfl, by rw [setVm_self], .inl ⟨needs, ⟨file, array', stack, other, ?_⟩, ?_, ?_, ?_, ?_, ?_,
        stored.tables, ?_, ?_⟩⟩
      · simp only [setVm_self, singleton_append]
      · simp only [setVm_self]
        exact heap.startBrk
      · unfold pageSize at *
        omega
      · omega
      · unfold pageSize at *
        omega
      · intro u hu above below
        have user : UserPage s.toPaging u := by
          apply heap.slots u hu
          unfold kernelEnd
          omega
        show ∃ e, space'.entry u = some e
        rw [stored.entry u user]
        split
        · exact ⟨e, rfl⟩
        · next differ =>
          apply heap.mapped u hu above
          have alignedU := hu.1
          unfold pageSize at *
          omega
      · exact fun u hu above => (stored.user u).mpr (heap.slots u hu above)
      · intro f hf
        apply heap.frame
        rw [frames]
        exact mem_cons_of_mem _ hf
  · next stays =>
    cases done
    refine ⟨rfl, by rw [setVm_self], .inr ⟨stays, ⟨file, array, stack, other, by rw [setVm_self]; exact areas⟩, ?_,
      heap.page, heap.order, heap.low, heap.mapped, heap.tables, heap.slots, heap.frame⟩⟩
    rw [setVm_self]
    exact heap.startBrk

end

/-- The arithmetic of one call: the break is again in the last page of the heap, or at its end, if and only if the
    request fits. -/
theorem fitsPage_iff {brk stop stop' size : Nat} (le : brk ≤ stop) (tight : stop < brk + pageSize)
    (aligned : stop % pageSize = 0) (low : stop ≤ 2 ^ 31) (word : size < 2 ^ 32)
    (grown : ((brk % pageSize = 0 ∨ pageSize < (size + brkOffset brk) % 2 ^ 32) ∧ stop' = stop + pageSize) ∨
      (¬ (brk % pageSize = 0 ∨ pageSize < (size + brkOffset brk) % 2 ^ 32) ∧ stop' = stop)) :
    ((brk + size) % 2 ^ 32 = brk + size ∧ (brk + size) % 2 ^ 32 ≤ stop' ∧ stop' < (brk + size) % 2 ^ 32 + pageSize) ↔
      FitsPage brk size := by
  have offset : brk % pageSize = 0 ∨ brkOffset brk = brk % pageSize := by
    unfold brkOffset
    split
    · exact .inr rfl
    · left
      have whole : brk = stop := by omega
      rw [whole, aligned]
  unfold FitsPage
  unfold pageSize at *
  omega

section

variable {s s' u : VmState} {t stop : Nat} {call : Nat × Nat}

/-- The heap is in step with the break. -/
def InStep (s : VmState) (t : Nat) : Prop :=
  ∃ stop, HeapAt s t stop ∧ 0x8800000 ≤ (s.vms t).brk ∧ (s.vms t).brk ≤ stop ∧ stop < (s.vms t).brk + pageSize

theorem InStep.covers (h : InStep s t) : Covers s t := by
  obtain ⟨stop, heap, above, bounds⟩ := h
  exact (heap.covers_iff above).mpr bounds

/-- One call: it returns the old break, and the heap stays in step if and only if the request fits. -/
theorem InStep.sbrk (h : InStep s t) (step : SbrkStep t s call s') : call.2 = (s.vms t).brk ∧
    ((s'.vms t).brk = (s.vms t).brk + call.1 ∧ Covers s' t ↔ FitsPage (s.vms t).brk call.1) ∧
    (FitsPage (s.vms t).brk call.1 → InStep s' t) := by
  obtain ⟨stop, heap, above, le, tight⟩ := h
  obtain ⟨word, done, success⟩ := step
  obtain ⟨old, brk, grown⟩ := heap.sysSbrk done success
  obtain ⟨stop', heap', grown'⟩ : ∃ stop', HeapAt s' t stop' ∧
      ((NeedsPage (s.vms t) call.1 ∧ stop' = stop + pageSize) ∨ (¬ NeedsPage (s.vms t) call.1 ∧ stop' = stop)) := by
    rcases grown with ⟨needs, heap'⟩ | ⟨stays, heap'⟩
    · exact ⟨_, heap', .inl ⟨needs, rfl⟩⟩
    · exact ⟨_, heap', .inr ⟨stays, rfl⟩⟩
  have fits := fitsPage_iff le tight heap.page heap.low word grown'
  rw [← brk] at fits
  refine ⟨old, ?_, fun cond => ?_⟩
  · rw [← fits]
    constructor
    · rintro ⟨advanced, covers⟩
      exact ⟨advanced, (heap'.covers_iff (by omega)).mp covers⟩
    · rintro ⟨advanced, bounds⟩
      exact ⟨advanced, (heap'.covers_iff (by omega)).mpr bounds⟩
  · obtain ⟨advanced, bounds⟩ := fits.mpr cond
    exact ⟨stop', heap', by omega, bounds⟩

theorem SbrkStart.inStep (start : SbrkStart s t) : InStep s t := by
  refine ⟨_, start.heapAt, ?_⟩
  rw [start.init]
  decide

theorem InStep.run {calls : List (Nat × Nat)} (h : InStep s t) (run : Run (CarefulSbrk t) s calls s') : InStep s' t :=
  run.invariant (fun s _ _ (inStep : InStep s t) careful => (inStep.sbrk careful.1).2.2 careful.2) h

end

/-- After any sequence of successful calls of `sys_sbrk` whose requests fit, the heap covers the break; and a further
    call returns the old break, advances it by its request and leaves it covered if and only if its request fits. -/
theorem sbrk_covers_iff {s s' : VmState} {t : Nat} {calls : List (Nat × Nat)} (start : SbrkStart s t)
    (run : Run (CarefulSbrk t) s calls s') :
    Covers s' t ∧ ∀ call u, SbrkStep t s' call u → call.2 = (s'.vms t).brk ∧
      ((u.vms t).brk = (s'.vms t).brk + call.1 ∧ Covers u t ↔ FitsPage (s'.vms t).brk call.1) := by
  have inStep := start.inStep.run run
  refine ⟨inStep.covers, fun call u step => ?_⟩
  obtain ⟨old, fits, -⟩ := inStep.sbrk step
  exact ⟨old, fits⟩

/-- A new process, with the page tables and frames of `growSpace`. -/
def sbrkState : VmState :=
  { toPaging := oneTable 0x8048000 0x4000007
    frames := [0x5000000, 0x5001000]
    mem := fun _ _ => 0
    blocks := [fun _ => 0]
    vms := fun _ => processVmInit
    init := 1 }

theorem sbrkState_start : SbrkStart sbrkState 0 where
  init := rfl
  tables := oneTable_tables
  slots _ hu _ := oneTable_user hu
  frame := show ∀ f ∈ [0x5000000, 0x5001000], FrameOk f by decide

theorem sbrk_covers_request :
    ∃ s', Run (CarefulSbrk 0) sbrkState [(100, 0x8800000)] s' ∧ Covers s' 0 := by
  have found : okAnd (sysSbrk sbrkState 0 100) (fun p => p.2 = 0x8800000) = true := by decide +kernel
  obtain ⟨⟨s', r⟩, done, returned⟩ := okAnd_iff.mp found
  obtain rfl : r = 0x8800000 := of_decide_eq_true returned
  have step : SbrkStep 0 sbrkState (100, 0x8800000) s' := ⟨by decide, done, by decide⟩
  have run : Run (CarefulSbrk 0) sbrkState [(100, 0x8800000)] s' := .cons ⟨step, by decide⟩ (.nil s')
  exact ⟨s', run, (sbrk_covers_iff sbrkState_start run).1⟩

/-- The first request of a process is for two pages: one is mapped. -/
theorem sbrk_two_pages : SbrkStart sbrkState 0 ∧
    ∃ s', Run (SbrkStep 0) sbrkState [(0x2000, 0x8800000)] s' ∧ (s'.vms 0).brk = 0x8802000 ∧
      s'.entry 0x8801000 = none ∧ ¬ Covers s' 0 := by
  have found : okAnd (sysSbrk sbrkState 0 0x2000) (fun p => p.2 = 0x8800000 ∧ (p.1.vms 0).brk = 0x8802000 ∧
      (p.1.vms 0).startBrk = 0x8800000 ∧ p.1.entry 0x8801000 = none) = true := by
    decide +kernel
  obtain ⟨⟨s', r⟩, done, out⟩ := okAnd_iff.mp found
  obtain ⟨rfl, brk, startBrk, absent⟩ := of_decide_eq_true out
  refine ⟨sbrkState_start, s', .cons ⟨by decide, done, by decide⟩ (.nil s'), brk, absent, ?_⟩
  rintro ⟨heap, -, bytes, -⟩
  obtain ⟨-, e, mapped⟩ := bytes 0x8801000 (by rw [startBrk]; decide) (by rw [brk]; decide)
  cases absent.symm.trans mapped

end Illinix.Verified.Vm
